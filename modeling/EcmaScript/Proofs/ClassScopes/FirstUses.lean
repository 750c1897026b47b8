import EcmaScript.ClassScopes
import Mathlib.Data.Finset.Card
import Mathlib.Order.Bounds.Basic

namespace EcmaScript

/-!
# First uses

What waits in the scope of a class is a list of names, each with its first use. This file has the
laws of such lists, which do not know of classes.

* `noteUse`, `noteUses` — a list after one use more, and after several;
* `find?_noteUses` — the use that is kept for a name is the first one;
* `noteUses_noteUses` — it does not matter whether uses are collected at once or list by list;
* `noteUses_noteUses_self`, `noteUses_between` — nor whether they are collected twice, or some of
  them are;
* `filter_noteUses` — names may be left out before or after;
* `earliest?_isLeast` — what `earliest?` finds.
-/

/-- A list of first uses after one use more. -/
def noteUse (w : List (String × Span)) (e : String × Span) : List (String × Span) :=
  if w.any fun f => f.1 == e.1 then w else w ++ [e]

/-- A list of first uses after several uses more, in their order. -/
def noteUses (w es : List (String × Span)) : List (String × Span) := es.foldl noteUse w

theorem ClassScope.await_eq (s : ClassScope) (name : String) (span : Span) :
    s.await name span = { s with waiting := noteUse s.waiting (name, span) } := by
  unfold ClassScope.await noteUse
  split <;> rfl

theorem ClassScope.foldl_await (s : ClassScope) (es : List (String × Span)) :
    es.foldl (fun o e => o.await e.1 e.2) s = { s with waiting := noteUses s.waiting es } := by
  induction es generalizing s with
  | nil => rfl
  | cons e es ih =>
    rw [List.foldl_cons, ih, ClassScope.await_eq]
    rfl

@[simp] theorem noteUses_nil (w : List (String × Span)) : noteUses w [] = w := rfl

@[simp] theorem noteUses_cons (w : List (String × Span)) (e : String × Span)
    (es : List (String × Span)) : noteUses w (e :: es) = noteUses (noteUse w e) es := rfl

theorem noteUses_append (w es fs : List (String × Span)) :
    noteUses w (es ++ fs) = noteUses (noteUses w es) fs :=
  List.foldl_append

/-! ### What is in the list -/

theorem mem_noteUses {w es : List (String × Span)} {e : String × Span} (h : e ∈ noteUses w es) :
    e ∈ w ∨ e ∈ es := by
  induction es generalizing w with
  | nil => exact .inl h
  | cons f es ih =>
    rw [noteUses_cons] at h
    rcases ih h with h | h
    · unfold noteUse at h
      split at h
      · exact .inl h
      · rcases List.mem_append.1 h with h | h
        · exact .inl h
        · exact .inr (List.mem_singleton.1 h ▸ List.mem_cons_self)
    · exact .inr (List.mem_cons_of_mem _ h)

theorem mem_noteUses_of_mem {w : List (String × Span)} {e : String × Span} (h : e ∈ w)
    (es : List (String × Span)) : e ∈ noteUses w es := by
  induction es generalizing w with
  | nil => exact h
  | cons f es ih =>
    refine ih ?_
    unfold noteUse
    split
    · exact h
    · exact List.mem_append_left _ h

theorem find?_noteUse (w : List (String × Span)) (e : String × Span) (n : String) :
    (noteUse w e).find? (fun f => f.1 == n)
      = (w.find? fun f => f.1 == n).or (if e.1 = n then some e else none) := by
  unfold noteUse
  by_cases hknown : w.any (fun f => f.1 == e.1) = true
  · rw [if_pos hknown]
    by_cases he : e.1 = n
    · subst he
      -- The name is known, so the use that was kept for it is found.
      have hsome : (w.find? fun f => f.1 == e.1).isSome := by
        rwa [List.find?_isSome, ← List.any_eq_true]
      obtain ⟨f, hf⟩ := Option.isSome_iff_exists.1 hsome
      rw [hf]
      rfl
    · rw [if_neg he, Option.or_none]
  · rw [if_neg hknown, List.find?_append]
    by_cases he : e.1 = n <;> simp [he]

/-- The use that is kept for a name is the one that was there before, or else the first one. -/
theorem find?_noteUses (w es : List (String × Span)) (n : String) :
    (noteUses w es).find? (fun f => f.1 == n)
      = (w.find? fun f => f.1 == n).or (es.find? fun f => f.1 == n) := by
  induction es generalizing w with
  | nil => simp
  | cons e es ih =>
    rw [noteUses_cons, ih, find?_noteUse, Option.or_assoc, List.find?_cons]
    by_cases he : e.1 = n
    · simp [he]
    · simp [he, beq_eq_false_iff_ne.2 he]

theorem any_noteUses (w es : List (String × Span)) (n : String) :
    (noteUses w es).any (fun f => f.1 == n)
      = (w.any (fun f => f.1 == n) || es.any fun f => f.1 == n) := by
  have h := congrArg Option.isSome (find?_noteUses w es n)
  simpa only [Option.isSome_or, List.isSome_find?] using h

/-- Names that are in the list are not noted again. -/
theorem noteUses_of_known {w es : List (String × Span)}
    (h : ∀ e ∈ es, w.any (fun f => f.1 == e.1) = true) : noteUses w es = w := by
  induction es with
  | nil => rfl
  | cons e es ih =>
    have hknown : noteUse w e = w := by
      unfold noteUse
      rw [if_pos (h e List.mem_cons_self)]
    rw [noteUses_cons, hknown]
    exact ih fun f hf => h f (List.mem_cons_of_mem _ hf)

theorem noteUses_noteUses_self (w es : List (String × Span)) :
    noteUses (noteUses w es) es = noteUses w es := by
  refine noteUses_of_known fun e he => ?_
  rw [any_noteUses, Bool.or_eq_true]
  exact .inr (List.any_eq_true.2 ⟨e, he, beq_self_eq_true _⟩)

theorem nodup_noteUse {w : List (String × Span)} (hw : (w.map Prod.fst).Nodup)
    (e : String × Span) : ((noteUse w e).map Prod.fst).Nodup := by
  unfold noteUse
  split
  · exact hw
  · next hnew =>
    rw [List.map_append, List.nodup_append]
    refine ⟨hw, List.nodup_singleton _, ?_⟩
    intro a ha b hb hab
    obtain ⟨f, hf, rfl⟩ := List.mem_map.1 ha
    obtain rfl : b = e.1 := by simpa using hb
    exact hnew (List.any_eq_true.2 ⟨f, hf, by simpa using hab⟩)

/-- Each name is in the list at most once. -/
theorem nodup_noteUses {w : List (String × Span)} (hw : (w.map Prod.fst).Nodup)
    (es : List (String × Span)) : ((noteUses w es).map Prod.fst).Nodup := by
  induction es generalizing w with
  | nil => exact hw
  | cons e es ih => exact ih (nodup_noteUse hw e)

theorem nodup_firstUses (es : List (String × Span)) :
    ((noteUses [] es).map Prod.fst).Nodup :=
  nodup_noteUses (w := []) .nil es

/-- In a list that has each name once, an entry is what is found for its name. -/
theorem mem_iff_find?_of_nodup {w : List (String × Span)} (hw : (w.map Prod.fst).Nodup)
    (e : String × Span) : e ∈ w ↔ w.find? (fun f => f.1 == e.1) = some e := by
  refine ⟨fun he => ?_, List.mem_of_find?_eq_some⟩
  induction w with
  | nil => simp at he
  | cons f w ih =>
    rw [List.map_cons, List.nodup_cons] at hw
    rw [List.find?_cons]
    by_cases hf : f.1 = e.1
    · rcases List.mem_cons.1 he with rfl | he
      · simp
      · exact absurd (List.mem_map.2 ⟨e, he, hf.symm⟩) hw.1
    · rcases List.mem_cons.1 he with rfl | he
      · exact absurd rfl hf
      · rw [beq_eq_false_iff_ne.2 hf]
        exact ih hw.2 he

/-- The entries are the first uses of the names. -/
theorem mem_noteUses_nil_iff (es : List (String × Span)) (e : String × Span) :
    e ∈ noteUses [] es ↔ es.find? (fun f => f.1 == e.1) = some e := by
  rw [mem_iff_find?_of_nodup (nodup_firstUses es), find?_noteUses]
  rfl

/-- There are as many entries as names that are used. -/
theorem length_noteUses_nil (es : List (String × Span)) :
    (noteUses [] es).length = (es.map Prod.fst).toFinset.card := by
  have hsame : ((noteUses [] es).map Prod.fst).toFinset = (es.map Prod.fst).toFinset := by
    ext n
    have h := any_noteUses [] es n
    rw [List.any_nil, Bool.false_or, Bool.eq_iff_iff, List.any_eq_true, List.any_eq_true] at h
    simp only [beq_iff_eq] at h
    simpa only [List.mem_toFinset, List.mem_map] using h
  rw [← hsame, List.toFinset_card_of_nodup (nodup_firstUses es), List.length_map]

theorem noteUses_eq_nil_iff (w es : List (String × Span)) :
    noteUses w es = [] ↔ w = [] ∧ es = [] := by
  constructor
  · intro h
    have hany : ∀ n, (w.any (fun f => f.1 == n) || es.any fun f => f.1 == n) = false := by
      intro n
      rw [← any_noteUses, h]
      rfl
    constructor
    · refine List.eq_nil_iff_forall_not_mem.2 fun e he => ?_
      have := hany e.1
      simp only [Bool.or_eq_false_iff, List.any_eq_false] at this
      exact this.1 e he (by simp)
    · refine List.eq_nil_iff_forall_not_mem.2 fun e he => ?_
      have := hany e.1
      simp only [Bool.or_eq_false_iff, List.any_eq_false] at this
      exact this.2 e he (by simp)
  · rintro ⟨rfl, rfl⟩
    rfl

/-- Uses of different names are all kept. -/
theorem noteUses_of_nodup {w es : List (String × Span)} (h : ((w ++ es).map Prod.fst).Nodup) :
    noteUses w es = w ++ es := by
  induction es generalizing w with
  | nil => exact (List.append_nil w).symm
  | cons e es ih =>
    have hnew : ¬ w.any (fun f => f.1 == e.1) = true := by
      intro hknown
      obtain ⟨f, hf, hname⟩ := List.any_eq_true.1 hknown
      rw [List.map_append, List.nodup_append] at h
      refine h.2.2 f.1 (List.mem_map_of_mem hf) e.1 (List.mem_map_of_mem List.mem_cons_self) ?_
      exact beq_iff_eq.1 hname
    have hone : noteUse w e = w ++ [e] := if_neg hnew
    have happend : w ++ e :: es = w ++ [e] ++ es := by rw [List.append_assoc, List.singleton_append]
    rw [noteUses_cons, hone, happend]
    exact ih (happend ▸ h)

/-! ### Collecting in another order -/

theorem noteUse_of_any {w : List (String × Span)} {e : String × Span}
    (h : w.any (fun f => f.1 == e.1) = true) : noteUse w e = w := by
  rw [noteUse, if_pos h]

theorem noteUses_noteUse (w v : List (String × Span)) (e : String × Span) :
    noteUses w (noteUse v e) = noteUse (noteUses w v) e := by
  by_cases hknown : v.any (fun f => f.1 == e.1) = true
  · rw [noteUse_of_any hknown, noteUse_of_any]
    rw [any_noteUses, hknown, Bool.or_true]
  · rw [noteUse, if_neg hknown, noteUses_append]
    rfl

/-- Uses may be collected apart and then moved. -/
theorem noteUses_noteUses (w v es : List (String × Span)) :
    noteUses w (noteUses v es) = noteUses (noteUses w v) es := by
  induction es generalizing v with
  | nil => rfl
  | cons e es ih => rw [noteUses_cons, ih, noteUses_noteUse, noteUses_cons]

/-- The uses that were there stay where they are. -/
theorem prefix_noteUses (w es : List (String × Span)) : w <+: noteUses w es := by
  induction es generalizing w with
  | nil => exact List.prefix_refl w
  | cons e es ih =>
    have hone : w <+: noteUse w e := by
      unfold noteUse
      split
      · exact List.prefix_refl w
      · exact List.prefix_append w [e]
    exact hone.trans (ih _)

/-- What is collected on top of a part of what it comes to, comes to the same. -/
theorem noteUses_between {w p es : List (String × Span)} (hw : w <+: p)
    (hp : p <+: noteUses w es) : noteUses p es = noteUses w es := by
  induction es generalizing w p with
  | nil => exact hp.eq_of_length_le hw.length_le
  | cons e es ih =>
    rw [noteUses_cons] at hp ⊢
    by_cases hknown : w.any (fun f => f.1 == e.1) = true
    · have hthere : p.any (fun f => f.1 == e.1) = true := by
        obtain ⟨f, hf, hname⟩ := List.any_eq_true.1 hknown
        exact List.any_eq_true.2 ⟨f, hw.subset hf, hname⟩
      rw [noteUse_of_any hknown] at hp
      rw [noteUses_cons, noteUse_of_any hknown, noteUse_of_any hthere]
      exact ih hw hp
    have hone : noteUse w e = w ++ [e] := if_neg hknown
    obtain rfl | hlong : w = p ∨ w.length < p.length := by
      obtain hlt | heq := Nat.lt_or_eq_of_le hw.length_le
      · exact .inr hlt
      · exact .inl (hw.eq_of_length heq)
    · rfl
    -- The longer list has the next use already.
    have hnext : noteUse w e <+: p := by
      refine List.prefix_of_prefix_length_le (prefix_noteUses _ es) hp ?_
      rw [hone, List.length_append]
      exact hlong
    have hthere : p.any (fun f => f.1 == e.1) = true := by
      refine List.any_eq_true.2 ⟨e, hnext.subset ?_, beq_self_eq_true _⟩
      rw [hone]
      exact List.mem_append_right _ (List.mem_singleton_self e)
    rw [noteUses_cons, noteUse_of_any hthere]
    exact ih hnext hp

theorem filter_noteUse (p : String → Bool) (w : List (String × Span)) (e : String × Span) :
    (noteUse w e).filter (fun f => p f.1)
      = if p e.1 then noteUse (w.filter fun f => p f.1) e else w.filter fun f => p f.1 := by
  unfold noteUse
  by_cases hp : p e.1 = true
  · rw [if_pos hp]
    -- Entries with the name of `e` pass the filter, so it is known before iff it is known after.
    have hany : ((w.filter fun f => p f.1).any fun f => f.1 == e.1)
        = w.any fun f => f.1 == e.1 := by
      rw [List.any_filter, Bool.eq_iff_iff, List.any_eq_true, List.any_eq_true]
      constructor
      · rintro ⟨f, hf, h⟩
        exact ⟨f, hf, (Bool.and_eq_true _ _ ▸ h).2⟩
      · rintro ⟨f, hf, h⟩
        refine ⟨f, hf, ?_⟩
        rw [show f.1 = e.1 by simpa using h, hp]
        simp
    rw [hany]
    split
    · rfl
    · rw [List.filter_append]
      simp [hp]
  · rw [if_neg hp]
    split
    · rfl
    · rw [List.filter_append]
      simp [hp]

/-- Names may be left out before the uses are collected, or after. -/
theorem filter_noteUses (p : String → Bool) (w es : List (String × Span)) :
    (noteUses w es).filter (fun f => p f.1)
      = noteUses (w.filter fun f => p f.1) (es.filter fun f => p f.1) := by
  induction es generalizing w with
  | nil => rfl
  | cons e es ih =>
    rw [noteUses_cons, ih, filter_noteUse, List.filter_cons]
    by_cases hp : p e.1 = true <;> simp [hp]

/-! ### The earliest entry -/

theorem earliest?_eq_none_iff (w : List (String × Span)) : earliest? w = none ↔ w = [] := by
  cases w with
  | nil => simp [earliest?]
  | cons e w =>
    simp only [earliest?, reduceCtorEq, iff_false]
    split
    · split <;> simp
    · simp

/-- The earliest entry starts where the first of all starts. -/
theorem earliest?_isLeast {w : List (String × Span)} {span : Span} (h : earliest? w = some span) :
    IsLeast {n | ∃ e ∈ w, e.2.start = n} span.start := by
  induction w generalizing span with
  | nil => simp [earliest?] at h
  | cons e w ih =>
    simp only [earliest?] at h
    split at h
    next other hother =>
      obtain ⟨⟨f, hf, hstart⟩, hleast⟩ := ih hother
      split at h
      next hlt =>
        obtain rfl := Option.some.inj h
        refine ⟨⟨f, List.mem_cons_of_mem _ hf, hstart⟩, ?_⟩
        rintro n ⟨g, hg, rfl⟩
        rcases List.mem_cons.1 hg with rfl | hg
        · exact Nat.le_of_lt hlt
        · exact hleast ⟨g, hg, rfl⟩
      next hge =>
        obtain rfl := Option.some.inj h
        refine ⟨⟨e, List.mem_cons_self, rfl⟩, ?_⟩
        rintro n ⟨g, hg, rfl⟩
        rcases List.mem_cons.1 hg with rfl | hg
        · exact Nat.le_refl _
        · exact Nat.le_trans (Nat.le_of_not_lt hge) (hleast ⟨g, hg, rfl⟩)
    next hnone =>
      obtain rfl := (earliest?_eq_none_iff w).1 hnone
      obtain rfl := Option.some.inj h
      exact ⟨⟨e, List.mem_cons_self, rfl⟩, by rintro n ⟨g, hg, rfl⟩; simp_all⟩

end EcmaScript

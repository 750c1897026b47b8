import EcmaScript.Proofs.Grammar.Composed

namespace EcmaScript

open EcmaScript.Parser

/-!
# Private names in scripts that could be read

The scopes follow the tree: a use that no class below resolves is declared by a class around the
place that has been reached, or waits in the innermost one. At the end of the text no class is
left, so every use is resolved.

* `ClassScopes.Covers`, `ClassScopes.Waits` — a name that is declared around a place or waits there,
  and scopes in which something waits;
* `Node.DeclaresOnce` — the private names of a class are different, and no name of a constructor;
* `Resolves`, `ResolvesInside` — what a part leaves behind, outside and inside of the class it
  belongs to;
* `resolves_compositional` — this goes from the parts to the whole.
-/

namespace ClassScopes

/-- A class around the place has declared the name, or the name waits in the innermost one. -/
def Covers (s : ClassScopes) (name : String) : Prop :=
  s.declares name = true
    ∨ ∃ inner outer, s = ⟨inner :: outer⟩ ∧ inner.waiting.any (fun e => e.1 == name) = true

/-- Some name waits in the innermost class. -/
def Waits (s : ClassScopes) : Prop := ∃ inner outer, s = ⟨inner :: outer⟩ ∧ inner.waiting ≠ []

variable {s t : ClassScopes} {name : String} {span : Span} {uses : List (String × Span)}
  {inner : ClassScope} {outer : List ClassScope}

theorem not_covers_outside (name : String) : ¬ outside.Covers name := by
  rintro (h | ⟨_, _, h, -⟩) <;> cases h

theorem not_waits_outside : ¬ outside.Waits := by
  rintro ⟨_, _, h, -⟩
  cases h

theorem Covers.noting (h : s.Covers name) (uses : List (String × Span)) :
    (s.noting uses).Covers name := by
  obtain h | ⟨inner, outer, rfl, h⟩ := h
  · exact .inl (by rwa [declares_noting])
  · refine .inr ⟨_, outer, rfl, ?_⟩
    rw [any_noteUses, h, Bool.true_or]

theorem Waits.noting (h : s.Waits) (uses : List (String × Span)) : (s.noting uses).Waits := by
  obtain ⟨inner, outer, rfl, h⟩ := h
  refine ⟨_, outer, rfl, fun hnil => h ?_⟩
  exact ((noteUses_eq_nil_iff _ _).1 hnil).1

theorem covers_cons_iff : (mk (inner :: outer)).Covers name ↔
    inner.declares name = true ∨ (mk outer).declares name = true
      ∨ inner.waiting.any (fun e => e.1 == name) = true := by
  constructor
  · rintro (h | ⟨_, _, heq, h⟩)
    · rw [declares_cons, Bool.or_eq_true] at h
      exact h.imp_right .inl
    · cases heq
      exact .inr (.inr h)
  · rintro (h | h | h)
    · exact .inl (by rw [declares_cons, h, Bool.true_or])
    · exact .inl (by rw [declares_cons, h, Bool.or_true])
    · exact .inr ⟨inner, outer, rfl, h⟩

/-- A name that has been used is covered; where nothing is declared, it waits. -/
theorem use_covers (h : s.use name span = .ok t) : t.Covers name ∧ (s.Bare → t.Waits) := by
  unfold use at h
  split at h
  next hdeclared =>
    obtain rfl := Except.ok.inj h
    refine ⟨.inl hdeclared, fun hbare => absurd (hbare.declares name) ?_⟩
    rw [declares, hdeclared]
    decide
  next =>
    split at h
    next => cases h
    next inner outer hs =>
      obtain rfl := Except.ok.inj h
      have hany : (inner.await name span).waiting.any (fun e => e.1 == name) = true := by
        rw [ClassScope.await_eq, show noteUse inner.waiting (name, span)
          = noteUses inner.waiting [(name, span)] from rfl, any_noteUses]
        simp
      refine ⟨covers_cons_iff.2 (.inr (.inr hany)), fun _ => ⟨_, outer, rfl, fun hnil => ?_⟩⟩
      rw [hnil] at hany
      cases hany

end ClassScopes

/-! ### What a part leaves behind -/

/-- The private names of a class are different from each other. Each is spelled by a token, and none
is the name of a constructor. -/
def Node.DeclaresOnce (c : Context) (n : Node) : Prop :=
  ∀ members, n.members? = some members → (privateNames members).Nodup
    ∧ ∀ name ∈ privateNames members, name ≠ "constructor" ∧ ∃ span, c.Spells (name, span)

theorem Node.declaresOnce_of_members? {n : Node} (h : n.members? = none) (c : Context) :
    n.DeclaresOnce c := fun members hm => by rw [h] at hm; cases hm

theorem Node.members?_of_isOrdinary {n : Node} (h : n.isOrdinary) : n.members? = none := by
  unfold Node.members?
  split
  · cases h
  · cases h
  · rfl

/-- The uses in a part are resolved below it or covered behind it, and in the scopes around the part
more uses may wait. Where the edition has no fields, a private name among its tokens waits. -/
structure Resolves (c : Context) (s t : State) (ns : List Node) : Prop where
  scopes : ∃ uses, t.scopes = s.scopes.noting uses
  uses : ∀ n ∈ ns, ∀ name, FreeUse n name → t.scopes.Covers name
  classes : ∀ n ∈ ns, Throughout (Node.DeclaresOnce c) n
  waits : c.options.supportsFields = false → s.scopes.Bare →
    (∃ i, s.position ≤ i ∧ i < t.position ∧ (c.token i).kind = .privateName) → t.scopes.Waits

/-- The same of parts right inside a class: the class has declared what they declare, and what no
longer waits has been declared. -/
structure ResolvesInside (c : Context) (s t : State) (ns : List Node) : Prop where
  scopes : ∃ inner inner' outer, s.scopes = ⟨inner :: outer⟩ ∧ t.scopes = ⟨inner' :: outer⟩
    ∧ inner'.declared = (declaredNames ns).reverse ++ inner.declared
    ∧ (inner.declared.Nodup → inner'.declared.Nodup)
    ∧ ∀ e ∈ inner.waiting, e ∈ inner'.waiting ∨ inner'.declares e.1 = true
  uses : ∀ n ∈ ns, ∀ name, FreeUse n name → t.scopes.Covers name
  classes : ∀ n ∈ ns, Throughout (Node.DeclaresOnce c) n
  names : ∀ name ∈ declaredNames ns, name ≠ "constructor" ∧ ∃ span, c.Spells (name, span)
  bare : c.options.supportsFields = false → declaredNames ns = []
  waits : c.options.supportsFields = false → s.scopes.Bare →
    (∃ i, s.position ≤ i ∧ i < t.position ∧ (c.token i).kind = .privateName) → t.scopes.Waits

variable {c : Context} {s t u v : State} {ns ms : List Node}

namespace Resolves

theorem covers (h : Resolves c u t ms) {name : String} (hn : u.scopes.Covers name) :
    t.scopes.Covers name := by
  obtain ⟨uses, ht⟩ := h.scopes
  rw [ht]
  exact hn.noting uses

theorem append (h : Resolves c s u ns) (h' : Resolves c u t ms) : Resolves c s t (ns ++ ms) where
  scopes := by
    obtain ⟨us, hu⟩ := h.scopes
    obtain ⟨vs, ht⟩ := h'.scopes
    exact ⟨us ++ vs, by rw [ht, hu, ClassScopes.noting_append]⟩
  uses n hn name huse := by
    rcases List.mem_append.1 hn with hn | hn
    · exact h'.covers (h.uses n hn name huse)
    · exact h'.uses n hn name huse
  classes n hn := by
    rcases List.mem_append.1 hn with hn | hn
    · exact h.classes n hn
    · exact h'.classes n hn
  waits hfields hbare := by
    obtain ⟨us, hu⟩ := h.scopes
    obtain ⟨vs, ht⟩ := h'.scopes
    rintro ⟨i, hsi, hit, hi⟩
    by_cases hiu : i < u.position
    · rw [ht]
      exact (h.waits hfields hbare ⟨i, hsi, hiu, hi⟩).noting vs
    · exact h'.waits hfields (hu ▸ hbare.noting us) ⟨i, Nat.le_of_not_lt hiu, hit, hi⟩

/-- A part that is no class, and no use of a private name, is resolved as the parts below it are. -/
theorem node {n : Node} (hn : n.members? = none) (hne : ∀ i, n ≠ .privateUse i)
    (h : Resolves c s t n.children) : Resolves c s t [n] where
  scopes := h.scopes
  uses m hm name huse := by
    obtain rfl := List.mem_singleton.1 hm
    obtain ⟨⟨k, hk, huse⟩, -⟩ := (freeUse_iff hne).1 huse
    exact h.uses k hk name huse
  classes m hm := by
    obtain rfl := List.mem_singleton.1 hm
    exact .intro (Node.declaresOnce_of_members? hn c) h.classes
  waits := h.waits

/-- The mark of initializers has no part in it. -/
theorem ofMark {mark : Bool} (h : Resolves c { s with inInitializer := mark } t ns) :
    Resolves c s t ns :=
  ⟨h.scopes, h.uses, h.classes, h.waits⟩

/-- What is read in an initializer, and what stands behind it. -/
theorem initializer {mark mark' : Bool} (h : Resolves c { s with inInitializer := mark } u ns)
    (hend : Resolves c { u with inInitializer := mark' } t []) : Resolves c s t ns := by
  have hall := h.ofMark.append hend.ofMark
  rwa [List.append_nil] at hall

/-- What resolves outside of a class resolves inside of it. -/
theorem inside (h : Resolves c s t ns) (hns : declaredNames ns = []) {inner : ClassScope}
    {outer : List ClassScope} (hs : s.scopes = ⟨inner :: outer⟩) : ResolvesInside c s t ns where
  scopes := by
    obtain ⟨us, ht⟩ := h.scopes
    rw [hs, ClassScopes.noting_cons] at ht
    refine ⟨inner, _, outer, hs, ht, by rw [hns]; rfl, fun hnodup => hnodup, fun e he => .inl ?_⟩
    exact mem_noteUses_of_mem he us
  uses := h.uses
  classes := h.classes
  names name hname := by
    rw [hns] at hname
    cases hname
  bare _ := hns
  waits := h.waits

/-- Where nothing is read, nothing is left behind. -/
theorem stay (h : s.Kept c t) (hposition : t.position = s.position) : Resolves c s t [] where
  scopes := by
    obtain ⟨uses, -, ht⟩ := h.scopes
    exact ⟨uses, ht⟩
  uses _ hn := by cases hn
  classes _ hn := by cases hn
  waits _ _ := by
    rintro ⟨i, hsi, hit, -⟩
    omega

theorem token (h : (c.token s.position).kind ≠ .privateName) : Resolves c s s.advanced [] where
  scopes := ⟨[], by simp⟩
  uses _ hn := by cases hn
  classes _ hn := by cases hn
  waits _ _ := by
    rintro ⟨i, hsi, hit, hi⟩
    have hit : i < s.position + 1 := hit
    obtain rfl : i = s.position := by omega
    exact absurd hi h

/-- A name that is used is declared already, or waits from then on. -/
theorem use (hchecks : c.checks.undeclaredNames = true) {name : Ident}
    (hname : Grammar.privateName c s = .ok name u) (huse : usePrivate name c u = .ok () t) :
    Resolves c s t [.privateUse name] := by
  obtain ⟨-, -, -, -, rfl⟩ := Grammar.privateName_ok hname
  obtain ⟨scopes, hscopes, rfl⟩ | ⟨_, -, hoff, -⟩ := Grammar.usePrivate_ok huse
  · obtain ⟨hcovers, hwaits⟩ := ClassScopes.use_covers hscopes
    refine ⟨?_, ?_, ?_, ?_⟩
    · obtain rfl | ⟨-, rfl⟩ := ClassScopes.use_ok hscopes
      · exact ⟨[], by simp⟩
      · exact ⟨_, rfl⟩
    · intro n hn other hother
      obtain rfl := List.mem_singleton.1 hn
      cases hother with
      | here => exact hcovers
      | through hm => cases hm
    · intro n hn
      obtain rfl := List.mem_singleton.1 hn
      exact .intro (Node.declaresOnce_of_members? rfl c) fun _ hm => by cases hm
    · exact fun _ hbare _ => hwaits hbare
  · rw [hchecks] at hoff
    cases hoff

end Resolves

namespace ResolvesInside

theorem covers (h : ResolvesInside c u t ms) {name : String} (hn : u.scopes.Covers name) :
    t.scopes.Covers name := by
  obtain ⟨inner, inner', outer, hu, ht, hdeclared, -, hwaiting⟩ := h.scopes
  rw [hu, ClassScopes.covers_cons_iff] at hn
  rw [ht, ClassScopes.covers_cons_iff]
  obtain hn | hn | hn := hn
  · refine .inl ?_
    rw [ClassScope.declares, List.contains_iff_mem] at hn ⊢
    rw [hdeclared]
    exact List.mem_append_right _ hn
  · exact .inr (.inl hn)
  · obtain ⟨e, he, hname⟩ := List.any_eq_true.1 hn
    obtain he | he := hwaiting e he
    · exact .inr (.inr (List.any_eq_true.2 ⟨e, he, hname⟩))
    · exact .inl (by rwa [← beq_iff_eq.1 hname])

theorem append (h : ResolvesInside c s u ns) (h' : ResolvesInside c u t ms) :
    ResolvesInside c s t (ns ++ ms) where
  scopes := by
    obtain ⟨inner, inner', outer, hs, hu, hdeclared, hnodup, hwaiting⟩ := h.scopes
    obtain ⟨_, inner'', _, hu', ht, hdeclared', hnodup', hwaiting'⟩ := h'.scopes
    rw [hu] at hu'
    cases hu'
    refine ⟨inner, inner'', outer, hs, ht, ?_, fun hn => hnodup' (hnodup hn), fun e he => ?_⟩
    · rw [hdeclared', hdeclared, declaredNames_append, List.reverse_append, List.append_assoc]
    · obtain he | he := hwaiting e he
      · exact hwaiting' e he
      · refine .inr ?_
        rw [ClassScope.declares, List.contains_iff_mem] at he ⊢
        rw [hdeclared']
        exact List.mem_append_right _ he
  uses n hn name huse := by
    rcases List.mem_append.1 hn with hn | hn
    · exact h'.covers (h.uses n hn name huse)
    · exact h'.uses n hn name huse
  classes n hn := by
    rcases List.mem_append.1 hn with hn | hn
    · exact h.classes n hn
    · exact h'.classes n hn
  names name hname := by
    rw [declaredNames_append] at hname
    rcases List.mem_append.1 hname with hname | hname
    · exact h.names name hname
    · exact h'.names name hname
  bare hfields := by rw [declaredNames_append, h.bare hfields, h'.bare hfields, List.append_nil]
  waits hfields hbare := by
    rintro ⟨i, hsi, hit, hi⟩
    obtain ⟨inner, inner', outer, hs, hu, hdeclared, -⟩ := h.scopes
    obtain ⟨_, inner'', _, hu', ht, hdeclared', -, hwaiting'⟩ := h'.scopes
    rw [hu] at hu'
    cases hu'
    rw [h.bare hfields, List.reverse_nil, List.nil_append] at hdeclared
    rw [h'.bare hfields, List.reverse_nil, List.nil_append] at hdeclared'
    rw [hs] at hbare
    have hnone : inner.declared = [] := hbare inner List.mem_cons_self
    by_cases hiu : i < u.position
    · have hwaits := h.waits hfields (hs ▸ hbare) ⟨i, hsi, hiu, hi⟩
      rw [hu] at hwaits
      obtain ⟨_, _, heq, hwaits⟩ := hwaits
      cases heq
      refine ⟨inner'', outer, ht, fun hnil => hwaits (List.eq_nil_iff_forall_not_mem.2 ?_)⟩
      intro e he
      obtain he | he := hwaiting' e he
      · rw [hnil] at he
        cases he
      · rw [ClassScope.declares, hdeclared', hdeclared, hnone] at he
        cases he
    · refine h'.waits hfields ?_ ⟨i, Nat.le_of_not_lt hiu, hit, hi⟩
      rw [hu]
      intro scope hscope
      rcases List.mem_cons.1 hscope with rfl | hscope
      · rw [hdeclared, hnone]
      · exact hbare scope (List.mem_cons_of_mem _ hscope)

/-- A field with a private name: the class declares the name before the value is read. -/
theorem privateField {name : Ident} {value : Option Expr} {span : Span} {inner : ClassScope}
    {outer : List ClassScope} (hs : s.scopes = ⟨inner :: outer⟩)
    (hfields : c.options.supportsFields = true) (hname : Grammar.privateName c s = .ok name u)
    (hne : name.name ≠ "constructor") (hdeclare : declarePrivate name c u = .ok () v)
    (hvalue : Resolves c v t (value.toList.map .expr)) :
    ResolvesInside c s t [.member (.field span (.privateName name) false value)] := by
  have hspells := Keeps.spells_of_privateName hname
  obtain ⟨-, -, -, -, rfl⟩ := Grammar.privateName_ok hname
  obtain ⟨scopes, hscopes, rfl⟩ := Grammar.declarePrivate_ok hdeclare
  rw [State.advanced_scopes, hs] at hscopes
  obtain ⟨hnew, rfl⟩ := ClassScopes.declare_ok hscopes
  obtain ⟨uses, ht⟩ := hvalue.scopes
  refine ⟨⟨inner, _, outer, hs, ht, rfl, fun hnodup => ?_, fun e he => ?_⟩, ?_, ?_, ?_, ?_, ?_⟩
  · refine List.nodup_cons.2 ⟨fun hmem => ?_, hnodup⟩
    rw [ClassScope.declares, List.contains_iff_mem.2 hmem] at hnew
    cases hnew
  · by_cases heq : e.1 = name.name
    · refine .inr ?_
      rw [ClassScope.declares, List.contains_iff_mem, heq]
      exact List.mem_cons_self
    · refine .inl (mem_noteUses_of_mem ?_ uses)
      exact List.mem_filter.2 ⟨he, by simpa using heq⟩
  · intro n hn other huse
    obtain rfl := List.mem_singleton.1 hn
    obtain ⟨⟨m, hm, huse⟩, -⟩ := (freeUse_iff (fun _ => Node.noConfusion)).1 huse
    rcases List.mem_cons.1 hm with rfl | hm
    · obtain ⟨⟨_, hk, -⟩, -⟩ := (freeUse_iff (fun _ => Node.noConfusion)).1 huse
      cases hk
    · exact hvalue.uses m hm other huse
  · intro n hn
    obtain rfl := List.mem_singleton.1 hn
    refine .intro (Node.declaresOnce_of_members? rfl c) fun m hm => ?_
    rcases List.mem_cons.1 hm with rfl | hm
    · exact .intro (Node.declaresOnce_of_members? rfl c) fun _ hk => by cases hk
    · exact hvalue.classes m hm
  · intro other hother
    obtain rfl : other = name.name := List.mem_singleton.1 hother
    exact ⟨hne, _, hspells⟩
  · exact fun hoff => absurd hfields (by rw [hoff]; decide)
  · exact fun hoff => absurd hfields (by rw [hoff]; decide)

end ResolvesInside

/-! ### Classes -/

/-- A class that has a scope of its own. What it does not resolve moves outward, and where no class
is around it there is no such name, as its end would have been an error. -/
theorem Resolves.classScope {n : Node} {members : List Member} {count : Nat}
    (hchecks : c.checks.undeclaredNames = true) (hn : n.members? = some members)
    (hnames : declaredNames n.children = privateNames members)
    (hcount : exitCount c u = .ok count) (hposition : t.position = u.position)
    (hscopes : t.scopes = u.scopes.exit.2) (h : ResolvesInside c s.entered u n.children) :
    Resolves c s t [n] := by
  obtain ⟨_, inner, outer, hs, hu, hdeclared, hnodup, -⟩ := h.scopes
  obtain ⟨rfl, rfl⟩ : ClassScope.empty = _ ∧ s.scopes.scopes = outer := by
    have hs : ClassScopes.mk (.empty :: s.scopes.scopes) = _ := hs
    injection hs with hs
    injection hs with h₁ h₂
    exact ⟨h₁, h₂⟩
  have hown : inner.declared = (privateNames members).reverse := by
    rw [hdeclared, hnames]
    exact List.append_nil _
  have ht : t.scopes = s.scopes.noting inner.unresolved := by rw [hscopes, hu, ClassScopes.exit_snd]
  -- The end of the class was no error.
  have hexit : s.scopes.scopes = [] → inner.unresolved = [] := by
    intro hnone
    rw [exitCount, if_pos hchecks, hu, hnone] at hcount
    exact ClassScopes.unresolved_of_exit_ok hcount
  have hne : ∀ i, n ≠ .privateUse i := by
    rintro i rfl
    cases hn
  refine ⟨⟨_, ht⟩, ?_, ?_, ?_⟩
  · intro m hm name huse
    obtain rfl := List.mem_singleton.1 hm
    obtain ⟨⟨k, hk, huse⟩, hfree⟩ := (freeUse_iff hne).1 huse
    have hfree : inner.declares name = false := by
      rw [ClassScope.declares, hown, Bool.eq_false_iff, ne_eq, List.contains_iff_mem,
        List.mem_reverse]
      exact hfree members (hn ▸ rfl)
    have hcovers := h.uses k hk name huse
    rw [hu, ClassScopes.covers_cons_iff, hfree] at hcovers
    obtain hcovers | hcovers | hcovers := hcovers
    · cases hcovers
    · exact .inl (by rw [ht, ClassScopes.declares_noting]; exact hcovers)
    · obtain ⟨e, he, hname⟩ := List.any_eq_true.1 hcovers
      have hmoved : e ∈ inner.unresolved := by
        refine List.mem_filter.2 ⟨he, ?_⟩
        rw [beq_iff_eq.1 hname, hfree]
        rfl
      cases hs' : s.scopes.scopes with
      | nil =>
        rw [hexit hs'] at hmoved
        cases hmoved
      | cons next rest =>
        have hscopes : s.scopes = ⟨next :: rest⟩ := by rw [← hs']
        rw [ht, hscopes, ClassScopes.noting_cons, ClassScopes.covers_cons_iff, any_noteUses]
        refine .inr (.inr ?_)
        rw [Bool.or_eq_true]
        exact .inr (List.any_eq_true.2 ⟨e, hmoved, hname⟩)
  · intro m hm
    obtain rfl := List.mem_singleton.1 hm
    refine .intro (fun ms hms => ?_) h.classes
    rw [hn] at hms
    cases hms
    refine ⟨?_, ?_⟩
    · rw [← List.nodup_reverse, ← hown]
      exact hnodup .nil
    · rw [← hnames]
      exact h.names
  · rintro hfields hbare ⟨i, hsi, hit, hi⟩
    have hnone : inner.declared = [] := by rw [hown, ← hnames, h.bare hfields, List.reverse_nil]
    have hentered : s.entered.scopes.Bare := by
      intro scope hscope
      rcases List.mem_cons.1 hscope with rfl | hscope
      · rfl
      · exact hbare scope hscope
    have hwaits := h.waits hfields hentered ⟨i, hsi, hposition ▸ hit, hi⟩
    rw [hu] at hwaits
    obtain ⟨_, _, heq, hwaits⟩ := hwaits
    cases heq
    have hall : inner.unresolved = inner.waiting := by
      refine List.filter_eq_self.2 fun e _ => ?_
      rw [ClassScope.declares, hnone]
      rfl
    cases hs' : s.scopes.scopes with
    | nil =>
      rw [← hall, hexit hs'] at hwaits
      exact absurd rfl hwaits
    | cons next rest =>
      have hscopes : s.scopes = ⟨next :: rest⟩ := by rw [← hs']
      rw [ht, hscopes, hall]
      exact ⟨_, rest, rfl, fun hnil => hwaits ((noteUses_eq_nil_iff _ _).1 hnil).2⟩

/-- A class without a scope declares nothing. -/
theorem Resolves.plainClass {n : Node} {members : List Member} (hn : n.members? = some members)
    (hnames : declaredNames n.children = privateNames members)
    (hnone : declaredNames n.children = []) (h : Resolves c s t n.children) :
    Resolves c s t [n] := by
  have hne : ∀ i, n ≠ .privateUse i := by
    rintro i rfl
    cases hn
  refine ⟨h.scopes, ?_, ?_, h.waits⟩
  · intro m hm name huse
    obtain rfl := List.mem_singleton.1 hm
    obtain ⟨⟨k, hk, huse⟩, -⟩ := (freeUse_iff hne).1 huse
    exact h.uses k hk name huse
  · intro m hm
    obtain rfl := List.mem_singleton.1 hm
    refine .intro (fun ms hms => ?_) h.classes
    rw [hn] at hms
    cases hms
    rw [← hnames, hnone]
    exact ⟨.nil, fun _ hname => by cases hname⟩

/-- **Private names go with the tree.** Where undeclared names are reported, what holds of the parts
holds of the whole. -/
theorem resolves_compositional :
    Compositional (fun c s t ns => c.checks.undeclaredNames = true → Resolves c s t ns)
      (fun c s t ns => c.checks.undeclaredNames = true →
        (c.options.classFields = true → s.scopes.scopes ≠ [] → ResolvesInside c s t ns)
          ∧ (c.options.classFields = false → declaredNames ns = [] ∧ Resolves c s t ns)) where
  stay h hposition _ := .stay h hposition
  token h _ := .token h
  append h h' hchecks := (h hchecks).append (h' hchecks)
  node hn _ h hchecks := (h hchecks).node (Node.members?_of_isOrdinary hn)
    (by rintro i rfl; cases hn)
  use hname huse hchecks := .use hchecks hname huse
  withNames _ h hchecks :=
    have h := h hchecks
    ⟨h.scopes, h.uses, h.classes, h.waits⟩
  publicField _ _ hkey hvalue hend hchecks :=
    have hvalue := (hvalue hchecks).initializer (hend hchecks)
    .node rfl (fun _ => Node.noConfusion) ((hkey hchecks).append hvalue)
  classNode hn _ hnames hrun h hchecks := by
    cases hrun with
    | withScope hfields hcount hposition hscopes _ =>
      have h := (h hchecks).1 hfields (List.cons_ne_nil _ _)
      exact .classScope hchecks hn hnames hcount hposition hscopes h
    | withoutScope hfields =>
      obtain ⟨hnone, h⟩ := (h hchecks).2 hfields
      exact .plainClass hn hnames hnone h
  inside hns h hchecks := by
    refine ⟨fun _ hs => ?_, fun _ => ⟨hns, h hchecks⟩⟩
    obtain ⟨inner, outer, hs⟩ := List.exists_cons_of_ne_nil hs
    exact (h hchecks).inside hns (by rw [← hs])
  insideAppend h h' hchecks := by
    refine ⟨fun hfields hs => ?_, fun hfields => ?_⟩
    · have h := (h hchecks).1 hfields hs
      obtain ⟨_, _, _, -, hu, -⟩ := h.scopes
      exact h.append ((h' hchecks).1 hfields (by rw [hu]; exact List.cons_ne_nil _ _))
    · obtain ⟨hns, h⟩ := (h hchecks).2 hfields
      obtain ⟨hms, h'⟩ := (h' hchecks).2 hfields
      exact ⟨by rw [declaredNames_append, hns, hms, List.append_nil], h.append h'⟩
  privateField hclass hfields hname hne hdeclare hequals hvalue hend hchecks := by
    have hvalue := (hequals hchecks).append ((hvalue hchecks).initializer (hend hchecks))
    refine ⟨fun _ hs => ?_, fun hoff => absurd hclass (by rw [hoff]; decide)⟩
    obtain ⟨inner, outer, hs⟩ := List.exists_cons_of_ne_nil hs
    exact .privateField (by rw [← hs]) hfields hname hne hdeclare hvalue

end EcmaScript

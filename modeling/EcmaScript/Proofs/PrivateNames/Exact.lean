import EcmaScript.Proofs.Grammar.Settling
import EcmaScript.Proofs.PrivateNames.Resolved
import EcmaScript.Proofs.Tree.Unresolved

namespace EcmaScript

open EcmaScript.Parser

/-!
# What waits is what the tree leaves unresolved

When a part has been read, what waits in addition are the uses in the part that no class in it
resolves, in their order, as far as no class around the part has declared their names. So at the end
of a script nothing waits that is not unresolved in its tree, whatever was tried in vain.

* `ClassScopes.awaiting` — those of some uses that are not declared around a place;
* `UsesBetween` — a list of the unresolved uses in parts, in the order of their tokens;
* `Exact`, `ExactInside` — what a part leaves behind, outside and inside of the class it belongs to;
* `exact_settling` — this goes from the parts to the whole.
-/

namespace ClassScopes

/-- Those of the uses whose names no class around the place has declared so far. -/
def awaiting (s : ClassScopes) (uses : List Ident) : List (String × Span) :=
  (uses.filter fun use => !s.declares use.name).map fun use => (use.name, use.span)

variable {s t : ClassScopes} {inner inner' : ClassScope} {outer : List ClassScope}

@[simp] theorem awaiting_nil (s : ClassScopes) : s.awaiting [] = [] := rfl

@[simp] theorem awaiting_append (s : ClassScopes) (uses more : List Ident) :
    s.awaiting (uses ++ more) = s.awaiting uses ++ s.awaiting more := by
  rw [awaiting, List.filter_append, List.map_append]
  rfl

/-- It matters only what is declared. -/
theorem awaiting_congr (h : ∀ name, t.declares name = s.declares name) (uses : List Ident) :
    t.awaiting uses = s.awaiting uses := by
  simp only [awaiting, h]

@[simp] theorem awaiting_noting (s : ClassScopes) (es : List (String × Span)) (uses : List Ident) :
    (s.noting es).awaiting uses = s.awaiting uses :=
  awaiting_congr (declares_noting s es) uses

/-- Where the innermost class has declared more, fewer uses are left. -/
theorem filter_awaiting (h : ∀ name, inner.declares name = true → inner'.declares name = true)
    (uses : List Ident) :
    ((mk (inner :: outer)).awaiting uses).filter (fun e => !inner'.declares e.1)
      = (mk (inner' :: outer)).awaiting uses := by
  rw [awaiting, List.filter_map, List.filter_filter, awaiting]
  congr 1
  refine List.filter_congr fun use _ => ?_
  simp only [Function.comp_apply, declares_cons, Bool.not_or]
  cases hinner : inner.declares use.name with
  | true => simp [h use.name hinner]
  | false => simp

/-- Uses that have been collected may be noted as they were collected. -/
theorem noting_firstUses (s : ClassScopes) (es : List (String × Span)) :
    s.noting (noteUses [] es) = s.noting es := by
  obtain ⟨scopes⟩ := s
  cases scopes with
  | nil => rfl
  | cons inner outer => rw [noting_cons, noting_cons, noteUses_noteUses, noteUses_nil]

/-- What a use leaves behind. -/
theorem noting_of_use_ok {use : Ident} (h : s.use use.name use.span = .ok t) :
    t = s.noting (s.awaiting [use]) := by
  by_cases hdeclared : s.declares use.name = true
  · have hsame : s.use use.name use.span = .ok s := if_pos hdeclared
    rw [h] at hsame
    rw [Except.ok.inj hsame, awaiting, List.filter_cons_of_neg (by simp [hdeclared])]
    simp
  · have hfree := Bool.eq_false_iff.2 hdeclared
    rw [awaiting, List.filter_cons_of_pos (by simp [hfree])]
    have hwaits : s.use use.name use.span = _ := if_neg hdeclared
    rw [hwaits] at h
    obtain ⟨scopes⟩ := s
    cases scopes with
    | nil => cases h
    | cons inner outer =>
      rw [← Except.ok.inj h, ClassScope.await_eq]
      rfl

end ClassScopes

/-! ### Lists of unresolved uses -/

/-- The list has the uses that are unresolved in the parts. They stand between the tokens, and in
their order. -/
structure UsesBetween (token : Nat → Token) (i j : Nat) (ns : List Node) (uses : List Ident) :
    Prop where
  le : i ≤ j
  mem_iff (use : Ident) : use ∈ uses ↔ ∃ n ∈ ns, Unresolved n use
  placed : ∀ use ∈ uses, ∃ k, i ≤ k ∧ k < j ∧ use.span = (token k).span
  sorted : InOrder token → uses.Pairwise fun use other => use.span.start ≤ other.span.start

namespace UsesBetween

variable {token : Nat → Token} {i j k : Nat} {n : Node} {ns ms : List Node} {uses more : List Ident}

theorem nil (h : i ≤ j) : UsesBetween token i j [] [] :=
  ⟨h, by simp, by simp, fun _ => .nil⟩

theorem append (h : UsesBetween token i j ns uses) (h' : UsesBetween token j k ms more) :
    UsesBetween token i k (ns ++ ms) (uses ++ more) where
  le := h.le.trans h'.le
  mem_iff use := by simp only [List.mem_append, h.mem_iff, h'.mem_iff, or_and_right, exists_or]
  placed use huse := by
    rcases List.mem_append.1 huse with huse | huse
    · obtain ⟨l, hil, hlj, hspan⟩ := h.placed use huse
      exact ⟨l, hil, hlj.trans_le h'.le, hspan⟩
    · obtain ⟨l, hjl, hlk, hspan⟩ := h'.placed use huse
      exact ⟨l, h.le.trans hjl, hlk, hspan⟩
  sorted ho := by
    refine List.pairwise_append.2 ⟨h.sorted ho, h'.sorted ho, fun use huse other hother => ?_⟩
    obtain ⟨l, -, hlj, hspan⟩ := h.placed use huse
    obtain ⟨m, hjm, -, hspan'⟩ := h'.placed other hother
    rw [hspan, hspan']
    exact ho.start_le (hlj.le.trans hjm)

/-- A part that is no class leaves what the parts below it leave. -/
theorem node (hn : n.members? = none) (hne : ∀ use, n ≠ .privateUse use)
    (h : UsesBetween token i j n.children uses) : UsesBetween token i j [n] uses where
  le := h.le
  mem_iff use := by
    rw [h.mem_iff]
    simp [unresolved_iff hne, hn]
  placed := h.placed
  sorted := h.sorted

/-- A class resolves the names that it declares. -/
theorem ofClass {members : List Member} (hn : n.members? = some members)
    (h : UsesBetween token i j n.children uses) :
    UsesBetween token i j [n]
      (uses.filter fun use => !(privateNames members).contains use.name) where
  le := h.le
  mem_iff use := by
    have hne : ∀ use, n ≠ .privateUse use := by
      rintro use rfl
      cases hn
    rw [List.mem_filter, h.mem_iff]
    simp [unresolved_iff hne, hn]
  placed use huse := h.placed use (List.mem_of_mem_filter huse)
  sorted ho := (h.sorted ho).filter _

theorem ofUse {use : Ident} (h : use.span = (token i).span) :
    UsesBetween token i (i + 1) [.privateUse use] [use] where
  le := Nat.le_succ i
  mem_iff other := by simp [unresolved_privateUse_iff]
  placed other hother := by
    obtain rfl := List.mem_singleton.1 hother
    exact ⟨i, Nat.le_refl i, Nat.lt_succ_self i, h⟩
  sorted _ := List.pairwise_singleton _ _

/-- A key that is no expression uses nothing. -/
theorem privateKey (name : Ident) (i : Nat) :
    UsesBetween token i i [.key (.privateName name)] [] :=
  .node rfl (fun _ => Node.noConfusion) (.nil (Nat.le_refl i))

theorem widen {i' : Nat} (hi : i' ≤ i) (h : UsesBetween token i j ns uses) :
    UsesBetween token i' j ns uses := by
  have hall := (nil hi).append h
  rwa [List.nil_append, List.nil_append] at hall

end UsesBetween

/-! ### What a part leaves behind -/

/-- The unresolved uses in the parts now wait, as far as no class around has declared them. -/
def Exact (c : Context) (s t : State) (ns : List Node) : Prop :=
  ∃ uses, UsesBetween c.token s.position t.position ns uses
    ∧ t.scopes = s.scopes.noting (s.scopes.awaiting uses)

/-- The same of parts right inside a class. It has declared what they declare, and leaves what was
left before and what they leave, as far as no class has declared it. -/
def ExactInside (c : Context) (s t : State) (ns : List Node) : Prop :=
  ∀ inner outer, s.scopes = ⟨inner :: outer⟩ →
    ∃ inner' uses, UsesBetween c.token s.position t.position ns uses
      ∧ t.scopes = ⟨inner' :: outer⟩
      ∧ inner'.declared = (declaredNames ns).reverse ++ inner.declared
      ∧ inner'.unresolved = noteUses (inner.waiting.filter fun e => !inner'.declares e.1)
          ((ClassScopes.mk (inner' :: outer)).awaiting uses)

variable {c : Context} {s t u v : State} {ns ms : List Node}

namespace Exact

theorem stay (hposition : t.position = s.position) (hscopes : t.scopes = s.scopes) :
    Exact c s t [] :=
  ⟨[], .nil hposition.ge, by rw [hscopes, ClassScopes.awaiting_nil, ClassScopes.noting_nil]⟩

theorem token (s : State) : Exact c s s.advanced [] :=
  ⟨[], .nil (Nat.le_succ s.position), by
    rw [State.advanced_scopes, ClassScopes.awaiting_nil, ClassScopes.noting_nil]⟩

theorem append (h : Exact c s u ns) (h' : Exact c u t ms) : Exact c s t (ns ++ ms) := by
  obtain ⟨uses, huses, hu⟩ := h
  obtain ⟨more, hmore, ht⟩ := h'
  refine ⟨uses ++ more, huses.append hmore, ?_⟩
  rw [ht, hu, ClassScopes.awaiting_noting, ClassScopes.awaiting_append, ClassScopes.noting_append]

theorem node {n : Node} (hn : n.members? = none) (hne : ∀ use, n ≠ .privateUse use)
    (h : Exact c s t n.children) : Exact c s t [n] := by
  obtain ⟨uses, huses, ht⟩ := h
  exact ⟨uses, huses.node hn hne, ht⟩

theorem agrees {t' : State} (h : Exact c s t ns) (ht : t.Agrees t') : Exact c s t' ns := by
  obtain ⟨uses, huses, hscopes⟩ := h
  exact ⟨uses, ht.position ▸ huses, ht.scopes.trans hscopes⟩

/-- A use of a private name. Outside of classes nothing can wait. -/
theorem use {name : Ident} (hname : Grammar.privateName c s = .ok name u)
    (huse : usePrivate name c u = .ok () t) : Exact c s t [.privateUse name] := by
  obtain ⟨-, -, hspan, -, rfl⟩ := Grammar.privateName_ok hname
  refine ⟨[name], ?_, ?_⟩
  · obtain ⟨_, -, rfl⟩ | ⟨_, -, -, rfl⟩ := Grammar.usePrivate_ok huse
    · exact .ofUse hspan
    · exact .ofUse hspan
  · obtain ⟨_, hscopes, rfl⟩ | ⟨_, herror, -, rfl⟩ := Grammar.usePrivate_ok huse
    · exact ClassScopes.noting_of_use_ok hscopes
    · have hnone : s.scopes.scopes = [] := (ClassScopes.use_error herror).1
      rw [ClassScopes.noting, hnone]
      rfl

/-- What is in parts that declare nothing is inside of the class they belong to. -/
theorem inside (h : Exact c s t ns) (hns : declaredNames ns = []) : ExactInside c s t ns := by
  intro inner outer hs
  obtain ⟨uses, huses, ht⟩ := h
  rw [hs, ClassScopes.noting_cons] at ht
  refine ⟨_, uses, huses, ht, by rw [hns]; rfl, ?_⟩
  have hfilter := filter_noteUses (fun name => !inner.declares name) inner.waiting
    ((ClassScopes.mk (inner :: outer)).awaiting uses)
  exact hfilter.trans (congrArg _ (ClassScopes.filter_awaiting (fun _ => id) uses))

end Exact

namespace ExactInside

theorem append (h : ExactInside c s u ns) (h' : ExactInside c u t ms) :
    ExactInside c s t (ns ++ ms) := by
  intro inner outer hs
  obtain ⟨next, uses, huses, hu, hdeclared, hunresolved⟩ := h inner outer hs
  obtain ⟨last, more, hmore, ht, hdeclared', hunresolved'⟩ := h' next outer hu
  have hgrows (name : String) (hname : next.declares name = true) : last.declares name = true := by
    rw [ClassScope.declares, List.contains_iff_mem] at hname ⊢
    rw [hdeclared']
    exact List.mem_append_right _ hname
  -- What the last class leaves of the list, it leaves of what the class before it has left.
  have hleft : next.waiting.filter (fun e => !last.declares e.1)
      = next.unresolved.filter (fun e => !last.declares e.1) := by
    rw [ClassScope.unresolved, List.filter_filter]
    refine List.filter_congr fun e _ => ?_
    cases hnext : next.declares e.1 with
    | true => simp [hgrows _ hnext]
    | false => simp
  have hbefore : inner.waiting.filter (fun e => !last.declares e.1)
      = (inner.waiting.filter fun e => !next.declares e.1).filter
          (fun e => !last.declares e.1) := by
    rw [List.filter_filter]
    refine List.filter_congr fun e _ => ?_
    cases hnext : next.declares e.1 with
    | true => simp [hgrows _ hnext]
    | false => simp
  refine ⟨last, uses ++ more, huses.append hmore, ht, ?_, ?_⟩
  · rw [hdeclared', hdeclared, declaredNames_append, List.reverse_append, List.append_assoc]
  · rw [hunresolved', hleft, hunresolved, filter_noteUses (fun name => !last.declares name),
      ClassScopes.filter_awaiting hgrows, hbefore, ClassScopes.awaiting_append, noteUses_append]

/-- A field with a private name: the class declares the name before the value is read. -/
theorem privateField {name : Ident} {value : Option Expr} {span : Span}
    (hname : Grammar.privateName c s = .ok name u) (hdeclare : declarePrivate name c u = .ok () v)
    (hvalue : Exact c v t (value.toList.map .expr)) :
    ExactInside c s t [.member (.field span (.privateName name) false value)] := by
  intro inner outer hs
  obtain ⟨-, -, -, -, rfl⟩ := Grammar.privateName_ok hname
  obtain ⟨scopes, hscopes, rfl⟩ := Grammar.declarePrivate_ok hdeclare
  rw [State.advanced_scopes, hs] at hscopes
  obtain ⟨-, rfl⟩ := ClassScopes.declare_ok hscopes
  obtain ⟨uses, huses, ht⟩ := hvalue
  refine ⟨_, uses, ?_, ht, rfl, ?_⟩
  · refine .node rfl (fun _ => Node.noConfusion) ?_
    exact (UsesBetween.privateKey name s.position).append (huses.widen (Nat.le_succ s.position))
  · have hfilter := filter_noteUses (fun other => !(inner.declare name.name).declares other)
      (inner.declare name.name).waiting
      ((ClassScopes.mk (inner.declare name.name :: outer)).awaiting uses)
    rw [ClassScopes.filter_awaiting (fun _ => id) uses] at hfilter
    refine hfilter.trans (congrArg (noteUses · _) ?_)
    -- The name itself is left out twice.
    show (inner.waiting.filter fun e => e.1 != name.name).filter
        (fun e => !(inner.declare name.name).declares e.1)
      = inner.waiting.filter fun e => !(inner.declare name.name).declares e.1
    rw [List.filter_filter]
    refine List.filter_congr fun e _ => ?_
    by_cases he : e.1 = name.name
    · simp [he, ClassScope.declares, ClassScope.declare]
    · simp [he]

end ExactInside

/-- A class that has a scope of its own: what it does not resolve moves outward. -/
theorem Exact.classScope {n : Node} {members : List Member} (hn : n.members? = some members)
    (hnames : declaredNames n.children = privateNames members) (hposition : t.position = u.position)
    (hscopes : t.scopes = u.scopes.exit.2) (h : ExactInside c s.entered u n.children) :
    Exact c s t [n] := by
  obtain ⟨inner, uses, huses, hu, hdeclared, hunresolved⟩ := h .empty s.scopes.scopes rfl
  refine ⟨_, hposition ▸ huses.ofClass hn, ?_⟩
  have hawaiting : (ClassScopes.mk (inner :: s.scopes.scopes)).awaiting uses
      = s.scopes.awaiting (uses.filter fun use => !(privateNames members).contains use.name) := by
    rw [ClassScopes.awaiting, ClassScopes.awaiting, List.filter_filter]
    congr 1
    refine List.filter_congr fun use _ => ?_
    have hown : inner.declares use.name = (privateNames members).contains use.name := by
      rw [ClassScope.declares, hdeclared, hnames, Bool.eq_iff_iff, List.contains_iff_mem,
        List.contains_iff_mem]
      simp [ClassScope.empty]
    rw [ClassScopes.declares_cons, hown, Bool.not_or, Bool.and_comm]
  rw [hscopes, hu, ClassScopes.exit_snd, hunresolved, ← hawaiting]
  exact ClassScopes.noting_firstUses _ _

end EcmaScript

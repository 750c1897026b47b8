import EcmaScript.Proofs.ClassScopes.FirstUses

namespace EcmaScript

/-!
# Scopes with more uses

Whatever is read inside a class, all it leaves behind in the scopes around it are uses that wait.

* `ClassScopes.declares` — has a class around the place declared a name so far?
* `ClassScopes.Bare` — no class has declared anything;
* `ClassScopes.noting` — the scopes after uses that no class resolves so far;
* `ClassScopes.use_ok` — a use changes nothing else;
* `ClassScopes.exit_snd` — neither does the end of a class;
* `ClassScopes.use_error`, `ClassScopes.declare_error`, `ClassScopes.exit_error` — the errors of
  each;
* `ClassScopes.Peers`, `ClassScopes.Beside` — places at which different names wait, and what a part
  that is read at either then notes in addition: it cannot tell the difference;
* `ClassScopes.Linkage` — classes around one place in two runs which these cannot tell apart.
-/

namespace ClassScopes

/-- Has a class around the place declared the name so far? -/
def declares (s : ClassScopes) (name : String) : Bool :=
  s.scopes.any fun scope => scope.declares name

/-- No class around the place has declared a name. -/
def Bare (s : ClassScopes) : Prop := ∀ scope ∈ s.scopes, scope.declared = []

/-- With more uses that wait in the innermost class. -/
def noting (s : ClassScopes) (uses : List (String × Span)) : ClassScopes :=
  match s.scopes with
  | [] => s
  | inner :: outer => ⟨{ inner with waiting := noteUses inner.waiting uses } :: outer⟩

variable {s t : ClassScopes} {inner : ClassScope} {outer : List ClassScope}
  {uses : List (String × Span)} {name : String} {span : Span}

@[simp] theorem noting_nil (s : ClassScopes) : s.noting [] = s := by
  unfold noting
  split
  · rfl
  next inner outer h => rw [noteUses_nil, ← h]

theorem noting_cons (inner : ClassScope) (outer : List ClassScope) (uses : List (String × Span)) :
    (mk (inner :: outer)).noting uses =
      ⟨{ inner with waiting := noteUses inner.waiting uses } :: outer⟩ := rfl

theorem noting_append (s : ClassScopes) (us vs : List (String × Span)) :
    s.noting (us ++ vs) = (s.noting us).noting vs := by
  obtain ⟨scopes⟩ := s
  cases scopes with
  | nil => rfl
  | cons inner outer => rw [noting_cons, noting_cons, noting_cons, noteUses_append]

@[simp] theorem declares_cons (inner : ClassScope) (outer : List ClassScope) (name : String) :
    (mk (inner :: outer)).declares name = (inner.declares name || (mk outer).declares name) := rfl

/-- What waits is not declared. -/
@[simp] theorem declares_noting (s : ClassScopes) (uses : List (String × Span)) (name : String) :
    (s.noting uses).declares name = s.declares name := by
  obtain ⟨scopes⟩ := s
  cases scopes <;> rfl

/-! ### Where nothing is declared -/

theorem bare_outside : outside.Bare := fun _ h => by cases h

theorem Bare.noting (h : s.Bare) (uses : List (String × Span)) : (s.noting uses).Bare := by
  obtain ⟨scopes⟩ := s
  cases scopes with
  | nil => exact h
  | cons inner outer =>
    intro scope hscope
    rcases List.mem_cons.1 hscope with rfl | hscope
    · exact h inner List.mem_cons_self
    · exact h scope (List.mem_cons_of_mem _ hscope)

theorem Bare.declares (h : s.Bare) (name : String) : s.declares name = false := by
  refine List.any_eq_false.2 fun scope hscope => ?_
  rw [ClassScope.declares, h scope hscope]
  simp

/-! ### Uses and ends of classes -/

/-- A use is noted where no class has declared the name so far, and changes nothing elsewhere. -/
theorem use_ok (h : s.use name span = .ok t) :
    t = s ∨ s.declares name = false ∧ t = s.noting [(name, span)] := by
  unfold use at h
  split at h
  next => exact .inl (Except.ok.inj h).symm
  next hdeclared =>
    refine .inr ⟨Bool.eq_false_iff.2 hdeclared, ?_⟩
    split at h
    next => cases h
    next inner outer hs =>
      rw [← Except.ok.inj h, noting, hs, ClassScope.await_eq]
      rfl

/-- At the end of a class the uses that it does not resolve are noted in the class around it. -/
theorem exit_snd (inner : ClassScope) (outer : List ClassScope) :
    (mk (inner :: outer)).exit.2 = (mk outer).noting inner.unresolved := by
  cases outer with
  | nil =>
    unfold exit
    dsimp only
    split <;> rfl
  | cons next outer =>
    show mk (List.foldl _ next inner.unresolved :: outer) = _
    rw [ClassScope.foldl_await]
    rfl

/-- Where the end of the outermost class is no error, no use waits there. -/
theorem unresolved_of_exit_ok {count : Nat} (h : (mk [inner]).exit.1 = .ok count) :
    inner.unresolved = [] := by
  unfold exit at h
  dsimp only at h
  split at h
  next => cases h
  next hnone => exact (earliest?_eq_none_iff _).1 hnone

theorem declare_ok (h : (mk (inner :: outer)).declare name span = .ok t) :
    inner.declares name = false ∧ t = ⟨inner.declare name :: outer⟩ := by
  unfold declare at h
  dsimp only at h
  split at h
  next => cases h
  next hnew => exact ⟨Bool.eq_false_iff.2 hnew, (Except.ok.inj h).symm⟩

/-! ### Errors -/

variable {e : SyntaxError}

theorem use_error (h : s.use name span = .error e) :
    s.scopes = [] ∧ e = nameError .undeclaredPrivateName span := by
  unfold use at h
  split at h
  next => cases h
  next =>
    split at h
    next hs => exact ⟨hs, (Except.error.inj h).symm⟩
    next => cases h

theorem declare_error (h : s.declare name span = .error e) :
    e = nameError .duplicatePrivateElement span := by
  unfold declare at h
  split at h
  next => cases h
  next =>
    split at h
    next => exact (Except.error.inj h).symm
    next => cases h

theorem exit_error (h : s.exit.1 = .error e) :
    ∃ inner span, s.scopes = [inner] ∧ earliest? inner.unresolved = some span
      ∧ e = nameError .undeclaredPrivateName span := by
  unfold exit at h
  split at h
  next => cases h
  next last hs =>
    split at h
    next span hspan => exact ⟨last, span, hs, hspan, (Except.error.inj h).symm⟩
    next => cases h
  next => cases h

/-! ### Places at which different names wait -/

/-- Where uses have been noted once, noting them again changes nothing. -/
theorem noting_noting_self (s : ClassScopes) (uses : List (String × Span)) :
    (s.noting uses).noting uses = s.noting uses := by
  obtain ⟨scopes⟩ := s
  cases scopes with
  | nil => rfl
  | cons inner outer => rw [noting_cons, noting_cons, noteUses_noteUses_self]

/-- Where some of the uses have been noted beforehand, noting all of them comes to the same. -/
theorem noting_absorbs {us vs es : List (String × Span)}
    (h : s.noting es = (s.noting us).noting vs) : (s.noting us).noting es = s.noting es := by
  obtain ⟨scopes⟩ := s
  cases scopes with
  | nil => rfl
  | cons inner outer =>
    have hwaiting : noteUses inner.waiting es = noteUses (noteUses inner.waiting us) vs := by
      rw [noting_cons, noting_cons, noting_cons] at h
      injection h with h
      injection h with h _
      exact congrArg ClassScope.waiting h
    rw [noting_cons, noting_cons, noting_cons]
    rw [noteUses_between (prefix_noteUses _ us) (hwaiting ▸ prefix_noteUses _ vs)]

/-- Classes inside of others. -/
def around (outer : ClassScopes) (inner : List ClassScope) : ClassScopes := ⟨inner ++ outer.scopes⟩

theorem declares_around (outer : ClassScopes) (inner : List ClassScope) (name : String) :
    (outer.around inner).declares name
      = (inner.any (fun scope => scope.declares name) || outer.declares name) :=
  List.any_append

/-- Two places that cannot be told apart by what is declared around them. Names may wait at one of
them only. -/
structure Peers (base base' : ClassScopes) : Prop where
  declares (name : String) : base'.declares name = base.declares name
  outside : base'.scopes = [] ↔ base.scopes = []

namespace Peers

variable {base base' : ClassScopes}

theorem refl (base : ClassScopes) : Peers base base := ⟨fun _ => rfl, Iff.rfl⟩

theorem symm (h : Peers base base') : Peers base' base :=
  ⟨fun name => (h.declares name).symm, h.outside.symm⟩

/-- Noting uses declares nothing. -/
theorem noting (base : ClassScopes) (uses : List (String × Span)) :
    Peers base (base.noting uses) := by
  refine ⟨declares_noting base uses, ?_⟩
  obtain ⟨scopes⟩ := base
  cases scopes with
  | nil => exact Iff.rfl
  | cons inner outer => exact iff_of_false (List.cons_ne_nil _ _) (List.cons_ne_nil _ _)

end Peers

/-- Two scopes with the same innermost classes, as many as `depth`. In the classes around them the
same uses have been noted on top of what was there. -/
def Beside (base base' : ClassScopes) (depth : Nat) (s s' : ClassScopes) : Prop :=
  ∃ inner noted, inner.length = depth ∧ s = (base.noting noted).around inner
    ∧ s' = (base'.noting noted).around inner

namespace Beside

variable {base base' s' : ClassScopes} {depth : Nat}

/-- What is declared is the same. -/
theorem declares (hbase : Peers base base') (h : Beside base base' depth s s') (name : String) :
    s'.declares name = s.declares name := by
  obtain ⟨inner, noted, -, rfl, rfl⟩ := h
  rw [declares_around, declares_around, declares_noting, declares_noting, hbase.declares]

theorem enter (h : Beside base base' depth s s') :
    Beside base base' (depth + 1) s.enter s'.enter := by
  obtain ⟨inner, noted, rfl, rfl, rfl⟩ := h
  exact ⟨.empty :: inner, noted, rfl, rfl, rfl⟩

/-- A use in the classes around is noted in both. -/
theorem use (hbase : Peers base base') (h : Beside base base' depth s s') (name : String)
    (span : Span) :
    (∃ e, s.use name span = .error e ∧ s'.use name span = .error e)
      ∨ ∃ t t', s.use name span = .ok t ∧ s'.use name span = .ok t'
        ∧ Beside base base' depth t t' := by
  by_cases hdeclared : s.declares name = true
  · refine .inr ⟨s, s', ?_, ?_, h⟩
    · exact if_pos hdeclared
    · exact if_pos ((h.declares hbase name).trans hdeclared)
  have hdeclared' : ¬ s'.declares name = true := fun hs' =>
    hdeclared ((h.declares hbase name).symm.trans hs')
  have huse : s.use name span = _ := if_neg hdeclared
  have huse' : s'.use name span = _ := if_neg hdeclared'
  rw [huse, huse']
  obtain ⟨inner, noted, hdepth, rfl, rfl⟩ := h
  cases inner with
  | cons first inner =>
    exact .inr ⟨_, _, rfl, rfl, first.await name span :: inner, noted, hdepth, rfl, rfl⟩
  | nil =>
    obtain ⟨scopes⟩ := base
    obtain ⟨scopes'⟩ := base'
    cases scopes with
    | nil =>
      obtain rfl : scopes' = [] := hbase.outside.2 rfl
      exact .inl ⟨_, rfl, rfl⟩
    | cons first outer =>
      cases scopes' with
      | nil => exact absurd (hbase.outside.1 rfl) (List.cons_ne_nil _ _)
      | cons first' outer' =>
        refine .inr ⟨_, _, rfl, rfl, [], noted ++ [(name, span)], hdepth, ?_, ?_⟩
        · rw [noting_append, ClassScope.await_eq]
          rfl
        · rw [noting_append, ClassScope.await_eq]
          rfl

/-- A declaration is one of the innermost class, which is the same. -/
theorem declare (h : Beside base base' (depth + 1) s s') (name : String) (span : Span) :
    (∃ e, s.declare name span = .error e ∧ s'.declare name span = .error e)
      ∨ ∃ t t', s.declare name span = .ok t ∧ s'.declare name span = .ok t'
        ∧ Beside base base' (depth + 1) t t' := by
  obtain ⟨_ | ⟨first, inner⟩, noted, hdepth, rfl, rfl⟩ := h
  · cases hdepth
  by_cases hdeclared : first.declares name = true
  · exact .inl ⟨_, if_pos hdeclared, if_pos hdeclared⟩
  · exact .inr ⟨_, _, if_neg hdeclared, if_neg hdeclared, first.declare name :: inner, noted,
      hdepth, rfl, rfl⟩

/-- The end of the innermost class gives the same, and what it leaves behind is noted in both. -/
theorem exit (hbase : Peers base base') (h : Beside base base' (depth + 1) s s') :
    s'.exit.1 = s.exit.1 ∧ Beside base base' depth s.exit.2 s'.exit.2 := by
  obtain ⟨_ | ⟨first, inner⟩, noted, hdepth, rfl, rfl⟩ := h
  · cases hdepth
  have hdepth : inner.length = depth := Nat.succ.inj hdepth
  constructor
  · cases inner with
    | cons second inner => rfl
    | nil =>
      obtain ⟨scopes⟩ := base
      obtain ⟨scopes'⟩ := base'
      cases scopes with
      | nil =>
        obtain rfl : scopes' = [] := hbase.outside.2 rfl
        rfl
      | cons second outer =>
        cases scopes' with
        | nil => exact absurd (hbase.outside.1 rfl) (List.cons_ne_nil _ _)
        | cons second' outer' => rfl
  · show Beside base base' depth (mk (first :: (inner ++ (base.noting noted).scopes))).exit.2
      (mk (first :: (inner ++ (base'.noting noted).scopes))).exit.2
    rw [exit_snd, exit_snd]
    cases inner with
    | cons second inner =>
      exact ⟨{ second with waiting := noteUses second.waiting first.unresolved } :: inner, noted,
        hdepth, rfl, rfl⟩
    | nil =>
      refine ⟨[], noted ++ first.unresolved, hdepth, ?_, ?_⟩
      · rw [noting_append]
        rfl
      · rw [noting_append]
        rfl

end Beside

/-! ### Classes around one place in two runs -/

/-- What a use comes to. Where undeclared names are not checked, one outside of classes is none. -/
def useUnder (checked : Bool) (s : ClassScopes) (name : String) (span : Span) :
    Except SyntaxError ClassScopes :=
  match s.use name span with
  | .ok t => .ok t
  | .error e => if checked then .error e else .ok s

/-- What the end of a class comes to. Where undeclared names are not checked, it is no error. -/
def exitUnder (checked : Bool) (s : ClassScopes) : Except SyntaxError Nat :=
  if checked then s.exit.1 else .ok (s.exit.1.toOption.getD 0)

/-- Relates the classes around one place in two runs, by the number of classes that both runs have
entered. Nothing that a run does to them tells the two apart, apart from how many names wait at the
end of a class. The relation need not hold before some classes have been entered. -/
structure Linkage (checked checked' : Bool) where
  rel : Nat → ClassScopes → ClassScopes → Prop
  /-- The number of classes from which on the relation holds. -/
  least : Nat
  least_le {depth : Nat} {s s' : ClassScopes} : rel depth s s' → least ≤ depth
  enter {depth : Nat} {s s' : ClassScopes} : rel depth s s' → rel (depth + 1) s.enter s'.enter
  use {depth : Nat} {s s' : ClassScopes} : rel depth s s' → ∀ name span,
    (∃ e, s.useUnder checked name span = .error e ∧ s'.useUnder checked' name span = .error e)
      ∨ ∃ t t', s.useUnder checked name span = .ok t ∧ s'.useUnder checked' name span = .ok t'
        ∧ rel depth t t'
  declare {depth : Nat} {s s' : ClassScopes} : rel (depth + 1) s s' → ∀ name span,
    (∃ e, s.declare name span = .error e ∧ s'.declare name span = .error e)
      ∨ ∃ t t', s.declare name span = .ok t ∧ s'.declare name span = .ok t' ∧ rel (depth + 1) t t'
  exit {depth : Nat} {s s' : ClassScopes} : least ≤ depth → rel (depth + 1) s s' →
    ((∃ e, s.exitUnder checked = .error e ∧ s'.exitUnder checked' = .error e)
      ∨ ∃ count count', s.exitUnder checked = .ok count ∧ s'.exitUnder checked' = .ok count')
    ∧ rel depth s.exit.2 s'.exit.2

/-- Places with different names waiting around them are linked from the start. -/
def Linkage.beside {base base' : ClassScopes} (hbase : Peers base base') (checked : Bool) :
    Linkage checked checked where
  rel := Beside base base'
  least := 0
  least_le _ := Nat.zero_le _
  enter := Beside.enter
  use h name span := by
    unfold useUnder
    obtain ⟨e, huse, huse'⟩ | ⟨t, t', huse, huse', ht⟩ := h.use hbase name span
    · rw [huse, huse']
      cases checked with
      | true => exact .inl ⟨e, rfl, rfl⟩
      | false => exact .inr ⟨_, _, rfl, rfl, h⟩
    · rw [huse, huse']
      exact .inr ⟨t, t', rfl, rfl, ht⟩
  declare := Beside.declare
  exit _ h := by
    obtain ⟨hresult, hscopes⟩ := h.exit hbase
    refine ⟨?_, hscopes⟩
    unfold exitUnder
    rw [hresult]
    split
    · cases (ClassScopes.exit _).1 with
      | error e => exact .inl ⟨e, rfl, rfl⟩
      | ok count => exact .inr ⟨count, count, rfl, rfl⟩
    · exact .inr ⟨_, _, rfl, rfl⟩

end ClassScopes

end EcmaScript

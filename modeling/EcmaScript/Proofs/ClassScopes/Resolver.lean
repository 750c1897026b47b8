import EcmaScript.Proofs.ClassScopes.FirstUses

namespace EcmaScript

/-!
# Scopes against a resolver with hindsight

`ClassScopes` decides on a use as early as it can: where it stands, at a later declaration, or at
the end of a class. The resolver of this file remembers every use and every declaration with the
classes around it, and looks at all of them at once.

* `ScopeCall`, `ClassScopes.run` — calls on the scopes, in any order;
* `Resolver` — what has been declared and used, by class;
* `Pending` — the invariant: the uses are layered by the innermost class around them that is still
  open, and each class lets wait exactly the first unresolved uses of its layer;
* `ClassScopes.Follows` — what the scopes answer, in terms of the resolver;
* `run_follows` — after any calls the scopes answer as the resolver does.
-/

/-! ### Calls -/

/-- A call on the scopes of the classes around a place. -/
inductive ScopeCall where
  | enter
  | exit
  | declare (name : String) (span : Span)
  | use (name : String) (span : Span)
deriving DecidableEq, Repr

namespace ClassScopes

/-- The scopes after a call. A declaration or a use that fails changes nothing. -/
def after (s : ClassScopes) : ScopeCall → ClassScopes
  | .enter => s.enter
  | .exit => s.exit.2
  | .declare name span => (s.declare name span).toOption.getD s
  | .use name span => (s.use name span).toOption.getD s

/-- The scopes after calls that begin outside of all classes. -/
def run (calls : List ScopeCall) : ClassScopes := calls.foldl after outside

end ClassScopes

/-! ### The resolver -/

/-- A use of a private name, with the classes around it, the innermost first. -/
structure PrivateUse where
  name : String
  span : Span
  classes : List Nat
deriving DecidableEq, Repr

namespace PrivateUse

/-- The name and the place of a use. -/
def entry (u : PrivateUse) : String × Span := (u.name, u.span)

/-- Does one of the declarations, each with its class, stand in a class around the use? -/
def resolvedBy (u : PrivateUse) (declared : List (Nat × String)) : Bool :=
  u.classes.any fun c => declared.contains (c, u.name)

end PrivateUse

/-- Everything that has been declared and used. A class goes by the number of classes that began
before it. -/
structure Resolver where
  /-- Number of classes that have begun. -/
  begun : Nat
  /-- The classes around the place, the innermost first. -/
  around : List Nat
  /-- The declarations, each with the innermost class around it. -/
  declared : List (Nat × String)
  /-- The uses, in the order of the calls. -/
  uses : List PrivateUse

namespace Resolver

/-- Outside of any class, before the first call. -/
def initial : Resolver := ⟨0, [], [], []⟩

/-- What is known after a call. -/
def after (r : Resolver) : ScopeCall → Resolver
  | .enter => { r with begun := r.begun + 1, around := r.begun :: r.around }
  | .exit => { r with around := r.around.tail }
  | .declare name _ =>
    match r.around with
    | [] => r
    | c :: _ => { r with declared := (c, name) :: r.declared }
  | .use name span => { r with uses := r.uses ++ [⟨name, span, r.around⟩] }

/-- What is known after calls that begin outside of all classes. -/
def run (calls : List ScopeCall) : Resolver := calls.foldl after initial

/-- The uses inside a class, nested classes included, that no class around them resolves, at
whatever time it has declared the name. -/
def unresolved (r : Resolver) (c : Nat) : List PrivateUse :=
  r.uses.filter fun u => u.classes.contains c && !u.resolvedBy r.declared

/-- The first unresolved use of a name inside a class. -/
def firstUnresolved? (r : Resolver) (c : Nat) (name : String) : Option PrivateUse :=
  (r.unresolved c).find? fun u => u.name == name

end Resolver

/-- What the scopes answer to the next call, in terms of the resolver. -/
structure ClassScopes.Follows (s : ClassScopes) (r : Resolver) : Prop where
  /-- There are as many scopes as classes around the place. -/
  depth_eq : s.depth = r.around.length
  /-- A declaration fails where the innermost class has declared the name before, and then it
  changes nothing. -/
  declare_iff (name : String) (span : Span) :
    match s.declare name span with
    | .ok _ => ∀ c ∈ r.around.head?, (c, name) ∉ r.declared
    | .error e =>
      e = nameError .duplicatePrivateElement span ∧ s.after (.declare name span) = s
        ∧ ∃ c ∈ r.around.head?, (c, name) ∈ r.declared
  /-- A use fails outside of all classes, and only there. -/
  use_iff (name : String) (span : Span) :
    match s.use name span with
    | .ok _ => r.around ≠ []
    | .error e => e = nameError .undeclaredPrivateName span ∧ r.around = []
  /-- The end of a class. A nested class tells how many names are unresolved in it so far. The
  outermost one fails where a use in it is unresolved, at the earliest of the first unresolved uses
  of the names, and no scope is left. -/
  exit_iff :
    match r.around with
    | [] => s.exit = (.ok 0, s)
    | [c] =>
      s.exit.2 = outside ∧
        match s.exit.1 with
        | .ok count => count = 0 ∧ r.unresolved c = []
        | .error e =>
          e.cause = .undeclaredPrivateName ∧ e.token = some .privateName
            ∧ r.unresolved c ≠ []
            ∧ IsLeast {n | ∃ name, ∃ u ∈ r.firstUnresolved? c name, u.span.start = n} e.span.start
    | c :: _ :: _ => s.exit.1 = .ok ((r.unresolved c).map PrivateUse.name).toFinset.card

/-! ### The invariant -/

/-- The entries of the uses that no declaration resolves. -/
def unresolvedEntries (declared : List (Nat × String)) (uses : List PrivateUse) :
    List (String × Span) :=
  (uses.filter fun u => !u.resolvedBy declared).map PrivateUse.entry

/-- The uses fall into layers by the innermost class around them that is still open, the layer of
the innermost class being the last one. A scope holds the names that its class has declared, and
lets the first unresolved uses of its layer wait. -/
def Pending (declared : List (Nat × String)) :
    List ClassScope → List Nat → List PrivateUse → Prop
  | [], [], _ => True
  | scope :: scopes, c :: around, uses =>
    ∃ before inside, uses = before ++ inside
      ∧ (∀ u ∈ before, c ∉ u.classes)
      ∧ (∀ u ∈ inside, (c :: around) <:+ u.classes)
      ∧ (∀ name, name ∈ scope.declared ↔ (c, name) ∈ declared)
      ∧ scope.waiting = noteUses [] (unresolvedEntries declared inside)
      ∧ Pending declared scopes around before
  | _, _, _ => False

/-- The scopes and the resolver after the same calls. -/
structure Reached (s : ClassScopes) (r : Resolver) : Prop where
  uses_lt : ∀ u ∈ r.uses, ∀ c ∈ u.classes, c < r.begun
  declared_lt : ∀ d ∈ r.declared, d.1 < r.begun
  around_lt : ∀ c ∈ r.around, c < r.begun
  around_nodup : r.around.Nodup
  pending : Pending r.declared s.scopes r.around r.uses

namespace Pending

variable {declared : List (Nat × String)} {scopes : List ClassScope} {around : List Nat}
  {uses : List PrivateUse}

theorem length_eq (h : Pending declared scopes around uses) : scopes.length = around.length := by
  induction scopes generalizing around uses with
  | nil =>
    cases around with
    | nil => rfl
    | cons => exact h.elim
  | cons scope scopes ih =>
    cases around with
    | nil => exact h.elim
    | cons c around =>
      obtain ⟨before, inside, -, -, -, -, -, hrest⟩ := h
      rw [List.length_cons, List.length_cons, ih hrest]

/-- The scopes know of a declaration when a class around the place has made it. -/
theorem any_declares (h : Pending declared scopes around uses) (name : String) :
    (scopes.any fun scope => scope.declares name)
      = around.any fun c => declared.contains (c, name) := by
  induction scopes generalizing around uses with
  | nil =>
    cases around with
    | nil => rfl
    | cons => exact h.elim
  | cons scope scopes ih =>
    cases around with
    | nil => exact h.elim
    | cons c around =>
      obtain ⟨before, inside, -, -, -, hdeclared, -, hrest⟩ := h
      rw [List.any_cons, List.any_cons, ih hrest]
      congr 1
      rw [ClassScope.declares, Bool.eq_iff_iff, List.contains_iff_mem, List.contains_iff_mem]
      exact hdeclared name

end Pending

theorem unresolvedEntries_append (declared : List (Nat × String)) (us vs : List PrivateUse) :
    unresolvedEntries declared (us ++ vs)
      = unresolvedEntries declared us ++ unresolvedEntries declared vs := by
  rw [unresolvedEntries, List.filter_append, List.map_append]
  rfl

theorem unresolvedEntries_singleton (declared : List (Nat × String)) (u : PrivateUse) :
    unresolvedEntries declared [u] = if u.resolvedBy declared then [] else [u.entry] := by
  unfold unresolvedEntries
  by_cases h : u.resolvedBy declared = true <;> simp [h]

/-- Declarations count once. -/
theorem PrivateUse.resolvedBy_cons_of_mem {declared : List (Nat × String)} {d : Nat × String}
    (h : d ∈ declared) (u : PrivateUse) : u.resolvedBy (d :: declared) = u.resolvedBy declared := by
  have hsame : ∀ e, (d :: declared).contains e = declared.contains e := by
    intro e
    rw [Bool.eq_iff_iff, List.contains_iff_mem, List.contains_iff_mem, List.mem_cons]
    exact ⟨fun he => he.elim (fun he => he ▸ h) id, Or.inr⟩
  simp only [resolvedBy, hsame]

/-- A declaration says nothing of uses outside of its class. -/
theorem PrivateUse.resolvedBy_cons_of_notMem {declared : List (Nat × String)} {c : Nat}
    {name : String} {u : PrivateUse} (h : c ∉ u.classes) :
    u.resolvedBy ((c, name) :: declared) = u.resolvedBy declared := by
  unfold resolvedBy
  rw [Bool.eq_iff_iff, List.any_eq_true, List.any_eq_true]
  refine exists_congr fun d => and_congr_right fun hd => ?_
  have hne : d ≠ c := fun heq => h (heq ▸ hd)
  simp [hne]

/-- Inside of its class a declaration resolves the uses of its name. -/
theorem PrivateUse.resolvedBy_cons_of_mem_classes {declared : List (Nat × String)} {c : Nat}
    {name : String} {u : PrivateUse} (h : c ∈ u.classes) :
    u.resolvedBy ((c, name) :: declared) = (u.name == name || u.resolvedBy declared) := by
  unfold resolvedBy
  rw [Bool.eq_iff_iff, Bool.or_eq_true, List.any_eq_true, List.any_eq_true]
  constructor
  · rintro ⟨d, hd, hmem⟩
    rw [List.contains_iff_mem, List.mem_cons] at hmem
    rcases hmem with heq | hmem
    · exact Or.inl (by simpa using congrArg Prod.snd heq)
    · exact Or.inr ⟨d, hd, List.contains_iff_mem.2 hmem⟩
  · rintro (heq | ⟨d, hd, hmem⟩)
    · refine ⟨c, h, List.contains_iff_mem.2 ?_⟩
      rw [beq_iff_eq.1 heq]
      exact List.mem_cons_self
    · refine ⟨d, hd, List.contains_iff_mem.2 ?_⟩
      exact List.mem_cons_of_mem _ (List.contains_iff_mem.1 hmem)

/-! ### One call -/

namespace Pending

variable {declared : List (Nat × String)} {scopes : List ClassScope} {around : List Nat}
  {uses : List PrivateUse}

theorem enter (h : Pending declared scopes around uses) {c : Nat}
    (huses : ∀ u ∈ uses, c ∉ u.classes) (hdeclared : ∀ name, (c, name) ∉ declared) :
    Pending declared (.empty :: scopes) (c :: around) uses := by
  refine ⟨uses, [], (List.append_nil uses).symm, huses, fun u hu => absurd hu List.not_mem_nil,
    fun name => ?_, rfl, h⟩
  exact iff_of_false List.not_mem_nil (hdeclared name)

/-- What waits in the innermost class is unresolved, so its declarations do not hold it back. -/
theorem unresolved_eq {scope : ClassScope} {c : Nat}
    (h : Pending declared (scope :: scopes) (c :: around) uses) :
    scope.unresolved = scope.waiting := by
  obtain ⟨before, inside, -, -, hinside, hdeclared, hwaiting, -⟩ := h
  refine List.filter_eq_self.2 fun e he => ?_
  rw [hwaiting, mem_noteUses_nil_iff] at he
  obtain ⟨u, hu, rfl⟩ := List.mem_map.1 (List.mem_of_find?_eq_some he)
  obtain ⟨hu, hopen⟩ := List.mem_filter.1 hu
  -- A declaration of the class would resolve the use, which stands inside it.
  by_contra hdecl
  have hmem : (c, u.name) ∈ declared := by
    refine (hdeclared u.name).1 ?_
    simpa [ClassScope.declares, PrivateUse.entry] using hdecl
  have hres : u.resolvedBy declared = true :=
    List.any_eq_true.2 ⟨c, (hinside u hu).mem List.mem_cons_self, List.contains_iff_mem.2 hmem⟩
  rw [hres] at hopen
  exact absurd hopen (by decide)

/-- The layer of a class that ends joins the layer around it. -/
theorem exit {inner outer : ClassScope} {c d : Nat}
    (h : Pending declared (inner :: outer :: scopes) (c :: d :: around) uses) :
    Pending declared
      ({ outer with waiting := noteUses outer.waiting inner.waiting } :: scopes)
      (d :: around) uses := by
  obtain ⟨_, inside, rfl, -, hinside, -, hwaiting, hrest⟩ := h
  obtain ⟨before', inside', rfl, hbefore', hinside', hdeclared', hwaiting', hrest'⟩ := hrest
  refine ⟨before', inside' ++ inside, List.append_assoc _ _ _, hbefore', ?_, hdeclared', ?_, hrest'⟩
  · intro u hu
    rcases List.mem_append.1 hu with hu | hu
    · exact hinside' u hu
    · exact (List.suffix_cons _ _).trans (hinside u hu)
  · show noteUses outer.waiting inner.waiting = _
    rw [hwaiting, hwaiting', unresolvedEntries_append, noteUses_append, noteUses_noteUses]
    rfl

/-- What is declared in one class does not matter for the layers of the others. -/
theorem cons_of_notMem (h : Pending declared scopes around uses) {c : Nat} {name : String}
    (hc : c ∉ around) (huses : ∀ u ∈ uses, c ∉ u.classes) :
    Pending ((c, name) :: declared) scopes around uses := by
  induction scopes generalizing around uses with
  | nil =>
    cases around with
    | nil => trivial
    | cons => exact h.elim
  | cons scope scopes ih =>
    cases around with
    | nil => exact h.elim
    | cons d around =>
      obtain ⟨before, inside, rfl, hbefore, hinside, hdeclared, hwaiting, hrest⟩ := h
      have hd : d ≠ c := fun heq => hc (heq ▸ List.mem_cons_self)
      have hnot : ∀ u ∈ inside, c ∉ u.classes :=
        fun u hu => huses u (List.mem_append_right _ hu)
      refine ⟨before, inside, rfl, hbefore, hinside, fun n => ?_, ?_, ?_⟩
      · rw [hdeclared n, List.mem_cons]
        simp [hd]
      · rw [hwaiting, unresolvedEntries, unresolvedEntries]
        congr 2
        refine List.filter_congr fun u hu => ?_
        rw [PrivateUse.resolvedBy_cons_of_notMem (hnot u hu)]
      · exact ih hrest (fun hmem => hc (List.mem_cons_of_mem _ hmem))
          fun u hu => huses u (List.mem_append_left _ hu)

/-- A new declaration takes its name from what waits. -/
theorem declare {scope : ClassScope} {c : Nat} {name : String}
    (h : Pending declared (scope :: scopes) (c :: around) uses) (hc : c ∉ around) :
    Pending ((c, name) :: declared) (scope.declare name :: scopes) (c :: around) uses := by
  obtain ⟨before, inside, rfl, hbefore, hinside, hdeclared, hwaiting, hrest⟩ := h
  refine ⟨before, inside, rfl, hbefore, hinside, fun n => ?_, ?_, hrest.cons_of_notMem hc hbefore⟩
  · show n ∈ name :: scope.declared ↔ _
    rw [List.mem_cons, List.mem_cons, hdeclared n]
    simp
  · show (scope.waiting.filter fun e => e.1 != name) = _
    rw [hwaiting, filter_noteUses fun n => n != name]
    congr 1
    rw [unresolvedEntries, unresolvedEntries, List.filter_map, List.filter_filter]
    congr 1
    refine List.filter_congr fun u hu => ?_
    have hmem : c ∈ u.classes := (hinside u hu).mem List.mem_cons_self
    rw [PrivateUse.resolvedBy_cons_of_mem_classes hmem]
    show (u.name != name && !u.resolvedBy declared) = _
    rw [Bool.not_or]
    rfl

/-- To declare a name once more changes nothing. -/
theorem cons_of_mem (h : Pending declared scopes around uses) {d : Nat × String}
    (hd : d ∈ declared) : Pending (d :: declared) scopes around uses := by
  induction scopes generalizing around uses with
  | nil =>
    cases around with
    | nil => trivial
    | cons => exact h.elim
  | cons scope scopes ih =>
    cases around with
    | nil => exact h.elim
    | cons c around =>
      obtain ⟨before, inside, rfl, hbefore, hinside, hdeclared, hwaiting, hrest⟩ := h
      refine ⟨before, inside, rfl, hbefore, hinside, fun n => ?_, ?_, ih hrest⟩
      · rw [hdeclared n, List.mem_cons]
        exact ⟨Or.inr, fun hmem => hmem.elim (fun heq => heq ▸ hd) id⟩
      · rw [hwaiting, unresolvedEntries, unresolvedEntries]
        simp only [PrivateUse.resolvedBy_cons_of_mem hd]

/-- A use joins the layer of the innermost class, and waits there unless it is resolved. -/
theorem use {scope : ClassScope} {c : Nat}
    (h : Pending declared (scope :: scopes) (c :: around) uses) (name : String) (span : Span) :
    Pending declared
      ((if (c :: around).any (fun c => declared.contains (c, name)) then scope
        else scope.await name span) :: scopes)
      (c :: around) (uses ++ [⟨name, span, c :: around⟩]) := by
  obtain ⟨before, inside, rfl, hbefore, hinside, hdeclared, hwaiting, hrest⟩ := h
  refine ⟨before, inside ++ [⟨name, span, c :: around⟩], List.append_assoc _ _ _, hbefore, ?_, ?_,
    ?_, hrest⟩
  · intro u hu
    rcases List.mem_append.1 hu with hu | hu
    · exact hinside u hu
    · rw [List.mem_singleton.1 hu]
  · intro n
    rw [← hdeclared n]
    split
    · rfl
    · rw [ClassScope.await_eq]
  · rw [unresolvedEntries_append, unresolvedEntries_singleton]
    show _ = noteUses [] (_ ++ if (c :: around).any (fun c => declared.contains (c, name)) then _
      else _)
    split
    · rw [hwaiting, List.append_nil]
    · rw [ClassScope.await_eq, noteUses_append, ← hwaiting]
      rfl

end Pending

namespace Reached

variable {s : ClassScopes} {r : Resolver}

theorem initial : Reached .outside .initial where
  uses_lt := fun _ hu => absurd hu List.not_mem_nil
  declared_lt := fun _ hd => absurd hd List.not_mem_nil
  around_lt := fun _ hc => absurd hc List.not_mem_nil
  around_nodup := List.nodup_nil
  pending := trivial

theorem enter (h : Reached s r) : Reached s.enter (r.after .enter) where
  uses_lt := fun u hu c hc => Nat.lt_succ_of_lt (h.uses_lt u hu c hc)
  declared_lt := fun d hd => Nat.lt_succ_of_lt (h.declared_lt d hd)
  around_lt := by
    intro c hc
    rcases List.mem_cons.1 hc with rfl | hc
    · exact Nat.lt_succ_self _
    · exact Nat.lt_succ_of_lt (h.around_lt c hc)
  around_nodup :=
    List.nodup_cons.2 ⟨fun hmem => Nat.lt_irrefl _ (h.around_lt _ hmem), h.around_nodup⟩
  pending :=
    h.pending.enter (fun u hu hmem => Nat.lt_irrefl _ (h.uses_lt u hu _ hmem))
      fun name hmem => Nat.lt_irrefl _ (h.declared_lt _ hmem)

theorem exit (h : Reached s r) : Reached s.exit.2 (r.after .exit) where
  uses_lt := h.uses_lt
  declared_lt := h.declared_lt
  around_lt := fun c hc => h.around_lt c (List.mem_of_mem_tail hc)
  around_nodup := h.around_nodup.sublist (List.tail_sublist _)
  pending := by
    have hp := h.pending
    obtain ⟨scopes⟩ := s
    obtain ⟨begun, around, declared, uses⟩ := r
    match scopes, around, hp with
    | [], [], _ => trivial
    | [last], [c], _ =>
      show Pending declared (ClassScopes.exit ⟨[last]⟩).2.scopes [] uses
      unfold ClassScopes.exit
      dsimp only
      split <;> trivial
    | inner :: outer :: scopes, c :: d :: around, hp =>
      show Pending declared (ClassScopes.exit ⟨inner :: outer :: scopes⟩).2.scopes (d :: around) uses
      rw [ClassScopes.exit]
      simp only [ClassScope.foldl_await, hp.unresolved_eq]
      exact hp.exit
    | [], _ :: _, hp => exact hp.elim
    | _ :: _, [], hp => exact hp.elim
    | [_], _ :: _ :: _, hp => exact absurd hp.length_eq (by simp)
    | _ :: _ :: _, [_], hp => exact absurd hp.length_eq (by simp)

theorem declare (h : Reached s r) (name : String) (span : Span) :
    Reached (s.after (.declare name span)) (r.after (.declare name span)) := by
  obtain ⟨scopes⟩ := s
  obtain ⟨begun, around, declared, uses⟩ := r
  match scopes, around, h with
  | [], [], h => exact h
  | [], _ :: _, h => exact h.pending.elim
  | _ :: _, [], h => exact h.pending.elim
  | scope :: scopes, c :: around, h =>
    have hp := h.pending
    obtain ⟨-, -, -, -, -, hdeclared, -, -⟩ := h.pending
    have hdeclared := hdeclared name
    refine ⟨h.uses_lt, ?_, h.around_lt, h.around_nodup, ?_⟩
    · intro d hd
      rcases List.mem_cons.1 hd with rfl | hd
      · exact h.around_lt c List.mem_cons_self
      · exact h.declared_lt d hd
    · show Pending ((c, name) :: declared) _ (c :: around) uses
      by_cases hknown : scope.declares name = true
      · have hmem : (c, name) ∈ declared := hdeclared.1 (List.contains_iff_mem.1 hknown)
        rw [ClassScopes.after, ClassScopes.declare]
        simp only [hknown, if_true]
        exact hp.cons_of_mem hmem
      · rw [ClassScopes.after, ClassScopes.declare]
        simp only [hknown]
        exact hp.declare (List.nodup_cons.1 h.around_nodup).1

theorem use (h : Reached s r) (name : String) (span : Span) :
    Reached (s.after (.use name span)) (r.after (.use name span)) := by
  obtain ⟨scopes⟩ := s
  obtain ⟨begun, around, declared, uses⟩ := r
  refine ⟨?_, h.declared_lt, h.around_lt, h.around_nodup, ?_⟩
  · intro u hu c hc
    rcases List.mem_append.1 hu with hu | hu
    · exact h.uses_lt u hu c hc
    · rw [List.mem_singleton.1 hu] at hc
      exact h.around_lt c hc
  · have hp := h.pending
    have hany := hp.any_declares name
    match scopes, around, hp, hany with
    | [], [], _, _ => trivial
    | [], _ :: _, hp, _ => exact hp.elim
    | _ :: _, [], hp, _ => exact hp.elim
    | scope :: scopes, c :: around, hp, hany =>
      have hnext := hp.use name span
      dsimp only at hany
      rw [← hany] at hnext
      show Pending declared (ClassScopes.after _ _).scopes (c :: around) _
      rw [ClassScopes.after, ClassScopes.use]
      dsimp only
      split
      next hres =>
        rw [if_pos hres] at hnext
        exact hnext
      next hres =>
        rw [if_neg hres] at hnext
        exact hnext

theorem after (h : Reached s r) (call : ScopeCall) : Reached (s.after call) (r.after call) := by
  cases call with
  | enter => exact h.enter
  | exit => exact h.exit
  | declare name span => exact h.declare name span
  | use name span => exact h.use name span

/-- Calls lead from scopes and resolver that agree to ones that agree. -/
theorem foldl (h : Reached s r) (calls : List ScopeCall) :
    Reached (calls.foldl ClassScopes.after s) (calls.foldl Resolver.after r) := by
  induction calls generalizing s r with
  | nil => exact h
  | cons call calls ih => exact ih (h.after call)

end Reached

/-! ### What the scopes answer -/

/-- In the innermost class the first unresolved uses of the names wait. -/
theorem Pending.waiting_eq {r : Resolver} {scope : ClassScope} {scopes : List ClassScope} {c : Nat}
    {around : List Nat} (h : Pending r.declared (scope :: scopes) (c :: around) r.uses) :
    scope.waiting = noteUses [] ((r.unresolved c).map PrivateUse.entry) := by
  obtain ⟨before, inside, huses, hbefore, hinside, -, hwaiting, -⟩ := h
  have hnone : before.filter (fun u => u.classes.contains c && !u.resolvedBy r.declared) = [] := by
    refine List.filter_eq_nil_iff.2 fun u hu => ?_
    have hnot := hbefore u hu
    simp [hnot]
  have hall : inside.filter (fun u => u.classes.contains c && !u.resolvedBy r.declared)
      = inside.filter fun u => !u.resolvedBy r.declared := by
    refine List.filter_congr fun u hu => ?_
    rw [List.contains_iff_mem.2 ((hinside u hu).mem List.mem_cons_self), Bool.true_and]
  rw [hwaiting, unresolvedEntries, Resolver.unresolved, huses, List.filter_append, hnone, hall,
    List.nil_append]

/-- An entry that waits is the first unresolved use of its name. -/
theorem mem_firstUses_iff (r : Resolver) (c : Nat) (e : String × Span) :
    e ∈ noteUses [] ((r.unresolved c).map PrivateUse.entry)
      ↔ ∃ u ∈ r.firstUnresolved? c e.1, u.span = e.2 := by
  rw [mem_noteUses_nil_iff, List.find?_map]
  show ((r.unresolved c).find? fun u => u.name == e.1).map PrivateUse.entry = some e ↔ _
  rw [Option.map_eq_some_iff]
  refine exists_congr fun u => and_congr_right fun hu => ?_
  have hname : (u.name == e.1) = true :=
    List.find?_some (p := fun u : PrivateUse => u.name == e.1) hu
  rw [beq_iff_eq] at hname
  constructor
  · rintro rfl
    rfl
  · intro hspan
    exact Prod.ext hname hspan

namespace Reached

variable {s : ClassScopes} {r : Resolver}

theorem depth_eq (h : Reached s r) : s.depth = r.around.length := h.pending.length_eq

theorem declare_answer (h : Reached s r) (name : String) (span : Span) :
    match s.declare name span with
    | .ok _ => ∀ c ∈ r.around.head?, (c, name) ∉ r.declared
    | .error e =>
      e = ClassScopes.nameError .duplicatePrivateElement span
        ∧ s.after (.declare name span) = s ∧ ∃ c ∈ r.around.head?, (c, name) ∈ r.declared := by
  obtain ⟨scopes⟩ := s
  obtain ⟨begun, around, declared, uses⟩ := r
  match scopes, around, h.pending with
  | [], [], _ => exact fun c hc => absurd hc (by simp)
  | [], _ :: _, hp => exact hp.elim
  | _ :: _, [], hp => exact hp.elim
  | scope :: scopes, c :: around, hp =>
    obtain ⟨-, -, -, -, -, hdeclared, -, -⟩ := hp
    have hiff : scope.declares name = true ↔ (c, name) ∈ declared :=
      List.contains_iff_mem.trans (hdeclared name)
    rw [ClassScopes.after, ClassScopes.declare]
    by_cases hknown : scope.declares name = true
    · simp only [hknown, if_true, true_and]
      exact ⟨rfl, c, rfl, hiff.1 hknown⟩
    · simp only [hknown]
      intro d hd
      obtain rfl := Option.some.inj hd
      exact fun hmem => hknown (hiff.2 hmem)

theorem use_answer (h : Reached s r) (name : String) (span : Span) :
    match s.use name span with
    | .ok _ => r.around ≠ []
    | .error e => e = ClassScopes.nameError .undeclaredPrivateName span ∧ r.around = [] := by
  obtain ⟨scopes⟩ := s
  obtain ⟨begun, around, declared, uses⟩ := r
  match scopes, around, h.pending with
  | [], [], _ => exact ⟨rfl, rfl⟩
  | [], _ :: _, hp => exact hp.elim
  | _ :: _, [], hp => exact hp.elim
  | scope :: scopes, c :: around, _ =>
    rw [ClassScopes.use]
    dsimp only
    by_cases hknown : (scope :: scopes).any (fun scope => scope.declares name) = true
    · rw [if_pos hknown]
      exact List.cons_ne_nil _ _
    · rw [if_neg hknown]
      exact List.cons_ne_nil _ _

/-- At the end of the outermost class the names that wait are errors. -/
theorem exit_outermost {last : ClassScope} {c : Nat} (h : Reached ⟨[last]⟩ r)
    (hc : r.around = [c]) :
    match (ClassScopes.exit ⟨[last]⟩).1 with
    | .ok count => count = 0 ∧ r.unresolved c = []
    | .error e =>
      e.cause = .undeclaredPrivateName ∧ e.token = some .privateName ∧ r.unresolved c ≠ []
        ∧ IsLeast {n | ∃ name, ∃ u ∈ r.firstUnresolved? c name, u.span.start = n} e.span.start := by
  have hp := h.pending
  rw [hc] at hp
  have hwaiting := hp.waiting_eq
  have hempty : last.waiting = [] ↔ r.unresolved c = [] := by
    rw [hwaiting, noteUses_eq_nil_iff, List.map_eq_nil_iff]
    exact and_iff_right rfl
  rw [ClassScopes.exit]
  simp only [hp.unresolved_eq]
  cases hearliest : earliest? last.waiting with
  | none => exact ⟨rfl, hempty.1 ((earliest?_eq_none_iff _).1 hearliest)⟩
  | some span =>
    obtain ⟨⟨e, he, hstart⟩, hleast⟩ := earliest?_isLeast hearliest
    refine ⟨rfl, rfl, fun hnone => ?_, ?_, ?_⟩
    · rw [hempty.2 hnone] at he
      exact List.not_mem_nil he
    · rw [hwaiting, mem_firstUses_iff] at he
      obtain ⟨u, hu, hspan⟩ := he
      exact ⟨e.1, u, hu, hspan ▸ hstart⟩
    · rintro n ⟨name, u, hu, rfl⟩
      refine hleast ⟨(name, u.span), ?_, rfl⟩
      rw [hwaiting, mem_firstUses_iff]
      exact ⟨u, hu, rfl⟩

/-- At the end of a nested class all names that wait move outward. -/
theorem exit_nested {inner outer : ClassScope} {scopes : List ClassScope} {c d : Nat}
    {around : List Nat} (h : Reached ⟨inner :: outer :: scopes⟩ r)
    (hc : r.around = c :: d :: around) :
    (ClassScopes.exit ⟨inner :: outer :: scopes⟩).1
      = .ok ((r.unresolved c).map PrivateUse.name).toFinset.card := by
  have hp := h.pending
  rw [hc] at hp
  rw [ClassScopes.exit]
  simp only [hp.unresolved_eq]
  rw [hp.waiting_eq, length_noteUses_nil, List.map_map]
  rfl

theorem exit_answer (h : Reached s r) :
    match r.around with
    | [] => s.exit = (.ok 0, s)
    | [c] =>
      s.exit.2 = .outside ∧
        match s.exit.1 with
        | .ok count => count = 0 ∧ r.unresolved c = []
        | .error e =>
          e.cause = .undeclaredPrivateName ∧ e.token = some .privateName ∧ r.unresolved c ≠ []
            ∧ IsLeast {n | ∃ name, ∃ u ∈ r.firstUnresolved? c name, u.span.start = n} e.span.start
    | c :: _ :: _ => s.exit.1 = .ok ((r.unresolved c).map PrivateUse.name).toFinset.card := by
  obtain ⟨scopes⟩ := s
  have hlength := h.depth_eq
  match scopes, hround : r.around with
  | [], [] => rfl
  | [last], [c] =>
    refine ⟨?_, h.exit_outermost hround⟩
    rw [ClassScopes.exit]
    dsimp only
    split <;> rfl
  | inner :: outer :: scopes, c :: d :: around => exact h.exit_nested hround
  | [], _ :: _ => rw [hround] at hlength; cases hlength
  | _ :: _, [] => rw [hround] at hlength; cases hlength
  | [_], _ :: _ :: _ => rw [hround] at hlength; cases hlength
  | _ :: _ :: _, [_] => rw [hround] at hlength; cases hlength

theorem follows (h : Reached s r) : s.Follows r :=
  ⟨h.depth_eq, h.declare_answer, h.use_answer, h.exit_answer⟩

end Reached

/-- **Hindsight.** After any calls the scopes answer the next call as the resolver does that has
remembered everything: deciding early, and moving outward what is left, loses nothing. -/
theorem run_follows (calls : List ScopeCall) :
    (ClassScopes.run calls).Follows (Resolver.run calls) :=
  (Reached.initial.foldl calls).follows

/-- The first use of a nested class that waits longer than the class is kept where it stands. -/
example :
    let calls : List ScopeCall :=
      [.enter, .use "b" ⟨20, 22⟩, .enter, .use "a" ⟨8, 10⟩, .use "b" ⟨14, 16⟩, .exit,
        .declare "b" ⟨30, 32⟩]
    (ClassScopes.run calls).exit.1
      = .error (ClassScopes.nameError .undeclaredPrivateName ⟨8, 10⟩) := by decide

end EcmaScript

import EcmaScript.Proofs.Relation.Lockstep
import EcmaScript.Proofs.Relation.Restored

namespace EcmaScript

open EcmaScript.Parser

/-!
# Going back and reading again

Parameters before an arrow are tried, and then the text is read again from where they began. Only
the position goes back: the tokens that have been looked at and the private names that were used
stay known. Neither can be told by the second reading, and it leaves nothing new behind.

* `State.Agrees` — what both readings leave in the same way;
* `State.Rewound` — back at the place before a part, with all that the part has left behind;
* `Follows.sameOutcome` — a part that keeps the state around it comes to the same end again;
* `Grammar.IsReread` — statements, expressions, and the parameters of arrows;
* `Grammar.IsReread.replays` — they come to the same end again;
* `Grammar.arrowFunction_of_tried` — where parameters could be read, the arrow function has them.
-/

/-! ### Rewound states -/

namespace State

/-- Two states at the same position, in the same classes with the same names, and both inside of an
initializer or both outside. -/
structure Agrees (s t : State) : Prop where
  position : t.position = s.position
  scopes : t.scopes = s.scopes
  inInitializer : t.inInitializer = s.inInitializer

theorem Agrees.symm {s t : State} (h : Agrees s t) : Agrees t s :=
  ⟨h.position.symm, h.scopes.symm, h.inInitializer.symm⟩

theorem Agrees.trans {s t u : State} (h : Agrees s t) (h' : Agrees t u) : Agrees s u :=
  ⟨h'.position.trans h.position, h'.scopes.trans h.scopes,
    h'.inInitializer.trans h.inInitializer⟩

theorem SamePlace.agrees {s t : State} (h : SamePlace s t) : Agrees s t :=
  ⟨h.position, h.scopes, h.inInitializer⟩

/-- A look at the tokens is not noticed. -/
theorem agrees_looked (s : State) (n : Nat) : Agrees s (s.looked n) :=
  ((SamePlace.refl s).looked n).agrees

theorem Agrees.advanced {s t : State} (h : Agrees s t) : Agrees s.advanced t.advanced :=
  ⟨congrArg (· + 1) h.position, h.scopes, h.inInitializer⟩

/-- Back at the position of `s`, with the classes and the mark that `t` has. Any tokens may have
been looked at. -/
structure Rewound (s t r : State) : Prop where
  position : r.position = s.position
  scopes : r.scopes = t.scopes
  inInitializer : r.inInitializer = t.inInitializer

theorem rewound_restore (s t : State) : Rewound s t { t with position := s.position } :=
  ⟨rfl, rfl, rfl⟩

variable {c : Context} {s t r t' : State}

/-- A state to which a part that keeps the state was rewound stands beside the one before the part:
what the part has noted waits there in addition. -/
theorem Kept.alike (h : s.Kept c t) (hr : Rewound s t r) :
    ∃ uses, t.scopes = s.scopes.noting uses
      ∧ s.Alike (.beside (.noting s.scopes uses) c.checks.undeclaredNames) 0 r := by
  obtain ⟨uses, -, ht⟩ := h.scopes
  refine ⟨uses, ht, hr.position, ⟨[], [], rfl, ?_, ?_⟩, hr.inInitializer.trans h.inInitializer⟩
  · rw [ClassScopes.noting_nil]
    rfl
  · rw [hr.scopes, ht, ClassScopes.noting_nil]
    rfl

/-- States in the same classes are linked with the same classes around them. -/
theorem Agrees.alike (h : Agrees s t) (checked : Bool) :
    s.Alike (.beside (.refl s.scopes) checked) 0 t := by
  refine ⟨h.position, ⟨[], [], rfl, ?_, ?_⟩, h.inInitializer⟩
  · rw [ClassScopes.noting_nil]
    rfl
  · rw [h.scopes, ClassScopes.noting_nil]
    rfl

theorem Alike.agrees_of_refl {base : ClassScopes} {checked : Bool}
    (h : s.Alike (.beside (.refl base) checked) 0 t) : s.Agrees t := by
  obtain ⟨inner, noted, -, hscopes, hscopes'⟩ := h.scopes
  exact ⟨h.position, hscopes'.trans hscopes.symm, h.inInitializer⟩

/-- What was noted twice was noted once: both runs end in the same classes with the same names. -/
theorem Alike.agrees {uses : List (String × Span)} {checked : Bool}
    (h : t.Alike (.beside (.noting s.scopes uses) checked) 0 t')
    (ht : t.scopes = s.scopes.noting uses) : t.Agrees t' := by
  obtain ⟨inner, noted, hdepth, hscopes, hscopes'⟩ := h.scopes
  obtain rfl := List.eq_nil_of_length_eq_zero hdepth
  have hnoted : t.scopes = s.scopes.noting noted := hscopes
  refine ⟨h.position, ?_, h.inInitializer⟩
  calc t'.scopes
      = (s.scopes.noting uses).noting noted := hscopes'
    _ = (s.scopes.noting noted).noting noted := by rw [← ht, hnoted]
    _ = t.scopes := by rw [ClassScopes.noting_noting_self, hnoted]

end State

/-! ### The second reading -/

/-- The run of a part that keeps the state, and whose result does not depend on uses that were noted
before, can be repeated. -/
theorem Follows.sameOutcome {α : Type} {p : Parser α} (hkeeps : Keeps State.Kept p)
    (hfollows : Follows p p) {c : Context} {s t r : State} (h : Ends (p c s) t)
    (hr : State.Rewound s t r) : SameOutcome State.Agrees (p c s) (p c r) := by
  obtain ⟨uses, ht, halike⟩ := (hkeeps h).alike hr
  have hsame := hfollows (.refl c) halike
  generalize p c r = again at hsame ⊢
  obtain ⟨a, hrun⟩ | ⟨e, hrun⟩ := h
  · rw [hrun] at hsame ⊢
    cases hsame with
    | ok _ hends => exact .ok a (hends.agrees ht)
  · rw [hrun] at hsame ⊢
    cases hsame with
    | error _ hends => exact .error e (hends.agrees ht)

/-- From states that agree the second parser comes to the same end as the first one, in states that
agree. -/
theorem Follows.agrees {α : Type} {p p' : Parser α} (h : Follows p p') {c : Context} {s s' : State}
    (hs : s.Agrees s') : SameOutcome State.Agrees (p c s) (p' c s') := by
  have hsame := h (.refl c) (hs.alike c.checks.undeclaredNames)
  generalize p c s = r at hsame
  generalize p' c s' = r' at hsame
  cases hsame with
  | ok a ht => exact .ok a ht.agrees_of_refl
  | error e ht => exact .error e ht.agrees_of_refl
  | exhausted t r' => exact .exhausted t r'

namespace Grammar

/-- The rules that may be read a second time from the place where they began: all that parameters
are made of, and the parameters themselves. -/
inductive IsReread (g : Rules) : {α : Type} → Parser α → Prop
  | statement : IsReread g (statement g)
  | expression (mode : ExprMode) : IsReread g (expression g mode)
  | arrowParameters (async : Bool) : IsReread g (arrowParameters g async)

variable {n : Nat} {α : Type} {p : Parser α}

theorem IsReread.isRule {g : Rules} (h : IsReread g p) : IsRule g p := by
  cases h with
  | statement => exact .statement
  | expression mode => exact .expression mode
  | arrowParameters async => exact .arrowParameters async

theorem IsReread.keeps (h : IsReread (.within n) p) : Keeps State.Kept p :=
  h.isRule.related ((Rules.within_keeping n).closedOnRules (Rules.within_reading n))

theorem IsReread.follows (h : IsReread (.within n) p) : Follows p p := by
  have hsteps := (Rules.within_follows (Nat.le_refl n)).steps (Rules.within_reading n)
  cases h with
  | statement => exact hsteps.statement
  | expression mode => exact hsteps.expression trivial
  | arrowParameters async => exact hsteps.arrowParameters async

/-- **Going back and reading again changes nothing.** With enough budget a statement, an expression
or the parameters of an arrow come to an end from every state; read again from where they began,
they come to the same end, with the same tree or the same error, at the same position, in the same
classes with the same names, and with the same mark of initializers. -/
theorem IsReread.replays (hp : IsReread (.within n) p) {c : Context} (hn : c.budget ≤ n)
    (s : State) :
    (∃ a t t', p c s = .ok a t ∧ p c { t with position := s.position } = .ok a t'
      ∧ t.Agrees t')
    ∨ ∃ e t t', p c s = .error (.error e) t
      ∧ p c { t with position := s.position } = .error (.error e) t' ∧ t.Agrees t' := by
  obtain ⟨t, ht⟩ := Rules.ends_of_isRule hp.isRule hn s
  have hsame := hp.follows.sameOutcome hp.keeps ht (State.rewound_restore s t)
  generalize hagain : p c { t with position := s.position } = again at hsame
  obtain ⟨a, hrun⟩ | ⟨e, hrun⟩ := ht
  · rw [hrun] at hsame
    cases hsame with
    | ok _ hagrees => exact .inl ⟨a, t, _, hrun, hagain, hagrees⟩
  · rw [hrun] at hsame
    cases hsame with
    | error _ hagrees => exact .inr ⟨e, t, _, hrun, hagain, hagrees⟩

set_option maxRecDepth 100000 in
/-- The parameters of an arrow in a class in which one name waits, with a class that uses a name:
after the first reading that name waits too, and the second one notes it once more. -/
theorem IsReread.replays_parameters :
    ∃ ps t t', Grammar.arrowParameters (.within (Context.ofSource
        "(a = class { m() { b.#x } }) => a" true ⟨9, true⟩).budget) false
        (Context.ofSource "(a = class { m() { b.#x } }) => a" true ⟨9, true⟩)
        ⟨0, 0, ⟨[⟨["d"], [("e", .point 0)]⟩]⟩, false, #[]⟩ = .ok ps t
      ∧ t.scopes ≠ ⟨[⟨["d"], [("e", .point 0)]⟩]⟩
      ∧ Grammar.arrowParameters (.within (Context.ofSource
        "(a = class { m() { b.#x } }) => a" true ⟨9, true⟩).budget) false
        (Context.ofSource "(a = class { m() { b.#x } }) => a" true ⟨9, true⟩)
        { t with position := 0 } = .ok ps t'
      ∧ t.Agrees t' := by
  have hruns : (match Grammar.arrowParameters (.within (Context.ofSource
      "(a = class { m() { b.#x } }) => a" true ⟨9, true⟩).budget) false
      (Context.ofSource "(a = class { m() { b.#x } }) => a" true ⟨9, true⟩)
      ⟨0, 0, ⟨[⟨["d"], [("e", .point 0)]⟩]⟩, false, #[]⟩ with
      | .ok _ t => decide (t.scopes ≠ ⟨[⟨["d"], [("e", .point 0)]⟩]⟩)
      | .error _ _ => false) = true := by decide +kernel
  obtain ⟨ps, t, t', hrun, hagain, hagrees⟩ | ⟨e, t, t', hrun, -⟩ := IsReread.replays
    (c := Context.ofSource "(a = class { m() { b.#x } }) => a" true ⟨9, true⟩)
    (IsReread.arrowParameters false) (Nat.le_refl _)
    ⟨0, 0, ⟨[⟨["d"], [("e", .point 0)]⟩]⟩, false, #[]⟩
  · rw [hrun] at hruns
    exact ⟨ps, t, t', hrun, of_decide_eq_true hruns, hagain, hagrees⟩
  · rw [hrun] at hruns
    cases hruns

/-- The parameters and the body of an arrow function that is not async. -/
def plainArrow (g : Rules) (stops : List TokenKind) : Parser (Span → Expr) := do
  let params ← arrowParameters g false
  let body ← withNames (·.forAsync false) (arrowBody g stops)
  return fun span => .arrow span (.mk span true false false params body)

/-- An arrow function without `async` in front is read after some looks at the tokens. -/
theorem arrowFunction_run {g : Rules} {c : Context} {s : State}
    (hfirst : (c.token s.position).kind ≠ .keyword .kAsync) (stops : List TokenKind) :
    ∃ r, s.SamePlace r ∧ arrowFunction g stops c s = spanned (plainArrow g stops) c r := by
  have hlooked := (State.SamePlace.refl s).looked 1
  by_cases hsecond : (c.token (s.position + 1)).kind = arrowKind
  · refine ⟨_, hlooked, ?_⟩
    rw [arrowFunction, spanned_run, look_bind, spanned_run, if_pos hsecond, pure_bind]
    rfl
  · refine ⟨_, hlooked.looked 0, ?_⟩
    rw [arrowFunction, spanned_run, look_bind, spanned_run, if_neg hsecond, accept_bind,
      State.looked_position, if_neg hfirst]
    rfl

/-- Where parameters could be read in an attempt, the arrow function that is read then has these
parameters: only its body can still fail. -/
theorem arrowFunction_of_tried {c : Context} {s t : State} {ps : List Param}
    (hfirst : (c.token s.position).kind ≠ .keyword .kAsync)
    (h : arrowParameters (.within n) false c s = .ok ps t) (stops : List TokenKind) :
    ∃ v, t.Agrees v ∧ arrowFunction (.within n) stops c { t with position := s.position } =
      match arrowBody (.within n) stops { c with names := c.names.forAsync false } v with
      | .ok body u =>
        .ok (.arrow (spanSince c s.position u)
          (.mk (spanSince c s.position u) true false false ps body)) u
      | .error e u => .error e u := by
  obtain ⟨r, hr, hrun⟩ := arrowFunction_run (g := .within n) (c := c)
    (s := { t with position := s.position }) hfirst stops
  -- The second reading starts after looks at the tokens, which it does not notice.
  have hrewound : State.Rewound s t r := ⟨hr.position, hr.scopes, hr.inInitializer⟩
  have hparams : IsReread (.within n) (arrowParameters (.within n) false) := .arrowParameters false
  have hsame := hparams.follows.sameOutcome hparams.keeps (.inl ⟨ps, h⟩) hrewound
  rw [h] at hsame
  generalize hagain : arrowParameters (.within n) false c r = again at hsame
  cases hsame with
  | ok _ hagrees =>
    refine ⟨_, hagrees, ?_⟩
    rw [hrun, spanned_run, plainArrow, bind_apply, hagain]
    dsimp only
    rw [bind_apply, withNames_run, hr.position]
    cases arrowBody (.within n) stops { c with names := c.names.forAsync false } _ <;> rfl

end Grammar

end EcmaScript

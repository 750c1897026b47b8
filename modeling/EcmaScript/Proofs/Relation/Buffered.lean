import EcmaScript.Proofs.Relation.Restored

namespace EcmaScript

open EcmaScript.Parser

/-!
# Rules and the tokens that have been taken

A rule looks only at tokens that have been taken from the text by the time it ends, and it ends
behind none that has not. Its run would be the same over any list that begins with these tokens.

* `Run.state` — the state in which a run ends, well or not;
* `Context.AgreesBelow` — contexts that differ at most in the tokens from an index on;
* `WithinBuffer`, `Buffered` — a run, and a parser, that keep to the tokens that have been taken;
* `Grammar.IsRule.buffered`, `Grammar.script_buffered` — all rules do, and whole scripts.
-/

variable {α β : Type} {c c' : Context} {s t : State}

/-- The state in which a run ends, well or not. -/
def Run.state : EStateM.Result Failure State α → State
  | .ok _ t => t
  | .error _ t => t

/-- The contexts differ at most in the tokens from an index on. -/
structure Context.AgreesBelow (c c' : Context) (n : Nat) : Prop where
  token : ∀ i < n, c'.token i = c.token i
  sourceLength : c'.sourceLength = c.sourceLength
  options : c'.options = c.options
  names : c'.names = c.names
  checks : c'.checks = c.checks

theorem Context.AgreesBelow.mono {n m : Nat} (h : c.AgreesBelow c' n) (hm : m ≤ n) :
    c.AgreesBelow c' m :=
  ⟨fun i hi => h.token i (hi.trans_le hm), h.sourceLength, h.options, h.names, h.checks⟩

theorem Context.AgreesBelow.withNames {n : Nat} (h : c.AgreesBelow c' n)
    (f : NameRules → NameRules) :
    AgreesBelow { c with names := f c.names } { c' with names := f c'.names } n :=
  ⟨h.token, h.sourceLength, h.options, congrArg f h.names, h.checks⟩

/-- The span behind a part begins and ends at tokens that have been taken. -/
theorem Context.AgreesBelow.spanSince (h : c.AgreesBelow c' t.seen) (ht : t.position ≤ t.seen)
    (start : Nat) : spanSince c' start t = spanSince c start t := by
  unfold EcmaScript.spanSince
  split
  next hstart =>
    rw [h.token start (by omega), h.token (t.position - 1) (by omega)]
  next =>
    split
    next hstart => rw [h.token start hstart]
    next =>
      split
      next => rfl
      next hseen => rw [h.token (t.seen - 1) (by omega)]

/-! ### Runs -/

/-- The run drops no token that has been taken, ends behind none that has not, and would be the same
over other tokens in place of these. -/
structure WithinBuffer (p : Parser α) (c : Context) (s : State) : Prop where
  seen : s.seen ≤ (Run.state (p c s)).seen
  position : (Run.state (p c s)).position ≤ (Run.state (p c s)).seen
  same : ∀ c', c.AgreesBelow c' (Run.state (p c s)).seen → p c' s = p c s

namespace WithinBuffer

/-- A run in two steps. -/
theorem bind {p : Parser α} {f : α → Parser β} (hp : WithinBuffer p c s)
    (hf : ∀ a u, p c s = .ok a u → WithinBuffer (f a) c u) : WithinBuffer (p >>= f) c s := by
  obtain ⟨hseen, hposition, hsame⟩ := hp
  have hbind (c' : Context) := bind_apply p f c' s
  cases hrun : p c s with
  | ok a u =>
    obtain ⟨hseen', hposition', hsame'⟩ := hf a u hrun
    simp only [hrun, Run.state] at hseen hsame
    have heq : (p >>= f) c s = f a c u := by rw [hbind, hrun]
    refine ⟨?_, ?_, fun c' hc => ?_⟩
    · rw [heq]
      exact hseen.trans hseen'
    · rwa [heq]
    · rw [heq] at hc ⊢
      rw [hbind, hsame c' (hc.mono hseen')]
      exact hsame' c' hc
  | error e u =>
    simp only [hrun, Run.state] at hseen hposition hsame
    have heq : (p >>= f) c s = .error e u := by rw [hbind, hrun]
    refine ⟨?_, ?_, fun c' hc => ?_⟩
    · rwa [heq]
    · rwa [heq]
    · rw [heq] at hc ⊢
      rw [hbind, hsame c' hc]

/-- A run that neither moves nor looks at a token. -/
theorem of_still {p : Parser α} (hs : s.position ≤ s.seen)
    (hseen : (Run.state (p c s)).seen = s.seen)
    (hposition : (Run.state (p c s)).position = s.position)
    (hsame : ∀ c', c.AgreesBelow c' s.seen → p c' s = p c s) : WithinBuffer p c s :=
  ⟨hseen.ge, by rwa [hseen, hposition], fun c' hc => hsame c' (hseen ▸ hc)⟩

/-- A run whose result and state are turned into others, behind which as much has been taken. -/
theorem of_inner {p : Parser α} {q : Parser β} {u : State} (hq : WithinBuffer q c u)
    (hu : s.seen ≤ u.seen) (hseen : (Run.state (p c s)).seen = (Run.state (q c u)).seen)
    (hposition : (Run.state (p c s)).position = (Run.state (q c u)).position)
    (hsame : ∀ c', c.AgreesBelow c' (Run.state (q c u)).seen → q c' u = q c u → p c' s = p c s) :
    WithinBuffer p c s := by
  refine ⟨hseen ▸ hu.trans hq.seen, ?_, fun c' hc => ?_⟩
  · rw [hseen, hposition]
    exact hq.position
  · rw [hseen] at hc
    exact hsame c' hc (hq.same c' hc)

theorem spanned {p : Parser (Span → α)} (hp : WithinBuffer p c s) :
    WithinBuffer (Parser.spanned p) c s := by
  have hstate : Run.state (Parser.spanned p c s) = Run.state (p c s) := by
    rw [spanned_run]
    cases p c s <;> rfl
  refine hp.of_inner (Nat.le_refl _) (by rw [hstate]) (by rw [hstate]) fun c' hc heq => ?_
  have hposition := hp.position
  rw [spanned_run, spanned_run, heq]
  cases hrun : p c s with
  | ok make t =>
    rw [hrun] at hc hposition
    have hspan : spanSince c' s.position t = spanSince c s.position t := hc.spanSince hposition _
    dsimp only
    rw [hspan]
  | error e t => rfl

theorem attempt {p : Parser α} (hp : WithinBuffer p c s) : WithinBuffer (Parser.attempt p) c s := by
  have hstate : Run.state (Parser.attempt p c s) = Run.state (p c s) := by
    rw [Parser.attempt]
    rcases p c s with ⟨a, u⟩ | ⟨e | _, u⟩ <;> rfl
  refine hp.of_inner (Nat.le_refl _) (by rw [hstate]) (by rw [hstate]) fun c' _ heq => ?_
  rw [Parser.attempt, Parser.attempt, heq]

end WithinBuffer

/-! ### Parsers -/

/-- The parser keeps to the tokens that have been taken. -/
def Buffered (p : Parser α) : Prop :=
  ∀ ⦃c : Context⦄ ⦃s : State⦄, s.position ≤ s.seen → WithinBuffer p c s

/-- The same, for contexts with certain flags only. -/
def BufferedUnder (fl : Flags) (p : Parser α) : Prop :=
  ∀ ⦃c : Context⦄ ⦃s : State⦄, c.options.flags = fl → s.position ≤ s.seen → WithinBuffer p c s

theorem BufferedUnder.bind {fl : Flags} {p : Parser α} {f : α → Parser β}
    (hp : BufferedUnder fl p) (hf : ∀ a, BufferedUnder fl (f a)) : BufferedUnder fl (p >>= f) := by
  intro c s hfl hs
  refine (hp hfl hs).bind fun a u hrun => hf a hfl ?_
  have hposition := (hp hfl hs).position
  rwa [hrun] at hposition

namespace Buffered

theorem pure (a : α) : Buffered (Pure.pure a : Parser α) :=
  fun _ _ hs => .of_still hs rfl rfl fun _ _ => rfl

theorem fail (e : SyntaxError) : Buffered (Parser.fail e : Parser α) :=
  fun _ _ hs => .of_still hs rfl rfl fun _ _ => rfl

theorem exhausted : Buffered (Parser.exhausted : Parser α) :=
  fun _ _ hs => .of_still hs rfl rfl fun _ _ => rfl

theorem bind {p : Parser α} {f : α → Parser β} (hp : Buffered p) (hf : ∀ a, Buffered (f a)) :
    Buffered (p >>= f) := by
  intro c s hs
  refine (hp hs).bind fun a u hrun => hf a ?_
  have hposition := (hp (c := c) hs).position
  rwa [hrun] at hposition

theorem look (n : Nat) : Buffered (Parser.look n) := by
  intro c s hs
  have hseen : s.seen ≤ (s.looked n).seen := Nat.le_max_left ..
  have htoken : s.position + n < (s.looked n).seen := Nat.le_max_right ..
  refine ⟨hseen, hs.trans hseen, fun c' hc => ?_⟩
  rw [look_run, look_run, hc.token _ htoken]

theorem next : Buffered Parser.next := by
  intro c s hs
  have htoken : s.position < s.advanced.seen := Nat.le_max_right ..
  refine ⟨Nat.le_max_left .., htoken, fun c' hc => ?_⟩
  rw [next_run, next_run, hc.token _ htoken]

theorem acceptIf? (cond : Token → Bool) : Buffered (Parser.acceptIf? cond) := by
  intro c s hs
  have hlooked : s.position < (s.looked 0).seen := Nat.le_max_right ..
  have hadvanced : s.position < s.advanced.seen := Nat.le_max_right ..
  by_cases hcond : cond (c.token s.position) = true
  · have hrun : Parser.acceptIf? cond c s = .ok (some (c.token s.position)) s.advanced := by
      rw [acceptIf?_run, if_pos hcond]
    refine ⟨hrun ▸ Nat.le_max_left .., hrun ▸ hadvanced, fun c' hc => ?_⟩
    rw [hrun] at hc ⊢
    rw [acceptIf?_run, hc.token _ hadvanced, if_pos hcond]
  · have hrun : Parser.acceptIf? cond c s = .ok none (s.looked 0) := by
      rw [acceptIf?_run, if_neg hcond]
    refine ⟨hrun ▸ Nat.le_max_left .., hrun ▸ Nat.le_of_lt hlooked, fun c' hc => ?_⟩
    rw [hrun] at hc ⊢
    rw [acceptIf?_run, hc.token _ hlooked, if_neg hcond]

theorem position : Buffered Parser.position :=
  fun _ _ hs => .of_still hs rfl rfl fun _ _ => rfl

theorem since (start : Nat) : Buffered (Parser.since start) := by
  intro c s hs
  have hstate : Run.state (Parser.since start c s) = s := by
    rw [since_run]
    rfl
  refine .of_still hs (by rw [hstate]) (by rw [hstate]) fun c' hc => ?_
  rw [since_run, since_run, hc.spanSince hs]

theorem nameRules : Buffered Parser.nameRules := by
  refine fun c s hs => .of_still hs rfl rfl fun c' hc => ?_
  rw [nameRules_run, nameRules_run, hc.names]

theorem withNames {f : NameRules → NameRules} {p : Parser α} (hp : Buffered p) :
    Buffered (Parser.withNames f p) := by
  intro c s hs
  have hinner := hp (c := { c with names := f c.names }) hs
  exact ⟨hinner.seen, hinner.position, fun _ hc => hinner.same _ (hc.withNames f)⟩

theorem report (entry : TraceEntry) : Buffered (Parser.report entry) :=
  fun _ _ hs => .of_still hs rfl rfl fun _ _ => rfl

theorem require (kind : TokenKind) : Buffered (Parser.require kind) := by
  refine next.bind fun t => ?_
  split
  · exact pure _
  · exact fail _

/-- The position goes back to a token that had been taken before. -/
theorem rewound {p : Parser α} (hp : Buffered p) : Buffered (Grammar.rewound p) := by
  intro c s hs
  obtain ⟨hseen, hposition, hsame⟩ := hp (c := c) hs
  have hrewound (c' : Context) : Grammar.rewound p c' s =
      match p c' s with
      | .ok a u => .ok a { u with position := s.position }
      | .error e u => .error e u := by
    rw [Grammar.rewound, position_bind, bind_apply]
    cases p c' s <;> rfl
  have hstate : (Run.state (Grammar.rewound p c s)).seen = (Run.state (p c s)).seen
      ∧ ((Run.state (Grammar.rewound p c s)).position = s.position
        ∨ (Run.state (Grammar.rewound p c s)).position = (Run.state (p c s)).position) := by
    rw [hrewound]
    cases p c s with
    | ok a u => exact ⟨rfl, .inl rfl⟩
    | error e u => exact ⟨rfl, .inr rfl⟩
  -- An error leaves the position where it was found, a success takes it back.
  refine ⟨by rwa [hstate.1], ?_, fun c' hc => ?_⟩
  · rw [hstate.1]
    rcases hstate.2 with heq | heq
    · rw [heq]
      exact hs.trans hseen
    · rwa [heq]
  · rw [hrewound, hrewound, hsame c' (hstate.1 ▸ hc)]

theorem tried {p : Parser α} (hp : Buffered p) : Buffered (Grammar.tried p) := by
  refine bind (fun _ _ hs => (hp hs).attempt) fun found => ?_
  cases found with
  | ok a => exact pure _
  | error e =>
    dsimp only
    split
    · exact fail _
    · exact pure _

theorem arrowSign : Buffered Grammar.arrowSign := by
  refine (require _).bind fun arrow => ?_
  split
  · exact fail _
  · exact pure _

theorem inInitializer {p : Parser α} (hp : Buffered p) : Buffered (Parser.inInitializer p) := by
  intro c s hs
  have hinner := hp (c := c) (s := { s with inInitializer := true }) hs
  have hstate : (Run.state (Parser.inInitializer p c s)).seen
        = (Run.state (p c { s with inInitializer := true })).seen
      ∧ (Run.state (Parser.inInitializer p c s)).position
        = (Run.state (p c { s with inInitializer := true })).position := by
    rw [inInitializer_run]
    rcases p c { s with inInitializer := true } with ⟨a, u⟩ | ⟨e | _, u⟩ <;> exact ⟨rfl, rfl⟩
  refine hinner.of_inner (Nat.le_refl _) hstate.1 hstate.2 fun c' _ heq => ?_
  rw [inInitializer_run, inInitializer_run, heq]

theorem checkArguments (t : Token) (name : String) : Buffered (Parser.checkArguments t name) := by
  intro c s hs
  have hrun (c' : Context) : Parser.checkArguments t name c' s =
      if c'.checks.initializers && s.inInitializer && name == "arguments" then
        .error (.error (t.error .argumentsInFieldInitializer)) s
      else .ok () s := by
    simp only [Parser.checkArguments, read_bind, get_bind, ite_run]
    rfl
  refine .of_still hs ?_ ?_ fun c' hc => by rw [hrun, hrun, hc.checks]
  · rw [hrun]
    split <;> rfl
  · rw [hrun]
    split <;> rfl

theorem checkSuper (t : Token) : Buffered (Parser.checkSuper t) := by
  intro c s hs
  have hrun (c' : Context) : Parser.checkSuper t c' s =
      if c'.checks.initializers && s.inInitializer then
        .error (.error (t.error .superInFieldInitializer)) s
      else .ok () s := by
    simp only [Parser.checkSuper, read_bind, get_bind, ite_run]
    rfl
  refine .of_still hs ?_ ?_ fun c' hc => by rw [hrun, hrun, hc.checks]
  · rw [hrun]
    split <;> rfl
  · rw [hrun]
    split <;> rfl

theorem privateName : Buffered Grammar.privateName := by
  refine (require _).bind fun t => ?_
  split
  · exact (look 0).bind fun _ => fail _
  · split
    · exact pure _
    · exact fail _

theorem usePrivate (name : Ident) : Buffered (Parser.usePrivate name) := by
  intro c s hs
  refine .of_still hs ?_ ?_ fun c' hc => by rw [usePrivate_run, usePrivate_run, hc.checks]
  · rw [usePrivate_run]
    cases s.scopes.use name.name name.span with
    | ok scopes => rfl
    | error e =>
      dsimp only
      split <;> rfl
  · rw [usePrivate_run]
    cases s.scopes.use name.name name.span with
    | ok scopes => rfl
    | error e =>
      dsimp only
      split <;> rfl

theorem usedName : Buffered Grammar.usedName :=
  privateName.bind fun name => (usePrivate name).bind fun _ => pure _

theorem declarePrivate (name : Ident) : Buffered (Parser.declarePrivate name) := by
  intro c s hs
  refine .of_still hs ?_ ?_ fun c' _ => by rw [declarePrivate_run, declarePrivate_run]
  · rw [declarePrivate_run]
    cases s.scopes.declare name.name name.span <;> rfl
  · rw [declarePrivate_run]
    cases s.scopes.declare name.name name.span <;> rfl

theorem declaredName : Buffered Grammar.declaredName := by
  refine privateName.bind fun name => ?_
  split
  · exact fail _
  · exact (declarePrivate name).bind fun _ => pure _

theorem endClass (found : Except SyntaxError α) : Buffered (Parser.endClass found) := by
  intro c s hs
  have hcount (c' : Context) (hc : c.AgreesBelow c' s.seen) : exitCount c' s = exitCount c s := by
    rw [exitCount, exitCount, hc.checks]
  refine .of_still hs ?_ ?_ fun c' hc => by rw [endClass_run, endClass_run, hcount c' hc]
  · rw [endClass_run]
    rcases found with e | a
    · rfl
    · cases exitCount c s <;> rfl
  · rw [endClass_run]
    rcases found with e | a
    · rfl
    · cases exitCount c s <;> rfl

/-- A class ends behind the tokens that its inside has taken. -/
theorem inClass {p : Parser α} (hp : ∀ fl, BufferedUnder fl p) : Buffered (Parser.inClass p) := by
  intro c s hs
  have hrun (c' : Context) : Parser.inClass p c' s =
      if c'.options.classFields then (Parser.attempt p >>= Parser.endClass) c' s.entered
      else p c' s := by
    rw [Parser.inClass, options_bind, ite_run]
    rfl
  by_cases hfields : c.options.classFields = true
  · have hinner : WithinBuffer (Parser.attempt p >>= Parser.endClass) c s.entered := by
      have hattempt := (hp _ (c := c) (s := s.entered) rfl hs).attempt
      refine hattempt.bind fun found u hfound => endClass found ?_
      have hposition := hattempt.position
      rwa [hfound] at hposition
    have heq : Parser.inClass p c s = (Parser.attempt p >>= Parser.endClass) c s.entered := by
      rw [hrun, if_pos hfields]
    refine hinner.of_inner (Nat.le_refl _) (by rw [heq]) (by rw [heq]) fun c' hc hsame => ?_
    rw [heq, hrun, hc.options, if_pos hfields, hsame]
  · have heq : Parser.inClass p c s = p c s := by rw [hrun, if_neg hfields]
    refine (hp _ rfl hs).of_inner (Nat.le_refl _) (by rw [heq]) (by rw [heq]) fun c' hc hsame => ?_
    rw [heq, hrun, hc.options, if_neg hfields, hsame]

theorem under {p : Parser α} (h : Buffered p) (fl : Flags) : BufferedUnder fl p :=
  fun _ _ _ hs => h hs

end Buffered

/-! ### The rules -/

namespace Rules

/-- Both rules keep to the tokens that have been taken. -/
structure Buffering (g : Rules) : Prop where
  stmt : Buffered g.stmt
  expr (mode : ExprMode) : Buffered (g.expr mode)

/-- Rules that are built from rules that keep to the tokens taken do so too. -/
theorem Buffering.steps {g : Rules} (hg : g.Reading) (h : g.Buffering) :
    ClosedOnSteps (fun _ p _ => Buffered p) (fun fl _ p _ => BufferedUnder fl p) g g
      fun _ => True where
  reading := hg
  modes := .all
  expr mode _ := h.expr mode
  stmt := h.stmt
  pure := .pure
  fail _ := .fail _
  bind := .bind
  position := .position
  rewound := .rewound
  spanned _ hp := fun _ _ hs => .spanned (hp hs)
  look := .look
  next := .next
  acceptIf? := .acceptIf?
  named n := (Buffered.look n).bind fun _ => Buffered.nameRules.bind fun _ => .pure _
  flags := fun c s hs => .of_still hs rfl rfl fun c' hc => by
    show EStateM.Result.ok c'.options.flags s = .ok c.options.flags s
    rw [hc.options]
  report _ := .report _
  withNames _ hp := .withNames hp
  attempt hp := fun _ _ hs => .attempt (hp hs)
  tried := .tried
  arrowSign := .arrowSign
  inInitializer := .inInitializer
  checkArguments := .checkArguments
  checkSuper := .checkSuper
  usedName := .usedName
  inClass := .inClass
  weaken hp := hp.under _
  class_bind := .bind
  class_spanned _ hp := fun _ _ hfl hs => .spanned (hp hfl hs)
  class_flags {fl _ f _} hf := fun c s hfl hs =>
    have hinner : WithinBuffer (f c.options.flags) c s := hf _ hfl hfl hs
    hinner.of_inner (Nat.le_refl _) rfl rfl fun c' hc hsame => by
      show f c'.options.flags c' s = f c.options.flags c s
      rw [hc.options, hsame]
  declaredName _ _ := Buffered.declaredName.under _
  fuel := ParserRel.OnFuel.of_le (Q := fun _ p _ => Buffered p) (fun _ _ => Buffered.exhausted)
    (Nat.le_refl _)
  class_fuel {fl _} r _ hzero _ hsucc :=
    ParserRel.OnFuel.of_le (Q := fun _ p _ => BufferedUnder fl p)
      (fun _ _ => Buffered.exhausted.under fl) (Nat.le_refl _) (fun n (_ : Unit) => r n)
      (fun n _ => r n) (fun _ => hzero) (fun _ => hzero) (fun n m ih _ => hsucc n m (ih ())) ()

/-- **Statements and expressions keep to the tokens that have been taken.** -/
theorem within_buffering (n : Nat) : (within n).Buffering := by
  induction n with
  | zero => exact ⟨.exhausted, fun _ => .exhausted⟩
  | succ n ih =>
    have h := ih.steps (within_reading n)
    exact ⟨h.statement, fun _ => h.expression trivial⟩

theorem Buffering.closedOnRules {g : Rules} (hg : g.Reading) (h : g.Buffering) :
    ClosedOnRules (fun _ p _ => Buffered p) (fun _ p _ => Buffered p)
      (fun fl _ p _ => BufferedUnder fl p) g where
  elements := (h.steps hg).elements
  statements := (h.steps hg).statements
  asyncOperand? stops first second third := by
    rw [Grammar.asyncOperand?_named]
    exact Buffered.nameRules.bind fun _ => (h.steps hg).asyncOperandNamed? trivial
      fun _ _ _ => (h.steps hg).asyncArrow? trivial
  arrowOrGrouping _ := (h.steps hg).arrowOrGrouping trivial
  atom _ _ := (h.steps hg).atom fun _ => (h.steps hg).arrowOrGrouping trivial _
  operand _ := (h.steps hg).operand trivial
  continuation _ start _ left := (h.steps hg).elements.continuation trivial
    (fun _ => .since start) left
  climb _ := (h.steps hg).climb (m := g.budget) trivial (h.steps hg).fuel

end Rules

namespace Grammar

variable {p : Parser α}

/-- **No rule looks behind the tokens that have been taken from the text.** -/
theorem IsRule.buffered {n : Nat} (hp : IsRule (.within n) p) : Buffered p :=
  hp.related ((Rules.within_buffering n).closedOnRules (Rules.within_reading n))

/-- Nor does a whole script. -/
theorem script_buffered (n : Nat) : Buffered (script (.within n)) := by
  have hsteps := (Rules.within_buffering n).steps (Rules.within_reading n)
  refine Buffered.withNames ?_
  have hstatements : Buffered (statements (.within n) .eof (Rules.within n).budget) :=
    hsteps.closed.statements _
  refine hstatements.bind fun body => ?_
  rw [discard_bind]
  refine (Buffered.require _).bind fun _ => ?_
  refine (Buffered.report _).bind fun _ c s hs => .of_still hs rfl rfl fun c' hc => ?_
  rw [read_bind, read_bind, hc.sourceLength]
  rfl

end Grammar

end EcmaScript

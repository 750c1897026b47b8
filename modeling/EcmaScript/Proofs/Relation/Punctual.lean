import EcmaScript.Proofs.ClassScopes.Noting
import EcmaScript.Proofs.Relation.Steps

namespace EcmaScript

open EcmaScript.Parser

/-!
# Arrows on the line of their parameters

The one error behind which there is no way back is that of an arrow behind a line break. In a text
without such arrows it does not occur.

* `Context.Punctual` — no arrow stands behind a line break;
* `Punctual` — the error does not occur in such a text;
* `Rules.within_punctual` — it does not occur in statements and expressions.
-/

/-- No arrow stands behind a line break. -/
def Context.Punctual (c : Context) : Prop :=
  ∀ i, (c.token i).kind = Grammar.arrowKind → (c.token i).newlineBefore = false

/-- In a text without arrows behind line breaks, no such arrow is an error. -/
def Punctual {α : Type} (p : Parser α) : Prop :=
  ∀ ⦃c : Context⦄ ⦃s t : State⦄ ⦃e : SyntaxError⦄, c.Punctual → p c s = .error (.error e) t →
    e.cause ≠ .lineTerminatorAfterArrowParameters

/-- The same, for contexts with certain flags only. -/
def PunctualUnder (fl : Flags) {α : Type} (p : Parser α) : Prop :=
  ∀ ⦃c : Context⦄ ⦃s t : State⦄ ⦃e : SyntaxError⦄, c.options.flags = fl → c.Punctual →
    p c s = .error (.error e) t → e.cause ≠ .lineTerminatorAfterArrowParameters

theorem PunctualUnder.bind {fl : Flags} {α β : Type} {p : Parser α} {f : α → Parser β}
    (hp : PunctualUnder fl p) (hf : ∀ a, PunctualUnder fl (f a)) : PunctualUnder fl (p >>= f) := by
  intro c s t e hfl hc h
  obtain h | ⟨a, u, -, h⟩ := bind_error_iff.1 h
  · exact hp hfl hc h
  · exact hf a hfl hc h

namespace Punctual

variable {α β : Type}

theorem pure (a : α) : Punctual (Pure.pure a : Parser α) := fun _ _ _ _ _ h => by cases h

theorem fail {e : SyntaxError} (he : e.cause ≠ .lineTerminatorAfterArrowParameters) :
    Punctual (Parser.fail e : Parser α) := by
  intro c s t e' _ h
  injection h with h
  injection h with h
  exact h ▸ he

theorem bind {p : Parser α} {f : α → Parser β} (hp : Punctual p) (hf : ∀ a, Punctual (f a)) :
    Punctual (p >>= f) := by
  intro c s t e hc h
  obtain h | ⟨a, u, -, h⟩ := bind_error_iff.1 h
  · exact hp hc h
  · exact hf a hc h

theorem look (n : Nat) : Punctual (Parser.look n) := fun _ _ _ _ _ h => by cases h

theorem next : Punctual Parser.next := fun _ _ _ _ _ h => by cases h

theorem acceptIf? (cond : Token → Bool) : Punctual (Parser.acceptIf? cond) := by
  intro c s t e _ h
  rw [acceptIf?_run] at h
  split at h
  · cases h
  · cases h

theorem require (kind : TokenKind) : Punctual (Parser.require kind) := by
  refine next.bind fun t => ?_
  split
  · exact pure _
  · exact fail (t.misplaced_cause_ne nofun nofun nofun nofun)

theorem privateName : Punctual Grammar.privateName := by
  refine (require _).bind fun t => ?_
  split
  · exact (look 0).bind fun after => fail (after.misplaced_cause_ne nofun nofun nofun nofun)
  · split
    · exact pure _
    · exact fail nofun

/-- What is held back does not fail. -/
theorem attempt (p : Parser α) : Punctual (Parser.attempt p) := by
  intro c s t e _ h
  rw [Parser.attempt] at h
  split at h
  · cases h
  · cases h
  · injection h with h
    cases h

theorem tried {p : Parser α} (hp : Punctual p) : Punctual (Grammar.tried p) := by
  intro c s t e hc h
  rw [Grammar.tried, attempt_bind] at h
  split at h
  next => cases h
  next e' u hrun =>
    dsimp only at h
    rw [if_neg (hp hc hrun)] at h
    cases h
  next =>
    injection h with h
    cases h

theorem rewound {p : Parser α} (hp : Punctual p) : Punctual (Grammar.rewound p) := by
  have position : Punctual Parser.position := fun _ _ _ _ _ h => by cases h
  have restore (i : Nat) : Punctual (Parser.restore i) := fun _ _ _ _ _ h => by cases h
  exact position.bind fun start => hp.bind fun a => (restore start).bind fun _ => pure a

/-- This is where the text decides. -/
theorem arrowSign : Punctual Grammar.arrowSign := by
  intro c s t e hc h
  obtain h | ⟨arrow, u, harrow, h⟩ := bind_error_iff.1 h
  · exact require _ hc h
  · obtain ⟨hkind, rfl, rfl⟩ := require_ok_iff.1 harrow
    rw [if_neg (by rw [hc _ hkind]; decide)] at h
    cases h

theorem inInitializer {p : Parser α} (hp : Punctual p) : Punctual (Parser.inInitializer p) := by
  intro c s t e hc h
  rw [inInitializer_run] at h
  split at h
  next => cases h
  next e' u hrun =>
    injection h with h
    injection h with h
    exact h ▸ hp hc hrun
  next =>
    injection h with h
    cases h

theorem checkArguments (t : Token) (name : String) : Punctual (Parser.checkArguments t name) := by
  intro c s u e hc h
  simp only [Parser.checkArguments, read_bind, get_bind, ite_run] at h
  split at h
  · exact fail (α := Unit) (e := t.error .argumentsInFieldInitializer) (by rintro ⟨⟩) hc h
  · cases h

theorem checkSuper (t : Token) : Punctual (Parser.checkSuper t) := by
  intro c s u e hc h
  simp only [Parser.checkSuper, read_bind, get_bind, ite_run] at h
  split at h
  · exact fail (α := Unit) (e := t.error .superInFieldInitializer) (by rintro ⟨⟩) hc h
  · cases h

theorem usePrivate (name : Ident) : Punctual (Parser.usePrivate name) := by
  intro c s t e hc h
  rw [Parser.usePrivate, get_bind] at h
  cases huse : s.scopes.use name.name name.span with
  | ok scopes =>
    rw [huse] at h
    cases h
  | error e' =>
    obtain ⟨-, rfl⟩ := ClassScopes.use_error huse
    rw [huse] at h
    dsimp only at h
    rw [read_bind, ite_run] at h
    split at h
    · exact fail (α := Unit) (e := ClassScopes.nameError .undeclaredPrivateName _)
        (by rintro ⟨⟩) hc h
    · cases h

theorem usedName : Punctual Grammar.usedName :=
  privateName.bind fun name => (usePrivate name).bind fun _ => pure _

theorem declarePrivate (name : Ident) : Punctual (Parser.declarePrivate name) := by
  intro c s t e hc h
  rw [Parser.declarePrivate, get_bind] at h
  cases hdeclare : s.scopes.declare name.name name.span with
  | ok scopes =>
    rw [hdeclare] at h
    cases h
  | error e' =>
    obtain rfl := ClassScopes.declare_error hdeclare
    rw [hdeclare] at h
    exact fail (α := Unit) (e := ClassScopes.nameError .duplicatePrivateElement _)
      (by rintro ⟨⟩) hc h

theorem declaredName : Punctual Grammar.declaredName := by
  refine privateName.bind fun name => ?_
  split
  · exact fail nofun
  · exact (declarePrivate name).bind fun _ => pure _

/-- The end of a class may report an undeclared name, or what was wrong inside. -/
theorem endClass {found : Except SyntaxError α}
    (hfound : ∀ e, found = .error e → e.cause ≠ .lineTerminatorAfterArrowParameters) :
    Punctual (Parser.endClass found) := by
  intro c s t e _ h
  rw [endClass_run] at h
  cases found with
  | ok a =>
    cases hcount : exitCount c s with
    | ok count =>
      rw [hcount] at h
      cases h
    | error e' =>
      rw [hcount] at h
      injection h with h
      injection h with h
      subst h
      rw [exitCount] at hcount
      split at hcount
      · obtain ⟨_, _, -, -, rfl⟩ := ClassScopes.exit_error hcount
        rintro ⟨⟩
      · cases hcount
  | error e' =>
    injection h with h
    injection h with h
    exact h ▸ hfound _ rfl

theorem inClass {p : Parser α} (hp : ∀ fl, PunctualUnder fl p) : Punctual (Parser.inClass p) := by
  intro c s t e hc h
  rw [inClass_run] at h
  split at h
  · cases hrun : p c s.entered with
    | ok a u =>
      rw [hrun] at h
      exact endClass (fun _ h => by cases h) hc h
    | error e' u =>
      rw [hrun] at h
      cases e' with
      | error e' =>
        refine endClass (α := α) (fun e h => ?_) hc h
        obtain rfl := Except.error.inj h
        exact hp _ rfl hc hrun
      | exhausted =>
        injection h with h
        cases h
  · exact hp _ rfl hc h

end Punctual

/-! ### The rules -/

namespace Rules

/-- Both rules are without such errors. -/
structure Punctuality (g : Rules) : Prop where
  stmt : Punctual g.stmt
  expr (mode : ExprMode) : mode.TakesCalls → Punctual (g.expr mode)

/-- Rules that are built from such rules are so too. -/
theorem Punctuality.steps {g : Rules} (hg : g.Reading) (h : g.Punctuality) :
    ClosedOnSteps (fun _ p _ => Punctual p) (fun fl _ p _ => PunctualUnder fl p) g g where
  reading := hg
  modes := .ofTakesCalls
  expr := h.expr
  stmt := h.stmt
  pure := .pure
  fail := .fail
  bind := .bind
  position := fun _ _ _ _ _ h => by cases h
  rewound := .rewound
  spanned _ hp := fun _ _ _ _ hc h => hp hc (spanned_error_iff.1 h)
  look := .look
  next := .next
  acceptIf? := .acceptIf?
  named _ := fun _ _ _ _ _ h => by cases h
  flags := fun _ _ _ _ _ h => by cases h
  report _ := fun _ _ _ _ _ h => by cases h
  withNames {_ f _ _} _ hp := fun c _ _ _ hc h => hp (c := { c with names := f c.names }) hc h
  attempt _ := .attempt _
  tried := .tried
  arrowSign := .arrowSign
  inInitializer := .inInitializer
  checkArguments := .checkArguments
  checkSuper := .checkSuper
  usedName := .usedName
  inClass := .inClass
  weaken hp := fun _ _ _ _ _ hc h => hp hc h
  class_bind := .bind
  class_spanned _ hp := fun _ _ _ _ hfl hc h => hp hfl hc (spanned_error_iff.1 h)
  class_flags hf := fun _ _ _ _ hfl hc h => hf _ hfl hfl hc h
  declaredName _ _ := fun _ _ _ _ _ hc h => Punctual.declaredName hc h
  fuel := ParserRel.OnFuel.of_le (Q := fun _ p _ => Punctual p)
    (fun _ _ _ _ _ _ _ h => by cases h) (Nat.le_refl _)
  class_fuel {fl _} r _ hzero _ hsucc :=
    ParserRel.OnFuel.of_le (Q := fun _ p _ => PunctualUnder fl p)
      (fun _ _ _ _ _ _ _ _ h => by cases h) (Nat.le_refl _)
      (fun n (_ : Unit) => r n) (fun n _ => r n) (fun _ => hzero) (fun _ => hzero)
      (fun n m ih _ => hsucc n m (ih ())) ()

/-- **No arrow behind a line break is an error** where there is none. -/
theorem within_punctual (n : Nat) : (within n).Punctuality := by
  induction n with
  | zero =>
    exact ⟨fun _ _ _ _ _ h => (by cases h), fun _ _ _ _ _ _ _ h => (by cases h)⟩
  | succ n ih =>
    have hsteps := ih.steps (within_reading n)
    exact ⟨hsteps.statement, fun _ => hsteps.expression⟩

end Rules

end EcmaScript

import EcmaScript.Proofs.Grammar.Composed
import EcmaScript.Proofs.Relation.Settled

namespace EcmaScript

open EcmaScript.Parser

/-!
# Properties of what is read, whatever was tried before

What was tried in vain leaves uses of private names behind, and what is read instead has the same
uses. So a property that goes from parts to what they are put together to, and of which it is not
asked what it does where something was read in vain, still holds of whole scripts. This is not so
where `await` is an operator in the attempt and a name behind it.

* `Context.Calm` — there is no such `await`;
* `Settling` — goes from parts to what they are put together to, and depends on the state at the end
  only through its place, its classes, and the mark of initializers;
* `Grammar.operand_async` — what is read from `async` on, in front of a parenthesis;
* `Settling.asyncCall` — a function with the name of `async` is called after parameters were tried;
* `Settling.within`, `Settling.program` — such a property holds of statements and expressions, and of
  whole scripts.
-/

/-- Wherever the parameters of an async arrow function may begin, no `await` stands further on in the
text. -/
def Context.Calm (c : Context) : Prop :=
  ∀ i j, i < j → (c.token i).kind = .keyword .kAsync →
    (c.token (i + 1)).kind = .punctuator .parenthesisOpen →
    (c.token (i + 1)).newlineBefore = false → (c.token j).kind ≠ .keyword .kAwait

/-- Goes from parts to what they are put together to where nothing was read in vain, for tokens
among which no `await` is in the way. What was looked at or reported in the end does not matter. -/
structure Settling (Y Z : RunRel) : Prop extends Composing Y Z where
  agrees {c : Context} {s t t' : State} {ns : List Node} :
    Y c s t ns → t.Agrees t' → Y c s t' ns
  calm {c : Context} {s t : State} {ns : List Node} : (c.Calm → Y c s t ns) → Y c s t ns

namespace Grammar

variable {g : Rules} {c : Context} {s t u : State} {mode : ExprMode}

/-- On a line of its own `async` is a name. -/
theorem asyncOperand?_of_newline {stops : List TokenKind} {first second third : Token}
    (h : second.newlineBefore = true) : asyncOperand? g stops first second third = pure none :=
  if_pos (by simp [h])

/-- What is read from `async` on, once parameters have been tried behind it. -/
def asyncRest (g : Rules) (mode : ExprMode) (start : Nat) :
    Except SyntaxError (List Param) → Parser (Expr × Bool)
  | .ok _ => do
    restore start
    return (← arrowFunction g mode.stops, false)
  | .error _ => do
    restore start
    return (← variableUse, false)

/-- In front of a parenthesis, `async` begins an arrow function or is a name: the parameters are
tried. -/
theorem operand_async (hfirst : (c.token s.position).kind = .keyword .kAsync)
    (hopen : (c.token (s.position + 1)).kind = .punctuator .parenthesisOpen)
    (hline : (c.token (s.position + 1)).newlineBefore = false) :
    operand g mode c s = (attempt (arrowParameters g true) >>= asyncRest g mode s.position) c
      (((s.looked 0).looked 1).looked 2).advanced := by
  have hallowed : c.names.allows (.keyword .kAsync) = true := rfl
  rw [operand_run, operandFrom, hfirst, leadingOperator?_of_allows hallowed]
  dsimp only
  rw [asyncOperand?, hfirst, hopen, hline, if_neg (by decide), if_pos rfl, bind_assoc, position_bind,
    bind_assoc, discard_bind, next_bind, bind_assoc, attempt_bind, attempt_bind]
  cases arrowParameters g true c (((s.looked 0).looked 1).looked 2).advanced with
  | ok ps u =>
    dsimp only
    rw [bind_assoc, restore_bind]
    simp only [bind_assoc, pure_bind]
    rfl
  | error reason u =>
    cases reason with
    | exhausted => rfl
    | error e =>
      dsimp only
      rw [bind_assoc, restore_bind, pure_bind]
      dsimp only
      rw [if_pos hallowed, if_neg (by decide)]
      rfl

/-- A variable is read alike, whatever names wait around it. -/
theorem variableUse_anywhere {e : Expr} (h : variableUse c u = .ok e t)
    (hposition : u.position = s.position) (hmark : u.inInitializer = s.inInitializer) :
    t = u.advanced ∧ variableUse c s = .ok e s.advanced := by
  simp only [variableUse, spanned_ok_iff, bind_ok_iff, pure_ok_iff] at h ⊢
  obtain ⟨_, ⟨name, _, hname, rfl, rfl⟩, rfl⟩ := h
  obtain ⟨hallowed, hdecode, hpermitted, rfl⟩ := variableName_ok_iff.1 hname
  rw [hposition] at hallowed hdecode
  have hpermitted' : ¬ (c.Guards s ∧ name = "arguments") := fun hrefused =>
    hpermitted ⟨⟨hrefused.1.checks, hmark.trans hrefused.1.inInitializer⟩, hrefused.2⟩
  refine ⟨rfl, _, ⟨name, _, variableName_ok_iff.2 ⟨hallowed, hdecode, hpermitted', rfl⟩, rfl, rfl⟩,
    ?_⟩
  have hspan : spanSince c u.position u.advanced = spanSince c s.position s.advanced := by
    rw [spanSince_of_lt (Nat.lt_succ_self u.position), spanSince_of_lt (Nat.lt_succ_self s.position),
      State.advanced_position, State.advanced_position, hposition]
  dsimp only
  rw [hspan]

/-- Where the parameters cannot be read, the operand is the name alone. It is read where the uses of
the attempt have been noted. -/
theorem operand_asyncName {e : SyntaxError} {a : Expr × Bool}
    (hfirst : (c.token s.position).kind = .keyword .kAsync)
    (hopen : (c.token (s.position + 1)).kind = .punctuator .parenthesisOpen)
    (hline : (c.token (s.position + 1)).newlineBefore = false)
    (hparams : arrowParameters g true c (((s.looked 0).looked 1).looked 2).advanced
      = .error (.error e) u)
    (hmark : u.inInitializer = s.inInitializer) (h : operand g mode c s = .ok a t) :
    ∃ name, a = (name, false) ∧ t = ({ u with position := s.position } : State).advanced
      ∧ variableUse c (((s.looked 0).looked 1).looked 2)
        = .ok name (((s.looked 0).looked 1).looked 2).advanced := by
  rw [operand_async hfirst hopen hline, attempt_bind, hparams] at h
  dsimp only [asyncRest] at h
  rw [restore_bind] at h
  obtain ⟨name, _, hname, hpair⟩ := bind_ok_iff.1 h
  obtain ⟨rfl, rfl⟩ := pure_ok_iff.1 hpair
  obtain ⟨rfl, hvariable⟩ :=
    variableUse_anywhere (s := ((s.looked 0).looked 1).looked 2) hname rfl hmark
  exact ⟨name, rfl, rfl, hvariable⟩

end Grammar

namespace Settling

open EcmaScript.Grammar

variable {Y Z : RunRel} {n : Nat} {c : Context} {s t u : State} {mode : ExprMode}

/-- What begins with a parenthesis: the attempt at parameters left nothing behind that is not there
without it. -/
theorem arrowOrGrouping (hY : Settling Y Z) (hg : (Rules.within n).Composed Y)
    {stops : List TokenKind} (hstops : .punctuator .parenthesisOpen ∉ stops) {insertion : Bool}
    {a : Expr × Bool} (hopen : (c.token s.position).kind = .punctuator .parenthesisOpen)
    (h : arrowOrGrouping (.within n) stops insertion c s = .ok a t) : Y c s t [.expr a.1] := by
  obtain ⟨v, hagrees, ⟨e, rfl, harrow⟩ | hgroup⟩ := arrowOrGrouping_settled hopen h
  · exact hY.agrees (hY.arrowFunction hg hstops harrow) hagrees
  · exact hY.agrees (hY.grouping hg hgroup) hagrees

/-- A function with the name of `async` is called: the attempt at parameters left nothing behind that
its arguments do not leave behind. -/
theorem asyncCall (hY : Settling Y Z) (hg : (Rules.within n).Composed Y) (hmode : mode.TakesCalls)
    {e : SyntaxError} {a : Expr × Bool} (hcalm : c.Calm)
    (hfirst : (c.token s.position).kind = .keyword .kAsync)
    (hopen : (c.token (s.position + 1)).kind = .punctuator .parenthesisOpen)
    (hline : (c.token (s.position + 1)).newlineBefore = false)
    (hparams : arrowParameters (.within n) true c (((s.looked 0).looked 1).looked 2).advanced
      = .error (.error e) u)
    (h : expression (.within n) mode c s = .ok a t) : Y c s t [.expr a.1] := by
  let x := ((s.looked 0).looked 1).looked 2
  have hx : s.SamePlace x := (((State.SamePlace.refl s).looked 0).looked 1).looked 2
  have hkept : x.advanced.Kept c u :=
    ((Rules.within_keeping n).steps (Rules.within_reading n)).arrowParameters true
      (.inr ⟨e, hparams⟩)
  have hawait : ∀ i, x.advanced.position ≤ i → (c.token i).kind ≠ .keyword .kAwait :=
    fun i hi => hcalm s.position i hi hfirst hopen hline
  obtain ⟨_, w, hoperand, hclimb⟩ := bind_ok_iff.1 h
  have hstands (ho : InOrder c.token) :=
    operand_stands (Rules.within_reading n) (Rules.within_covering n) ho hoperand
  obtain ⟨callee, rfl, rfl, hvariable⟩ :=
    operand_asyncName hfirst hopen hline hparams hkept.inInitializer hoperand
  dsimp only at hclimb hstands
  generalize (Rules.within n).budget = steps at hclimb
  cases steps with
  | zero => cases hclimb
  | succ steps =>
    have hop : Operator.following? (c.token (s.position + 1)).kind = some .call := by
      rw [hopen]
      rfl
    rw [climb_call hmode _ _ steps hopen] at hclimb
    obtain ⟨longer, v, hcall, hrest⟩ := bind_ok_iff.1 hclimb
    have hjoined (ho : InOrder c.token) :=
      continuation_joined (Rules.within_reading n) (Rules.within_covering n) ho (hstands ho) hop
        hcall
    obtain ⟨-, as, hargs, rfl⟩ | ⟨hne, -⟩ | ⟨hne, -⟩ | ⟨hne, -⟩ | ⟨hne, -⟩ := continuation_ok hcall
    · obtain ⟨v', hargs', hagrees⟩ := asyncCall_settled (s := x.advanced)
        (d := ({ u with position := s.position } : State).advanced.advanced) hopen hawait hparams
        ⟨rfl, rfl, rfl⟩ hargs
      have hname := hY.behindLooks hx (hY.variableUse hvariable)
      have hword := hY.beforeWord (u := x.advanced) hopen (by decide) hname
      have hcalled := hY.plainExpr (c := c) rfl (fun ho => (hjoined ho).enclosed)
        (hY.append hword (hY.callArguments hg hargs'))
      exact hY.climb hg hmode (hY.agrees hcalled hagrees) (fun ho => (hjoined ho).standsIn) hrest
    · cases hne
    · cases hne
    · cases hne
    · exact absurd rfl hne

/-- An expression, whatever was tried where it begins. -/
theorem expression (hY : Settling Y Z) (hg : (Rules.within n).Composed Y) (hmode : mode.TakesCalls)
    {a : Expr × Bool} (h : expression (.within n) mode c s = .ok a t) : Y c s t [.expr a.1] := by
  refine hY.calm fun hcalm => ?_
  have hlooked := (((State.SamePlace.refl s).looked 0).looked 1).looked 2
  by_cases hcall : (c.token s.position).kind = .keyword .kAsync
      ∧ (c.token (s.position + 1)).kind = .punctuator .parenthesisOpen
      ∧ (c.token (s.position + 1)).newlineBefore = false
      ∧ ∃ e u, arrowParameters (.within n) true c (((s.looked 0).looked 1).looked 2).advanced
          = .error (.error e) u
  · obtain ⟨hfirst, hopen, hline, e, u, hparams⟩ := hcall
    exact hY.asyncCall hg hmode hcalm hfirst hopen hline hparams h
  have hparameters := ((Rules.within_follows (Nat.le_refl n)).steps
    (Rules.within_reading n)).arrowParameters true
  refine hY.toComposing.expression hg hmode (hY.operand hg hmode ?_ ?_) h
  · intro u v found hu hfound
    by_cases hline : (c.token (s.position + 1)).newlineBefore = true
    · rw [asyncOperand?_of_newline hline, pure_ok_iff] at hfound
      obtain ⟨rfl, rfl⟩ := hfound
      exact hY.place (.refl _)
    refine hY.asyncOperand? hg hmode.1 ?_ ?_ hfound
    · intro ps w e hfirst hopen hparams harrow
      rw [← hu.position] at hfirst hopen
      obtain ⟨t', harrow', hagrees⟩ := asyncArrow_settled hfirst hopen hparams harrow
      exact hY.agrees (hY.arrowFunction hg hmode.1 harrow') hagrees
    · -- Parameters cannot have been tried in vain from here, as they would have been above.
      intro e w hfirst hopen hparams
      have hsame := hparameters.agrees (c := c) (hu.agrees.symm.trans hlooked.agrees).advanced
      rw [hparams] at hsame
      generalize hagain : arrowParameters (.within n) true c _ = again at hsame
      cases hsame with
      | error _ _ =>
        exact absurd ⟨hfirst, hopen, Bool.eq_false_iff.2 hline, _, _, hagain⟩ hcall
  · intro u hopen hgroup
    exact hY.arrowOrGrouping hg hmode.1 hopen hgroup

/-- **Every budget.** Such a property holds of statements and expressions. -/
theorem within (hY : Settling Y Z) (n : Nat) : (Rules.within n).Composed Y :=
  hY.toComposing.within (fun hg _ _ _ _ _ hmode h => hY.expression hg hmode h) n

/-- **Whole scripts.** Such a property holds of a script that could be read, wherever it was
begun. -/
theorem program (hY : Settling Y Z) {p : Program} (h : Grammar.script (.within n) c s = .ok p t) :
    Y c s t [.program p] :=
  hY.toComposing.program (hY.within n) h

end Settling

end EcmaScript

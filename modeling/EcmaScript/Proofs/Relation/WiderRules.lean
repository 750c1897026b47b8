import EcmaScript.Proofs.Relation.WiderMembers

namespace EcmaScript

open EcmaScript.Parser

/-!
# Expressions and statements under options that allow more

Only in front of a parenthesis can the second run find what the first one did not: the parameters of
an arrow function. Both runs agree on the parenthesis that closes them, so an arrow stands behind
it, and there the first run does not go on.

* `Rules.Widening.arrowOrGrouping` — where the first run found no parameters, and no arrow follows,
  the second one finds none either;
* `AsyncArrow` — the one place where the second run reads an arrow function, and the first one reads
  the word `async`;
* `Rules.Widening.expression`, `Rules.Widening.statement` — expressions and statements carry over;
* `Rules.within_widening` — so do the rules of the grammar, to budgets that are not smaller.
-/

namespace Rules.Widening

open EcmaScript.Grammar

variable {g g' : Rules} {c c' : Context} {s s' t u v : State} {α β : Type}

/-! ### Attempts at parameters -/

/-- An attempt leaves the second run where a matching state was. -/
theorem afterAttempt (h : g.Widening g') (hc : c.Widens c') (hs : s.Matches s') {async : Bool}
    {e : SyntaxError} {u' : State}
    (hrun : Grammar.arrowParameters g' async c' s' = .error (.error e) u') (i : Nat) :
    State.Matches { s with position := i } { u' with position := i } := by
  have hkeeps := (h.keeping'.steps h.reading').arrowParameters async
  obtain ⟨hinitializer, hidle⟩ := hs.ofKept hc (hkeeps (.inr ⟨e, hrun⟩))
  exact ⟨rfl, hinitializer, hidle⟩

/-- The same for a first run. -/
theorem afterAttempt_left (h : g.Widening g') {async : Bool}
    (hrun : Ends (Grammar.arrowParameters g async c s) u) : u.inInitializer = s.inInitializer :=
  ((h.keeping.steps h.reading).arrowParameters async hrun).inInitializer

/-- Where an attempt of the second run at parameters in parentheses succeeds, an arrow stands behind
the parenthesis that closes them. -/
theorem arrowAt_of_attempt (h : g.Widening g') (hc : c.Widens c') (hs : s.Matches s') {async : Bool}
    {ps : List Param} {u' : State} (hrun : Grammar.arrowParameters g' async c' s' = .ok ps u')
    (hopen : (c.token s.position).kind = .punctuator .parenthesisOpen) {j : Nat}
    (hj : Balanced c.token (s.position + 1) j)
    (hclose : (c.token j).kind = .punctuator .parenthesisClose) : c.ArrowAt (j + 1) := by
  have htoken : c'.token = c.token := funext hc.token
  obtain ⟨v, harrow, -, rfl, ⟨_, hname, -⟩ | hparams⟩ := arrowParameters_ok hrun
  · simp only [Grammar.identifier, spanned_ok_iff, bind_ok_iff] at hname
    obtain ⟨_, ⟨_, _, hname, -⟩, -⟩ := hname
    have hallowed := (variableName_ok hname).1
    have hkind : (c'.token s'.position).kind = .punctuator .parenthesisOpen := by
      rw [hs.position, htoken, hopen]
    rw [show Context.token { c' with names := c'.names.forAsync async } = c'.token from rfl,
      State.looked_position, State.looked_position, hkind] at hallowed
    cases hallowed
  · simp only [Grammar.parameters, Rules.list, discard_bind, require_bind_ok_iff] at hparams
    obtain ⟨k, hk, hkclose, hv⟩ := separated_balanced rfl
      (fun hitem => (parameter_reads h.reading' hitem).balanced) hparams.2
    have hk : Balanced c.token (s.position + 1) k := by
      rw [← hs.position, ← htoken]
      exact hk
    have heq := hj.close_unique hclose rfl hk (htoken ▸ hkclose) rfl
    rw [heq, ← hv, Context.ArrowAt, ← htoken]
    exact harrow

theorem arrowFunction (h : g.Widening g') {stops : List TokenKind}
    (hstops : .punctuator .parenthesisOpen ∉ stops) :
    CarriesOver (Grammar.arrowFunction g stops) (Grammar.arrowFunction g' stops) :=
  h.closed.arrowFunction (ExprMode.assignment_takesCalls hstops)

theorem arrowOrGrouping (h : g.Widening g') {stops : List TokenKind}
    (hstops : .punctuator .parenthesisOpen ∉ stops) (insertion : Bool) :
    CarriesOver (Grammar.arrowOrGrouping g stops insertion)
      (Grammar.arrowOrGrouping g' stops insertion) := by
  intro c c' s s' hc hs a t hrun
  have hclosed := h.closed
  obtain ⟨ps, u, e, hparams, he, rfl⟩ | ⟨e, u, hparams, -, hgroup⟩ := arrowOrGrouping_ok hrun
  · refine ⟨(h.arrowFunction hstops hc (.withoutClasses _) he).1, fun hend => ?_⟩
    rw [Grammar.arrowOrGrouping, position_bind, attempt_bind]
    have hgives := h.arrowParameters_surely false hc hs hparams
    cases hrun' : Grammar.arrowParameters g' false c' s' with
    | ok ps' u' =>
      rw [hrun'] at hgives
      cases hgives with
      | ok hu =>
        have hmatches := hu.restore hs.position
        exact ((h.arrowFunction hstops hc hmatches he).2 hend).bind fun t' ht => .ok ht
    | error e' u' =>
      rw [hrun'] at hgives
      cases hgives
      exact .exhausted _
  · have hleft : u.inInitializer = s.inInitializer := h.afterAttempt_left (.inr ⟨e, hparams⟩)
    refine ⟨(hclosed.grouping insertion hc (.withoutClasses _) hgroup).1, fun hend => ?_⟩
    rw [Grammar.arrowOrGrouping, position_bind, attempt_bind]
    cases hrun' : Grammar.arrowParameters g' false c' s' with
    | ok ps' u' =>
      -- Both runs agree on the closing parenthesis, so the first one would end before the arrow.
      simp only [Grammar.grouping, discard_bind, bind_ok_iff, require_ok_iff, pure_ok_iff] at hgroup
      obtain ⟨_, _, ⟨hopen, -, rfl⟩, _, w, hvalue, _, _, ⟨hclose, -, rfl⟩, -, rfl⟩ := hgroup
      have hvalue := (h.reading.expr hvalue).balanced
      exact absurd (h.arrowAt_of_attempt hc hs hrun' hopen hvalue hclose) hend
    | error e' u' =>
      cases e' with
      | exhausted => exact .exhausted _
      | error e' =>
        have hpunctual := h.punctuality'.steps h.reading'
        have hcause := hpunctual.arrowParameters false hc.punctual_right hrun'
        dsimp only
        rw [ite_run, if_neg hcause, restore_bind]
        have hmatches := (h.afterAttempt hc hs hrun' s'.position).elsewhere
          (t := { u with position := s.position }) hs.position.symm hleft
        exact (hclosed.grouping insertion hc hmatches hgroup).2 hend

/-! ### Operands -/

theorem atom (h : g.Widening g') {mode : ExprMode} (hmode : mode.TakesCalls) (first : Token) :
    CarriesOver (Grammar.atom g mode first) (Grammar.atom g' mode first) := by
  have hmembers := h.members
  have htokens := CarriesOver.tokens
  have one {p p' : Parser Expr} (hp : CarriesOver p p') :
      CarriesOver (do return (← p, false) : Parser (Expr × Bool)) (do return (← p', false)) :=
    hp.bind fun _ => .pure _
  unfold Grammar.atom
  split
  · exact one hmembers.arrayLiteral
  · exact one hmembers.objectLiteral
  · exact one hmembers.classExpression
  · exact one hmembers.functionExpression
  · exact (htokens.checkSuper first).bind fun _ => one htokens.superReference
  · exact one htokens.thisReference
  · exact one htokens.boolLiteral
  · exact one htokens.boolLiteral
  · exact one htokens.nullLiteral
  · exact one htokens.numberLiteral
  · exact one htokens.stringLiteral
  · exact h.arrowOrGrouping hmode.1 _
  · exact .fail _ _

/-- What stands behind an operator before its operand. -/
theorem unaryRest (h : g.Widening g') {mode : ExprMode} (hmode : mode.TakesCalls) {start : Nat}
    (token : Token) {op : Operator} (hop : op.operandPrecedence ≤ Operator.call.precedence)
    (hc : c.Widens c') (hs : s.Matches s') (hstart : start < s.position) :
    Carries c s (Grammar.unaryRest g mode start token op c s)
      (Grammar.unaryRest g' mode start token op c' s') := by
  refine (h.lists.look 0 hc hs).bind fun following u u' hfollowing hu => ?_
  have hargument := h.closed.unaryArgument hmode token hop following hc hu
  refine hargument.bind fun found v v' hfound hv => ?_
  obtain ⟨-, rfl⟩ := look_ok_iff.1 hfollowing
  have hlt : start < v.position := by
    rw [Grammar.unaryArgument, ite_run] at hfound
    split at hfound
    · obtain ⟨-, rfl⟩ := pure_ok_iff.1 hfound
      exact hstart
    · exact hstart.trans (h.reading.expr hfound).lt
  have hsince {v' : State} (hv : v.Matches v') : Carries c v
      ((do return (.unary (← since start) op found.1, found.2) : Parser (Expr × Bool)) c v)
      ((do return (.unary (← since start) op found.1, found.2) : Parser (Expr × Bool)) c' v') := by
    rw [since_bind, since_bind, spanSince_matches hc hv hlt]
    exact .ok _ hv
  rw [ite_run, ite_run]
  split
  · refine (CarriesOver.tokens.checkDelete token found.1 hc hv).bind fun _ w w' hcheck hw => ?_
    obtain ⟨rfl, -⟩ := checkDelete_ok hcheck
    exact hsince hw
  · exact hsince hv

theorem unary (h : g.Widening g') {mode : ExprMode} (hmode : mode.TakesCalls) {leading : Operator}
    (hleading : leading.operandPrecedence ≤ Operator.call.precedence) (hc : c.Widens c')
    (hs : s.Matches s') (hne : ¬ c.ArrowAt s.position) :
    Carries c s (Grammar.unary g mode leading c s) (Grammar.unary g' mode leading c' s') := by
  refine .intro hne fun a t hrun hend => ?_
  rw [unary_eq, position_bind, next_bind] at hrun ⊢
  rw [hs.position, hc.token]
  obtain ⟨op, u, hop, hrest⟩ := bind_ok_iff.1 hrun
  have hsign : Surely (unaryOperator leading) (unaryOperator leading) := by
    unfold unaryOperator
    split
    · exact (Surely.accept _).bind fun _ => .pure _
    · exact .pure _
  have hprecedence : op.operandPrecedence ≤ Operator.call.precedence := by
    rw [unaryOperator, ite_run] at hop
    split at hop
    · obtain ⟨star, _, -, hop⟩ := bind_ok_iff.1 hop
      obtain ⟨rfl, -⟩ := pure_ok_iff.1 hop
      cases star <;> decide
    · obtain ⟨rfl, -⟩ := pure_ok_iff.1 hop
      exact hleading
  have hstart : s.position < u.position :=
    Nat.lt_of_lt_of_le (Nat.lt_succ_self _) (unaryOperator_ok hop).1.le
  refine (hsign hc hs.advanced hop).bind fun u' hu => ?_
  exact (h.unaryRest hmode _ hprecedence hc hu hstart hrest).2 hend

/-- Parentheses with an arrow behind them begin at this place. -/
def AsyncArrow (c : Context) (i : Nat) : Prop :=
  (c.token i).kind = .punctuator .parenthesisOpen
    ∧ ∀ j, Balanced c.token (i + 1) j → (c.token j).kind = .punctuator .parenthesisClose →
      c.ArrowAt (j + 1)

/-- Where nothing begins with `async` as a modifier, nothing does in the second run either, unless
it finds parameters behind the word. -/
theorem asyncOperand? (h : g.Widening g') {stops : List TokenKind}
    (hstops : .punctuator .parenthesisOpen ∉ stops) (hc : c.Widens c') (hs : s.Matches s')
    {third : Token} {a : Option Expr}
    (hrun : Grammar.asyncOperand? g stops (c.token s.position) (c.token (s.position + 1)) third c s
      = .ok a t) (hend : ¬ c.ArrowAt t.position) :
    GivesToo a t (Grammar.asyncOperand? g' stops (c.token s.position) (c.token (s.position + 1))
        third c' s')
      ∨ a = none ∧ (c.token s.position).kind = .keyword .kAsync
        ∧ AsyncArrow c (s.position + 1) := by
  have hclosed := h.closed
  rw [Grammar.asyncOperand?, ite_run] at hrun ⊢
  rw [ite_run]
  split at hrun
  next hno =>
    rw [if_pos hno]
    exact .inl (Surely.pure _ hc hs hrun)
  next hasync =>
    rw [if_neg hasync, ite_run]
    rw [ite_run] at hrun
    split at hrun
    next hopen =>
      rw [if_pos hopen, position_bind, discard_bind, next_bind, attempt_bind]
      rw [position_bind, discard_bind, next_bind, attempt_bind] at hrun
      split at hrun
      next ps u hparams =>
        left
        rw [restore_bind] at hrun
        obtain ⟨e, v, he, hrun⟩ := bind_ok_iff.1 hrun
        obtain ⟨rfl, rfl⟩ := pure_ok_iff.1 hrun
        have hgives := h.arrowParameters_surely true hc hs.advanced hparams
        cases hrun' : Grammar.arrowParameters g' true c' s'.advanced with
        | ok ps' u' =>
          rw [hrun'] at hgives
          cases hgives with
          | ok hu =>
            have hmatches := hu.restore hs.position
            exact ((h.arrowFunction hstops hc hmatches he).2 hend).bind fun t' ht => .ok ht
        | error e' u' =>
          rw [hrun'] at hgives
          cases hgives
          exact .exhausted _
      next e u hparams =>
        rw [restore_bind] at hrun
        obtain ⟨rfl, rfl⟩ := pure_ok_iff.1 hrun
        cases hrun' : Grammar.arrowParameters g' true c' s'.advanced with
        | ok ps' u' =>
          right
          have hkind : (c.token s.position).kind = .keyword .kAsync := by
            by_contra hne
            exact hasync (by simp [hne])
          exact ⟨rfl, hkind, hopen, fun j hj hclose =>
            h.arrowAt_of_attempt hc hs.advanced hrun' hopen hj hclose⟩
        | error e' u' =>
          left
          cases e' with
          | exhausted => exact .exhausted _
          | error e' =>
            dsimp only
            rw [restore_bind]
            have hleft := h.afterAttempt_left (.inr ⟨e, hparams⟩)
            have hright := h.afterAttempt hc hs.advanced hrun' s'.position
            exact .ok (hright.elsewhere hs.position.symm hleft)
      next => cases hrun
    next hclosedParen =>
      left
      rw [if_neg hclosedParen]
      rw [ite_run] at hrun
      split at hrun
      next hword =>
        rw [if_pos hword]
        obtain ⟨e, v, he, hrun⟩ := bind_ok_iff.1 hrun
        obtain ⟨rfl, rfl⟩ := pure_ok_iff.1 hrun
        exact ((hclosed.functionExpression hc hs he).2 hend).bind fun t' ht => .ok ht
      next hword =>
        rw [if_neg hword, nameRules_bind, hc.names]
        rw [nameRules_bind] at hrun
        have hcarries : CarriesOver (α := Option Expr)
            (if c.names.allows (c.token (s.position + 1)).kind && third.kind = arrowKind then
              return some (← Grammar.arrowFunction g stops)
            else return none)
            (if c.names.allows (c.token (s.position + 1)).kind && third.kind = arrowKind then
              return some (← Grammar.arrowFunction g' stops)
            else return none) := by
          refine ParserRel.ite (Q := @CarriesOver) _ ?_ (.pure _)
          exact CarriesOver.bind (h.arrowFunction hstops) fun _ => .pure _
        exact (hcarries hc hs hrun).2 hend

/-- No operand begins with an arrow. -/
theorem operand_not_arrowAt {mode : ExprMode} {a : Expr × Bool}
    (hrun : Grammar.operand g mode c s = .ok a t) : ¬ c.ArrowAt s.position := by
  intro harrow
  have harrow : (c.token s.position).kind = arrowKind := harrow
  have hleading : leadingOperator? c.names (c.token s.position).kind = none := by
    rw [harrow]
    rfl
  have hallowed : ¬ c.names.allows (c.token s.position).kind = true := by
    rw [harrow]
    exact Bool.false_ne_true
  rw [operand_run, operandFrom, hleading] at hrun
  dsimp only at hrun
  rw [asyncOperand?_of_ne (by rw [harrow]; decide), pure_bind] at hrun
  dsimp only at hrun
  rw [if_neg hallowed, Grammar.atom, harrow] at hrun
  exact (fail_ok_iff.1 hrun).elim

/-- Where no arrow follows, both runs begin with the same operand, unless the second one finds an
arrow function at `async`. -/
theorem operand (h : g.Widening g') {mode : ExprMode} (hmode : mode.TakesCalls) (hc : c.Widens c')
    (hs : s.Matches s') {a : Expr × Bool} (hrun : Grammar.operand g mode c s = .ok a t)
    (hend : ¬ c.ArrowAt t.position) :
    GivesToo a t (Grammar.operand g' mode c' s') ∨ AsyncArrow c t.position := by
  have hne := operand_not_arrowAt hrun
  have hlooked := ((hs.looked 0).looked 1).looked 2
  rw [operand_run, operandFrom] at hrun ⊢
  rw [hs.position, hc.token, hc.token, hc.token, hc.names]
  cases hleading : leadingOperator? c.names (c.token s.position).kind with
  | some op =>
    simp only [hleading] at hrun ⊢
    exact .inl ((h.unary hmode (leadingOperator?_precedence hleading) hc hlooked hne hrun).2 hend)
  | none =>
    simp only [hleading] at hrun ⊢
    obtain ⟨found, u, hfound, hrest⟩ := bind_ok_iff.1 hrun
    have hreads := asyncOperand?_reads h.reading hfound
    have hu : ¬ c.ArrowAt u.position := by
      cases found with
      | some e =>
        obtain ⟨-, rfl⟩ := pure_ok_iff.1 hrest
        exact hend
      | none =>
        have hposition : u.position = s.position := hreads
        rwa [hposition]
    obtain hgives | ⟨rfl, hasync, hopen, hclose⟩ := h.asyncOperand? hmode.1 hc hlooked hfound hu
    · left
      refine hgives.bind fun u' hu => ?_
      cases found with
      | some e => exact Surely.pure _ hc hu hrest
      | none =>
        have hrule : CarriesOver (α := Expr × Bool)
            (if c.names.allows (c.token s.position).kind then
              if (c.token (s.position + 1)).kind = arrowKind then
                return (← Grammar.arrowFunction g mode.stops, false)
              else return (← variableUse, false)
            else Grammar.atom g mode (c.token s.position))
            (if c.names.allows (c.token s.position).kind then
              if (c.token (s.position + 1)).kind = arrowKind then
                return (← Grammar.arrowFunction g' mode.stops, false)
              else return (← variableUse, false)
            else Grammar.atom g' mode (c.token s.position)) := by
          refine ParserRel.ite (Q := @CarriesOver) _ (ParserRel.ite (Q := @CarriesOver) _ ?_ ?_)
            (h.atom hmode _)
          · exact CarriesOver.bind (h.arrowFunction hmode.1) fun _ => .pure _
          · exact CarriesOver.bind CarriesOver.tokens.variableUse fun _ => .pure _
        exact (hrule hc hu hrest).2 hend
    · right
      have hposition : u.position = s.position := hreads
      have hasync : (c.token s.position).kind = .keyword .kAsync := hasync
      have hopen : (c.token (s.position + 1)).kind = .punctuator .parenthesisOpen := hopen
      have hallowed : c.names.allows (c.token s.position).kind = true := by
        rw [hasync]
        rfl
      dsimp only at hrest
      rw [if_pos hallowed, if_neg (by rw [hopen]; decide)] at hrest
      simp only [variableUse, bind_ok_iff, spanned_ok_iff, pure_ok_iff] at hrest
      obtain ⟨_, _, ⟨_, ⟨_, _, hname, -, rfl⟩, -⟩, -, rfl⟩ := hrest
      obtain ⟨-, rfl⟩ := variableName_ok hname
      rw [State.advanced_position, hposition]
      exact ⟨hopen, hclose⟩

/-! ### Operators behind an operand -/

/-- What an operator adds, behind the operator. -/
theorem continuation (h : g.Widening g') {mode : ExprMode} (hmode : mode.TakesCalls) {start : Nat}
    (op : Operator) (left : Expr) (hc : c.Widens c') (hs : s.Matches s')
    (hstart : start < s.position) :
    Carries c s (Grammar.continuation g mode start op left c s)
      (Grammar.continuation g' mode start op left c' s') := by
  have hclosed := h.closed
  by_cases hcall : op = .call
  · subst hcall
    refine (hclosed.callArguments hc hs).bind fun as u u' has hu => ?_
    obtain ⟨j, hj, -, hposition⟩ := callArguments_balanced h.reading has
    have hlt : start < u.position := by
      have := hj.le
      omega
    rw [since_bind, since_bind, spanSince_matches hc hu hlt]
    exact .ok _ hu
  have hrule : CarriesOver (Grammar.continuation g mode start op left)
      (Grammar.continuation g' mode start op left) := by
    unfold Grammar.continuation
    split
    · exact absurd rfl hcall
    · refine CarriesOver.bind (hclosed.whole (by decide)) fun _ => ?_
      exact (CarriesOver.require (by decide)).bind fun _ => .pure _
    · refine CarriesOver.bind (hclosed.whole (by decide)) fun _ => ?_
      refine CarriesOver.bind (hclosed.drop (by decide)) fun _ => ?_
      have halternate : ExprMode.TakesCalls
          { mode with least := Operator.conditionalAlternate.precedence } :=
        ⟨hmode.1,
          show Operator.conditionalAlternate.precedence ≤ Operator.call.precedence by decide⟩
      exact CarriesOver.bind (hclosed.expr _ halternate) fun _ => .pure _
    · exact (memberAccess left).bind fun _ => .pure _
    · rename_i hcomputed _ hmember
      have hop := Operator.operandPrecedence_le hcall hmember hcomputed
      have hright : CarriesOver (g.expr { mode with least := op.operandPrecedence })
          (g'.expr { mode with least := op.operandPrecedence }) := hclosed.expr _ ⟨hmode.1, hop⟩
      refine ParserRel.ite (Q := @CarriesOver) _ ?_ (hright.bind fun _ => .pure _)
      exact (hclosed.checkAssignable left).bind fun _ => hright.bind fun _ => .pure _
  exact hrule hc hs

theorem climb (h : g.Widening g') {mode : ExprMode} (hmode : mode.TakesCalls) (left : Expr)
    (inserted : Bool) :
    CarriesOver (Grammar.climb g mode left inserted g.budget)
      (Grammar.climb g' mode left inserted g'.budget) := by
  refine h.onFuel (fun n (i : Expr × Bool) => Grammar.climb g mode i.1 i.2 n)
    (fun n i => Grammar.climb g' mode i.1 i.2 n) (fun _ => rfl) (fun _ => rfl)
    (fun n m ih i => ?_) (left, inserted)
  intro c c' s s' hc hs
  have stop (b : Bool) : Carries c s
      ((do restore s.position; return (i.1, b) : Parser (Expr × Bool)) c s.advanced)
      ((do restore s'.position; return (i.1, b) : Parser (Expr × Bool)) c' s'.advanced) := by
    rintro a t hrun
    rw [restore_bind] at hrun ⊢
    obtain ⟨rfl, rfl⟩ := pure_ok_iff.1 hrun
    exact ⟨fun _ => rfl, fun _ => .ok (hs.advanced.restore hs.position)⟩
  have rest {left : Expr} {b : Bool} (hne : ¬ c.ArrowAt s.position) :
      Carries c s (Grammar.climb g mode left b n c s.advanced)
        (Grammar.climb g' mode left b m c' s'.advanced) :=
    .intro hne fun a t hrun hend => (ih (left, b) hc hs.advanced hrun).2 hend
  rw [Grammar.climb, Grammar.climb, position_bind, position_bind, next_bind, next_bind]
  have htoken : c'.token s'.position = c.token s.position := by rw [hs.position, hc.token]
  rw [htoken, ite_run, ite_run]
  split
  · exact stop _
  cases hupdate : (Operator.update? (c.token s.position).kind).filter
      fun _ => !(c.token s.position).newlineBefore with
  | some op =>
    dsimp only
    rw [ite_run, ite_run]
    split
    · exact stop _
    · refine rest fun harrow => ?_
      rw [harrow] at hupdate
      cases hupdate
  | none =>
    cases hop : Operator.following? (c.token s.position).kind with
    | some op =>
      dsimp only
      rw [ite_run, ite_run]
      split
      · exact stop _
      · have hne : ¬ c.ArrowAt s.position := fun harrow => by
          rw [harrow] at hop
          cases hop
        refine .intro hne fun a t hrun hend => ?_
        have hadds := h.continuation hmode op i.1 hc hs.advanced (Nat.lt_succ_self s.position)
        have hcarries := hadds.bind fun found u u' _ hu => ih (found.1, i.2 || found.2) hc hu
        rw [hs.position]
        exact (hcarries hrun).2 hend
    | none =>
      dsimp only
      rw [ite_run, ite_run]
      split
      · exact stop _
      · exact .error _ _

/-- An expression ends before an arrow. -/
theorem climb_arrowAt {mode : ExprMode} {left : Expr} {inserted : Bool} {n : Nat} {a : Expr × Bool}
    (hrun : Grammar.climb g mode left inserted n c s = .ok a t) (harrow : c.ArrowAt s.position) :
    t.position = s.position := by
  cases n with
  | zero => cases hrun
  | succ n =>
    obtain ⟨ht, -⟩ | ⟨_, hop, -⟩ | ⟨_, _, _, _, hop, -⟩ := climb_ok hrun
    · exact ht.position
    · rw [harrow] at hop
      cases hop
    · rw [harrow] at hop
      cases hop

/-- Behind `async` a call is read. An arrow stands behind its parentheses, so the expression ends
there. -/
theorem climb_asyncArrow (h : g.Widening g') {mode : ExprMode} (hmode : mode.TakesCalls)
    {left : Expr} {inserted : Bool} {n : Nat} {a : Expr × Bool} (harrow : AsyncArrow c s.position)
    (hrun : Grammar.climb g mode left inserted n c s = .ok a t) : c.ArrowAt t.position := by
  obtain ⟨hopen, hclose⟩ := harrow
  cases n with
  | zero => cases hrun
  | succ n =>
    rw [Grammar.climb_call hmode left inserted n hopen] at hrun
    obtain ⟨found, u, hcall, hrun⟩ := bind_ok_iff.1 hrun
    unfold Grammar.continuation at hcall
    obtain ⟨_, v, harguments, hfound⟩ := bind_ok_iff.1 hcall
    rw [since_bind, pure_ok_iff] at hfound
    obtain ⟨-, rfl⟩ := hfound
    obtain ⟨j, hj, hkind, hposition⟩ := callArguments_balanced h.reading harguments
    have hv : c.ArrowAt v.position := hposition ▸ hclose j hj hkind
    rwa [climb_arrowAt hrun hv]

/-! ### Expressions and statements -/

theorem expression (h : g.Widening g') {mode : ExprMode} (hmode : mode.TakesCalls) :
    CarriesOver (Grammar.expression g mode) (Grammar.expression g' mode) := by
  intro c c' s s' hc hs a t hrun
  obtain ⟨⟨first, inserted⟩, u, hoperand, hclimb⟩ := bind_ok_iff.1 hrun
  have hclimbs := h.climb hmode first inserted
  refine ⟨fun harrow => absurd harrow (operand_not_arrowAt hoperand), fun hend => ?_⟩
  have hu : ¬ c.ArrowAt u.position := fun harrow =>
    hend ((hclimbs hc (.withoutClasses u) hclimb).1 harrow ▸ harrow)
  obtain hgives | harrow := h.operand hmode hc hs hoperand hu
  · exact hgives.bind fun u' hu' => (hclimbs hc hu' hclimb).2 hend
  · exact absurd (h.climb_asyncArrow hmode harrow hclimb) hend

theorem statement (h : g.Widening g') : CarriesOver (Grammar.statement g) (Grammar.statement g') :=
  have hstatements : ClosedOnStatements @CarriesOver @CarriesOver (fun _ => @CarriesOver) g g' :=
    { h.members with
      value := h.expr
      declarators := CarriesOver.tokens.declarators h.onFuel h.expr }
  hstatements.statement

end Rules.Widening

/-- **The rules carry over** to options that allow more, and to a budget that is not smaller. -/
theorem Rules.within_widening {n m : Nat} (h : n ≤ m) : (within n).Widening (within m) := by
  induction n generalizing m with
  | zero =>
    exact ⟨Nat.zero_le _, within_reading 0, within_reading m, within_keeping 0, within_keeping m,
      within_punctual m, fun _ _ _ _ _ _ => .error _ _, fun _ _ _ _ _ _ _ _ => .error _ _⟩
  | succ n ih =>
    obtain ⟨m, rfl⟩ := Nat.exists_eq_add_of_le' (Nat.lt_of_lt_of_le n.succ_pos h)
    have hwidening := ih (Nat.le_of_succ_le_succ h)
    exact ⟨h, within_reading _, within_reading _, within_keeping _, within_keeping _,
      within_punctual _, hwidening.statement, fun _ => hwidening.expression⟩

/-- A script that could be read is read again. -/
theorem Grammar.script_widens {n m : Nat} (h : n ≤ m) {c c' : Context} {s s' t : State}
    {p : Program} (hc : c.Widens c') (hs : s.Matches s') (hrun : script (.within n) c s = .ok p t) :
    GivesToo p t (script (.within m) c' s') := by
  have hclosed := (Rules.within_widening h).closed
  obtain ⟨⟨start, stop⟩, body⟩ := p
  obtain ⟨u, hbody, heof, hu, hspan⟩ := script_ok hrun
  have hend : ¬ c.ArrowAt u.position := fun harrow => by cases heof.symm.trans harrow
  have hgives := (hclosed.statements .eof (hc.withNames fun _ => .script) hs hbody).2 hend
  refine hgives.bind fun u' hu' => ?_
  have heof' : ({ c' with names := .script } : Context).token u'.position = c.token u.position := by
    rw [hu'.position]
    exact hc.token _
  rw [discard_bind, bind_apply, require_run, heof', if_pos heof]
  dsimp only
  rw [report_bind, read_bind]
  dsimp only at hspan ⊢
  rw [hc.sourceLength, hspan]
  have ht := hu'.advanced.elsewhere hu.position hu.inInitializer
  exact .ok ⟨ht.position, ht.inInitializer, ht.idle⟩

end EcmaScript

import EcmaScript.Proofs.Grammar.ReadingParts

namespace EcmaScript

open EcmaScript.Parser

/-!
# What expressions and statements read

* `Grammar.unary_ok`, `Grammar.continuation_ok`, `Grammar.climb_ok`, `Grammar.operand_ok` — the
  steps by which an expression is read;
* `Grammar.expression_reads`, `Grammar.statement_reads` — both rules read balanced tokens, one at
  least, on top of rules that do;
* `Rules.within_reading` — so do the rules of the grammar, whatever their budget is.
-/

namespace Grammar

variable {g : Rules} {c : Context} {s t u : State}

/-! ### Parts of expressions -/

/-- The tokens that end an argument. -/
def argumentStops : List TokenKind := [.punctuator .comma, .punctuator .parenthesisClose]

/-- An argument, without its place. -/
def argument (g : Rules) : Parser (Span → Arg) := do
  let spread ← accept (.punctuator .dotDotDot)
  let value ← g.whole argumentStops
  return fun span => .mk span spread value

theorem argument_reads (hg : g.Reading) {make : Span → Arg} (h : argument g c s = .ok make t) :
    Reads c.token s.position t.position := by
  simp only [argument, bind_ok_iff, pure_ok_iff] at h
  obtain ⟨_, _, hspread, _, _, hvalue, -, rfl⟩ := h
  exact (whole_reads hg hvalue).prepend (accept_balanced hspread rfl)

theorem callArguments_balanced (hg : g.Reading) {as : List Arg}
    (h : callArguments g c s = .ok as t) :
    ∃ j, Balanced c.token s.position j ∧ (c.token j).kind = .punctuator .parenthesisClose
      ∧ t.position = j + 1 :=
  separated_balanced rfl (fun hitem => (argument_reads hg hitem).balanced) h

theorem variableUse_reads {e : Expr} (h : variableUse c s = .ok e t) :
    Reads c.token s.position t.position := by
  simp only [variableUse, spanned_ok_iff, bind_ok_iff, pure_ok_iff] at h
  obtain ⟨_, ⟨_, _, hname, -, rfl⟩, -⟩ := h
  exact variableName_reads hname

theorem superReference_reads {e : Expr} (h : superReference c s = .ok e t) :
    Reads c.token s.position t.position := by
  simp only [superReference, spanned_ok_iff, discard_bind, bind_ok_iff, pure_ok_iff] at h
  obtain ⟨_, ⟨_, _, hword, -, rfl⟩, -⟩ := h
  exact require_reads hword rfl

theorem thisReference_reads {e : Expr} (h : thisReference c s = .ok e t) :
    Reads c.token s.position t.position := by
  simp only [thisReference, spanned_ok_iff, discard_bind, bind_ok_iff, pure_ok_iff] at h
  obtain ⟨_, ⟨_, _, hword, -, rfl⟩, -⟩ := h
  exact require_reads hword rfl

theorem checkDelete_ok {op : Token} {e : Expr} {x : Unit} (h : checkDelete op e c s = .ok x t) :
    t = s ∧ ∀ span object name, e ≠ .privateMember span object name := by
  unfold checkDelete at h
  obtain ⟨p, hp, h⟩ := exists_run h
  split at hp
  · subst hp
    exact (fail_ok_iff.1 h).elim
  next hne =>
    subst hp
    exact ⟨(pure_ok_iff.1 h).2.symm, hne⟩

theorem checkAssignable_ok {e : Expr} {x : Unit} (h : checkAssignable e c s = .ok x t) : t = s := by
  rw [checkAssignable, ite_run] at h
  split at h
  · exact (pure_ok_iff.1 h).2.symm
  · exact (fail_ok_iff.1 h).elim

/-! ### Operators before an operand -/

/-- The operator before an operand, of which `yield` may take an asterisk along. -/
def unaryOperator (leading : Operator) : Parser Operator :=
  if leading = .yield then
    return if ← accept (.punctuator .asterisk) then .yieldDelegated else .yield
  else pure leading

/-- The operand; `yield` may have none. -/
def unaryArgument (g : Rules) (mode : ExprMode) (token : Token) (op : Operator)
    (following : Token) : Parser (Expr × Bool) :=
  if op = .yield && endsYield mode.stops following then pure (missingOperand token, false)
  else g.expr { mode with least := op.operandPrecedence }

/-- What stands behind an operator that has been read. -/
def unaryRest (g : Rules) (mode : ExprMode) (start : Nat) (token : Token) (op : Operator) :
    Parser (Expr × Bool) := do
  let following ← peek
  let found ← unaryArgument g mode token op following
  if op = .delete then checkDelete token found.1
  return (.unary (← since start) op found.1, found.2)

/-- An operator and its operand, one after the other. -/
theorem unary_eq (mode : ExprMode) (leading : Operator) :
    unary g mode leading = (do
      let start ← position
      let token ← next
      let op ← unaryOperator leading
      unaryRest g mode start token op) := by
  have argument (start : Nat) (token : Token) (op : Operator) : (do
      let following ← peek
      let found ←
        if op = .yield && endsYield mode.stops following then pure (missingOperand token, false)
        else g.expr { mode with least := op.operandPrecedence }
      if op = .delete then checkDelete token found.1
      return (Expr.unary (← since start) op found.1, found.2) : Parser (Expr × Bool))
        = unaryRest g mode start token op := by
    refine bind_congr fun following => ?_
    unfold unaryArgument
    by_cases hmissing : (op = .yield && endsYield mode.stops following) = true
    · simp only [hmissing, if_true, pure_bind]
    · simp only [hmissing, Bool.false_eq_true, if_false]
  unfold unary
  refine bind_congr fun start => bind_congr fun token => ?_
  unfold unaryOperator
  split
  next h =>
    simp only [bind_assoc, pure_bind]
    refine bind_congr fun star => ?_
    exact argument start token _
  next h =>
    simp only [pure_bind]
    exact argument start token _

theorem unaryOperator_ok {leading op : Operator} (h : unaryOperator leading c s = .ok op t) :
    Balanced c.token s.position t.position ∧ t.scopes = s.scopes
      ∧ t.inInitializer = s.inInitializer := by
  rw [unaryOperator, ite_run] at h
  split at h
  · obtain ⟨_, u, hstar, h⟩ := bind_ok_iff.1 h
    obtain ⟨-, rfl⟩ := pure_ok_iff.1 h
    refine ⟨accept_balanced hstar rfl, ?_⟩
    obtain ⟨-, -, rfl⟩ | ⟨-, -, rfl⟩ := accept_ok_iff.1 hstar
    · exact ⟨rfl, rfl⟩
    · exact ⟨rfl, rfl⟩
  · obtain ⟨-, rfl⟩ := pure_ok_iff.1 h
    exact ⟨.nil _, rfl, rfl⟩

theorem unary_ok {mode : ExprMode} {leading : Operator} {a : Expr × Bool}
    (h : unary g mode leading c s = .ok a t) :
    ∃ op u argument, unaryOperator leading c s.advanced = .ok op u
      ∧ unaryArgument g mode (c.token s.position) op (c.token u.position) c (u.looked 0)
          = .ok (argument, a.2) t
      ∧ (op = .delete → ∀ span object name, argument ≠ .privateMember span object name)
      ∧ a.1 = .unary (spanSince c s.position t) op argument := by
  rw [unary_eq, position_bind, next_bind] at h
  obtain ⟨op, u, hop, h⟩ := bind_ok_iff.1 h
  rw [unaryRest, peek_bind] at h
  obtain ⟨found, v, hfound, h⟩ := bind_ok_iff.1 h
  have hv : v = t ∧ (op = .delete → ∀ span object name, found.1 ≠ .privateMember span object name)
      ∧ a = (.unary (spanSince c s.position v) op found.1, found.2) := by
    rw [ite_run] at h
    split at h
    · obtain ⟨_, w, hcheck, hrest⟩ := bind_ok_iff.1 h
      obtain ⟨rfl, hne⟩ := checkDelete_ok hcheck
      simp only [since_bind, pure_ok_iff] at hrest
      exact ⟨hrest.2, fun _ => hne, hrest.1.symm⟩
    next hdelete =>
      simp only [since_bind, pure_ok_iff] at h
      exact ⟨h.2, fun h => absurd h hdelete, h.1.symm⟩
  obtain ⟨rfl, hdelete, rfl⟩ := hv
  exact ⟨op, u, found.1, hop, hfound, hdelete, rfl⟩

theorem leadingOperator?_isPlain {rules : NameRules} {kind : TokenKind} {op : Operator}
    (h : leadingOperator? rules kind = some op) : kind.isPlain := by
  have h := (Option.filter_eq_some_iff.1 h).1
  unfold Operator.leading? at h
  split at h <;> first | rfl | cases h

/-- No operator before an operand binds more tightly than a call. -/
theorem leadingOperator?_precedence {rules : NameRules} {kind : TokenKind} {op : Operator}
    (h : leadingOperator? rules kind = some op) :
    op.operandPrecedence ≤ Operator.call.precedence := by
  have h := (Option.filter_eq_some_iff.1 h).1
  unfold Operator.leading? at h
  split at h
  case h_13 => cases h
  all_goals
    obtain rfl := Option.some.inj h
    decide

/-- What stands behind the first token of a unary expression. -/
theorem unary_balanced (hg : g.Reading) {mode : ExprMode} {leading : Operator} {a : Expr × Bool}
    (h : unary g mode leading c s = .ok a t) :
    Balanced c.token s.advanced.position t.position := by
  obtain ⟨op, u, argument, hop, hargument, -⟩ := unary_ok h
  have hop := (unaryOperator_ok hop).1
  rw [unaryArgument, ite_run] at hargument
  split at hargument
  · obtain ⟨-, rfl⟩ := pure_ok_iff.1 hargument
    exact hop
  · exact hop.trans (hg.expr hargument).balanced

theorem unary_reads (hg : g.Reading) {mode : ExprMode} {leading : Operator} {a : Expr × Bool}
    (hplain : (c.token s.position).kind.isPlain) (h : unary g mode leading c s = .ok a t) :
    Reads c.token s.position t.position :=
  (Reads.single hplain : Reads c.token s.position s.advanced.position).append (unary_balanced hg h)

/-! ### Operands -/

/-- What begins with `async` as a modifier is an arrow function or a function; where nothing does,
at most an attempt at parameters has been made. -/
theorem asyncOperand?_ok {stops : List TokenKind} {first second third : Token} {a : Option Expr}
    (h : asyncOperand? g stops first second third c s = .ok a t) :
    (∃ e, a = some e
        ∧ ((∃ ps u, first.kind = .keyword .kAsync ∧ second.kind = .punctuator .parenthesisOpen
              ∧ arrowParameters g true c s.advanced = .ok ps u
              ∧ arrowFunction g stops c { u with position := s.position } = .ok e t)
          ∨ functionExpression g c s = .ok e t ∨ arrowFunction g stops c s = .ok e t))
      ∨ (a = none ∧ (t = s ∨ ∃ e u, first.kind = .keyword .kAsync
          ∧ second.kind = .punctuator .parenthesisOpen
          ∧ arrowParameters g true c s.advanced = .error (.error e) u
          ∧ t = { u with position := s.position })) := by
  rw [asyncOperand?, ite_run] at h
  split at h
  next =>
    obtain ⟨rfl, rfl⟩ := pure_ok_iff.1 h
    exact .inr ⟨rfl, .inl rfl⟩
  next hfirst =>
    have hasync : first.kind = .keyword .kAsync := by
      by_contra hne
      exact hfirst (by simp [hne])
    rw [ite_run] at h
    split at h
    next hopen =>
      rw [position_bind, discard_bind, next_bind, attempt_bind] at h
      split at h
      next ps u hparams =>
        rw [restore_bind] at h
        simp only [bind_ok_iff, pure_ok_iff] at h
        obtain ⟨e, _, he, rfl, rfl⟩ := h
        exact .inl ⟨e, rfl, .inl ⟨ps, u, hasync, hopen, hparams, he⟩⟩
      next e u hparams =>
        rw [restore_bind] at h
        obtain ⟨rfl, rfl⟩ := pure_ok_iff.1 h
        exact .inr ⟨rfl, .inr ⟨e, u, hasync, hopen, hparams, rfl⟩⟩
      next => cases h
    next =>
      rw [ite_run] at h
      split at h
      next =>
        simp only [bind_ok_iff, pure_ok_iff] at h
        obtain ⟨e, _, he, rfl, rfl⟩ := h
        exact .inl ⟨e, rfl, .inr (.inl he)⟩
      next =>
        rw [nameRules_bind, ite_run] at h
        split at h
        next =>
          simp only [bind_ok_iff, pure_ok_iff] at h
          obtain ⟨e, _, he, rfl, rfl⟩ := h
          exact .inl ⟨e, rfl, .inr (.inr he)⟩
        next =>
          obtain ⟨rfl, rfl⟩ := pure_ok_iff.1 h
          exact .inr ⟨rfl, .inl rfl⟩

/-- What begins with `async` as a modifier reads tokens, and where nothing does, none are read. -/
theorem asyncOperand?_reads (hg : g.Reading) {stops : List TokenKind} {first second third : Token}
    {a : Option Expr} (h : asyncOperand? g stops first second third c s = .ok a t) :
    if a.isSome then Reads c.token s.position t.position else t.position = s.position := by
  obtain ⟨_, rfl, ⟨_, _, -, -, -, h⟩ | h | h⟩ | ⟨rfl, rfl | ⟨_, _, -, -, -, rfl⟩⟩ :=
    asyncOperand?_ok h
  · have h := arrowFunction_reads hg h
    exact h
  · exact functionExpression_reads hg h
  · exact arrowFunction_reads hg h
  · rfl
  · rfl

/-- An operand that is no name is a literal, a function, a class, a reference, or in parentheses. -/
theorem atom_ok {mode : ExprMode} {first : Token} {a : Expr × Bool}
    (h : atom g mode first c s = .ok a t) :
    (first.kind = .punctuator .parenthesisOpen
        ∧ arrowOrGrouping g mode.stops mode.insertion c s = .ok a t)
      ∨ ∃ e, a = (e, false)
        ∧ (arrayLiteral g c s = .ok e t ∨ objectLiteral g c s = .ok e t
          ∨ classExpression g c s = .ok e t ∨ functionExpression g c s = .ok e t
          ∨ (superReference c s = .ok e t ∧ ¬ c.Guards s) ∨ thisReference c s = .ok e t
          ∨ boolLiteral c s = .ok e t ∨ nullLiteral c s = .ok e t ∨ numberLiteral c s = .ok e t
          ∨ stringLiteral c s = .ok e t) := by
  have one {p : Parser Expr} (h : (do return (← p, false) : Parser (Expr × Bool)) c s = .ok a t) :
      ∃ e, a = (e, false) ∧ p c s = .ok e t := by
    simp only [bind_ok_iff, pure_ok_iff] at h
    obtain ⟨e, _, he, rfl, rfl⟩ := h
    exact ⟨e, rfl, he⟩
  unfold atom at h
  obtain ⟨p, hp, h⟩ := exists_run h
  split at hp <;> subst hp
  next =>
    obtain ⟨e, ha, he⟩ := one h
    exact .inr ⟨e, ha, .inl he⟩
  next =>
    obtain ⟨e, ha, he⟩ := one h
    exact .inr ⟨e, ha, .inr (.inl he)⟩
  next =>
    obtain ⟨e, ha, he⟩ := one h
    exact .inr ⟨e, ha, .inr (.inr (.inl he))⟩
  next =>
    obtain ⟨e, ha, he⟩ := one h
    exact .inr ⟨e, ha, .inr (.inr (.inr (.inl he)))⟩
  next =>
    obtain ⟨_, u, hcheck, h⟩ := bind_ok_iff.1 h
    rw [checkSuper_state hcheck] at h
    obtain ⟨e, ha, he⟩ := one h
    exact .inr ⟨e, ha, .inr (.inr (.inr (.inr (.inl ⟨he, checkSuper_permits hcheck⟩))))⟩
  next =>
    obtain ⟨e, ha, he⟩ := one h
    exact .inr ⟨e, ha, .inr (.inr (.inr (.inr (.inr (.inl he)))))⟩
  next =>
    obtain ⟨e, ha, he⟩ := one h
    exact .inr ⟨e, ha, .inr (.inr (.inr (.inr (.inr (.inr (.inl he))))))⟩
  next =>
    obtain ⟨e, ha, he⟩ := one h
    exact .inr ⟨e, ha, .inr (.inr (.inr (.inr (.inr (.inr (.inl he))))))⟩
  next =>
    obtain ⟨e, ha, he⟩ := one h
    exact .inr ⟨e, ha, .inr (.inr (.inr (.inr (.inr (.inr (.inr (.inl he)))))))⟩
  next =>
    obtain ⟨e, ha, he⟩ := one h
    exact .inr ⟨e, ha, .inr (.inr (.inr (.inr (.inr (.inr (.inr (.inr (.inl he))))))))⟩
  next =>
    obtain ⟨e, ha, he⟩ := one h
    exact .inr ⟨e, ha, .inr (.inr (.inr (.inr (.inr (.inr (.inr (.inr (.inr he))))))))⟩
  next hopen => exact .inl ⟨hopen, h⟩
  next => exact (fail_ok_iff.1 h).elim

theorem atom_reads (hg : g.Reading) {mode : ExprMode} {first : Token} {a : Expr × Bool}
    (h : atom g mode first c s = .ok a t) : Reads c.token s.position t.position := by
  obtain ⟨-, h⟩ | ⟨_, -, h | h | h | h | h | h | h | h | h | h⟩ := atom_ok h
  · exact arrowOrGrouping_reads hg h
  · exact arrayLiteral_reads hg h
  · exact objectLiteral_reads hg h
  · exact classExpression_reads hg h
  · exact functionExpression_reads hg h
  · exact superReference_reads h.1
  · exact thisReference_reads h
  · exact boolLiteral_reads h
  · exact nullLiteral_reads h
  · exact numberLiteral_reads h
  · exact stringLiteral_reads h

/-- No operator before an operand is a name where it stands. -/
theorem leadingOperator?_of_allows {rules : NameRules} {kind : TokenKind}
    (h : rules.allows kind = true) :
    leadingOperator? rules kind = none := by
  rw [leadingOperator?, Option.filter_eq_none_iff]
  intro op hop
  unfold Operator.leading? at hop
  split at hop
  all_goals cases hop <;> simp_all [NameRules.allows, Keyword.isUnreserved]

/-- Without `async` in front nothing begins with it. -/
theorem asyncOperand?_of_ne {stops : List TokenKind} {first second third : Token}
    (h : first.kind ≠ .keyword .kAsync) :
    asyncOperand? g stops first second third = pure none :=
  if_pos (by simp [h])

/-- What an expression begins with, by the words that may be names and its first three tokens. -/
def operandFrom (g : Rules) (mode : ExprMode) (rules : NameRules) (first second third : Token) :
    Parser (Expr × Bool) :=
  match leadingOperator? rules first.kind with
  | some op => unary g mode op
  | none => do
    match ← asyncOperand? g mode.stops first second third with
    | some found => return (found, false)
    | none =>
      if rules.allows first.kind then
        if second.kind = arrowKind then return (← arrowFunction g mode.stops, false)
        else return (← variableUse, false)
      else atom g mode first

theorem operand_run (mode : ExprMode) :
    operand g mode c s = operandFrom g mode c.names (c.token s.position) (c.token (s.position + 1))
      (c.token (s.position + 2)) c (((s.looked 0).looked 1).looked 2) := rfl

/-- An expression begins with an operator, with `async` as a modifier, with a name, or with a token
that is no name. -/
theorem operand_ok {mode : ExprMode} {a : Expr × Bool} (h : operand g mode c s = .ok a t) :
    ∃ u, s.SamePlace u
      ∧ ((∃ op, leadingOperator? c.names (c.token s.position).kind = some op
            ∧ unary g mode op c u = .ok a t)
        ∨ ∃ found v, asyncOperand? g mode.stops (c.token s.position) (c.token (s.position + 1))
              (c.token (s.position + 2)) c u = .ok found v
          ∧ ((∃ e, found = some e ∧ a = (e, false) ∧ v = t)
            ∨ found = none
              ∧ ((∃ e, a = (e, false)
                  ∧ (arrowFunction g mode.stops c v = .ok e t ∨ variableUse c v = .ok e t))
                ∨ atom g mode (c.token s.position) c v = .ok a t))) := by
  rw [operand, look_bind, look_bind, look_bind, nameRules_bind] at h
  refine ⟨_, (((State.SamePlace.refl s).looked 0).looked 1).looked 2, ?_⟩
  obtain ⟨p, hp, h⟩ := exists_run h
  split at hp
  next op hop =>
    subst hp
    exact .inl ⟨op, hop, h⟩
  next =>
    subst hp
    obtain ⟨found, v, hfound, h⟩ := bind_ok_iff.1 h
    refine .inr ⟨found, v, hfound, ?_⟩
    cases found with
    | some e =>
      obtain ⟨rfl, rfl⟩ := pure_ok_iff.1 h
      exact .inl ⟨e, rfl, rfl, rfl⟩
    | none =>
      refine .inr ⟨rfl, ?_⟩
      simp only [ite_run] at h
      split at h
      next =>
        split at h
        next =>
          simp only [bind_ok_iff, pure_ok_iff] at h
          obtain ⟨e, _, he, rfl, rfl⟩ := h
          exact .inl ⟨e, rfl, .inl he⟩
        next =>
          simp only [bind_ok_iff, pure_ok_iff] at h
          obtain ⟨e, _, he, rfl, rfl⟩ := h
          exact .inl ⟨e, rfl, .inr he⟩
      next => exact .inr h

theorem operand_reads (hg : g.Reading) {mode : ExprMode} {a : Expr × Bool}
    (h : operand g mode c s = .ok a t) : Reads c.token s.position t.position := by
  obtain ⟨u, hu, ⟨_, hop, h⟩ | ⟨_, v, hfound, h⟩⟩ := operand_ok h
  · rw [← hu.position] at hop
    have h := unary_reads hg (leadingOperator?_isPlain hop) h
    rwa [hu.position] at h
  · have hfound := asyncOperand?_reads hg hfound
    rw [hu.position] at hfound
    obtain ⟨_, rfl, -, rfl⟩ | ⟨rfl, h⟩ := h
    · exact hfound
    · have hv : v.position = s.position := hfound
      rw [← hv]
      obtain ⟨_, -, h | h⟩ | h := h
      · exact arrowFunction_reads hg h
      · exact variableUse_reads h
      · exact atom_reads hg h

/-! ### Operators behind an operand -/

/-- A member has a private name, or one that is spelled as an identifier or a keyword. -/
theorem memberAccess_ok {object e : Expr} (h : memberAccess object c s = .ok e t) :
    (∃ name u, privateName c (s.looked 0) = .ok name u ∧ usePrivate name c u = .ok () t
        ∧ e = .privateMember (object.span ∪ name.span) object name)
      ∨ ∃ name, (c.token s.position).kind.isPlain
          ∧ ((c.token s.position).kind ≠ .privateName ∧ (c.Guards s → name ≠ "arguments"))
          ∧ t = (s.looked 0).advanced
          ∧ e = .member (object.span ∪ (c.token s.position).span) object name := by
  have word (hplain : (c.token s.position).kind.isPlain)
      (hne : (c.token s.position).kind ≠ .privateName) (h : (do
        discard next
        let name ← identifierText (c.token s.position)
        checkArguments (c.token s.position) name
        return .member (object.span ∪ (c.token s.position).span) object name : Parser Expr) c
          (s.looked 0) = .ok e t) :
      ∃ name, (c.token s.position).kind.isPlain
        ∧ ((c.token s.position).kind ≠ .privateName ∧ (c.Guards s → name ≠ "arguments"))
        ∧ t = (s.looked 0).advanced
        ∧ e = .member (object.span ∪ (c.token s.position).span) object name := by
    rw [discard_bind, next_bind] at h
    simp only [bind_ok_iff, pure_ok_iff] at h
    obtain ⟨name, _, htext, _, _, hcheck, rfl, rfl⟩ := h
    rw [identifierText_state htext] at hcheck
    have hpermits (hguards : c.Guards s) : name ≠ "arguments" :=
      checkArguments_permits hcheck ⟨hguards.checks, hguards.inInitializer⟩
    rw [checkArguments_state hcheck]
    exact ⟨name, hplain, ⟨hne, hpermits⟩, rfl, rfl⟩
  rw [memberAccess, peek_bind] at h
  obtain ⟨p, hp, h⟩ := exists_run h
  split at hp
  next =>
    subst hp
    simp only [bind_ok_iff, pure_ok_iff] at h
    obtain ⟨name, u, hname, _, _, huse, rfl, rfl⟩ := h
    exact .inl ⟨name, u, hname, huse, rfl⟩
  next hkind =>
    subst hp
    exact .inr (word (hkind ▸ rfl) (hkind ▸ TokenKind.noConfusion) h)
  next hkind =>
    subst hp
    exact .inr (word (hkind ▸ rfl) (hkind ▸ TokenKind.noConfusion) h)
  next =>
    subst hp
    exact (fail_ok_iff.1 h).elim

theorem usePrivate_ok {name : Ident} {x : Unit} (h : usePrivate name c s = .ok x t) :
    (∃ scopes, s.scopes.use name.name name.span = .ok scopes ∧ t = { s with scopes := scopes })
      ∨ ∃ e, s.scopes.use name.name name.span = .error e ∧ c.checks.undeclaredNames = false
          ∧ t = s := by
  rw [usePrivate, get_bind] at h
  cases hscopes : s.scopes.use name.name name.span with
  | error e =>
    rw [hscopes] at h
    simp only [read_bind, ite_run] at h
    split at h
    · exact (fail_ok_iff.1 h).elim
    next hchecks =>
      refine .inr ⟨e, rfl, by simpa using hchecks, (pure_ok_iff.1 h).2.symm⟩
  | ok scopes =>
    rw [hscopes] at h
    injection h with _ h
    exact .inl ⟨scopes, rfl, h.symm⟩

theorem memberAccess_reads {object e : Expr} (h : memberAccess object c s = .ok e t) :
    Reads c.token s.position t.position := by
  obtain ⟨_, u, hname, huse, -⟩ | ⟨_, hplain, -, rfl, -⟩ := memberAccess_ok h
  · have hname := privateName_reads hname
    obtain ⟨_, -, rfl⟩ | ⟨_, -, -, rfl⟩ := usePrivate_ok huse
    · exact hname
    · exact hname
  · exact .single hplain

/-- What an operator adds to the expression on its left. -/
theorem continuation_ok {mode : ExprMode} {start : Nat} {op : Operator} {left : Expr}
    {a : Expr × Bool} (h : continuation g mode start op left c s = .ok a t) :
    (op = .call ∧ ∃ as, callArguments g c s = .ok as t
        ∧ a = (.call (left.span ∪ spanSince c start t) left as, false))
      ∨ (op = .computedMemberAccess ∧ ∃ member u,
          g.whole [.punctuator .bracketClose] c s = .ok member u
          ∧ (c.token u.position).kind = .punctuator .bracketClose ∧ t = u.advanced
          ∧ a = (.computedMember (left.span ∪ (c.token u.position).span) left member, false))
      ∨ (op = .conditional ∧ ∃ consequent u alternate,
          g.whole [.punctuator .colon] c s = .ok consequent u
          ∧ (c.token u.position).kind = .punctuator .colon
          ∧ g.expr { mode with least := Operator.conditionalAlternate.precedence } c u.advanced
              = .ok (alternate, a.2) t
          ∧ a.1 = .conditional (left.span ∪ alternate.span) left consequent alternate)
      ∨ (op = .memberAccess ∧ ∃ e, memberAccess left c s = .ok e t ∧ a = (e, false))
      ∨ (op ≠ .call ∧ op ≠ .computedMemberAccess ∧ op ≠ .conditional ∧ op ≠ .memberAccess
        ∧ (op.isAssignment → isAssignable left) ∧ ∃ right,
          g.expr { mode with least := op.operandPrecedence } c s = .ok (right, a.2) t
          ∧ a.1 = .binary (left.span ∪ right.span) op left right) := by
  unfold continuation at h
  obtain ⟨p, hp, h⟩ := exists_run h
  split at hp
  next =>
    subst hp
    simp only [bind_ok_iff, since_bind, pure_ok_iff] at h
    obtain ⟨as, _, has, rfl, rfl⟩ := h
    exact .inl ⟨rfl, as, has, rfl⟩
  next =>
    subst hp
    simp only [bind_ok_iff, require_ok_iff, pure_ok_iff] at h
    obtain ⟨member, u, hmember, _, _, ⟨hclose, rfl, rfl⟩, rfl, rfl⟩ := h
    exact .inr (.inl ⟨rfl, member, u, hmember, hclose, rfl, rfl⟩)
  next =>
    subst hp
    simp only [bind_ok_iff, discard_bind, require_ok_iff, pure_ok_iff] at h
    obtain ⟨consequent, u, hconsequent, _, _, ⟨hcolon, rfl, rfl⟩, alternate, _, halternate, rfl,
      rfl⟩ := h
    exact .inr (.inr (.inl ⟨rfl, consequent, u, alternate.1, hconsequent, hcolon, halternate, rfl⟩))
  next =>
    subst hp
    simp only [bind_ok_iff, pure_ok_iff] at h
    obtain ⟨e, _, he, rfl, rfl⟩ := h
    exact .inr (.inr (.inr (.inl ⟨rfl, e, he, rfl⟩)))
  next hcall hcomputed hconditional hmember =>
    subst hp
    refine .inr (.inr (.inr (.inr ⟨hcall, hcomputed, hconditional, hmember, ?_⟩)))
    rw [ite_run] at h
    split at h
    next =>
      obtain ⟨_, u, hcheck, h⟩ := bind_ok_iff.1 h
      simp only [bind_ok_iff, pure_ok_iff] at h
      obtain ⟨right, _, hright, rfl, rfl⟩ := h
      rw [checkAssignable_ok hcheck] at hright
      refine ⟨fun _ => ?_, right.1, hright, rfl⟩
      by_contra hne
      rw [checkAssignable, if_neg hne] at hcheck
      exact fail_ok_iff.1 hcheck
    next hassignment =>
      simp only [bind_ok_iff, pure_ok_iff] at h
      obtain ⟨right, _, hright, rfl, rfl⟩ := h
      exact ⟨fun h => absurd h hassignment, right.1, hright, rfl⟩

theorem following?_kind {kind : TokenKind} {op : Operator}
    (h : Operator.following? kind = some op) :
    (op = .call ∧ kind = .punctuator .parenthesisOpen)
      ∨ (op = .computedMemberAccess ∧ kind = .punctuator .bracketOpen)
      ∨ (op ≠ .call ∧ op ≠ .computedMemberAccess ∧ kind.isPlain) := by
  unfold Operator.following? at h
  split at h <;> cases h <;> decide

/-- An operator that may follow an operand is no update. -/
theorem update?_of_following? {kind : TokenKind} {op : Operator}
    (h : Operator.following? kind = some op) : Operator.update? kind = none := by
  unfold Operator.update?
  split
  next => cases h
  next => cases h
  next => rfl

theorem update?_isPlain {kind : TokenKind} {op : Operator} (h : Operator.update? kind = some op) :
    kind.isPlain := by
  unfold Operator.update? at h
  split at h
  · rfl
  · rfl
  · cases h

/-- An operator and what it adds. -/
theorem continuation_reads (hg : g.Reading) {mode : ExprMode} {start : Nat} {op : Operator}
    {left : Expr} {a : Expr × Bool} (hop : Operator.following? (c.token s.position).kind = some op)
    (h : continuation g mode start op left c s.advanced = .ok a t) :
    Reads c.token s.position t.position := by
  have one (hplain : (c.token s.position).kind.isPlain) :
      Reads c.token s.position s.advanced.position := .single hplain
  rcases following?_kind hop with ⟨rfl, hkind⟩ | ⟨rfl, hkind⟩ | ⟨hcall, hcomputed, hplain⟩
  · obtain ⟨-, _, has, -⟩ | ⟨hne, -⟩ | ⟨hne, -⟩ | ⟨hne, -⟩ | ⟨hne, -⟩ := continuation_ok h
    · obtain ⟨j, hj, hclose, ht⟩ := callArguments_balanced hg has
      rw [ht]
      exact .brackets (p := .parenthesisClose) rfl hkind hj hclose
    · cases hne
    · cases hne
    · cases hne
    · exact absurd rfl hne
  · obtain ⟨hne, -⟩ | ⟨-, _, u, hmember, hclose, rfl, -⟩ | ⟨hne, -⟩ | ⟨hne, -⟩ | ⟨-, hne, -⟩ :=
      continuation_ok h
    · cases hne
    · have hmember := whole_reads hg hmember
      exact .brackets (p := .bracketClose) rfl hkind hmember.balanced hclose
    · cases hne
    · cases hne
    · exact absurd rfl hne
  · obtain ⟨heq, -⟩ | ⟨heq, -⟩ | ⟨-, _, u, _, hconsequent, hcolon, halternate, -⟩ | ⟨-, _, he, -⟩
      | ⟨-, -, -, -, -, _, hright, -⟩ := continuation_ok h
    · exact absurd heq hcall
    · exact absurd heq hcomputed
    · have hconsequent := (one hplain).append (whole_reads hg hconsequent).balanced
      have hcolon : Reads c.token u.position u.advanced.position := .single (hcolon ▸ rfl)
      have halternate := hg.expr halternate
      exact (hconsequent.append hcolon.balanced).append halternate.balanced
    · exact (one hplain).append (memberAccess_reads he).balanced
    · exact (one hplain).append (hg.expr hright).balanced

/-- An operator that binds tightly enough goes on behind an operand. -/
theorem climb_following {mode : ExprMode} {left : Expr} {inserted : Bool} (n : Nat) {op : Operator}
    (hkind : Operator.following? (c.token s.position).kind = some op)
    (hstop : (c.token s.position).kind ∉ mode.stops) (hleast : mode.least ≤ op.precedence) :
    climb g mode left inserted (n + 1) c s
      = (continuation g mode s.position op left >>= fun found =>
          climb g mode found.1 (inserted || found.2) n) c s.advanced := by
  rw [climb, position_bind, next_bind, ite_run, if_neg (by simpa using hstop),
    update?_of_following? hkind, hkind]
  show (if op.precedence < mode.least then _ else _ : Parser (Expr × Bool)) c _ = _
  rw [if_neg (Nat.not_lt.2 hleast)]

/-- What follows an operand ends, or goes on with an update, or with another operator. -/
theorem climb_ok {mode : ExprMode} {left : Expr} {inserted : Bool} {n : Nat} {a : Expr × Bool}
    (h : climb g mode left inserted (n + 1) c s = .ok a t) :
    (s.SamePlace t ∧ a.1 = left)
      ∨ (∃ op, Operator.update? (c.token s.position).kind = some op
          ∧ climb g mode (.update (left.span ∪ (c.token s.position).span) op left) inserted n c
              s.advanced = .ok a t)
      ∨ ∃ op longer inside u, Operator.following? (c.token s.position).kind = some op
          ∧ continuation g mode s.position op left c s.advanced = .ok (longer, inside) u
          ∧ climb g mode longer (inserted || inside) n c u = .ok a t := by
  have stop {b : Bool} (h : (do
      restore s.position
      return (left, b) : Parser (Expr × Bool)) c s.advanced = .ok a t) :
      s.SamePlace t ∧ a.1 = left := by
    rw [restore_bind, pure_ok_iff] at h
    obtain ⟨rfl, rfl⟩ := h
    exact ⟨⟨Nat.le_max_left .., rfl, rfl, rfl⟩, rfl⟩
  rw [climb, position_bind, next_bind, ite_run] at h
  split at h
  next => exact .inl (stop h)
  obtain ⟨p, hp, h⟩ := exists_run h
  split at hp
  next op hop =>
    split at hp <;> subst hp
    · exact .inl (stop h)
    · exact .inr (.inl ⟨op, (Option.filter_eq_some_iff.1 hop).1, h⟩)
  next =>
    split at hp
    next op hop =>
      split at hp <;> subst hp
      · exact .inl (stop h)
      · obtain ⟨⟨longer, inside⟩, u, hlonger, h⟩ := bind_ok_iff.1 h
        exact .inr (.inr ⟨op, longer, inside, u, hop, hlonger, h⟩)
    next =>
      split at hp <;> subst hp
      · exact .inl (stop h)
      · exact (fail_ok_iff.1 h).elim

theorem climb_balanced (hg : g.Reading) {mode : ExprMode} {left : Expr} {inserted : Bool} {n : Nat}
    {a : Expr × Bool} (h : climb g mode left inserted n c s = .ok a t) :
    Balanced c.token s.position t.position := by
  induction n generalizing s left inserted with
  | zero => cases h
  | succ n ih =>
    obtain ⟨ht, -⟩ | ⟨_, hop, h⟩ | ⟨_, _, _, u, hop, hlonger, h⟩ := climb_ok h
    · rw [ht.position]
      exact .nil _
    · have hone : Reads c.token s.position s.advanced.position := .single (update?_isPlain hop)
      exact hone.balanced.trans (ih h)
    · exact (continuation_reads hg hop hlonger).balanced.trans (ih h)

/-- **Expressions.** Over rules that read something, an expression reads something. -/
theorem expression_reads (hg : g.Reading) {mode : ExprMode} {a : Expr × Bool}
    (h : expression g mode c s = .ok a t) : Reads c.token s.position t.position := by
  obtain ⟨_, u, hoperand, h⟩ := bind_ok_iff.1 h
  exact (operand_reads hg hoperand).append (climb_balanced hg h)

/-! ### Statements -/

/-- An expression through its semicolon, which is missing where one was inserted. -/
theorem expressionEnd_ok {e : Expr} (h : expressionEnd g c s = .ok e t) :
    ∃ inserted u, g.expr (.statement [.punctuator .semicolon]) c s = .ok (e, inserted) u
      ∧ (u = t ∨ (c.token u.position).kind = .punctuator .semicolon ∧ t = u.advanced) := by
  obtain ⟨⟨value, inserted⟩, u, hvalue, h⟩ := bind_ok_iff.1 h
  dsimp only at h
  rw [ite_run] at h
  split at h
  · obtain ⟨rfl, rfl⟩ := pure_ok_iff.1 h
    exact ⟨inserted, u, hvalue, .inl rfl⟩
  · rw [discard_bind, require_bind_ok_iff, pure_ok_iff] at h
    obtain ⟨hsemicolon, rfl, rfl⟩ := h
    exact ⟨inserted, u, hvalue, .inr ⟨hsemicolon, rfl⟩⟩

theorem expressionEnd_reads (hg : g.Reading) {e : Expr} (h : expressionEnd g c s = .ok e t) :
    Reads c.token s.position t.position := by
  obtain ⟨_, u, hvalue, rfl | ⟨hsemicolon, rfl⟩⟩ := expressionEnd_ok h
  · exact hg.expr hvalue
  · have hone : Balanced c.token u.position u.advanced.position := .single (hsemicolon ▸ rfl)
    exact (hg.expr hvalue).append hone

theorem emptyStatement_reads {a : Stmt} (h : emptyStatement c s = .ok a t) :
    Reads c.token s.position t.position := by
  simp only [emptyStatement, spanned_ok_iff, discard_bind, bind_ok_iff, pure_ok_iff] at h
  obtain ⟨_, ⟨_, _, hsemicolon, -, rfl⟩, -⟩ := h
  exact require_reads hsemicolon rfl

theorem block_reads (hg : g.Reading) {a : Stmt} (h : block g c s = .ok a t) :
    Reads c.token s.position t.position := by
  simp only [block, spanned_ok_iff, bind_ok_iff, pure_ok_iff] at h
  obtain ⟨_, ⟨_, _, hbody, -, rfl⟩, -⟩ := h
  exact blockBody_reads hg hbody

theorem expressionStatement_reads (hg : g.Reading) {a : Stmt}
    (h : expressionStatement g c s = .ok a t) : Reads c.token s.position t.position := by
  simp only [expressionStatement, spanned_ok_iff, bind_ok_iff, pure_ok_iff] at h
  obtain ⟨_, ⟨_, _, hvalue, -, rfl⟩, -⟩ := h
  exact expressionEnd_reads hg hvalue

theorem condition_ok {e : Expr} (h : condition g c s = .ok e t) :
    (c.token s.position).kind = .punctuator .parenthesisOpen
      ∧ ∃ u, g.whole [.punctuator .parenthesisClose] c s.advanced = .ok e u
        ∧ (c.token u.position).kind = .punctuator .parenthesisClose ∧ t = u.advanced := by
  rw [condition, discard_bind, require_bind_ok_iff] at h
  obtain ⟨hopen, h⟩ := h
  simp only [discard_bind, bind_ok_iff, require_ok_iff, pure_ok_iff] at h
  obtain ⟨_, u, hvalue, _, _, ⟨hclose, rfl, rfl⟩, rfl, rfl⟩ := h
  exact ⟨hopen, u, hvalue, hclose, rfl⟩

theorem condition_reads (hg : g.Reading) {e : Expr} (h : condition g c s = .ok e t) :
    Reads c.token s.position t.position := by
  obtain ⟨hopen, u, hvalue, hclose, rfl⟩ := condition_ok h
  have hvalue := whole_reads hg hvalue
  exact .brackets (p := .parenthesisClose) rfl hopen hvalue.balanced hclose

/-- A condition has one branch, or a second one behind `else`. -/
theorem ifStatement_ok {a : Stmt} (h : ifStatement g c s = .ok a t) :
    ∃ test u consequent v alternate, (c.token s.position).kind = .keyword .kIf
      ∧ condition g c s.advanced = .ok test u ∧ g.stmt c u = .ok consequent v
      ∧ a = .ifElse (spanSince c s.position t) test consequent alternate
      ∧ ((alternate = none ∧ v.SamePlace t)
        ∨ ∃ other, (c.token v.position).kind = .keyword .kElse
            ∧ g.stmt c v.advanced = .ok other t ∧ alternate = some other) := by
  simp only [ifStatement, spanned_ok_iff, discard_bind, require_bind_ok_iff] at h
  obtain ⟨make, ⟨hword, h⟩, rfl⟩ := h
  obtain ⟨test, u, htest, h⟩ := bind_ok_iff.1 h
  obtain ⟨consequent, v, hconsequent, h⟩ := bind_ok_iff.1 h
  rw [accept_bind] at h
  split at h
  next helse =>
    simp only [if_true, map_ok_iff, bind_ok_iff, pure_ok_iff] at h
    obtain ⟨_, _, ⟨other, hother, rfl⟩, rfl, rfl⟩ := h
    exact ⟨test, u, consequent, v, some other, hword, htest, hconsequent, rfl,
      .inr ⟨other, helse, hother, rfl⟩⟩
  next =>
    simp only [Bool.false_eq_true, if_false, pure_bind, pure_ok_iff] at h
    obtain ⟨rfl, rfl⟩ := h
    exact ⟨test, u, consequent, v, none, hword, htest, hconsequent, rfl,
      .inl ⟨rfl, (State.SamePlace.refl v).looked 0⟩⟩

theorem ifStatement_reads (hg : g.Reading) {a : Stmt} (h : ifStatement g c s = .ok a t) :
    Reads c.token s.position t.position := by
  obtain ⟨_, u, _, v, _, hword, htest, hconsequent, -, h⟩ := ifStatement_ok h
  have hone : Reads c.token s.position s.advanced.position := .single (hword ▸ rfl)
  have htest := condition_reads hg htest
  have hconsequent := (hone.append htest.balanced).append (hg.stmt hconsequent).balanced
  obtain ⟨-, ht⟩ | ⟨_, helse, hother, -⟩ := h
  · rwa [ht.position]
  · have hword : Reads c.token v.position v.advanced.position := .single (helse ▸ rfl)
    have hother := hg.stmt hother
    exact hconsequent.append (hword.append hother.balanced).balanced

/-- A return has a value or none. -/
theorem returnStatement_ok {a : Stmt} (h : returnStatement g c s = .ok a t) :
    ∃ value u, (c.token s.position).kind = .keyword .kReturn ∧ s.advanced.SamePlace u
      ∧ a = .returnStmt (spanSince c s.position t) value
      ∧ ((value = none ∧ (t = u ∨ t = u.advanced
            ∧ (c.token u.position).kind = .punctuator .semicolon))
        ∨ ∃ e, expressionEnd g c u = .ok e t ∧ value = some e) := by
  simp only [returnStatement, spanned_ok_iff, discard_bind, require_bind_ok_iff] at h
  obtain ⟨make, ⟨hword, h⟩, rfl⟩ := h
  have hlooked := (State.SamePlace.refl s.advanced).looked 0
  rw [peek_bind, ite_run] at h
  split at h
  next =>
    obtain ⟨rfl, rfl⟩ := pure_ok_iff.1 h
    exact ⟨none, _, hword, hlooked, rfl, .inl ⟨rfl, .inl rfl⟩⟩
  next =>
    rw [accept_bind] at h
    split at h
    next hsemicolon =>
      simp only [if_true, pure_ok_iff] at h
      obtain ⟨rfl, rfl⟩ := h
      exact ⟨none, _, hword, hlooked, rfl, .inl ⟨rfl, .inr ⟨rfl, hsemicolon⟩⟩⟩
    next =>
      simp only [Bool.false_eq_true, if_false, bind_ok_iff, pure_ok_iff] at h
      obtain ⟨e, _, he, rfl, rfl⟩ := h
      exact ⟨some e, _, hword, hlooked.looked 0, rfl, .inr ⟨e, he, rfl⟩⟩

theorem returnStatement_reads (hg : g.Reading) {a : Stmt} (h : returnStatement g c s = .ok a t) :
    Reads c.token s.position t.position := by
  obtain ⟨_, u, hword, hu, -, h⟩ := returnStatement_ok h
  have hone : Reads c.token s.position u.position := by
    rw [hu.position]
    exact .single (hword ▸ rfl)
  obtain ⟨-, rfl | ⟨rfl, hsemicolon⟩⟩ | ⟨_, he, -⟩ := h
  · exact hone
  · have hend : Balanced c.token u.position u.advanced.position := .single (hsemicolon ▸ rfl)
    exact hone.append hend
  · exact hone.append (expressionEnd_reads hg he).balanced

theorem throwStatement_ok {a : Stmt} (h : throwStatement g c s = .ok a t) :
    (c.token s.position).kind = .keyword .kThrow ∧ ∃ e,
      expressionEnd g c (s.advanced.looked 0) = .ok e t
        ∧ a = .throwStmt (spanSince c s.position t) e := by
  simp only [throwStatement, spanned_ok_iff, require_bind_ok_iff, peek_bind, ite_run] at h
  obtain ⟨make, ⟨hword, h⟩, rfl⟩ := h
  split at h
  · exact (fail_ok_iff.1 h).elim
  · simp only [bind_ok_iff, pure_ok_iff] at h
    obtain ⟨e, _, he, rfl, rfl⟩ := h
    exact ⟨hword, e, he, rfl⟩

theorem throwStatement_reads (hg : g.Reading) {a : Stmt} (h : throwStatement g c s = .ok a t) :
    Reads c.token s.position t.position := by
  obtain ⟨hword, _, he, -⟩ := throwStatement_ok h
  have hone : Reads c.token s.position s.advanced.position := .single (hword ▸ rfl)
  have he := expressionEnd_reads hg he
  exact hone.append he.balanced

theorem whileStatement_reads (hg : g.Reading) {a : Stmt} (h : whileStatement g c s = .ok a t) :
    Reads c.token s.position t.position := by
  simp only [whileStatement, spanned_ok_iff, discard_bind, bind_ok_iff, pure_ok_iff] at h
  obtain ⟨_, ⟨_, _, hword, _, _, htest, _, _, hbody, -, rfl⟩, -⟩ := h
  exact ((require_reads hword rfl).append (condition_reads hg htest).balanced).append
    (hg.stmt hbody).balanced

/-! ### Declarations -/

theorem declarationKind_ok {k : DeclarationKind} (h : declarationKind c s = .ok k t) :
    (c.token s.position).kind.isPlain ∧ (c.token s.position).kind ≠ .privateName
      ∧ t = s.advanced := by
  rw [declarationKind, next_bind] at h
  obtain ⟨p, hp, h⟩ := exists_run h
  split at hp
  next hkind =>
    subst hp
    exact ⟨hkind ▸ rfl, hkind ▸ TokenKind.noConfusion, (pure_ok_iff.1 h).2.symm⟩
  next hkind =>
    subst hp
    exact ⟨hkind ▸ rfl, hkind ▸ TokenKind.noConfusion, (pure_ok_iff.1 h).2.symm⟩
  next hkind =>
    subst hp
    exact ⟨hkind ▸ rfl, hkind ▸ TokenKind.noConfusion, (pure_ok_iff.1 h).2.symm⟩
  next =>
    subst hp
    exact (fail_ok_iff.1 h).elim

theorem declarationKind_reads {k : DeclarationKind} (h : declarationKind c s = .ok k t) :
    Reads c.token s.position t.position := by
  obtain ⟨hplain, -, rfl⟩ := declarationKind_ok h
  exact .single hplain

/-- A declared name has a value or none. -/
theorem declarator_ok {a : Declarator × Bool} (h : declarator g c s = .ok a t) :
    ∃ name u, identifier c s = .ok name u
      ∧ ((a = (.mk name none, false) ∧ u.SamePlace t)
        ∨ ∃ value, (c.token u.position).kind = .punctuator .equals
            ∧ g.expr (.assignment [.punctuator .semicolon, .punctuator .comma]) c u.advanced
                = .ok (value, a.2) t ∧ a.1 = .mk name (some value)) := by
  obtain ⟨name, u, hname, h⟩ := bind_ok_iff.1 h
  refine ⟨name, u, hname, ?_⟩
  rw [accept_bind] at h
  split at h
  next hequals =>
    simp only [if_true, bind_ok_iff, pure_ok_iff] at h
    obtain ⟨value, _, hvalue, rfl, rfl⟩ := h
    exact .inr ⟨value.1, hequals, hvalue, rfl⟩
  next =>
    simp only [Bool.false_eq_true, if_false, pure_ok_iff] at h
    obtain ⟨rfl, rfl⟩ := h
    exact .inl ⟨rfl, (State.SamePlace.refl u).looked 0⟩

theorem declarator_reads (hg : g.Reading) {a : Declarator × Bool}
    (h : declarator g c s = .ok a t) : Reads c.token s.position t.position := by
  obtain ⟨_, u, hname, ⟨-, ht⟩ | ⟨_, hequals, hvalue, -⟩⟩ := declarator_ok h
  · rw [ht.position]
    exact identifier_reads hname
  · have hone : Reads c.token u.position u.advanced.position := .single (hequals ▸ rfl)
    have hvalue := hg.expr hvalue
    exact (identifier_reads hname).append (hone.append hvalue.balanced).balanced

/-- Behind a declarator the declaration ends, or a comma follows and more of them. -/
theorem declarators_ok {n : Nat} {ds : List Declarator}
    (h : declarators g (n + 1) c s = .ok ds t) :
    ∃ first inserted u, declarator g c s = .ok (first, inserted) u
      ∧ ((ds = [first] ∧ (u.SamePlace t
            ∨ (c.token u.position).kind = .punctuator .semicolon ∧ t = u.advanced))
        ∨ ∃ rest v, u.SamePlace v ∧ (c.token v.position).kind = .punctuator .comma
            ∧ declarators g n c v.advanced = .ok rest t ∧ ds = first :: rest) := by
  obtain ⟨⟨first, inserted⟩, u, hfirst, h⟩ := bind_ok_iff.1 h
  refine ⟨first, inserted, u, hfirst, ?_⟩
  have hlooked := (State.SamePlace.refl u).looked 0
  dsimp only at h
  rw [accept_bind] at h
  split at h
  next hsemicolon =>
    simp only [if_true, pure_ok_iff] at h
    obtain ⟨rfl, rfl⟩ := h
    exact .inl ⟨rfl, .inr ⟨hsemicolon, rfl⟩⟩
  next =>
    simp only [Bool.false_eq_true, if_false, ite_run, peek_bind] at h
    split at h
    · obtain ⟨rfl, rfl⟩ := pure_ok_iff.1 h
      exact .inl ⟨rfl, .inl hlooked⟩
    split at h
    · obtain ⟨rfl, rfl⟩ := pure_ok_iff.1 h
      exact .inl ⟨rfl, .inl (hlooked.looked 0)⟩
    · rw [discard_bind, require_bind_ok_iff] at h
      simp only [bind_ok_iff, pure_ok_iff] at h
      obtain ⟨hcomma, rest, _, hrest, rfl, rfl⟩ := h
      exact .inr ⟨rest, _, hlooked.looked 0, hcomma, hrest, rfl⟩

theorem declarators_reads (hg : g.Reading) {n : Nat} {ds : List Declarator}
    (h : declarators g n c s = .ok ds t) : Reads c.token s.position t.position := by
  induction n generalizing s ds with
  | zero => cases h
  | succ n ih =>
    obtain ⟨_, _, u, hfirst, ⟨-, ht | ⟨hsemicolon, rfl⟩⟩ | ⟨_, v, hv, hcomma, hrest, -⟩⟩ :=
      declarators_ok h
    · rw [ht.position]
      exact declarator_reads hg hfirst
    · have hone : Balanced c.token u.position u.advanced.position := .single (hsemicolon ▸ rfl)
      exact (declarator_reads hg hfirst).append hone
    · have hone : Reads c.token v.position v.advanced.position := .single (hcomma ▸ rfl)
      have hrest := (hone.append (ih hrest).balanced).balanced
      rw [hv.position] at hrest
      exact (declarator_reads hg hfirst).append hrest

theorem variableDeclaration_reads (hg : g.Reading) {a : Stmt}
    (h : variableDeclaration g c s = .ok a t) : Reads c.token s.position t.position := by
  simp only [variableDeclaration, spanned_ok_iff, bind_ok_iff, pure_ok_iff] at h
  obtain ⟨_, ⟨_, _, hkind, _, _, hfound, -, rfl⟩, -⟩ := h
  exact (declarationKind_reads hkind).append (declarators_reads hg hfound).balanced

/-- A function declaration has a name. -/
theorem functionDeclaration_ok {a : Stmt} (h : functionDeclaration g c s = .ok a t) :
    ∃ async u generator v name w func, accept (.keyword .kAsync) c s = .ok async u
      ∧ (c.token u.position).kind = .keyword .kFunction
      ∧ accept (.punctuator .asterisk) c u.advanced = .ok generator v
      ∧ definitionName? { c with names := .script } v = .ok (some name) w
      ∧ functionRest g async generator c w = .ok func t
      ∧ a = .functionDecl (spanSince c s.position t) name func := by
  simp only [functionDeclaration, spanned_ok_iff] at h
  obtain ⟨make, h, rfl⟩ := h
  obtain ⟨async, u, hasync, h⟩ := bind_ok_iff.1 h
  obtain ⟨hword, h⟩ := require_bind_ok_iff.1 h
  obtain ⟨generator, v, hgenerator, h⟩ := bind_ok_iff.1 h
  obtain ⟨name, w, hname, h⟩ := bind_ok_iff.1 h
  cases name with
  | none => exact (fail_ok_iff.1 h).elim
  | some name =>
    simp only [bind_ok_iff, pure_ok_iff] at h
    obtain ⟨func, _, hfunc, rfl, rfl⟩ := h
    exact ⟨async, u, generator, v, name, w, func, hasync, hword, hgenerator, hname, hfunc, rfl⟩

theorem functionDeclaration_reads (hg : g.Reading) {a : Stmt}
    (h : functionDeclaration g c s = .ok a t) : Reads c.token s.position t.position := by
  obtain ⟨_, u, _, v, _, w, _, hasync, hword, hgenerator, hname, hfunc, -⟩ :=
    functionDeclaration_ok h
  have hone : Reads c.token u.position u.advanced.position := .single (hword ▸ rfl)
  have hgenerator := accept_balanced hgenerator rfl
  have hname := definitionName?_balanced hname
  have hword := (hone.append hgenerator).prepend (accept_balanced hasync rfl)
  exact (hword.append hname).append (functionRest_reads hg hfunc).balanced

theorem classDeclaration_reads (hg : g.Reading) {a : Stmt} (h : classDeclaration g c s = .ok a t) :
    Reads c.token s.position t.position := by
  simp only [classDeclaration, spanned_ok_iff, require_bind_ok_iff] at h
  obtain ⟨_, ⟨hword, h⟩, -⟩ := h
  obtain ⟨u, v, h, hu, ht⟩ := inClass_position h
  obtain ⟨name, w, hname, h⟩ := bind_ok_iff.1 h
  cases name with
  | none => exact (fail_ok_iff.1 h).elim
  | some name =>
    simp only [bind_ok_iff, pure_ok_iff] at h
    obtain ⟨_, _, htail, -, rfl⟩ := h
    have hone : Reads c.token s.position s.advanced.position := .single (hword ▸ rfl)
    have hname := definitionName?_balanced hname
    rw [hu] at hname
    rw [ht]
    exact (hone.append hname).append (classTail_reads hg htail).balanced

/-- A statement is of one of ten sorts. -/
theorem statement_ok {a : Stmt} (h : statement g c s = .ok a t) :
    ∃ u, s.SamePlace u
      ∧ (block g c u = .ok a t ∨ classDeclaration g c u = .ok a t
        ∨ variableDeclaration g c u = .ok a t ∨ functionDeclaration g c u = .ok a t
        ∨ ifStatement g c u = .ok a t ∨ returnStatement g c u = .ok a t
        ∨ throwStatement g c u = .ok a t ∨ whileStatement g c u = .ok a t
        ∨ emptyStatement c u = .ok a t ∨ expressionStatement g c u = .ok a t) := by
  rw [statement, look_bind, look_bind] at h
  refine ⟨_, ((State.SamePlace.refl s).looked 0).looked 1, ?_⟩
  obtain ⟨p, hp, h⟩ := exists_run h
  split at hp <;> subst hp
  case h_5 =>
    rw [nameRules_bind, ite_run] at h
    split at h <;> simp only [h, true_or, or_true]
  case h_6 =>
    rw [ite_run] at h
    split at h <;> simp only [h, true_or, or_true]
  all_goals simp only [h, true_or, or_true]

/-- **Statements.** Over rules that read something, a statement reads something. -/
theorem statement_reads (hg : g.Reading) {a : Stmt} (h : statement g c s = .ok a t) :
    Reads c.token s.position t.position := by
  obtain ⟨u, hu, h⟩ := statement_ok h
  rw [← hu.position]
  obtain h | h | h | h | h | h | h | h | h | h := h
  · exact block_reads hg h
  · exact classDeclaration_reads hg h
  · exact variableDeclaration_reads hg h
  · exact functionDeclaration_reads hg h
  · exact ifStatement_reads hg h
  · exact returnStatement_reads hg h
  · exact throwStatement_reads hg h
  · exact whileStatement_reads hg h
  · exact emptyStatement_reads h
  · exact expressionStatement_reads hg h

end Grammar

/-- A script is read as its statements, which end at the end of the text. -/
theorem Grammar.script_ok {g : Rules} {c : Context} {p : Program} {s t : State}
    (h : Grammar.script g c s = .ok p t) :
    ∃ u, Grammar.statements g .eof g.budget { c with names := .script } s = .ok p.body u
      ∧ (c.token u.position).kind = .eof ∧ u.advanced.SamePlace t
      ∧ p.span = ⟨0, c.sourceLength⟩ := by
  simp only [Grammar.script, withNames_run, discard_bind, bind_ok_iff, require_ok_iff, report_run,
    read_bind, pure_ok_iff] at h
  obtain ⟨body, u, hbody, _, _, ⟨heof, -, rfl⟩, _, _, hreport, rfl, rfl⟩ := h
  injection hreport with _ hreport
  subst hreport
  exact ⟨u, hbody, heof, ⟨Nat.le_refl _, rfl, rfl, rfl⟩, rfl⟩

/-- The state in which a whole text is begun. -/
def Context.begun (c : Context) : State :=
  { State.initial with
    trace := State.initial.trace.push (.beginScript c.options.edition c.options.classFields) }

/-- A run over a whole text is that of the script, but for what is reported in the end. -/
theorem runScript_run (c : Context) :
    runScript c = match Grammar.script (.within c.budget) c c.begun with
      | .ok p t => .ok p { t with trace := t.trace.push .endScript }
      | .error (.error e) t => .error (.error e) { t with trace := t.trace.push .endScript }
      | .error .exhausted t => .error .exhausted t := by
  simp only [runScript, report_bind, attempt_bind, Context.begun]
  cases Grammar.script (.within c.budget) c _ with
  | ok p t => rfl
  | error e t => cases e <;> rfl

/-- A script that could be read is its statements, through the end of the text. -/
theorem runScript_ok {c : Context} {p : Program} {t : State} (h : runScript c = .ok p t) :
    ∃ s u, State.initial.SamePlace s
      ∧ Grammar.statements (.within c.budget) .eof (Rules.within c.budget).budget
          { c with names := .script } s = .ok p.body u
      ∧ (c.token u.position).kind = .eof ∧ u.advanced.SamePlace t
      ∧ p.span = ⟨0, c.sourceLength⟩ := by
  rw [runScript_run] at h
  split at h
  next program v hscript =>
    injection h with hp ht
    subst hp ht
    obtain ⟨u, hbody, heof, hu, hspan⟩ := Grammar.script_ok hscript
    have hbegun : State.initial.SamePlace c.begun := ⟨Nat.le_refl _, rfl, rfl, rfl⟩
    exact ⟨c.begun, u, hbegun, hbody, heof, ⟨hu.seen, hu.position, hu.scopes, hu.inInitializer⟩,
      hspan⟩
  next => cases h
  next => cases h

/-- The tree of a source text is what the run over its tokens gives. -/
theorem runScript_of_parse {source : String} {options : Options} {p : Program}
    (h : parse source options = .ok p) :
    ∃ t, runScript (.ofSource source options.classFields options) = .ok p t := by
  rw [parse, parseTraced] at h
  split at h
  next program t hrun =>
    obtain rfl := Except.ok.inj h
    exact ⟨t, hrun⟩
  next => cases h

theorem Rules.within_budget (n : Nat) : (within n).budget = n := by
  cases n with
  | zero => rfl
  | succ n => rfl

/-- **Every budget.** Whatever the budget is, a statement and an expression have read balanced
tokens, one at least, when they succeed. -/
theorem Rules.within_reading (n : Nat) : (Rules.within n).Reading := by
  induction n with
  | zero => exact ⟨fun h => (nomatch h), fun h => (nomatch h)⟩
  | succ n ih => exact ⟨Grammar.statement_reads ih, Grammar.expression_reads ih⟩

end EcmaScript

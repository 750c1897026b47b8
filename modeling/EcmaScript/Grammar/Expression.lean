import EcmaScript.Grammar.Arrow
import EcmaScript.Grammar.Class

namespace EcmaScript.Grammar

open EcmaScript.Parser

/-!
# Expressions

An expression is an operand and what follows it, read by how tightly operators bind.

* `operand` — what an expression begins with: an operator before an operand, an arrow function, a
  name, a literal, or something in parentheses;
* `continuation` — what one operator adds to the expression on its left;
* `climb` — goes on as long as operators bind tightly enough;
* `expression` — an operand, and what follows it.

With each expression comes whether a semicolon was inserted behind it.
-/

/-! ### Parts of expressions -/

/-- The arguments of a call, through the closing parenthesis. -/
def callArguments (g : Rules) : Parser (List Arg) :=
  g.list (.punctuator .parenthesisClose) do
    let spread ← accept (.punctuator .dotDotDot)
    let value ← g.whole [.punctuator .comma, .punctuator .parenthesisClose]
    return fun span => .mk span spread value

/-- A variable. -/
def variableUse : Parser Expr := spanned do
  let name ← variableName
  return fun span => .ident span name

/-- The word `super`. -/
def superReference : Parser Expr := spanned do
  discard <| require (.keyword .kSuper)
  return fun span => .superRef span

/-- The word `this`. -/
def thisReference : Parser Expr := spanned do
  discard <| require (.keyword .kThis)
  return fun span => .thisRef span

/-- What can be assigned to: variables and members. -/
def isAssignable : Expr → Bool
  | .ident .. | .member .. | .computedMember .. | .privateMember .. => true
  | _ => false

/-- Refuses the left side of an assignment that cannot be assigned to. -/
def checkAssignable (target : Expr) : Parser Unit :=
  if isAssignable target then pure ()
  else fail ⟨.invalidAssignmentTarget, target.span, none⟩

/-- A member with a private name may not be deleted, in parentheses or not. -/
def checkDelete (op : Token) (argument : Expr) : Parser Unit :=
  match argument with
  | .privateMember .. => fail (op.error .privateDeleteForbidden)
  | _ => pure ()

/-! ### Operators before an operand -/

/-- The operator that begins an expression; `await` and `yield` are operators only where they cannot
be names. -/
def leadingOperator? (rules : NameRules) (kind : TokenKind) : Option Operator :=
  (Operator.leading? kind).filter fun
    | .await => !rules.awaitAllowed
    | .yield => !rules.yieldAllowed
    | _ => true

/-- Does `yield` stand without an operand before this token? -/
def endsYield (stops : List TokenKind) (t : Token) : Bool :=
  t.newlineBefore || stops.contains t.kind
    || match t.kind with
      | .eof | .punctuator .semicolon | .punctuator .comma | .punctuator .parenthesisClose
      | .punctuator .bracketClose | .punctuator .braceClose | .punctuator .colon => true
      | _ => false

/-- The operand of `yield` where it has none. -/
def missingOperand (op : Token) : Expr := .ident op.span "undefined"

/-- An operator and its operand. -/
def unary (g : Rules) (mode : ExprMode) (leading : Operator) : Parser (Expr × Bool) := do
  let start ← position
  let token ← next
  let op ←
    if leading = .yield then
      pure (if ← accept (.punctuator .asterisk) then .yieldDelegated else .yield)
    else pure leading
  let following ← peek
  let (argument, inserted) ←
    if op = .yield && endsYield mode.stops following then pure (missingOperand token, false)
    else g.expr { mode with least := op.operandPrecedence }
  if op = .delete then checkDelete token argument
  return (.unary (← since start) op argument, inserted)

/-! ### Operands -/

/-- What begins with `async` as a modifier: an arrow function or a function. In `async (x)` the
word may also be the name of a function that is called, so the parameters are tried first. -/
def asyncOperand? (g : Rules) (stops : List TokenKind) (first second third : Token) :
    Parser (Option Expr) := do
  if first.kind ≠ .keyword .kAsync || second.newlineBefore then return none
  else if second.kind = .punctuator .parenthesisOpen then
    let start ← position
    discard next
    let found ← attempt (arrowParameters g true)
    restore start
    match found with
    | .ok _ => return some (← arrowFunction g stops)
    -- Whatever was wrong, the word is then a name, and what follows it are arguments.
    | .error _ => return none
  else if second.kind = .keyword .kFunction then return some (← functionExpression g)
  else if (← nameRules).allows second.kind && third.kind = arrowKind then
    return some (← arrowFunction g stops)
  else return none

/-- What begins with a token that is no name. -/
def atom (g : Rules) (mode : ExprMode) (first : Token) : Parser (Expr × Bool) :=
  match first.kind with
  | .punctuator .bracketOpen => return (← arrayLiteral g, false)
  | .punctuator .braceOpen => return (← objectLiteral g, false)
  | .keyword .kClass => return (← classExpression g, false)
  | .keyword .kFunction => return (← functionExpression g, false)
  | .keyword .kSuper => do
    checkSuper first
    return (← superReference, false)
  | .keyword .kThis => return (← thisReference, false)
  | .keyword .kTrue => return (← boolLiteral, false)
  | .keyword .kFalse => return (← boolLiteral, false)
  | .keyword .kNull => return (← nullLiteral, false)
  | .number => return (← numberLiteral, false)
  | .string => return (← stringLiteral, false)
  | .punctuator .parenthesisOpen => arrowOrGrouping g mode.stops mode.insertion
  | _ => fail (first.misplaced (.expected "expression operand"))

/-- What an expression begins with. -/
def operand (g : Rules) (mode : ExprMode) : Parser (Expr × Bool) := do
  let first ← look 0
  let second ← look 1
  let third ← look 2
  let rules ← nameRules
  match leadingOperator? rules first.kind with
  | some op => unary g mode op
  | none =>
    match ← asyncOperand? g mode.stops first second third with
    | some found => return (found, false)
    | none =>
      if rules.allows first.kind then
        if second.kind = arrowKind then return (← arrowFunction g mode.stops, false)
        else return (← variableUse, false)
      else atom g mode first

/-! ### Operators behind an operand -/

/-- A member, after the point. -/
def memberAccess (object : Expr) : Parser Expr := do
  let t ← peek
  match t.kind with
  | .privateName =>
    let name ← privateName
    usePrivate name
    return .privateMember (object.span ∪ name.span) object name
  | .identifier | .keyword _ =>
    discard next
    let name ← identifierText t
    checkArguments t name
    return .member (object.span ∪ t.span) object name
  | _ => fail (t.misplaced (.expected "member access property"))

/-- What an operator, which has been read at `start`, adds to the expression on its left. -/
def continuation (g : Rules) (mode : ExprMode) (start : Nat) (op : Operator) (left : Expr) :
    Parser (Expr × Bool) := do
  match op with
  | .call =>
    let arguments ← callArguments g
    return (.call (left.span ∪ (← since start)) left arguments, false)
  | .computedMemberAccess =>
    let member ← g.whole [.punctuator .bracketClose]
    let close ← require (.punctuator .bracketClose)
    return (.computedMember (left.span ∪ close.span) left member, false)
  | .conditional =>
    let consequent ← g.whole [.punctuator .colon]
    discard <| require (.punctuator .colon)
    let (alternate, inserted) ←
      g.expr { mode with least := Operator.conditionalAlternate.precedence }
    return (.conditional (left.span ∪ alternate.span) left consequent alternate, inserted)
  | .memberAccess => return (← memberAccess left, false)
  | _ =>
    if op.isAssignment then checkAssignable left
    let (right, inserted) ← g.expr { mode with least := op.operandPrecedence }
    return (.binary (left.span ∪ right.span) op left right, inserted)

/-- Can a semicolon be inserted before this token? -/
def allowsInsertion (t : Token) : Bool :=
  t.newlineBefore || t.kind = .punctuator .braceClose || t.kind = .eof

/-- Goes on behind an expression as long as operators bind tightly enough. A token that is no
operator ends it where a semicolon may be inserted, and is an error elsewhere. -/
def climb (g : Rules) (mode : ExprMode) (left : Expr) (inserted : Bool) :
    Nat → Parser (Expr × Bool)
  | 0 => exhausted
  | fuel + 1 => do
    let start ← position
    let t ← next
    if mode.stops.contains t.kind then
      restore start
      return (left, inserted)
    else
      -- Behind a line break `++` and `--` belong to the next statement.
      match (Operator.update? t.kind).filter fun _ => !t.newlineBefore with
      | some op =>
        if op.precedence < mode.least then
          restore start
          return (left, inserted)
        else climb g mode (.update (left.span ∪ t.span) op left) inserted fuel
      | none =>
        match Operator.following? t.kind with
        | some op =>
          if op.precedence < mode.least then
            restore start
            return (left, inserted)
          else
            let (longer, insertedInside) ← continuation g mode start op left
            climb g mode longer (inserted || insertedInside) fuel
        | none =>
          if mode.insertion && allowsInsertion t then
            restore start
            return (left, true)
          else fail (t.misplaced .unexpectedToken)

/-- An expression. -/
def expression (g : Rules) (mode : ExprMode) : Parser (Expr × Bool) := do
  let (first, inserted) ← operand g mode
  climb g mode first inserted g.budget

end EcmaScript.Grammar

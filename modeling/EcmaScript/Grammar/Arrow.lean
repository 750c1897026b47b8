import EcmaScript.Grammar.Function

namespace EcmaScript.Grammar

open EcmaScript.Parser

/-!
# Arrow functions

An opening parenthesis may begin the parameters of an arrow function or an expression in
parentheses. The parameters are tried first, up to the arrow; if they cannot be read, the text is
read again.

* `arrowParameters` — parameters through the arrow;
* `arrowFunction` — a whole arrow function;
* `grouping` — an expression in parentheses;
* `arrowOrGrouping` — whichever of the two stands here.
-/

/-- The kind of the arrow. -/
def arrowKind : TokenKind := .punctuator .equalsChevronRight

/-- The parameters of an arrow function, or its only one without parentheses, and the arrow, which
has to stand on the same line. -/
def arrowParameters (g : Rules) (async : Bool) : Parser (List Param) := do
  let params ← withNames (·.forAsync async) do
    let first ← look 0
    let second ← look 1
    if (← nameRules).allows first.kind && second.kind = arrowKind then
      let name ← identifier
      return [.mk name.span false name none]
    else parameters g
  let arrow ← require arrowKind
  if arrow.newlineBefore then fail (arrow.error .lineTerminatorAfterArrowParameters)
  else return params

/-- The body of an arrow function: statements in braces, or the value, which a comma ends. -/
def arrowBody (g : Rules) (stops : List TokenKind) : Parser FuncBody := do
  if (← peek).kind = .punctuator .braceOpen then return .block (← blockBody g)
  else return .expr (← g.expr (.assignment stops)).1

/-- An arrow function. In `async => 1` the word is the parameter. -/
def arrowFunction (g : Rules) (stops : List TokenKind) : Parser Expr := spanned do
  let second ← look 1
  let async ← if second.kind = arrowKind then pure false else accept (.keyword .kAsync)
  let params ← arrowParameters g async
  let body ← withNames (·.forAsync async) (arrowBody g stops)
  return fun span => .arrow span (.mk span true async false params body)

/-- An expression in parentheses, which leave no trace. -/
def grouping (g : Rules) (insertion : Bool) : Parser (Expr × Bool) := do
  discard <| require (.punctuator .parenthesisOpen)
  let found ← g.expr ⟨Operator.comma.precedence, [.punctuator .parenthesisClose], insertion⟩
  discard <| require (.punctuator .parenthesisClose)
  return found

/-- An arrow function, or an expression in parentheses. Once the arrow is seen there is no way
back: if only the line break before it is wrong, that is the error. -/
def arrowOrGrouping (g : Rules) (stops : List TokenKind) (insertion : Bool) :
    Parser (Expr × Bool) := do
  let start ← position
  match ← attempt (arrowParameters g false) with
  | .ok _ =>
    -- The parameters are read a second time, now with the body behind them.
    restore start
    return (← arrowFunction g stops, false)
  | .error e =>
    if e.cause = .lineTerminatorAfterArrowParameters then fail e
    else
      restore start
      grouping g insertion

end EcmaScript.Grammar

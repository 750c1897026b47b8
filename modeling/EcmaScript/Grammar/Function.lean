import EcmaScript.Grammar.Name
import EcmaScript.Grammar.Rules

namespace EcmaScript.Grammar

open EcmaScript.Parser

/-!
# Functions

* `parameters` — a list of parameters in parentheses;
* `blockBody` — statements in braces;
* `functionRest` — parameters and body of a function that is no arrow function;
* `methodRest` — the same for a method, whose kind limits its parameters;
* `functionExpression` — a function as an expression.
-/

/-- A parameter: a rest mark, a name, a default value. -/
def parameter (g : Rules) : Parser (Span → Param) := do
  let rest ← accept (.punctuator .dotDotDot)
  let name ← identifier
  let default ←
    if ← accept (.punctuator .equals) then
      some <$> g.whole [.punctuator .comma, .punctuator .parenthesisClose]
    else pure none
  return fun span => .mk span rest name default

/-- Parameters in parentheses. -/
def parameters (g : Rules) : Parser (List Param) := do
  discard <| require (.punctuator .parenthesisOpen)
  g.list (.punctuator .parenthesisClose) (parameter g)

/-- Statements up to a token that ends them, or the end of the text. -/
def statements (g : Rules) (stop : TokenKind) : Nat → Parser (List Stmt)
  | 0 => exhausted
  | fuel + 1 => do
    let t ← peek
    if t.kind = stop || t.kind = .eof then return []
    else
      let first ← g.stmt
      let rest ← statements g stop fuel
      return first :: rest

/-- Statements in braces. -/
def blockBody (g : Rules) : Parser (List Stmt) := do
  discard <| require (.punctuator .braceOpen)
  let body ← statements g (.punctuator .braceClose) g.budget
  discard <| require (.punctuator .braceClose)
  return body

/-- Parameters and body of a function. Its own words decide what may be a name in them. -/
def functionRest (g : Rules) (async generator : Bool) : Parser Func :=
  withNames (fun rules => (rules.forAsync async).forGenerator generator) <| spanned do
    let params ← parameters g
    let body ← blockBody g
    return fun span => .mk span false async generator params (.block body)

/-- Parameters and body of a method: a getter has no parameter, and a setter one that is no rest
parameter. -/
def methodRest (g : Rules) (kind : MethodKind) (async generator : Bool) : Parser Func := do
  let func ← functionRest g async generator
  let wrong (what : String) : Parser Func := fail ⟨.expected what, func.span, none⟩
  -- Only the number of parameters is wrong, so the body has been read already.
  match kind, func.params with
  | .get, [] => return func
  | .get, _ => wrong "getter without parameters"
  | .set, [p] => if p.rest then wrong "setter with exactly one parameter" else return func
  | .set, _ => wrong "setter with exactly one parameter"
  | _, _ => return func

/-- A function as an expression; its name may be missing. -/
def functionExpression (g : Rules) : Parser Expr := spanned do
  let async ← accept (.keyword .kAsync)
  discard <| require (.keyword .kFunction)
  let generator ← accept (.punctuator .asterisk)
  let name ← definitionName?
  let func ← functionRest g async generator
  return fun span => .functionExpr span name func

end EcmaScript.Grammar

import EcmaScript.Grammar.Rules
import EcmaScript.Number.Literal
import EcmaScript.Text.Escape

namespace EcmaScript.Grammar

open EcmaScript.Parser

/-!
# Literals

* `numberValue`, `stringValue` — what a number and a string stand for;
* `numberLiteral`, `stringLiteral`, `boolLiteral`, `nullLiteral` — literals of one token;
* `arrayLiteral` — elements with commas between them, where elements may be missing.
-/

/-- The value of a number. -/
def numberValue : Parser Number := do
  let t ← require .number
  match Number.ofLiteral? t.text with
  | some value => return value
  | none => fail (t.error .malformedNumber)

/-- The text that a string stands for. -/
def stringValue : Parser String := do
  let t ← require .string
  match Escape.decode? (t.text.toList.drop 1).dropLast with
  | some value => return String.ofList value
  | none => fail (t.error (.expected "valid escape sequence"))

/-- A number. -/
def numberLiteral : Parser Expr := spanned do
  let value ← numberValue
  return fun span => .numberLit span value

/-- A string. -/
def stringLiteral : Parser Expr := spanned do
  let value ← stringValue
  return fun span => .stringLit span value

/-- The word `true` or `false`. -/
def boolLiteral : Parser Expr := spanned do
  let t ← next
  match t.kind with
  | .keyword .kTrue => return fun span => .boolLit span true
  | .keyword .kFalse => return fun span => .boolLit span false
  | _ => fail (t.misplaced (.expected "boolean literal"))

/-- The word `null`. -/
def nullLiteral : Parser Expr := spanned do
  discard <| require (.keyword .kNull)
  return fun span => .nullLit span

/-! ### Arrays -/

/-- The elements of an array, up to the closing bracket. A comma where an element could stand is a
hole; a comma behind an element belongs to the element. -/
def elements (g : Rules) : Nat → Parser (List Element)
  | 0 => exhausted
  | fuel + 1 => do
    if ← accept (.punctuator .comma) then
      let rest ← elements g fuel
      return .hole :: rest
    else if (← peek).kind = .punctuator .bracketClose then return []
    else
      let spread ← accept (.punctuator .dotDotDot)
      let value ← g.whole [.punctuator .comma, .punctuator .bracketClose]
      let element := if spread then Element.rest value else .single value
      if (← peek).kind = .punctuator .bracketClose then return [element]
      else
        discard <| require (.punctuator .comma)
        let rest ← elements g fuel
        return element :: rest

/-- An array in brackets. -/
def arrayLiteral (g : Rules) : Parser Expr := spanned do
  discard <| require (.punctuator .bracketOpen)
  let found ← elements g g.budget
  discard <| require (.punctuator .bracketClose)
  return fun span => .arrayLit span found

end EcmaScript.Grammar

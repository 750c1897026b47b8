import EcmaScript.Parser.Basic
import EcmaScript.Text.Escape

namespace EcmaScript.Grammar

open EcmaScript.Parser

/-!
# Names

* `identifierText` — what an identifier spells;
* `variableName`, `identifier` — a name that is used or bound;
* `definitionName?` — the name of a function or a class;
* `privateName` — a name with its sigil.
-/

/-- What an identifier spells: `\u0061` and `a` are the same name. -/
def identifierText (t : Token) : Parser String :=
  match Escape.decodeName? t.text with
  | some name => pure name
  | none => fail (t.error (.expected "valid escape sequence"))

/-- A name of a variable. -/
def variableName : Parser String := do
  let t ← next
  if (← nameRules).allows t.kind then
    let name ← identifierText t
    checkArguments t name
    return name
  else fail (t.misplaced (.expected "identifier"))

/-- A name of a variable, with its place. -/
def identifier : Parser Ident := spanned do
  let name ← variableName
  return fun span => ⟨span, name⟩

/-- The name of a function or a class, if one stands here. It is taken as it is written. -/
def definitionName? : Parser (Option Ident) := do
  let rules ← nameRules
  return (← acceptIf? fun t => rules.allows t.kind).map fun t => ⟨t.span, t.text⟩

/-- A private name. A sigil without a name is an error at what follows it. -/
def privateName : Parser Ident := do
  let t ← require .privateName
  if t.span.length ≤ 1 then
    let after ← peek
    fail (after.misplaced .unexpectedToken)
  else
    match Escape.decodeName? (String.ofList (t.text.toList.drop 1)) with
    | some name => return ⟨t.span, name⟩
    | none => fail (t.error .unexpectedToken)

end EcmaScript.Grammar

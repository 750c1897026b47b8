import EcmaScript.Grammar.Function
import EcmaScript.Grammar.Literal

namespace EcmaScript.Grammar

open EcmaScript.Parser

/-!
# Members of classes and objects

* `memberKey` — a key: a word, a string, a number, or an expression in brackets;
* `MemberHead`, `memberHead` — the modifiers and the key that a member begins with;
* `objectMember`, `objectLiteral` — the members of an object literal.
-/

/-! ### Keys -/

/-- The text of a key that is spelled out. Every keyword may be a key. -/
def directKeyText (t : Token) : Parser String :=
  match t.kind with
  | .string => stringValue
  | .number => return (← numberValue).display
  | .identifier => do
    let t ← next
    let name ← identifierText t
    checkArguments t name
    return name
  | .keyword _ => return (← next).text
  | _ => fail (t.misplaced .unexpectedToken)

/-- A key that is spelled out. -/
def directKey : Parser DirectKey := spanned do
  let t ← peek
  let text ← directKeyText t
  return fun span => ⟨span, text, t.kind⟩

/-- A key. -/
def memberKey (g : Rules) : Parser Key := do
  if ← accept (.punctuator .bracketOpen) then
    let value ← g.whole [.punctuator .bracketClose]
    discard <| require (.punctuator .bracketClose)
    return .computed value
  else return .direct (← directKey)

/-! ### Modifiers -/

/-- What a member begins with. -/
structure MemberHead where
  static : Bool
  async : Bool
  generator : Bool
  kind : MethodKind
  key : Key

namespace MemberHead

/-- Anything besides the key. -/
def hasModifiers (h : MemberHead) : Bool := h.static || h.async || h.generator || h.kind ≠ .method

end MemberHead

/-- The kinds of tokens before which a modifier word is the member's own name. -/
def endsKey : TokenKind → Bool
  | .punctuator .parenthesisOpen | .punctuator .equals | .punctuator .semicolon
  | .punctuator .braceClose | .punctuator .comma | .punctuator .colon | .eof => true
  | _ => false

/-- Reads a modifier word, unless it is the name of the member; `sameLine` says that what it
modifies has to stand on its line. -/
def modifier (word : Keyword) (sameLine : Bool) : Parser Bool := do
  let first ← look 0
  let second ← look 1
  if first.kind ≠ .keyword word || endsKey second.kind || (sameLine && second.newlineBefore) then
    return false
  else
    discard next
    return true

/-- The words before the key of a method other than `static`: whether it is async or a generator,
or its kind. -/
def methodModifiers : Parser (Bool × Bool × MethodKind) := do
  if ← accept (.punctuator .asterisk) then return (false, true, .method)
  else if ← (do if (← options).supportsAsyncMembers then modifier .kAsync true else pure false) then
    return (true, ← accept (.punctuator .asterisk), .method)
  else if ← modifier .kGet false then return (false, false, .get)
  else if ← modifier .kSet false then return (false, false, .set)
  else return (false, false, .method)

/-- The modifiers and the key of a member; only members of classes may be static. -/
def memberHead (g : Rules) (allowStatic : Bool) : Parser MemberHead := do
  let static ← if allowStatic then modifier .kStatic false else pure false
  let (async, generator, kind) ← methodModifiers
  let key ← memberKey g
  return ⟨static, async, generator, kind, key⟩

/-! ### Object literals -/

/-- A member of an object: a name alone, a method, or a key with a value. -/
def objectMember (g : Rules) : Parser (Span → ObjectMember) := do
  let first ← look 0
  let second ← look 1
  if (← nameRules).allows first.kind
      && (second.kind = .punctuator .comma || second.kind = .punctuator .braceClose) then
    let name ← identifier
    return fun span => .shorthand span name
  else
    let head ← memberHead g false
    let isMethod ←
      if head.hasModifiers then pure true
      else pure ((← peek).kind = .punctuator .parenthesisOpen)
    if isMethod then
      let func ← methodRest g head.kind head.async head.generator
      return fun span => .method span head.key head.kind func
    else
      discard <| require (.punctuator .colon)
      let value ← g.whole [.punctuator .comma, .punctuator .braceClose]
      return fun span => .valued span head.key value

/-- An object in braces. -/
def objectLiteral (g : Rules) : Parser Expr := spanned do
  discard <| require (.punctuator .braceOpen)
  let members ← g.list (.punctuator .braceClose) (objectMember g)
  return fun span => .objectLit span members

end EcmaScript.Grammar

import EcmaScript.Grammar.Member

namespace EcmaScript.Grammar

open EcmaScript.Parser

/-!
# Classes

* `classMemberHead`, `classMethodRest`, `classMethod` — methods, getters, setters, constructors;
* `privateField`, `classElement` — what a class may have besides when fields are on;
* `classBody` — the members of a class in braces;
* `classTail` — what classes have in common as statements and as expressions.
-/

/-! ### Methods -/

/-- The place of a key that makes a member the constructor. -/
def constructorKey? : Key → Option Span
  | .direct key =>
    if key.text = "constructor" && (key.kind = .identifier || key.kind = .string) then some key.span
    else none
  | _ => none

/-- What a member of a class begins with. A constructor is a plain method. -/
def classMemberHead (g : Rules) : Parser MemberHead := do
  let head ← memberHead g true
  match constructorKey? head.key with
  | some span =>
    if head.static then return head
    else if head.hasModifiers then fail ⟨.expected "plain constructor method", span, none⟩
    else return { head with kind := .constructor }
  | none => return head

/-- Parameters and body of a method of a class, after its head. -/
def classMethodRest (g : Rules) (head : MemberHead) : Parser (Span → Member) := do
  let t ← peek
  if t.kind = .punctuator .parenthesisOpen then
    let func ← methodRest g head.kind head.async head.generator
    return fun span => .method span head.key head.static head.kind func
  else fail (t.misplaced .unexpectedToken)

/-- A method of a class. -/
def classMethod (g : Rules) : Parser Member := spanned do
  let head ← classMemberHead g
  classMethodRest g head

/-! ### Fields -/

/-- The value of a field, if it has one. It is a whole expression: `a = 1, b = 2` is one field. -/
def fieldValue? (g : Rules) : Parser (Option Expr) := do
  if ← accept (.punctuator .equals) then
    let (value, _) ← inInitializer <|
      g.expr (.statement [.punctuator .semicolon, .punctuator .braceClose])
    return some value
  else return none

/-- The semicolon behind a field, or a place where one may be inserted. -/
def fieldEnd : Parser Unit := do
  if ← accept (.punctuator .semicolon) then return ()
  else
    let t ← peek
    if t.newlineBefore || t.kind = .punctuator .braceClose || t.kind = .eof then return ()
    else fail (t.misplaced .unexpectedToken)

/-- A field with a private name. -/
def privateField (g : Rules) : Parser Member := do
  let start ← position
  let name ← privateName
  if name.name = "constructor" then fail ⟨.reservedConstructorField, name.span, none⟩
  else
    -- Declared before its value is read, so that the value may use it without waiting.
    declarePrivate name
    let value ← fieldValue? g
    -- The semicolon does not belong to the field.
    let span ← since start
    fieldEnd
    return .field span (.privateName name) false value

/-- Is a member with this head a field? Only a plain member is, when no parameters follow. -/
def isField (head : MemberHead) : Parser Bool := do
  if (← options).supportsFields && head.kind = .method && !head.hasModifiers then
    return (← peek).kind ≠ .punctuator .parenthesisOpen
  else return false

/-- A member of a class that may have fields, or nothing for a semicolon. -/
def classElement? (g : Rules) : Parser (Option Member) := do
  if ← accept (.punctuator .semicolon) then return none
  else if (← peek).kind = .privateName && (← options).supportsFields then
    return some (← privateField g)
  else
    let start ← position
    let head ← classMemberHead g
    if ← isField head then
      report (.publicField head.key.staticName?)
      let value ← fieldValue? g
      let span ← since start
      fieldEnd
      return some (.field span head.key head.key.isComputed value)
    else
      let make ← classMethodRest g head
      return some (make (← since start))

/-! ### Class bodies -/

/-- A member of a class, or nothing for a semicolon. -/
def classItem? (g : Rules) : Parser (Option Member) := do
  if (← options).classFields then classElement? g
  else if ← accept (.punctuator .semicolon) then return none
  else return some (← classMethod g)

/-- Members through the closing brace. -/
def classItems (g : Rules) : Nat → Parser (List Member)
  | 0 => exhausted
  | fuel + 1 => do
    if ← accept (.punctuator .braceClose) then return []
    else
      let first ← classItem? g
      let rest ← classItems g fuel
      return first.toList ++ rest

/-- The members of a class in braces. -/
def classBody (g : Rules) : Parser (List Member) := do
  discard <| require (.punctuator .braceOpen)
  classItems g g.budget

/-- The parent and the members of a class, after its name. -/
def classTail (g : Rules) : Parser (Option Expr × List Member) := do
  let parent ←
    if ← accept (.keyword .kExtends) then some <$> g.whole [.punctuator .braceOpen] else pure none
  let members ← classBody g
  return (parent, members)

/-- A class as an expression; its name may be missing. -/
def classExpression (g : Rules) : Parser Expr := spanned do
  discard <| require (.keyword .kClass)
  inClass do
    let name ← definitionName?
    let (parent, members) ← classTail g
    return fun span => .classExpr span name parent members

end EcmaScript.Grammar

import EcmaScript.Grammar.Expression

namespace EcmaScript.Grammar

open EcmaScript.Parser

/-!
# Statements

* `expressionEnd` — an expression through its semicolon, which may be inserted;
* `block`, `ifStatement`, `whileStatement`, `returnStatement`, `throwStatement`, … — one sort each;
* `variableDeclaration`, `functionDeclaration`, `classDeclaration` — declarations;
* `statement` — chooses among them by the first two tokens.
-/

/-- An expression through its semicolon, or up to where one is inserted. -/
def expressionEnd (g : Rules) : Parser Expr := do
  let (value, inserted) ← g.expr (.statement [.punctuator .semicolon])
  if inserted then return value
  else
    discard <| require (.punctuator .semicolon)
    return value

/-- A semicolon by itself. -/
def emptyStatement : Parser Stmt := spanned do
  discard <| require (.punctuator .semicolon)
  return fun span => .empty span

/-- Statements in braces, as one statement. -/
def block (g : Rules) : Parser Stmt := spanned do
  let body ← blockBody g
  return fun span => .block span body

/-- An expression through its semicolon. -/
def expressionStatement (g : Rules) : Parser Stmt := spanned do
  let value ← expressionEnd g
  return fun span => .expr span value

/-- A condition in parentheses. -/
def condition (g : Rules) : Parser Expr := do
  discard <| require (.punctuator .parenthesisOpen)
  let value ← g.whole [.punctuator .parenthesisClose]
  discard <| require (.punctuator .parenthesisClose)
  return value

/-- A condition with one branch or two. An `else` belongs to the innermost `if` before it. -/
def ifStatement (g : Rules) : Parser Stmt := spanned do
  discard <| require (.keyword .kIf)
  let test ← condition g
  let consequent ← g.stmt
  let alternate ← if ← accept (.keyword .kElse) then some <$> g.stmt else pure none
  return fun span => .ifElse span test consequent alternate

/-- A return, whose value has to begin on the same line. -/
def returnStatement (g : Rules) : Parser Stmt := spanned do
  discard <| require (.keyword .kReturn)
  let t ← peek
  if allowsInsertion t then return fun span => .returnStmt span none
  else if ← accept (.punctuator .semicolon) then return fun span => .returnStmt span none
  else
    let value ← expressionEnd g
    return fun span => .returnStmt span (some value)

/-- A throw, which needs a value on the same line. -/
def throwStatement (g : Rules) : Parser Stmt := spanned do
  let start ← require (.keyword .kThrow)
  if (← peek).newlineBefore then
    fail (start.error (.expected "expression after throw on the same line"))
  else
    let value ← expressionEnd g
    return fun span => .throwStmt span value

/-- A loop with its condition in front. -/
def whileStatement (g : Rules) : Parser Stmt := spanned do
  discard <| require (.keyword .kWhile)
  let test ← condition g
  let body ← g.stmt
  return fun span => .whileLoop span test body

/-! ### Declarations -/

/-- The word that begins a variable declaration. -/
def declarationKind : Parser DeclarationKind := do
  let t ← next
  match t.kind with
  | .keyword .kLet => return .letKind
  | .keyword .kConst => return .constKind
  | .keyword .kVar => return .varKind
  | _ => fail (t.misplaced (.expected "variable declaration"))

/-- A name with or without a value, and whether a semicolon was inserted behind the value. -/
def declarator (g : Rules) : Parser (Declarator × Bool) := do
  let name ← identifier
  if ← accept (.punctuator .equals) then
    let (value, inserted) ←
      g.expr (.assignment [.punctuator .semicolon, .punctuator .comma])
    return (.mk name (some value), inserted)
  else return (.mk name none, false)

/-- Does a declaration end before this token without a semicolon? A comma on the next line still
goes on with it. -/
def endsDeclaration (t : Token) : Bool :=
  t.kind = .eof || t.kind = .punctuator .braceClose
    || (t.newlineBefore && t.kind ≠ .punctuator .comma)

/-- Declarators with commas between them, through the semicolon or up to where one is inserted. -/
def declarators (g : Rules) : Nat → Parser (List Declarator)
  | 0 => exhausted
  | fuel + 1 => do
    let (first, inserted) ← declarator g
    if ← accept (.punctuator .semicolon) then return [first]
    -- The value may have ended at a line break; then what follows is another statement.
    else if inserted then return [first]
    else if endsDeclaration (← peek) then return [first]
    else
      discard <| require (.punctuator .comma)
      let rest ← declarators g fuel
      return first :: rest

/-- A word and its declarators. -/
def variableDeclaration (g : Rules) : Parser Stmt := spanned do
  let kind ← declarationKind
  let found ← declarators g g.budget
  return fun span => .varDecl span kind found

/-- A function with its name, which may be `await` or `yield` whatever the function is. -/
def functionDeclaration (g : Rules) : Parser Stmt := spanned do
  let async ← accept (.keyword .kAsync)
  let start ← require (.keyword .kFunction)
  let generator ← accept (.punctuator .asterisk)
  match ← withNames (fun _ => .script) definitionName? with
  | some name =>
    let func ← functionRest g async generator
    return fun span => .functionDecl span name func
  | none => fail (start.error (.expected "function name"))

/-- A class with its name, which is part of the scope of the class. -/
def classDeclaration (g : Rules) : Parser Stmt := spanned do
  let start ← require (.keyword .kClass)
  inClass do
    match ← definitionName? with
    | some name =>
      let (parent, members) ← classTail g
      return fun span => .classDecl span name parent members
    | none => fail (start.error (.expected "class name"))

/-! ### All sorts of statements -/

/-- A statement. `let` begins a declaration only before a name, and `async` only before `function`
on the same line. -/
def statement (g : Rules) : Parser Stmt := do
  let first ← look 0
  let second ← look 1
  match first.kind with
  | .punctuator .braceOpen => block g
  | .keyword .kClass => classDeclaration g
  | .keyword .kConst => variableDeclaration g
  | .keyword .kVar => variableDeclaration g
  | .keyword .kLet =>
    if (← nameRules).allows second.kind then variableDeclaration g else expressionStatement g
  | .keyword .kAsync =>
    if second.kind = .keyword .kFunction && !second.newlineBefore then functionDeclaration g
    else expressionStatement g
  | .keyword .kFunction => functionDeclaration g
  | .keyword .kIf => ifStatement g
  | .keyword .kReturn => returnStatement g
  | .keyword .kThrow => throwStatement g
  | .keyword .kWhile => whileStatement g
  | .punctuator .semicolon => emptyStatement
  | _ => expressionStatement g

end EcmaScript.Grammar

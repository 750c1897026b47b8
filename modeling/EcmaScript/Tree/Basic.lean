import EcmaScript.Number.Basic
import EcmaScript.Operator
import EcmaScript.Token.Basic

namespace EcmaScript

/-!
# Syntax trees

* `Expr`, `Stmt` — expressions and statements, each with its span;
* `Func`, `FuncBody`, `Param`, `Arg` — what functions, methods and calls are made of;
* `Member`, `ObjectMember`, `Key` — what classes and object literals are made of;
* `Element`, `Declarator` — what array literals and variable declarations are made of;
* `Program` — a whole script.

Parentheses leave no trace in a tree.
-/

/-- A name at a place. -/
structure Ident where
  span : Span
  name : String
deriving DecidableEq, Repr, Inhabited

/-- The key of a member that is spelled out: a name, a keyword, a string or a number. -/
structure DirectKey where
  span : Span
  /-- The key as text, with escapes decoded. -/
  text : String
  /-- The kind of the token that spelled it. -/
  kind : TokenKind
deriving DecidableEq, Repr, Inhabited

/-- What a method is to the class or the object it belongs to. -/
inductive MethodKind where
  | constructor
  | method
  | get
  | set
deriving DecidableEq, Repr, Inhabited

/-- The keyword that begins a variable declaration. -/
inductive DeclarationKind where
  | constKind
  | letKind
  | varKind
deriving DecidableEq, Repr, Inhabited

mutual

/-- Expressions. -/
inductive Expr where
  | arrow (span : Span) (func : Func)
  | binary (span : Span) (op : Operator) (left right : Expr)
  | call (span : Span) (callee : Expr) (arguments : List Arg)
  | classExpr (span : Span) (name : Option Ident) (parent : Option Expr) (members : List Member)
  /-- A member whose name is computed, `object[member]`. -/
  | computedMember (span : Span) (object member : Expr)
  | conditional (span : Span) (test consequent alternate : Expr)
  | functionExpr (span : Span) (name : Option Ident) (func : Func)
  | ident (span : Span) (name : String)
  | member (span : Span) (object : Expr) (name : String)
  | privateMember (span : Span) (object : Expr) (name : Ident)
  | superRef (span : Span)
  | thisRef (span : Span)
  | unary (span : Span) (op : Operator) (argument : Expr)
  /-- An operator behind its operand, `argument++`. -/
  | update (span : Span) (op : Operator) (argument : Expr)
  | arrayLit (span : Span) (elements : List Element)
  | boolLit (span : Span) (value : Bool)
  | nullLit (span : Span)
  | numberLit (span : Span) (value : Number)
  | objectLit (span : Span) (members : List ObjectMember)
  | stringLit (span : Span) (value : String)

/-- Statements. -/
inductive Stmt where
  | block (span : Span) (body : List Stmt)
  | empty (span : Span)
  | expr (span : Span) (value : Expr)
  | ifElse (span : Span) (test : Expr) (consequent : Stmt) (alternate : Option Stmt)
  | returnStmt (span : Span) (value : Option Expr)
  | throwStmt (span : Span) (value : Expr)
  | whileLoop (span : Span) (condition : Expr) (body : Stmt)
  | classDecl (span : Span) (name : Ident) (parent : Option Expr) (members : List Member)
  | functionDecl (span : Span) (name : Ident) (func : Func)
  | varDecl (span : Span) (kind : DeclarationKind) (declarators : List Declarator)

/-- Functions of all sorts: declared, arrows, methods. -/
inductive Func where
  | mk (span : Span) (arrow async generator : Bool) (params : List Param) (body : FuncBody)

/-- The body of a function: statements, or the value of an arrow function. -/
inductive FuncBody where
  | block (body : List Stmt)
  /-- The value of an arrow function. -/
  | expr (value : Expr)

/-- A parameter: its name, whether it takes all that is left, and the value it defaults to. -/
inductive Param where
  | mk (span : Span) (rest : Bool) (name : Ident) (default : Option Expr)

/-- An argument of a call, perhaps one to be spread out. -/
inductive Arg where
  | mk (span : Span) (spread : Bool) (value : Expr)

/-- An element of an array literal. -/
inductive Element where
  | single (value : Expr)
  | rest (value : Expr)
  | hole

/-- The key of a member of a class or an object. -/
inductive Key where
  | direct (key : DirectKey)
  | computed (value : Expr)
  /-- A private name, without its sigil; only fields of classes have such a key. -/
  | privateName (name : Ident)

/-- A member of a class. -/
inductive Member where
  | method (span : Span) (key : Key) (static : Bool) (kind : MethodKind) (func : Func)
  | field (span : Span) (key : Key) (computed : Bool) (value : Option Expr)

/-- A member of an object literal. -/
inductive ObjectMember where
  | valued (span : Span) (key : Key) (value : Expr)
  | method (span : Span) (key : Key) (kind : MethodKind) (func : Func)
  | shorthand (span : Span) (name : Ident)

/-- A name of a variable declaration, with the value it starts with. -/
inductive Declarator where
  | mk (name : Ident) (initial : Option Expr)

end

instance : Inhabited Expr := ⟨.nullLit default⟩
instance : Inhabited Stmt := ⟨.empty default⟩

/-- A script. -/
structure Program where
  span : Span
  body : List Stmt

/-- The place of an expression. -/
def Expr.span : Expr → Span
  | .arrow span _ => span
  | .binary span _ _ _ => span
  | .call span _ _ => span
  | .classExpr span _ _ _ => span
  | .computedMember span _ _ => span
  | .conditional span _ _ _ => span
  | .functionExpr span _ _ => span
  | .ident span _ => span
  | .member span _ _ => span
  | .privateMember span _ _ => span
  | .superRef span => span
  | .thisRef span => span
  | .unary span _ _ => span
  | .update span _ _ => span
  | .arrayLit span _ => span
  | .boolLit span _ => span
  | .nullLit span => span
  | .numberLit span _ => span
  | .objectLit span _ => span
  | .stringLit span _ => span

/-- The place of a statement. -/
def Stmt.span : Stmt → Span
  | .block span _ => span
  | .empty span => span
  | .expr span _ => span
  | .ifElse span _ _ _ => span
  | .returnStmt span _ => span
  | .throwStmt span _ => span
  | .whileLoop span _ _ => span
  | .classDecl span _ _ _ => span
  | .functionDecl span _ _ => span
  | .varDecl span _ _ => span

namespace Func

/-- The place of a function. -/
def span : Func → Span
  | mk span _ _ _ _ _ => span

/-- The parameters of a function. -/
def params : Func → List Param
  | mk _ _ _ _ params _ => params

end Func

/-- Does the parameter take all arguments that are left? -/
def Param.rest : Param → Bool
  | mk _ rest _ _ => rest

namespace Key

/-- The name of a member, unless it is computed. -/
def staticName? : Key → Option String
  | direct key => some key.text
  | computed _ => none
  | privateName name => some name.name

/-- Does the key stand in brackets? -/
def isComputed : Key → Bool
  | computed _ => true
  | _ => false

end Key

/-- The name of a method kind in a written tree. -/
def MethodKind.name : MethodKind → String
  | constructor => "Constructor"
  | method => "Method"
  | get => "Get"
  | set => "Set"

/-- The method kind with a name. -/
def MethodKind.ofName? (n : String) : Option MethodKind :=
  [.constructor, .method, .get, .set].find? fun k => k.name == n

/-- The word of a declaration. -/
def DeclarationKind.name : DeclarationKind → String
  | constKind => "Const"
  | letKind => "Let"
  | varKind => "Var"

end EcmaScript

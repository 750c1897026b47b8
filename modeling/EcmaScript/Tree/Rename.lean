import EcmaScript.Tree.Basic

namespace EcmaScript

/-!
# Renaming

* `Program.mapNames` — the tree with every variable name, binding name and private name changed by a
  function. Names of functions and classes, property names and keys stay.
-/

/-- The same place with another name. -/
def Ident.mapName (f : String → String) (i : Ident) : Ident := { i with name := f i.name }

mutual

/-- The names in an expression. -/
def Expr.mapNames (f : String → String) : Expr → Expr
  | .arrow span func => .arrow span (func.mapNames f)
  | .binary span op left right => .binary span op (left.mapNames f) (right.mapNames f)
  | .call span callee arguments => .call span (callee.mapNames f) (Arg.listMapNames f arguments)
  | .classExpr span name parent members =>
    .classExpr span name (Expr.optionMapNames f parent) (Member.listMapNames f members)
  | .computedMember span object member =>
    .computedMember span (object.mapNames f) (member.mapNames f)
  | .conditional span test consequent alternate =>
    .conditional span (test.mapNames f) (consequent.mapNames f) (alternate.mapNames f)
  | .functionExpr span name func => .functionExpr span name (func.mapNames f)
  | .ident span name => .ident span (f name)
  | .member span object name => .member span (object.mapNames f) name
  | .privateMember span object name => .privateMember span (object.mapNames f) (name.mapName f)
  | .superRef span => .superRef span
  | .thisRef span => .thisRef span
  | .unary span op argument => .unary span op (argument.mapNames f)
  | .update span op argument => .update span op (argument.mapNames f)
  | .arrayLit span elements => .arrayLit span (Element.listMapNames f elements)
  | .boolLit span value => .boolLit span value
  | .nullLit span => .nullLit span
  | .numberLit span value => .numberLit span value
  | .objectLit span members => .objectLit span (ObjectMember.listMapNames f members)
  | .stringLit span value => .stringLit span value

/-- The names in an expression that may be missing. -/
def Expr.optionMapNames (f : String → String) : Option Expr → Option Expr
  | none => none
  | some e => some (e.mapNames f)

/-- The names in a statement. -/
def Stmt.mapNames (f : String → String) : Stmt → Stmt
  | .block span body => .block span (Stmt.listMapNames f body)
  | .empty span => .empty span
  | .expr span value => .expr span (value.mapNames f)
  | .ifElse span test consequent alternate =>
    .ifElse span (test.mapNames f) (consequent.mapNames f) (Stmt.optionMapNames f alternate)
  | .returnStmt span value => .returnStmt span (Expr.optionMapNames f value)
  | .throwStmt span value => .throwStmt span (value.mapNames f)
  | .whileLoop span condition body => .whileLoop span (condition.mapNames f) (body.mapNames f)
  | .classDecl span name parent members =>
    .classDecl span name (Expr.optionMapNames f parent) (Member.listMapNames f members)
  | .functionDecl span name func => .functionDecl span name (func.mapNames f)
  | .varDecl span kind declarators => .varDecl span kind (Declarator.listMapNames f declarators)

/-- The names in a statement that may be missing. -/
def Stmt.optionMapNames (f : String → String) : Option Stmt → Option Stmt
  | none => none
  | some s => some (s.mapNames f)

/-- The names in statements. -/
def Stmt.listMapNames (f : String → String) : List Stmt → List Stmt
  | [] => []
  | s :: rest => s.mapNames f :: Stmt.listMapNames f rest

/-- The names in a function. -/
def Func.mapNames (f : String → String) : Func → Func
  | .mk span arrow async generator params body =>
    .mk span arrow async generator (Param.listMapNames f params) (body.mapNames f)

/-- The names in a body. -/
def FuncBody.mapNames (f : String → String) : FuncBody → FuncBody
  | .block body => .block (Stmt.listMapNames f body)
  | .expr value => .expr (value.mapNames f)

/-- The names in a parameter. -/
def Param.mapNames (f : String → String) : Param → Param
  | .mk span rest name default => .mk span rest (name.mapName f) (Expr.optionMapNames f default)

/-- The names in parameters. -/
def Param.listMapNames (f : String → String) : List Param → List Param
  | [] => []
  | p :: rest => p.mapNames f :: Param.listMapNames f rest

/-- The names in an argument. -/
def Arg.mapNames (f : String → String) : Arg → Arg
  | .mk span spread value => .mk span spread (value.mapNames f)

/-- The names in arguments. -/
def Arg.listMapNames (f : String → String) : List Arg → List Arg
  | [] => []
  | a :: rest => a.mapNames f :: Arg.listMapNames f rest

/-- The names in an element. -/
def Element.mapNames (f : String → String) : Element → Element
  | .single value => .single (value.mapNames f)
  | .rest value => .rest (value.mapNames f)
  | .hole => .hole

/-- The names in elements. -/
def Element.listMapNames (f : String → String) : List Element → List Element
  | [] => []
  | e :: rest => e.mapNames f :: Element.listMapNames f rest

/-- The names in a key. A spelled key is no name of a variable and stays. -/
def Key.mapNames (f : String → String) : Key → Key
  | .direct key => .direct key
  | .computed value => .computed (value.mapNames f)
  | .privateName name => .privateName (name.mapName f)

/-- The names in a member of a class. -/
def Member.mapNames (f : String → String) : Member → Member
  | .method span key static kind func =>
    .method span (key.mapNames f) static kind (func.mapNames f)
  | .field span key computed value =>
    .field span (key.mapNames f) computed (Expr.optionMapNames f value)

/-- The names in members. -/
def Member.listMapNames (f : String → String) : List Member → List Member
  | [] => []
  | m :: rest => m.mapNames f :: Member.listMapNames f rest

/-- The names in a member of an object. -/
def ObjectMember.mapNames (f : String → String) : ObjectMember → ObjectMember
  | .valued span key value => .valued span (key.mapNames f) (value.mapNames f)
  | .method span key kind func => .method span (key.mapNames f) kind (func.mapNames f)
  | .shorthand span name => .shorthand span (name.mapName f)

/-- The names in members of an object. -/
def ObjectMember.listMapNames (f : String → String) : List ObjectMember → List ObjectMember
  | [] => []
  | m :: rest => m.mapNames f :: ObjectMember.listMapNames f rest

/-- The names in a declared name with its value. -/
def Declarator.mapNames (f : String → String) : Declarator → Declarator
  | .mk name initial => .mk (name.mapName f) (Expr.optionMapNames f initial)

/-- The names in declarators. -/
def Declarator.listMapNames (f : String → String) : List Declarator → List Declarator
  | [] => []
  | d :: rest => d.mapNames f :: Declarator.listMapNames f rest

end

/-- The tree with its names mapped. -/
def Program.mapNames (f : String → String) (p : Program) : Program :=
  { p with body := Stmt.listMapNames f p.body }

end EcmaScript

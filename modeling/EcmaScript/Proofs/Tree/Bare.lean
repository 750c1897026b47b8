import EcmaScript.Tree.Basic

namespace EcmaScript

/-!
# Trees without places

What is left of a tree when all its spans are forgotten. Two texts with the same tokens have trees
that are the same but for their places.

* `Program.bare`, `Expr.bare`, `Stmt.bare`, … — the part with an empty span in place of every span;
* `Stmt.bareList_eq_map`, … — a list of parts is made bare one by one.
-/

/-- The name alone. -/
def Ident.bare (i : Ident) : Ident := ⟨default, i.name⟩

/-- The key without its place. -/
def DirectKey.bare (k : DirectKey) : DirectKey := ⟨default, k.text, k.kind⟩

mutual

/-- The expression without places. -/
def Expr.bare : Expr → Expr
  | .arrow _ func => .arrow default func.bare
  | .binary _ op left right => .binary default op left.bare right.bare
  | .call _ callee arguments => .call default callee.bare (Arg.bareList arguments)
  | .classExpr _ name parent members =>
    .classExpr default (name.map Ident.bare) (Expr.bareOption parent) (Member.bareList members)
  | .computedMember _ object member => .computedMember default object.bare member.bare
  | .conditional _ test consequent alternate =>
    .conditional default test.bare consequent.bare alternate.bare
  | .functionExpr _ name func => .functionExpr default (name.map Ident.bare) func.bare
  | .ident _ name => .ident default name
  | .member _ object name => .member default object.bare name
  | .privateMember _ object name => .privateMember default object.bare name.bare
  | .superRef _ => .superRef default
  | .thisRef _ => .thisRef default
  | .unary _ op argument => .unary default op argument.bare
  | .update _ op argument => .update default op argument.bare
  | .arrayLit _ elements => .arrayLit default (Element.bareList elements)
  | .boolLit _ value => .boolLit default value
  | .nullLit _ => .nullLit default
  | .numberLit _ value => .numberLit default value
  | .objectLit _ members => .objectLit default (ObjectMember.bareList members)
  | .stringLit _ value => .stringLit default value

/-- An expression that may be missing, without places. -/
def Expr.bareOption : Option Expr → Option Expr
  | none => none
  | some e => some e.bare

/-- The statement without places. -/
def Stmt.bare : Stmt → Stmt
  | .block _ body => .block default (Stmt.bareList body)
  | .empty _ => .empty default
  | .expr _ value => .expr default value.bare
  | .ifElse _ test consequent alternate =>
    .ifElse default test.bare consequent.bare (Stmt.bareOption alternate)
  | .returnStmt _ value => .returnStmt default (Expr.bareOption value)
  | .throwStmt _ value => .throwStmt default value.bare
  | .whileLoop _ condition body => .whileLoop default condition.bare body.bare
  | .classDecl _ name parent members =>
    .classDecl default name.bare (Expr.bareOption parent) (Member.bareList members)
  | .functionDecl _ name func => .functionDecl default name.bare func.bare
  | .varDecl _ kind declarators => .varDecl default kind (Declarator.bareList declarators)

/-- A statement that may be missing, without places. -/
def Stmt.bareOption : Option Stmt → Option Stmt
  | none => none
  | some s => some s.bare

/-- Statements without places. -/
def Stmt.bareList : List Stmt → List Stmt
  | [] => []
  | s :: rest => s.bare :: Stmt.bareList rest

/-- The function without places. -/
def Func.bare : Func → Func
  | .mk _ arrow async generator params body =>
    .mk default arrow async generator (Param.bareList params) body.bare

/-- The body without places. -/
def FuncBody.bare : FuncBody → FuncBody
  | .block body => .block (Stmt.bareList body)
  | .expr value => .expr value.bare

/-- The parameter without places. -/
def Param.bare : Param → Param
  | .mk _ rest name initial => .mk default rest name.bare (Expr.bareOption initial)

/-- Parameters without places. -/
def Param.bareList : List Param → List Param
  | [] => []
  | p :: rest => p.bare :: Param.bareList rest

/-- The argument without places. -/
def Arg.bare : Arg → Arg
  | .mk _ spread value => .mk default spread value.bare

/-- Arguments without places. -/
def Arg.bareList : List Arg → List Arg
  | [] => []
  | a :: rest => a.bare :: Arg.bareList rest

/-- The element without places. -/
def Element.bare : Element → Element
  | .single value => .single value.bare
  | .rest value => .rest value.bare
  | .hole => .hole

/-- Elements without places. -/
def Element.bareList : List Element → List Element
  | [] => []
  | e :: rest => e.bare :: Element.bareList rest

/-- The key without places. -/
def Key.bare : Key → Key
  | .direct key => .direct key.bare
  | .computed value => .computed value.bare
  | .privateName name => .privateName name.bare

/-- The member of a class without places. -/
def Member.bare : Member → Member
  | .method _ key static kind func => .method default key.bare static kind func.bare
  | .field _ key computed value => .field default key.bare computed (Expr.bareOption value)

/-- Members of a class without places. -/
def Member.bareList : List Member → List Member
  | [] => []
  | m :: rest => m.bare :: Member.bareList rest

/-- The member of an object without places. -/
def ObjectMember.bare : ObjectMember → ObjectMember
  | .valued _ key value => .valued default key.bare value.bare
  | .method _ key kind func => .method default key.bare kind func.bare
  | .shorthand _ name => .shorthand default name.bare

/-- Members of an object without places. -/
def ObjectMember.bareList : List ObjectMember → List ObjectMember
  | [] => []
  | m :: rest => m.bare :: ObjectMember.bareList rest

/-- The declared name without places. -/
def Declarator.bare : Declarator → Declarator
  | .mk name initial => .mk name.bare (Expr.bareOption initial)

/-- Declared names without places. -/
def Declarator.bareList : List Declarator → List Declarator
  | [] => []
  | d :: rest => d.bare :: Declarator.bareList rest

end

attribute [simp] Expr.bare Stmt.bare Func.bare FuncBody.bare Param.bare Arg.bare Element.bare
  Key.bare Member.bare ObjectMember.bare Declarator.bare

/-- The script without places. -/
def Program.bare (p : Program) : Program := ⟨default, Stmt.bareList p.body⟩

/-! ### Lists and options -/

theorem Stmt.bareList_eq_map (ss : List Stmt) : Stmt.bareList ss = ss.map Stmt.bare := by
  induction ss with
  | nil => simp [Stmt.bareList]
  | cons s rest ih => simp [Stmt.bareList, ih]

theorem Param.bareList_eq_map (ps : List Param) : Param.bareList ps = ps.map Param.bare := by
  induction ps with
  | nil => simp [Param.bareList]
  | cons p rest ih => simp [Param.bareList, ih]

theorem Arg.bareList_eq_map (as : List Arg) : Arg.bareList as = as.map Arg.bare := by
  induction as with
  | nil => simp [Arg.bareList]
  | cons a rest ih => simp [Arg.bareList, ih]

theorem Element.bareList_eq_map (es : List Element) :
    Element.bareList es = es.map Element.bare := by
  induction es with
  | nil => simp [Element.bareList]
  | cons e rest ih => simp [Element.bareList, ih]

theorem Member.bareList_eq_map (ms : List Member) : Member.bareList ms = ms.map Member.bare := by
  induction ms with
  | nil => simp [Member.bareList]
  | cons m rest ih => simp [Member.bareList, ih]

theorem ObjectMember.bareList_eq_map (ms : List ObjectMember) :
    ObjectMember.bareList ms = ms.map ObjectMember.bare := by
  induction ms with
  | nil => simp [ObjectMember.bareList]
  | cons m rest ih => simp [ObjectMember.bareList, ih]

theorem Declarator.bareList_eq_map (ds : List Declarator) :
    Declarator.bareList ds = ds.map Declarator.bare := by
  induction ds with
  | nil => simp [Declarator.bareList]
  | cons d rest ih => simp [Declarator.bareList, ih]

end EcmaScript

import EcmaScript.Tree.Basic

namespace EcmaScript

/-!
# Outlines

A tree as a visitor meets it: one uniform kind of node, with the parts of a part below it in the
order in which they are written.

* `Outline` — a part, its place if it has one of its own, and its parts;
* `Program.outline` — the outline of a script;
* `Outline.visits` — what a visitor does, entering and leaving one part after the other;
* `Outline.count` — how many parts of a kind a visitor enters.
-/

/-- The kinds of parts. -/
inductive PartKind where
  | program
  | stmt
  | expr
  | member
  | field
  | method
  | objectMember
  | privateName
  | directKey
  | param
  | func
  | arg
  | binding
  /-- The name of a function or a class. -/
  | definitionName
  /-- A variable that is used. -/
  | variable
  | funcBody
  | declarator
  | element
  | objectMemberSort
  | methodKind
  | key
deriving DecidableEq, Repr, Inhabited

namespace PartKind

/-- The name a kind goes by in the list of visits. -/
def name : PartKind → String
  | program => "TopLevel"
  | stmt => "Stmt"
  | expr => "Expr"
  | member => "ClassMember"
  | field => "FieldDef"
  | method => "MethodDef"
  | objectMember => "ObjMember"
  | privateName => "PrivateName"
  | directKey => "ClassOrObjMemberDirectKey"
  | param => "ParamDecl"
  | func => "Func"
  | arg => "CallArg"
  | binding => "IdPat"
  | definitionName => "ClassOrFuncName"
  | .variable => "IdExpr"
  | funcBody => "FuncBody"
  | declarator => "VarDeclarator"
  | element => "LitArrElem"
  | objectMemberSort => "ObjMemberType"
  | methodKind => "MethodKind"
  | key => "ClassOrObjKey"

def all : List PartKind :=
  [program, stmt, expr, member, field, method, objectMember, privateName, directKey, param, func,
   arg, binding, definitionName, .variable, funcBody, declarator, element, objectMemberSort,
   methodKind, key]

end PartKind

/-- What a visitor is told of a part. -/
structure Part where
  kind : PartKind
  /-- The place, of a part that has one of its own. -/
  span : Option Span
  /-- The sort of a method, or the name that a key spells out. -/
  detail : Option String
deriving DecidableEq, Repr, Inhabited

/-- A part with its parts. -/
inductive Outline where
  | node (part : Part) (children : List Outline)

namespace Outline

/-- A part with a place of its own. -/
def placed (kind : PartKind) (span : Span) (children : List Outline) : Outline :=
  node ⟨kind, some span, none⟩ children

/-- A part without one. -/
def unplaced (kind : PartKind) (children : List Outline) : Outline :=
  node ⟨kind, none, none⟩ children

/-- A name at a place. -/
def ofIdent (kind : PartKind) (i : Ident) : Outline := placed kind i.span []

/-- The kind of a method is a part of its own, without a place. -/
def ofMethodKind (k : MethodKind) : Outline := node ⟨.methodKind, none, some k.name⟩ []

end Outline

/-! ### The outline of a tree -/

mutual

/-- The outline of an expression. -/
def Expr.outline : Expr → Outline
  | .arrow span func => .placed .expr span [func.outline]
  | .binary span _ left right => .placed .expr span [left.outline, right.outline]
  | .call span callee arguments =>
    .placed .expr span (callee.outline :: Arg.outlines arguments)
  | .classExpr span name parent members =>
    .placed .expr span
      ((name.map (Outline.ofIdent .definitionName)).toList
        ++ Expr.optionOutlines parent ++ Member.outlines members)
  | .computedMember span object member => .placed .expr span [object.outline, member.outline]
  | .conditional span test consequent alternate =>
    .placed .expr span [test.outline, consequent.outline, alternate.outline]
  | .functionExpr span name func =>
    .placed .expr span ((name.map (Outline.ofIdent .definitionName)).toList ++ [func.outline])
  | .ident span _ => .placed .expr span [.placed .variable span []]
  | .member span object _ => .placed .expr span [object.outline]
  | .privateMember span object name =>
    .placed .expr span [object.outline, .ofIdent .privateName name]
  | .superRef span => .placed .expr span []
  | .thisRef span => .placed .expr span []
  | .unary span _ argument => .placed .expr span [argument.outline]
  | .update span _ argument => .placed .expr span [argument.outline]
  | .arrayLit span elements => .placed .expr span (Element.outlines elements)
  | .boolLit span _ => .placed .expr span []
  | .nullLit span => .placed .expr span []
  | .numberLit span _ => .placed .expr span []
  | .objectLit span members => .placed .expr span (ObjectMember.outlines members)
  | .stringLit span _ => .placed .expr span []

/-- An expression, if there is one. -/
def Expr.optionOutlines : Option Expr → List Outline
  | none => []
  | some e => [e.outline]

/-- The outline of a statement. -/
def Stmt.outline : Stmt → Outline
  | .block span body => .placed .stmt span (Stmt.outlines body)
  | .empty span => .placed .stmt span []
  | .expr span value => .placed .stmt span [value.outline]
  | .ifElse span test consequent alternate =>
    .placed .stmt span (test.outline :: consequent.outline :: Stmt.optionOutlines alternate)
  | .returnStmt span value => .placed .stmt span (Expr.optionOutlines value)
  | .throwStmt span value => .placed .stmt span [value.outline]
  | .whileLoop span condition body => .placed .stmt span [condition.outline, body.outline]
  | .classDecl span name parent members =>
    .placed .stmt span
      (.ofIdent .definitionName name :: (Expr.optionOutlines parent ++ Member.outlines members))
  | .functionDecl span name func =>
    .placed .stmt span [.ofIdent .definitionName name, func.outline]
  | .varDecl span _ declarators => .placed .stmt span (Declarator.outlines declarators)

/-- A statement, if there is one. -/
def Stmt.optionOutlines : Option Stmt → List Outline
  | none => []
  | some s => [s.outline]

/-- Statements one after the other. -/
def Stmt.outlines : List Stmt → List Outline
  | [] => []
  | s :: rest => s.outline :: Stmt.outlines rest

/-- The outline of a function. -/
def Func.outline : Func → Outline
  | .mk span _ _ _ params body => .placed .func span (Param.outlines params ++ [body.outline])

/-- The outline of a body. -/
def FuncBody.outline : FuncBody → Outline
  | .block body => .unplaced .funcBody (Stmt.outlines body)
  | .expr value => .unplaced .funcBody [value.outline]

/-- The outline of a parameter. -/
def Param.outline : Param → Outline
  | .mk span _ name default =>
    .placed .param span (.ofIdent .binding name :: Expr.optionOutlines default)

/-- Parameters one after the other. -/
def Param.outlines : List Param → List Outline
  | [] => []
  | p :: rest => p.outline :: Param.outlines rest

/-- The outline of an argument. -/
def Arg.outline : Arg → Outline
  | .mk span _ value => .placed .arg span [value.outline]

/-- Arguments one after the other. -/
def Arg.outlines : List Arg → List Outline
  | [] => []
  | a :: rest => a.outline :: Arg.outlines rest

/-- The outline of an element. -/
def Element.outline : Element → Outline
  | .single value => .unplaced .element [value.outline]
  | .rest value => .unplaced .element [value.outline]
  | .hole => .unplaced .element []

/-- Elements one after the other. -/
def Element.outlines : List Element → List Outline
  | [] => []
  | e :: rest => e.outline :: Element.outlines rest

/-- The outline of a key. -/
def Key.outline : Key → Outline
  | .direct key => .node ⟨.key, none, some key.text⟩ [.placed .directKey key.span []]
  | .computed value => .node ⟨.key, none, none⟩ [value.outline]
  | .privateName name => .node ⟨.key, none, some name.name⟩ [.ofIdent .privateName name]

/-- The outline of a member of a class. -/
def Member.outline : Member → Outline
  | .method span key _ kind func =>
    .placed .member span
      [.placed .method span [key.outline, .ofMethodKind kind, func.outline]]
  | .field span key _ value =>
    .placed .member span [.placed .field span (key.outline :: Expr.optionOutlines value)]

/-- Members one after the other. -/
def Member.outlines : List Member → List Outline
  | [] => []
  | m :: rest => m.outline :: Member.outlines rest

/-- The outline of a member of an object. -/
def ObjectMember.outline : ObjectMember → Outline
  | .valued span key value =>
    .placed .objectMember span [.unplaced .objectMemberSort [key.outline, value.outline]]
  | .method span key kind func =>
    .placed .objectMember span
      [.unplaced .objectMemberSort [key.outline, .ofMethodKind kind, func.outline]]
  | .shorthand span name =>
    .placed .objectMember span [.unplaced .objectMemberSort [.ofIdent .variable name]]

/-- Members of an object one after the other. -/
def ObjectMember.outlines : List ObjectMember → List Outline
  | [] => []
  | m :: rest => m.outline :: ObjectMember.outlines rest

/-- The outline of a declared name. -/
def Declarator.outline : Declarator → Outline
  | .mk name initial =>
    .unplaced .declarator (.ofIdent .binding name :: Expr.optionOutlines initial)

/-- Declarators one after the other. -/
def Declarator.outlines : List Declarator → List Outline
  | [] => []
  | d :: rest => d.outline :: Declarator.outlines rest

end

/-- The outline of a whole tree. -/
def Program.outline (p : Program) : Outline := .placed .program p.span (Stmt.outlines p.body)

/-! ### Visits -/

/-- One thing that a visitor does. -/
inductive Visit where
  | enter (part : Part)
  | leave (kind : PartKind)
deriving DecidableEq, Repr

/-- A visit as a line: a sign, the kind, and on entering the place or the detail. -/
def Visit.line : Visit → String
  | enter part =>
    let place :=
      match part.span with
      | some s => " " ++ toString s.start ++ " " ++ toString s.stop
      | none => ""
    let detail :=
      match part.detail with
      | some text => " " ++ text
      | none => ""
    "+" ++ part.kind.name ++ place ++ detail
  | leave kind => "-" ++ kind.name

namespace Outline

mutual

/-- The visits of a part, before later ones: enters it, visits its parts in order, and leaves it. -/
def visitsBefore (later : List Visit) : Outline → List Visit
  | node part children => .enter part :: visitsAllBefore (.leave part.kind :: later) children

/-- The visits of parts one after the other, before later ones. -/
def visitsAllBefore (later : List Visit) : List Outline → List Visit
  | [] => later
  | o :: rest => o.visitsBefore (visitsAllBefore later rest)

end

/-- Everything that a visitor does. -/
def visits (o : Outline) : List Visit := o.visitsBefore []

/-- The visits of parts one after the other. -/
def visitsAll (os : List Outline) : List Visit := visitsAllBefore [] os

mutual

theorem visitsBefore_eq (later : List Visit) :
    ∀ o : Outline, o.visitsBefore later = o.visits ++ later
  | node part children => by
    rw [visits, visitsBefore, visitsBefore, visitsAllBefore_eq, visitsAllBefore_eq [_]]
    simp

theorem visitsAllBefore_eq (later : List Visit) :
    ∀ os : List Outline, visitsAllBefore later os = visitsAll os ++ later
  | [] => rfl
  | o :: rest => by
    rw [visitsAll, visitsAllBefore, visitsAllBefore, visitsBefore_eq,
      visitsBefore_eq (visitsAllBefore _ _), visitsAllBefore_eq later, visitsAllBefore_eq []]
    simp

end

@[simp] theorem visits_node (part : Part) (children : List Outline) :
    (node part children).visits = .enter part :: (visitsAll children ++ [.leave part.kind]) := by
  rw [visits, visitsBefore, visitsAllBefore_eq]

@[simp] theorem visitsAll_nil : visitsAll [] = [] := rfl

@[simp] theorem visitsAll_cons (o : Outline) (rest : List Outline) :
    visitsAll (o :: rest) = o.visits ++ visitsAll rest := by
  rw [visitsAll, visitsAllBefore, visitsBefore_eq]
  rfl

/-- The parts that are entered. -/
def entered (o : Outline) : List Part :=
  o.visits.filterMap fun
    | .enter part => some part
    | .leave _ => none

/-- How many parts of a kind are entered. -/
def count (o : Outline) (kind : PartKind) : Nat := o.entered.countP fun part => part.kind = kind

/-- How many parts of each kind are entered, for the kinds that occur. -/
def counts (o : Outline) : List (PartKind × Nat) :=
  let parts := o.entered
  (PartKind.all.map fun kind => (kind, parts.countP fun part => part.kind = kind)).filter
    fun entry => entry.2 ≠ 0

end Outline

end EcmaScript

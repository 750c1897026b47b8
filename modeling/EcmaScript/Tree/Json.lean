import EcmaScript.Json
import EcmaScript.Tree.Basic

namespace EcmaScript

/-!
# Syntax trees as JSON

A part of a tree with a place of its own is written as a *node*, an object of its `loc` and its
`stx`. Expressions, statements and class members are of several sorts, and are written as a node
around a node: the inner one holds the fields, and a tag `$t` that names the sort stands before
it.

* `Form` — the sort, the span and the fields of such a part, with its two written forms;
* `Expr.form`, `Stmt.form`, `Member.form` — the forms of the three;
* `Program.toJson` — a whole tree.
-/

/-- A span as its two offsets. -/
def Span.toJson (s : Span) : Json := .array [.nat s.start, .nat s.stop]

/-- A part with a place of its own. -/
def Json.node (span : Span) (content : Json) : Json :=
  .object [("loc", span.toJson), ("stx", content)]

/-- A part of one of several sorts: the name of its sort, its place and its fields. -/
structure Form where
  tag : String
  span : Span
  fields : List (String × Json)

namespace Form

/-- The fields alone. -/
def content (f : Form) : Json := .object f.fields

/-- The fields at their place. -/
def inner (f : Form) : Json := .node f.span f.content

/-- The fields at their place, with the sort, in a node of their own. -/
def tagged (f : Form) : Json :=
  .node f.span (.object [("$t", .string f.tag), ("loc", f.span.toJson), ("stx", f.content)])

end Form

/-! ### Parts without parts -/

/-- A node that holds a name. -/
def Ident.toJson (i : Ident) : Json := .node i.span (.object [("name", .string i.name)])

/-- A spelled key, with the kind of its token. -/
def DirectKey.toJson (k : DirectKey) : Json :=
  .node k.span (.object [("key", .string k.text), ("tt", .string k.kind.name)])

/-- A method kind by its name. -/
def MethodKind.toJson (k : MethodKind) : Json := .string k.name

/-- A declaration by its word. -/
def DeclarationKind.toJson (k : DeclarationKind) : Json := .string k.name

/-- An operator by its name. -/
def Operator.toJson (op : Operator) : Json := .string op.name

/-! ### Expressions, statements and what they are made of -/

mutual

/-- The form of an expression. -/
def Expr.form : Expr → Form
  | .arrow span func => ⟨"ArrowFunc", span, [("func", func.toJson)]⟩
  | .binary span op left right =>
    ⟨"Binary", span,
      [("operator", op.toJson), ("left", left.form.tagged), ("right", right.form.tagged)]⟩
  | .call span callee arguments =>
    ⟨"Call", span,
      [("callee", callee.form.tagged), ("arguments", .array (Arg.listJson arguments))]⟩
  | .classExpr span name parent members =>
    ⟨"Class", span,
      [("name", .ofOption Ident.toJson name), ("extends", Expr.optionJson parent),
       ("members", .array (Member.listJson members))]⟩
  | .computedMember span object member =>
    ⟨"ComputedMember", span, [("object", object.form.tagged), ("member", member.form.tagged)]⟩
  | .conditional span test consequent alternate =>
    ⟨"Cond", span,
      [("test", test.form.tagged), ("consequent", consequent.form.tagged),
       ("alternate", alternate.form.tagged)]⟩
  | .functionExpr span name func =>
    ⟨"Func", span, [("name", .ofOption Ident.toJson name), ("func", func.toJson)]⟩
  | .ident span name => ⟨"Id", span, [("name", .string name)]⟩
  | .member span object name =>
    ⟨"Member", span, [("left", object.form.tagged), ("right", .string name)]⟩
  | .privateMember span object name =>
    ⟨"PrivateMember", span, [("left", object.form.tagged), ("right", name.toJson)]⟩
  | .superRef span => ⟨"Super", span, []⟩
  | .thisRef span => ⟨"This", span, []⟩
  | .unary span op argument =>
    ⟨"Unary", span, [("operator", op.toJson), ("argument", argument.form.tagged)]⟩
  | .update span op argument =>
    ⟨"UnaryPostfix", span, [("operator", op.toJson), ("argument", argument.form.tagged)]⟩
  | .arrayLit span elements =>
    ⟨"LitArr", span, [("elements", .array (Element.listJson elements))]⟩
  | .boolLit span value => ⟨"LitBool", span, [("value", .bool value)]⟩
  | .nullLit span => ⟨"LitNull", span, []⟩
  | .numberLit span value => ⟨"LitNum", span, [("value", .number value)]⟩
  | .objectLit span members =>
    ⟨"LitObj", span, [("members", .array (ObjectMember.listJson members))]⟩
  | .stringLit span value => ⟨"LitStr", span, [("value", .string value)]⟩

/-- An expression that may be missing. -/
def Expr.optionJson : Option Expr → Json
  | none => .null
  | some e => e.form.tagged

/-- The form of a statement. -/
def Stmt.form : Stmt → Form
  | .block span body => ⟨"Block", span, [("body", .array (Stmt.listJson body))]⟩
  | .empty span => ⟨"Empty", span, []⟩
  | .expr span value => ⟨"Expr", span, [("expr", value.form.tagged)]⟩
  | .ifElse span test consequent alternate =>
    ⟨"If", span,
      [("test", test.form.tagged), ("consequent", consequent.form.tagged),
       ("alternate", Stmt.optionJson alternate)]⟩
  | .returnStmt span value => ⟨"Return", span, [("value", Expr.optionJson value)]⟩
  | .throwStmt span value => ⟨"Throw", span, [("value", value.form.tagged)]⟩
  | .whileLoop span condition body =>
    ⟨"While", span, [("condition", condition.form.tagged), ("body", body.form.tagged)]⟩
  | .classDecl span name parent members =>
    ⟨"ClassDecl", span,
      [("name", name.toJson), ("extends", Expr.optionJson parent),
       ("members", .array (Member.listJson members))]⟩
  | .functionDecl span name func =>
    ⟨"FunctionDecl", span, [("name", name.toJson), ("function", func.toJson)]⟩
  | .varDecl span kind declarators =>
    ⟨"VarDecl", span,
      [("mode", kind.toJson), ("declarators", .array (Declarator.listJson declarators))]⟩

/-- A statement that may be missing. -/
def Stmt.optionJson : Option Stmt → Json
  | none => .null
  | some s => s.form.tagged

/-- Statements one after the other. -/
def Stmt.listJson : List Stmt → List Json
  | [] => []
  | s :: rest => s.form.tagged :: Stmt.listJson rest

/-- A function of any sort. -/
def Func.toJson : Func → Json
  | .mk span arrow async generator params body =>
    .node span
      (.object
        [("arrow", .bool arrow), ("async_", .bool async), ("generator", .bool generator),
         ("parameters", .array (Param.listJson params)), ("body", body.toJson)])

/-- A body, marked by its sort. -/
def FuncBody.toJson : FuncBody → Json
  | .block body => .object [("Block", .array (Stmt.listJson body))]
  | .expr value => .object [("Expression", value.form.tagged)]

/-- A parameter. -/
def Param.toJson : Param → Json
  | .mk span rest name default =>
    .node span
      (.object
        [("rest", .bool rest), ("pattern", name.toJson),
         ("default_value", Expr.optionJson default)])

/-- Parameters one after the other. -/
def Param.listJson : List Param → List Json
  | [] => []
  | p :: rest => p.toJson :: Param.listJson rest

/-- An argument. -/
def Arg.toJson : Arg → Json
  | .mk span spread value =>
    .node span (.object [("spread", .bool spread), ("value", value.form.tagged)])

/-- Arguments one after the other. -/
def Arg.listJson : List Arg → List Json
  | [] => []
  | a :: rest => a.toJson :: Arg.listJson rest

/-- An element of an array, marked by its sort. -/
def Element.toJson : Element → Json
  | .single value => .object [("Single", value.form.tagged)]
  | .rest value => .object [("Rest", value.form.tagged)]
  | .hole => .string "Empty"

/-- Elements one after the other. -/
def Element.listJson : List Element → List Json
  | [] => []
  | e :: rest => e.toJson :: Element.listJson rest

/-- A key, marked by its sort. -/
def Key.toJson : Key → Json
  | .direct key => .object [("Direct", key.toJson)]
  | .computed value => .object [("Computed", value.form.tagged)]
  | .privateName name => .object [("Private", name.toJson)]

/-- The form of a member of a class. -/
def Member.form : Member → Form
  | .method span key static kind func =>
    ⟨"MethodDefinition", span,
      [("key", key.toJson), ("static_", .bool static), ("kind", kind.toJson),
       ("func", func.toJson)]⟩
  | .field span key computed value =>
    ⟨"FieldDefinition", span,
      [("key", key.toJson), ("computed", .bool computed), ("value", Expr.optionJson value)]⟩

/-- Members one after the other. -/
def Member.listJson : List Member → List Json
  | [] => []
  | m :: rest => m.form.tagged :: Member.listJson rest

/-- The place of a member of an object, and the member itself. -/
def ObjectMember.parts : ObjectMember → Span × Json
  | .valued span key value =>
    (span, .object
      [("typ", .object [("Valued", .object [("key", key.toJson), ("val", value.form.tagged)])])])
  | .method span key kind func =>
    (span, .object
      [("typ", .object
        [("Method", .object
          [("key", key.toJson), ("kind", kind.toJson), ("func", func.toJson)])])])
  | .shorthand span name =>
    (span, .object [("typ", .object [("Shorthand", .object [("id", name.toJson)])])])

/-- Members of an object one after the other. -/
def ObjectMember.listJson : List ObjectMember → List Json
  | [] => []
  | m :: rest =>
    match m.parts with
    | (span, content) => .node span content :: ObjectMember.listJson rest

/-- A declared name with its value. -/
def Declarator.toJson : Declarator → Json
  | .mk name initial =>
    .object [("pattern", name.toJson), ("initializer", Expr.optionJson initial)]

/-- Declarators one after the other. -/
def Declarator.listJson : List Declarator → List Json
  | [] => []
  | d :: rest => d.toJson :: Declarator.listJson rest

end

/-- An expression, marked by its sort. -/
def Expr.toJson (e : Expr) : Json := e.form.tagged

/-- A statement, marked by its sort. -/
def Stmt.toJson (s : Stmt) : Json := s.form.tagged

/-- A member, marked by its sort. -/
def Member.toJson (m : Member) : Json := m.form.tagged

/-- A whole tree. -/
def Program.toJson (p : Program) : Json :=
  .node p.span (.object [("body", .array (Stmt.listJson p.body))])

end EcmaScript

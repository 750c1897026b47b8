import EcmaScript.Tree.Basic
import Mathlib.Tactic.Common

namespace EcmaScript

/-!
# Nodes of trees

The parts of a tree under one type, so that a property of all its parts is stated once.

* `Node`, `Node.children` — a part, and the parts right below it;
* `Node.members?`, `Member.privateName?` — the members of a class, and the names they declare;
* `Inside` — a part at any depth, with the classes around it;
* `FreeUse` — a use of a private name that no class below resolves;
* `Throughout` — a property of a part and of all parts below it.
-/

/-- A part of a tree. -/
inductive Node where
  | program (p : Program)
  | stmt (s : Stmt)
  | expr (e : Expr)
  | func (f : Func)
  | body (b : FuncBody)
  | param (p : Param)
  | arg (a : Arg)
  | element (e : Element)
  | key (k : Key)
  | member (m : Member)
  | objectMember (m : ObjectMember)
  | declarator (d : Declarator)
  /-- The name behind the point in `object.#name`. -/
  | privateUse (name : Ident)

/-! ### Parts below a part -/

namespace Expr

/-- The parts right below an expression. -/
def children : Expr → List Node
  | .arrow _ func => [.func func]
  | .binary _ _ left right => [.expr left, .expr right]
  | .call _ callee arguments => .expr callee :: arguments.map .arg
  | .classExpr _ _ parent members => parent.toList.map .expr ++ members.map .member
  | .computedMember _ object key => [.expr object, .expr key]
  | .conditional _ test consequent alternate => [.expr test, .expr consequent, .expr alternate]
  | .functionExpr _ _ func => [.func func]
  | .member _ object _ => [.expr object]
  | .privateMember _ object name => [.expr object, .privateUse name]
  | .unary _ _ argument => [.expr argument]
  | .update _ _ argument => [.expr argument]
  | .arrayLit _ elements => elements.map .element
  | .objectLit _ members => members.map .objectMember
  | .ident .. | .superRef _ | .thisRef _ | .boolLit .. | .nullLit _ | .numberLit ..
  | .stringLit .. => []

end Expr

namespace Stmt

/-- The parts right below a statement. -/
def children : Stmt → List Node
  | .block _ body => body.map .stmt
  | .empty _ => []
  | .expr _ value => [.expr value]
  | .ifElse _ test consequent alternate =>
    .expr test :: .stmt consequent :: alternate.toList.map .stmt
  | .returnStmt _ value => value.toList.map .expr
  | .throwStmt _ value => [.expr value]
  | .whileLoop _ condition body => [.expr condition, .stmt body]
  | .classDecl _ _ parent members => parent.toList.map .expr ++ members.map .member
  | .functionDecl _ _ func => [.func func]
  | .varDecl _ _ declarators => declarators.map .declarator

end Stmt

namespace Node

/-- The parts right below a part, in the order in which they are written. -/
def children : Node → List Node
  | program p => p.body.map .stmt
  | stmt s => s.children
  | expr e => e.children
  | func (.mk _ _ _ _ params inner) => params.map .param ++ [.body inner]
  | body (.block statements) => statements.map .stmt
  | body (.expr value) => [.expr value]
  | param (.mk _ _ _ default) => default.toList.map .expr
  | arg (.mk _ _ value) => [.expr value]
  | element (.single value) => [.expr value]
  | element (.rest value) => [.expr value]
  | element .hole => []
  | key (.computed value) => [.expr value]
  | key (.direct _) => []
  | key (.privateName _) => []
  | member (.method _ k _ _ f) => [.key k, .func f]
  | member (.field _ k _ value) => .key k :: value.toList.map .expr
  | objectMember (.valued _ k value) => [.key k, .expr value]
  | objectMember (.method _ k _ f) => [.key k, .func f]
  | objectMember (.shorthand ..) => []
  | declarator (.mk _ initial) => initial.toList.map .expr
  | privateUse _ => []

/-- The members of a class. -/
def members? : Node → Option (List Member)
  | expr (.classExpr _ _ _ members) => some members
  | stmt (.classDecl _ _ _ members) => some members
  | _ => none

end Node

/-! ### Private names -/

/-- The private name that a member of a class declares. -/
def Member.privateName? : Member → Option String
  | .field _ (.privateName name) _ _ => some name.name
  | _ => none

/-- The private names that the members of a class declare, in their order. -/
def privateNames (members : List Member) : List String := members.filterMap Member.privateName?

/-- The private name that a part declares in the class right around it. -/
def Node.privateName? : Node → Option String
  | member m => m.privateName?
  | _ => none

/-- The private names that parts declare in the class right around them. -/
def declaredNames (nodes : List Node) : List String := nodes.filterMap Node.privateName?

@[simp] theorem declaredNames_append (ns ms : List Node) :
    declaredNames (ns ++ ms) = declaredNames ns ++ declaredNames ms := List.filterMap_append

/-- A class declares what its members declare. -/
theorem declaredNames_class (parent : Option Expr) (members : List Member) :
    declaredNames (parent.toList.map .expr ++ members.map .member) = privateNames members := by
  have hparent : declaredNames (parent.toList.map .expr) = [] := by
    cases parent <;> rfl
  rw [declaredNames_append, hparent, List.nil_append, declaredNames, List.filterMap_map]
  rfl

/-- A part below a root, at any depth, with the members of the classes around it, the innermost
first. A class lies around its parent as well as around its members. -/
inductive Inside (root : Node) : List (List Member) → Node → Prop where
  | root : Inside root [] root
  | child {classes : List (List Member)} {n m : Node} :
    Inside root classes n → m ∈ n.children → Inside root (n.members?.toList ++ classes) m

/-- A private name is used in a part, and no class between the part and the use declares it. -/
inductive FreeUse : Node → String → Prop where
  | here (name : Ident) : FreeUse (.privateUse name) name.name
  | through {n m : Node} {name : String} :
    m ∈ n.children → FreeUse m name → (∀ members ∈ n.members?, name ∉ privateNames members) →
    FreeUse n name

/-- A use that no class around it resolves is free in the root. -/
theorem Inside.freeUse {root n : Node} {classes : List (List Member)} {name : String}
    (h : Inside root classes n) (hn : FreeUse n name)
    (hno : ∀ members ∈ classes, name ∉ privateNames members) : FreeUse root name := by
  induction h with
  | root => exact hn
  | child _ hm ih =>
    refine ih (.through hm hn fun members h => ?_) fun members h => ?_
    · exact hno members (List.mem_append_left _ (Option.mem_toList.2 h))
    · exact hno members (List.mem_append_right _ h)

/-- A use is free in a part where it is free in a part right below, unless a class resolves it
there. -/
theorem freeUse_iff {n : Node} {name : String} (hn : ∀ i, n ≠ .privateUse i) :
    FreeUse n name ↔
      (∃ m ∈ n.children, FreeUse m name) ∧ ∀ members ∈ n.members?, name ∉ privateNames members := by
  constructor
  · intro h
    cases h with
    | here i => exact absurd rfl (hn i)
    | through hm h hno => exact ⟨⟨_, hm, h⟩, hno⟩
  · rintro ⟨⟨m, hm, h⟩, hno⟩
    exact .through hm h hno

/-! ### Properties of all parts -/

/-- The property holds of a part and of all the parts below it. -/
inductive Throughout (P : Node → Prop) : Node → Prop where
  | intro {n : Node} : P n → (∀ m ∈ n.children, Throughout P m) → Throughout P n

namespace Throughout

variable {P : Node → Prop} {n m : Node}

theorem here (h : Throughout P n) : P n := by
  cases h with
  | intro h _ => exact h

theorem inside {classes : List (List Member)} (h : Throughout P n) (hm : Inside n classes m) :
    Throughout P m := by
  induction hm with
  | root => exact h
  | child _ hm ih =>
    cases ih with
    | intro _ ih => exact ih _ hm

end Throughout

end EcmaScript

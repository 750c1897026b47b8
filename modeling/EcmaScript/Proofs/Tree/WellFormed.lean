import EcmaScript.Grammar.Class
import EcmaScript.Grammar.Expression
import EcmaScript.Proofs.Tree.Nodes

namespace EcmaScript

/-!
# Well-formed trees

Not every tree is one of a script. What a part has to be depends on the parts right below it, and
so it is said for one part at a time.

* `Expr.IsReference` — what the left side of an assignment may be;
* `Func.IsArrowFunction`, `Func.IsFunction` — the two shapes of functions;
* `MethodKind.Takes`, `MethodKind.Admits` — the parameters and the methods of a kind;
* `Key.NamesConstructor` — a key that makes a plain method of a class its constructor;
* `Node.WellFormed` — all of this for one part of a tree.
-/

/-! ### Assignments -/

namespace Expr

/-- A variable, or a member that is named, computed or private. -/
inductive IsReference : Expr → Prop where
  | ident (span : Span) (name : String) : IsReference (.ident span name)
  | member (span : Span) (object : Expr) (name : String) : IsReference (.member span object name)
  | computedMember (span : Span) (object member : Expr) :
    IsReference (.computedMember span object member)
  | privateMember (span : Span) (object : Expr) (name : Ident) :
    IsReference (.privateMember span object name)

theorem isReference_iff (e : Expr) : e.IsReference ↔ Grammar.isAssignable e = true := by
  constructor
  · rintro (_ | _ | _ | _) <;> rfl
  · intro h
    unfold Grammar.isAssignable at h
    split at h
    · exact .ident ..
    · exact .member ..
    · exact .computedMember ..
    · exact .privateMember ..
    · cases h

end Expr

/-! ### Functions -/

namespace Func

/-- Is it an arrow function? -/
def isArrow : Func → Bool
  | mk _ arrow _ _ _ _ => arrow

/-- Is it async? -/
def isAsync : Func → Bool
  | mk _ _ async _ _ _ => async

/-- Is it a generator? -/
def isGenerator : Func → Bool
  | mk _ _ _ generator _ _ => generator

/-- The body of a function. -/
def body : Func → FuncBody
  | mk _ _ _ _ _ body => body

/-- An arrow function is no generator. -/
structure IsArrowFunction (f : Func) : Prop where
  isArrow : f.isArrow = true
  isGenerator : f.isGenerator = false

/-- Only an arrow function is without braces around its body. -/
structure IsFunction (f : Func) : Prop where
  isArrow : f.isArrow = false
  body : ∃ body, f.body = .block body

end Func

/-! ### Methods and keys -/

namespace MethodKind

/-- The parameters that a method of this kind may have. -/
def Takes : MethodKind → List Param → Prop
  | get, params => params = []
  | set, params => ∃ p, params = [p] ∧ p.rest = false
  | constructor, _ => True
  | method, _ => True

/-- A method of this kind: only a plain one may be async or a generator. -/
structure Admits (kind : MethodKind) (f : Func) : Prop where
  isFunction : f.IsFunction
  takes : kind.Takes f.params
  isAsync : kind ≠ .method → f.isAsync = false
  isGenerator : kind ≠ .method → f.isGenerator = false

end MethodKind

namespace Key

/-- Is the key a private name? -/
def isPrivate : Key → Bool
  | privateName _ => true
  | _ => false

/-- The key is the word `constructor`, as a name or as a string. -/
def NamesConstructor (k : Key) : Prop :=
  ∃ key, k = .direct key ∧ key.text = "constructor" ∧ (key.kind = .identifier ∨ key.kind = .string)

theorem namesConstructor_iff (k : Key) :
    k.NamesConstructor ↔ (Grammar.constructorKey? k).isSome = true := by
  cases k with
  | direct key =>
    have hdirect : NamesConstructor (.direct key) ↔
        key.text = "constructor" ∧ (key.kind = .identifier ∨ key.kind = .string) :=
      ⟨fun ⟨_, heq, h⟩ => by cases heq; exact h, fun h => ⟨key, rfl, h⟩⟩
    rw [hdirect, Grammar.constructorKey?]
    split
    next h => simpa using h
    next h => simpa using h
  | computed value => exact ⟨fun ⟨_, heq, _⟩ => (nomatch heq), fun h => (nomatch h)⟩
  | privateName name => exact ⟨fun ⟨_, heq, _⟩ => (nomatch heq), fun h => (nomatch h)⟩

end Key

/-! ### Parts of a tree -/

namespace Node

/-- The operators that have sorts of expressions of their own. -/
def ownSorts : List Operator := [.call, .memberAccess, .computedMemberAccess, .conditional]

/-- What a part and the parts right below it have to be for each other. -/
def WellFormed : Node → Prop
  | expr (.binary _ op left _) =>
    op ∉ ownSorts ∧ (op.isAssignment = true → left.IsReference)
  | expr (.unary _ op argument) =>
    op = .delete → ∀ span object name, argument ≠ .privateMember span object name
  | expr (.arrow _ f) => f.IsArrowFunction
  | expr (.functionExpr _ _ f) => f.IsFunction
  | stmt (.functionDecl _ _ f) => f.IsFunction
  | member (.method _ k static kind f) =>
    k.isPrivate = false ∧ kind.Admits f
      ∧ (kind = .constructor ↔ static = false ∧ k.NamesConstructor)
  | member (.field _ k computed _) =>
    computed = k.isComputed ∧ ¬ k.NamesConstructor
      ∧ ∀ name, k = .privateName name → name.name ≠ "constructor"
  | objectMember (.method _ k kind f) =>
    k.isPrivate = false ∧ kind.Admits f ∧ kind ≠ .constructor
  | objectMember (.valued _ k _) => k.isPrivate = false
  | _ => True

end Node

end EcmaScript

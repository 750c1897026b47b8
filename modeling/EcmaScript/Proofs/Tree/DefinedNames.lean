import EcmaScript.Parser.Basic
import EcmaScript.Proofs.Tree.Nodes
import EcmaScript.Text.Escape

namespace EcmaScript

/-!
# Names of functions and classes

* `Node.definedName?` — the name that a function or a class has;
* `OpensDefinition` — a token that such a name may stand right behind;
* `Ident.IsTakenFrom` — a name that is a token as it is written;
* `Node.TakesName` — if the part has such a name, it was taken from the tokens;
* `Node.fieldValue?`, `Node.ClearDefinitions` — if the part is a field, no function or class in its
  value goes by the name `arguments`.
-/

/-- The name of a function or a class. -/
def Node.definedName? : Node → Option Ident
  | expr (.functionExpr _ name _) => name
  | expr (.classExpr _ name _ _) => name
  | stmt (.functionDecl _ name _) => some name
  | stmt (.classDecl _ name _ _) => some name
  | _ => none

/-- The name of a class stands behind its keyword, and the name of a function behind its keyword or
behind the star of a generator. -/
inductive OpensDefinition (token : Nat → Token) : Nat → Prop where
  | ofClass {k : Nat} : (token k).kind = .keyword .kClass → OpensDefinition token k
  | ofFunction {k : Nat} : (token k).kind = .keyword .kFunction → OpensDefinition token k
  | ofGenerator {k : Nat} : (token k).kind = .keyword .kFunction →
    (token (k + 1)).kind = .punctuator .asterisk → OpensDefinition token (k + 1)

/-- The name is the text of a token, escapes and all, and the token is one that may be a name. -/
structure Ident.IsTakenFrom (name : Ident) (t : Token) : Prop where
  span : name.span = t.span
  name : name.name = t.text
  allowed : ∃ rules : NameRules, rules.allows t.kind = true

/-- If the part is a function or a class with a name, this is a token right behind its keyword. -/
def Node.TakesName (token : Nat → Token) (n : Node) : Prop :=
  ∀ name ∈ n.definedName?, ∃ k, OpensDefinition token k ∧ name.IsTakenFrom (token (k + 1))

theorem Node.TakesName.of_none {token : Nat → Token} {n : Node} (h : n.definedName? = none) :
    n.TakesName token := by
  intro name hname
  rw [h] at hname
  cases hname

/-- The value of a field. -/
def Node.fieldValue? : Node → Option Expr
  | member (.field _ _ _ value) => value
  | _ => none

/-- If the part is a field with a value, what a function or a class in the value has for its name
does not spell `arguments`. -/
def Node.ClearDefinitions (n : Node) : Prop :=
  ∀ value ∈ n.fieldValue?,
    Throughout (fun m => ∀ name ∈ m.definedName?, Escape.decodeName? name.name ≠ some "arguments")
      (.expr value)

namespace Throughout

variable {P Q : Node → Prop} {n : Node}

theorem and (h : Throughout P n) (h' : Throughout Q n) : Throughout (fun m => P m ∧ Q m) n := by
  induction h with
  | intro hn _ ih =>
    cases h' with
    | intro hn' h' => exact .intro ⟨hn, hn'⟩ fun m hm => ih m hm (h' m hm)

end Throughout

end EcmaScript

import EcmaScript.Proofs.Tree.Nodes

namespace EcmaScript

/-!
# What may stand in field initializers

Neither `super` nor the name `arguments` may stand anywhere in the value of a field.

* `Node.Permitted` — a part that is neither of them itself;
* `Node.ClearInitializers` — a part which, if it is a field, has only such parts in its value.
-/

namespace Node

/-- The part is not `super`, and none of the names that belong to it is `arguments`. A key counts
only if it is spelled as a name, and the name of a function or a class does not. -/
def Permitted : Node → Prop
  | expr (.ident _ name) => name ≠ "arguments"
  | expr (.member _ _ name) => name ≠ "arguments"
  | expr (.superRef _) => False
  | param (.mk _ _ name _) => name.name ≠ "arguments"
  | declarator (.mk name _) => name.name ≠ "arguments"
  | objectMember (.shorthand _ name) => name.name ≠ "arguments"
  | key (.direct k) => k.kind = .identifier → k.text ≠ "arguments"
  | _ => True

/-- If the part is a field with a value, only permitted parts stand in the value. -/
def ClearInitializers (n : Node) : Prop :=
  ∀ span k computed value, n = .member (.field span k computed (some value)) →
    Throughout Permitted (.expr value)

end Node

end EcmaScript

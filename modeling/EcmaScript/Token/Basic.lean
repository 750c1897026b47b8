import EcmaScript.Span
import EcmaScript.Token.Kind

namespace EcmaScript

/-!
# Tokens

A token carries its text, so that what is read from a list of tokens does not depend on the source
they were cut from.
-/

/-- A piece of a source text with a meaning of its own. -/
structure Token where
  kind : TokenKind
  /-- The token's own text. -/
  text : String
  span : Span
  /-- A line ends somewhere between the token before and this one. -/
  newlineBefore : Bool
deriving DecidableEq, Repr, Inhabited

namespace Token

/-- The token that stands at the end of a text once a first one has been read there. -/
def endOfText (offset : Nat) : Token := ⟨.eof, "", Span.point offset, false⟩

end Token

end EcmaScript

import EcmaScript.Proofs.Lexer.NextLine

namespace EcmaScript

/-!
# Two texts with a semicolon between them

The tokens of two texts that stand behind each other, with a semicolon between them on a line of its
own.

* `Token.moved`, `Lexer.moved` — a token and a place further on;
* `Lexer.tokens_moved` — the tokens of a text do not depend on where it begins, but for their
  places;
* `Token.onNewLine`, `Lexer.tokens_lineFeed` — nor on an LF in front, but for the first one's line;
* `Lexer.tokens_joined` — the tokens of two texts with a semicolon between them.
-/

/-- The token at a place `k` bytes further on. -/
def Token.moved (k : Nat) (t : Token) : Token :=
  { t with span := ⟨t.span.start + k, t.span.stop + k⟩ }

/-- The same token behind the end of a line. -/
def Token.onNewLine (t : Token) : Token := { t with newlineBefore := true }

/-- A semicolon on a line of its own. -/
def Token.lineSemicolon (offset : Nat) : Token :=
  ⟨.punctuator .semicolon, ";", ⟨offset, offset + 1⟩, true⟩

namespace Lexer

/-- The same text `k` bytes further on. -/
def moved (k : Nat) (l : Lexer) : Lexer := { l with offset := l.offset + k }

theorem moved_skip (k : Nat) (l : Lexer) (n : Nat) : (l.moved k).skip n = (l.skip n).moved k := by
  simp only [skip, moved, Nat.add_right_comm]

theorem moved_token (k : Nat) (l : Lexer) (newline : Bool) :
    (l.moved k).token newline = ((l.token newline).1.moved k, (l.token newline).2.moved k) := by
  obtain ⟨offset, rest, privateNames⟩ := l
  cases rest with
  | nil => rfl
  | cons c rest =>
    simp only [token, moved_skip]
    rfl

theorem moved_next (k : Nat) (l : Lexer) :
    (l.moved k).next = (l.next.1.moved k, l.next.2.moved k) := by
  rw [next, moved_skip, moved_token]
  rfl

/-- **The tokens of a text are the same wherever it begins**, but for their places. -/
theorem tokens_moved (k : Nat) (l : Lexer) : (l.moved k).tokens = l.tokens.map (Token.moved k) := by
  rw [tokens_eq, moved_next, tokens_eq l]
  by_cases heof : l.next.1.kind = .eof
  · rw [if_pos heof]
    exact if_pos heof
  · have := next_rest_length_lt heof
    rw [if_neg heof, List.map_cons, ← tokens_moved k l.next.2]
    exact if_neg heof
termination_by l.rest.length

theorem token_onNewLine (l : Lexer) (newline : Bool) :
    l.token true = ((l.token newline).1.onNewLine, (l.token newline).2) := by
  obtain ⟨offset, rest, privateNames⟩ := l
  cases rest <;> rfl

/-- An LF in front ends a line. -/
theorem next_lineFeed (offset : Nat) (rest : List Char) (privateNames : Bool) :
    next ⟨offset, '\n' :: rest, privateNames⟩
      = ((next ⟨offset + 1, rest, privateNames⟩).1.onNewLine,
        (next ⟨offset + 1, rest, privateNames⟩).2) := by
  have hleading : Trivia.leading ('\n' :: rest) = .lineTerminator '\n' :: Trivia.leading rest := by
    rw [Trivia.leading]
    rfl
  have hskip (n : Nat) : skip ⟨offset, '\n' :: rest, privateNames⟩ (n + 1)
      = skip ⟨offset + 1, rest, privateNames⟩ n := by
    have hsize : '\n'.utf8Size = 1 := rfl
    simp only [skip, List.take_succ_cons, List.drop_succ_cons, byteLength_cons, hsize,
      Nat.add_assoc]
  rw [next, hleading, next, ← token_onNewLine, List.any_cons, List.flatMap_cons]
  exact congrArg (fun l => token l true) (hskip _)

theorem tokens_lineFeed (offset : Nat) (rest : List Char) (privateNames : Bool) :
    tokens ⟨offset, '\n' :: rest, privateNames⟩
      = (tokens ⟨offset + 1, rest, privateNames⟩).modifyHead Token.onNewLine := by
  rw [tokens_eq, next_lineFeed, tokens_eq ⟨offset + 1, rest, privateNames⟩]
  by_cases heof : (next ⟨offset + 1, rest, privateNames⟩).1.kind = .eof
  · rw [if_pos heof]
    exact if_pos heof
  · rw [if_neg heof]
    exact if_neg heof

/-- **The tokens of two texts with a semicolon between them.** Those of the first text come first,
if none of them is invalid and no comment is open at its end, and behind the semicolon come those of
the second one. -/
theorem tokens_joined {first : String} {privateNames : Bool}
    (hvalid : ∀ t ∈ (ofString first privateNames).tokens, t.kind ≠ .invalid)
    (hopen : (ofString first privateNames).endsInComment = false) (second : String) :
    ∃ inner last, (ofString first privateNames).tokens = inner ++ [last] ∧ last.kind = .eof
      ∧ (ofString (first ++ "\n;\n" ++ second) privateNames).tokens
        = inner ++ Token.lineSemicolon (first.utf8ByteSize + 1) ::
          ((ofString second privateNames).tokens.map
            (Token.moved (first.utf8ByteSize + 3))).modifyHead Token.onNewLine := by
  obtain ⟨inner, last, hfirst, hlast, hjoined⟩ :=
    tokens_withLine (ofString first privateNames) hvalid hopen ('\n' :: second.toList)
  have hsource : (ofString first privateNames).withLine (';' :: '\n' :: second.toList)
      = ofString (first ++ "\n;\n" ++ second) privateNames := by
    simp [withLine, ofString]
  have hlength : (ofString first privateNames).offset
        + byteLength (ofString first privateNames).rest
      = first.utf8ByteSize := by
    simp [ofString, byteLength_toList]
  have hplace : (⟨first.utf8ByteSize + 2 + 1, second.toList, privateNames⟩ : Lexer)
      = (ofString second privateNames).moved (first.utf8ByteSize + 3) := by
    simp [ofString, moved]
  rw [hsource, hlength] at hjoined
  refine ⟨inner, last, hfirst, hlast, hjoined.trans ?_⟩
  rw [← tokens_moved, ← hplace, ← tokens_lineFeed]
  rfl

end Lexer

end EcmaScript

import EcmaScript.Lexeme
import EcmaScript.Token.Basic
import EcmaScript.Trivia

namespace EcmaScript

/-!
# The lexer

A lexer is a place in a source text. It never fails: text that is no token comes out as an invalid
token.

* `Lexer.next` — the next token, and the lexer after it;
* `Lexer.tokens` — all the tokens, through the first one for the end of the text;
* `Lexer.skip_offset` — the offset and the bytes that are left add up to the length of the text;
* `Lexer.next_rest_length_lt` — every token before that one takes some text away.
-/

/-- A place in a source text. -/
structure Lexer where
  /-- Byte offset of the place. -/
  offset : Nat
  /-- The text from there on. -/
  rest : List Char
  /-- Whether `#name` is read as a private name. -/
  privateNames : Bool
deriving DecidableEq, Repr, Inhabited

namespace Lexer

/-- The start of a text. -/
def ofString (source : String) (privateNames : Bool) : Lexer := ⟨0, source.toList, privateNames⟩

/-- Number of bytes of a text in UTF-8. -/
def byteLength (cs : List Char) : Nat := cs.foldl (fun n c => n + c.utf8Size) 0

theorem foldl_utf8Size (n : Nat) (cs : List Char) :
    cs.foldl (fun n c => n + c.utf8Size) n = n + byteLength cs := by
  induction cs generalizing n with
  | nil => rfl
  | cons c cs ih =>
    rw [byteLength, List.foldl_cons, List.foldl_cons, ih, ih (0 + c.utf8Size)]
    omega

@[simp] theorem byteLength_nil : byteLength [] = 0 := rfl

@[simp] theorem byteLength_cons (c : Char) (cs : List Char) :
    byteLength (c :: cs) = c.utf8Size + byteLength cs := by
  rw [byteLength, List.foldl_cons, foldl_utf8Size, Nat.zero_add]

@[simp] theorem byteLength_append (cs ds : List Char) :
    byteLength (cs ++ ds) = byteLength cs + byteLength ds := by
  rw [byteLength, List.foldl_append, foldl_utf8Size]
  rfl

/-- The bytes of a text are those of its characters. -/
theorem byteLength_ofList (cs : List Char) : (String.ofList cs).utf8ByteSize = byteLength cs := by
  induction cs with
  | nil => rfl
  | cons c cs ih =>
    rw [byteLength_cons, ← ih, ← List.singleton_append, String.ofList_append,
      String.utf8ByteSize_append]
    simp

theorem byteLength_toList (s : String) : byteLength s.toList = s.utf8ByteSize := by
  rw [← byteLength_ofList, String.ofList_toList]

/-- The place `n` characters further on. -/
def skip (l : Lexer) (n : Nat) : Lexer :=
  { l with offset := l.offset + byteLength (l.rest.take n), rest := l.rest.drop n }

/-- The lexeme at this place, never an empty one. -/
def lexeme (l : Lexer) : Lexeme :=
  let found := Lexeme.read l.privateNames l.rest
  { found with length := max found.length 1 }

/-- The token at this place, where no trivia stands, and the place after it. At the end of the text
the place stays. -/
def token (l : Lexer) (newline : Bool) : Token × Lexer :=
  match l.rest with
  | [] => ({ Token.endOfText l.offset with newlineBefore := newline }, l)
  | _ :: _ =>
    let found := l.lexeme
    let stop := l.skip found.length
    (⟨found.kind, String.ofList (l.rest.take found.length), ⟨l.offset, stop.offset⟩, newline⟩, stop)

/-- The next token, and the place after it. -/
def next (l : Lexer) : Token × Lexer :=
  let trivia := Trivia.leading l.rest
  -- The flag of the end of the text is that of the trivia right before it, as for any token.
  (l.skip (trivia.flatMap Trivia.chars).length).token (trivia.any Trivia.endsLine)

/-- The offset and the rest of the text stay in step. -/
theorem skip_offset (l : Lexer) (n : Nat) :
    (l.skip n).offset + byteLength (l.skip n).rest = l.offset + byteLength l.rest := by
  rw [skip, Nat.add_assoc, ← byteLength_append, List.take_append_drop]

theorem skip_rest_length (l : Lexer) (n : Nat) : (l.skip n).rest.length = l.rest.length - n := by
  simp [skip]

theorem token_rest_length_lt {l : Lexer} {newline : Bool} (h : (l.token newline).1.kind ≠ .eof) :
    (l.token newline).2.rest.length < l.rest.length := by
  unfold token at h ⊢
  split at h
  · exact absurd rfl h
  · rename_i c rest hrest
    have hpos : 0 < l.lexeme.length := by
      simp only [lexeme]
      omega
    simp only [skip_rest_length, hrest, List.length_cons]
    omega

/-- A token other than the end of the text takes some text away. -/
theorem next_rest_length_lt {l : Lexer} (h : l.next.1.kind ≠ .eof) :
    l.next.2.rest.length < l.rest.length := by
  refine Nat.lt_of_lt_of_le (token_rest_length_lt h) ?_
  simp [skip_rest_length]

/-- The tokens from this place on, through the end of the text. -/
def tokens (l : Lexer) : List Token :=
  match _h : l.next with
  | (t, after) => if _h' : t.kind = .eof then [t] else t :: tokens after
termination_by l.rest.length
decreasing_by
  have := next_rest_length_lt (l := l) (by simpa [_h] using _h')
  simpa [_h] using this

end Lexer

end EcmaScript

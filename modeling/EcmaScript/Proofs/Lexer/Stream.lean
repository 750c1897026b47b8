import EcmaScript.Proofs.Grammar.Locations
import EcmaScript.Proofs.Lexer.NextLine

namespace EcmaScript

/-!
# The tokens one after the other

The list of the tokens of a text ends with the end of the text. A lexer that is asked again gives
that end once more, as does a parser that reads on.

* `Lexer.stream` — the tokens that a lexer gives one after the other, without end;
* `Lexer.getD_tokens`, `Context.token_ofSource_eq_stream` — the list goes on as they do.
-/

namespace Lexer

/-- Behind the next `n` tokens. -/
def after (l : Lexer) (n : Nat) : Lexer := (fun m : Lexer => m.next.2)^[n] l

/-- The tokens from this place on; behind the end of the text it ends again and again. -/
def stream (l : Lexer) (n : Nat) : Token := (l.after n).next.1

theorem after_succ (l : Lexer) (n : Nat) : l.after (n + 1) = (l.after n).next.2 :=
  Function.iterate_succ_apply' ..

theorem stream_succ (l : Lexer) (n : Nat) : l.stream (n + 1) = l.next.2.stream n := by
  rw [stream, stream, after, Function.iterate_succ_apply]
  rfl

/-- A lexer stands where the token that it has read last stops. -/
theorem next_stop (l : Lexer) : l.next.1.span.stop = l.next.2.offset := by
  have htoken (m : Lexer) (newline : Bool) :
      (m.token newline).1.span.stop = (m.token newline).2.offset := by
    unfold token
    split <;> rfl
  exact htoken _ _

/-- At the end of the text there is no text left. -/
theorem next_rest_of_eof {l : Lexer} (h : l.next.1.kind = .eof) : l.next.2.rest = [] := by
  have htoken (m : Lexer) (newline : Bool) (h : (m.token newline).1.kind = .eof) :
      (m.token newline).2.rest = [] := by
    unfold token at h ⊢
    split at h
    next hrest => exact hrest
    next c cs hrest =>
      refine absurd h ?_
      simp only [lexeme, hrest]
      exact Lexeme.read_cons_kind_ne_eof _ c cs
  exact htoken _ _ h

/-- Behind the end of the text there is that end. -/
theorem stream_atEnd (offset : Nat) (privateNames : Bool) (n : Nat) :
    stream ⟨offset, [], privateNames⟩ n = .endOfText offset := by
  induction n with
  | zero => exact congrArg Prod.fst (next_atEnd offset privateNames)
  | succ n ih => rw [stream_succ, next_atEnd, ih]

/-- The list of the tokens goes on as the tokens do. -/
theorem getD_tokens (l : Lexer) (n : Nat) :
    l.tokens.getD n (.endOfText (l.offset + byteLength l.rest)) = l.stream n := by
  induction n generalizing l with
  | zero =>
    rw [tokens_eq]
    split <;> rfl
  | succ n ih =>
    rw [tokens_eq, stream_succ, ← l.next_offset]
    split
    next heof =>
      have hrest := next_rest_of_eof heof
      generalize l.next.2 = m at hrest
      obtain ⟨offset, rest, privateNames⟩ := m
      obtain rfl : rest = [] := hrest
      rw [stream_atEnd]
      rfl
    next => exact ih l.next.2

end Lexer

/-- The tokens of a source are those that the lexer gives one after the other. -/
theorem Context.token_ofSource_eq_stream (source : String) (privateNames : Bool)
    (options : Options) (i : Nat) :
    (ofSource source privateNames options).token i
      = (Lexer.ofString source privateNames).stream i := by
  rw [token_ofSource_eq, ← Lexer.getD_tokens]
  simp only [Lexer.ofString, Nat.zero_add, Lexer.byteLength_toList]

end EcmaScript

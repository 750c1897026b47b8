import EcmaScript.Proofs.Lexer.NextToken

namespace EcmaScript

/-!
# Texts that go on on the next line

A text that goes on on a new line begins with the same tokens, because no token becomes longer by
what stands there. Only a comment `/* … */` may go on behind the end of the line, and a token that
is invalid because the text breaks off.
-/

/-! ### Trivia -/

namespace Trivia

variable {gap : List Trivia} {cs after : List Char}

/-- A block comment that nothing ends. -/
def isOpen : Trivia → Bool
  | blockComment body => !closing.isSuffixOf body
  | _ => false

/-- Where nothing but trivia is left, a new line belongs to it, unless it is inside of a comment. -/
theorem Fills.newLine (h : Fills gap after) (hafter : after = []) (hopen : gap.any isOpen = false)
    (more : List Char) :
    ∃ gap', Fills gap' more ∧ gap'.flatMap chars = gap.flatMap chars ++ ['\n']
      ∧ gap'.any endsLine = true := by
  induction h with
  | nil => exact ⟨[.lineTerminator '\n'], .cons (.lineTerminator (by decide)) .nil, rfl, rfl⟩
  | @cons t rest after hpiece hrest ih =>
    subst hafter
    rw [List.any_cons, Bool.or_eq_false_iff] at hopen
    obtain ⟨gap', hfills, hchars, hline⟩ := ih rfl hopen.2
    -- A piece that has an end of its own stays as it is.
    have closed (hclosed : ∀ after, IsPiece t after) :
        ∃ gap', Fills gap' more ∧ gap'.flatMap chars = (t :: rest).flatMap chars ++ ['\n']
          ∧ gap'.any endsLine = true := by
      refine ⟨t :: gap', .cons (hclosed _) hfills, ?_, by rw [List.any_cons, hline, Bool.or_true]⟩
      rw [List.flatMap_cons, List.flatMap_cons, hchars, List.append_assoc]
    generalize htail : rest.flatMap chars ++ [] = tail at hpiece
    cases hpiece with
    | whitespace hc => exact closed fun _ => .whitespace hc
    | lineTerminator hc => exact closed fun _ => .lineTerminator hc
    | lineComment hbody => exact closed fun _ => .lineComment hbody
    | blockComment hbody => exact closed fun _ => .blockComment hbody
    | @openLineComment body hbody =>
      -- The end of the line becomes that of the comment.
      refine ⟨[.lineComment (body ++ ['\n'])], .cons (.lineComment hbody) .nil, ?_, rfl⟩
      rw [List.append_nil] at htail
      simp [chars, htail]
    | openBlockComment hbody =>
      refine absurd (List.IsSuffix.isInfix ?_) hbody
      simpa [isOpen] using hopen.1

end Trivia

/-! ### Tokens -/

namespace Lexer

/-- The trivia in front of the end of the text. -/
def lastTrivia (l : Lexer) : List Trivia :=
  if _h : l.next.1.kind = .eof then Trivia.leading l.rest else lastTrivia l.next.2
termination_by l.rest.length
decreasing_by exact next_rest_length_lt _h

/-- Does the text end inside of a block comment that nothing ends? -/
def endsInComment (l : Lexer) : Bool := l.lastTrivia.any Trivia.isOpen

/-- The same place of a text that goes on on a new line. -/
def withLine (l : Lexer) (more : List Char) : Lexer := { l with rest := l.rest ++ '\n' :: more }

/-- A valid token is the same if the text goes on on a new line. -/
theorem next_withLine {l : Lexer} (heof : l.next.1.kind ≠ .eof) (hvalid : l.next.1.kind ≠ .invalid)
    (more : List Char) :
    (l.withLine more).next = (l.next.1, l.next.2.withLine more) := by
  obtain ⟨gap, kind, text, rest, hcut⟩ := exists_cut heof
  have hne : text ++ rest ≠ [] := List.append_ne_nil_of_left_ne_nil hcut.text_ne_nil rest
  have hrest : (l.withLine more).rest
      = gap.flatMap Trivia.chars ++ (text ++ (rest ++ '\n' :: more)) := by
    rw [withLine, hcut.rest_eq]
    simp
  have hfills := hcut.fills.of_ne_nil hne (text ++ (rest ++ '\n' :: more))
  rw [hcut.next] at hvalid
  rw [← List.append_nil rest] at hcut
  -- An LF belongs to no name.
  have hcut' := hcut.separate (m := l.withLine more) hvalid (by decide)
    (fun habsorbs => absurd habsorbs.2 (by decide)) rfl hrest hfills
  rw [List.append_nil] at hcut
  rw [hcut'.next, hcut.next]
  rfl

/-- At the end of the text, the next token of a text that goes on is the first one of the next
line. -/
theorem next_withLine_atEnd {l : Lexer} (heof : l.next.1.kind = .eof)
    (hopen : l.endsInComment = false) {more : List Char} (hnone : Trivia.take? more = none) :
    (l.withLine more).next
      = token ⟨l.offset + byteLength l.rest + 1, more, l.privateNames⟩ true := by
  obtain ⟨gap, after, hrest, hgap, hfills, -, hnext⟩ := l.next_eq
  rw [endsInComment, lastTrivia, dif_pos heof, hgap] at hopen
  cases after with
  | cons c cs =>
    rw [hnext] at heof
    exact absurd heof (Lexeme.read_cons_kind_ne_eof _ c cs)
  | nil =>
    obtain ⟨gap', hfills', hchars, hline⟩ := hfills.newLine rfl hopen more
    rw [List.append_nil] at hrest
    have hrest' : (l.withLine more).rest = gap'.flatMap Trivia.chars ++ more := by
      rw [hchars, List.append_assoc, ← hrest]
      rfl
    have hlength : byteLength (gap'.flatMap Trivia.chars) = byteLength l.rest + 1 := by
      rw [hchars, byteLength_append, ← hrest]
      rfl
    rw [next_of_fills hrest' hfills' hnone, hline, hlength]
    rfl

/-- The offset and the rest of the text stay in step. -/
theorem next_offset (l : Lexer) :
    l.next.2.offset + byteLength l.next.2.rest = l.offset + byteLength l.rest := by
  have htoken (m : Lexer) (newline : Bool) : (m.token newline).2.offset
      + byteLength (m.token newline).2.rest = m.offset + byteLength m.rest := by
    unfold token
    split
    next => rfl
    next => exact m.skip_offset _
  exact (htoken _ _).trans (l.skip_offset _)

/-- A semicolon is a token by itself. -/
theorem token_semicolon (offset : Nat) (rest : List Char) (privateNames newline : Bool) :
    token ⟨offset, ';' :: rest, privateNames⟩ newline
      = (⟨.punctuator .semicolon, ";", ⟨offset, offset + 1⟩, newline⟩,
        ⟨offset + 1, rest, privateNames⟩) := by
  have hread : Lexeme.read privateNames (';' :: rest) = ⟨.punctuator .semicolon, 1⟩ := rfl
  simp only [token, lexeme, hread]
  rfl

/-- **The tokens of a text that goes on on a new line with a semicolon.** Those of the text come
first, if none of them is invalid and no comment is open at its end. -/
theorem tokens_withLine (l : Lexer) (hvalid : ∀ t ∈ l.tokens, t.kind ≠ .invalid)
    (hopen : l.endsInComment = false) (rest : List Char) :
    ∃ inner last, l.tokens = inner ++ [last] ∧ last.kind = .eof
      ∧ (l.withLine (';' :: rest)).tokens = inner
        ++ ⟨.punctuator .semicolon, ";", ⟨l.offset + byteLength l.rest + 1,
            l.offset + byteLength l.rest + 2⟩, true⟩
          :: tokens ⟨l.offset + byteLength l.rest + 2, rest, l.privateNames⟩ := by
  rw [tokens_eq l] at hvalid ⊢
  by_cases heof : l.next.1.kind = .eof
  · rw [if_pos heof]
    refine ⟨[], l.next.1, rfl, heof, ?_⟩
    have hnone : Trivia.take? (';' :: rest) = none := rfl
    have hnext := next_withLine_atEnd heof hopen hnone
    rw [token_semicolon] at hnext
    rw [tokens_eq, hnext, if_neg nofun]
    rfl
  · rw [if_neg heof] at hvalid ⊢
    have hnext := next_withLine heof (hvalid _ List.mem_cons_self) (';' :: rest)
    have hopen' : l.next.2.endsInComment = false := by
      rwa [endsInComment, lastTrivia, dif_neg heof] at hopen
    have := next_rest_length_lt heof
    obtain ⟨inner, last, htokens, hlast, hjoined⟩ := tokens_withLine l.next.2
      (fun t ht => hvalid t (List.mem_cons_of_mem _ ht)) hopen' rest
    refine ⟨l.next.1 :: inner, last, by rw [htokens]; rfl, hlast, ?_⟩
    rw [tokens_eq, hnext, if_neg heof, hjoined, next_offset, next_privateNames]
    rfl
termination_by l.rest.length

end Lexer

end EcmaScript

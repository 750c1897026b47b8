import EcmaScript.Proofs.Grammar.Locations
import EcmaScript.Proofs.Lexer.Modes

namespace EcmaScript

/-!
# Slices of a source

A token has the text that stands at its place. What is taken from a token by dropping a quote or a
sigil at its ends is a slice of the source as well, because these characters are of one byte.

* `Span.Cuts` — a place in a source, with the text that stands there;
* `Lexer.text_of_string`, `Lexer.text_sigil` — what strings and private names look like;
* `Context.token_cuts`, `Context.body_cuts`, `Context.name_cuts` — tokens, the bodies of strings and
  the names behind sigils are slices.
-/

/-- At this place in the source stands this text. -/
def Span.Cuts (span : Span) (source : String) (text : List Char) : Prop :=
  ∃ before after, source.toList = before ++ text ++ after
    ∧ span.start = Lexer.byteLength before
    ∧ span.stop = Lexer.byteLength before + Lexer.byteLength text

/-- A place where a text stands begins and ends between characters of the source. -/
theorem Span.Cuts.isIn {span : Span} {source : String} {text : List Char}
    (h : span.Cuts source text) : span.IsIn source := by
  obtain ⟨before, after, hsource, hstart, hstop⟩ := h
  have hsize := congrArg Lexer.byteLength hsource
  rw [Lexer.byteLength_toList, Lexer.byteLength_append, Lexer.byteLength_append] at hsize
  have hend := isValid_byteLength hsource
  rw [Lexer.byteLength_append] at hend
  refine ⟨by omega, by omega, ?_, ?_⟩
  · rw [hstart]
    exact isValid_byteLength (by rw [hsource, List.append_assoc])
  · rwa [hstop]

/-- Behind the first character of a text, up to the last one. -/
theorem Span.Cuts.inner {span : Span} {source : String} {first last text : List Char}
    (h : span.Cuts source (first ++ text ++ last)) :
    Span.Cuts ⟨span.start + Lexer.byteLength first, span.stop - Lexer.byteLength last⟩ source
      text := by
  obtain ⟨before, after, hsource, hstart, hstop⟩ := h
  refine ⟨before ++ first, last ++ after, ?_, ?_, ?_⟩
  · rw [hsource]
    simp only [List.append_assoc]
  · rw [hstart, Lexer.byteLength_append]
  · rw [hstop]
    simp only [Lexer.byteLength_append]
    omega

/-! ### Texts of strings and private names -/

/-- A string reaches through the quote that closes it. -/
theorem Lexeme.stringTail_closed {quote : Char} {n : Nat} {cs : List Char}
    (h : (stringTail quote n cs).kind = .string) :
    ∃ body after, cs = body ++ quote :: after
      ∧ (stringTail quote n cs).length = n + body.length + 1 := by
  fun_induction stringTail quote n cs with
  | case1 => cases h
  | case2 => cases h
  | case3 n c rest ih =>
    obtain ⟨body, after, rfl, hlength⟩ := ih h
    refine ⟨'\\' :: c :: body, after, rfl, ?_⟩
    rw [hlength]
    simp only [List.length_cons]
    omega
  | case4 => cases h
  | case5 n rest => exact ⟨[], rest, rfl, rfl⟩
  | case6 n c rest _ _ _ _ ih =>
    obtain ⟨body, after, rfl, hlength⟩ := ih h
    refine ⟨c :: body, after, rfl, ?_⟩
    rw [hlength]
    simp only [List.length_cons]
    omega

namespace Lexer

/-- A string is a body between two quotes. -/
theorem text_of_string (l : Lexer) : ∀ t ∈ l.tokens, t.kind = .string →
    ∃ quote body, (quote = '"' ∨ quote = '\'') ∧ t.text.toList = [quote] ++ body ++ [quote] := by
  refine forall_mem_tokens l fun m newline _ => ?_
  unfold token
  split
  · exact fun h => by cases h
  · intro h
    obtain ⟨quote, rest, hrest, hquote, hread⟩ := Lexeme.string_of_read h
    have hkind : (Lexeme.stringTail quote 1 rest).kind = .string := by
      rw [← Lexeme.string, ← hread]
      exact h
    obtain ⟨body, after, rfl, hlength⟩ := Lexeme.stringTail_closed hkind
    have hfound : m.lexeme.length = 1 + body.length + 1 := by
      rw [lexeme, hread, Lexeme.string]
      dsimp only
      omega
    refine ⟨quote, body, hquote, ?_⟩
    show (String.ofList (m.rest.take m.lexeme.length)).toList = _
    rw [String.toList_ofList, hfound, hrest]
    simp [Nat.add_comm 1, List.take_append]

/-- A private name is a sigil and what may be a name. -/
theorem text_sigil (l : Lexer) : ∀ t ∈ l.tokens, t.kind = .privateName →
    t.text.toList = ['#'] ++ t.text.toList.drop 1 := by
  refine forall_mem_tokens l fun m newline _ => ?_
  unfold token
  split
  · exact fun h => by cases h
  · intro h
    obtain ⟨-, after, hrest, -⟩ := Lexeme.privateName_of_read h
    have hpos := (lexeme_length (l := m) (by simp [hrest])).1
    obtain ⟨n, hn⟩ := Nat.exists_eq_add_of_lt hpos
    rw [Nat.zero_add] at hn
    simp only [String.toList_ofList, hrest, hn, List.take_succ_cons]
    rfl

end Lexer

/-! ### Slices -/

namespace Context

variable (source : String) (privateNames : Bool) (options : Options) (i : Nat)

/-- A token is a slice of the source. -/
theorem token_cuts : ((ofSource source privateNames options).token i).span.Cuts source
    ((ofSource source privateNames options).token i).text.toList := by
  have htile : Lexer.Tiles 0 source.toList (Lexer.ofString source privateNames).tokens :=
    Lexer.tokens_tile (Lexer.ofString source privateNames)
  rw [token_ofSource_eq, List.getD_eq_getElem?_getD]
  by_cases hi : i < (Lexer.ofString source privateNames).tokens.length
  · rw [List.getElem?_eq_getElem hi]
    obtain ⟨before, after, hsource, hspan⟩ := htile.slice (List.getElem_mem hi)
    rw [Nat.zero_add] at hspan
    exact ⟨before, after, hsource, congrArg Span.start hspan, congrArg Span.stop hspan⟩
  · -- Behind the last token the text ends again.
    rw [List.getElem?_eq_none (Nat.le_of_not_lt hi)]
    refine ⟨source.toList, [], by simp [Token.endOfText], ?_, ?_⟩
    · rw [Lexer.byteLength_toList]
      rfl
    · rw [Lexer.byteLength_toList]
      rfl

variable {source privateNames options i}

/-- What stands between the quotes of a string is a slice. -/
theorem body_cuts (h : ((ofSource source privateNames options).token i).kind = .string) :
    Span.Cuts ⟨((ofSource source privateNames options).token i).span.start + 1,
        ((ofSource source privateNames options).token i).span.stop - 1⟩ source
      (((ofSource source privateNames options).token i).text.toList.drop 1).dropLast := by
  obtain hmem | hend := token_ofSource source privateNames options i
  · have hcuts := token_cuts source privateNames options i
    obtain ⟨quote, body, hquote, htext⟩ := Lexer.text_of_string _ _ hmem h
    have hsize : Lexer.byteLength [quote] = 1 := by
      rcases hquote with rfl | rfl <;> rfl
    have hbody : (([quote] ++ body ++ [quote]).drop 1).dropLast = body := by simp
    rw [htext] at hcuts ⊢
    rw [hbody, ← hsize]
    exact hcuts.inner
  · rw [h] at hend
    cases hend

/-- What stands behind the sigil of a private name is a slice. -/
theorem name_cuts (h : ((ofSource source privateNames options).token i).kind = .privateName) :
    Span.Cuts ⟨((ofSource source privateNames options).token i).span.start + 1,
        ((ofSource source privateNames options).token i).span.stop⟩ source
      (((ofSource source privateNames options).token i).text.toList.drop 1) := by
  obtain hmem | hend := token_ofSource source privateNames options i
  · have hcuts := token_cuts source privateNames options i
    rw [Lexer.text_sigil _ _ hmem h, ← List.append_nil (['#'] ++ _)] at hcuts
    exact hcuts.inner
  · rw [h] at hend
    cases hend

end Context

end EcmaScript

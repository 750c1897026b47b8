import EcmaScript.Proofs.Lexer.Names
import EcmaScript.Proofs.Lexer.NextLine
import EcmaScript.Proofs.Relation.SameTokens

namespace EcmaScript

/-!
# Lines of words

Words with blanks between them, and a semicolon at the end, are cut into these words again: no word
runs into the next one, none begins a comment, and no line ends between them.

* `Word` — a token to be written: its kind and its text;
* `Lexeme.isPlainName` — the texts that are names without escapes;
* `Word.Separate` — the word is read as it stands where a blank or a semicolon follows;
* `Word.separate_name`, `Word.separate_punctuator`, `Word.separate_keyword` — names, punctuators and
  keywords are separate;
* `Context.shape_line` — the tokens of a line are its words.
-/

/-- A token to be written: its kind and its text. -/
structure Word where
  kind : TokenKind
  text : String
deriving DecidableEq, Repr

namespace Word

/-- A name. -/
def name (text : String) : Word := ⟨.identifier, text⟩

/-- The word of a kind whose tokens all have the same text. -/
def sign (kind : TokenKind) : Word :=
  ⟨kind, (kind.keywordSpelling?.or kind.symbolSpelling?).getD ""⟩

/-- Words on one line, with blanks between them. -/
def line (ws : List Word) : String := " ".intercalate (ws.map text)

/-- What the grammar asks of the token that the word becomes. -/
def shape (w : Word) : TokenKind × String × Bool := (w.kind, w.text, false)

/-- What may follow a word on a line: nothing, a blank, a semicolon. -/
inductive EndsWord : List Char → Prop where
  | nil : EndsWord []
  | blank (cs : List Char) : EndsWord (' ' :: cs)
  | semicolon (cs : List Char) : EndsWord (';' :: cs)

/-- Where a word may end, this one is read as it stands, and it begins no trivia. -/
structure Separate (w : Word) : Prop where
  take? {rest : List Char} : EndsWord rest → Trivia.take? (w.text.toList ++ rest) = none
  read (privateNames : Bool) {rest : List Char} : EndsWord rest →
    Lexeme.read privateNames (w.text.toList ++ rest) = ⟨w.kind, w.text.toList.length⟩

namespace Separate

variable {w : Word}

theorem ne_nil (hw : w.Separate) : w.text.toList ≠ [] := by
  intro hnil
  have htake := hw.take? (.blank [])
  rw [hnil] at htake
  exact absurd htake (by decide)

theorem kind_ne_eof (hw : w.Separate) : w.kind ≠ .eof := by
  have hread := hw.read true .nil
  obtain ⟨c, cs, hcons⟩ := List.exists_cons_of_ne_nil hw.ne_nil
  rw [hcons, List.cons_append] at hread
  have hkind := Lexeme.read_cons_kind_ne_eof true c (cs ++ [])
  rwa [hread] at hkind

end Separate

end Word

open Word

/-! ### Punctuators and keywords -/

/-- No punctuator goes on with a blank or a semicolon. -/
theorem Punctuator.notMem_tail (p : Punctuator) :
    ' ' ∉ p.spelling.toList.tail ∧ ';' ∉ p.spelling.toList.tail := by
  cases p <;> decide

theorem Punctuator.longest?_spelling (p : Punctuator) : longest? p.spelling.toList = some p := by
  cases p <;> decide

theorem Punctuator.longest?_append {rest : List Char} (hrest : EndsWord rest) (p : Punctuator) :
    longest? (p.spelling.toList ++ rest) = some p := by
  have hne : p.spelling.toList ≠ [] := List.length_pos_iff.1 p.spelling_length_pos
  have hlongest := p.longest?_spelling
  cases hrest with
  | nil => rwa [List.append_nil]
  | blank cs =>
    have hprefix (q : Punctuator) := isPrefixOf_append hne cs q.notMem_tail.1
    simpa only [longest?, hprefix] using hlongest
  | semicolon cs =>
    have hprefix (q : Punctuator) := isPrefixOf_append hne cs q.notMem_tail.2
    simpa only [longest?, hprefix] using hlongest

/-- A punctuator where a word may end begins no other lexeme, and no trivia. -/
theorem Word.separate_punctuator (p : Punctuator) : (sign (.punctuator p)).Separate := by
  have htext : (sign (.punctuator p)).text = p.spelling := rfl
  refine ⟨fun {rest} hrest => ?_, fun privateNames {rest} hrest => ?_⟩
  · rw [htext]
    cases hrest <;> cases p <;> rfl
  · have hread : Lexeme.read privateNames (p.spelling.toList ++ rest)
        = Lexeme.punctuator (p.spelling.toList ++ rest) := by
      cases hrest <;> cases p <;> rfl
    rw [htext, hread, Lexeme.punctuator, Punctuator.longest?_append hrest]
    simp [sign, String.length_toList]

/-! ### Names -/

namespace Lexeme

/-- Can the character stand in a name without being escaped? -/
def isNameChar (c : Char) : Bool := CharSet.identifierContinue.has c || isForeignLetter c

/-- A name without escapes, which is no keyword. Behind a keyword the lexer ends a word even where a
letter beyond ASCII follows, so no keyword may stand there either. -/
def isPlainName (name : String) : Bool :=
  match name.toList with
  | [] => false
  | c :: cs =>
    !CharSet.decimalDigit.has c && !CharSet.whitespace.has c && (c :: cs).all isNameChar
      && (Keyword.ofSpelling?
        (String.ofList ((c :: cs).takeWhile CharSet.identifierContinue.has))).isNone

theorem isNameChar_of_isPlainName {name : String} (h : isPlainName name = true) :
    ∀ c ∈ name.toList, isNameChar c = true := by
  rw [isPlainName] at h
  split at h
  next => cases h
  next hcons =>
    simp only [Bool.and_eq_true, List.all_eq_true] at h
    rw [hcons]
    exact h.1.2

/-- A plain name spells itself. -/
theorem decodeName?_of_isPlainName {name : String} (h : isPlainName name = true) :
    Escape.decodeName? name = some name := by
  rw [Escape.decodeName?, if_neg]
  intro hmem
  have hchar := isNameChar_of_isPlainName h _ (List.contains_iff_mem.1 hmem)
  exact absurd hchar (by decide)

/-- The digits are what a name may go on with and not begin with. -/
theorem identifierStart_of_not_digit {c : Char} (hc : CharSet.identifierContinue.has c = true)
    (hdigit : CharSet.decimalDigit.has c = false) : CharSet.identifierStart.has c = true := by
  simp only [CharSet.identifierContinue, CharSet.identifierStart, CharSet.decimalDigit,
    CharSet.ofRanges, CharSet.has, CharSet.covers, List.any_cons, List.any_nil] at hc hdigit ⊢
  grind

/-- A character of a name ends no line. -/
theorem lineTerminator_of_isNameChar {c : Char} (hc : isNameChar c = true) :
    CharSet.lineTerminator.has c = false := by
  by_contra h
  rw [Bool.not_eq_false, CharSet.lineTerminator, CharSet.has_ofList] at h
  simp only [List.mem_cons, List.not_mem_nil, or_false] at h
  obtain rfl | rfl | rfl | rfl := h
  all_goals exact absurd hc (by decide)

/-- A name ends where a word does. -/
theorem identifierTail_append {rest : List Char} (hrest : EndsWord rest) {cs : List Char}
    (hcs : ∀ c ∈ cs, isNameChar c = true) : identifierTail (cs ++ rest) = cs.length := by
  induction cs with
  | nil => cases hrest <;> rw [List.nil_append, identifierTail] <;> rfl
  | cons c cs ih =>
    have hc : (CharSet.identifierContinue.has c || isForeignLetter c) = true :=
      hcs c List.mem_cons_self
    rw [List.cons_append, identifierTail, if_pos hc]
    rw [ih fun c hc => hcs c (List.mem_cons_of_mem _ hc), List.length_cons]

/-- What decides whether a word is a keyword ends where the word does. -/
theorem takeWhile_append {rest : List Char} (hrest : EndsWord rest) (cs : List Char) :
    (cs ++ rest).takeWhile CharSet.identifierContinue.has
      = cs.takeWhile CharSet.identifierContinue.has := by
  have hnil : rest.takeWhile CharSet.identifierContinue.has = [] := by
    cases hrest <;> rfl
  rw [List.takeWhile_append, hnil, List.append_nil]
  split
  next heq => exact ((List.takeWhile_prefix _).eq_of_length heq).symm
  next => rfl

end Lexeme

/-- What begins with a character of a name, and not with whitespace, begins no trivia. -/
theorem Trivia.take?_of_isNameChar {c : Char} (hc : Lexeme.isNameChar c = true)
    (hwhite : CharSet.whitespace.has c = false) (rest : List Char) : take? (c :: rest) = none := by
  have hslash : c ≠ '/' := by
    rintro rfl
    exact absurd hc (by decide)
  unfold take?
  split
  next heq => exact absurd (List.cons.inj heq).1 hslash
  next heq => exact absurd (List.cons.inj heq).1 hslash
  next heq =>
    obtain ⟨rfl, -⟩ := List.cons.inj heq
    rw [Lexeme.lineTerminator_of_isNameChar hc, hwhite]
    rfl
  next heq => cases heq

/-- A plain name, where a word may end, is read as a name. -/
theorem Word.separate_name {text : String} (h : Lexeme.isPlainName text = true) :
    (name text).Separate := by
  rw [Lexeme.isPlainName] at h
  split at h
  next => cases h
  next c cs hcons =>
    simp only [Bool.and_eq_true, Bool.not_eq_true', List.all_eq_true, Option.isNone_iff_eq_none]
      at h
    obtain ⟨⟨⟨hdigit, hwhite⟩, hchars⟩, hkeyword⟩ := h
    have hc := hchars c List.mem_cons_self
    have htext : (name text).text.toList = c :: cs := hcons
    refine ⟨fun {rest} _ => ?_, fun privateNames {rest} hrest => ?_⟩
    · rw [htext]
      exact Trivia.take?_of_isNameChar hc hwhite _
    · have htail := Lexeme.identifierTail_append hrest hchars
      rw [htext]
      by_cases hascii : Lexeme.isAscii c = true
      · -- A letter of ASCII begins a word, which is no keyword.
        have hcontinue : CharSet.identifierContinue.has c = true := by
          simpa [Lexeme.isNameChar, Lexeme.isForeignLetter, hascii] using hc
        have hstart := Lexeme.identifierStart_of_not_digit hcontinue hdigit
        rw [List.cons_append, Lexeme.read_of_identifierStart privateNames _ hascii hstart,
          ← List.cons_append, Lexeme.word_eq, Lexeme.takeWhile_append hrest, hkeyword, htail]
        rfl
      · have htail := Lexeme.identifierTail_append hrest
          fun c hc => hchars c (List.mem_cons_of_mem _ hc)
        rw [List.cons_append, Lexeme.read, if_pos (by simpa using hascii), htail]
        rfl

/-- A keyword, where a word may end, is read as this keyword. -/
theorem Word.separate_keyword (k : Keyword) : (sign (.keyword k)).Separate := by
  have hspelling : ∃ c cs, k.spelling.toList = c :: cs ∧ Lexeme.isAscii c = true
      ∧ CharSet.identifierStart.has c = true ∧ CharSet.whitespace.has c = false
      ∧ (c :: cs).all CharSet.identifierContinue.has = true := by
    cases k <;> exact ⟨_, _, rfl, by decide, by decide, by decide, by decide⟩
  obtain ⟨c, cs, hcons, hascii, hstart, hwhite, hchars⟩ := hspelling
  have hchars := List.all_eq_true.1 hchars
  have htext : (sign (.keyword k)).text.toList = c :: cs := hcons
  have hall : (c :: cs).takeWhile CharSet.identifierContinue.has = c :: cs := by
    rw [List.takeWhile_eq_self_iff]
    exact hchars
  have hlookup : Keyword.ofSpelling? (String.ofList (c :: cs)) = some k := by
    rw [← hcons, String.ofList_toList]
    exact k.ofSpelling?_spelling
  refine ⟨fun {rest} _ => ?_, fun privateNames {rest} hrest => ?_⟩
  · have hc : Lexeme.isNameChar c = true := by
      rw [Lexeme.isNameChar, hchars c List.mem_cons_self, Bool.true_or]
    rw [htext]
    exact Trivia.take?_of_isNameChar hc hwhite _
  · rw [htext, List.cons_append, Lexeme.read_of_identifierStart privateNames _ hascii hstart,
      ← List.cons_append, Lexeme.word_eq, Lexeme.takeWhile_append hrest, hall, hlookup]
    rfl

/-! ### Lines -/

namespace Lexer

/-- What a blank or nothing is, as trivia. -/
theorem leading_blank {blank : List Char} (hblank : blank = [] ∨ blank = [' ']) {cs : List Char}
    (hcs : Trivia.take? cs = none) :
    Trivia.leading (blank ++ cs) = blank.map .whitespace := by
  have hword : Trivia.leading cs = [] := by
    rw [Trivia.leading]
    split
    next => rfl
    next hsome =>
      rw [hcs] at hsome
      cases hsome
  obtain rfl | rfl := hblank
  · exact hword
  · have hspace : Trivia.take? (' ' :: cs) = some (.whitespace ' ') := rfl
    rw [List.singleton_append, Trivia.leading]
    split
    next hnone =>
      rw [hspace] at hnone
      cases hnone
    next t hsome =>
      obtain rfl := Option.some.inj (hspace.symm.trans hsome)
      exact congrArg _ hword

/-- A separate word, perhaps behind a blank, is the next token. -/
theorem next_separate {w : Word} (hw : w.Separate) {l : Lexer} {blank rest : List Char}
    (hblank : blank = [] ∨ blank = [' ']) (hends : EndsWord rest)
    (hrest : l.rest = blank ++ (w.text.toList ++ rest)) :
    l.next.1.shape = w.shape ∧ l.next.2.rest = rest := by
  have hleading : Trivia.leading l.rest = blank.map .whitespace := by
    rw [hrest]
    exact leading_blank hblank (hw.take? hends)
  have hlength : ((blank.map Trivia.whitespace).flatMap Trivia.chars).length = blank.length := by
    obtain rfl | rfl := hblank <;> rfl
  have hline : (blank.map Trivia.whitespace).any Trivia.endsLine = false := by
    obtain rfl | rfl := hblank <;> rfl
  have hskip : (l.skip blank.length).rest = w.text.toList ++ rest := by
    rw [skip, hrest]
    exact List.drop_left
  obtain ⟨c, cs, hcons⟩ := List.exists_cons_of_ne_nil hw.ne_nil
  have hlexeme : (l.skip blank.length).lexeme = ⟨w.kind, w.text.toList.length⟩ := by
    have hpos : max w.text.toList.length 1 = w.text.toList.length := by
      rw [hcons]
      exact Nat.max_eq_left (Nat.succ_le_succ (Nat.zero_le _))
    rw [lexeme, hskip, hw.read _ hends]
    exact congrArg _ hpos
  rw [next, hleading, hlength, hline]
  generalize l.skip blank.length = m at hskip hlexeme
  rw [token]
  split
  next hnil =>
    rw [hskip, hcons] at hnil
    cases hnil
  next =>
    dsimp only
    rw [hlexeme]
    dsimp only
    rw [skip, hskip, List.take_left, List.drop_left]
    exact ⟨by rw [Token.shape, shape, String.ofList_toList], rfl⟩

/-- A separate word is the first token, and the others are those behind it. -/
theorem tokens_separate {w : Word} (hw : w.Separate) {l : Lexer} {blank rest : List Char}
    (hblank : blank = [] ∨ blank = [' ']) (hends : EndsWord rest)
    (hrest : l.rest = blank ++ (w.text.toList ++ rest)) :
    ∃ m : Lexer, m.rest = rest
      ∧ l.tokens.map Token.shape = w.shape :: m.tokens.map Token.shape := by
  obtain ⟨hshape, hnext⟩ := next_separate hw hblank hends hrest
  refine ⟨l.next.2, hnext, ?_⟩
  have hkind : l.next.1.kind ≠ .eof := by
    rw [show l.next.1.kind = w.kind from congrArg Prod.fst hshape]
    exact hw.kind_ne_eof
  rw [tokens_eq, if_neg hkind, List.map_cons, hshape]

/-- At the end of a text there is only that end. -/
theorem tokens_nil {l : Lexer} (hrest : l.rest = []) :
    l.tokens.map Token.shape = [(.eof, "", false)] := by
  obtain ⟨offset, rest, privateNames⟩ := l
  obtain rfl : rest = [] := hrest
  rw [tokens_atEnd]
  rfl

/-- **A line is cut into its words**, the semicolon, and the end of the text. -/
theorem tokens_line {ws : List Word} (hws : ∀ w ∈ ws, w.Separate) {l : Lexer} {blank : List Char}
    (hblank : blank = [] ∨ blank = [' ']) (hrest : l.rest = blank ++ (line ws ++ ";").toList) :
    l.tokens.map Token.shape
      = (ws ++ [sign (.punctuator .semicolon)]).map shape ++ [(.eof, "", false)] := by
  induction ws generalizing l blank with
  | nil =>
    obtain ⟨m, hm, htokens⟩ := tokens_separate (separate_punctuator .semicolon) hblank .nil hrest
    rw [htokens, tokens_nil hm]
    rfl
  | cons w ws ih =>
    have hw := hws w List.mem_cons_self
    have hws := fun v hv => hws v (List.mem_cons_of_mem _ hv)
    cases ws with
    | nil =>
      have hline : (line [w] ++ ";").toList = w.text.toList ++ (line [] ++ ";").toList := by
        simp [line]
      rw [hline] at hrest
      obtain ⟨m, hm, htokens⟩ := tokens_separate hw hblank (.semicolon []) hrest
      rw [htokens, ih hws (.inl rfl) hm]
      rfl
    | cons v ws =>
      have hline : (line (w :: v :: ws) ++ ";").toList
          = w.text.toList ++ ' ' :: (line (v :: ws) ++ ";").toList := by
        simp only [line, List.map_cons, String.toList_append, String.toList_intercalate,
          List.intercalate_cons_cons, List.append_assoc]
        rfl
      rw [hline] at hrest
      obtain ⟨m, hm, htokens⟩ := tokens_separate hw hblank (.blank _) hrest
      rw [htokens, ih hws (.inr rfl) hm]
      rfl

end Lexer

/-- The tokens of a line, the end of the text again and again behind it. -/
theorem Context.shape_line {ws : List Word} (hws : ∀ w ∈ ws, w.Separate) (privateNames : Bool)
    (options : Options) (i : Nat) :
    ((ofSource (line ws ++ ";") privateNames options).token i).shape
      = ((ws ++ [sign (.punctuator .semicolon)]).map shape).getD i (.eof, "", false) := by
  have htokens : (Lexer.ofString (line ws ++ ";") privateNames).tokens.map Token.shape = _ :=
    Lexer.tokens_line hws (.inl rfl) rfl
  have hend : (Token.endOfText (line ws ++ ";").utf8ByteSize).shape = (.eof, "", false) := rfl
  rw [token_ofSource_eq, ← List.getD_map _ _ Token.shape, htokens, hend]
  -- The end of the text is also what stands behind it.
  rcases Nat.lt_or_ge i ((ws ++ [sign (.punctuator .semicolon)]).map shape).length with hi | hi
  · exact List.getD_append _ _ _ _ hi
  · rw [List.getD_append_right _ _ _ _ hi, List.getD_eq_default _ _ hi]
    cases i - ((ws ++ [sign (.punctuator .semicolon)]).map shape).length <;> rfl

end EcmaScript

import EcmaScript.Proofs.Lexer.Layout
import EcmaScript.Proofs.Printing.Words

namespace EcmaScript

/-!
# Words over several lines

Words with a blank or a line break between them are cut into these words again, whatever the words
are: a word that is a token by itself is one in front of a blank or a line break, too.

* `Word.IsToken` — the word is a token by itself;
* `PlacedWord` — a word behind a blank or behind a line break;
* `Word.linesText` — a first word, and others on its line and on further lines;
* `Lexer.tokens_lines` — the tokens of such a text;
* `Context.Presents` — the tokens from an index on are these words, with their line breaks;
* `Context.HasWords` — the same on whatever lines;
* `Context.presents_lines` — those of such a text are.
-/

/-! ### Tokens by themselves -/

/-- The word is a token by itself. -/
structure Word.IsToken (w : Word) : Prop where
  take?_eq_none : Trivia.take? w.text.toList = none
  read : Lexeme.read true w.text.toList = ⟨w.kind, w.text.toList.length⟩
  kind_ne_invalid : w.kind ≠ .invalid
  kind_ne_eof : w.kind ≠ .eof

/-- A word that is read as it stands is a token by itself. -/
theorem Word.Separate.isToken {w : Word} (hw : w.Separate) (hvalid : w.kind ≠ .invalid) :
    w.IsToken where
  take?_eq_none := by
    have htake := hw.take? .nil
    rwa [List.append_nil] at htake
  read := by
    have hread := hw.read true .nil
    rwa [List.append_nil] at hread
  kind_ne_invalid := hvalid
  kind_ne_eof := hw.kind_ne_eof

theorem Word.isToken_punctuator (p : Punctuator) : (sign (.punctuator p)).IsToken :=
  (separate_punctuator p).isToken nofun

theorem Word.isToken_keyword (k : Keyword) : (sign (.keyword k)).IsToken :=
  (separate_keyword k).isToken nofun

/-- A word behind a blank, or behind a line break. -/
structure PlacedWord where
  newline : Bool
  word : Word
deriving DecidableEq, Repr

namespace PlacedWord

/-- What stands in front of the word. -/
def gap (w : PlacedWord) : Trivia := if w.newline then .lineTerminator '\n' else .whitespace ' '

/-- The word with what stands in front of it. -/
def chars (w : PlacedWord) : List Char := w.gap.chars ++ w.word.text.toList

/-- What the grammar asks of the token that the word becomes. -/
def shape (w : PlacedWord) : TokenKind × String × Bool := (w.word.kind, w.word.text, w.newline)

theorem gap_endsLine (w : PlacedWord) : w.gap.endsLine = w.newline := by
  rw [gap]
  cases w.newline <;> rfl

theorem gap_isPiece (w : PlacedWord) (after : List Char) : Trivia.IsPiece w.gap after := by
  rw [gap]
  cases w.newline
  · exact .whitespace (by decide)
  · exact .lineTerminator (by decide)

/-- What stands in front of the word is a separator. -/
theorem exists_separator (w : PlacedWord) : ∃ c, w.gap.chars = [c] ∧ IsSeparator c
    ∧ Lexeme.isForeignLetter c = false := by
  rw [gap]
  cases w.newline
  · exact ⟨' ', rfl, by decide, by decide⟩
  · exact ⟨'\n', rfl, by decide, by decide⟩

end PlacedWord

namespace Word.IsToken

variable {w : Word}

theorem ne_nil (hw : w.IsToken) : w.text.toList ≠ [] := by
  intro hnil
  have hread := hw.read
  rw [hnil] at hread
  exact hw.kind_ne_eof (congrArg Lexeme.kind hread).symm

/-- In front of other words the word is still a token, and no trivia begins with it. -/
theorem append (hw : w.IsToken) (ws : List PlacedWord) :
    Trivia.take? (w.text.toList ++ ws.flatMap PlacedWord.chars) = none
      ∧ Lexeme.read true (w.text.toList ++ ws.flatMap PlacedWord.chars)
        = ⟨w.kind, w.text.toList.length⟩ := by
  cases ws with
  | nil =>
    rw [List.flatMap_nil, List.append_nil]
    exact ⟨hw.take?_eq_none, hw.read⟩
  | cons v ws =>
    obtain ⟨c, hgap, hc, hnear⟩ := v.exists_separator
    have htake := hw.take?_eq_none
    have hread := hw.read
    rw [← List.append_nil w.text.toList] at htake hread
    rw [List.flatMap_cons, PlacedWord.chars, hgap, List.append_assoc, List.singleton_append]
    refine ⟨Trivia.take?_cut htake hw.ne_nil hc _, ?_⟩
    rw [Lexeme.read_cut hw.ne_nil hc, hread, List.append_nil]
    · rw [hread]
      exact hw.kind_ne_invalid
    · rw [hread, List.append_nil]
    · rintro ⟨-, hforeign⟩
      rw [hnear] at hforeign
      cases hforeign

/-- In front of other words the word is the next token. -/
theorem cut (hw : w.IsToken) (ws : List PlacedWord) {l : Lexer} (hl : l.privateNames = true)
    {gap : List Trivia} (hgap : ∀ after, Trivia.Fills gap after)
    (hrest : l.rest = gap.flatMap Trivia.chars
      ++ (w.text.toList ++ ws.flatMap PlacedWord.chars)) :
    l.Cut gap w.kind w.text.toList (ws.flatMap PlacedWord.chars) := by
  obtain ⟨htake, hread⟩ := hw.append ws
  have hpos := List.length_pos_iff.2 hw.ne_nil
  refine ⟨hrest, hgap _, htake, hw.ne_nil, ?_, ?_⟩
  · rw [hl, hread]
  · rw [hl, hread]
    exact Nat.max_eq_left hpos

end Word.IsToken

/-! ### Texts -/

/-- A first word, and others behind blanks and line breaks. -/
def Word.linesText (first : Word) (ws : List PlacedWord) : String :=
  String.ofList (first.text.toList ++ ws.flatMap PlacedWord.chars)

namespace Lexer

/-- The next word with what stands in front of it is the next token, and the others follow. -/
theorem tokens_word {w : Word} (hw : w.IsToken) (ws : List PlacedWord) {l : Lexer}
    (hl : l.privateNames = true) {gap : List Trivia} (hgap : ∀ after, Trivia.Fills gap after)
    (hrest : l.rest = gap.flatMap Trivia.chars
      ++ (w.text.toList ++ ws.flatMap PlacedWord.chars)) :
    ∃ m : Lexer, m.rest = ws.flatMap PlacedWord.chars ∧ m.privateNames = true
      ∧ l.tokens.map Token.shape
        = (w.kind, w.text, gap.any Trivia.endsLine) :: m.tokens.map Token.shape := by
  have hcut := hw.cut ws hl hgap hrest
  refine ⟨l.next.2, by rw [hcut.next], by rw [hcut.next, hl], ?_⟩
  rw [hcut.tokens, List.map_cons, hcut.next, Token.shape, String.ofList_toList]

/-- Words that are tokens are cut into these tokens again, and the end of the text. -/
theorem tokens_placed {ws : List PlacedWord} (hws : ∀ w ∈ ws, w.word.IsToken) {l : Lexer}
    (hl : l.privateNames = true) (hrest : l.rest = ws.flatMap PlacedWord.chars) :
    l.tokens.map Token.shape = ws.map PlacedWord.shape ++ [(.eof, "", false)] := by
  -- In front of each word stands one blank or one line feed, which ends the word before.
  induction ws generalizing l with
  | nil => exact tokens_nil hrest
  | cons w ws ih =>
    have hw := hws w List.mem_cons_self
    have hgap (after : List Char) : Trivia.Fills [w.gap] after := .cons (w.gap_isPiece _) .nil
    rw [List.flatMap_cons, PlacedWord.chars, List.append_assoc] at hrest
    obtain ⟨m, hm, hmode, htokens⟩ := tokens_word hw ws hl hgap (by simpa using hrest)
    rw [htokens, ih (fun v hv => hws v (List.mem_cons_of_mem _ hv)) hmode hm]
    simp [PlacedWord.shape, PlacedWord.gap_endsLine]

/-- **A text of words is cut into its words**, and the end of the text. -/
theorem tokens_lines {first : Word} {ws : List PlacedWord} (hfirst : first.IsToken)
    (hws : ∀ w ∈ ws, w.word.IsToken) :
    (ofString (Word.linesText first ws) true).tokens.map Token.shape
      = (PlacedWord.mk false first :: ws).map PlacedWord.shape ++ [(.eof, "", false)] := by
  have hrest : (ofString (Word.linesText first ws) true).rest
      = first.text.toList ++ ws.flatMap PlacedWord.chars := String.toList_ofList
  have hgap (after : List Char) : Trivia.Fills [] after := .nil
  obtain ⟨m, hm, hmode, htokens⟩ := tokens_word hfirst ws (l := ofString _ true) rfl hgap hrest
  rw [htokens, tokens_placed hws hmode hm]
  rfl

end Lexer

/-! ### Tokens of a text -/

/-- The token is the word, on whatever line. -/
structure Token.IsWord (t : Token) (w : Word) : Prop where
  kind : t.kind = w.kind
  text : t.text = w.text

namespace Context

variable {c : Context} {i : Nat}

/-- The tokens from an index on are these words, with their line breaks. -/
def Presents (c : Context) : Nat → List PlacedWord → Prop
  | _, [] => True
  | i, w :: ws => (c.token i).shape = w.shape ∧ c.Presents (i + 1) ws

theorem presents_append {ws vs : List PlacedWord} :
    c.Presents i (ws ++ vs) ↔ c.Presents i ws ∧ c.Presents (i + ws.length) vs := by
  induction ws generalizing i with
  | nil => simp [Presents]
  | cons w ws ih =>
    rw [List.cons_append, Presents, Presents, ih, and_assoc, List.length_cons,
      Nat.add_right_comm, Nat.add_assoc]

namespace Presents

variable {w : PlacedWord} {ws vs : List PlacedWord}

theorem kind (h : c.Presents i (w :: ws)) : (c.token i).kind = w.word.kind := congrArg Prod.fst h.1

theorem text (h : c.Presents i (w :: ws)) : (c.token i).text = w.word.text :=
  congrArg (fun shape => shape.2.1) h.1

theorem newline (h : c.Presents i (w :: ws)) : (c.token i).newlineBefore = w.newline :=
  congrArg (fun shape => shape.2.2) h.1

theorem tail (h : c.Presents i (w :: ws)) : c.Presents (i + 1) ws := h.2

end Presents

/-- The tokens from an index on are these words, on whatever lines. -/
def HasWords (c : Context) : Nat → List Word → Prop
  | _, [] => True
  | i, w :: ws => (c.token i).IsWord w ∧ c.HasWords (i + 1) ws

theorem hasWords_append {ws vs : List Word} :
    c.HasWords i (ws ++ vs) ↔ c.HasWords i ws ∧ c.HasWords (i + ws.length) vs := by
  induction ws generalizing i with
  | nil => simp [HasWords]
  | cons w ws ih =>
    rw [List.cons_append, HasWords, HasWords, ih, and_assoc, List.length_cons,
      Nat.add_right_comm, Nat.add_assoc]

/-- Which words may be names does not matter. -/
theorem HasWords.withNames {ws : List Word} (h : c.HasWords i ws) (names : NameRules) :
    ({ c with names := names } : Context).HasWords i ws := by
  induction ws generalizing i with
  | nil => trivial
  | cons w ws ih => exact ⟨h.1, ih h.2⟩

/-- Tokens with the shapes of these words are these words. -/
theorem presents_of_getD {ws : List PlacedWord} (rest : TokenKind × String × Bool)
    (h : ∀ k, (c.token (i + k)).shape = (ws.map PlacedWord.shape).getD k rest) :
    c.Presents i ws := by
  induction ws generalizing i with
  | nil => trivial
  | cons w ws ih =>
    refine ⟨h 0, ih fun k => ?_⟩
    rw [Nat.add_assoc, Nat.add_comm 1 k, h (k + 1)]
    rfl

/-- The tokens of a text of words are these words, and behind them the text ends. -/
theorem presents_lines {first : Word} {ws : List PlacedWord} (hfirst : first.IsToken)
    (hws : ∀ w ∈ ws, w.word.IsToken) (options : Options) :
    (ofSource (first.linesText ws) true options).Presents 0 (⟨false, first⟩ :: ws)
      ∧ ((ofSource (first.linesText ws) true options).token (ws.length + 1)).kind = .eof
      ∧ (ofSource (first.linesText ws) true options).tokens.size = ws.length + 2 := by
  have htokens := Lexer.tokens_lines hfirst hws
  have hend : (Token.endOfText (first.linesText ws).utf8ByteSize).shape
      = (TokenKind.eof, "", false) := rfl
  -- The end of the text is also what stands behind it.
  have hshape (i : Nat) : ((ofSource (first.linesText ws) true options).token i).shape
      = ((⟨false, first⟩ :: ws).map PlacedWord.shape).getD i (TokenKind.eof, "", false) := by
    rw [token_ofSource_eq, ← List.getD_map _ _ Token.shape, htokens, hend]
    rcases Nat.lt_or_ge i ((⟨false, first⟩ :: ws).map PlacedWord.shape).length with hi | hi
    · exact List.getD_append _ _ _ _ hi
    · rw [List.getD_append_right _ _ _ _ hi, List.getD_eq_default _ _ hi]
      cases i - ((⟨false, first⟩ :: ws).map PlacedWord.shape).length <;> rfl
  refine ⟨presents_of_getD (TokenKind.eof, "", false) fun k => ?_, ?_, ?_⟩
  · rw [Nat.zero_add]
    exact hshape k
  · refine (congrArg Prod.fst (hshape (ws.length + 1))).trans ?_
    rw [List.getD_eq_default _ _ (by simp)]
  · have hlength := congrArg List.length htokens
    simpa [ofSource] using hlength

end Context

end EcmaScript

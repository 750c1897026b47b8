import EcmaScript.Proofs.Grammar.Locations
import EcmaScript.Proofs.Lexer.NextLine
import EcmaScript.Proofs.Text.Escapes

namespace EcmaScript

/-!
# String literals

The lexer looks for the closing quote by a rule of its own: a backslash takes one character along,
whichever it is. What stands between the quotes is decoded afterwards, by the grammar of escapes.

* `Lexeme.IsBody` — what the lexer lets stand between two quotes;
* `Lexer.StandsFor` — a text is one string token, and the token stands for some value;
* `Lexer.standsFor_iff` — both said by the characters between the quotes;
* `Escape.Spelling` — the ways to write a character in a string;
* `Lexer.standsFor_of_spellings` — any choice of them is read back;
* `Lexer.StandsFor.continued` — what a line end behind a backslash does to a string.
-/

namespace Lexeme

/-! ### What the lexer takes for the body of a string -/

variable {quote : Char}

/-- Backslashes, each with the character behind it, and characters that are neither a backslash, nor
the quote, nor LF. -/
inductive IsBody (quote : Char) : List Char → Prop where
  | nil : IsBody quote []
  | plain {c : Char} {rest : List Char} : c ≠ quote → c ≠ '\\' → c ≠ '\n' → IsBody quote rest →
    IsBody quote (c :: rest)
  | pair {c : Char} {rest : List Char} : IsBody quote rest → IsBody quote ('\\' :: c :: rest)

theorem isBody_cons_iff {c : Char} (hc : c ≠ '\\') {rest : List Char} :
    IsBody quote (c :: rest) ↔ (c ≠ quote ∧ c ≠ '\n') ∧ IsBody quote rest := by
  constructor
  · intro h
    cases h with
    | plain hquote _ hline hrest => exact ⟨⟨hquote, hline⟩, hrest⟩
    | pair => exact absurd rfl hc
  · rintro ⟨⟨hquote, hline⟩, hrest⟩
    exact .plain hquote hc hline hrest

theorem isBody_pair_iff {c : Char} {rest : List Char} :
    IsBody quote ('\\' :: c :: rest) ↔ IsBody quote rest := by
  constructor
  · intro h
    cases h with
    | plain _ hne => exact absurd rfl hne
    | pair hrest => exact hrest
  · exact .pair

/-- Characters without a backslash among them are taken one by one. -/
theorem isBody_append_iff {cs : List Char} (hcs : ∀ c ∈ cs, c ≠ '\\') {rest : List Char} :
    IsBody quote (cs ++ rest) ↔ (∀ c ∈ cs, c ≠ quote ∧ c ≠ '\n') ∧ IsBody quote rest := by
  induction cs with
  | nil => simp
  | cons c cs ih =>
    rw [List.cons_append, isBody_cons_iff (hcs c List.mem_cons_self),
      ih fun d hd => hcs d (List.mem_cons_of_mem c hd), List.forall_mem_cons]
    exact and_assoc.symm

theorem IsBody.append {cs ds : List Char} (h : IsBody quote cs) (h' : IsBody quote ds) :
    IsBody quote (cs ++ ds) := by
  induction h with
  | nil => exact h'
  | plain hquote hne hline _ ih => exact .plain hquote hne hline ih
  | pair _ ih => exact .pair ih

theorem stringTail_pair (n : Nat) (c : Char) (rest : List Char) :
    stringTail quote n ('\\' :: c :: rest) = stringTail quote (n + 2) rest := by
  rw [stringTail]

/-- The lexer passes over a body. -/
theorem stringTail_append {body : List Char} (h : IsBody quote body) (n : Nat)
    (rest : List Char) :
    stringTail quote n (body ++ rest) = stringTail quote (n + body.length) rest := by
  induction h generalizing n with
  | nil => rfl
  | plain hquote hne hline _ ih =>
    rw [List.cons_append, stringTail_cons hne, if_neg hline, if_neg hquote, ih, List.length_cons,
      Nat.add_assoc, Nat.add_comm 1]
  | pair _ ih =>
    rw [List.cons_append, List.cons_append, stringTail_pair, ih, List.length_cons, List.length_cons]
    congr 1
    omega

theorem stringTail_quote (hback : quote ≠ '\\') (hline : quote ≠ '\n') (n : Nat)
    (rest : List Char) : stringTail quote n (quote :: rest) = ⟨.string, n + 1⟩ := by
  rw [stringTail_cons hback, if_neg hline, if_pos rfl]

/-- **A string ends at the last quote exactly where a body stands before it.** -/
theorem stringTail_eq_iff (hback : quote ≠ '\\') (hline : quote ≠ '\n') (n : Nat)
    (body : List Char) :
    stringTail quote n (body ++ [quote]) = ⟨.string, n + body.length + 1⟩ ↔ IsBody quote body := by
  constructor
  · intro h
    match body with
    | [] => exact .nil
    | c :: rest =>
      by_cases hc : c = '\\'
      · -- The backslash takes one character along. It must not be the last quote.
        subst hc
        cases rest with
        | nil => cases h.symm.trans (stringTail_pair n quote [])
        | cons d rest =>
          rw [List.cons_append, List.cons_append, stringTail_pair, List.length_cons,
            List.length_cons] at h
          refine .pair ((stringTail_eq_iff hback hline (n + 2) rest).1 (h.trans ?_))
          congr 1
          omega
      rw [List.cons_append, stringTail_cons hc, List.length_cons] at h
      split at h
      next => cases h
      next hnotLine =>
        split at h
        next =>
          -- A quote in the body would have ended the string too early.
          have hlength := congrArg Lexeme.length h
          dsimp only at hlength
          omega
        next hnotQuote =>
          refine .plain hnotQuote hc hnotLine
            ((stringTail_eq_iff hback hline (n + 1) rest).1 (h.trans ?_))
          congr 1
          omega
  · intro h
    rw [stringTail_append h, stringTail_quote hback hline]
termination_by body.length

/-- A string has the characters that were read, and more. -/
theorem le_length_stringTail (quote : Char) (n : Nat) (cs : List Char) :
    n ≤ (stringTail quote n cs).length := by
  fun_induction stringTail quote n cs <;> grind

/-- The two quotes. -/
theorem read_quote (h : quote = '"' ∨ quote = '\'') (privateNames : Bool) (rest : List Char) :
    read privateNames (quote :: rest) = stringTail quote 1 rest := by
  rcases h with rfl | rfl <;> rfl

end Lexeme

namespace Lexer

open Lexeme Escape

/-! ### Whole texts -/

/-- The tokens of a text that is one string, from its first character to its last one. -/
def stringTokens (source : String) : List Token :=
  [⟨.string, source, ⟨0, source.utf8ByteSize⟩, false⟩, .endOfText source.utf8ByteSize]

/-- The text is one string, and this string stands for some value. -/
structure StandsFor (source value : String) : Prop where
  tokens (privateNames : Bool) : (ofString source privateNames).tokens = stringTokens source
  value (privateNames : Bool) (options : Options) :
    ∃ s, Grammar.stringValue (.ofSource source privateNames options) .initial = .ok value s

variable {quote : Char}

/-- The first token of a text that begins with a quote. -/
theorem next_quote (h : quote = '"' ∨ quote = '\'') (privateNames : Bool)
    {text after rest : List Char} {found : Lexeme} (htext : text ++ after = quote :: rest)
    (hread : stringTail quote 1 rest = found) (hlength : found.length = text.length) :
    (ofString (String.ofList (quote :: rest)) privateNames).next
      = (⟨found.kind, String.ofList text, ⟨0, byteLength text⟩, false⟩,
        ⟨byteLength text, after, privateNames⟩) := by
  have hnone : Trivia.take? (quote :: rest) = none := by
    rcases h with rfl | rfl <;> rfl
  have hpos : 1 ≤ text.length := by
    have hle := le_length_stringTail quote 1 rest
    rwa [hread, hlength] at hle
  have hlexeme : lexeme ⟨0, quote :: rest, privateNames⟩ = ⟨found.kind, text.length⟩ := by
    rw [lexeme, read_quote h, hread, hlength]
    exact congrArg _ (Nat.max_eq_left hpos)
  have hplace : (ofString (String.ofList (quote :: rest)) privateNames).rest
      = ([] : List Trivia).flatMap Trivia.chars ++ quote :: rest :=
    String.toList_ofList
  rw [next_of_fills hplace .nil hnone]
  show token ⟨0, quote :: rest, privateNames⟩ false = _
  simp only [token, hlexeme, skip]
  rw [← htext, List.take_left, List.drop_left, Nat.zero_add]

/-- What a string stands for is what is decoded between its quotes. -/
theorem stringValue_ok_iff {c : Context} {s t : State} {value : String} :
    Grammar.stringValue c s = .ok value t ↔ (c.token s.position).kind = .string
      ∧ decode? ((c.token s.position).text.toList.drop 1).dropLast = some value.toList
      ∧ t = s.advanced := by
  rw [Grammar.stringValue, Parser.require_bind_ok_iff]
  refine and_congr_right fun _ => ?_
  cases hdecode : decode? ((c.token s.position).text.toList.drop 1).dropLast with
  | none => simp
  | some cs =>
    simp only [Parser.pure_ok_iff, Option.some.injEq]
    constructor
    · rintro ⟨rfl, rfl⟩
      exact ⟨String.toList_ofList.symm, rfl⟩
    · rintro ⟨rfl, rfl⟩
      exact ⟨String.ofList_toList, rfl⟩

theorem tokens_eq_stringTokens_iff (h : quote = '"' ∨ quote = '\'') (privateNames : Bool)
    (body : List Char) :
    (ofString (String.ofList (quote :: body ++ [quote])) privateNames).tokens
        = stringTokens (String.ofList (quote :: body ++ [quote])) ↔ IsBody quote body := by
  have hback : quote ≠ '\\' := by rcases h with rfl | rfl <;> decide
  have hline : quote ≠ '\n' := by rcases h with rfl | rfl <;> decide
  rw [← stringTail_eq_iff hback hline 1]
  have hlength : 1 + body.length + 1 = (quote :: body ++ [quote]).length := by
    rw [List.length_append, List.length_cons, List.length_singleton, Nat.add_comm 1]
  constructor
  · intro htokens
    -- The first token is all of the text.
    generalize hread : stringTail quote 1 (body ++ [quote]) = found
    have hle : found.length ≤ (quote :: body ++ [quote]).length := by
      rw [← hread, ← read_quote h privateNames]
      exact read_le _ _
    have htext : (quote :: body ++ [quote]).take found.length
        ++ (quote :: body ++ [quote]).drop found.length = quote :: (body ++ [quote]) :=
      List.take_append_drop _ _
    have hnext := next_quote h privateNames htext hread (List.length_take_of_le hle).symm
    rw [← List.cons_append] at hnext
    rw [tokens_eq, hnext, stringTokens] at htokens
    have hfirst : (quote :: body ++ [quote]).take found.length = quote :: body ++ [quote]
        ∧ found.kind = .string := by
      split at htokens
      next => cases (List.cons.inj htokens).2
      next =>
        obtain ⟨htoken, -⟩ := List.cons.inj htokens
        injection htoken with hkind htext
        exact ⟨String.ofList_injective htext, hkind⟩
    have hall : found.length = 1 + body.length + 1 := by
      rw [hlength, ← hfirst.1, List.length_take_of_le hle]
    rw [← hfirst.2, ← hall]
  · -- Behind the first token there is nothing but the end.
    intro hread
    have htext : (quote :: body ++ [quote]) ++ [] = quote :: (body ++ [quote]) := List.append_nil _
    have hnext := next_quote h privateNames htext hread hlength
    rw [← List.cons_append] at hnext
    rw [tokens_eq, hnext, if_neg (by simp), tokens_atEnd, stringTokens, byteLength_ofList]

/-- **A string literal by the characters between its quotes.** -/
theorem standsFor_iff (h : quote = '"' ∨ quote = '\'') {body : List Char} {value : String} :
    StandsFor (String.ofList (quote :: body ++ [quote])) value
      ↔ IsBody quote body ∧ decode? body = some value.toList := by
  have hbody : ((String.ofList (quote :: body ++ [quote])).toList.drop 1).dropLast = body := by
    rw [String.toList_ofList, List.cons_append, List.drop_one, List.tail_cons, List.dropLast_concat]
  have htokens (privateNames : Bool) := tokens_eq_stringTokens_iff h privateNames body
  generalize String.ofList (quote :: body ++ [quote]) = source at hbody htokens ⊢
  have hvalue (privateNames : Bool) (options : Options)
      (htokens : (ofString source privateNames).tokens = stringTokens source) :
      (∃ s, Grammar.stringValue (.ofSource source privateNames options) .initial = .ok value s)
        ↔ decode? body = some value.toList := by
    simp only [stringValue_ok_iff, Context.token_ofSource_eq, htokens, State.initial, stringTokens,
      List.getD_cons_zero, hbody, exists_and_left, exists_eq, and_true, true_and]
  constructor
  · rintro ⟨hlexed, hread⟩
    exact ⟨(htokens false).1 (hlexed false),
      (hvalue false default (hlexed false)).1 (hread false default)⟩
  · rintro ⟨hlexed, hread⟩
    have hstring (privateNames : Bool) := (htokens privateNames).2 hlexed
    exact ⟨hstring, fun privateNames options => (hvalue _ _ (hstring _)).2 hread⟩

end Lexer

/-! ### Spellings of characters -/

namespace Escape

open Lexeme

variable {quote : Char}

/-- The ways to write a character between two quotes: as it is; behind a backslash, with a letter of
its own or as it is; by its number, in two or four hexadecimal digits, or in braces. -/
inductive Spelling (quote : Char) : Char → List Char → Prop where
  | plain {c : Char} : c ≠ quote → c ≠ '\\' → c ≠ '\n' → Spelling quote c [c]
  | control {letter c : Char} : (letter, c) ∈ controls → Spelling quote c ['\\', letter]
  | itself {c : Char} : c ∉ letters → ¬ CharSet.octalDigit.has c → ¬ CharSet.lineTerminator.has c →
    Spelling quote c ['\\', c]
  | byte {c : Char} {digits : List Char} : IsHex digits → digits.length = 2 →
    hexNumber digits = c.toNat → Spelling quote c ('\\' :: 'x' :: digits)
  | unit {c : Char} {digits : List Char} : IsHex digits → digits.length = 4 →
    hexNumber digits = c.toNat → Spelling quote c ('\\' :: 'u' :: digits)
  | point {c : Char} {digits : List Char} : IsHex digits → digits.length ≤ 6 →
    hexNumber digits = c.toNat →
    Spelling quote c ('\\' :: 'u' :: '\x7b' :: digits ++ ['\x7d'])

theorem charOrReplacement_toNat (c : Char) : charOrReplacement c.toNat = c := by
  exact (if_pos c.valid).trans (Char.ofNat_toNat c)

/-- Hexadecimal digits are neither a quote nor a backslash nor LF. -/
theorem IsHex.isBody_append {digits : List Char} (h : IsHex digits)
    (hquote : quote = '"' ∨ quote = '\'') {rest : List Char} (hrest : IsBody quote rest) :
    IsBody quote (digits ++ rest) := by
  have hne {d : Char} (hd : d ∈ digits) {c : Char} (hc : ¬ CharSet.hexDigit.has c) : d ≠ c := by
    rintro rfl
    exact hc (h.2 d hd)
  have hdigit : ¬ CharSet.hexDigit.has quote := by
    rcases hquote with rfl | rfl <;> decide
  rw [isBody_append_iff fun d hd => hne hd (by decide)]
  exact ⟨fun d hd => ⟨hne hd hdigit, hne hd (by decide)⟩, hrest⟩

/-- The lexer passes over a character, however it is written. -/
theorem Spelling.isBody_append {c : Char} {piece : List Char} (h : Spelling quote c piece)
    (hquote : quote = '"' ∨ quote = '\'') {rest : List Char} (hrest : IsBody quote rest) :
    IsBody quote (piece ++ rest) := by
  have hbrace {c : Char} (hc : c = '\x7b' ∨ c = '\x7d') {rest : List Char}
      (hrest : IsBody quote rest) : IsBody quote (c :: rest) := by
    refine .plain ?_ ?_ ?_ hrest <;> rcases hquote with rfl | rfl <;> rcases hc with rfl | rfl <;>
      decide
  cases h with
  | plain hne hback hline => exact .plain hne hback hline hrest
  | control => exact .pair hrest
  | itself => exact .pair hrest
  | byte hhex => exact .pair (hhex.isBody_append hquote hrest)
  | unit hhex => exact .pair (hhex.isBody_append hquote hrest)
  | point hhex =>
    have hdigits := hhex.isBody_append hquote (hbrace (.inr rfl) hrest)
    exact .pair (hbrace (.inl rfl) (by simpa using hdigits))

/-- A character is read back, however it is written. -/
theorem Spelling.reads {c : Char} {piece : List Char} (h : Spelling quote c piece)
    {text value after : List Char} (hreads : Reads text value after) :
    Reads (piece ++ text) (c :: value) after := by
  have hnumeral {esc : List Char} {n : Nat} (hnumber : n = c.toNat)
      (h : IsEscape esc [charOrReplacement n] (text ++ after)) :
      IsEscape esc [c] (text ++ after) := by
    rwa [hnumber, charOrReplacement_toNat] at h
  cases h with
  | plain _ hback _ => exact .plain hback hreads
  | control hletter => exact .escape (.control hletter) hreads
  | itself hletter hoctal hline => exact .escape (.itself hletter hoctal hline) hreads
  | byte hhex hlength hnumber =>
    exact .escape (hnumeral hnumber (.byte (.unsigned hhex) hlength)) hreads
  | unit hhex hlength hnumber =>
    exact .escape (hnumeral hnumber (.unit (.unsigned hhex) hlength)) hreads
  | point hhex hlength hnumber =>
    exact .escape (hnumeral hnumber (.point (.unsigned hhex) hlength)) hreads

end Escape

namespace Lexer

open Lexeme Escape

variable {quote : Char} {value : String}

/-- **Strings are read back.** However the characters of a text are written between two quotes, the
lexer takes all of it for one string, and the string stands for the text. -/
theorem standsFor_of_spellings (hquote : quote = '"' ∨ quote = '\'') {pieces : List (List Char)}
    (h : List.Forall₂ (Spelling quote) value.toList pieces) :
    StandsFor (String.ofList (quote :: pieces.flatten ++ [quote])) value := by
  generalize hchars : value.toList = chars at h
  -- Piece by piece, for the lexer and for the decoder.
  have hwritten : IsBody quote pieces.flatten ∧ Escape.Reads pieces.flatten chars [] := by
    clear hchars
    induction h with
    | nil => exact ⟨.nil, .nil⟩
    | cons hpiece _ ih => exact ⟨hpiece.isBody_append hquote ih.1, hpiece.reads ih.2⟩
  refine (standsFor_iff hquote).2 ⟨hwritten.1, ?_⟩
  have hdecode := decode?_reads hwritten.2
  rwa [List.append_nil, decode?, Option.map_some, List.append_nil, ← hchars] at hdecode

/-- Five characters, each written in another way. -/
theorem standsFor_of_spellings_mixed :
    List.Forall₂ (Spelling '"') "a\n\"é😀".toList
        [['a'], ['\\', 'n'], ['\\', '"'], ['\\', 'x', 'e', '9'],
          '\\' :: 'u' :: '\x7b' :: ['1', 'F', '6', '0', '0'] ++ ['\x7d']]
      ∧ StandsFor "\"a\\n\\\"\\xe9\\u\x7b1F600\x7d\"" "a\n\"é😀" := by
  have hpieces : List.Forall₂ (Spelling '"') "a\n\"é😀".toList
      [['a'], ['\\', 'n'], ['\\', '"'], ['\\', 'x', 'e', '9'],
        '\\' :: 'u' :: '\x7b' :: ['1', 'F', '6', '0', '0'] ++ ['\x7d']] :=
    .cons (.plain (by decide) (by decide) (by decide)) <|
      .cons (.control (by decide)) <|
      .cons (.itself (by decide) (by decide) (by decide)) <|
      .cons (.byte (by decide) rfl (by decide)) <|
      .cons (.point (by decide) (by decide) (by decide)) .nil
  exact ⟨hpieces, standsFor_of_spellings (.inl rfl) hpieces⟩

end Lexer

/-! ### Continued lines -/

namespace Escape

open Lexeme

variable {quote : Char} {esc text out after : List Char}

/-- Behind its first character, no escape has a backslash. -/
theorem IsEscape.exists_cons (h : IsEscape esc out after) :
    ∃ c cs, esc = c :: cs ∧ ∀ d ∈ cs, d ≠ '\\' := by
  have hnumeral {digits : List Char} {n : Nat} (hn : Numeral digits n) :
      ∀ d ∈ digits, d ≠ '\\' := by
    intro d hd
    rcases hn.forall_mem d hd with rfl | hhex
    · decide
    · rintro rfl
      exact absurd hhex (by decide)
  cases h with
  | control | lineEnd | itself => exact ⟨_, [], rfl, by simp⟩
  | octal hdigits =>
    refine ⟨_, _, rfl, fun d hd => ?_⟩
    rintro rfl
    exact absurd (hdigits _ (List.mem_cons_of_mem _ hd)) (by decide)
  | byte hn => exact ⟨_, _, rfl, hnumeral hn⟩
  | unit hn => exact ⟨_, _, rfl, hnumeral hn⟩
  | point hn =>
    refine ⟨_, _, rfl, ?_⟩
    simp only [List.forall_mem_cons, List.forall_mem_append, List.append_eq]
    exact ⟨⟨by decide, hnumeral hn⟩, by decide, by simp⟩
  | lineEndPair => exact ⟨_, _, rfl, by simp⟩

/-- The same escape stands in front of a text that begins alike, or with a backslash. -/
theorem IsEscape.of_head? (h : IsEscape esc out after) {after' : List Char}
    (hhead : ∀ c, after'.head? = some c → c = '\\' ∨ after.head? = some c) :
    IsEscape esc out after' := by
  cases h with
  | control hletter => exact .control hletter
  | octal hdigits hlimit hend =>
    refine .octal hdigits hlimit (hend.imp_right fun hother c hc => ?_)
    rcases hhead c hc with rfl | hc
    · decide
    · exact hother c hc
  | byte hn hlength => exact .byte hn hlength
  | unit hn hlength => exact .unit hn hlength
  | point hn hlength => exact .point hn hlength
  | lineEnd hc hpair =>
    -- Only an LF behind a CR would make another escape of it.
    refine .lineEnd hc fun hcr hlf => ?_
    rcases hhead _ hlf with hback | hlf
    · exact absurd hback (by decide)
    · exact hpair hcr hlf
  | lineEndPair => exact .lineEndPair
  | itself hletter hoctal hline => exact .itself hletter hoctal hline

/-- What was read stands as well in front of another escape. -/
theorem Reads.before_escape (h : Reads text out after) (rest : List Char) :
    Reads text out ('\\' :: rest) := by
  induction h with
  | nil => exact .nil
  | plain hc _ ih => exact .plain hc ih
  | @escape esc out text value after hescape _ ih =>
    refine .escape (hescape.of_head? fun c hc => ?_) ih
    -- The backslash follows the last escape; the others have their text behind them as before.
    cases text with
    | nil => exact .inl (Option.some.inj hc).symm
    | cons d text => exact .inr hc

/-- The lexer passes over what was read, and then over the rest. -/
theorem Reads.isBody (h : Reads text out after) (hbody : IsBody quote (text ++ after)) :
    IsBody quote text ∧ IsBody quote after := by
  induction h with
  | nil => exact ⟨.nil, hbody⟩
  | plain hc _ ih =>
    rw [List.cons_append, isBody_cons_iff hc] at hbody
    obtain ⟨htext, hafter⟩ := ih hbody.2
    exact ⟨(isBody_cons_iff hc).2 ⟨hbody.1, htext⟩, hafter⟩
  | escape hescape _ ih =>
    obtain ⟨c, cs, rfl, hcs⟩ := hescape.exists_cons
    rw [List.cons_append, List.cons_append, List.cons_append, List.cons_append, isBody_pair_iff,
      List.append_assoc, isBody_append_iff hcs] at hbody
    obtain ⟨htext, hafter⟩ := ih hbody.2
    exact ⟨.pair ((isBody_append_iff hcs).2 ⟨hbody.1, htext⟩), hafter⟩

/-- An escape that stands for nothing may stand between whole characters and escapes. -/
theorem decode?_insert (h : Reads text out after) (hescape : IsEscape esc [] after) :
    decode? (text ++ '\\' :: (esc ++ after)) = decode? (text ++ after) := by
  rw [decode?_reads (h.before_escape _), decode?_reads h,
    decode?_escape (read?_of_isEscape hescape), Option.map_map]
  simp [Function.comp_def]

end Escape

namespace Lexer

open Lexeme Escape

variable {quote : Char} {value : String}

/-- **Line ends behind a backslash.** Between two characters or escapes of a string, a backslash and
one character that ends a line change nothing of what the string stands for. The decoder takes a CR
and an LF for one line end too. The lexer does not: for it the LF stands by itself, and breaks the
string off. -/
theorem StandsFor.continued (hquote : quote = '"' ∨ quote = '\'') {text out after : List Char}
    (h : StandsFor (String.ofList (quote :: (text ++ after) ++ [quote])) value)
    (hreads : Escape.Reads text out after) :
    (∀ c, CharSet.lineTerminator.has c →
        StandsFor (String.ofList (quote :: (text ++ '\\' :: c :: after) ++ [quote])) value)
      ∧ decode? (text ++ '\\' :: '\r' :: '\n' :: after) = some value.toList
      ∧ ∀ privateNames, ∃ more, (ofString (String.ofList
            (quote :: (text ++ '\\' :: '\r' :: '\n' :: after) ++ [quote])) privateNames).tokens
          = ⟨.invalid, String.ofList (quote :: text ++ ['\\', '\r', '\n']),
              ⟨0, byteLength (quote :: text) + 3⟩, false⟩ :: more := by
  obtain ⟨hbody, hvalue⟩ := (standsFor_iff hquote).1 h
  obtain ⟨htext, hafter⟩ := hreads.isBody hbody
  refine ⟨fun c hc => (standsFor_iff hquote).2 ⟨htext.append (.pair hafter), ?_⟩, ?_, ?_⟩
  · -- No LF follows a CR, because the lexer passes over what follows.
    have hpair : c = '\r' → after.head? ≠ some '\n' := by
      rintro - hlf
      obtain ⟨rest, rfl⟩ := List.head?_eq_some_iff.1 hlf
      exact ((isBody_cons_iff (by decide)).1 hafter).1.2 rfl
    exact (decode?_insert hreads (.lineEnd hc hpair)).trans hvalue
  · exact (decode?_insert hreads .lineEndPair).trans hvalue
  · -- The backslash takes the CR along, and the LF is an end of the line for the lexer.
    intro privateNames
    have hread : stringTail quote 1 (text ++ '\\' :: '\r' :: '\n' :: (after ++ [quote]))
        = ⟨.invalid, (quote :: text ++ ['\\', '\r', '\n']).length⟩ := by
      rw [stringTail_append htext, stringTail_pair, stringTail_cons (by decide), if_pos rfl]
      simp only [List.length_append, List.length_cons, List.length_nil]
      congr 1
      omega
    have hsource : quote :: (text ++ '\\' :: '\r' :: '\n' :: after) ++ [quote]
        = quote :: (text ++ '\\' :: '\r' :: '\n' :: (after ++ [quote])) := by simp
    have htext : (quote :: text ++ ['\\', '\r', '\n']) ++ (after ++ [quote])
        = quote :: (text ++ '\\' :: '\r' :: '\n' :: (after ++ [quote])) := by simp
    have hnext := next_quote hquote privateNames htext hread rfl
    rw [hsource, tokens_eq, hnext, if_neg (by simp)]
    have hlength : byteLength (quote :: text ++ ['\\', '\r', '\n'])
        = byteLength (quote :: text) + 3 := by
      rw [byteLength_append]
      rfl
    exact ⟨_, by rw [hlength]⟩

/-- Behind an escaped LF. -/
theorem StandsFor.continued_behind_escape :
    StandsFor "\"a\\nb\"" "a\nb" ∧ Escape.Reads ['a', '\\', 'n'] ['a', '\n'] ['b']
      ∧ CharSet.lineTerminator.has '\u2028' ∧ StandsFor "\"a\\n\\\u2028b\"" "a\nb" := by
  have hletter : ('n', '\n') ∈ controls := by decide
  have hreads : Escape.Reads ['a', '\\', 'n'] ['a', '\n'] ['b'] :=
    .plain (by decide) (.escape (.control hletter) .nil)
  have hstands :
      StandsFor (String.ofList ('"' :: (['a', '\\', 'n'] ++ ['b']) ++ ['"'])) "a\nb" := by
    refine (standsFor_iff (.inl rfl)).2 ⟨?_, ?_⟩
    · exact .plain (by decide) (by decide) (by decide)
        (.pair (.plain (by decide) (by decide) (by decide) .nil))
    · rw [decode?_reads hreads, decode?_plain (by decide), decode?]
      rfl
  have hcontinued := hstands.continued (.inl rfl) hreads
  exact ⟨hstands, hreads, by decide, hcontinued.1 '\u2028' (by decide)⟩

end Lexer

end EcmaScript

import EcmaScript.Proofs.Lexer.Names
import EcmaScript.Proofs.Text.Escapes

namespace EcmaScript

/-!
# Names are decoded

The lexer and the decoder each have a rule for the escapes of a name. Both take four hexadecimal
digits, or some in braces. Only the decoder counts the ones in braces: it takes at most six.

* `Escape.HasLongEscape` — somewhere a text has more digits in braces;
* `Escape.decodeName?_eq_none_iff` — only such names are refused;
* `Lexeme.IsRawName` — what the lexer takes for a name;
* `Lexer.tokens_decoded` — which names of a source are decoded, and that none of them is empty.
-/

namespace Escape

/-- Somewhere the text has an escape in braces with more than six digits. -/
def HasLongEscape (text : List Char) : Prop :=
  ∃ digits, IsHex digits ∧ 6 < digits.length
    ∧ '\\' :: 'u' :: '\x7b' :: digits ++ ['\x7d'] <:+: text

theorem not_hasLongEscape_nil : ¬ HasLongEscape [] := by
  rintro ⟨digits, -, -, hinfix⟩
  cases List.infix_nil.1 hinfix

/-- Such an escape begins with a backslash. -/
theorem hasLongEscape_append_iff {cs : List Char} (hcs : ∀ c ∈ cs, c ≠ '\\') (rest : List Char) :
    HasLongEscape (cs ++ rest) ↔ HasLongEscape rest := by
  induction cs with
  | nil => rfl
  | cons c cs ih =>
    rw [← ih fun d hd => hcs d (List.mem_cons_of_mem c hd), List.cons_append]
    refine exists_congr fun digits => and_congr_right fun _ => and_congr_right fun _ => ?_
    rw [List.infix_cons_iff]
    refine or_iff_right fun hfront => ?_
    exact hcs c List.mem_cons_self (List.cons_prefix_cons.1 hfront).1.symm

theorem hasLongEscape_backslash_iff (rest : List Char) :
    HasLongEscape ('\\' :: rest) ↔
      (∃ digits, IsHex digits ∧ 6 < digits.length ∧ 'u' :: '\x7b' :: (digits ++ ['\x7d']) <+: rest)
        ∨ HasLongEscape rest := by
  simp only [HasLongEscape, List.cons_append, List.infix_cons_iff, List.cons_prefix_cons, true_and,
    and_or_left, exists_or]

/-- Hexadecimal digits have no backslash among them. -/
theorem ne_backslash_of_hexDigit {digits : List Char} (h : ∀ d ∈ digits, CharSet.hexDigit.has d) :
    ∀ d ∈ digits, d ≠ '\\' := by
  rintro d hd rfl
  exact absurd (h _ hd) (by decide)

/-- Behind a backslash with four digits, such an escape stands in the rest of the text. -/
theorem hasLongEscape_unit_iff {digits : List Char} (hlength : digits.length = 4)
    (h : ∀ d ∈ digits, CharSet.hexDigit.has d) (rest : List Char) :
    HasLongEscape ('\\' :: 'u' :: digits ++ rest) ↔ HasLongEscape rest := by
  have hplain : ∀ c ∈ 'u' :: digits, c ≠ '\\' :=
    List.forall_mem_cons.2 ⟨by decide, ne_backslash_of_hexDigit h⟩
  rw [← hasLongEscape_append_iff hplain rest, List.cons_append, hasLongEscape_backslash_iff]
  refine or_iff_right ?_
  rintro ⟨long, -, -, hfront⟩
  -- No digit is a brace.
  obtain ⟨d, ds, rfl⟩ := List.exists_cons_of_length_pos (by omega : 0 < digits.length)
  obtain ⟨-, hfront⟩ := List.cons_prefix_cons.1 hfront
  obtain ⟨rfl, -⟩ := List.cons_prefix_cons.1 hfront
  exact absurd (h _ List.mem_cons_self) (by decide)

/-- Digits are the same up to the brace that ends them. -/
theorem eq_of_prefix_brace {digits more rest : List Char} (h : IsHex digits) (h' : IsHex more)
    (hfront : more ++ ['\x7d'] <+: digits ++ '\x7d' :: rest) : more = digits := by
  have hspan {digits : List Char} (h : IsHex digits) (rest : List Char) :
      (digits ++ '\x7d' :: rest).takeWhile CharSet.hexDigit.has = digits := by
    rw [List.takeWhile_append_of_pos h.2, List.takeWhile_cons, if_neg (by decide), List.append_nil]
  obtain ⟨after, hafter⟩ := hfront
  rw [List.append_assoc, List.singleton_append] at hafter
  rw [← hspan h' after, hafter, hspan h]

theorem hasLongEscape_point_iff {digits : List Char} (h : IsHex digits) (rest : List Char) :
    HasLongEscape ('\\' :: 'u' :: '\x7b' :: (digits ++ '\x7d' :: rest))
      ↔ 6 < digits.length ∨ HasLongEscape rest := by
  have hplain : ∀ c ∈ 'u' :: '\x7b' :: (digits ++ ['\x7d']), c ≠ '\\' := by
    simp only [List.forall_mem_append, List.forall_mem_cons]
    exact ⟨by decide, by decide, ne_backslash_of_hexDigit h.2, by decide, by simp⟩
  have hrest := hasLongEscape_append_iff hplain rest
  simp only [List.cons_append, List.append_assoc, List.nil_append] at hrest
  rw [hasLongEscape_backslash_iff, hrest]
  -- An escape that begins here ends at the first closing brace, so its digits are these.
  refine or_congr_left ⟨?_, fun hlength => ⟨digits, h, hlength, rest, by simp⟩⟩
  rintro ⟨long, hlong, hlength, hfront⟩
  simp only [List.cons_prefix_cons, true_and] at hfront
  rwa [← eq_of_prefix_brace h hlong hfront]

/-- An escape in braces with more than six digits is refused. -/
theorem read?_of_long {digits rest : List Char} (h : IsHex digits) (hlength : 6 < digits.length) :
    read? ('u' :: '\x7b' :: (digits ++ '\x7d' :: rest)) = none := by
  have hdigits : (digits ++ '\x7d' :: rest).takeWhile (· ≠ '\x7d') = digits := by
    have hne := (Numeral.unsigned h).ne_brace
    rw [List.takeWhile_append_of_pos fun d hd => decide_eq_true (hne d hd).2, List.takeWhile_cons,
      if_neg (by decide), List.append_nil]
  rw [read?, readBraced?]
  dsimp only
  rw [hdigits, if_neg (Nat.not_le_of_lt hlength)]
  rfl

theorem decode?_escape_eq_none_iff {esc out after : List Char} (h : IsEscape esc out after) :
    decode? ('\\' :: (esc ++ after)) = none ↔ decode? after = none := by
  rw [decode?_escape (read?_of_isEscape h), Option.map_eq_none_iff]

end Escape

namespace Lexeme

open Escape

/-- **The pieces of a name are decoded**, unless one of them has too many digits in braces. -/
theorem IsNameRun.decode?_eq_none_iff {run : List Char} (h : IsNameRun run) :
    decode? run = none ↔ HasLongEscape run := by
  have letter {c : Char} (hc : c ≠ '\\') {rest : List Char}
      (ih : decode? rest = none ↔ HasLongEscape rest) :
      decode? ([c] ++ rest) = none ↔ HasLongEscape ([c] ++ rest) := by
    rw [hasLongEscape_append_iff (by simpa using hc), ← ih, List.singleton_append,
      decode?_plain hc, Option.map_eq_none_iff]
  induction h with
  | nil =>
    rw [decode?]
    exact iff_of_false (Option.some_ne_none _) not_hasLongEscape_nil
  | @cons piece rest hpiece _ ih =>
    cases hpiece with
    | letter hc =>
      refine letter ?_ ih
      rintro rfl
      exact absurd hc (by decide)
    | foreign hc =>
      refine letter ?_ ih
      rintro rfl
      exact absurd hc (by decide)
    | @escape digits hlength hdigits =>
      have hhex : IsHex digits := ⟨List.ne_nil_of_length_pos (by omega), hdigits⟩
      calc decode? ('\\' :: 'u' :: digits ++ rest) = none
        _ ↔ decode? rest = none :=
          decode?_escape_eq_none_iff (.unit (.unsigned hhex) hlength)
        _ ↔ HasLongEscape rest := ih
        _ ↔ _ := (hasLongEscape_unit_iff hlength hdigits rest).symm
    | @braced digits hne hdigits =>
      have htext : '\\' :: 'u' :: '\x7b' :: digits ++ ['\x7d'] ++ rest
          = '\\' :: 'u' :: '\x7b' :: (digits ++ '\x7d' :: rest) := by simp
      rw [htext, hasLongEscape_point_iff ⟨hne, hdigits⟩, ← htext]
      by_cases hlength : digits.length ≤ 6
      · rw [or_iff_right (Nat.not_lt_of_le hlength)]
        exact (decode?_escape_eq_none_iff (.point (.unsigned ⟨hne, hdigits⟩) hlength)).trans ih
      · -- The lexer takes the piece, and the decoder refuses it.
        refine iff_of_true ?_ (.inl (Nat.lt_of_not_le hlength))
        rw [htext, decode?, if_pos rfl]
        split
        next => rfl
        next hsome =>
          rw [read?_of_long ⟨hne, hdigits⟩ (Nat.lt_of_not_le hlength)] at hsome
          cases hsome

/-- What the lexer takes for a name: pieces of one, before which any character beyond ASCII may
stand. -/
inductive IsRawName : List Char → Prop where
  | run {run : List Char} : IsNameRun run → IsRawName run
  | foreign {c : Char} {run : List Char} : 128 ≤ c.toNat → IsNameRun run → IsRawName (c :: run)

theorem IsRawName.decode?_eq_none_iff {text : List Char} (h : IsRawName text) :
    decode? text = none ↔ HasLongEscape text := by
  cases h with
  | run hrun => exact hrun.decode?_eq_none_iff
  | @foreign c run hc hrun =>
    have hne : c ≠ '\\' := by
      rintro rfl
      exact absurd hc (by decide)
    rw [decode?_plain hne, Option.map_eq_none_iff, hrun.decode?_eq_none_iff,
      ← List.singleton_append, hasLongEscape_append_iff (by simpa using hne)]

/-- A name that begins with a backslash begins with a Unicode escape. -/
theorem IsRawName.unicode {c : Char} {rest : List Char} (h : IsRawName (c :: rest))
    (hc : c = '\\') : ∃ more, rest = 'u' :: more := by
  subst hc
  generalize htext : '\\' :: rest = text at h
  cases h with
  | run hrun =>
    cases hrun with
    | nil => cases htext
    | cons hpiece _ =>
      cases hpiece with
      | letter hletter =>
        obtain ⟨rfl, -⟩ := List.cons.inj htext
        exact absurd hletter (by decide)
      | foreign hforeign =>
        obtain ⟨rfl, -⟩ := List.cons.inj htext
        exact absurd hforeign (by decide)
      | escape => exact ⟨_, (List.cons.inj htext).2⟩
      | braced => exact ⟨_, (List.cons.inj htext).2⟩
  | foreign hforeign =>
    obtain ⟨rfl, -⟩ := List.cons.inj htext
    exact absurd hforeign (by decide)

/-! ### Which lexemes are names -/

/-- A word that is no keyword. -/
theorem isNameRun_word {c : Char} {rest : List Char} (hstart : CharSet.identifierStart.has c = true)
    (h : (word (c :: rest)).kind = .identifier) :
    0 < (word (c :: rest)).length ∧ IsNameRun ((c :: rest).take (word (c :: rest)).length) := by
  have hletter := identifierTail_piece (.letter (identifierContinue_of_identifierStart hstart)) rest
  rw [List.singleton_append, List.length_singleton] at hletter
  rw [word_eq] at h ⊢
  split at h
  next => cases h
  next => exact ⟨by dsimp only; omega, isNameRun_identifierTail (c :: rest)⟩

/-- An escape, and the name behind it. -/
theorem isNameRun_escape {cs : List Char} {n : Nat} (h : scanEscape cs = .complete n) :
    IsNameRun (cs.take (n + identifierTail (cs.drop n))) := by
  rw [List.take_add]
  exact .cons (isNamePiece_of_scanEscape h) (isNameRun_identifierTail _)

/-- **A name begins as one, or with a character beyond ASCII.** -/
theorem isRawName_read {privateNames : Bool} {c : Char} {rest : List Char}
    (h : (read privateNames (c :: rest)).kind = .identifier) :
    0 < (read privateNames (c :: rest)).length
      ∧ IsRawName ((c :: rest).take (read privateNames (c :: rest)).length) := by
  -- The cases are those of the first character, in the order in which the lexer asks for them.
  simp only [read] at h ⊢
  split at h
  next hascii =>
    rw [if_pos hascii, List.take_succ_cons]
    exact ⟨Nat.succ_pos _,
      .foreign (by simpa [isAscii] using hascii) (isNameRun_identifierTail rest)⟩
  rw [if_neg ‹_›]
  split at h
  next hstart =>
    rw [if_pos hstart]
    exact (isNameRun_word hstart h).imp_right .run
  rw [if_neg ‹_›]
  split at h
  next hback =>
    rw [if_pos hback]
    unfold escapedIdentifier at h ⊢
    split at h
    next n hscan =>
      exact ⟨Nat.add_pos_left (length_pos_of_scanEscape hscan) _, .run (isNameRun_escape hscan)⟩
    next => cases h
  rw [if_neg ‹_›]
  split at h
  · rcases number_kind (c :: rest) with hkind | hkind <;> cases h.symm.trans hkind
  rw [if_neg ‹_›]
  split at h
  · rcases stringTail_kind c 1 rest with hkind | hkind <;> cases h.symm.trans hkind
  split at h
  · cases h
  · rcases punctuator_kind (c :: rest) with ⟨p, hkind⟩ | hkind <;> simp [hkind] at h

theorem isNameRun_privateTail (cs : List Char) : IsNameRun (cs.take (privateTail cs)) := by
  unfold privateTail
  split
  next => exact .nil
  next c rest =>
    split
    next hback =>
      split
      next n hscan => exact isNameRun_escape hscan
      next => exact .nil
    split
    next hstart =>
      rw [List.take_succ_cons, ← List.singleton_append]
      refine .cons ?_ (isNameRun_identifierTail rest)
      rcases Bool.or_eq_true_iff.1 hstart with hletter | hforeign
      · exact .letter (identifierContinue_of_identifierStart hletter)
      · obtain ⟨hascii, hblank⟩ := isForeignLetter_iff.1 hforeign
        exact .foreign hascii hblank
    next => exact .nil

end Lexeme

/-! ### The tokens of a source -/

namespace Escape

/-- What has no backslash stands for itself. -/
theorem decode?_of_plain {cs : List Char} (h : ∀ c ∈ cs, c ≠ '\\') : decode? cs = some cs := by
  induction cs with
  | nil => rw [decode?]
  | cons c cs ih =>
    rw [decode?_plain (h c List.mem_cons_self), ih fun d hd => h d (List.mem_cons_of_mem c hd)]
    rfl

theorem decodeName?_eq_none_iff (raw : String) :
    decodeName? raw = none ↔ decode? raw.toList = none := by
  rw [decodeName?, decodeString?]
  split
  next => rw [Option.map_eq_none_iff]
  next hplain =>
    rw [decode?_of_plain]
    · simp
    · rintro c hc rfl
      exact hplain (List.contains_iff_mem.2 hc)

/-- The text is decoded as a name, and not as an empty one, unless one of its escapes has more than
six digits in braces. -/
structure Decoded (raw : String) : Prop where
  refused : decodeName? raw = none ↔ HasLongEscape raw.toList
  ne_empty : ∀ name, decodeName? raw = some name → name ≠ ""

theorem Decoded.of_isRawName {text : List Char} (h : Lexeme.IsRawName text) (hne : text ≠ []) :
    Decoded (String.ofList text) where
  refused := by rw [decodeName?_eq_none_iff, String.toList_ofList, h.decode?_eq_none_iff]
  ne_empty := by
    obtain ⟨c, rest, rfl⟩ := List.exists_cons_of_ne_nil hne
    exact fun name => decodeName?_ne_empty h.unicode

end Escape

namespace Lexer

open Lexeme Escape

/-- **What the lexer takes for a name is decoded**, and not as an empty name, unless it has an
escape with more than six digits in braces. Both modes are alike in this, and so are identifiers and
the private names that go on behind their sigil. -/
theorem tokens_decoded {source : String} {privateNames : Bool} {t : Token}
    (ht : t ∈ (ofString source privateNames).tokens) :
    (t.kind = .identifier → Decoded t.text)
      ∧ (t.kind = .privateName → 1 < t.span.length →
          Decoded (String.ofList (t.text.toList.drop 1))) := by
  have hname := text_of_privateName _ t ht
  obtain ⟨-, m, newline, -, rfl⟩ := exists_place_of_mem_tokens _ ht
  obtain ⟨offset, cs, mode⟩ := m
  cases cs with
  | nil => exact ⟨fun hkind => (by cases hkind), fun hkind => (by cases hkind)⟩
  | cons c rest =>
    constructor
    · intro hkind
      obtain ⟨hpos, hraw⟩ := isRawName_read hkind
      have htext : (token ⟨offset, c :: rest, mode⟩ newline).1.text
          = String.ofList ((c :: rest).take (read mode (c :: rest)).length) := by
        show String.ofList ((c :: rest).take (max (read mode (c :: rest)).length 1)) = _
        rw [Nat.max_eq_left hpos]
      rw [htext]
      exact .of_isRawName hraw (by simp [Nat.ne_of_gt hpos])
    · intro hkind hlength
      obtain ⟨d, more, hdrop, -⟩ := hname hkind hlength
      obtain ⟨-, after, hrest, hread⟩ := privateName_of_read hkind
      have htext : (token ⟨offset, c :: rest, mode⟩ newline).1.text.toList.drop 1
          = after.take (privateTail after) := by
        obtain ⟨rfl, rfl⟩ := List.cons.inj hrest
        show (String.ofList (('#' :: rest).take
          (max (read mode ('#' :: rest)).length 1))).toList.drop 1 = _
        rw [hread, privateName, Nat.max_eq_left (Nat.le_add_left 1 _), String.toList_ofList,
          List.take_succ_cons, List.drop_one, List.tail_cons]
      rw [htext] at hdrop ⊢
      refine .of_isRawName (.run (isNameRun_privateTail after)) ?_
      rw [hdrop]
      exact List.cons_ne_nil d more

/-- Seven digits, of which all are zeros but two. -/
theorem tokens_decoded_zeros :
    ∃ t ∈ (ofString "\\u\x7b0000061\x7d" false).tokens, t.kind = .identifier
      ∧ decodeName? t.text = none := by
  have htoken : (⟨.identifier, "\\u\x7b0000061\x7d", ⟨0, 11⟩, false⟩ : Token)
      ∈ (ofString "\\u\x7b0000061\x7d" false).tokens := by
    decide +kernel
  refine ⟨_, htoken, rfl, ((tokens_decoded htoken).1 rfl).refused.2 ?_⟩
  exact ⟨"0000061".toList, by decide, by decide, [], [], by decide⟩

end Lexer

end EcmaScript

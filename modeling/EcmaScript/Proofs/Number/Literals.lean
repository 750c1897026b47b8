import EcmaScript.Number.Literal
import EcmaScript.Proofs.Lexer.Separated
import EcmaScript.Proofs.Text.Escapes

namespace EcmaScript

/-!
# Which numbers have a value

The lexer reads a number by its shape, and the decoder looks at its shape again. They disagree only
about numbers that break off: behind the letter of a base, and behind the letter or the sign of an
exponent.

* `Lexeme.NumberText` — the texts that are read as numbers: a base and its digits, or a decimal with
  an exponent or without one;
* `Lexeme.numberText_of_read` — what is read as a number has one of these forms;
* `Number.ofDecimal?_plain`, `Number.ofDecimal?_exponent` — decimals have a value, unless the
  digits of the exponent are missing;
* `Lexer.tokens_numbers` — a number has no value exactly if it is the mark of a base alone or ends
  in the mark of an exponent.
-/

/-- Only digits of decimal numbers. -/
def IsDigits (cs : List Char) : Prop := ∀ c ∈ cs, CharSet.decimalDigit.has c = true

/-- The letter of an exponent. -/
def IsExponentLetter (c : Char) : Prop := c = 'e' ∨ c = 'E'

instance (c : Char) : Decidable (IsExponentLetter c) := inferInstanceAs (Decidable (_ ∨ _))

theorem decimalDigit_letter {c : Char} (h : IsExponentLetter c) :
    CharSet.decimalDigit.has c = false := by
  obtain rfl | rfl := h <;> decide

/-- Nothing, or a sign. -/
def IsSign (cs : List Char) : Prop := cs = [] ∨ cs = ['+'] ∨ cs = ['-']

/-- Nothing, or a point and digits. -/
def IsFraction (cs : List Char) : Prop := cs = [] ∨ ∃ digits, cs = '.' :: digits ∧ IsDigits digits

namespace Lexeme

/-! ### What is read as a number -/

/-- Digits before a point, a point and digits behind it. Some digit stands on either side. -/
structure IsMantissa (whole fraction : List Char) : Prop where
  isDigits : IsDigits whole
  isFraction : IsFraction fraction
  some_digit : whole ≠ [] ∨ 2 ≤ fraction.length

theorem IsMantissa.digit_or_point {whole fraction : List Char} (h : IsMantissa whole fraction)
    {c : Char} (hc : c ∈ whole ++ fraction) : CharSet.decimalDigit.has c = true ∨ c = '.' := by
  obtain hc | hc := List.mem_append.1 hc
  · exact .inl (h.isDigits c hc)
  · obtain rfl | ⟨digits, rfl, hdigits⟩ := h.isFraction
    · cases hc
    · obtain rfl | hc := List.mem_cons.1 hc
      · exact .inr rfl
      · exact .inl (hdigits c hc)

/-- The texts that are read as numbers. Behind the letter of a base and behind that of an exponent,
the digits may be missing. -/
inductive NumberText : List Char → Prop where
  | radix {mark : Char} {digit : CharSet} {digits : List Char} : radixDigit? mark = some digit →
      (∀ d ∈ digits, digit.has d = true) → NumberText ('0' :: mark :: digits)
  | plain {whole fraction : List Char} : IsMantissa whole fraction → NumberText (whole ++ fraction)
  | exponent {whole fraction sign digits : List Char} {letter : Char} : IsMantissa whole fraction →
      IsExponentLetter letter → IsSign sign → IsDigits digits →
      NumberText (whole ++ fraction ++ letter :: (sign ++ digits))

/-- The characters of decimals: digits, points, and the letters and signs of exponents. -/
def IsDecimalChar (c : Char) : Prop :=
  CharSet.decimalDigit.has c = true ∨ c ∈ ['.', 'e', 'E', '+', '-']

instance (c : Char) : Decidable (IsDecimalChar c) := inferInstanceAs (Decidable (_ ∨ _))

/-- No character of a decimal names a base. -/
theorem IsDecimalChar.radixDigit? {c : Char} (h : IsDecimalChar c) : radixDigit? c = none := by
  unfold Lexeme.radixDigit?
  split
  case h_7 => rfl
  all_goals exact absurd h (by decide)

theorem IsMantissa.isDecimalChar {whole fraction : List Char} (h : IsMantissa whole fraction) :
    ∀ c ∈ whole ++ fraction, IsDecimalChar c :=
  fun _ hc => (h.digit_or_point hc).imp_right fun hpoint => by simp [hpoint]

/-- An exponent has no point. -/
theorem digit_or_mark {letter : Char} {sign digits : List Char} (hletter : IsExponentLetter letter)
    (hsign : IsSign sign) (hdigits : IsDigits digits) :
    ∀ c ∈ letter :: (sign ++ digits),
      CharSet.decimalDigit.has c = true ∨ c ∈ ['e', 'E', '+', '-'] := by
  intro c hc
  obtain rfl | hc := List.mem_cons.1 hc
  · exact .inr (by simpa using hletter.imp_right .inl)
  obtain hc | hc := List.mem_append.1 hc
  · obtain rfl | rfl | rfl := hsign
    · cases hc
    · exact .inr (by simp_all)
    · exact .inr (by simp_all)
  · exact .inl (hdigits c hc)

theorem isDecimalChar_exponent {whole fraction sign digits : List Char} {letter : Char}
    (h : IsMantissa whole fraction) (hletter : IsExponentLetter letter) (hsign : IsSign sign)
    (hdigits : IsDigits digits) :
    ∀ c ∈ whole ++ fraction ++ letter :: (sign ++ digits), IsDecimalChar c := by
  refine List.forall_mem_append.2 ⟨h.isDecimalChar, fun c hc => ?_⟩
  exact (digit_or_mark hletter hsign hdigits c hc).imp_right (List.mem_cons_of_mem _)

theorem NumberText.ne_nil {cs : List Char} (h : NumberText cs) : cs ≠ [] := by
  cases h with
  | radix => exact List.cons_ne_nil _ _
  | exponent => exact List.append_ne_nil_of_right_ne_nil _ (List.cons_ne_nil _ _)
  | plain h =>
    obtain hwhole | hfraction := h.some_digit
    · exact List.append_ne_nil_of_left_ne_nil hwhole _
    · exact List.append_ne_nil_of_right_ne_nil _ (List.length_pos_iff.1 (by omega))

theorem forall_mem_take_run (set : CharSet) (cs : List Char) :
    ∀ c ∈ cs.take (run set cs), set.has c = true := by
  rw [run, ← List.prefix_iff_eq_take.1 (List.takeWhile_prefix _)]
  exact fun c hc => List.mem_takeWhile_imp hc

theorem isDigits_take_run (cs : List Char) : IsDigits (cs.take (run .decimalDigit cs)) :=
  forall_mem_take_run .decimalDigit cs

theorem isFraction_take_fractionTail (cs : List Char) : IsFraction (cs.take (fractionTail cs)) := by
  unfold fractionTail
  split
  next rest => exact .inr ⟨_, List.take_succ_cons, isDigits_take_run rest⟩
  next => exact .inl List.take_zero

/-- An exponent is nothing, or a letter, a sign or none, and digits. -/
theorem exponent_of_exponentTail? {cs : List Char} {n : Nat} (h : exponentTail? cs = some n) :
    n = 0 ∨ ∃ letter sign digits, IsExponentLetter letter ∧ IsSign sign ∧ IsDigits digits
      ∧ cs.take n = letter :: (sign ++ digits) := by
  unfold exponentTail? at h
  split at h
  next c rest =>
    by_cases hc : (c = 'e' || c = 'E') = true
    · have hletter : IsExponentLetter c := by simpa [IsExponentLetter] using hc
      rw [if_pos hc] at h
      split at h
      next => cases h
      next s digits =>
        by_cases hs : (s = '+' || s = '-') = true
        · have hsign : IsSign [s] := by simpa [IsSign] using hs
          rw [if_pos hs] at h
          obtain rfl := Option.some.inj h
          exact .inr ⟨c, [s], _, hletter, hsign, isDigits_take_run digits, rfl⟩
        · rw [if_neg hs] at h
          obtain rfl := Option.some.inj h
          exact .inr ⟨c, [], _, hletter, .inl rfl, isDigits_take_run (s :: digits), rfl⟩
    · rw [if_neg hc] at h
      exact .inl (Option.some.inj h).symm
  next => exact .inl (Option.some.inj h).symm

/-- Where a number begins, a digit stands before the point or behind it. -/
theorem isMantissa_of_startsNumber {cs : List Char} (h : startsNumber cs = true) :
    IsMantissa (cs.take (run .decimalDigit cs))
      ((cs.drop (run .decimalDigit cs)).take (fractionTail (cs.drop (run .decimalDigit cs)))) where
  isDigits := isDigits_take_run cs
  isFraction := isFraction_take_fractionTail _
  some_digit := by
    unfold startsNumber at h
    split at h
    next c rest =>
      have hwhole : run .decimalDigit ('.' :: c :: rest) = 0 := rfl
      rw [hwhole, List.drop_zero, List.length_take_of_le (fractionTail_le _), fractionTail, run,
        List.takeWhile_cons, if_pos h]
      exact .inr (Nat.succ_le_succ (Nat.succ_pos _))
    next c rest _ =>
      refine .inl ?_
      rw [run, List.takeWhile_cons, if_pos h]
      exact List.cons_ne_nil _ _
    next => cases h

theorem numberText_of_decimal {cs : List Char} (hstarts : startsNumber cs = true)
    (h : (decimalNumber cs).kind = .number) : NumberText (cs.take (decimalNumber cs).length) := by
  have hmantissa := isMantissa_of_startsNumber hstarts
  rw [decimalNumber_eq cs rfl] at h ⊢
  split at h
  next n hn =>
    dsimp only
    rw [List.take_add, List.take_add, ← List.drop_drop]
    obtain rfl | ⟨letter, sign, digits, hletter, hsign, hdigits, htake⟩ :=
      exponent_of_exponentTail? hn
    · rw [List.take_zero, List.append_nil]
      exact .plain hmantissa
    · rw [htake]
      exact .exponent hmantissa hletter hsign hdigits
  next => cases h

/-- What is read as a number has the form of one. -/
theorem numberText_of_number {cs : List Char} (hstarts : startsNumber cs = true)
    (h : (number cs).kind = .number) : NumberText (cs.take (number cs).length) := by
  by_cases hradix : ∃ mark digit rest, cs = '0' :: mark :: rest ∧ radixDigit? mark = some digit
  · obtain ⟨mark, digit, rest, rfl, hdigit⟩ := hradix
    rw [number_of_radixDigit? hdigit]
    exact .radix hdigit (forall_mem_take_run digit rest)
  · have hdecimal : number cs = decimalNumber cs := by
      refine number_of_decimal fun mark rest heq => ?_
      by_contra hsome
      obtain ⟨digit, hdigit⟩ := Option.ne_none_iff_exists'.1 hsome
      exact hradix ⟨mark, digit, rest, heq, hdigit⟩
    rw [hdecimal] at h ⊢
    exact numberText_of_decimal hstarts h

theorem number_of_read {privateNames : Bool} {cs : List Char}
    (h : (read privateNames cs).kind = .number) :
    startsNumber cs = true ∧ read privateNames cs = number cs := by
  cases cs with
  | nil => cases h
  | cons c rest =>
    have hword := word_kind (c :: rest)
    have hescaped := escapedIdentifier_kind (c :: rest)
    have hpunctuator := punctuator_kind (c :: rest)
    have hstring := stringTail_kind c 1 rest
    simp only [read] at h ⊢
    split at h
    · cases h
    rw [if_neg ‹_›]
    split at h
    · simp [h] at hword
    rw [if_neg ‹_›]
    split at h
    · simp [h] at hescaped
    rw [if_neg ‹_›]
    split at h
    next hstarts => exact ⟨hstarts, by rw [if_pos hstarts]⟩
    split at h
    · rw [string] at h
      simp [h] at hstring
    split at h
    · cases h
    · simp [h] at hpunctuator

end Lexeme

namespace Number

open Lexeme

/-! ### Digits in a base -/

theorem accumulate?_isSome {base : Nat} {digits : List Char}
    (h : ∀ d ∈ digits, (CharSet.digitValue? base d).isSome = true) (value : Float) :
    (accumulate? base value digits).isSome = true := by
  induction digits generalizing value with
  | nil => rfl
  | cons d digits ih =>
    obtain ⟨n, hn⟩ := Option.isSome_iff_exists.1 (h d List.mem_cons_self)
    rw [accumulate?, hn]
    exact ih (fun d hd => h d (List.mem_cons_of_mem _ hd)) _

theorem ofRadixDigits?_eq_none_iff {base : Nat} {digits : List Char}
    (h : ∀ d ∈ digits, (CharSet.digitValue? base d).isSome = true) :
    ofRadixDigits? base digits = none ↔ digits = [] := by
  have hsome := accumulate?_isSome h 0
  rw [ofRadixDigits?]
  by_cases hnil : digits = []
  · simp [hnil]
  · simp [hnil, Option.ne_none_iff_isSome, hsome]

/-- The digits of a base have values in it. -/
theorem isSome_digitValue?_of_has {base : Nat} {digit : CharSet}
    (h : (base, digit) ∈ [(2, .binaryDigit), (8, .octalDigit), (16, .hexDigit)]) {d : Char}
    (hd : digit.has d = true) : (CharSet.digitValue? base d).isSome = true := by
  have hle (a b : Char) : a ≤ b ↔ a.toNat ≤ b.toNat := Char.le_def
  simp only [List.mem_cons, List.not_mem_nil, or_false, Prod.mk.injEq] at h
  obtain ⟨rfl, rfl⟩ | ⟨rfl, rfl⟩ | ⟨rfl, rfl⟩ := h
  case inr.inr => rwa [CharSet.isSome_digitValue?]
  all_goals
    simp only [CharSet.binaryDigit, CharSet.octalDigit, CharSet.digitValue?, CharSet.has,
      CharSet.covers, CharSet.ofRanges, List.any_cons, List.any_nil, hle] at hd ⊢
    generalize d.toNat = n at hd ⊢
    split_ifs <;> simp_all <;> omega

/-- Behind the mark of a base stand its digits. -/
theorem ofLiteral?_radix {mark : Char} {digit : CharSet} (h : radixDigit? mark = some digit)
    {digits : List Char} (hdigits : ∀ d ∈ digits, digit.has d = true) :
    ofLiteral? (String.ofList ('0' :: mark :: digits)) = none ↔ digits = [] := by
  have value {base : Nat} (hbase : (base, digit) ∈
      [(2, .binaryDigit), (8, .octalDigit), (16, .hexDigit)]) :
      ofRadixDigits? base digits = none ↔ digits = [] :=
    ofRadixDigits?_eq_none_iff fun d hd => isSome_digitValue?_of_has hbase (hdigits d hd)
  rw [ofLiteral?, String.toList_ofList]
  unfold radixDigit? at h
  split at h
  case h_7 => cases h
  all_goals
    obtain rfl := Option.some.inj h
    exact value (by simp)

/-! ### Decimals -/

/-- Signs and points are no digits. -/
theorem ne_cons_of_isDigits {cs : List Char} (h : IsDigits cs) {c : Char}
    (hc : CharSet.decimalDigit.has c = false) (rest : List Char) : cs ≠ c :: rest := by
  rintro rfl
  have hdigit := h c List.mem_cons_self
  rw [hc] at hdigit
  cases hdigit

/-- The exponent of a decimal has a value, unless its digits are missing. -/
theorem exponent?_eq_none_iff {letter : Char} {sign digits : List Char}
    (hletter : IsExponentLetter letter) (hsign : IsSign sign) (hdigits : IsDigits digits) :
    exponent? (letter :: (sign ++ digits)) = none ↔ digits = [] := by
  have hall : digits.all CharSet.decimalDigit.has = true := List.all_eq_true.2 hdigits
  have hc : (letter = 'e' || letter = 'E') = true := by simpa [IsExponentLetter] using hletter
  unfold exponent?
  dsimp only
  rw [if_pos hc]
  obtain rfl | rfl | rfl := hsign
  · rw [List.nil_append]
    split
    next => exact absurd rfl (ne_cons_of_isDigits hdigits (by decide) _)
    next => exact absurd rfl (ne_cons_of_isDigits hdigits (by decide) _)
    next => simp [hall]
  · simp [hall]
  · simp [hall]

/-- Digits end at a point, at the letter of an exponent, and at the end of the text. -/
theorem takeWhile_digits {digits : List Char} (hdigits : IsDigits digits) (rest : List Char)
    (hrest : ∀ c cs, rest = c :: cs → CharSet.decimalDigit.has c = false) :
    (digits ++ rest).takeWhile CharSet.decimalDigit.has = digits := by
  rw [List.takeWhile_append_of_pos hdigits]
  cases rest with
  | nil => rw [List.takeWhile_nil, List.append_nil]
  | cons c cs => rw [List.takeWhile_cons, hrest c cs rfl, if_neg Bool.false_ne_true, List.append_nil]

/-- What stands before the exponent of a decimal always has a value. -/
theorem unsignedDecimal?_eq_none_iff {whole fraction tail : List Char}
    (h : IsMantissa whole fraction)
    (htail : tail = [] ∨ ∃ c rest, tail = c :: rest ∧ IsExponentLetter c) :
    unsignedDecimal? (whole ++ fraction ++ tail) = none ↔ exponent? tail = none := by
  have hends : ∀ c cs, tail = c :: cs → CharSet.decimalDigit.has c = false := by
    rintro c cs rfl
    obtain hnil | ⟨d, rest, heq, hd⟩ := htail
    · cases hnil
    · obtain ⟨rfl, -⟩ := List.cons.inj heq
      exact decimalDigit_letter hd
  obtain rfl | ⟨digits, rfl, hdigits⟩ := h.isFraction
  · have hwhole := takeWhile_digits h.isDigits tail hends
    have hne : whole ≠ [] := h.some_digit.resolve_right (by decide)
    unfold unsignedDecimal?
    rw [List.append_nil]
    simp only [hwhole, List.drop_left]
    -- What stands behind the digits is no point.
    obtain rfl | ⟨c, rest, rfl, rfl | rfl⟩ := htail <;> simp [hne]
  · have hwhole := takeWhile_digits h.isDigits ('.' :: (digits ++ tail)) fun c cs heq => by
      obtain ⟨rfl, -⟩ := List.cons.inj heq
      decide
    have hfraction := takeWhile_digits hdigits tail hends
    have hne : ¬ (whole = [] ∧ digits = []) := by
      rintro ⟨rfl, rfl⟩
      exact h.some_digit.elim (fun hne => hne rfl) (by decide)
    unfold unsignedDecimal?
    rw [List.append_assoc, List.cons_append]
    simp only [hwhole, List.drop_left, hfraction]
    simp [hne]

/-- Digits and points have no case. -/
theorem toLower_of_toNat_le {c : Char} (hc : c.toNat ≤ 57) : c.toLower = c := by
  refine dif_neg ?_
  rintro ⟨hge, -⟩
  have hge : 65 ≤ c.toNat := UInt32.le_iff_toNat_le.1 hge
  omega

/-- No word that begins with a letter begins with a digit or a point. -/
theorem lower_ne_word {c : Char} (hc : c.toNat ≤ 57) (rest : List Char) (first : Char)
    (hfirst : 57 < first.toNat) (more : List Char) :
    String.ofList ((c :: rest).map Char.toLower) ≠ String.ofList (first :: more) := by
  intro heq
  have hcons := String.ofList_injective heq
  rw [List.map_cons, toLower_of_toNat_le hc] at hcons
  obtain ⟨rfl, -⟩ := List.cons.inj hcons
  omega

/-- A text that begins with a digit or a point is no word for infinity or NaN, and has no sign. -/
theorem ofDecimal?_eq_unsigned {c : Char} (hc : CharSet.decimalDigit.has c = true ∨ c = '.')
    (rest : List Char) : ofDecimal? (c :: rest) = unsignedDecimal? (c :: rest) := by
  have hlow : c.toNat ≤ 57 := by
    obtain hc | rfl := hc
    · rw [CharSet.decimalDigit, CharSet.has_ofRanges] at hc
      simp only [List.mem_singleton, exists_eq_left, Char.reduceToNat] at hc
      exact hc.2
    · decide
  have hinf : ¬ (String.ofList ((c :: rest).map Char.toLower) = "inf"
      || String.ofList ((c :: rest).map Char.toLower) = "infinity") = true := by
    rw [Bool.or_eq_true, decide_eq_true_eq, decide_eq_true_eq, not_or]
    exact ⟨lower_ne_word hlow rest 'i' (by decide) _, lower_ne_word hlow rest 'i' (by decide) _⟩
  have hnan : ¬ String.ofList ((c :: rest).map Char.toLower) = "nan" :=
    lower_ne_word hlow rest 'n' (by decide) _
  have hminus : c ≠ '-' := by
    rintro rfl
    exact absurd hc (by decide)
  have hplus : c ≠ '+' := by
    rintro rfl
    exact absurd hc (by decide)
  rw [ofDecimal?, unsigned?, if_neg hinf, if_neg hnan]
  · exact fun _ heq => hminus (List.cons.inj heq).1
  · exact fun _ heq => hplus (List.cons.inj heq).1

theorem ofDecimal?_eq_none_iff {whole fraction tail : List Char} (h : IsMantissa whole fraction)
    (htail : tail = [] ∨ ∃ c rest, tail = c :: rest ∧ IsExponentLetter c) :
    ofDecimal? (whole ++ fraction ++ tail) = none ↔ exponent? tail = none := by
  obtain ⟨c, rest, hcons, hc⟩ : ∃ c rest, whole ++ fraction = c :: rest
      ∧ (CharSet.decimalDigit.has c = true ∨ c = '.') := by
    obtain _ | ⟨c, whole⟩ := whole
    · obtain rfl | ⟨digits, rfl, -⟩ := h.isFraction
      · exact absurd h.some_digit (by decide)
      · exact ⟨'.', digits, rfl, .inr rfl⟩
    · exact ⟨c, whole ++ fraction, rfl, .inl (h.isDigits c List.mem_cons_self)⟩
  rw [← unsignedDecimal?_eq_none_iff h htail, hcons, List.cons_append, ofDecimal?_eq_unsigned hc]

/-! ### Literals -/

theorem ofLiteral?_decimal {cs : List Char}
    (h : ∀ c ∈ cs, IsDecimalChar c) : ofLiteral? (String.ofList cs)
      = if isOldOctal cs then ofRadixDigits? 8 cs else ofDecimal? (dropFinalPoint cs) := by
  unfold ofLiteral?
  rw [String.toList_ofList]
  split
  case h_7 => rfl
  -- No letter of a base is among the characters.
  all_goals exact absurd (h _ (List.mem_cons_of_mem _ List.mem_cons_self)) (by decide)

/-- A point at the end may be taken off: some digit stands before it. -/
theorem dropFinalPoint_plain {whole fraction : List Char} (h : IsMantissa whole fraction) :
    ∃ fraction', IsMantissa whole fraction' ∧ dropFinalPoint (whole ++ fraction) = whole ++ fraction'
    := by
  by_cases hlast : (whole ++ fraction).getLast? = some '.'
  · obtain rfl | ⟨digits, rfl, hdigits⟩ := h.isFraction
    · rw [List.append_nil] at hlast
      exact absurd (h.isDigits _ (List.mem_of_getLast? hlast)) (by decide)
    · rw [List.getLast?_append, List.getLast?_cons] at hlast
      by_cases hnil : digits = []
      · subst hnil
        refine ⟨[], ⟨h.isDigits, .inl rfl, .inl (h.some_digit.resolve_right (by decide))⟩, ?_⟩
        simp [dropFinalPoint]
      · have hpoint : '.' ∈ digits := by
          rw [List.getLast?_eq_some_getLast hnil] at hlast
          rw [← Option.some.inj hlast]
          exact List.getLast_mem hnil
        exact absurd (hdigits _ hpoint) (by decide)
  · exact ⟨fraction, h, if_neg hlast⟩

/-- **A decimal without an exponent has a value**, be it an old octal numeral or not. -/
theorem ofLiteral?_plain {whole fraction : List Char} (h : IsMantissa whole fraction) :
    ofLiteral? (String.ofList (whole ++ fraction)) ≠ none := by
  rw [ofLiteral?_decimal h.isDecimalChar]
  by_cases hold : isOldOctal (whole ++ fraction) = true
  · rw [if_pos hold]
    simp only [isOldOctal, Bool.and_eq_true, decide_eq_true_eq, List.all_eq_true] at hold
    obtain ⟨⟨hlength, -⟩, hoctal⟩ := hold
    rw [Ne, ofRadixDigits?_eq_none_iff fun d hd => isSome_digitValue?_of_has (by simp) (hoctal d hd)]
    rintro hnil
    rw [hnil] at hlength
    exact absurd hlength (by decide)
  · obtain ⟨fraction', hfraction', hdrop⟩ := dropFinalPoint_plain h
    rw [if_neg hold, hdrop, ← List.append_nil (whole ++ fraction'),
      Ne, ofDecimal?_eq_none_iff hfraction' (.inl rfl)]
    exact nofun

/-- **A decimal with an exponent has a value**, unless the digits of the exponent are missing. -/
theorem ofLiteral?_exponent {whole fraction sign digits : List Char} {letter : Char}
    (h : IsMantissa whole fraction) (hletter : IsExponentLetter letter) (hsign : IsSign sign)
    (hdigits : IsDigits digits) :
    ofLiteral? (String.ofList (whole ++ fraction ++ letter :: (sign ++ digits))) = none
      ↔ digits = [] := by
  have hold : ¬ isOldOctal (whole ++ fraction ++ letter :: (sign ++ digits)) = true := by
    rw [isOldOctal, Bool.and_eq_true, List.all_eq_true]
    rintro ⟨-, hoctal⟩
    have hdigit := hoctal letter (by simp)
    obtain rfl | rfl := hletter <;> exact absurd hdigit (by decide)
  have hpoint : ¬ (whole ++ fraction ++ letter :: (sign ++ digits)).getLast? = some '.' := by
    rw [List.getLast?_append_of_ne_nil _ (List.cons_ne_nil _ _)]
    intro hlast
    exact absurd (digit_or_mark hletter hsign hdigits _ (List.mem_of_getLast? hlast)) (by decide)
  rw [ofLiteral?_decimal (isDecimalChar_exponent h hletter hsign hdigits), if_neg hold,
    dropFinalPoint, if_neg hpoint, ofDecimal?_eq_none_iff h (.inr ⟨_, _, rfl, hletter⟩),
    exponent?_eq_none_iff hletter hsign hdigits]

end Number

namespace Lexer

open Lexeme

/-! ### The tokens of a source -/

/-- The texts of numbers have the form of numbers. -/
theorem numberText_of_mem_tokens (l : Lexer) : ∀ t ∈ l.tokens, t.kind = .number →
    NumberText t.text.toList := by
  refine forall_mem_tokens l fun m newline _ => ?_
  unfold token
  split
  · exact fun h => by cases h
  · intro h
    obtain ⟨hstarts, hread⟩ := number_of_read h
    have hkind : (number m.rest).kind = .number := hread ▸ h
    have htext := numberText_of_number hstarts hkind
    have hpos : (number m.rest).length ≠ 0 := by
      intro hzero
      rw [hzero, List.take_zero] at htext
      exact htext.ne_nil rfl
    show NumberText (String.ofList (m.rest.take m.lexeme.length)).toList
    rw [String.toList_ofList, lexeme, hread]
    dsimp only
    rwa [Nat.max_eq_left (Nat.one_le_iff_ne_zero.2 hpos)]

/-- A zero and the letter of a base. -/
def HasRadixMark (cs : List Char) : Prop :=
  ∃ mark ∈ ['b', 'B', 'o', 'O', 'x', 'X'], ['0', mark] <+: cs

/-- The mark of an exponent at the end of a decimal: its letter and a sign or none, behind which no
digit stands. -/
def EndsInExponentMark (cs : List Char) : Prop :=
  ¬ HasRadixMark cs ∧ ∃ front letter sign, IsExponentLetter letter ∧ IsSign sign
    ∧ cs = front ++ letter :: sign

theorem mem_radixMarks_iff {mark : Char} :
    mark ∈ ['b', 'B', 'o', 'O', 'x', 'X'] ↔ ∃ digit, radixDigit? mark = some digit := by
  unfold radixDigit?
  split
  case h_7 hb hB ho hO hx hX =>
    simp only [List.mem_cons, List.not_mem_nil, or_false, reduceCtorEq, exists_false, iff_false,
      not_or]
    exact ⟨hb, hB, ho, hO, hx, hX⟩
  all_goals simp

/-- A decimal has no letter of a base. -/
theorem not_hasRadixMark {cs : List Char} (h : ∀ c ∈ cs, IsDecimalChar c) : ¬ HasRadixMark cs := by
  rintro ⟨mark, hmark, rest, rfl⟩
  obtain ⟨digit, hdigit⟩ := mem_radixMarks_iff.1 hmark
  rw [(h mark (by simp)).radixDigit?] at hdigit
  cases hdigit

/-- A decimal is not the mark of a base alone. -/
theorem ne_radixMark {cs : List Char} (h : ¬ HasRadixMark cs) :
    ¬ ∃ mark ∈ ['b', 'B', 'o', 'O', 'x', 'X'], cs = ['0', mark] := by
  rintro ⟨mark, hmark, rfl⟩
  exact h ⟨mark, hmark, List.prefix_refl _⟩

/-- The mark of an exponent has no digit. -/
theorem not_digit_of_mark {letter : Char} {sign : List Char} (hletter : IsExponentLetter letter)
    (hsign : IsSign sign) {c : Char} (hc : c ∈ letter :: sign) :
    ¬ CharSet.decimalDigit.has c = true := by
  obtain rfl | hc := List.mem_cons.1 hc
  · rw [decimalDigit_letter hletter]
    exact Bool.false_ne_true
  · obtain rfl | rfl | rfl := hsign
    · cases hc
    · obtain rfl := List.mem_singleton.1 hc
      decide
    · obtain rfl := List.mem_singleton.1 hc
      decide

/-- An exponent ends in its mark exactly if its digits are missing. -/
theorem endsInExponentMark_iff {whole fraction sign digits : List Char} {letter : Char}
    (h : IsMantissa whole fraction) (hletter : IsExponentLetter letter) (hsign : IsSign sign)
    (hdigits : IsDigits digits) :
    EndsInExponentMark (whole ++ fraction ++ letter :: (sign ++ digits)) ↔ digits = [] := by
  have hmark := not_hasRadixMark (isDecimalChar_exponent h hletter hsign hdigits)
  constructor
  · rintro ⟨-, front, letter', sign', hletter', hsign', heq⟩
    by_contra hne
    -- The last character would be a digit on one side, and a letter or a sign on the other.
    have hdigit : (front ++ letter' :: sign').getLast? = some (digits.getLast hne) := by
      rw [← heq, List.getLast?_append_of_ne_nil _ (List.cons_ne_nil _ _), ← List.cons_append,
        List.getLast?_append_of_ne_nil _ hne, List.getLast?_eq_some_getLast hne]
    rw [List.getLast?_append_of_ne_nil _ (List.cons_ne_nil _ _)] at hdigit
    exact not_digit_of_mark hletter' hsign' (List.mem_of_getLast? hdigit)
      (hdigits _ (List.getLast_mem hne))
  · rintro rfl
    exact ⟨hmark, whole ++ fraction, letter, sign, hletter, hsign, by rw [List.append_nil]⟩

/-- **A number has no value exactly if it breaks off**: if it is the mark of a base and nothing
more, or ends in the mark of an exponent. -/
theorem tokens_numbers {source : String} {privateNames : Bool} {t : Token}
    (ht : t ∈ (ofString source privateNames).tokens) (hkind : t.kind = .number) :
    Number.ofLiteral? t.text = none ↔
      (∃ mark ∈ ['b', 'B', 'o', 'O', 'x', 'X'], t.text.toList = ['0', mark])
        ∨ EndsInExponentMark t.text.toList := by
  have htext := numberText_of_mem_tokens _ t ht hkind
  rw [← String.ofList_toList (s := t.text)]
  generalize t.text.toList = cs at htext ⊢
  rw [String.toList_ofList]
  cases htext with
  | @radix mark digit digits hmark hdigits =>
    rw [Number.ofLiteral?_radix hmark hdigits]
    have hmem := mem_radixMarks_iff.2 ⟨digit, hmark⟩
    have hradix : HasRadixMark ('0' :: mark :: digits) := ⟨mark, hmem, digits, rfl⟩
    rw [or_iff_left fun hends : EndsInExponentMark _ => hends.1 hradix]
    constructor
    · rintro rfl
      exact ⟨mark, hmem, rfl⟩
    · rintro ⟨_, -, heq⟩
      exact (List.cons.inj (List.cons.inj heq).2).2
  | @plain whole fraction h =>
    have hmark := not_hasRadixMark h.isDecimalChar
    refine iff_of_false (Number.ofLiteral?_plain h) (not_or.2 ⟨ne_radixMark hmark, ?_⟩)
    rintro ⟨-, front, letter, sign, hletter, -, heq⟩
    have hletter' : letter ∈ whole ++ fraction := by
      rw [heq]
      exact List.mem_append_right _ List.mem_cons_self
    obtain hdigit | rfl := h.digit_or_point hletter'
    · rw [decimalDigit_letter hletter] at hdigit
      cases hdigit
    · exact absurd hletter (by decide)
  | exponent h hletter hsign hdigits =>
    have hmark := not_hasRadixMark (isDecimalChar_exponent h hletter hsign hdigits)
    rw [Number.ofLiteral?_exponent h hletter hsign hdigits,
      endsInExponentMark_iff h hletter hsign hdigits, or_iff_right (ne_radixMark hmark)]

/-- The exponent of `1e+` has no digit, so that the number has no value. -/
theorem tokens_numbers_cut_off :
    ∃ t ∈ (ofString "1e+;" false).tokens, t.kind = .number ∧ t.text = "1e+"
      ∧ Number.ofLiteral? t.text = none := by
  obtain ⟨t, ht, hkind, htext⟩ : ∃ t ∈ (ofString "1e+;" false).tokens, t.kind = .number
      ∧ t.text = "1e+" := by decide +kernel
  refine ⟨t, ht, hkind, htext, (tokens_numbers ht hkind).2 (.inr ?_)⟩
  have hchars : t.text.toList = ['1', 'e', '+'] := by
    rw [htext]
    decide +kernel
  rw [hchars]
  refine ⟨?_, ['1'], 'e', ['+'], .inl rfl, .inr (.inl rfl), rfl⟩
  rintro ⟨mark, -, hprefix⟩
  obtain ⟨hfirst, -⟩ := List.cons_prefix_cons.1 hprefix
  exact absurd hfirst (by decide)

end Lexer

end EcmaScript

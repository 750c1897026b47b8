import EcmaScript.Lexer
import Mathlib.Tactic.Common

namespace EcmaScript.Lexeme

/-!
# Lexemes stay inside the text

Every class of lexemes counts characters, also where the text breaks off inside a lexeme. It never
counts more of them than there are.

* `Lexeme.scanEscape_le`, `Lexeme.identifierTail_le`, `Lexeme.number_le`, `Lexeme.stringTail_le`,
  … — one bound for each class;
* `Lexeme.read_le` — the lexeme at the front of a text is not longer than the text.
-/

theorem run_le (set : CharSet) (cs : List Char) : run set cs ≤ cs.length :=
  (List.takeWhile_prefix set.has).length_le

/-! ### Identifiers, keywords and private names -/

/-- Number of characters that were read of an escape, complete or broken off. -/
def EscapeScan.length : EscapeScan → Nat
  | complete n => n
  | broken n => n

theorem scanEscape_le {cs : List Char} (h : cs ≠ []) : (scanEscape cs).length ≤ cs.length := by
  unfold scanEscape
  split
  next rest =>
    -- The closing brace has to be there for the escape to be complete.
    have hrun := run_le .hexDigit rest
    dsimp only
    split
    next hclose =>
      have hmore : rest.drop (run .hexDigit rest) ≠ [] := by
        intro hnil
        simp [hnil] at hclose
      have hlt : run .hexDigit rest < rest.length := by
        by_contra hge
        exact hmore (List.drop_eq_nil_of_le (Nat.le_of_not_lt hge))
      simp only [EscapeScan.length, List.length_cons]
      omega
    next =>
      simp only [EscapeScan.length, List.length_cons]
      omega
  next rest _ =>
    have hrun := run_le .hexDigit (rest.take 4)
    rw [List.length_take] at hrun
    dsimp only
    split
    next =>
      simp only [EscapeScan.length, List.length_cons]
      omega
    next =>
      simp only [EscapeScan.length, List.length_cons]
      omega
  next => exact List.length_pos_iff.2 h

theorem identifierTail_le (cs : List Char) : identifierTail cs ≤ cs.length := by
  fun_induction identifierTail cs with
  | case1 => exact Nat.le_refl _
  | case2 c rest _ ih => exact Nat.succ_le_succ ih
  | case3 rest n _ hscan ih =>
    have hn := scanEscape_le (List.cons_ne_nil '\\' rest)
    rw [hscan] at hn
    have hn : n ≤ ('\\' :: rest).length := hn
    rw [List.length_drop] at ih
    omega
  | case4 => exact Nat.zero_le _
  | case5 => exact Nat.zero_le _

theorem word_le (cs : List Char) : (word cs).length ≤ cs.length := by
  unfold word
  dsimp only
  split
  · rw [List.length_take]
    exact Nat.min_le_right _ _
  · exact identifierTail_le cs

/-- An escape and the identifier that goes on behind it. -/
theorem complete_add_identifierTail_le {cs : List Char} {n : Nat}
    (h : scanEscape cs = .complete n) : n + identifierTail (cs.drop n) ≤ cs.length := by
  have hne : cs ≠ [] := by
    rintro rfl
    cases h
  have hn := scanEscape_le hne
  rw [h] at hn
  have hn : n ≤ cs.length := hn
  have htail := identifierTail_le (cs.drop n)
  rw [List.length_drop] at htail
  omega

theorem escapedIdentifier_le {cs : List Char} (h : cs ≠ []) :
    (escapedIdentifier cs).length ≤ cs.length := by
  unfold escapedIdentifier
  split
  next n hscan => exact complete_add_identifierTail_le hscan
  next n hscan =>
    have hn := scanEscape_le h
    rwa [hscan] at hn

theorem privateTail_le (cs : List Char) : privateTail cs ≤ cs.length := by
  unfold privateTail
  split
  next => exact Nat.le_refl _
  next c rest =>
    split
    · split
      next n hscan => exact complete_add_identifierTail_le hscan
      next => exact Nat.zero_le _
    · split
      · exact Nat.succ_le_succ (identifierTail_le rest)
      · exact Nat.zero_le _

/-! ### Numbers and strings -/

theorem exponentTail?_le {cs : List Char} {n : Nat} (h : exponentTail? cs = some n) :
    n ≤ cs.length := by
  unfold exponentTail? at h
  split at h
  next c rest =>
    split at h
    · split at h
      next => cases h
      next s digits =>
        have hdigits := run_le .decimalDigit digits
        have hrest := run_le .decimalDigit (s :: digits)
        split at h
        · obtain rfl := Option.some.inj h
          simp only [List.length_cons]
          omega
        · obtain rfl := Option.some.inj h
          simp only [List.length_cons] at hrest ⊢
          omega
    · obtain rfl := Option.some.inj h
      exact Nat.zero_le _
  next =>
    obtain rfl := Option.some.inj h
    exact Nat.zero_le _

theorem ne_nil_of_exponentTail? {cs : List Char} (h : exponentTail? cs = none) : cs ≠ [] := by
  rintro rfl
  cases h

/-- The point and the digits behind it. -/
def fractionTail : List Char → Nat
  | '.' :: rest => run .decimalDigit rest + 1
  | _ => 0

theorem fractionTail_le (cs : List Char) : fractionTail cs ≤ cs.length := by
  unfold fractionTail
  split
  next rest => exact Nat.succ_le_succ (run_le .decimalDigit rest)
  next => exact Nat.zero_le _

/-- What a decimal number takes, by what its fraction takes. -/
theorem decimalNumber_eq (cs : List Char) {whole : Nat} (hwhole : run .decimalDigit cs = whole) :
    decimalNumber cs =
      match exponentTail? ((cs.drop whole).drop (fractionTail (cs.drop whole))) with
      | some n => ⟨.number, whole + fractionTail (cs.drop whole) + n⟩
      | none => ⟨.invalid, whole + fractionTail (cs.drop whole) + 1⟩ := by
  subst hwhole
  rfl

theorem decimalNumber_le (cs : List Char) : (decimalNumber cs).length ≤ cs.length := by
  have hwhole := run_le .decimalDigit cs
  have hfraction := fractionTail_le (cs.drop (run .decimalDigit cs))
  rw [List.length_drop] at hfraction
  rw [decimalNumber_eq cs rfl]
  split
  next n htail =>
    have hn := exponentTail?_le htail
    rw [List.length_drop, List.length_drop] at hn
    dsimp only
    omega
  next htail =>
    -- Only behind the letter of an exponent does a number break off.
    have hpos := List.length_pos_iff.2 (ne_nil_of_exponentTail? htail)
    rw [List.length_drop, List.length_drop] at hpos
    dsimp only
    omega

theorem number_le (cs : List Char) : (number cs).length ≤ cs.length := by
  unfold number
  split
  case h_7 => exact decimalNumber_le cs
  all_goals exact Nat.add_le_add_right (run_le _ _) 2

theorem stringTail_le (quote : Char) (read : Nat) (cs : List Char) :
    (stringTail quote read cs).length ≤ read + cs.length := by
  fun_induction stringTail quote read cs with
  | case1 => exact Nat.le_refl _
  | case2 => exact Nat.le_refl _
  | case3 read c rest ih =>
    simp only [List.length_cons]
    omega
  | case4 read c rest =>
    simp only [List.length_cons]
    omega
  | case5 read c rest =>
    simp only [List.length_cons]
    omega
  | case6 read c rest _ _ _ _ ih =>
    simp only [List.length_cons]
    omega

/-! ### The lexeme at the front of a text -/

theorem punctuator_le {cs : List Char} (h : cs ≠ []) : (punctuator cs).length ≤ cs.length := by
  unfold punctuator
  split
  next p hp =>
    have hle := (Punctuator.spelling_isPrefixOf_of_longest? hp).length_le
    rwa [String.length_toList] at hle
  next => exact List.length_pos_iff.2 h

/-- **A lexeme is not longer than the text that it begins.** -/
theorem read_le (privateNames : Bool) (cs : List Char) :
    (read privateNames cs).length ≤ cs.length := by
  cases cs with
  | nil => exact Nat.le_refl _
  | cons c rest =>
    have hne : c :: rest ≠ [] := List.cons_ne_nil c rest
    simp only [read]
    split
    · exact Nat.succ_le_succ (identifierTail_le rest)
    split
    · exact word_le _
    split
    · exact escapedIdentifier_le hne
    split
    · exact number_le _
    split
    · have hstring := stringTail_le c 1 rest
      rw [Nat.add_comm] at hstring
      exact hstring
    split
    · exact Nat.succ_le_succ (privateTail_le rest)
    · exact punctuator_le hne

end EcmaScript.Lexeme

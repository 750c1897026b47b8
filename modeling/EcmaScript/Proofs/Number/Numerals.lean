import EcmaScript.Proofs.Number.Rounding
import Mathlib.Data.List.TakeWhile

namespace EcmaScript

/-!
# Reading numerals

The text of a number in a written tree tells the number. It is read back as a rational number, which
is the number's shortest decimal.

* `Numeral.value` — the value of digits with a point and an exponent or without them;
* `Numeral.spells_plain`, `Numeral.spells_scientific` — each layout of a decimal has its value;
* `Number.numeral?_inj` — finite numbers with one text are equal.
-/

/-! ### Values of texts -/

namespace Numeral

/-- The exponent behind its letter, or none. -/
def exponent : List Char → Int
  | 'e' :: '-' :: digits => -(Nat.ofDigitChars 10 digits 0 : Int)
  | 'e' :: '+' :: digits => Nat.ofDigitChars 10 digits 0
  | _ => 0

/-- What stands before the letter of the exponent. -/
def mantissa (cs : List Char) : List Char := cs.takeWhile (· ≠ 'e')

/-- The digits before the point. -/
def whole (cs : List Char) : List Char := (mantissa cs).takeWhile (· ≠ '.')

/-- The digits behind the point. -/
def fraction (cs : List Char) : List Char := ((mantissa cs).dropWhile (· ≠ '.')).tail

/-- The number that a text without a sign stands for. -/
def value (cs : List Char) : ℚ :=
  Nat.ofDigitChars 10 (whole cs ++ fraction cs) 0
    * 10 ^ (exponent (cs.dropWhile (· ≠ 'e')) - (fraction cs).length)

/-- Nothing, or an exponent. -/
def IsTail (cs : List Char) : Prop := cs = [] ∨ ∃ rest, cs = 'e' :: rest

variable {ds fs tail : List Char}

theorem IsTail.takeWhile (h : IsTail tail) : tail.takeWhile (· ≠ 'e') = [] := by
  obtain rfl | ⟨rest, rfl⟩ := h
  · rfl
  · rfl

theorem IsTail.dropWhile (h : IsTail tail) : tail.dropWhile (· ≠ 'e') = tail := by
  obtain rfl | ⟨rest, rfl⟩ := h
  · rfl
  · rfl

/-- Digits are neither points nor letters. -/
theorem ne_of_isDigit {c d : Char} (hc : c.isDigit) (hd : d.isDigit = false) :
    decide (c ≠ d) = true := by
  rw [decide_eq_true_eq]
  rintro rfl
  rw [hd] at hc
  cases hc

theorem value_whole (hds : ∀ c ∈ ds, c.isDigit) (ht : IsTail tail) :
    value (ds ++ tail) = Nat.ofDigitChars 10 ds 0 * 10 ^ exponent tail := by
  have hletter : ∀ c ∈ ds, decide (c ≠ 'e') = true := fun c hc => ne_of_isDigit (hds c hc) rfl
  have hpoint : ∀ c ∈ ds, decide (c ≠ '.') = true := fun c hc => ne_of_isDigit (hds c hc) rfl
  have hmantissa : mantissa (ds ++ tail) = ds := by
    rw [mantissa, List.takeWhile_append_of_pos hletter, ht.takeWhile, List.append_nil]
  have hfraction : fraction (ds ++ tail) = [] := by
    rw [fraction, hmantissa, List.dropWhile_eq_nil_iff.2 hpoint, List.tail_nil]
  rw [value, whole, hmantissa, hfraction, List.takeWhile_eq_self_iff.2 hpoint,
    List.dropWhile_append_of_pos hletter, ht.dropWhile]
  simp

theorem value_point (hds : ∀ c ∈ ds, c.isDigit) (hfs : ∀ c ∈ fs, c.isDigit) (ht : IsTail tail) :
    value (ds ++ '.' :: fs ++ tail)
      = Nat.ofDigitChars 10 (ds ++ fs) 0 * 10 ^ (exponent tail - fs.length) := by
  have hletter : ∀ c ∈ ds ++ '.' :: fs, decide (c ≠ 'e') = true := by
    intro c hc
    rcases List.mem_append.1 hc with hc | hc
    · exact ne_of_isDigit (hds c hc) rfl
    · rcases List.mem_cons.1 hc with rfl | hc
      · rfl
      · exact ne_of_isDigit (hfs c hc) rfl
  have hpoint : ∀ c ∈ ds, decide (c ≠ '.') = true := fun c hc => ne_of_isDigit (hds c hc) rfl
  have hmantissa : mantissa (ds ++ '.' :: fs ++ tail) = ds ++ '.' :: fs := by
    rw [mantissa, List.takeWhile_append_of_pos hletter, ht.takeWhile, List.append_nil]
  have hwhole : whole (ds ++ '.' :: fs ++ tail) = ds := by
    rw [whole, hmantissa, List.takeWhile_append_of_pos hpoint]
    exact List.append_nil ds
  have hfraction : fraction (ds ++ '.' :: fs ++ tail) = fs := by
    rw [fraction, hmantissa, List.dropWhile_append_of_pos hpoint]
    rfl
  rw [value, hwhole, hfraction, List.dropWhile_append_of_pos hletter, ht.dropWhile]

/-! ### Digits and zeros -/

theorem isDigit_toDigits (n : Nat) : ∀ c ∈ Nat.toDigits 10 n, c.isDigit :=
  fun _ hc => Nat.isDigit_of_mem_toDigits (by decide) (by decide) hc

theorem isDigit_zeros (n : Nat) : ∀ c ∈ List.replicate n '0', c.isDigit := by
  intro c hc
  rw [List.eq_of_mem_replicate hc]
  rfl

/-- Zeros behind digits. -/
theorem ofDigitChars_zeros (n init : Nat) :
    Nat.ofDigitChars 10 (List.replicate n '0') init = init * 10 ^ n := by
  induction n generalizing init with
  | zero => exact (Nat.mul_one init).symm
  | succ n ih =>
    rw [List.replicate_succ, Nat.ofDigitChars_cons, ih, pow_succ]
    simp only [Nat.sub_self, Nat.add_zero]
    ring

theorem ofDigitChars_toDigits_zeros (n k : Nat) :
    Nat.ofDigitChars 10 (Nat.toDigits 10 n ++ List.replicate k '0') 0 = n * 10 ^ k := by
  rw [Nat.ofDigitChars_append, Nat.ofDigitChars_toDigits (by decide) (by decide),
    ofDigitChars_zeros]

/-- Zeros in front of digits. -/
theorem ofDigitChars_zeros_toDigits (k n : Nat) :
    Nat.ofDigitChars 10 (List.replicate k '0' ++ Nat.toDigits 10 n) 0 = n := by
  rw [Nat.ofDigitChars_append, ofDigitChars_zeros, Nat.zero_mul,
    Nat.ofDigitChars_toDigits (by decide) (by decide)]

theorem toList_toString (n : Nat) : (toString n).toList = Nat.toDigits 10 n := by
  rw [Nat.toString_eq_repr, Nat.repr_eq_ofList_toDigits, String.toList_ofList]

/-! ### Layouts -/

/-- A text that begins with a digit, and the number that it stands for. -/
structure Spells (text : String) (x : ℚ) : Prop where
  head : ∃ c rest, text.toList = c :: rest ∧ c.isDigit
  value : Numeral.value text.toList = x

theorem toDigits_ne_nil (n : Nat) : Nat.toDigits 10 n ≠ [] :=
  List.ne_nil_of_length_pos Nat.length_toDigits_pos

/-- A text of digits, without a point. -/
theorem Spells.of_whole {text : String} (htext : text.toList = ds ++ tail)
    (hds : ∀ c ∈ ds, c.isDigit) (hne : ds ≠ []) (ht : IsTail tail) :
    Spells text (Nat.ofDigitChars 10 ds 0 * 10 ^ exponent tail) := by
  refine ⟨?_, by rw [htext, value_whole hds ht]⟩
  obtain ⟨c, ds, rfl⟩ := List.exists_cons_of_ne_nil hne
  exact ⟨c, ds ++ tail, htext, hds c List.mem_cons_self⟩

/-- A text of digits with a point between them. -/
theorem Spells.of_point {text : String} (htext : text.toList = ds ++ '.' :: fs ++ tail)
    (hds : ∀ c ∈ ds, c.isDigit) (hne : ds ≠ []) (hfs : ∀ c ∈ fs, c.isDigit) (ht : IsTail tail) :
    Spells text (Nat.ofDigitChars 10 (ds ++ fs) 0 * 10 ^ (exponent tail - fs.length)) := by
  refine ⟨?_, by rw [htext, value_point hds hfs ht]⟩
  obtain ⟨c, ds, rfl⟩ := List.exists_cons_of_ne_nil hne
  exact ⟨c, ds ++ '.' :: fs ++ tail, htext, hds c List.mem_cons_self⟩

/-- Digits with a point before the last ones. -/
theorem spells_withPoint (n places : Nat) :
    Spells (Decimal.withPoint (toString n) places) (n * 10 ^ (-places : Int)) := by
  set padded := List.replicate (places + 1 - (toString n).length) '0' ++ Nat.toDigits 10 n
    with hpadded
  have hlength : places + 1 ≤ padded.length := by
    rw [hpadded, List.length_append, List.length_replicate, ← toList_toString n,
      String.length_toList]
    omega
  have hdigits : ∀ c ∈ padded, c.isDigit := by
    intro c hc
    rcases List.mem_append.1 hc with hc | hc
    · exact isDigit_zeros _ c hc
    · exact isDigit_toDigits n c hc
  have htext : (Decimal.withPoint (toString n) places).toList =
      padded.take (padded.length - places) ++ '.' :: padded.drop (padded.length - places)
        ++ [] := by
    unfold Decimal.withPoint Decimal.zeros
    simp only [String.toList_append, String.toList_ofList, toList_toString, List.append_nil,
      ← hpadded, List.append_assoc]
    rfl
  have hne : padded.take (padded.length - places) ≠ [] := by
    refine List.ne_nil_of_length_pos ?_
    rw [List.length_take]
    omega
  have hspells := Spells.of_point htext (fun c hc => hdigits c (List.mem_of_mem_take hc)) hne
    (fun c hc => hdigits c (List.mem_of_mem_drop hc)) (.inl rfl)
  have hplaces : (padded.drop (padded.length - places)).length = places := by
    rw [List.length_drop]
    omega
  rw [List.take_append_drop, hplaces, hpadded, ofDigitChars_zeros_toDigits] at hspells
  have hexponent : exponent [] - (places : Int) = -places := Int.zero_sub places
  rwa [hexponent] at hspells

theorem spells_plain (d : Decimal) : Spells (d.plain ".0") d.value := by
  unfold Decimal.plain
  split
  next hexponent =>
    set zeros := if d.digits = 0 then 0 else d.exponent.toNat with hzeros
    have hdigits : ∀ c ∈ Nat.toDigits 10 d.digits ++ List.replicate zeros '0', c.isDigit := by
      intro c hc
      rcases List.mem_append.1 hc with hc | hc
      · exact isDigit_toDigits _ c hc
      · exact isDigit_zeros _ c hc
    have htext : (toString d.digits ++ Decimal.zeros zeros ++ ".0").toList =
        Nat.toDigits 10 d.digits ++ List.replicate zeros '0' ++ '.' :: List.replicate 1 '0'
          ++ [] := by
      rw [String.toList_append, String.toList_append, toList_toString, Decimal.zeros,
        String.toList_ofList, List.append_nil]
      rfl
    have hspells := Spells.of_point htext hdigits
      (List.append_ne_nil_of_left_ne_nil (toDigits_ne_nil _) _) (isDigit_zeros 1) (.inl rfl)
    rw [Nat.ofDigitChars_append, ofDigitChars_toDigits_zeros, ofDigitChars_zeros] at hspells
    have hvalue : ((d.digits * 10 ^ zeros * 10 ^ 1 : ℕ) : ℚ)
        * 10 ^ (exponent [] - ((List.replicate 1 '0').length : Int)) = d.value := by
      have hone : exponent [] - ((List.replicate 1 '0').length : Int) = -1 := rfl
      rw [hone, Decimal.value]
      by_cases hzero : d.digits = 0
      · rw [hzero]
        simp
      · rw [hzeros, if_neg hzero]
        have hpow : (10 : ℚ) ^ d.exponent = 10 ^ d.exponent.toNat := by
          rw [← zpow_natCast, Int.toNat_of_nonneg hexponent]
        rw [hpow]
        push_cast
        rw [zpow_neg_one]
        field_simp
    rwa [hvalue] at hspells
  next hexponent =>
    have hspells := spells_withPoint d.digits (-d.exponent).toNat
    have hvalue : (d.digits : ℚ) * 10 ^ (-((-d.exponent).toNat : Int)) = d.value := by
      rw [Decimal.value]
      congr 2
      omega
    rwa [hvalue] at hspells

/-- The sign and the digits of an exponent are read back. -/
theorem exponent_letter (e : Int) :
    exponent ('e' :: (if e < 0 then '-' else '+') :: Nat.toDigits 10 e.natAbs) = e := by
  by_cases hneg : e < 0
  · rw [if_pos hneg, exponent, Nat.ofDigitChars_toDigits (by decide) (by decide)]
    omega
  · rw [if_neg hneg, exponent, Nat.ofDigitChars_toDigits (by decide) (by decide)]
    omega

theorem spells_scientific (d : Decimal) : Spells d.scientific d.value := by
  set tail := 'e' :: (if d.leadingExponent < 0 then '-' else '+')
    :: Nat.toDigits 10 d.leadingExponent.natAbs with htail
  have hexponent : exponent tail = d.leadingExponent := exponent_letter _
  have hends : IsTail tail := .inr ⟨_, rfl⟩
  have hdigits := isDigit_toDigits d.digits
  have hread : Nat.ofDigitChars 10 (Nat.toDigits 10 d.digits) 0 = d.digits :=
    Nat.ofDigitChars_toDigits (by decide) (by decide)
  have hsign : (if d.leadingExponent < 0 then "-" else "+" : String).toList
      = [if d.leadingExponent < 0 then '-' else '+'] := by
    split <;> rfl
  have hleading : d.leadingExponent = d.exponent + (Nat.toDigits 10 d.digits).length - 1 := rfl
  have hne := toDigits_ne_nil d.digits
  unfold Decimal.scientific
  dsimp only
  rw [toList_toString]
  generalize Nat.toDigits 10 d.digits = cs at hdigits hread hleading hne
  match cs with
  | [] => exact absurd rfl hne
  | [c] =>
    have htext : (String.singleton c ++ "e" ++ (if d.leadingExponent < 0 then "-" else "+")
        ++ toString d.leadingExponent.natAbs).toList = [c] ++ tail := by
      simp only [String.toList_append, hsign, toList_toString, String.toList_singleton]
      rfl
    have hspells := Spells.of_whole htext hdigits hne hends
    have hvalue : (d.digits : ℚ) * 10 ^ d.leadingExponent = d.value := by
      rw [hleading]
      exact congrArg (fun e : Int => (d.digits : ℚ) * 10 ^ e) (Int.add_sub_cancel _ _)
    rwa [hread, hexponent, hvalue] at hspells
  | c :: c' :: cs =>
    have htext : (String.singleton c ++ "." ++ String.ofList (c' :: cs) ++ "e"
        ++ (if d.leadingExponent < 0 then "-" else "+")
        ++ toString d.leadingExponent.natAbs).toList = [c] ++ '.' :: (c' :: cs) ++ tail := by
      simp only [String.toList_append, hsign, toList_toString, String.toList_singleton,
        String.toList_ofList]
      simp only [List.append_assoc]
      rfl
    have hspells := Spells.of_point htext
      (fun x hx => hdigits x (List.mem_cons.2 (.inl (List.mem_singleton.1 hx))))
      (List.cons_ne_nil c []) (fun x hx => hdigits x (List.mem_cons_of_mem c hx)) hends
    have hplaces : d.leadingExponent - ((c' :: cs).length : Int) = d.exponent := by
      rw [hleading, List.length_cons (a := c)]
      push_cast
      ring
    have hcons : [c] ++ c' :: cs = c :: c' :: cs := rfl
    rwa [hcons, hread, hexponent, hplaces] at hspells

end Numeral

/-! ### Numbers -/

namespace Number

variable {n n' : Number}

/-- The text of a finite number is its sign and the text of its decimal. -/
theorem numeral?_spells (hn : n.isFinite = true) :
    ∃ body, Numeral.Spells body (n.decimal .toEven).value ∧ n.numeral? = some (n.sign ++ body) := by
  refine ⟨_, ?_, if_pos hn⟩
  split
  · exact Numeral.spells_plain _
  · exact Numeral.spells_scientific _

/-- **The text of a finite number tells the number.** -/
theorem numeral?_inj (hn : n.isFinite = true) (hn' : n'.isFinite = true)
    (h : n.numeral? = n'.numeral?) : n = n' := by
  obtain ⟨body, hbody, htext⟩ := numeral?_spells hn
  obtain ⟨body', hbody', htext'⟩ := numeral?_spells hn'
  have hsame : n.sign.toList ++ body.toList = n'.sign.toList ++ body'.toList := by
    rw [← String.toList_append, ← String.toList_append]
    exact congrArg String.toList (Option.some.inj (htext.symm.trans (h.trans htext')))
  obtain ⟨c, rest, hhead, hdigit⟩ := hbody.head
  obtain ⟨c', rest', hhead', hdigit'⟩ := hbody'.head
  -- A digit is no minus, so that both numbers have one sign, and the rest is the same text too.
  have hsign : n.isNegative = n'.isNegative ∧ body.toList = body'.toList := by
    unfold sign at hsame
    cases hneg : n.isNegative with
    | true =>
      cases hneg' : n'.isNegative with
      | true =>
        rw [hneg, hneg'] at hsame
        exact ⟨rfl, List.append_cancel_left hsame⟩
      | false =>
        rw [hneg, hneg', hhead'] at hsame
        obtain rfl : '-' = c' := (List.cons.inj hsame).1
        cases hdigit'
    | false =>
      cases hneg' : n'.isNegative with
      | true =>
        rw [hneg, hneg', hhead] at hsame
        obtain rfl : c = '-' := (List.cons.inj hsame).1
        cases hdigit
      | false =>
        rw [hneg, hneg'] at hsame
        exact ⟨rfl, List.append_cancel_left hsame⟩
  refine ext_of_decimal .toEven hsign.1 ?_
  rw [← hbody.value, ← hbody'.value, hsign.2]

end Number

end EcmaScript

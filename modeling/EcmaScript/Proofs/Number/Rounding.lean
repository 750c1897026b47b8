import EcmaScript.Number.Basic
import Mathlib.Algebra.Order.Field.Power
import Mathlib.Data.Rat.Cast.Order
import Mathlib.Tactic.FieldSimp
import Mathlib.Tactic.Linarith
import Mathlib.Tactic.NormNum
import Mathlib.Tactic.Positivity
import Mathlib.Tactic.Ring

namespace EcmaScript

/-!
# Decimals that round to a number

The shortest decimal of a double rounds to this double and to no other one. So a double can be told
from its decimal.

* `Decimal.value`, `BinaryFraction.value` — both as rational numbers;
* `BinaryFraction.Covers` — the numbers that round to a binary fraction: an interval, with its ends
  where the mantissa is even;
* `BinaryFraction.nearest?_covers`, `BinaryFraction.nearest?_isSome` — a grid point that is found
  rounds to the fraction, and on a grid that is fine enough one is found;
* `BinaryFraction.shortest_covers` — seventeen digits are enough;
* `BinaryFraction.Covers.fields_eq` — no number rounds to two doubles;
* `Number.ext_of_decimal` — doubles with one sign and one decimal are equal.
-/

/-! ### Digits -/

theorem digitCount_pos (n : Nat) : 0 < digitCount n := Nat.length_toDigits_pos

theorem lt_pow_digitCount (n : Nat) : n < 10 ^ digitCount n :=
  (Nat.length_toDigits_le_iff (by decide) (digitCount_pos n)).1 (Nat.le_refl _)

theorem pow_digitCount_le {n : Nat} (hn : 0 < n) : 10 ^ (digitCount n - 1) ≤ n := by
  by_cases hone : digitCount n = 1
  · rw [hone]
    exact hn
  · have hpos := digitCount_pos n
    have hmore : ¬ (Nat.toDigits 10 n).length ≤ digitCount n - 1 := by
      show ¬ digitCount n ≤ digitCount n - 1
      omega
    rwa [Nat.length_toDigits_le_iff (by decide) (by omega), not_lt] at hmore

/-! ### Values -/

namespace Decimal

/-- The decimal as a rational number. -/
def value (d : Decimal) : ℚ := d.digits * 10 ^ d.exponent

/-- Zeros at the end of the digits stand for a greater exponent. -/
theorem value_trim (n : Nat) (d : Decimal) : (d.trim n).value = d.value := by
  induction n generalizing d with
  | zero => rfl
  | succ n ih =>
    unfold trim
    split
    next h =>
      simp only [ne_eq, Bool.and_eq_true, decide_eq_true_eq] at h
      obtain ⟨q, hq⟩ := Nat.dvd_of_mod_eq_zero h.2
      rw [ih]
      unfold value
      rw [hq, Nat.mul_div_cancel_left q (by decide), zpow_add_one₀ (by norm_num)]
      push_cast
      ring
    next => rfl

end Decimal

namespace BinaryFraction

/-- The fraction as a rational number. -/
def value (f : BinaryFraction) : ℚ := f.mantissa * 2 ^ f.exponent

/-- How many quarters of the last place the numbers reach down that round to the fraction. -/
def reach (f : BinaryFraction) : Nat := if f.narrowBelow then 1 else 2

/-- The lower end of the numbers that round to the fraction, in quarters of the last place. -/
def lowQuarters (f : BinaryFraction) : Nat := 4 * f.mantissa - f.reach

/-- Their upper end. -/
def highQuarters (f : BinaryFraction) : Nat := 4 * f.mantissa + 2

/-- A quarter of the last place. -/
def quarter (f : BinaryFraction) : ℚ := 2 ^ (f.exponent - 2)

/-- The number rounds to the fraction. -/
def Covers (f : BinaryFraction) (x : ℚ) : Prop :=
  if f.mantissa % 2 = 0 then f.lowQuarters * f.quarter ≤ x ∧ x ≤ f.highQuarters * f.quarter
  else f.lowQuarters * f.quarter < x ∧ x < f.highQuarters * f.quarter

variable {f : BinaryFraction} {tie : Tie} {k : Int} {d : Decimal}

theorem quarter_pos (f : BinaryFraction) : 0 < f.quarter := zpow_pos (by norm_num) _

theorem value_eq_quarters (f : BinaryFraction) : f.value = (4 * f.mantissa : ℕ) * f.quarter := by
  rw [value, quarter, zpow_sub₀ (by norm_num)]
  push_cast
  ring

/-! ### The grid -/

/-- A power whose exponent may be negative, as a quotient of powers. -/
theorem pow_toNat {b : ℚ} (hb : b ≠ 0) (e : Int) : b ^ e.toNat = b ^ e * b ^ (-e).toNat := by
  rw [← zpow_natCast, ← zpow_natCast, ← zpow_add₀ hb]
  congr 1
  omega

theorem scale_pos (f : BinaryFraction) (k : Int) : 0 < (f.scale k).1 ∧ 0 < (f.scale k).2 :=
  ⟨Nat.mul_pos (Nat.pow_pos (by decide)) (Nat.pow_pos (by decide)),
    Nat.mul_pos (Nat.pow_pos (by decide)) (Nat.pow_pos (by decide))⟩

/-- What the two factors of the scale are for. -/
theorem scale_eq (f : BinaryFraction) (k : Int) :
    ((f.scale k).1 : ℚ) * 10 ^ k = (f.scale k).2 * f.quarter := by
  have htwo := pow_toNat (b := 2) (by norm_num) (f.exponent - 2)
  have hten := pow_toNat (b := 10) (by norm_num) k
  have hfst : ((f.scale k).1 : ℚ) = 2 ^ (f.exponent - 2).toNat * 10 ^ (-k).toNat := by
    exact_mod_cast rfl
  have hsnd : ((f.scale k).2 : ℚ) = 2 ^ (-(f.exponent - 2)).toNat * 10 ^ k.toNat := by
    exact_mod_cast rfl
  rw [hfst, hsnd, htwo, hten, quarter]
  ring

/-- Quarters and grid points are compared after scaling. -/
theorem quarters_le_iff (x p : Nat) :
    x * (f.scale k).1 ≤ p * (f.scale k).2 ↔ (x : ℚ) * f.quarter ≤ p * 10 ^ k := by
  have hten : (0 : ℚ) < 10 ^ k := zpow_pos (by norm_num) k
  have hstep : (0 : ℚ) < (f.scale k).2 := by exact_mod_cast (f.scale_pos k).2
  have hleft : (x : ℚ) * (f.scale k).1 * 10 ^ k = x * f.quarter * (f.scale k).2 := by
    rw [mul_assoc, scale_eq]
    ring
  have hright : (p : ℚ) * (f.scale k).2 * 10 ^ k = p * 10 ^ k * (f.scale k).2 := by ring
  calc x * (f.scale k).1 ≤ p * (f.scale k).2
      ↔ (x : ℚ) * (f.scale k).1 ≤ p * (f.scale k).2 := by exact_mod_cast Iff.rfl
    _ ↔ (x : ℚ) * (f.scale k).1 * 10 ^ k ≤ p * (f.scale k).2 * 10 ^ k :=
        (mul_le_mul_iff_left₀ hten).symm
    _ ↔ (x : ℚ) * f.quarter ≤ p * 10 ^ k := by
        rw [hleft, hright, mul_le_mul_iff_left₀ hstep]

theorem le_quarters_iff (x p : Nat) :
    p * (f.scale k).2 ≤ x * (f.scale k).1 ↔ (p : ℚ) * 10 ^ k ≤ x * f.quarter := by
  have hten : (0 : ℚ) < 10 ^ k := zpow_pos (by norm_num) k
  have hstep : (0 : ℚ) < (f.scale k).2 := by exact_mod_cast (f.scale_pos k).2
  have hleft : (x : ℚ) * (f.scale k).1 * 10 ^ k = x * f.quarter * (f.scale k).2 := by
    rw [mul_assoc, scale_eq]
    ring
  have hright : (p : ℚ) * (f.scale k).2 * 10 ^ k = p * 10 ^ k * (f.scale k).2 := by ring
  calc p * (f.scale k).2 ≤ x * (f.scale k).1
      ↔ (p : ℚ) * (f.scale k).2 ≤ x * (f.scale k).1 := by exact_mod_cast Iff.rfl
    _ ↔ (p : ℚ) * (f.scale k).2 * 10 ^ k ≤ x * (f.scale k).1 * 10 ^ k :=
        (mul_le_mul_iff_left₀ hten).symm
    _ ↔ (p : ℚ) * 10 ^ k ≤ x * f.quarter := by
        rw [hleft, hright, mul_le_mul_iff_left₀ hstep]

/-- The test on scaled numbers tells whether a grid point rounds to the fraction. -/
theorem rounds_iff (p : Nat) :
    f.rounds (f.scale k).1 (p * (f.scale k).2) = true ↔ f.Covers (p * 10 ^ k) := by
  have hlow := quarters_le_iff (f := f) (k := k) f.lowQuarters p
  have hhigh := le_quarters_iff (f := f) (k := k) f.highQuarters p
  have hlow' := le_quarters_iff (f := f) (k := k) f.lowQuarters p
  have hhigh' := quarters_le_iff (f := f) (k := k) f.highQuarters p
  have heq : f.rounds (f.scale k).1 (p * (f.scale k).2) =
      if f.mantissa % 2 = 0 then
        decide (f.lowQuarters * (f.scale k).1 ≤ p * (f.scale k).2)
          && decide (p * (f.scale k).2 ≤ f.highQuarters * (f.scale k).1)
      else decide (f.lowQuarters * (f.scale k).1 < p * (f.scale k).2)
          && decide (p * (f.scale k).2 < f.highQuarters * (f.scale k).1) := rfl
  rw [heq, Covers]
  split
  · rw [Bool.and_eq_true, decide_eq_true_iff, decide_eq_true_iff, hlow, hhigh]
  · rw [Bool.and_eq_true, decide_eq_true_iff, decide_eq_true_iff, ← not_le, ← not_le, hlow',
      hhigh', not_le, not_le]

/-- A grid point that is found rounds to the fraction. -/
theorem nearest?_covers (h : f.nearest? tie k = some d) : f.Covers d.value := by
  -- Of two points that round to the fraction it does not matter which one is taken.
  have either (c : Prop) [Decidable c] {p q : Nat} (hp : f.Covers (p * 10 ^ k))
      (hq : f.Covers (q * 10 ^ k)) : f.Covers (Decimal.mk (if c then p else q) k).value := by
    split
    · exact hp
    · exact hq
  unfold nearest? at h
  dsimp only at h
  split at h
  next hbelow habove =>
    rw [← Option.some.inj h]
    exact either _ ((rounds_iff _).1 habove) ((rounds_iff _).1 hbelow)
  next hbelow habove =>
    rw [← Option.some.inj h]
    exact (rounds_iff _).1 hbelow
  next hbelow habove =>
    rw [← Option.some.inj h]
    exact (rounds_iff _).1 habove
  next => cases h

theorem reach_le (f : BinaryFraction) : f.reach ≤ 2 := by
  unfold reach
  split <;> decide

theorem lowQuarters_eq (hm : 0 < f.mantissa) :
    (f.lowQuarters : ℚ) = (4 * f.mantissa : ℕ) - f.reach := by
  have := f.reach_le
  rw [lowQuarters, Nat.cast_sub (by omega)]

/-- A grid that is finer than the numbers that round to the fraction has one of them. -/
theorem nearest?_isSome (hm : 0 < f.mantissa) (hk : (10 : ℚ) ^ k < (2 + f.reach) * f.quarter) :
    (f.nearest? tie k).isSome = true := by
  have hstep := (f.scale_pos k).2
  set value := 4 * f.mantissa * (f.scale k).1 with hvalue
  set below := value / (f.scale k).2 with hbelow
  by_contra hnone
  have hfails : ¬ f.Covers (below * 10 ^ k) ∧ ¬ f.Covers ((below + 1 : ℕ) * 10 ^ k) := by
    rw [← rounds_iff, ← rounds_iff]
    unfold nearest? at hnone
    dsimp only at hnone
    split at hnone
    next => exact absurd rfl hnone
    next => exact absurd rfl hnone
    next => exact absurd rfl hnone
    next hbelow habove => exact ⟨by rw [hbelow]; decide, by rw [habove]; decide⟩
  -- The fraction lies between two grid points, one before and one behind all that round to it.
  have hle : (below : ℚ) * 10 ^ k ≤ (4 * f.mantissa : ℕ) * f.quarter :=
    (le_quarters_iff _ _).1 (Nat.div_mul_le_self _ _)
  have hlt : (4 * f.mantissa : ℕ) * f.quarter < ((below + 1 : ℕ) : ℚ) * 10 ^ k := by
    rw [← not_le, ← le_quarters_iff, not_le]
    exact Nat.lt_mul_of_div_lt (Nat.lt_succ_self _) hstep
  have hlow : f.lowQuarters * f.quarter
      = (4 * f.mantissa : ℕ) * f.quarter - f.reach * f.quarter := by
    rw [lowQuarters_eq hm, sub_mul]
  have hhigh : f.highQuarters * f.quarter = (4 * f.mantissa : ℕ) * f.quarter + 2 * f.quarter := by
    rw [highQuarters, Nat.cast_add, add_mul, Nat.cast_ofNat]
  have hreach : 0 ≤ f.reach * f.quarter := mul_nonneg (Nat.cast_nonneg _) f.quarter_pos.le
  have hquarter := f.quarter_pos
  have habove : ((below + 1 : ℕ) : ℚ) * 10 ^ k = below * 10 ^ k + 10 ^ k := by
    push_cast
    ring
  rw [add_mul] at hk
  rw [habove] at hlt
  unfold Covers at hfails
  rw [habove, hlow, hhigh] at hfails
  obtain ⟨hfails, hfails'⟩ := hfails
  split at hfails
  next heven =>
    rw [if_pos heven] at hfails'
    have hbefore : below * 10 ^ k < (4 * f.mantissa : ℕ) * f.quarter - f.reach * f.quarter := by
      by_contra hge
      exact hfails ⟨not_lt.1 hge, by linarith⟩
    exact hfails' ⟨by linarith, by linarith⟩
  next hodd =>
    rw [if_neg hodd] at hfails'
    have hbefore : below * 10 ^ k ≤ (4 * f.mantissa : ℕ) * f.quarter - f.reach * f.quarter := by
      by_contra hgt
      exact hfails ⟨not_le.1 hgt, by linarith⟩
    exact hfails' ⟨by linarith, by linarith⟩

/-! ### Seventeen digits -/

/-- The power of ten of the first digit is not greater than the fraction. -/
theorem leadingExponent_le (hm : 0 < f.mantissa) : (10 : ℚ) ^ f.leadingExponent ≤ f.value := by
  set num := f.mantissa * 2 ^ f.exponent.toNat with hnum
  set den := 2 ^ (-f.exponent).toNat with hden
  have hnum_pos : 0 < num := Nat.mul_pos hm (Nat.pow_pos (by decide))
  have hden_pos : 0 < den := Nat.pow_pos (by decide)
  have hden_pos' : (0 : ℚ) < den := by exact_mod_cast hden_pos
  have hvalue : f.value * den = num := by
    rw [hnum, hden, value]
    push_cast
    rw [pow_toNat (by norm_num) f.exponent]
    ring
  have hleading : f.leadingExponent =
      if den ≤ num then (digitCount (num / den) : Int) - 1
      else -(digitCount ((den + num - 1) / num - 1)) := rfl
  rw [hleading, ← mul_le_mul_iff_left₀ hden_pos', hvalue]
  split
  next hle =>
    have hcount := pow_digitCount_le (Nat.div_pos hle hden_pos)
    have hexponent :
        (digitCount (num / den) : Int) - 1 = ((digitCount (num / den) - 1 : ℕ) : Int) := by
      have := digitCount_pos (num / den)
      omega
    rw [hexponent, zpow_natCast]
    have hle : 10 ^ (digitCount (num / den) - 1) * den ≤ num :=
      (Nat.mul_le_mul_right den hcount).trans (Nat.div_mul_le_self num den)
    exact_mod_cast hle
  next hlt =>
    -- The quotient the other way round, rounded up, is at most a power of ten.
    set quotient := (den + num - 1) / num with hquotient
    have hup : den ≤ quotient * num := by
      have hlt : den + num - 1 < (quotient + 1) * num :=
        Nat.lt_mul_of_div_lt (Nat.lt_succ_self quotient) hnum_pos
      have hsucc : (quotient + 1) * num = quotient * num + num := Nat.succ_mul quotient num
      omega
    have hcount : quotient ≤ 10 ^ digitCount (quotient - 1) := by
      have := lt_pow_digitCount (quotient - 1)
      omega
    have hden : (den : ℚ) ≤ 10 ^ digitCount (quotient - 1) * num := by
      exact_mod_cast hup.trans (Nat.mul_le_mul_right num hcount)
    rw [zpow_neg, zpow_natCast, inv_mul_le_iff₀ (by positivity)]
    exact hden

/-- Sixteen places behind the first one the grid is fine enough. -/
theorem shortest_covers (hm : 0 < f.mantissa) (hfine : 4 * f.mantissa < (2 + f.reach) * 10 ^ 16) :
    f.Covers (f.shortest tie).value := by
  have hlast : (f.nearest? tie (f.leadingExponent - (16 : ℕ))).isSome = true := by
    refine nearest?_isSome hm ?_
    have hfine : ((4 * f.mantissa : ℕ) : ℚ) < (2 + f.reach) * 10 ^ 16 := by exact_mod_cast hfine
    have hleading := leadingExponent_le hm
    rw [value_eq_quarters] at hleading
    rw [zpow_sub₀ (by norm_num), zpow_natCast, div_lt_iff₀ (by norm_num)]
    calc (10 : ℚ) ^ f.leadingExponent
        ≤ (4 * f.mantissa : ℕ) * f.quarter := hleading
      _ < (2 + f.reach) * 10 ^ 16 * f.quarter := by
          exact mul_lt_mul_of_pos_right hfine f.quarter_pos
      _ = (2 + f.reach) * f.quarter * 10 ^ 16 := by ring
  have hfound : ((List.range 17).findSome? fun (n : Nat) =>
      f.nearest? tie (f.leadingExponent - n)).isSome = true := by
    rw [List.isSome_findSome?]
    exact List.any_eq_true.2 ⟨16, List.mem_range.2 (by decide), hlast⟩
  obtain ⟨d, hd⟩ := Option.isSome_iff_exists.1 hfound
  have hshortest : f.shortest tie = d.trim 17 := by
    rw [shortest, hd]
    rfl
  rw [hshortest, Decimal.value_trim]
  obtain ⟨n, -, hn⟩ := List.exists_of_findSome?_eq_some hd
  exact nearest?_covers hn

/-! ### Doubles next to each other -/

/-- The size of a double with these two fields. -/
def ofFields (exponent fraction : Nat) : BinaryFraction :=
  if exponent = 0 then ⟨fraction, -1074, false⟩
  else ⟨fraction + 0x10000000000000, exponent - 1075, fraction = 0 && exponent ≠ 1⟩

theorem ofFields_exponent (E F : Nat) : (ofFields E F).exponent = (max E 1 : ℕ) - 1075 := by
  unfold ofFields
  split
  next h =>
    subst h
    rfl
  next h =>
    rw [Nat.max_eq_left (Nat.pos_of_ne_zero h)]

theorem ofFields_mantissa_lt {E F : Nat} (hF : F < 0x10000000000000) :
    (ofFields E F).mantissa < 0x20000000000000 := by
  unfold ofFields
  split
  · exact Nat.lt_trans hF (by decide)
  · show F + 0x10000000000000 < 0x20000000000000
    omega

/-- The numbers that round to a double begin far from zero, but for the smallest exponents. -/
theorem le_lowQuarters_ofFields {E F : Nat} (hE : 2 ≤ E) :
    0x3fffffffffffff ≤ (ofFields E F).lowQuarters := by
  unfold ofFields lowQuarters reach
  rw [if_neg (by omega)]
  by_cases hF : F = 0
  · have hnarrow : (decide (F = 0) && decide (E ≠ 1)) = true := by simp [hF]; omega
    rw [if_pos hnarrow]
    show 0x3fffffffffffff ≤ 4 * (F + 0x10000000000000) - 1
    omega
  · have hnarrow : ¬ (decide (F = 0) && decide (E ≠ 1)) = true := by simp [hF]
    rw [if_neg hnarrow]
    show 0x3fffffffffffff ≤ 4 * (F + 0x10000000000000) - 2
    omega

/-- Where two doubles have the same exponent, the places of the first end where those of the second
begin, or before. -/
theorem highQuarters_le_lowQuarters {E E' F F' : Nat} (hless : E < E' ∨ E = E' ∧ F < F')
    (hF : F < 0x10000000000000) (hsame : max E 1 = max E' 1) :
    (ofFields E F).highQuarters ≤ (ofFields E' F').lowQuarters
      ∧ ((ofFields E F).mantissa % 2 = 0 → (ofFields E' F').mantissa % 2 = 0 →
        (ofFields E F).highQuarters < (ofFields E' F').lowQuarters) := by
  have hnarrow : ¬ (decide (F' = 0) && decide (E' ≠ 1)) = true := by
    simp only [Bool.and_eq_true, decide_eq_true_eq, not_and, not_not]
    omega
  unfold ofFields highQuarters lowQuarters reach
  by_cases hE : E = 0
  · by_cases hE' : E' = 0
    · rw [if_pos hE, if_pos hE']
      simp only [Bool.false_eq_true, if_false]
      omega
    · rw [if_pos hE, if_neg hE', if_neg hnarrow]
      dsimp only
      omega
  · rw [if_neg hE, if_neg (by omega), if_neg hnarrow]
    dsimp only
    omega

/-- Of two doubles, the numbers that round to the smaller one end where those that round to the
greater one begin, or before. Where both include their ends, they do not meet. -/
theorem high_le_low {E E' F : Nat} (F' : Nat) (hF : F < 0x10000000000000)
    (hless : E < E' ∨ E = E' ∧ F < F') :
    (ofFields E F).highQuarters * (ofFields E F).quarter
        ≤ (ofFields E' F').lowQuarters * (ofFields E' F').quarter
      ∧ ((ofFields E F).mantissa % 2 = 0 → (ofFields E' F').mantissa % 2 = 0 →
        (ofFields E F).highQuarters * (ofFields E F).quarter
          < (ofFields E' F').lowQuarters * (ofFields E' F').quarter) := by
  have hpos := (ofFields E F).quarter_pos
  -- The places of the greater one are as wide or wider by a power of two.
  obtain ⟨j, hj⟩ : ∃ j, max E' 1 = max E 1 + j := ⟨max E' 1 - max E 1, by omega⟩
  have hquarter : (ofFields E' F').quarter = 2 ^ j * (ofFields E F).quarter := by
    rw [quarter, quarter, ofFields_exponent, ofFields_exponent, hj, ← zpow_natCast,
      ← zpow_add₀ (by norm_num)]
    congr 1
    push_cast
    ring
  suffices hnat : (ofFields E F).highQuarters ≤ (ofFields E' F').lowQuarters * 2 ^ j
      ∧ ((ofFields E F).mantissa % 2 = 0 → (ofFields E' F').mantissa % 2 = 0 →
        (ofFields E F).highQuarters < (ofFields E' F').lowQuarters * 2 ^ j) by
    obtain ⟨hle, hlt⟩ := hnat
    rw [hquarter, ← mul_assoc]
    refine ⟨mul_le_mul_of_nonneg_right (by exact_mod_cast hle) hpos.le, fun heven heven' => ?_⟩
    exact mul_lt_mul_of_pos_right (by exact_mod_cast hlt heven heven') hpos
  cases j with
  | zero =>
    rw [pow_zero, Nat.mul_one]
    exact highQuarters_le_lowQuarters hless hF hj.symm
  | succ j =>
    have hlow : 0x3fffffffffffff ≤ (ofFields E' F').lowQuarters :=
      le_lowQuarters_ofFields (by omega)
    have htwice : (ofFields E' F').lowQuarters * 2 ≤ (ofFields E' F').lowQuarters * 2 ^ (j + 1) :=
      Nat.mul_le_mul_left _ (Nat.le_self_pow (by omega) 2)
    have hmantissa := ofFields_mantissa_lt (E := E) hF
    rw [highQuarters]
    constructor
    · omega
    · omega

/-- **No number rounds to two doubles.** -/
theorem Covers.fields_eq {E E' F F' : Nat} (hF : F < 0x10000000000000)
    (hF' : F' < 0x10000000000000) {x : ℚ} (h : (ofFields E F).Covers x)
    (h' : (ofFields E' F').Covers x) : E = E' ∧ F = F' := by
  -- A number that rounds to two of them would lie at the end of one and at the beginning of the other.
  have apart {E E' F F' : Nat} (hF : F < 0x10000000000000) (h : (ofFields E F).Covers x)
      (h' : (ofFields E' F').Covers x) : ¬ (E < E' ∨ E = E' ∧ F < F') := by
    intro hless
    obtain ⟨hle, hlt⟩ := high_le_low F' hF hless
    unfold Covers at h h'
    by_cases heven : (ofFields E F).mantissa % 2 = 0
    · rw [if_pos heven] at h
      by_cases heven' : (ofFields E' F').mantissa % 2 = 0
      · rw [if_pos heven'] at h'
        linarith [hlt heven heven', h.2, h'.1]
      · rw [if_neg heven'] at h'
        linarith [h.2, h'.1]
    · rw [if_neg heven] at h
      split at h'
      · linarith [h.2, h'.1]
      · linarith [h.2, h'.1]
  have hnot := apart hF h h'
  have hnot' := apart hF' h' h
  omega

end BinaryFraction

/-! ### Doubles and their decimals -/

namespace Number

variable {n n' : Number} (tie : Tie)

theorem exponentField_eq (n : Number) : n.exponentField = n.bits.toNat / 2 ^ 52 % 2 ^ 11 := by
  unfold exponentField
  rw [UInt64.toNat_and, UInt64.toNat_shiftRight]
  exact (Nat.and_two_pow_sub_one_eq_mod _ 11).trans (by rw [Nat.shiftRight_eq_div_pow]; rfl)

theorem fractionField_eq (n : Number) : n.fractionField = n.bits.toNat % 2 ^ 52 := by
  unfold fractionField
  rw [UInt64.toNat_and]
  exact Nat.and_two_pow_sub_one_eq_mod _ 52

theorem isNegative_eq (n : Number) : n.isNegative = decide (2 ^ 63 ≤ n.bits.toNat) := by
  have hshift : (n.bits >>> 63).toNat = n.bits.toNat / 2 ^ 63 := by
    rw [UInt64.toNat_shiftRight, Nat.shiftRight_eq_div_pow]
    rfl
  unfold isNegative
  rw [decide_eq_decide, ne_eq, ← UInt64.toNat_inj, hshift]
  show ¬ n.bits.toNat / 2 ^ 63 = 0 ↔ 2 ^ 63 ≤ n.bits.toNat
  omega

/-- A number is its sign, its exponent and its fraction. -/
theorem ext_of_fields (hsign : n.isNegative = n'.isNegative)
    (hexponent : n.exponentField = n'.exponentField)
    (hfraction : n.fractionField = n'.fractionField) : n = n' := by
  rw [isNegative_eq, isNegative_eq, decide_eq_decide] at hsign
  rw [exponentField_eq, exponentField_eq] at hexponent
  rw [fractionField_eq, fractionField_eq] at hfraction
  have hlt := n.bits.toNat_lt
  have hlt' := n'.bits.toNat_lt
  have hbits : n.bits = n'.bits := UInt64.toNat_inj.1 (by omega)
  obtain ⟨bits⟩ := n
  obtain ⟨bits'⟩ := n'
  exact congrArg Number.mk hbits

theorem fractionField_lt (n : Number) : n.fractionField < 0x10000000000000 := by
  rw [fractionField_eq]
  exact Nat.mod_lt _ (by decide)

theorem magnitude_eq (n : Number) :
    n.magnitude = .ofFields n.exponentField n.fractionField := rfl

theorem mantissa_pos (hzero : n.isZero = false) : 0 < n.magnitude.mantissa := by
  rw [magnitude_eq, BinaryFraction.ofFields]
  split
  next hexponent =>
    simp only [isZero, hexponent, decide_true, Bool.true_and, decide_eq_false_iff_not] at hzero
    exact Nat.pos_of_ne_zero hzero
  next =>
    show 0 < n.fractionField + 0x10000000000000
    omega

/-- Seventeen digits are enough for every double. -/
theorem mantissa_lt_reach (n : Number) :
    4 * n.magnitude.mantissa < (2 + n.magnitude.reach) * 10 ^ 16 := by
  have hfraction := n.fractionField_lt
  rw [magnitude_eq, BinaryFraction.ofFields, BinaryFraction.reach]
  split
  · dsimp only
    omega
  · by_cases hzero : n.fractionField = 0
    · rw [hzero]
      dsimp only
      split <;> omega
    · have hwide : ¬ (decide (n.fractionField = 0) && decide (n.exponentField ≠ 1)) = true := by
        simp [hzero]
      rw [if_neg hwide]
      dsimp only
      omega

/-- The decimal of a number that is not zero rounds to it. -/
theorem decimal_covers (hzero : n.isZero = false) :
    n.magnitude.Covers (n.decimal tie).value := by
  rw [decimal, hzero]
  exact BinaryFraction.shortest_covers (mantissa_pos hzero) n.mantissa_lt_reach

theorem decimal_pos (hzero : n.isZero = false) : 0 < (n.decimal tie).value := by
  have hcovers := decimal_covers tie hzero
  have hmantissa := mantissa_pos hzero
  have hreach := n.magnitude.reach_le
  have hlow : 0 < n.magnitude.lowQuarters := by
    rw [BinaryFraction.lowQuarters]
    omega
  have hpos : 0 < n.magnitude.lowQuarters * n.magnitude.quarter :=
    mul_pos (by exact_mod_cast hlow) n.magnitude.quarter_pos
  unfold BinaryFraction.Covers at hcovers
  split at hcovers
  · exact hpos.trans_le hcovers.1
  · exact hpos.trans hcovers.1

theorem decimal_zero (hzero : n.isZero = true) : (n.decimal tie).value = 0 := by
  rw [decimal, if_pos hzero, Decimal.value]
  simp

/-- **A double can be told from its decimal**, if its sign is known. -/
theorem ext_of_decimal (hsign : n.isNegative = n'.isNegative)
    (h : (n.decimal tie).value = (n'.decimal tie).value) : n = n' := by
  cases hzero : n.isZero with
  | true =>
    cases hzero' : n'.isZero with
    | true =>
      simp only [isZero, Bool.and_eq_true, decide_eq_true_eq] at hzero hzero'
      exact ext_of_fields hsign (hzero.1.trans hzero'.1.symm) (hzero.2.trans hzero'.2.symm)
    | false =>
      rw [decimal_zero tie hzero] at h
      exact absurd h (decimal_pos tie hzero').ne
  | false =>
    cases hzero' : n'.isZero with
    | true =>
      rw [decimal_zero tie hzero'] at h
      exact absurd h (decimal_pos tie hzero).ne'
    | false =>
      have hcovers := decimal_covers tie hzero
      have hcovers' := decimal_covers tie hzero'
      rw [h, magnitude_eq] at hcovers
      rw [magnitude_eq] at hcovers'
      obtain ⟨hexponent, hfraction⟩ := hcovers.fields_eq n.fractionField_lt n'.fractionField_lt
        hcovers'
      exact ext_of_fields hsign hexponent hfraction

end Number

end EcmaScript

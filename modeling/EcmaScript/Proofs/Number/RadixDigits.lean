import EcmaScript.Number.Literal
import EcmaScript.Proofs.Number.Nearest

namespace EcmaScript

/-!
# The value of digits in a base

Digits in base 2, 8 or 16 are taken in one after the other, and each step rounds to a double. So a
number is rounded as soon as it has 54 bits, and the digits behind are lost.

* `radixValue`, `keptValue` — the value of digits, and this value without the digits that are lost;
* `roundNat_step` — one step;
* `accumulate?_isNat` — all of them: the double is what the kept value is rounded to;
* `isNearest_iff` — it is nearest to the value unless digits are lost right behind the middle
  between two doubles;
* `Number.ofLiteral?_nearest` — so for every literal.
-/

/-! ### Rounding and multiples of powers of two -/

theorem roundNat_mul_two_pow {v : Nat} (h : 0x10000000000000 ≤ v) (b : Nat) :
    roundNat (v * 2 ^ b) = roundNat v * 2 ^ b := by
  have hlog : 52 ≤ v.log2 := (Nat.le_log2 (by omega)).2 h
  have hexcess : excess (v * 2 ^ b) = excess v + b := by
    unfold excess
    rw [log2_mul_two_pow (by omega)]
    omega
  rw [roundNat, hexcess, nearestQuotient_mul, Nat.pow_add, ← Nat.mul_assoc]
  rfl

/-- A number that is not rounded is not rounded as a multiple of a power of two either. -/
theorem roundNat_mul_of_eq {v : Nat} (h : roundNat v = v) (b : Nat) :
    roundNat (v * 2 ^ b) = v * 2 ^ b := by
  by_cases hsmall : v < 0x10000000000000
  · rcases Nat.eq_zero_or_pos v with rfl | hpos
    · rw [Nat.zero_mul]
      exact h
    have hlog : v.log2 < 52 := (Nat.log2_lt (by omega)).2 hsmall
    obtain ⟨c, hc⟩ : ∃ c, b = c + excess (v * 2 ^ b) := by
      refine ⟨b - excess (v * 2 ^ b), ?_⟩
      unfold excess
      rw [log2_mul_two_pow hpos]
      omega
    have hquotient := nearestQuotient_mul (v * 2 ^ c) 0 (excess (v * 2 ^ b))
    rw [Nat.mul_assoc, ← Nat.pow_add, ← hc, Nat.zero_add, nearestQuotient_zero] at hquotient
    rw [roundNat, hquotient, Nat.mul_assoc, ← Nat.pow_add, ← hc]
  · rw [roundNat_mul_two_pow (not_lt.1 hsmall), h]

/-- The bits of a number behind its first 53 ones. -/
theorem excess_add {q k r : Nat} (low : 0x10000000000000 ≤ q) (high : q < 0x20000000000000)
    (hr : r < 2 ^ k) : excess (q * 2 ^ k + r) = k := by
  have hnext : (q + 1) * 2 ^ k ≤ 0x20000000000000 * 2 ^ k := Nat.mul_le_mul_right _ high
  have hfirst : 0x10000000000000 * 2 ^ k ≤ q * 2 ^ k := Nat.mul_le_mul_right _ low
  have hlog : (q * 2 ^ k + r).log2 = 52 + k := by
    refine (Nat.log2_eq_iff (by omega)).2 ⟨?_, ?_⟩
    · rw [Nat.pow_add]
      omega
    · rw [Nat.add_right_comm, Nat.pow_add]
      rw [Nat.succ_mul] at hnext
      omega
  unfold excess
  omega

/-- Rounding by the first 53 bits and the rest. -/
theorem roundNat_add {q k r : Nat} (low : 0x10000000000000 ≤ q) (high : q < 0x20000000000000)
    (hr : r < 2 ^ k) :
    roundNat (q * 2 ^ k + r) =
      (if 2 * r < 2 ^ k then q else if 2 * r = 2 ^ k then q + q % 2 else q + 1) * 2 ^ k := by
  have hdiv : (q * 2 ^ k + r) / 2 ^ k = q := by
    rw [Nat.add_comm, Nat.add_mul_div_right _ _ (Nat.two_pow_pos k), Nat.div_eq_of_lt hr,
      Nat.zero_add]
  have hmod : (q * 2 ^ k + r) % 2 ^ k = r := by
    rw [Nat.mul_add_mod_self_right, Nat.mod_eq_of_lt hr]
  rw [roundNat, excess_add low high hr, nearestQuotient, hdiv, hmod]

/-- The first 53 bits of a rounded number. -/
theorem roundNat_eq_mul {v : Nat} (h : 0x20000000000000 ≤ v) :
    ∃ q k, 0 < k ∧ 0x10000000000000 ≤ q ∧ q < 0x20000000000000 ∧ roundNat v = q * 2 ^ k := by
  obtain ⟨-, hpos, hlow, hhigh⟩ := quotient_mem h
  have hquotient := nearestQuotient_mem v (excess v)
  by_cases hcarry : nearestQuotient v (excess v) < 0x20000000000000
  · exact ⟨_, _, hpos, by omega, hcarry, rfl⟩
  · refine ⟨0x10000000000000, excess v + 1, by omega, by decide, by decide, ?_⟩
    rw [roundNat, show nearestQuotient v (excess v) = 0x20000000000000 by omega, Nat.pow_succ]
    omega

theorem roundNat_le (v : Nat) : roundNat v ≤ 2 * v := by
  by_cases hsmall : v < 0x20000000000000
  · rw [roundNat_of_lt hsmall]
    omega
  · obtain ⟨-, -, hlow, -⟩ := quotient_mem (not_lt.1 hsmall)
    have hquotient := nearestQuotient_mem v (excess v)
    calc roundNat v ≤ 2 * (v / 2 ^ excess v) * 2 ^ excess v := Nat.mul_le_mul_right _ (by omega)
      _ ≤ 2 * v := by
        rw [Nat.mul_assoc]
        exact Nat.mul_le_mul_left _ (Nat.div_mul_le_self _ _)

/-! ### Digits -/

/-- The value of digits in a base. -/
def radixValue (base : Nat) (digits : List Nat) : Nat := digits.foldl (· * base + ·) 0

/-- Takes in a digit as long as there are no more than 53 bits, and a zero behind them. -/
def keepDigit (base v d : Nat) : Nat :=
  if v < 0x20000000000000 then v * base + d else v * base

/-- The value of digits where the ones behind 53 bits count as zeros. -/
def keptValue (base : Nat) (digits : List Nat) : Nat := digits.foldl (keepDigit base) 0

theorem radixValue_eq_ofDigits (base : Nat) (digits : List Nat) :
    radixValue base digits = Nat.ofDigits base digits.reverse := by
  rw [Nat.ofDigits_eq_foldr, List.foldr_reverse, radixValue]
  congr 1
  funext v d
  simp [Nat.mul_comm, Nat.add_comm]

theorem keepDigit_le (base v d : Nat) : keepDigit base v d ≤ v * base + d := by
  unfold keepDigit
  split
  · exact Nat.le_refl _
  · exact Nat.le_add_right _ _

/-- **One step.** Behind 53 bits a digit is less than half a place, and so is lost. -/
theorem roundNat_step {b d : Nat} (v : Nat) (hd : d < 2 ^ b) :
    roundNat (roundNat v * 2 ^ b + d) = roundNat (keepDigit (2 ^ b) v d) := by
  unfold keepDigit
  split
  next hsmall => rw [roundNat_of_lt hsmall]
  next hgreat =>
    obtain ⟨q, k, hk, hlow, hhigh, hround⟩ := roundNat_eq_mul (not_lt.1 hgreat)
    -- The rounded value is even at least, so that the digit is less than half of its last place.
    have hhalf : 2 * d < 2 ^ (k + b) := by
      obtain ⟨k, rfl⟩ : ∃ k', k = k' + 1 := ⟨k - 1, by omega⟩
      have hpow : 2 ^ b ≤ 2 ^ (k + b) := Nat.pow_le_pow_right (by decide) (by omega)
      rw [Nat.add_right_comm, Nat.pow_succ]
      omega
    rw [roundNat_mul_two_pow (by omega), hround, Nat.mul_assoc, ← Nat.pow_add,
      roundNat_add hlow hhigh (by omega), if_pos hhalf]

theorem le_foldl {base v w : Nat} (hbase : 0 < base) (digits : List Nat) (h : v ≤ w) :
    v ≤ digits.foldl (· * base + ·) w := by
  induction digits generalizing w with
  | nil => exact h
  | cons d digits ih =>
    refine ih (h.trans ?_)
    exact (Nat.le_mul_of_pos_right w hbase).trans (Nat.le_add_right _ _)

theorem foldl_le_foldl {base v w : Nat} (digits : List Nat) (h : v ≤ w) :
    digits.foldl (· * base + ·) v ≤ digits.foldl (· * base + ·) w := by
  induction digits generalizing v w with
  | nil => exact h
  | cons d digits ih => exact ih (Nat.add_le_add_right (Nat.mul_le_mul_right base h) d)

theorem digitValue?_lt {base d : Nat} {c : Char} (h : CharSet.digitValue? base c = some d) :
    d < base := by
  unfold CharSet.digitValue? at h
  simpa using (Option.filter_eq_some_iff.1 h).2

theorem mapM_digitValue?_cons {base : Nat} {c : Char} {cs : List Char} {digits : List Nat}
    (h : (c :: cs).mapM (CharSet.digitValue? base) = some digits) :
    ∃ d ds, CharSet.digitValue? base c = some d ∧
      cs.mapM (CharSet.digitValue? base) = some ds ∧ digits = d :: ds := by
  rw [List.mapM_cons] at h
  obtain ⟨d, hd, hrest⟩ := Option.bind_eq_some_iff.1 h
  obtain ⟨ds, hds, hcons⟩ := Option.bind_eq_some_iff.1 hrest
  exact ⟨d, ds, hd, hds, (Option.some.inj hcons).symm⟩

/-- **All steps.** The double is what the value is rounded to where the digits that are lost count
as zeros. -/
theorem accumulate?_isNat {b v : Nat} (hb : b ≤ 4) {cs : List Char}
    {digits : List Nat} (hdigits : cs.mapM (CharSet.digitValue? (2 ^ b)) = some digits) {x : Float}
    (hx : IsNat x (roundNat v)) (hlt : 2 * digits.foldl (· * 2 ^ b + ·) v < doubleLimit) :
    ∃ y, Number.accumulate? (2 ^ b) x cs = some y ∧
      IsNat y (roundNat (digits.foldl (keepDigit (2 ^ b)) v)) := by
  induction cs generalizing v x digits with
  | nil =>
    rw [List.mapM_nil] at hdigits
    cases hdigits
    exact ⟨x, rfl, hx⟩
  | cons c cs ih =>
    obtain ⟨d, ds, hd, hds, rfl⟩ := mapM_digitValue?_cons hdigits
    unfold Number.accumulate?
    rw [hd]
    have hdigit := digitValue?_lt hd
    have hbase : 2 ^ b < 0x20000000000000 := by
      calc 2 ^ b ≤ 2 ^ 4 := Nat.pow_le_pow_right (by decide) hb
        _ < 0x20000000000000 := by decide
    rw [List.foldl_cons] at hlt
    have hbound := le_foldl (Nat.two_pow_pos b) ds (Nat.le_refl (v * 2 ^ b + d))
    have hkept := keepDigit_le (2 ^ b) v d
    -- The product is exact, and only the sum is rounded.
    have hproduct : IsNat (x * Float.ofNat (2 ^ b)) (roundNat v * 2 ^ b) := by
      have hround := roundNat_mul_of_eq hx.roundNat_eq b
      have hmul := hx.mul (IsNat.ofNat hbase) (by
        rw [hround]
        have := Nat.mul_le_mul_right (2 ^ b) (roundNat_le v)
        rw [Nat.mul_assoc] at this
        omega)
      rwa [hround] at hmul
    have hsum : IsNat (x * Float.ofNat (2 ^ b) + Float.ofNat d)
        (roundNat (keepDigit (2 ^ b) v d)) := by
      rw [← roundNat_step v hdigit]
      refine hproduct.add (IsNat.ofNat (by omega)) ?_
      rw [roundNat_step v hdigit]
      have := roundNat_le (keepDigit (2 ^ b) v d)
      omega
    exact ih hds hsum ((Nat.mul_le_mul_left 2 (foldl_le_foldl ds hkept)).trans_lt hlt)

/-! ### Lost digits -/

/-- What is left of `w` when `v` is kept: nothing, or less than the last bit of `v` that is set,
which has 53 bits or more before it. -/
def IsKept (v w : Nat) : Prop :=
  v = w ∨ ∃ front places rest, v = front * 2 ^ places ∧ w = v + rest ∧
    0x20000000000000 ≤ front ∧ 0 < rest ∧ rest < 2 ^ places

theorem IsKept.step {v w b d : Nat} (h : IsKept v w) (hd : d < 2 ^ b) :
    IsKept (keepDigit (2 ^ b) v d) (w * 2 ^ b + d) := by
  unfold keepDigit
  rcases h with rfl | ⟨front, places, rest, hv, hw, hfront, hrest, hlt⟩
  · split
    next => exact .inl rfl
    next hgreat =>
      rcases Nat.eq_zero_or_pos d with rfl | hpos
      · exact .inl rfl
      · exact .inr ⟨v, b, d, rfl, rfl, not_lt.1 hgreat, hpos, hd⟩
  · have hgreat : ¬ v < 0x20000000000000 := by
      rw [not_lt, hv]
      exact hfront.trans (Nat.le_mul_of_pos_right front (Nat.two_pow_pos places))
    rw [if_neg hgreat]
    refine .inr ⟨front, places + b, rest * 2 ^ b + d, ?_, ?_, hfront, ?_, ?_⟩
    · rw [hv, Nat.mul_assoc, ← Nat.pow_add]
    · rw [hw, Nat.add_mul, Nat.add_assoc]
    · have := Nat.mul_pos hrest (Nat.two_pow_pos b)
      omega
    · have := Nat.mul_le_mul_right (2 ^ b) (Nat.succ_le_of_lt hlt)
      rw [Nat.succ_mul] at this
      rw [Nat.pow_add]
      omega

theorem isKept_foldl {b : Nat} {digits : List Nat} (hdigits : ∀ d ∈ digits, d < 2 ^ b) {v w : Nat}
    (h : IsKept v w) :
    IsKept (digits.foldl (keepDigit (2 ^ b)) v) (digits.foldl (· * 2 ^ b + ·) w) := by
  induction digits generalizing v w with
  | nil => exact h
  | cons d digits ih =>
    rw [List.forall_mem_cons] at hdigits
    exact ih hdigits.2 (h.step hdigits.1)

/-- The number lies in the middle between two doubles, and the lower one of them is even. -/
def IsMiddle (v : Nat) : Prop :=
  ∃ q k, v = (2 * q + 1) * 2 ^ k ∧ 0x10000000000000 ≤ q ∧ q < 0x20000000000000 ∧ q % 2 = 0

theorem isMiddle_iff {q k r : Nat} (hk : 0 < k) (low : 0x10000000000000 ≤ q)
    (high : q < 0x20000000000000) (hr : r < 2 ^ k) :
    IsMiddle (q * 2 ^ k + r) ↔ 2 * r = 2 ^ k ∧ q % 2 = 0 := by
  constructor
  · rintro ⟨q', k', hv, low', high', heven⟩
    have hpow : 2 ^ (k' + 1) = 2 * 2 ^ k' := by rw [Nat.pow_succ, Nat.mul_comm]
    have hhalf : (2 * q' + 1) * 2 ^ k' = q' * 2 ^ (k' + 1) + 2 ^ k' := by
      rw [hpow]
      ring
    have hlt : 2 ^ k' < 2 ^ (k' + 1) := Nat.pow_lt_pow_right (by decide) (Nat.lt_succ_self k')
    -- The first 53 bits and the rest are the same.
    have hexcess := excess_add low high hr
    rw [hv, hhalf, excess_add low' high' hlt] at hexcess
    subst hexcess
    have hdivision : q * 2 ^ (k' + 1) + r = q' * 2 ^ (k' + 1) + 2 ^ k' := hv.trans hhalf
    have hquotient := congrArg (· / 2 ^ (k' + 1)) hdivision
    have hpos := Nat.two_pow_pos (k' + 1)
    simp only [Nat.mul_add_div hpos, Nat.mul_comm _ (2 ^ (k' + 1)), Nat.div_eq_of_lt hr,
      Nat.div_eq_of_lt hlt, Nat.add_zero] at hquotient
    subst hquotient
    exact ⟨by omega, heven⟩
  · rintro ⟨hmiddle, heven⟩
    obtain ⟨k, rfl⟩ : ∃ k', k = k' + 1 := ⟨k - 1, by omega⟩
    refine ⟨q, k, ?_, low, high, heven⟩
    rw [Nat.pow_succ] at hmiddle
    rw [show r = 2 ^ k by omega, Nat.pow_succ]
    ring

theorem exponent_le {q k : Nat} (low : 0x10000000000000 ≤ q) (h : 2 * (q * 2 ^ k) < doubleLimit) :
    k ≤ 971 := by
  by_contra hgt
  have hpow : 2 ^ 972 ≤ 2 ^ k := pow_le_pow_right₀ (by decide) (by omega)
  have hbig : 2 ^ 52 * 2 ^ 972 ≤ q * 2 ^ k := Nat.mul_le_mul low hpow
  rw [← pow_add] at hbig
  unfold doubleLimit at h
  omega

/-- The bits that are kept are a multiple of a power of two that is greater than what is left. So
what is left does not reach the next place, nor half a place where the bits do not. -/
theorem mod_add_lt {v front places rest : Nat} (hv : v = front * 2 ^ places)
    (hfront : 0x20000000000000 ≤ front) (hlt : rest < 2 ^ places) :
    v % 2 ^ excess v + rest < 2 ^ excess v
      ∧ (2 * (v % 2 ^ excess v) < 2 ^ excess v →
        2 * (v % 2 ^ excess v + rest) < 2 ^ excess v) := by
  have hpos := Nat.two_pow_pos places
  have hgreat : 2 ^ 53 * 2 ^ places ≤ v := by
    rw [hv]
    exact Nat.mul_le_mul_right _ hfront
  obtain ⟨c, hc⟩ : ∃ c, excess v = c + 1 + places := by
    have hlog : 53 + places ≤ v.log2 := by
      rwa [Nat.le_log2 (by omega), Nat.pow_add]
    exact ⟨excess v - 1 - places, by unfold excess; omega⟩
  have hpow : 2 ^ excess v = 2 * 2 ^ c * 2 ^ places := by
    rw [hc, Nat.pow_add, Nat.pow_succ, Nat.mul_comm (2 ^ c)]
  have hmod : v % 2 ^ excess v = front % (2 * 2 ^ c) * 2 ^ places := by
    rw [hpow, hv, Nat.mul_mod_mul_right]
  have hposc := Nat.two_pow_pos c
  -- The bits behind the first 53 ones, over the power, are less than a place or half of one.
  have hnext {bound : Nat} (h : front % (2 * 2 ^ c) < bound) :
      front % (2 * 2 ^ c) * 2 ^ places + rest < bound * 2 ^ places := by
    have hsucc := Nat.mul_le_mul_right (2 ^ places) (Nat.succ_le_of_lt h)
    rw [Nat.succ_mul] at hsucc
    omega
  rw [hmod, hpow]
  refine ⟨hnext (Nat.mod_lt _ (by omega)), fun hhalf => ?_⟩
  rw [Nat.mul_assoc 2] at hhalf ⊢
  have hless := Nat.lt_of_mul_lt_mul_right (Nat.lt_of_mul_lt_mul_left hhalf)
  have := hnext hless
  omega

open Number in
/-- **When digits are lost that matter.** The rest is less than half a place, but for a number in
the middle it decides. -/
theorem isNearest_iff {n : Number} {v w : Nat} (hn : HoldsNat n.unpacked (roundNat v))
    (h : IsKept v w) (hlt : 2 * w < doubleLimit) :
    n.IsNearest w ↔ v = w ∨ ¬ IsMiddle v := by
  rcases h with rfl | ⟨front, places, rest, hv, hw, hfront, hrest, hplaces⟩
  · exact iff_of_true (isNearest_roundNat hn) (.inl rfl)
  have hgreat : 0x20000000000000 ≤ v := by
    rw [hv]
    exact hfront.trans (Nat.le_mul_of_pos_right front (Nat.two_pow_pos places))
  obtain ⟨-, hk, low, high⟩ := quotient_mem hgreat
  obtain ⟨hsum, hbelow⟩ := mod_add_lt hv hfront hplaces
  have hdivision := Nat.div_add_mod' v (2 ^ excess v)
  have hr := Nat.mod_lt v (Nat.two_pow_pos (excess v))
  have hmiddle := isMiddle_iff hk low high hr
  have hroundv := roundNat_add low high hr
  have hroundw := roundNat_add low high hsum
  rw [hdivision] at hmiddle hroundv
  rw [← Nat.add_assoc, hdivision, ← hw] at hroundw
  rw [or_iff_right (by omega : v ≠ w), hmiddle]
  set k := excess v
  set q := v / 2 ^ k
  set r := v % 2 ^ k
  rcases lt_trichotomy (2 * r) (2 ^ k) with hless | hhalf | hmore
  · rw [if_pos hless] at hroundv
    rw [if_pos (hbelow hless)] at hroundw
    refine iff_of_true (isNearest_roundNat ?_) (by omega)
    rwa [hroundw, ← hroundv]
  · rw [if_neg (by omega), if_pos hhalf] at hroundv
    rw [if_neg (by omega), if_neg (by omega)] at hroundw
    by_cases heven : q % 2 = 0
    · -- The double is the lower one, and the rest lies beyond the middle.
      refine iff_of_false ?_ (not_not.2 ⟨hhalf, heven⟩)
      obtain ⟨-, -, hvalue⟩ := value_of_holdsNat hn
      rw [hroundv, heven, Nat.add_zero] at hvalue
      refine not_isNearest_of_lt low (by omega) (exponent_le low (by omega)) hvalue ?_ ?_
      · rw [Nat.succ_mul, Nat.mul_assoc]
        omega
      · rw [Nat.succ_mul]
        omega
    · refine iff_of_true (isNearest_roundNat ?_) (fun hboth => heven hboth.2)
      rwa [hroundw, show q + 1 = q + q % 2 by omega, ← hroundv]
  · rw [if_neg (by omega), if_neg (by omega)] at hroundv hroundw
    refine iff_of_true (isNearest_roundNat ?_) (by omega)
    rwa [hroundw, ← hroundv]

/-! ### Literals -/

/-- The marks of bases, and the exponents of the bases. -/
def radixMarks : List (Char × Nat) :=
  [('b', 1), ('B', 1), ('o', 3), ('O', 3), ('x', 4), ('X', 4)]

/-- A literal in a base, and its digits: behind the mark of the base, or those of an old octal. -/
inductive RadixLiteral : String → Nat → List Nat → Prop
  | marked {mark : Char} {b : Nat} (hmark : (mark, b) ∈ radixMarks) {cs : List Char}
      {digits : List Nat} (hsome : cs ≠ [])
      (hdigits : cs.mapM (CharSet.digitValue? (2 ^ b)) = some digits) :
      RadixLiteral (String.ofList ('0' :: mark :: cs)) (2 ^ b) digits
  | oldOctal {cs : List Char} {digits : List Nat} (hold : Number.isOldOctal cs = true)
      (hdigits : cs.mapM (CharSet.digitValue? 8) = some digits) :
      RadixLiteral (String.ofList cs) 8 digits

theorem pow_of_mem_radixMarks {mark : Char} {b : Nat} (h : (mark, b) ∈ radixMarks) : b ≤ 4 := by
  simp only [radixMarks, List.mem_cons, Prod.mk.injEq, List.not_mem_nil, or_false] at h
  omega

theorem ofLiteral?_marked {mark : Char} {b : Nat} (h : (mark, b) ∈ radixMarks) (cs : List Char) :
    Number.ofLiteral? (String.ofList ('0' :: mark :: cs)) = Number.ofRadixDigits? (2 ^ b) cs := by
  unfold Number.ofLiteral?
  rw [String.toList_ofList]
  simp only [radixMarks, List.mem_cons, Prod.mk.injEq, List.not_mem_nil, or_false] at h
  rcases h with ⟨rfl, rfl⟩ | ⟨rfl, rfl⟩ | ⟨rfl, rfl⟩ | ⟨rfl, rfl⟩ | ⟨rfl, rfl⟩ | ⟨rfl, rfl⟩ <;> rfl

theorem ofLiteral?_oldOctal {cs : List Char} (h : Number.isOldOctal cs = true) :
    Number.ofLiteral? (String.ofList cs) = Number.ofRadixDigits? 8 cs := by
  have hoctal : ∀ c ∈ cs, CharSet.octalDigit.has c = true := by
    simp only [Number.isOldOctal, Bool.and_eq_true, List.all_eq_true] at h
    exact h.2
  unfold Number.ofLiteral?
  rw [String.toList_ofList]
  split
  case h_7 => rw [if_pos h]
  -- No mark of a base is an octal digit.
  all_goals exact absurd (hoctal _ (List.mem_cons_of_mem _ List.mem_cons_self)) (by decide)

/-- The digits of a literal, and how it is read. -/
theorem RadixLiteral.spec {raw : String} {base : Nat} {digits : List Nat}
    (h : RadixLiteral raw base digits) :
    ∃ b cs, b ≤ 4 ∧ base = 2 ^ b ∧ cs ≠ [] ∧
      cs.mapM (CharSet.digitValue? base) = some digits ∧
      Number.ofLiteral? raw = Number.ofRadixDigits? base cs := by
  cases h with
  | @marked mark b hmark cs digits hsome hdigits =>
    exact ⟨b, cs, pow_of_mem_radixMarks hmark, rfl, hsome, hdigits, ofLiteral?_marked hmark cs⟩
  | @oldOctal cs digits hold hdigits =>
    refine ⟨3, cs, by decide, rfl, ?_, hdigits, ofLiteral?_oldOctal hold⟩
    rintro rfl
    cases hold

theorem forall_mem_lt {base : Nat} {cs : List Char} {digits : List Nat}
    (h : cs.mapM (CharSet.digitValue? base) = some digits) : ∀ d ∈ digits, d < base := by
  induction cs generalizing digits with
  | nil =>
    rw [List.mapM_nil] at h
    cases h
    exact nofun
  | cons c cs ih =>
    obtain ⟨d, ds, hd, hds, rfl⟩ := mapM_digitValue?_cons h
    exact List.forall_mem_cons.2 ⟨digitValue?_lt hd, ih hds⟩

/-- **What a literal in base 2, 8 or 16 stands for.** It has a value, with the digits behind 53 bits
taken for zeros. This is the double nearest to the literal, unless a digit is lost that is not zero
and the others stand in the middle between two doubles. -/
theorem Number.ofLiteral?_nearest {raw : String} {base : Nat} {digits : List Nat}
    (h : RadixLiteral raw base digits) (hlt : radixValue base digits < 2 ^ 1023) :
    ∃ n, Number.ofLiteral? raw = some n ∧ n.isNegative = false ∧
      n.IsNearest (keptValue base digits) ∧
      (n.IsNearest (radixValue base digits) ↔
        keptValue base digits = radixValue base digits ∨ ¬ IsMiddle (keptValue base digits)) := by
  obtain ⟨b, cs, hb, rfl, hsome, hdigits, hread⟩ := h.spec
  have hlimit : 2 * radixValue (2 ^ b) digits < doubleLimit := by
    unfold doubleLimit
    omega
  have hzero : IsNat 0 (roundNat 0) := IsNat.ofNat (by decide)
  obtain ⟨x, hx, hholds⟩ := accumulate?_isNat hb hdigits hzero hlimit
  have hn : HoldsNat (ofFloat x).unpacked (roundNat (keptValue (2 ^ b) digits)) := by
    rw [unpacked_ofFloat]
    exact hholds
  have hkept : IsKept (keptValue (2 ^ b) digits) (radixValue (2 ^ b) digits) :=
    isKept_foldl (forall_mem_lt hdigits) (.inl rfl)
  refine ⟨ofFloat x, ?_, (value_of_holdsNat hn).2.1, isNearest_roundNat hn,
    isNearest_iff hn hkept hlimit⟩
  rw [hread, ofRadixDigits?, List.isEmpty_eq_false_iff.2 hsome, hx]
  rfl

/-- The last digit of `0x200000000000011` is lost, and the others stand in the middle. -/
theorem Number.ofLiteral?_lost_digit :
    ∃ n, Number.ofLiteral? "0x200000000000011" = some n
      ∧ ¬ n.IsNearest (0x200000000000011 : ℕ) := by
  have hliteral : RadixLiteral "0x200000000000011" (2 ^ 4)
      [2, 0, 0, 0, 0, 0, 0, 0, 0, 0, 0, 0, 0, 1, 1] :=
    @RadixLiteral.marked 'x' 4 (by decide)
      ['2', '0', '0', '0', '0', '0', '0', '0', '0', '0', '0', '0', '0', '1', '1'] _ (by decide)
      (by decide)
  have hlt : radixValue (2 ^ 4) [2, 0, 0, 0, 0, 0, 0, 0, 0, 0, 0, 0, 0, 1, 1] < 2 ^ 64 := by
    decide
  have hpow : 2 ^ 64 ≤ 2 ^ 1023 := pow_le_pow_right₀ (by decide) (by decide)
  obtain ⟨n, hn, -, -, hiff⟩ := Number.ofLiteral?_nearest hliteral (hlt.trans_le hpow)
  refine ⟨n, hn, fun hnearest => ?_⟩
  rcases hiff.1 hnearest with hkept | hmiddle
  · exact absurd hkept (by decide)
  · exact hmiddle ⟨0x10000000000000, 4, by decide, by decide, by decide, by decide⟩

end EcmaScript

import EcmaScript.Proofs.Number.Doubles

namespace EcmaScript

/-!
# Arithmetic of doubles on natural numbers

Sums and products of doubles that are natural numbers, as long as they do not overflow: the exact
result is rounded to 53 bits.

* `nearestQuotient`, `roundNat` — rounding to a multiple of a power of two, and to 53 bits;
* `HoldsNat` — a double in parts is a natural number;
* `roundWithAccuracy_holdsNat`, `round_holdsNat` — rounding a mantissa with an exponent;
* `IsNat.add`, `IsNat.mul`, `IsNat.ofNat` — sums and products of doubles, and small numbers.
-/

open Float.Model Float.Model.UnpackedFloat

/-! ### Rounding to a multiple of a power of two -/

/-- The multiple of `2 ^ k` nearest to `v`, over `2 ^ k`; of two the even one. -/
def nearestQuotient (v k : Nat) : Nat :=
  if 2 * (v % 2 ^ k) < 2 ^ k then v / 2 ^ k
  else if 2 * (v % 2 ^ k) = 2 ^ k then v / 2 ^ k + v / 2 ^ k % 2
  else v / 2 ^ k + 1

/-- How many bits a number has beyond the 53 ones that a double keeps. -/
def excess (v : Nat) : Nat := v.log2 - 52

/-- The number rounded to 53 bits, to the nearest and then to the even one. -/
def roundNat (v : Nat) : Nat := nearestQuotient v (excess v) * 2 ^ excess v

theorem nearestQuotient_zero (v : Nat) : nearestQuotient v 0 = v := by
  simp [nearestQuotient, Nat.mod_one]

theorem nearestQuotient_mul (v k a : Nat) :
    nearestQuotient (v * 2 ^ a) (k + a) = nearestQuotient v k := by
  have hpos := Nat.two_pow_pos a
  unfold nearestQuotient
  simp only [Nat.pow_add, Nat.mul_mod_mul_right, Nat.mul_div_mul_right _ _ hpos, ← Nat.mul_assoc,
    Nat.mul_lt_mul_right hpos, Nat.mul_right_cancel_iff hpos]

theorem nearestQuotient_mem (v k : Nat) :
    nearestQuotient v k = v / 2 ^ k ∨ nearestQuotient v k = v / 2 ^ k + 1 := by
  unfold nearestQuotient
  split
  · exact .inl rfl
  · split
    · omega
    · exact .inr rfl

/-- The steps of a shift to the right: what has been dropped shows in the two last bits. -/
structure Shifted (em : ExtendedMantissa) (v k : Nat) : Prop where
  mantissa : em.mantissa = v / 2 ^ k
  round : em.roundBit = true ↔ 2 ^ k ≤ 2 * (v % 2 ^ k)
  sticky : em.stickyBit = true ↔ v % 2 ^ k ≠ 0 ∧ 2 * (v % 2 ^ k) ≠ 2 ^ k

theorem Shifted.step {em : ExtendedMantissa} {v k : Nat} (h : Shifted em v k) :
    Shifted em.shiftRightOne v (k + 1) := by
  have hpos := Nat.two_pow_pos k
  have hlt := Nat.mod_lt v hpos
  have hmod : v % 2 ^ (k + 1) = v % 2 ^ k + 2 ^ k * (v / 2 ^ k % 2) := by
    rw [Nat.pow_succ, Nat.mod_mul]
  have hbit : v / 2 ^ k % 2 = 0 ∨ v / 2 ^ k % 2 = 1 := by omega
  refine ⟨?_, ?_, ?_⟩
  · show em.mantissa / 2 = _
    rw [h.mantissa, Nat.div_div_eq_div_mul, Nat.pow_succ]
  · show (em.mantissa % 2 != 0) = true ↔ _
    rw [h.mantissa, hmod, Nat.pow_succ, bne_iff_ne]
    rcases hbit with hbit | hbit <;> rw [hbit] <;> omega
  · show (em.roundBit || em.stickyBit) = true ↔ _
    rw [Bool.or_eq_true, h.round, h.sticky, hmod, Nat.pow_succ]
    rcases hbit with hbit | hbit <;> rw [hbit] <;> omega

theorem shifted_shiftRight (v k : Nat) :
    Shifted (ExtendedMantissa.ofMantissaAndAccuracy v .exact >>> k) v k := by
  induction k with
  | zero =>
    have hstart : ExtendedMantissa.ofMantissaAndAccuracy v .exact >>> 0 = ⟨v, false, false⟩ := rfl
    rw [hstart]
    constructor <;> simp [Nat.mod_one]
  | succ k ih => exact ih.step

theorem Shifted.roundedMantissa {em : ExtendedMantissa} {v k : Nat} (h : Shifted em v k) :
    em.roundedMantissa = nearestQuotient v k := by
  obtain ⟨m, r, s⟩ := em
  obtain ⟨hm, hr, hs⟩ := h
  dsimp only at hm hr hs
  subst hm
  have hpos := Nat.two_pow_pos k
  unfold nearestQuotient
  cases r <;> cases s <;>
    simp only [ExtendedMantissa.roundedMantissa, ExtendedMantissa.accuracy,
      Accuracy.roundToNearestEven, Bool.false_eq_true, false_iff, true_iff] at hr hs ⊢
  · rw [if_pos (by omega)]
  · rw [if_pos (by omega)]
  · rw [if_neg (by omega), if_pos (by omega)]
  · rw [if_neg (by omega), if_neg (by omega)]

/-! ### Rounding a mantissa with an exponent -/

/-- Where numbers are too great for doubles. -/
def doubleLimit : Nat := 2 ^ 1024

/-- A double in parts is a natural number: zero, or normal and of this value. -/
inductive HoldsNat : UnpackedFloat → Nat → Prop
  | zero : HoldsNat (.zero .positive) 0
  | finite {m v : Nat} {e : Int} (hpos : 0 < m) (low : 0x10000000000000 ≤ m)
      (high : m < 0x20000000000000) (lowest : -1074 ≤ e) (highest : e ≤ 971)
      (value : (v : ℚ) = m * 2 ^ e) : HoldsNat (.finite .positive m e hpos) v

/-- Either the mantissa or the number is the other one times a power of two. -/
theorem scaled_cases {v m : Nat} {e : Int} (h : (v : ℚ) = m * 2 ^ e) :
    (∃ a : Nat, e = a ∧ v = m * 2 ^ a) ∨ ∃ a : Nat, e = -a ∧ m = v * 2 ^ a := by
  rcases Int.eq_nat_or_neg e with ⟨a, rfl | rfl⟩
  · refine .inl ⟨a, rfl, ?_⟩
    rw [zpow_natCast] at h
    exact_mod_cast h
  · refine .inr ⟨a, rfl, ?_⟩
    rw [zpow_neg, zpow_natCast, ← div_eq_mul_inv, eq_div_iff (by positivity)] at h
    exact_mod_cast h.symm

theorem scaled_pos {v m : Nat} {e : Int} (hm : 0 < m) (h : (v : ℚ) = m * 2 ^ e) : 0 < v := by
  have hpos : (0 : ℚ) < m * 2 ^ e := by positivity
  rw [← h] at hpos
  exact_mod_cast hpos

theorem log2_mul_two_pow {v : Nat} (hv : 0 < v) (a : Nat) : (v * 2 ^ a).log2 = v.log2 + a := by
  induction a with
  | zero => rw [Nat.pow_zero, Nat.mul_one, Nat.add_zero]
  | succ a ih =>
    have hne : v * 2 ^ a ≠ 0 := (Nat.mul_pos hv (Nat.two_pow_pos a)).ne'
    rw [Nat.pow_succ, ← Nat.mul_assoc, Nat.mul_comm _ 2, Nat.log2_two_mul hne, ih, Nat.add_assoc]

theorem log2_scaled {v m : Nat} {e : Int} (hv : 0 < v) (h : (v : ℚ) = m * 2 ^ e) :
    (m.log2 : Int) + e = v.log2 := by
  rcases scaled_cases h with ⟨a, rfl, rfl⟩ | ⟨a, rfl, rfl⟩
  · rw [log2_mul_two_pow (Nat.pos_of_mul_pos_right hv)]
    push_cast
    ring
  · rw [log2_mul_two_pow hv]
    push_cast
    ring

/-- The rounded mantissa, at the exponent of the last of 53 places. -/
theorem roundNat_scaled {v m : Nat} {e : Int} {k : Nat} (h : (v : ℚ) = m * 2 ^ e)
    (hk : e + k = v.log2 - 52) : (roundNat v : ℚ) = nearestQuotient m k * 2 ^ (e + k) := by
  rcases scaled_cases h with ⟨a, rfl, hv⟩ | ⟨a, rfl, rfl⟩
  · have hexcess : excess v = k + a := by
      unfold excess
      omega
    rw [roundNat, hexcess, hv, nearestQuotient_mul, ← Nat.cast_add, zpow_natCast, Nat.add_comm]
    push_cast
    rfl
  · by_cases hlow : 52 ≤ v.log2
    · obtain ⟨c, rfl⟩ : ∃ c, k = c + a := ⟨excess v, by unfold excess; omega⟩
      have hexcess : excess v = c := by
        unfold excess
        omega
      rw [roundNat, hexcess, nearestQuotient_mul]
      push_cast
      rw [show -(a : Int) + (c + a) = c by ring, zpow_natCast]
    · -- A number of less than 53 bits is not rounded.
      obtain ⟨c, rfl⟩ : ∃ c, a = c + k := ⟨52 - v.log2, by omega⟩
      have hexcess : excess v = 0 := by
        unfold excess
        omega
      have hquotient : nearestQuotient (v * 2 ^ (c + k)) k = v * 2 ^ c := by
        have := nearestQuotient_mul (v * 2 ^ c) 0 k
        rwa [nearestQuotient_zero, Nat.mul_assoc, ← Nat.pow_add, Nat.zero_add] at this
      rw [roundNat, hexcess, nearestQuotient_zero, hquotient]
      push_cast
      rw [show -((c : Int) + k) + k = -c by ring, mul_assoc, ← zpow_natCast,
        ← zpow_add₀ (by norm_num)]
      simp

/-- A number below `2 ^ 1024` has an exponent that a double can have. -/
theorem holdsNat_finite {m v : Nat} {e : Int} {hpos : 0 < m} (low : 0x10000000000000 ≤ m)
    (high : m < 0x20000000000000) (lowest : -1074 ≤ e) (value : (v : ℚ) = m * 2 ^ e)
    (hlt : v < doubleLimit) : HoldsNat (.finite .positive m e hpos) v := by
  refine .finite hpos low high lowest ?_ value
  by_contra hgt
  have hpow : (2 : ℚ) ^ 972 ≤ 2 ^ e := by
    rw [← zpow_natCast]
    exact zpow_le_zpow_right₀ (by norm_num) (by omega)
  have hlow : (2 : ℚ) ^ 52 ≤ m := by
    exact_mod_cast low
  have hbig : (2 : ℚ) ^ 1024 ≤ v := by
    calc (2 : ℚ) ^ 1024 = 2 ^ 52 * 2 ^ 972 := pow_add 2 52 972
      _ ≤ m * 2 ^ e := by gcongr
      _ = v := value.symm
  exact absurd (by exact_mod_cast hbig) (Nat.not_le.2 hlt)

theorem shiftToTargetExponent_eq {m : Nat} {e : Int} {k : Nat}
    (h : Format.binary64.targetExponent (totalExponent m e) = e + k) :
    shiftToTargetExponent .binary64 m e .exact
      = (ExtendedMantissa.ofMantissaAndAccuracy m .exact >>> k, e + k) := by
  have hk : (e + (k : Int) - e).toNat = k := by omega
  rw [shiftToTargetExponent, h, shiftToExponent, hk]

theorem targetExponent_eq (t : Int) :
    Format.binary64.targetExponent t = max (t - 53) (-1074) := rfl

/-- The first 53 bits. -/
theorem div_pow_mem {m k : Nat} (hm : m ≠ 0) (hlog : m.log2 = 52 + k) :
    0x10000000000000 ≤ m / 2 ^ k ∧ m / 2 ^ k < 0x20000000000000 := by
  have hle := Nat.log2_self_le hm
  have hlt := @Nat.lt_log2_self m
  rw [hlog] at hle hlt
  constructor
  · rw [Nat.le_div_iff_mul_le (Nat.two_pow_pos k)]
    rwa [Nat.pow_add] at hle
  · rw [Nat.div_lt_iff_lt_mul (Nat.two_pow_pos k)]
    rwa [show 52 + k + 1 = 53 + k by omega, Nat.pow_add] at hlt

/-- A natural number of more than 53 bits, by its first 53 ones. -/
theorem quotient_mem {v : Nat} (h : 0x20000000000000 ≤ v) :
    v.log2 = 52 + excess v ∧ 0 < excess v ∧ 0x10000000000000 ≤ v / 2 ^ excess v ∧
      v / 2 ^ excess v < 0x20000000000000 := by
  have hlog : 53 ≤ v.log2 := (Nat.le_log2 (by omega)).2 h
  have hexcess : v.log2 = 52 + excess v := by
    unfold excess
    omega
  exact ⟨hexcess, by omega, div_pow_mem (by omega) hexcess⟩

/-- Rounding of a mantissa that has 53 bits or more. -/
theorem roundWithAccuracy_holdsNat {v m : Nat} {e : Int} (hv : 0 < v)
    (h : (v : ℚ) = m * 2 ^ e) (he : e ≤ v.log2 - 52) (hlt : roundNat v < doubleLimit) :
    HoldsNat (roundWithAccuracy .binary64 .positive m e .exact) (roundNat v) := by
  have hlog := log2_scaled hv h
  have hm : m ≠ 0 := by
    rintro rfl
    rw [Nat.cast_zero, zero_mul, Nat.cast_eq_zero] at h
    omega
  obtain ⟨k, hk⟩ : ∃ k : Nat, e + k = v.log2 - 52 := ⟨(v.log2 - 52 - e).toNat, by omega⟩
  have hvalue := roundNat_scaled h hk
  have hfirst : shiftToTargetExponent .binary64 m e .exact
      = (ExtendedMantissa.ofMantissaAndAccuracy m .exact >>> k, e + k) := by
    refine shiftToTargetExponent_eq ?_
    rw [targetExponent_eq, totalExponent]
    omega
  obtain ⟨hlow, hhigh⟩ := div_pow_mem (k := k) hm (by omega)
  have hquotient := nearestQuotient_mem m k
  set Q := nearestQuotient m k with hQ
  unfold roundWithAccuracy
  rw [hfirst]
  dsimp only
  rw [(shifted_shiftRight m k).roundedMantissa, ← hQ]
  by_cases hcarry : Q < 0x20000000000000
  · have hlog : Q.log2 = 52 := (Nat.log2_eq_iff (by omega)).2 (by omega)
    have hsecond : shiftToTargetExponent .binary64 Q (e + k) .exact
        = (⟨Q, false, false⟩, e + k) := by
      rw [shiftToTargetExponent_eq (k := 0)]
      · rw [Nat.cast_zero, add_zero]
        rfl
      · rw [targetExponent_eq, totalExponent, hlog]
        omega
    rw [hsecond]
    dsimp only
    rw [dif_neg (by omega)]
    exact holdsNat_finite (by omega) hcarry (by omega) hvalue hlt
  · -- Rounding up has made one bit more.
    have hQ : Q = 0x20000000000000 := by omega
    have hsecond : shiftToTargetExponent .binary64 Q (e + k) .exact
        = (⟨0x10000000000000, false, false⟩, e + k + 1) := by
      rw [hQ, shiftToTargetExponent_eq (k := 1)]
      · rfl
      · rw [targetExponent_eq, totalExponent]
        have : Nat.log2 0x20000000000000 = 53 := rfl
        omega
    rw [hsecond]
    dsimp only
    rw [dif_neg (by decide)]
    refine holdsNat_finite (by decide) (by decide) (by omega) ?_ hlt
    rw [hvalue, hQ, zpow_add_one₀ (by norm_num)]
    push_cast
    ring

/-- Rounding of any mantissa. -/
theorem round_holdsNat {v m : Nat} {e : Int} (hv : 0 < v)
    (h : (v : ℚ) = m * 2 ^ e) (hlt : roundNat v < doubleLimit) :
    HoldsNat (UnpackedFloat.round .binary64 .positive m e) (roundNat v) := by
  have hlog := log2_scaled hv h
  have htarget : Format.binary64.targetExponent (totalExponent m e) = v.log2 - 52 := by
    rw [targetExponent_eq, totalExponent]
    omega
  unfold UnpackedFloat.round decreaseExponent
  rw [htarget]
  dsimp only
  set k := (e - ((v.log2 : Int) - 52)).toNat with hk
  refine roundWithAccuracy_holdsNat hv ?_ (by omega) hlt
  rw [h, Nat.shiftLeft_eq, zpow_sub₀ (by norm_num), zpow_natCast]
  push_cast
  field_simp

/-! ### Sums and products -/

/-- A number of 53 bits is not rounded. -/
theorem roundNat_eq_self {v m : Nat} {e : Int} (low : 0x10000000000000 ≤ m)
    (high : m < 0x20000000000000) (value : (v : ℚ) = m * 2 ^ e) : roundNat v = v := by
  have hlog : m.log2 = 52 := (Nat.log2_eq_iff (by omega)).2 (by omega)
  have hscaled := log2_scaled (scaled_pos (by omega) value) value
  have hround : (roundNat v : ℚ) = v := by
    rw [roundNat_scaled (k := 0) value (by omega), nearestQuotient_zero, value]
    simp
  exact_mod_cast hround

theorem HoldsNat.roundNat_eq {u : UnpackedFloat} {v : Nat} (h : HoldsNat u v) : roundNat v = v := by
  cases h with
  | zero => rfl
  | finite hpos low high lowest highest value => exact roundNat_eq_self low high value

theorem normalize_natCast {m : Nat} (hm : 0 < m) (e : Int) (sign : Sign) :
    UnpackedFloat.normalize .binary64 m e sign = UnpackedFloat.round .binary64 .positive m e := by
  rw [UnpackedFloat.normalize, Int.compare_eq_gt.2 (by omega)]
  rfl

theorem decreaseExponent_fst {e s : Int} {k : Nat} (m : Nat) (hk : e = s + k) :
    (decreaseExponent m e s).1 = m * 2 ^ k := by
  show m <<< (e - s).toNat = _
  rw [show (e - s).toNat = k by omega, Nat.shiftLeft_eq]

/-- A mantissa is not changed in value by taking its exponent down. -/
theorem decreaseExponent_value {e s : Int} {m : Nat} (hm : 0 < m) (hs : s ≤ e) :
    0 < (decreaseExponent m e s).1 ∧ ((decreaseExponent m e s).1 : ℚ) * 2 ^ s = m * 2 ^ e := by
  obtain ⟨k, hk⟩ : ∃ k : Nat, e = s + k := ⟨(e - s).toNat, by omega⟩
  rw [decreaseExponent_fst m hk]
  refine ⟨Nat.mul_pos hm (Nat.two_pow_pos k), ?_⟩
  rw [hk, zpow_add₀ (by norm_num), zpow_natCast]
  push_cast
  ring

theorem HoldsNat.add {u u' : UnpackedFloat} {v v' : Nat} (h : HoldsNat u v) (h' : HoldsNat u' v')
    (hlt : roundNat (v + v') < doubleLimit) :
    HoldsNat (UnpackedFloat.add .binary64 u u') (roundNat (v + v')) := by
  have hround := h.roundNat_eq
  have hround' := h'.roundNat_eq
  cases h with
  | zero =>
    rw [Nat.zero_add, hround']
    cases h' with
    | zero => exact .zero
    | finite hpos low high lowest highest value => exact .finite hpos low high lowest highest value
  | @finite m v e hpos low high lowest highest value =>
    cases h' with
    | zero =>
      rw [Nat.add_zero, hround]
      exact .finite hpos low high lowest highest value
    | @finite m' v' e' hpos' low' high' lowest' highest' value' =>
      obtain ⟨hk, hleft⟩ := decreaseExponent_value hpos (min_le_left e e')
      obtain ⟨-, hright⟩ := decreaseExponent_value hpos' (min_le_right e e')
      set k := (decreaseExponent m e (min e e')).1
      set k' := (decreaseExponent m' e' (min e e')).1
      have hvalue : ((v + v' : ℕ) : ℚ) = (k + k' : ℕ) * 2 ^ min e e' := by
        push_cast
        rw [value, value', ← hleft, ← hright]
        ring
      have hsum : UnpackedFloat.add .binary64 (.finite .positive m e hpos)
          (.finite .positive m' e' hpos')
            = UnpackedFloat.normalize .binary64 (k + k' : ℕ) (min e e') .positive := rfl
      rw [hsum, normalize_natCast (by omega)]
      exact round_holdsNat (scaled_pos (by omega) hvalue) hvalue hlt

theorem HoldsNat.mul {u u' : UnpackedFloat} {v v' : Nat} (h : HoldsNat u v) (h' : HoldsNat u' v')
    (hlt : roundNat (v * v') < doubleLimit) :
    HoldsNat (UnpackedFloat.mul .binary64 u u') (roundNat (v * v')) := by
  cases h with
  | zero =>
    rw [Nat.zero_mul]
    cases h' with
    | zero => exact .zero
    | finite => exact .zero
  | @finite m v e hpos low high lowest highest value =>
    cases h' with
    | zero =>
      rw [Nat.mul_zero]
      exact .zero
    | @finite m' v' e' hpos' low' high' lowest' highest' value' =>
      have hvalue : ((v * v' : ℕ) : ℚ) = (m * m' : ℕ) * 2 ^ (e + e') := by
        push_cast
        rw [value, value', zpow_add₀ (by norm_num)]
        ring
      have hmantissa : 0 < m * m' := Nat.mul_pos hpos hpos'
      have hproduct := scaled_pos hmantissa hvalue
      -- The product has 105 bits or more, so that bits are only dropped from it.
      have hbits : 104 ≤ (m * m').log2 := by
        rw [Nat.le_log2 hmantissa.ne']
        calc 2 ^ 104 = 0x10000000000000 * 0x10000000000000 := by norm_num
          _ ≤ m * m' := Nat.mul_le_mul low low'
      have hlog := log2_scaled hproduct hvalue
      exact roundWithAccuracy_holdsNat hproduct hvalue (by omega) hlt

/-! ### Doubles -/

theorem unpack_pack_finite {m : Nat} {e : Int} (sign : Sign) (hpos : 0 < m)
    (low : 0x10000000000000 ≤ m) (high : m < 0x20000000000000) (lowest : -1074 ≤ e)
    (highest : e ≤ 971) :
    (Float.Model.pack (.finite sign m e hpos)).unpack = .finite sign m e hpos := by
  have hlog : m.log2 = 52 := (Nat.log2_eq_iff (by omega)).2 (by omega)
  have hexponent : (e + Format.binary64.exponentBias
      + Format.binary64.mantissaBitsWithoutImplicit).toNat = (e + 1075).toNat := by
    show (e + (1023 : Nat) + (52 : Nat)).toNat = _
    omega
  have hpack : UnpackedFloat.pack .binary64 (.finite sign m e hpos)
      = packComponents .binary64 sign (BitVec.ofNat 11 (e + 1075).toNat) (BitVec.ofNat 52 m) := by
    unfold UnpackedFloat.pack
    dsimp only
    rw [hlog, hexponent, if_neg (by show ¬ 2 ^ 11 ≤ _; omega)]
    exact if_pos rfl
  have hfield : (BitVec.ofNat 11 (e + 1075).toNat).toNat = (e + 1075).toNat := by
    rw [BitVec.toNat_ofNat, Nat.mod_eq_of_lt (by omega)]
  -- The exponent of a normal number has neither ones alone nor zeros alone.
  have hones : BitVec.ofNat 11 (e + 1075).toNat ≠ -1#11 := by
    rw [ne_eq, ← BitVec.toNat_inj, hfield]
    show ¬ _ = 2047
    omega
  have hnone : BitVec.ofNat 11 (e + 1075).toNat ≠ 0#11 := by
    rw [ne_eq, ← BitVec.toNat_inj, hfield]
    show ¬ _ = 0
    omega
  show UnpackedFloat.unpack .binary64 (UnpackedFloat.pack .binary64 (.finite sign m e hpos)) = _
  rw [hpack]
  unfold UnpackedFloat.unpack
  simp only [unpackExponent_packComponents, unpackMantissa_packComponents,
    unpackSign_packComponents, Sign.ofBitVec_toBitVec]
  rw [if_neg hones, if_neg hnone]
  have hmantissa : (1#1 ++ BitVec.ofNat 52 m).toNat = m := by
    rw [Number.one_append_toNat, BitVec.toNat_ofNat]
    omega
  have hvalue : ((BitVec.ofNat 11 (e + 1075).toNat).toNat : Int)
      - ((Format.binary64.exponentBias : Int) + (Format.binary64.mantissaBitsWithoutImplicit : Int))
      = e := by
    rw [hfield]
    show ((e + 1075).toNat : Int) - (1023 + 52) = e
    omega
  simp only [hmantissa, hvalue]

theorem HoldsNat.unpack_pack {u : UnpackedFloat} {v : Nat} (h : HoldsNat u v) :
    (Float.Model.pack u).unpack = u := by
  cases h with
  | zero => rfl
  | finite hpos low high lowest highest => exact unpack_pack_finite _ hpos low high lowest highest

/-- A double is a natural number. -/
def IsNat (x : Float) (v : Nat) : Prop := HoldsNat x.toModel.unpack v

namespace IsNat

variable {x y : Float} {v w : Nat}

theorem roundNat_eq (h : IsNat x v) : roundNat v = v := HoldsNat.roundNat_eq h

/-- A sum is rounded. -/
theorem add (h : IsNat x v) (h' : IsNat y w) (hlt : roundNat (v + w) < doubleLimit) :
    IsNat (x + y) (roundNat (v + w)) := by
  have hsum := HoldsNat.add h h' hlt
  show HoldsNat (Float.Model.pack _).unpack _
  rwa [hsum.unpack_pack]

/-- A product is rounded. -/
theorem mul (h : IsNat x v) (h' : IsNat y w) (hlt : roundNat (v * w) < doubleLimit) :
    IsNat (x * y) (roundNat (v * w)) := by
  have hproduct := HoldsNat.mul h h' hlt
  show HoldsNat (Float.Model.pack _).unpack _
  rwa [hproduct.unpack_pack]

end IsNat

theorem roundNat_of_lt {v : Nat} (h : v < 0x20000000000000) : roundNat v = v := by
  have hexcess : excess v = 0 := by
    have hlog : v.log2 < 53 := by
      by_cases hzero : v = 0
      · subst hzero
        decide
      · exact (Nat.log2_lt hzero).2 h
    unfold excess
    omega
  rw [roundNat, hexcess, nearestQuotient_zero, Nat.pow_zero, Nat.mul_one]

theorem lt_doubleLimit {v : Nat} (h : v < 0x20000000000000) : v < doubleLimit := by
  have hpow : 2 ^ 53 ≤ 2 ^ 1024 := pow_le_pow_right₀ (by decide) (by decide)
  unfold doubleLimit
  exact Nat.lt_of_lt_of_le h hpow

theorem ofNat_holdsNat {n : Nat} (h : n < 0x20000000000000) :
    HoldsNat (UnpackedFloat.ofNat .binary64 n) n := by
  rcases Nat.eq_zero_or_pos n with rfl | hpos
  · exact .zero
  · have hround := roundNat_of_lt h
    have hvalue : (n : ℚ) = n * 2 ^ (0 : Int) := by simp
    have hholds := round_holdsNat hpos hvalue (by rw [hround]; exact lt_doubleLimit h)
    rw [hround] at hholds
    unfold UnpackedFloat.ofNat UnpackedFloat.ofInt
    rwa [normalize_natCast hpos]

theorem IsNat.one : IsNat (Float.ofBits 0x3FF0000000000000) 1 := by
  have hunpack : (Float.ofBits 0x3FF0000000000000).toModel.unpack
      = .finite .positive 0x10000000000000 (-52) (by decide) :=
    Number.toFloat_unpack ⟨0x3FF0000000000000⟩
  unfold IsNat
  rw [hunpack]
  exact .finite _ (by decide) (by decide) (by decide) (by decide) (by norm_num)

/-- Numbers of 53 bits are doubles. -/
theorem IsNat.ofNat {n : Nat} (h : n < 0x20000000000000) : IsNat (Float.ofNat n) n := by
  -- It is made from a word and a power of ten, which is one here.
  have hfloat : Float.ofNat n = n.toUInt64.toFloat * Float.ofBits 0x3FF0000000000000 := by
    show Float.ofScientific n false 0 = _
    unfold Float.ofScientific
    rw [dif_pos ⟨h, by decide⟩]
    rfl
  have hword : IsNat n.toUInt64.toFloat n := by
    have hn : n.toUInt64.toNat = n := by
      rw [UInt64.toNat_ofNat', Nat.mod_eq_of_lt (by omega)]
    have hholds := ofNat_holdsNat h
    show HoldsNat (Float.Model.pack (UnpackedFloat.ofNat .binary64 n.toUInt64.toNat)).unpack n
    rw [hn]
    rwa [hholds.unpack_pack]
  have hround : roundNat (n * 1) = n := by
    rw [Nat.mul_one, roundNat_of_lt h]
  have hproduct := hword.mul .one (by rw [hround]; exact lt_doubleLimit h)
  rwa [hround, ← hfloat] at hproduct

end EcmaScript

import EcmaScript.Proofs.Number.Integers

namespace EcmaScript

/-!
# The double nearest to a natural number

* `Number.value` — a finite number as a rational number;
* `Number.IsNearest` — no finite number is nearer, and of two that are as near this is the even one;
* `Number.gap` — between two numbers of 53 bits that follow each other there is no double;
* `Number.isNearest_roundNat` — what a natural number is rounded to is nearest to it;
* `Number.not_isNearest_of_lt` — the lower one of two doubles is not nearest to a number that lies
  beyond the middle.
-/

open Float.Model Float.Model.UnpackedFloat

namespace Number

/-- A finite number as a rational number. -/
def value (n : Number) : ℚ := if n.isNegative then -n.magnitude.value else n.magnitude.value

/-- The number is the double nearest to `x`, and the even one if there are two. -/
structure IsNearest (n : Number) (x : ℚ) : Prop where
  isFinite : n.isFinite = true
  closest : ∀ n' : Number, n'.isFinite = true → |n.value - x| ≤ |n'.value - x|
  even : ∀ n' : Number, n'.isFinite = true → |n'.value - x| = |n.value - x| →
    n'.value = n.value ∨ n.magnitude.mantissa % 2 = 0

/-! ### Numbers and their parts -/

theorem unpacked_ofFloat (x : Float) : (ofFloat x).unpacked = x.toModel.unpack := by
  rw [← toFloat_unpack]
  show (Float.ofBits x.toBits).toModel.unpack = _
  rw [Float.ofBits_toBits]

/-- A number whose parts are finite. -/
theorem of_unpacked_finite {n : Number} {sign : Sign} {m : Nat} {e : Int} {hpos : 0 < m}
    (h : n.unpacked = .finite sign m e hpos) :
    n.isFinite = true ∧ n.unpackedSign = sign ∧ n.magnitude.mantissa = m
      ∧ n.magnitude.exponent = e := by
  unfold unpacked at h
  split at h
  · cases h
  · split at h
    next hfinite =>
      split at h
      · cases h
      · obtain ⟨hsign, hm, he⟩ := UnpackedFloat.finite.inj h
        exact ⟨hfinite, hsign, hm, he⟩
    next => cases h

/-- A number whose parts are a zero. -/
theorem of_unpacked_zero {n : Number} {sign : Sign} (h : n.unpacked = .zero sign) :
    n.isFinite = true ∧ n.unpackedSign = sign ∧ n.isZero = true := by
  unfold unpacked at h
  split at h
  · cases h
  · split at h
    next hfinite =>
      split at h
      next hzero => exact ⟨hfinite, UnpackedFloat.zero.inj h, hzero⟩
      next => cases h
    next => cases h

theorem isNegative_of_unpackedSign {n : Number} (h : n.unpackedSign = .positive) :
    n.isNegative = false := by
  unfold unpackedSign at h
  split at h
  next => cases h
  next hneg => exact Bool.eq_false_iff.2 hneg

/-- A number that holds a natural number is this number. -/
theorem value_of_holdsNat {n : Number} {v : Nat} (h : HoldsNat n.unpacked v) :
    n.isFinite = true ∧ n.isNegative = false ∧ n.value = v := by
  generalize hparts : n.unpacked = parts at h
  cases h with
  | zero =>
    obtain ⟨hfinite, hsign, hzero⟩ := of_unpacked_zero hparts
    have hneg := isNegative_of_unpackedSign hsign
    refine ⟨hfinite, hneg, ?_⟩
    simp only [isZero, Bool.and_eq_true, decide_eq_true_eq] at hzero
    rw [value, hneg, magnitude, if_pos hzero.1, hzero.2, BinaryFraction.value]
    simp
  | finite hpos low high lowest highest hvalue =>
    obtain ⟨hfinite, hsign, hm, he⟩ := of_unpacked_finite hparts
    have hneg := isNegative_of_unpackedSign hsign
    refine ⟨hfinite, hneg, ?_⟩
    rw [value, hneg, BinaryFraction.value, hm, he, hvalue]
    rfl

/-- A number of 53 bits has one mantissa. -/
theorem mantissa_of_holdsNat {n : Number} {v q k : Nat} (h : HoldsNat n.unpacked v)
    (hv : v = q * 2 ^ k) (low : 0x10000000000000 ≤ q) (high : q < 0x20000000000000) :
    n.magnitude.mantissa = q := by
  have hlogq : q.log2 = 52 := (Nat.log2_eq_iff (by omega)).2 (by omega)
  have hvalue : (v : ℚ) = q * 2 ^ (k : Int) := by
    rw [hv, zpow_natCast]
    push_cast
    rfl
  have hpos := scaled_pos (by omega) hvalue
  have hlog := log2_scaled hpos hvalue
  generalize hparts : n.unpacked = parts at h
  cases h with
  | zero => omega
  | @finite m _ e hm low' high' lowest highest hvalue' =>
    have hlogm : m.log2 = 52 := (Nat.log2_eq_iff (by omega)).2 (by omega)
    have hlog' := log2_scaled hpos hvalue'
    have he : e = k := by omega
    rw [he, hvalue] at hvalue'
    obtain ⟨-, -, hmantissa, -⟩ := of_unpacked_finite hparts
    rw [hmantissa]
    have hcast := mul_right_cancel₀ (by positivity) hvalue'
    exact_mod_cast hcast.symm

/-! ### Doubles that follow each other -/

theorem value_of_pos {n : Number} (h : 0 < n.value) : n.value = n.magnitude.value := by
  unfold value at h ⊢
  split at h
  next =>
    have hnonneg : 0 ≤ n.magnitude.value := by
      unfold BinaryFraction.value
      positivity
    linarith
  next hneg => rw [if_neg hneg]

theorem mantissa_lt (n : Number) : n.magnitude.mantissa < 0x20000000000000 := by
  rw [magnitude_eq]
  exact BinaryFraction.ofFields_mantissa_lt n.fractionField_lt

/-- **Between two numbers of 53 bits that follow each other there is no double.** -/
theorem gap (n : Number) {q k : Nat} (low : 0x10000000000000 ≤ q) :
    n.value ≤ (q * 2 ^ k : ℕ) ∨ ((q + 1) * 2 ^ k : ℕ) ≤ n.value := by
  by_contra hbetween
  obtain ⟨habove, hbelow⟩ := not_or.1 hbetween
  rw [not_le] at habove hbelow
  have hvalue := value_of_pos ((Nat.cast_nonneg _).trans_lt habove)
  have hmantissa := n.mantissa_lt
  rw [hvalue, BinaryFraction.value] at habove hbelow
  set m := n.magnitude.mantissa
  by_cases hexponent : (k : Int) ≤ n.magnitude.exponent
  · -- The double is a multiple of the power, like its two neighbours.
    obtain ⟨c, hc⟩ : ∃ c : Nat, n.magnitude.exponent = (c + k : ℕ) :=
      ⟨(n.magnitude.exponent - k).toNat, by omega⟩
    rw [hc, zpow_natCast] at habove hbelow
    have hq : q * 2 ^ k < m * 2 ^ (c + k) := by exact_mod_cast habove
    have hq' : m * 2 ^ (c + k) < (q + 1) * 2 ^ k := by exact_mod_cast hbelow
    rw [Nat.pow_add, ← Nat.mul_assoc] at hq hq'
    have := Nat.lt_of_mul_lt_mul_right hq
    have := Nat.lt_of_mul_lt_mul_right hq'
    omega
  · -- The double has too small an exponent to be so great.
    have hpow : (2 : ℚ) ^ n.magnitude.exponent ≤ 2 ^ ((k : Int) - 1) :=
      zpow_le_zpow_right₀ (by norm_num) (by omega)
    have hm : (m : ℚ) ≤ 2 * q := by
      exact_mod_cast (by omega : m ≤ 2 * q)
    have hle : (m : ℚ) * 2 ^ n.magnitude.exponent ≤ (q * 2 ^ k : ℕ) := by
      calc (m : ℚ) * 2 ^ n.magnitude.exponent
          ≤ 2 * q * 2 ^ ((k : Int) - 1) := by gcongr
        _ = (q * 2 ^ k : ℕ) := by
          rw [zpow_sub_one₀ (by norm_num), zpow_natCast]
          push_cast
          ring
    exact absurd hle (not_le.2 habove)

/-! ### Nearest doubles -/

/-- Of two ends with no double between them, the one that is not farther is nearest. -/
theorem isNearest_of_gap {n : Number} {low high x : ℚ} (hfinite : n.isFinite = true)
    (hgap : ∀ n' : Number, n'.value ≤ low ∨ high ≤ n'.value) (hlow : low ≤ x) (hhigh : x ≤ high)
    (hvalue : n.value = low ∧ x - low ≤ high - x ∨ n.value = high ∧ high - x ≤ x - low)
    (heven : x - low = high - x → n.magnitude.mantissa % 2 = 0) : n.IsNearest x := by
  have hdistance : n.value = low ∧ |n.value - x| = x - low ∧ x - low ≤ high - x ∨
      n.value = high ∧ |n.value - x| = high - x ∧ high - x ≤ x - low := by
    rcases hvalue with ⟨hn, hle⟩ | ⟨hn, hle⟩
    · exact .inl ⟨hn, by rw [hn, abs_of_nonpos (by linarith)]; ring, hle⟩
    · exact .inr ⟨hn, by rw [hn, abs_of_nonneg (by linarith)], hle⟩
  have hother (n' : Number) : n'.value ≤ low ∧ |n'.value - x| = x - n'.value ∨
      high ≤ n'.value ∧ |n'.value - x| = n'.value - x := by
    rcases hgap n' with h | h
    · exact .inl ⟨h, by rw [abs_of_nonpos (by linarith)]; ring⟩
    · exact .inr ⟨h, abs_of_nonneg (by linarith)⟩
  refine ⟨hfinite, fun n' _ => ?_, fun n' _ heq => ?_⟩
  · rcases hdistance with ⟨hn, hd, hle⟩ | ⟨hn, hd, hle⟩ <;>
      rcases hother n' with ⟨h, hd'⟩ | ⟨h, hd'⟩ <;>
      rw [hd, hd'] <;> linarith
  · rcases hdistance with ⟨hn, hd, hle⟩ | ⟨hn, hd, hle⟩ <;>
      rcases hother n' with ⟨h, hd'⟩ | ⟨h, hd'⟩ <;>
      rw [hd, hd'] at heq
    · exact .inl (by linarith)
    · exact .inr (heven (by linarith))
    · exact .inr (heven (by linarith))
    · exact .inl (by linarith)

/-- At the middle between two doubles the even one is taken. -/
theorem even_of_middle {n : Number} {v : Nat} (h : HoldsNat n.unpacked (roundNat v))
    (hv : 0x20000000000000 ≤ v) (hmiddle : 2 * (v % 2 ^ excess v) = 2 ^ excess v) :
    n.magnitude.mantissa % 2 = 0 := by
  obtain ⟨-, -, hlow, hhigh⟩ := quotient_mem hv
  have hquotient : nearestQuotient v (excess v)
      = v / 2 ^ excess v + v / 2 ^ excess v % 2 := by
    rw [nearestQuotient, if_neg (by omega), if_pos hmiddle]
  rw [roundNat, hquotient] at h
  set q := v / 2 ^ excess v
  by_cases hcarry : q + q % 2 < 0x20000000000000
  · rw [mantissa_of_holdsNat h rfl (by omega) hcarry]
    omega
  · -- Rounding up has made one bit more, and the mantissa is the least one.
    have hq : q + q % 2 = 0x20000000000000 := by omega
    have hdouble : (q + q % 2) * 2 ^ excess v = 0x10000000000000 * 2 ^ (excess v + 1) := by
      rw [hq, Nat.pow_succ]
      omega
    rw [mantissa_of_holdsNat h hdouble (by decide) (by decide)]

/-- **What a natural number is rounded to is nearest to it.** -/
theorem isNearest_roundNat {n : Number} {v : Nat} (h : HoldsNat n.unpacked (roundNat v)) :
    n.IsNearest v := by
  obtain ⟨hfinite, -, hvalue⟩ := value_of_holdsNat h
  by_cases hsmall : v < 0x20000000000000
  · rw [roundNat_of_lt hsmall] at hvalue
    refine ⟨hfinite, fun n' _ => ?_, fun n' _ heq => .inl ?_⟩
    · rw [hvalue, sub_self, abs_zero]
      exact abs_nonneg _
    · rw [hvalue, sub_self, abs_zero, abs_eq_zero, sub_eq_zero] at heq
      rw [heq, hvalue]
  obtain ⟨-, -, hlow, -⟩ := quotient_mem (not_lt.1 hsmall)
  have heven := even_of_middle h (not_lt.1 hsmall)
  have hdivision := Nat.div_add_mod' v (2 ^ excess v)
  have hrest := Nat.mod_lt v (Nat.two_pow_pos (excess v))
  have hquotient : nearestQuotient v (excess v) = v / 2 ^ excess v ∧
        2 * (v % 2 ^ excess v) ≤ 2 ^ excess v ∨
      nearestQuotient v (excess v) = v / 2 ^ excess v + 1 ∧
        2 ^ excess v ≤ 2 * (v % 2 ^ excess v) := by
    unfold nearestQuotient
    split
    · omega
    · split <;> omega
  rw [roundNat] at hvalue
  set p := 2 ^ excess v
  set q := v / p
  set r := v % p
  have hv : (v : ℚ) = (q * p : ℕ) + r := by exact_mod_cast hdivision.symm
  have hnext : (((q + 1) * p : ℕ) : ℚ) = (q * p : ℕ) + p := by
    push_cast
    ring
  have hrest : (r : ℚ) < p := by exact_mod_cast hrest
  have hnonneg : (0 : ℚ) ≤ r := Nat.cast_nonneg r
  refine isNearest_of_gap hfinite (fun n' => gap n' hlow) (by linarith) (by linarith) ?_ ?_
  · rcases hquotient with ⟨hquotient, hle⟩ | ⟨hquotient, hle⟩
    · have hle : (2 : ℚ) * r ≤ p := by exact_mod_cast hle
      exact .inl ⟨by rw [hvalue, hquotient], by linarith⟩
    · have hle : (p : ℚ) ≤ 2 * r := by exact_mod_cast hle
      exact .inr ⟨by rw [hvalue, hquotient], by linarith⟩
  · intro hmiddle
    have htwice : (2 : ℚ) * r = p := by linarith
    exact heven (by exact_mod_cast htwice)

/-- The lower one of two doubles is not nearest to a number beyond the middle. -/
theorem not_isNearest_of_lt {n : Number} {v q k : Nat} (low : 0x10000000000000 ≤ q)
    (high : q + 1 < 0x20000000000000) (hk : k ≤ 971) (hvalue : n.value = (q * 2 ^ k : ℕ))
    (hmiddle : (2 * q + 1) * 2 ^ k < 2 * v) (hv : v ≤ (q + 1) * 2 ^ k) : ¬ n.IsNearest v := by
  intro hnearest
  set next : Number := ofFloat ⟨Float.Model.pack (.finite .positive (q + 1) k (by omega))⟩
  have hnext : HoldsNat next.unpacked ((q + 1) * 2 ^ k) := by
    rw [unpacked_ofFloat, unpack_pack_finite _ _ (by omega) high (by omega) (by omega)]
    refine .finite _ (by omega) high (by omega) (by omega) ?_
    rw [zpow_natCast]
    push_cast
    rfl
  obtain ⟨hfinite, -, hvalue'⟩ := value_of_holdsNat hnext
  have hclosest := hnearest.closest next hfinite
  have hhigh : (v : ℚ) ≤ ((q + 1) * 2 ^ k : ℕ) := by exact_mod_cast hv
  have hmiddle : (((2 * q + 1) * 2 ^ k : ℕ) : ℚ) < (2 * v : ℕ) := by exact_mod_cast hmiddle
  push_cast at hhigh hmiddle hvalue hvalue'
  have hpow : (0 : ℚ) < 2 ^ k := by positivity
  rw [hvalue, hvalue', abs_of_nonpos (by linarith), abs_of_nonneg (by linarith)] at hclosest
  linarith

end Number

end EcmaScript

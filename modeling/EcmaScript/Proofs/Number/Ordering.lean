import EcmaScript.Proofs.Number.Doubles

namespace EcmaScript

/-!
# Equality, order and hash of numbers

Equality, order and hash treat NaN and the two zeros each in its own way.

* `Number.rank` — the size of a number with its sign, as a whole number;
* `Number.compare_unpacked` — numbers but NaN compare like their ranks;
* `Number.equal_iff`, `Number.order_eq` — equality and order by rank;
* `Number.comparisons` — how far equality, order and hash agree: they part ways at the two zeros,
  which are equal and do not have one hash, and at NaN, which orders as equal to numbers that it
  does not equal.
-/

open Float.Model Float.Model.UnpackedFloat

namespace Number

variable {a b c : Number}

/-! ### Ranks -/

/-- The bits behind the sign: numbers grow with them. -/
def size (n : Number) : Nat := n.bits.toNat % 2 ^ 63

/-- The size of a number with its sign. Both zeros have rank zero. -/
def rank (n : Number) : Int := n.unpackedSign.apply n.size

theorem size_eq (n : Number) : n.size = n.exponentField * 2 ^ 52 + n.fractionField := by
  rw [size, exponentField_eq, fractionField_eq]
  omega

theorem exponentField_lt (n : Number) : n.exponentField < 0x800 := by
  rw [exponentField_eq]
  exact Nat.mod_lt _ (by decide)

theorem isZero_iff : a.isZero = true ↔ a.size = 0 := by
  rw [size_eq]
  simp only [isZero, Bool.and_eq_true, decide_eq_true_eq]
  omega

/-- Numbers of one sign and size are equal. -/
theorem ext_of_size (hsign : a.isNegative = b.isNegative) (hsize : a.size = b.size) : a = b := by
  have hfraction := a.fractionField_lt
  have hfraction' := b.fractionField_lt
  rw [size_eq, size_eq] at hsize
  exact ext_of_fields hsign (by omega) (by omega)

/-- Only the two zeros have one rank. -/
theorem rank_eq_iff : a.rank = b.rank ↔ a = b ∨ a.isZero = true ∧ b.isZero = true := by
  rw [isZero_iff, isZero_iff]
  constructor
  · intro h
    unfold rank unpackedSign at h
    cases ha : a.isNegative <;> cases hb : b.isNegative <;>
      simp only [ha, hb, Sign.apply, if_true, if_false, Bool.false_eq_true] at h
    · exact .inl (ext_of_size (ha.trans hb.symm) (by omega))
    · exact .inr (by omega)
    · exact .inr (by omega)
    · exact .inl (ext_of_size (ha.trans hb.symm) (by omega))
  · rintro (rfl | ⟨ha, hb⟩)
    · rfl
    · unfold rank unpackedSign
      rw [ha, hb]
      split <;> split <;> rfl

/-! ### Comparing ranks -/

/-- The order of pairs, where the parts of a pair tell which of two numbers is less. -/
theorem then_compare_eq {e e' : Int} {m m' s s' : Nat} (hlt : e < e' → s < s')
    (hgt : e' < e → s' < s) (heq : e = e' → (m < m' ↔ s < s') ∧ (m' < m ↔ s' < s)) :
    (compare e e').then (compare m m') = compare s s' := by
  rcases lt_trichotomy e e' with h | h | h
  · rw [Int.compare_eq_lt.2 h, Nat.compare_eq_lt.2 (hlt h)]
    rfl
  · obtain ⟨hless, hgreater⟩ := heq h
    rw [Int.compare_eq_eq.2 h]
    show compare m m' = compare s s'
    rcases lt_trichotomy s s' with h | h | h
    · rw [Nat.compare_eq_lt.2 h, Nat.compare_eq_lt.2 (hless.2 h)]
    · rw [Nat.compare_eq_eq.2 h, Nat.compare_eq_eq.2 (by omega)]
    · rw [Nat.compare_eq_gt.2 h, Nat.compare_eq_gt.2 (hgreater.2 h)]
  · rw [Int.compare_eq_gt.2 h, Nat.compare_eq_gt.2 (hgt h)]
    rfl

/-- Sizes compare like exponents, and where these agree like mantissas. -/
theorem compare_magnitude (a b : Number) :
    (compare a.magnitude.exponent b.magnitude.exponent).then
      (compare a.magnitude.mantissa b.magnitude.mantissa) = compare a.size b.size := by
  have hfraction := a.fractionField_lt
  have hfraction' := b.fractionField_lt
  rw [size_eq, size_eq, magnitude_eq, magnitude_eq, BinaryFraction.ofFields_exponent,
    BinaryFraction.ofFields_exponent]
  unfold BinaryFraction.ofFields
  split <;> split <;> dsimp only <;>
    exact then_compare_eq (by omega) (by omega) (by omega)

/-- A number that is no NaN is an infinity, a zero, or lies between them in size. -/
theorem unpacked_cases (h : a.isNaN = false) :
    a.unpacked = .infinity a.unpackedSign ∧ a.size = 0x7ff0000000000000 ∨
    a.unpacked = .zero a.unpackedSign ∧ a.size = 0 ∨
    ∃ hpos, a.unpacked = .finite a.unpackedSign a.magnitude.mantissa a.magnitude.exponent hpos ∧
      0 < a.size ∧ a.size < 0x7ff0000000000000 := by
  have hfraction := a.fractionField_lt
  have hexponent := a.exponentField_lt
  have hspecial : ¬ (a.exponentField = 0x7ff ∧ a.fractionField ≠ 0) := by
    simpa [isNaN] using h
  unfold unpacked
  rw [if_neg (by rw [h]; decide)]
  cases hfinite : a.isFinite with
  | false =>
    simp only [isFinite, decide_eq_false_iff_not, not_not] at hfinite
    refine .inl ⟨rfl, ?_⟩
    rw [size_eq]
    omega
  | true =>
    simp only [isFinite, decide_eq_true_eq] at hfinite
    by_cases hzero : a.isZero = true
    · exact .inr (.inl ⟨dif_pos hzero, isZero_iff.1 hzero⟩)
    · refine .inr (.inr ⟨mantissa_pos (Bool.eq_false_iff.2 hzero), dif_neg hzero, ?_, ?_⟩)
      · exact Nat.pos_of_ne_zero (mt isZero_iff.2 hzero)
      · rw [size_eq]
        omega

theorem compare_natCast (x y : Nat) : compare (x : Int) (y : Int) = compare x y := by
  rcases lt_trichotomy x y with h | h | h
  · rw [Int.compare_eq_lt.2 (by omega), Nat.compare_eq_lt.2 h]
  · rw [Int.compare_eq_eq.2 (by omega), Nat.compare_eq_eq.2 h]
  · rw [Int.compare_eq_gt.2 (by omega), Nat.compare_eq_gt.2 h]

theorem compare_neg_natCast (x y : Nat) : compare (-(x : Int)) (-y) = (compare x y).swap := by
  rcases lt_trichotomy x y with h | h | h
  · rw [Int.compare_eq_gt.2 (by omega), Nat.compare_eq_lt.2 h]
    rfl
  · rw [Int.compare_eq_eq.2 (by omega), Nat.compare_eq_eq.2 h]
    rfl
  · rw [Int.compare_eq_lt.2 (by omega), Nat.compare_eq_gt.2 h]
    rfl

/-- **Numbers but NaN compare like their ranks.** -/
theorem compare_unpacked (ha : a.isNaN = false) (hb : b.isNaN = false) :
    a.unpacked.compare b.unpacked = some (compare a.rank b.rank) := by
  have hmagnitude := compare_magnitude a b
  have hlt {s s' : Int} (h : s < s') : some Ordering.lt = some (compare s s') :=
    congrArg some (Int.compare_eq_lt.2 h).symm
  have hgt {s s' : Int} (h : s' < s) : some Ordering.gt = some (compare s s') :=
    congrArg some (Int.compare_eq_gt.2 h).symm
  have heq {s s' : Int} (h : s = s') : some Ordering.eq = some (compare s s') :=
    congrArg some (Int.compare_eq_eq.2 h).symm
  rw [rank, rank]
  rcases unpacked_cases ha with ⟨hua, hsize⟩ | ⟨hua, hsize⟩ | ⟨hpos, hua, hsize⟩ <;>
  rcases unpacked_cases hb with ⟨hub, hsize'⟩ | ⟨hub, hsize'⟩ | ⟨hpos', hub, hsize'⟩ <;>
  · rw [hua, hub]
    generalize a.unpackedSign = s, b.unpackedSign = s'
    cases s <;> cases s' <;> simp only [UnpackedFloat.compare, Sign.apply, hmagnitude]
    -- Only finite numbers with one sign are compared by their magnitudes.
    all_goals first
      | exact hlt (by omega)
      | exact hgt (by omega)
      | exact heq (by omega)
      | exact congrArg some (compare_natCast _ _).symm
      | exact congrArg some (compare_neg_natCast _ _).symm

/-! ### Equality and order -/

theorem toFloat_lt_iff : a.toFloat < b.toFloat ↔ a.unpacked.compare b.unpacked = some .lt := by
  rw [← toFloat_unpack, ← toFloat_unpack]
  show decide (a.toFloat.toModel < b.toFloat.toModel) = true ↔ _
  rw [decide_eq_true_iff]
  show (a.toFloat.toModel.unpack.compare b.toFloat.toModel.unpack == some .lt) = true ↔ _
  rw [beq_iff_eq]

theorem toFloat_beq_iff :
    (a.toFloat == b.toFloat) = true ↔ a.unpacked.compare b.unpacked = some .eq := by
  rw [← toFloat_unpack, ← toFloat_unpack]
  show (a.toFloat.toModel.unpack.compare b.toFloat.toModel.unpack == some .eq) = true ↔ _
  rw [beq_iff_eq]

/-- Nothing compares with NaN. -/
theorem compare_isNaN (h : (a.isNaN || b.isNaN) = true) : a.unpacked.compare b.unpacked = none := by
  have hnan {n : Number} (h : n.isNaN = true) : n.unpacked = .notANumber := if_pos h
  rcases Bool.or_eq_true_iff.1 h with ha | hb
  · rw [hnan ha, UnpackedFloat.compare]
  · rw [hnan hb]
    cases a.unpacked <;> rfl

/-- Equality by rank. -/
theorem equal_iff :
    a.equal b = true ↔ a.isNaN = b.isNaN ∧ (a.isNaN = false → a.rank = b.rank) := by
  unfold equal
  cases ha : a.isNaN with
  | true => cases b.isNaN <;> simp
  | false =>
    rw [if_neg (by decide), toFloat_beq_iff]
    cases hb : b.isNaN with
    | true =>
      rw [compare_isNaN (by rw [hb, Bool.or_true])]
      simp
    | false =>
      rw [compare_unpacked ha hb, Option.some.injEq, Int.compare_eq_eq]
      simp

/-- Order by rank. -/
theorem order_eq : a.order b = if a.isNaN || b.isNaN then .eq else compare a.rank b.rank := by
  unfold order
  simp only [toFloat_lt_iff]
  by_cases hnan : (a.isNaN || b.isNaN) = true
  · rw [compare_isNaN hnan, compare_isNaN (by rwa [Bool.or_comm]), if_pos hnan]
    rfl
  · rw [if_neg hnan]
    rw [Bool.not_eq_true, Bool.or_eq_false_iff] at hnan
    obtain ⟨ha, hb⟩ := hnan
    rw [compare_unpacked ha hb, compare_unpacked hb ha]
    rcases lt_trichotomy a.rank b.rank with h | h | h
    · rw [Int.compare_eq_lt.2 h, if_pos rfl]
    · rw [h, Int.compare_eq_eq.2 rfl]
      rfl
    · rw [Int.compare_eq_gt.2 h, Int.compare_eq_lt.2 h]
      rfl

theorem hashBits_eq_iff :
    a.hashBits = b.hashBits ↔ a.isNaN = b.isNaN ∧ (a.isNaN = false → a = b) := by
  have hbits : a.bits = b.bits ↔ a = b := by
    cases a
    cases b
    simp
  unfold hashBits
  cases ha : a.isNaN <;> cases hb : b.isNaN <;> simp [hbits]

theorem isNaN_of_isZero (h : a.isZero = true) : a.isNaN = false := by
  simp only [isZero, Bool.and_eq_true, decide_eq_true_eq] at h
  simp [isNaN, h.1]

/-! ### Laws -/

/-- Numbers have one hash if they are equal and not the two zeros. -/
theorem hashBits_eq_iff_equal : a.hashBits = b.hashBits ↔
    a.equal b = true ∧ ¬ (a.isZero = true ∧ b.isZero = true ∧ a ≠ b) := by
  rw [hashBits_eq_iff, equal_iff, rank_eq_iff]
  constructor
  · rintro ⟨hnan, heq⟩
    refine ⟨⟨hnan, fun h => .inl (heq h)⟩, fun ⟨hzero, _, hne⟩ => ?_⟩
    exact hne (heq (isNaN_of_isZero hzero))
  · rintro ⟨⟨hnan, heq⟩, hne⟩
    refine ⟨hnan, fun h => ?_⟩
    rcases heq h with heq | ⟨ha, hb⟩
    · exact heq
    · exact not_not.1 fun hab => hne ⟨ha, hb, hab⟩

theorem order_eq_eq_iff : a.order b = .eq ↔ a.equal b = true ∨ a.isNaN ≠ b.isNaN := by
  rw [order_eq, equal_iff]
  cases a.isNaN <;> cases b.isNaN <;> simp

theorem order_eq_gt_iff :
    a.order b = .gt ↔ a.isNaN = false ∧ b.isNaN = false ∧ b.rank < a.rank := by
  rw [order_eq]
  cases a.isNaN <;> cases b.isNaN <;> simp [Int.compare_eq_gt]

theorem order_isLE_iff :
    (a.order b).isLE = true ↔ (a.isNaN = false → b.isNaN = false → a.rank ≤ b.rank) := by
  rw [order_eq]
  cases a.isNaN <;> cases b.isNaN <;> simp [Int.isLE_compare]

theorem order_swap (a b : Number) : b.order a = (a.order b).swap := by
  rw [order_eq, order_eq, Bool.or_comm]
  split
  · rfl
  · exact (Int.compare_swap _ _).symm

/-- An order goes through a number between, unless this is a NaN. -/
theorem order_isLE_trans_iff :
    ((a.order b).isLE = true → (b.order c).isLE = true → (a.order c).isLE = true) ↔
      ¬ (b.isNaN = true ∧ a.order c = .gt) := by
  rw [order_isLE_iff, order_isLE_iff, order_isLE_iff, order_eq_gt_iff]
  cases hb : b.isNaN with
  | true => simp
  | false =>
    refine iff_of_true (fun hab hbc ha hc => ?_) (by simp)
    exact (hab ha rfl).trans (hbc rfl hc)

/-- **How far equality, order and hash agree.** Equal numbers have one hash unless they are the two
zeros; the order takes a NaN to be equal to every number, and then does not go through it. -/
theorem comparisons (a b c : Number) :
    (a.hashBits = b.hashBits ↔
      a.equal b = true ∧ ¬ (a.isZero = true ∧ b.isZero = true ∧ a ≠ b)) ∧
    (a.order b = .eq ↔ a.equal b = true ∨ a.isNaN ≠ b.isNaN) ∧
    b.order a = (a.order b).swap ∧
    (((a.order b).isLE = true → (b.order c).isLE = true → (a.order c).isLE = true) ↔
      ¬ (b.isNaN = true ∧ a.order c = .gt)) :=
  ⟨hashBits_eq_iff_equal, order_eq_eq_iff, order_swap a b, order_isLE_trans_iff⟩

end Number

end EcmaScript

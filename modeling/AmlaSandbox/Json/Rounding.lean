import AmlaSandbox.Json.Value

/-!
# Integers as doubles

Rounding to 53 bits keeps the order of integers, but may merge neighbours.
-/

namespace AmlaSandbox.Json

/-! ### Rounding -/

/-- Ties to even: the rounded quotient by one power of two keeps the order. -/
lemma roundedSignificand_mono {m n : ℕ} (hlog : m.log2 - 52 = n.log2 - 52) (h : m ≤ n) :
    roundedSignificand m ≤ roundedSignificand n := by
  simp only [roundedSignificand, hlog]
  generalize n.log2 - 52 = s
  have hq : m / 2 ^ s ≤ n / 2 ^ s := Nat.div_le_div_right h
  rcases hq.lt_or_eq with hlt | heq
  · split_ifs <;> omega
  · have hm := Nat.div_add_mod m (2 ^ s)
    have hn := Nat.div_add_mod n (2 ^ s)
    rw [heq] at hm ⊢
    have hr : m % 2 ^ s ≤ n % 2 ^ s := by omega
    split_ifs <;> omega

lemma two_pow_le_roundedSignificand {n : ℕ} (h : 52 < n.log2) : 2 ^ 52 ≤ roundedSignificand n := by
  have hn : n ≠ 0 := by
    rintro rfl
    simp at h
  have hq : 2 ^ 52 ≤ n / 2 ^ (n.log2 - 52) := by
    rw [Nat.le_div_iff_mul_le (Nat.two_pow_pos _), ← pow_add]
    exact le_trans (Nat.pow_le_pow_right (by decide) (by omega)) (Nat.log2_self_le hn)
  simp only [roundedSignificand]
  split_ifs <;> omega

theorem roundToF64_mono {m n : ℕ} (h : m ≤ n) : roundToF64 m ≤ roundToF64 n := by
  have hlog : m.log2 ≤ n.log2 := by
    rcases Nat.eq_zero_or_pos m with rfl | hm
    · simp
    · exact (Nat.le_log2 (by omega)).mpr (le_trans (Nat.log2_self_le (by omega)) h)
  rw [roundToF64, roundToF64]
  by_cases hs : m.log2 - 52 = n.log2 - 52
  · rw [hs]
    exact Nat.mul_le_mul_right _ (roundedSignificand_mono hs h)
  · -- `m` rounds up at most to the power of two that `n` starts from
    calc
      roundedSignificand m * 2 ^ (m.log2 - 52) ≤ 2 ^ 53 * 2 ^ (m.log2 - 52) :=
        Nat.mul_le_mul_right _ (roundedSignificand_le m)
      _ = 2 ^ (53 + (m.log2 - 52)) := (pow_add 2 53 _).symm
      _ ≤ 2 ^ (52 + (n.log2 - 52)) := Nat.pow_le_pow_right (by decide) (by omega)
      _ = 2 ^ 52 * 2 ^ (n.log2 - 52) := pow_add 2 52 _
      _ ≤ roundedSignificand n * 2 ^ (n.log2 - 52) :=
        Nat.mul_le_mul_right _ (two_pow_le_roundedSignificand (by omega))

/-- Up to 53 bits nothing is rounded. -/
theorem roundToF64_eq_self {n : ℕ} (h : n < 2 ^ 53) : roundToF64 n = n := by
  have hs : n.log2 - 52 = 0 := by
    rcases Nat.eq_zero_or_pos n with rfl | hn
    · simp
    · have := (Nat.log2_lt (by omega)).mpr h
      omega
  rw [roundToF64, roundedSignificand, hs]
  simp [Nat.mod_one]

/-- The value of `k as f64`: the magnitude is rounded and the sign kept. -/
def roundInt (k : ℤ) : ℤ := if 0 ≤ k then roundToF64 k.natAbs else -roundToF64 k.natAbs

theorem roundInt_mono {k l : ℤ} (h : k ≤ l) : roundInt k ≤ roundInt l := by
  simp only [roundInt]
  split_ifs with hk hl hl
  · exact_mod_cast roundToF64_mono (by omega)
  · omega
  · omega
  · have := roundToF64_mono (m := l.natAbs) (n := k.natAbs) (by omega)
    omega

/-! ### Doubles and integers -/

/-- A large double is a multiple of a power of two. -/
lemma IsFinite.two_pow_dvd {j e : ℕ} (h : IsFinite j) (hj : 2 ^ (52 + e) ≤ j) : 2 ^ e ∣ j := by
  obtain ⟨e', -, hdvd, hlt⟩ := h
  rw [Int.natAbs_natCast] at hdvd hlt
  have hle : 52 + e < 53 + e' := (Nat.pow_lt_pow_iff_right (by decide)).mp (hj.trans_lt hlt)
  exact (pow_dvd_pow 2 (by omega)).trans hdvd

lemma roundedSignificand_le_of_le {n c : ℕ} (h : n ≤ c * 2 ^ (n.log2 - 52)) :
    roundedSignificand n ≤ c := by
  have hpos := Nat.two_pow_pos (n.log2 - 52)
  have hmod := Nat.div_add_mod' n (2 ^ (n.log2 - 52))
  simp only [roundedSignificand]
  rcases lt_or_ge (n / 2 ^ (n.log2 - 52)) c with hlt | hge
  · split_ifs <;> omega
  · -- nothing is rounded away
    have hmul := Nat.mul_le_mul_right (2 ^ (n.log2 - 52)) hge
    rw [if_neg (by omega)]
    exact Nat.le_of_mul_le_mul_right (by omega) hpos

lemma le_roundedSignificand (n : ℕ) : n / 2 ^ (n.log2 - 52) ≤ roundedSignificand n := by
  simp only [roundedSignificand]
  split_ifs <;> omega

lemma roundToF64_of_log2_le {n : ℕ} (h : n.log2 ≤ 52) : roundToF64 n = n := by
  rcases Nat.eq_zero_or_pos n with rfl | hn
  · rfl
  · exact roundToF64_eq_self ((Nat.log2_lt (by omega)).mp (by omega))

lemma two_pow_mul_le {n : ℕ} (h : 52 < n.log2) :
    2 ^ (52 + (n.log2 - 52 + ulpExponent)) ≤ n * 2 ^ ulpExponent := by
  have hn : n ≠ 0 := by
    rintro rfl
    simp at h
  rw [← add_assoc, pow_add _ _ ulpExponent]
  apply Nat.mul_le_mul_right
  rw [show 52 + (n.log2 - 52) = n.log2 by omega]
  exact Nat.log2_self_le hn

/-- An integer below a double is not rounded beyond it. -/
lemma roundToF64_mul_le {n j : ℕ} (hj : IsFinite j) (h : n * 2 ^ ulpExponent ≤ j) :
    roundToF64 n * 2 ^ ulpExponent ≤ j := by
  by_cases hs : n.log2 ≤ 52
  · rw [roundToF64_of_log2_le hs]
    exact h
  · obtain ⟨c, rfl⟩ := hj.two_pow_dvd ((two_pow_mul_le (by omega)).trans h)
    rw [pow_add, mul_right_comm] at h
    have hc := Nat.le_of_mul_le_mul_right h (Nat.two_pow_pos _)
    rw [mul_comm] at hc
    rw [roundToF64, mul_assoc, ← pow_add, mul_comm]
    exact Nat.mul_le_mul_left _ (roundedSignificand_le_of_le hc)

/-- An integer above a double is not rounded beyond it. -/
lemma le_roundToF64_mul {n j : ℕ} (hj : IsFinite j) (h : j ≤ n * 2 ^ ulpExponent) :
    j ≤ roundToF64 n * 2 ^ ulpExponent := by
  by_cases hs : n.log2 ≤ 52
  · rw [roundToF64_of_log2_le hs]
    exact h
  · rw [roundToF64, mul_assoc, ← pow_add]
    by_cases hlarge : 2 ^ (52 + (n.log2 - 52 + ulpExponent)) ≤ j
    · obtain ⟨c, rfl⟩ := hj.two_pow_dvd hlarge
      rw [pow_add, mul_right_comm] at h
      have hc := Nat.le_of_mul_le_mul_right h (Nat.two_pow_pos _)
      rw [mul_comm, ← Nat.le_div_iff_mul_le (Nat.two_pow_pos _)] at hc
      rw [mul_comm]
      exact Nat.mul_le_mul_right _ (hc.trans (le_roundedSignificand n))
    · rw [pow_add 2 52] at hlarge
      have hround := two_pow_le_roundedSignificand (n := n) (by omega)
      exact (not_le.mp hlarge).le.trans (Nat.mul_le_mul_right _ hround)

lemma roundInt_neg (k : ℤ) : roundInt (-k) = -roundInt k := by
  rcases lt_trichotomy k 0 with hk | rfl | hk
  · rw [roundInt, roundInt, if_pos (by omega), if_neg (by omega), Int.natAbs_neg, neg_neg]
  · decide
  · rw [roundInt, roundInt, if_neg (by omega), if_pos (by omega), Int.natAbs_neg]

theorem roundInt_mul_le {k u : ℤ} (hu : IsFinite u) (h : k * 2 ^ ulpExponent ≤ u) :
    roundInt k * 2 ^ ulpExponent ≤ u := by
  have hpos : (0 : ℤ) < 2 ^ ulpExponent := Int.pow_pos (by decide)
  rcases Int.eq_nat_or_neg k with ⟨n, rfl | rfl⟩
  · lift u to ℕ using (Int.mul_nonneg (Int.natCast_nonneg n) hpos.le).trans h
    rw [roundInt, if_pos (Int.natCast_nonneg n), Int.natAbs_natCast]
    exact_mod_cast roundToF64_mul_le hu (by exact_mod_cast h)
  · rw [roundInt_neg, roundInt, if_pos (Int.natCast_nonneg n), Int.natAbs_natCast, neg_mul]
    rw [neg_mul] at h
    rcases Int.eq_nat_or_neg u with ⟨j, rfl | rfl⟩
    · have := Int.mul_nonneg (Int.natCast_nonneg (roundToF64 n)) hpos.le
      omega
    · rw [neg_le_neg_iff] at h ⊢
      have hj : IsFinite j := by simpa using isFinite_neg hu
      exact_mod_cast le_roundToF64_mul hj (by exact_mod_cast h)

theorem le_roundInt_mul {k u : ℤ} (hu : IsFinite u) (h : u ≤ k * 2 ^ ulpExponent) :
    u ≤ roundInt k * 2 ^ ulpExponent := by
  have hneg := roundInt_mul_le (isFinite_neg hu) (k := -k) (by rwa [neg_mul, neg_le_neg_iff])
  rwa [roundInt_neg, neg_mul, neg_le_neg_iff] at hneg

/-! ### JSON integers -/

/-- The integers that a JSON number keeps exactly. -/
def InRange (k : ℤ) : Prop := -2 ^ 63 ≤ k ∧ k < 2 ^ 64

instance (k : ℤ) : Decidable (InRange k) := inferInstanceAs (Decidable (_ ∧ _))

/-- The JSON number of an integer in range. -/
def Number.ofInt (k : ℤ) : Number :=
  if 0 ≤ k then .posInt (.ofNat k.toNat) else .negInt (.ofInt k)

lemma Number.ofInt_of_nonneg {k : ℤ} (hk : InRange k) (h : 0 ≤ k) :
    ∃ n : UInt64, Number.ofInt k = .posInt n ∧ (n.toNat : ℤ) = k := by
  refine ⟨.ofNat k.toNat, if_pos h, ?_⟩
  rw [UInt64.toNat_ofNat_of_lt' (by have := hk.2; simp only [UInt64.size]; omega)]
  exact Int.toNat_of_nonneg h

lemma Number.ofInt_of_neg {k : ℤ} (hk : InRange k) (h : ¬ 0 ≤ k) :
    ∃ n : Int64, Number.ofInt k = .negInt n ∧ n.toInt = k := by
  refine ⟨.ofInt k, if_neg h, ?_⟩
  exact Int64.toInt_ofInt_of_le hk.1 (by omega)

lemma Number.ofInt_inj {k l : ℤ} (hk : InRange k) (hl : InRange l) :
    Number.ofInt k = .ofInt l ↔ k = l := by
  constructor
  · intro h
    by_cases hk0 : 0 ≤ k <;> by_cases hl0 : 0 ≤ l
    · obtain ⟨n, hn, rfl⟩ := Number.ofInt_of_nonneg hk hk0
      obtain ⟨m, hm, rfl⟩ := Number.ofInt_of_nonneg hl hl0
      rw [hn, hm] at h
      cases h
      rfl
    · obtain ⟨n, hn, -⟩ := Number.ofInt_of_nonneg hk hk0
      obtain ⟨m, hm, -⟩ := Number.ofInt_of_neg hl hl0
      rw [hn, hm] at h
      cases h
    · obtain ⟨n, hn, -⟩ := Number.ofInt_of_neg hk hk0
      obtain ⟨m, hm, -⟩ := Number.ofInt_of_nonneg hl hl0
      rw [hn, hm] at h
      cases h
    · obtain ⟨n, hn, rfl⟩ := Number.ofInt_of_neg hk hk0
      obtain ⟨m, hm, rfl⟩ := Number.ofInt_of_neg hl hl0
      rw [hn, hm] at h
      cases h
      rfl
  · rintro rfl
    rfl

lemma F64.units_ofU64 (n : UInt64) :
    (F64.ofU64 n).units = (roundToF64 n.toNat * 2 ^ ulpExponent : ℕ) := rfl

lemma F64.units_ofI64_of_neg {n : Int64} (h : ¬ 0 ≤ n.toInt) :
    (F64.ofI64 n).units = -(roundToF64 n.toInt.natAbs * 2 ^ ulpExponent : ℕ) := by
  unfold F64.ofI64
  dsimp only
  rw [if_neg h]

lemma F64.units_ofI64_of_nonneg {n : Int64} (h : 0 ≤ n.toInt) :
    (F64.ofI64 n).units = (roundToF64 n.toInt.natAbs * 2 ^ ulpExponent : ℕ) := by
  unfold F64.ofI64
  dsimp only
  rw [if_pos h]

lemma F64.units_ofI64 (n : Int64) :
    (F64.ofI64 n).units = roundInt n.toInt * 2 ^ ulpExponent := by
  by_cases h : 0 ≤ n.toInt
  · rw [F64.units_ofI64_of_nonneg h, roundInt, if_pos h, Int.natCast_mul, Int.natCast_pow,
      Int.cast_ofNat_Int]
  · rw [F64.units_ofI64_of_neg h, roundInt, if_neg h, Int.neg_mul, Int.natCast_mul,
      Int.natCast_pow, Int.cast_ofNat_Int]

lemma Number.asF64_ofInt {k : ℤ} (hk : InRange k) :
    (Number.ofInt k).asF64.units = roundInt k * 2 ^ ulpExponent := by
  by_cases h : 0 ≤ k
  · obtain ⟨n, hn, rfl⟩ := Number.ofInt_of_nonneg hk h
    rw [hn, roundInt, if_pos h, Int.natAbs_natCast, Number.asF64, F64.units_ofU64,
      Int.natCast_mul, Int.natCast_pow, Int.cast_ofNat_Int]
  · obtain ⟨n, hn, rfl⟩ := Number.ofInt_of_neg hk h
    rw [hn, Number.asF64, F64.units_ofI64]

theorem Number.asF64_ofInt_lt_iff {k l : ℤ} (hk : InRange k) (hl : InRange l) :
    (Number.ofInt k).asF64 < (Number.ofInt l).asF64 ↔ roundInt k < roundInt l := by
  change (Number.ofInt k).asF64.units < (Number.ofInt l).asF64.units ↔ _
  rw [Number.asF64_ofInt hk, Number.asF64_ofInt hl]
  exact Int.mul_lt_mul_right (Int.pow_pos (by decide))

/-! ### JSON numbers -/

/-- The exact value of a number, in units of `2 ^ (-1074)`. -/
def Number.units : Number → ℤ
  | .posInt n => n.toNat * 2 ^ ulpExponent
  | .negInt n => n.toInt * 2 ^ ulpExponent
  | .float x => x.units

/-- A number is not rounded beyond a double. -/
theorem Number.asF64_le {n : Number} {x : F64} (h : n.units ≤ x.units) : n.asF64 ≤ x := by
  change n.asF64.units ≤ x.units
  cases n with
  | posInt n =>
    have hle := roundInt_mul_le x.finite h
    rw [roundInt, if_pos (Int.natCast_nonneg _), Int.natAbs_natCast] at hle
    rw [Number.asF64, F64.units_ofU64]
    exact_mod_cast hle
  | negInt n =>
    rw [Number.asF64, F64.units_ofI64]
    exact roundInt_mul_le x.finite h
  | float y => exact h

theorem Number.le_asF64 {n : Number} {x : F64} (h : x.units ≤ n.units) : x ≤ n.asF64 := by
  change x.units ≤ n.asF64.units
  cases n with
  | posInt n =>
    have hle := le_roundInt_mul x.finite h
    rw [roundInt, if_pos (Int.natCast_nonneg _), Int.natAbs_natCast] at hle
    rw [Number.asF64, F64.units_ofU64]
    exact_mod_cast hle
  | negInt n =>
    rw [Number.asF64, F64.units_ofI64]
    exact le_roundInt_mul x.finite h
  | float y => exact h

end AmlaSandbox.Json

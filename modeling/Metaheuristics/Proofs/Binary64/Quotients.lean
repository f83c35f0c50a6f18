import Metaheuristics.Proofs.Binary64.Monotone

/-!
# Quotients

A quotient of significands is cut off after enough bits, and its remainder tells whether anything is
missing, and whether that is as much as half a unit (`Halves.ofFraction`, `divCore_spec`). So a quotient is
rounded like a product (`approaches_unpacked_div`), and it keeps its sign where it overflows or vanishes
(`zero_le_div`).
-/

namespace Metaheuristics.Binary64

open Float.Model UnpackedFloat

variable {x y : Float}

/-- What the residual bits have to tell of the part that is cut off a number. -/
theorem Halves.ofPart {q : ℕ} {part : ℚ} {half rest : Bool} (nonneg : 0 ≤ part) (small : part < 1)
    (half_iff : half = true ↔ 1 / 2 ≤ part) (rest_iff : rest = true ↔ part ≠ 0 ∧ part ≠ 1 / 2) :
    Halves ⟨q, half, rest⟩ (q + part) := by
  have nothing : half = false ∧ rest = false ↔ part = 0 := by
    rw [← Bool.not_eq_true, ← Bool.not_eq_true, half_iff, rest_iff]
    grind
  have middle : half = true ∧ rest = false ↔ part = 1 / 2 := by
    rw [← Bool.not_eq_true, half_iff, rest_iff]
    grind
  refine ⟨⟨le_add_of_nonneg_right nonneg, by simpa using small, ?_⟩, ?_, ?_⟩
  · rw [nothing, add_eq_left]
  · rw [half_iff, add_le_add_iff_left]
  · rw [middle, add_right_inj]

/-- The remainder of a division tells whether there is anything to the quotient but its whole part, and
on which side of the middle it lies. -/
theorem Halves.ofFraction (m : Nat) {k : Nat} (hk : 0 < k) :
    Halves (.ofMantissaAndAccuracy (m / k) (accuracyOfFraction (m % k) k)) (m / k : ℚ) := by
  have divisor : (0 : ℚ) < k := by exact_mod_cast hk
  have quotient : (m / k : ℚ) = (m / k : ℕ) + (m % k : ℕ) / k := by
    have whole : (m : ℚ) = k * (m / k : ℕ) + (m % k : ℕ) := by
      exact_mod_cast (Nat.div_add_mod m k).symm
    rw [whole, add_div, mul_div_cancel_left₀ _ divisor.ne']
  have remainder := Nat.mod_lt m hk
  rw [quotient]
  generalize m % k = r at remainder ⊢
  have nonneg : (0 : ℚ) ≤ r / k := by positivity
  have small : (r : ℚ) / k < 1 := (div_lt_one divisor).mpr (by exact_mod_cast remainder)
  have zero_iff : r = 0 ↔ (r : ℚ) / k = 0 := by simp [hk.ne']
  have half_le_iff : k ≤ 2 * r ↔ 1 / 2 ≤ (r : ℚ) / k := by
    rw [div_le_div_iff₀ (by norm_num) divisor, one_mul, mul_comm 2]
    exact_mod_cast Iff.rfl
  have half_iff : 2 * r = k ↔ (r : ℚ) / k = 1 / 2 := by
    rw [div_eq_div_iff divisor.ne' (by norm_num), one_mul, mul_comm 2]
    exact_mod_cast Iff.rfl
  have bits {half rest : Bool} (above : half = true ↔ k ≤ 2 * r)
      (off : rest = true ↔ r ≠ 0 ∧ 2 * r ≠ k) : Halves ⟨m / k, half, rest⟩ ((m / k : ℕ) + r / k) :=
    .ofPart nonneg small (above.trans half_le_iff)
      (off.trans (and_congr (not_congr zero_iff) (not_congr half_iff)))
  unfold accuracyOfFraction
  by_cases none : r = 0
  · rw [if_pos none]
    exact bits (iff_of_false Bool.false_ne_true (by omega)) (iff_of_false Bool.false_ne_true (by omega))
  · rw [if_neg none]
    rcases Nat.lt_trichotomy (2 * r) k with below | middle | above
    · rw [Nat.compare_eq_lt.mpr below]
      exact bits (iff_of_false Bool.false_ne_true (by omega)) (iff_of_true rfl (by omega))
    · rw [Nat.compare_eq_eq.mpr middle]
      exact bits (iff_of_true rfl (by omega)) (iff_of_false Bool.false_ne_true (by omega))
    · rw [Nat.compare_eq_gt.mpr above]
      exact bits (iff_of_true rfl (by omega)) (iff_of_true rfl (by omega))

/-- A quotient is computed with enough bits. -/
theorem divCore_spec {m k : Nat} (hm : 0 < m) (hk : 0 < k) (e f : Int) :
    ∃ q t a x, divCore Format.binary64 m e k f = (q, t, a) ∧
      Halves (.ofMantissaAndAccuracy q a) x ∧
      (m * 2 ^ e / (k * 2 ^ f) : ℚ) = x * 2 ^ t ∧ (2 ^ 52 ≤ q ∨ t ≤ -1074) := by
  have target : Format.binary64.targetExponent (totalExponent m e - totalExponent k f) =
      max (m.log2 + 1 + e - (k.log2 + 1 + f) - 53) (-1074) := rfl
  unfold divCore
  rw [target]
  generalize low : min (e - f) (max (m.log2 + 1 + e - (k.log2 + 1 + f) - 53 : Int) (-1074)) = t
  obtain ⟨n, amount⟩ := Int.le.dest (show t ≤ e - f by omega)
  have shift : (e - f - t).toNat = n := by omega
  simp only [shift]
  refine ⟨_, _, _, _, rfl, .ofFraction _ hk, ?_, ?_⟩
  · have exponent : e = f + t + n := by omega
    rw [Nat.shiftLeft_eq, exponent, zpow_add₀ (by norm_num), zpow_add₀ (by norm_num), zpow_natCast]
    push_cast
    field_simp
  · by_cases lowest : t ≤ -1074
    · exact .inr lowest
    · -- the numerator has 53 bits more than the denominator
      refine .inl ((Nat.le_div_iff_mul_le hk).mpr ?_)
      have bits : k.log2 + 53 ≤ m.log2 + n := by omega
      calc 2 ^ 52 * k ≤ 2 ^ 52 * 2 ^ (k.log2 + 1) := Nat.mul_le_mul_left _ Nat.lt_log2_self.le
        _ = 2 ^ (k.log2 + 53) := by rw [← pow_add, Nat.add_comm, Nat.add_assoc]
        _ ≤ 2 ^ (m.log2 + n) := Nat.pow_le_pow_right (by norm_num) bits
        _ = 2 ^ m.log2 * 2 ^ n := pow_add ..
        _ ≤ m * 2 ^ n := Nat.mul_le_mul_right _ (Nat.log2_self_le hm.ne')
        _ = m <<< n := (Nat.shiftLeft_eq m n).symm

theorem signed_div (s t : Sign) (a b : ℚ) : signed (s / t) (a / b) = signed s a / signed t b := by
  cases s <;> cases t
  · exact (neg_div_neg_eq a b).symm
  · exact (neg_div b a).symm
  · exact (div_neg a).symm
  · rfl

/-- The quotient of finite doubles is nearest to the exact quotient. -/
theorem approaches_unpacked_div {u v : UnpackedFloat} (finite_u : u.isFinite)
    (finite_v : v.isFinite) (nonzero : value v ≠ 0) : Approaches (value u / value v)
      (place (Float.Model.pack (UnpackedFloat.div Format.binary64 u v)).unpack) := by
  rcases isFinite_cases finite_v with ⟨t, rfl⟩ | ⟨t, k, f, hk, rfl⟩
  · exact absurd rfl nonzero
  · rcases isFinite_cases finite_u with ⟨s, rfl⟩ | ⟨s, m, e, hm, rfl⟩
    · rw [show value (.zero s) = 0 from rfl, div_eq_mul_inv, zero_mul]
      show Approaches 0 (place (Float.Model.pack (.zero (s / t))).unpack)
      rw [unpack_pack (u := .zero (s / t)) trivial]
      exact .zero
    · obtain ⟨q, w, a, x, core, halves, same, enough⟩ := divCore_spec hm hk e f
      have whole : value (.finite s m e hm) / value (.finite t k f hk) =
          signed (s / t) (x * 2 ^ w) := by
        rw [← same, signed_div]
        rfl
      rw [whole, UnpackedFloat.div, core]
      exact approaches_roundWithAccuracy (s / t) halves enough

theorem isNaN_unpacked_div {u v : UnpackedFloat} (finite_u : u.isFinite) (finite_v : v.isFinite)
    (nonzero : value v ≠ 0) : (UnpackedFloat.div Format.binary64 u v).isNaN = false := by
  rcases isFinite_cases finite_v with ⟨t, rfl⟩ | ⟨t, k, f, hk, rfl⟩
  · exact absurd rfl nonzero
  · rcases isFinite_cases finite_u with ⟨s, rfl⟩ | ⟨s, m, e, hm, rfl⟩
    · rfl
    · exact isNaN_roundWithAccuracy ..

theorem div_infinity (finite : x.isFinite) : rank (x / infinity) = 0 ∧ ¬(x / infinity).isNaN := by
  have quotient : x / infinity = Float.ofModel (Float.Model.pack (UnpackedFloat.div Format.binary64
      x.toModel.unpack infinity.toModel.unpack)) := rfl
  have zero (s : Sign) : rank (Float.ofModel (Float.Model.pack (.zero s))) = 0 ∧
      ¬(Float.ofModel (Float.Model.pack (.zero s))).isNaN := by
    cases s <;> decide
  rw [quotient]
  rcases isFinite_cases finite with ⟨s, shape⟩ | ⟨s, m, e, hm, shape⟩
  · rw [shape]
    exact zero _
  · rw [shape]
    exact zero _

/-- The quotient of finite doubles is nearest to the exact quotient. -/
theorem approaches_div (finite_x : x.isFinite) (finite_y : y.isFinite) (nonzero : toRat y ≠ 0) :
    Approaches (toRat x / toRat y) (rank (x / y)) :=
  approaches_unpacked_div finite_x finite_y nonzero

/-- The quotient of finite doubles is next to the exact quotient. -/
theorem rounds_div (finite_x : x.isFinite) (finite_y : y.isFinite) (nonzero : toRat y ≠ 0) :
    Rounds (toRat x / toRat y) (rank (x / y)) :=
  (approaches_div finite_x finite_y nonzero).rounds

theorem not_isNaN_div (finite_x : x.isFinite) (finite_y : y.isFinite) (nonzero : toRat y ≠ 0) :
    ¬(x / y).isNaN :=
  Bool.eq_false_iff.mp (isNaN_unpack_pack (isNaN_unpacked_div finite_x finite_y nonzero))

/-- A number that is not negative, divided by a positive one, is not negative, even where the quotient
overflows or vanishes. -/
theorem zero_le_div (nonneg : 0.0 ≤ x) (finite : x.isFinite) (positive : 0.0 < y) :
    0.0 ≤ x / y := by
  rcases isFinite_or_eq_infinity (le_of_lt positive) with finite_y | rfl
  · have divisor := toRat_pos finite_y positive
    refine le_iff.mpr ⟨by decide, not_isNaN_div finite finite_y divisor.ne', ?_⟩
    refine (rounds_div finite finite_y divisor.ne').nonneg ?_
    exact div_nonneg (toRat_nonneg finite nonneg) divisor.le
  · obtain ⟨zero, number⟩ := div_infinity finite
    exact le_iff.mpr ⟨by decide, number, zero.ge⟩

end Metaheuristics.Binary64

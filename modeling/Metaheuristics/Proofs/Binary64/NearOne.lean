import Metaheuristics.Proofs.Binary64.Differences
import Metaheuristics.Proofs.Binary64.Nonnegative

/-!
# Fractions close to one

Taking a positive number from one leaves one, unless the number is larger than a quarter of the gap above
one (`one_sub_negligible`, `one_sub_le`). What is left then is at most the largest double below one, and
the product of a number with that is the double just before the number (`rank_mul_belowOne`): the exact
product is less than half of a gap away from it. So a number of normal size becomes smaller with any
fraction but one itself (`mul_lt`).
-/

namespace Metaheuristics.Binary64

open Float.Model UnpackedFloat

variable {x y : Float}

/-- A quarter of the gap between 1 and the next double, two to the power -54. It is the largest number
that makes no difference if it is taken from 1. -/
def negligible : Float := Float.ofBits 0x3c90000000000000

/-- The largest double below 1. -/
def belowOne : Float := Float.ofBits 0x3fefffffffffffff

theorem toRat_belowOne : toRat belowOne = 1 - 1 / 2 ^ 53 := by
  show ((2 ^ 53 - 1 : ℕ) : ℚ) * 2 ^ (-53 : ℤ) = _
  norm_num

/-! ## What is left of one -/

theorem one_sub_negligible (nonneg : 0.0 ≤ x) (small : x ≤ negligible) : 1.0 - x = 1.0 := by
  have finite : x.isFinite := isFinite_of_le nonneg small (by decide)
  have kept : 1.0 - negligible = 1.0 := by decide
  have lower := sub_antitone (x := 1.0) (by decide) small
  rw [kept] at lower
  have upper : 1.0 - x ≤ 1.0 := sub_le (by decide) finite nonneg
  exact (eq_of_le_of_le (by decide) lower upper).symm

theorem one_sub_le (more : negligible < x) : 1.0 - x ≤ belowOne := by
  -- the double after the negligible one is the first that makes a difference
  have next : Float.ofBits 0x3c90000000000001 ≤ x := by
    obtain ⟨-, number, less⟩ := lt_iff.mp more
    have place : rank (Float.ofBits 0x3c90000000000001) = rank negligible + 1 := by decide
    exact le_iff.mpr ⟨by decide, number, by omega⟩
  have first : 1.0 - Float.ofBits 0x3c90000000000001 = belowOne := by decide
  rw [← first]
  exact sub_antitone (by decide) next

/-! ## Products with a fraction -/

theorem times_one (positive : 0.0 < x) : x * 1.0 = x := by
  rcases isFinite_or_eq_infinity (le_of_lt positive) with finite | rfl
  · have same := (rounds_mul finite (y := 1.0) (by decide)).eq_rank finite (by rw [toRat_one, mul_one])
    have nonzero : rank x ≠ 0 := (zero_lt_iff.mp positive).ne'
    exact (eq_of_rank_eq nonzero same.symm).symm
  · exact infinity_mul (by decide) (by decide)

theorem exists_of_rank_pos (finite : x.isFinite) (positive : 0 < rank x) :
    ∃ m e hm, x.toModel.unpack = .finite .positive m e hm := by
  have canonical := canonical_unpack x.toModel
  rcases isFinite_cases finite with ⟨s, shape⟩ | ⟨s, m, e, hm, shape⟩
  · rw [rank, shape] at positive
    exact absurd positive (Int.lt_irrefl 0)
  · rw [shape] at canonical
    rw [rank, shape] at positive
    rw [sign_of_nonneg canonical positive.le] at shape
    exact ⟨m, e, hm, shape⟩

/-- A double of normal size, less the last part of its significand, is nearest to the double before it. -/
theorem nearest_before {m : Nat} {e : Int} {hm : 0 < m}
    (canonical : Canonical (.finite .positive m e hm)) (normal : 2 ^ 52 < steps m e) :
    Nearest (m * 2 ^ e * (1 - 1 / 2 ^ 53)) (steps m e - 1) := by
  have bound := steps_lt canonical
  simp only [Canonical] at canonical
  simp only [steps] at normal bound ⊢
  obtain ⟨bits, low, inner, full⟩ := canonical
  have large : 2 ^ 52 ≤ m := by omega
  rcases Nat.eq_or_lt_of_le large with rfl | more
  · -- the smallest significand: the number is the largest one at the exponent before
    have before : Canonical (.finite .positive (2 ^ 53 - 1) (e - 1) (by norm_num)) := by
      simp only [Canonical]
      omega
    have near := Nearest.ofFinite before
    have same : ((2 ^ 52 : ℕ) : ℚ) * 2 ^ e * (1 - 1 / 2 ^ 53) = ((2 ^ 53 - 1 : ℕ) : ℚ) * 2 ^ (e - 1) := by
      rw [zpow_sub_one₀ (by norm_num)]
      push_cast
      ring
    rw [same]
    convert near using 1
    simp only [steps]
    omega
  · have above : ((m - 1 : ℕ) : ℚ) = m - 1 := by
      rw [Nat.cast_sub hm, Nat.cast_one]
    have few : (m : ℚ) < 2 ^ 53 := by exact_mod_cast bits
    have many : (2 : ℚ) ^ 52 < m := by exact_mod_cast more
    have filled : (2 : ℚ) ^ 52 ≤ (m - 1 : ℕ) := by exact_mod_cast Nat.le_sub_one_of_lt more
    have rounded : nearestEven (m - m / 2 ^ 53) = m - 1 := by
      refine nearestEven_of_lt ?_ ?_
      · rw [above]
        linarith
      · rw [above]
        linarith
    refine ⟨m - m / 2 ^ 53, e, by ring, low, by linarith, .inr ?_, ?_⟩
    · linarith
    · rw [rounded]
      simp only [steps]
      omega

/-- The product of a number of normal size with the fraction next to one is the double before it. -/
theorem rank_mul_belowOne (finite : x.isFinite) (normal : 2 ^ 52 < rank x) :
    rank (x * belowOne) = rank x - 1 := by
  have product := approaches_mul finite (y := belowOne) (by decide)
  obtain ⟨m, e, hm, shape⟩ := exists_of_rank_pos finite (by omega)
  have canonical := canonical_unpack x.toModel
  have number : toRat x = m * 2 ^ e := by
    rw [toRat, shape]
    rfl
  have place : rank x = steps m e := by
    rw [rank, shape]
    rfl
  rw [shape] at canonical
  rw [place] at normal ⊢
  rw [number, toRat_belowOne] at product
  refine product.unique (.inl ⟨mul_nonneg (by positivity) (by norm_num), ?_⟩)
  exact nearest_before canonical normal

/-- Every fraction but one itself makes a number of normal size smaller. -/
theorem mul_lt (finite : x.isFinite) (normal : minNormal < x) (nonneg : 0.0 ≤ y) (part : y ≤ belowOne) :
    x * y < x := by
  have above : 2 ^ 52 < rank x := (lt_iff.mp normal).2.2
  have nonneg_x : 0.0 ≤ x := le_trans (by decide) (le_of_lt normal)
  have finite_y := isFinite_of_le nonneg part (by decide)
  have product : rank (x * y) ≤ rank (x * belowOne) := by
    refine (approaches_mul finite finite_y).mono (approaches_mul finite (by decide)) ?_
    have := toRat_le_of_le finite_y (by decide) part
    have := toRat_nonneg finite nonneg_x
    gcongr
  rw [rank_mul_belowOne finite above] at product
  exact lt_iff.mpr ⟨not_isNaN_mul finite finite_y, not_isNaN_of_isFinite finite, by omega⟩

end Metaheuristics.Binary64

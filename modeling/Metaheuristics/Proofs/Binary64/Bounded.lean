import Metaheuristics.Proofs.Binary64.Monotone
import Metaheuristics.Proofs.Binary64.Nonnegative

/-!
# Doubles of a bounded size

Collected here:

* what a number between minus one and one makes of another number is between that number and its negative
  (`unit_mul_mem`), and no square is negative (`zero_le_square`);
* the distance between a number and its negative is not rounded (`toRat_sub_neg`), since twice a double is
  a double (`exists_twice`);
* sums of doubles stay within the sums of their bounds as long as these are whole numbers of at most 53
  bits in units of a power of two (`Bounded.add`), since rounding does not pass a number that is itself a
  double.
-/

namespace Metaheuristics.Binary64

open Float.Model UnpackedFloat

variable {x y : Float} {e j k : Nat}

/-- A double between a finite one and its negative is finite. -/
theorem isFinite_of_mem (above : -y ≤ x) (below : x ≤ y) (finite : y.isFinite) : x.isFinite := by
  obtain ⟨-, number, lower⟩ := le_iff.mp above
  have upper := (le_iff.mp below).2.2
  have inner := rank_lt_of_isFinite finite
  rw [rank_neg] at lower
  exact isFinite_of_rank_mem number (by omega) (by omega)

/-- A number between minus one and one, times a number, lies between the number and its negative. -/
theorem unit_mul_mem (above : -1.0 ≤ x) (below : x ≤ 1.0) (nonneg : 0.0 ≤ y) (finite : y.isFinite) :
    -y ≤ x * y ∧ x * y ≤ y := by
  have finite_x := isFinite_of_mem above below (by decide)
  have finite_neg : (-y).isFinite := (isFinite_negated y).trans finite
  have lower := toRat_le_of_le (by decide) finite_x above
  have upper := toRat_le_of_le finite_x (by decide) below
  rw [toRat_neg, toRat_one] at lower
  rw [toRat_one] at upper
  have size := toRat_nonneg finite nonneg
  constructor
  · refine le_iff.mpr ⟨not_isNaN_of_isFinite finite_neg, not_isNaN_mul finite_x finite, ?_⟩
    refine (rounds_mul finite_x finite).above _ (canonical_unpack _) finite_neg ?_
    show toRat (-y) ≤ toRat x * toRat y
    rw [toRat_neg, ← neg_one_mul]
    exact mul_le_mul_of_nonneg_right lower size
  · exact mul_le_of_toRat_le finite_x finite finite (mul_le_of_le_one_left size upper)

/-- The square of a number is not negative, be it infinite. -/
theorem zero_le_square (number : ¬x.isNaN) : 0.0 ≤ x * x := by
  rcases isFinite_or_infinite number with finite | ⟨s, shape⟩
  · refine le_iff.mpr ⟨by decide, not_isNaN_mul finite finite, ?_⟩
    exact (rounds_mul finite finite).nonneg (mul_self_nonneg _)
  · show 0.0 ≤ Float.ofModel (Float.Model.pack
      (UnpackedFloat.mul Format.binary64 x.toModel.unpack x.toModel.unpack))
    rw [shape]
    cases s <;> decide

/-- Twice a double is a double, unless it is too large. -/
theorem exists_twice (finite : x.isFinite) (nonneg : 0.0 ≤ x) (small : 2 * toRat x < limit) :
    ∃ z : Float, z.isFinite ∧ toRat z = 2 * toRat x := by
  have canonical := canonical_unpack x.toModel
  have above : 0 ≤ place x.toModel.unpack := (le_iff.mp nonneg).2.2
  rw [toRat] at small ⊢
  rcases isFinite_cases finite with ⟨s, shape⟩ | ⟨s, m, e, hm, shape⟩
  · rw [shape]
    exact ⟨0.0, by decide, (mul_zero 2).symm⟩
  · rw [shape] at canonical above small ⊢
    obtain rfl := sign_of_nonneg canonical above
    simp only [Canonical] at canonical
    change 2 * ((m : ℚ) * 2 ^ e) < limit at small
    by_cases full : 2 ^ 52 ≤ m
    · -- the exponent can grow by one, since it is not the largest one
      have inner : e < 971 := by
        by_contra last
        obtain rfl : e = 971 := by omega
        have large : (2 : ℚ) ^ 52 ≤ m := by exact_mod_cast full
        refine absurd small (not_lt.mpr ?_)
        unfold limit
        calc (2 : ℚ) ^ 53 * 2 ^ (971 : ℤ) = 2 * (2 ^ 52 * 2 ^ (971 : ℤ)) := by
              rw [← mul_assoc]
              norm_num
          _ ≤ 2 * ((m : ℚ) * 2 ^ (971 : ℤ)) := by gcongr
      obtain ⟨z, finite_z, same⟩ := exists_of_canonical
        (show Canonical (.finite .positive m (e + 1) hm) by simp only [Canonical]; omega) rfl
      refine ⟨z, finite_z, same.trans ?_⟩
      show (m : ℚ) * 2 ^ (e + 1) = 2 * (m * 2 ^ e)
      rw [zpow_add_one₀ (by norm_num)]
      ring
    · obtain ⟨z, finite_z, same⟩ := exists_of_canonical
        (show Canonical (.finite .positive (2 * m) e (by omega)) by simp only [Canonical]; omega) rfl
      refine ⟨z, finite_z, same.trans ?_⟩
      show ((2 * m : ℕ) : ℚ) * 2 ^ e = 2 * (m * 2 ^ e)
      push_cast
      ring

/-- The distance between a number and its negative is exactly twice the number, if it is finite. -/
theorem toRat_sub_neg (finite : x.isFinite) (nonneg : 0.0 ≤ x) (distance : (x - -x).isFinite) :
    toRat (x - -x) = 2 * toRat x := by
  have sum := rounds_sub finite ((isFinite_negated x).trans finite)
  rw [toRat_neg, sub_neg_eq_add, ← two_mul] at sum
  have small : 2 * toRat x < limit := by
    by_contra large
    have top := sum.top (not_lt.mp large)
    have := rank_lt_of_isFinite distance
    omega
  obtain ⟨z, finite_z, same⟩ := exists_twice finite nonneg small
  exact (toRat_congr distance finite_z (sum.eq_rank finite_z same)).trans same

/-- A finite double whose size is at most a whole number of units, each a power of two. -/
def Bounded (e k : Nat) (x : Float) : Prop := x.isFinite ∧ |toRat x| ≤ k * 2 ^ e

namespace Bounded

/-- What lies between a double and its negative is bounded like the double. -/
theorem of_mem (above : -y ≤ x) (below : x ≤ y) (h : Bounded e k y) : Bounded e k x := by
  obtain ⟨finite, size⟩ := h
  have finite_x := isFinite_of_mem above below finite
  have lower := toRat_le_of_le ((isFinite_negated y).trans finite) finite_x above
  have upper := toRat_le_of_le finite_x finite below
  rw [toRat_neg] at lower
  exact ⟨finite_x, (abs_le.mpr ⟨lower, upper⟩).trans ((le_abs_self _).trans size)⟩

theorem of_le (nonneg : 0.0 ≤ x) (le : x ≤ y) (h : Bounded e k y) : Bounded e k x := by
  have finite := isFinite_of_le nonneg le h.1
  refine ⟨finite, ?_⟩
  rw [abs_of_nonneg (toRat_nonneg finite nonneg)]
  exact (toRat_le_of_le finite h.1 le).trans ((le_abs_self _).trans h.2)

theorem mono (h : Bounded e j x) (le : j ≤ k) : Bounded e k x := by
  refine ⟨h.1, h.2.trans ?_⟩
  gcongr

/-- The size of a sum is at most the sum of the sizes, also when it is rounded. -/
theorem add (hx : Bounded e j x) (hy : Bounded e k y) (bits : j + k < 2 ^ 53) (inner : e ≤ 971) :
    Bounded e (j + k) (x + y) := by
  obtain ⟨finite_x, size_x⟩ := hx
  obtain ⟨finite_y, size_y⟩ := hy
  obtain ⟨z, finite_z, whole⟩ := exists_whole bits inner
  have finite_neg : (-z).isFinite := (isFinite_negated z).trans finite_z
  have sum := rounds_add finite_x finite_y
  have size : |toRat x + toRat y| ≤ toRat z := by
    rw [whole, Nat.cast_add, add_mul]
    exact (abs_add_le _ _).trans (add_le_add size_x size_y)
  obtain ⟨lower, upper⟩ := abs_le.mp size
  have number := not_isNaN_add (not_isNaN_of_isFinite finite_x) finite_y
  have above : -z ≤ x + y := by
    refine le_iff.mpr ⟨not_isNaN_of_isFinite finite_neg, number, ?_⟩
    refine sum.above _ (canonical_unpack _) finite_neg ?_
    show toRat (-z) ≤ toRat x + toRat y
    rw [toRat_neg]
    exact lower
  have below : x + y ≤ z :=
    le_iff.mpr ⟨number, not_isNaN_of_isFinite finite_z,
      sum.below _ (canonical_unpack _) finite_z upper⟩
  refine of_mem above below ⟨finite_z, ?_⟩
  rw [whole, abs_of_nonneg (by positivity)]

end Bounded

end Metaheuristics.Binary64

import Mathlib.Data.List.Forall2
import Metaheuristics.Proofs.Binary64.Nonnegative

/-!
# Sums of many doubles

Doubles are added from the left, and every partial sum is rounded. Collected here:

* two finite doubles have an infinite sum exactly when their exact sum is one that is rounded to infinity
  (`add_eq_infinity_iff`);
* a sum of doubles that are not negative is at least each of them (`le_foldl_add`), and it is infinite
  exactly when it overflows on the way (`foldl_add_eq_infinity_iff`);
* it grows with each of them (`foldl_add_mono`);
* the sum of equal doubles (`addedUp`), and that ones are counted exactly as long as their number has no
  more than 53 bits, the first number of 54 bits included (`toRat_addedUp_one`).
-/

namespace Metaheuristics.Binary64

open Float.Model UnpackedFloat

variable {x y : Float} {xs ys : List Float}

/-! ## Overflow -/

theorem eq_infinity_iff_rank : x = infinity ↔ rank x = 2047 * 2 ^ 52 := by
  have top : rank infinity = 2047 * 2 ^ 52 := by decide
  constructor
  · rintro rfl
    exact top
  · intro same
    exact eq_of_rank_eq (by omega) (same.trans top.symm)

/-- The sum of finite doubles is infinite exactly when the exact sum reaches the middle. -/
theorem add_eq_infinity_iff (finite_x : x.isFinite) (finite_y : y.isFinite) :
    x + y = infinity ↔ overflow ≤ toRat x + toRat y :=
  eq_infinity_iff_rank.trans (approaches_add finite_x finite_y).eq_top_iff

/-! ## Bounds -/

/-- A sum of numbers that are not negative is at least the one that it begins with, and each of the
others. -/
theorem le_foldl_add (nonneg : 0.0 ≤ x) (others : ∀ y ∈ ys, 0.0 ≤ y) :
    x ≤ ys.foldl (· + ·) x ∧ ∀ y ∈ ys, y ≤ ys.foldl (· + ·) x := by
  induction ys generalizing x with
  | nil => exact ⟨le_refl (le_iff.mp nonneg).2.1, nofun⟩
  | cons y ys ih =>
      obtain ⟨first, later⟩ := List.forall_mem_cons.mp others
      obtain ⟨left, right⟩ := le_add nonneg first
      obtain ⟨further, bound⟩ := ih (le_trans nonneg left) later
      exact ⟨le_trans left further, List.forall_mem_cons.mpr ⟨le_trans right further, bound⟩⟩

/-- A sum of numbers that are not negative grows with each of them. -/
theorem foldl_add_mono (start : x ≤ y) (nonneg : 0.0 ≤ x)
    (larger : List.Forall₂ (fun a b => 0.0 ≤ a ∧ a ≤ b) xs ys) :
    xs.foldl (· + ·) x ≤ ys.foldl (· + ·) y := by
  induction larger generalizing x y with
  | nil => exact start
  | cons first _ ih =>
      obtain ⟨nonneg_first, le⟩ := first
      refine ih (add_mono nonneg nonneg_first start le) ?_
      exact le_trans nonneg (le_add nonneg nonneg_first).1

/-- A sum overflows on the way: a partial sum that is still finite is, together with the next number, too
large for a finite double. -/
def SumOverflows (x : Float) (ys : List Float) : Prop :=
  ∃ before y after, ys = before ++ y :: after ∧ (before.foldl (· + ·) x).isFinite ∧
    overflow ≤ toRat (before.foldl (· + ·) x) + toRat y

/-- A sum of finite numbers that are not negative is infinite exactly when it overflows on the way. -/
theorem foldl_add_eq_infinity_iff (nonneg : 0.0 ≤ x) (finite : x.isFinite)
    (others : ∀ y ∈ ys, 0.0 ≤ y ∧ y.isFinite) :
    ys.foldl (· + ·) x = infinity ↔ SumOverflows x ys := by
  induction ys generalizing x with
  | nil =>
      refine iff_of_false ?_ ?_
      · rintro rfl
        exact absurd finite (by decide)
      · rintro ⟨before, y, after, split, -⟩
        exact absurd split.symm (by simp)
  | cons y ys ih =>
      obtain ⟨⟨nonneg_y, finite_y⟩, later⟩ := List.forall_mem_cons.mp others
      have sum := add_eq_infinity_iff finite finite_y
      have nonneg_sum := le_trans nonneg (le_add nonneg nonneg_y).1
      rw [List.foldl_cons]
      rcases isFinite_or_eq_infinity nonneg_sum with below | top
      · rw [ih nonneg_sum below later]
        constructor
        · rintro ⟨before, z, after, rfl, still, far⟩
          exact ⟨y :: before, z, after, rfl, still, far⟩
        · rintro ⟨before, z, after, split, still, far⟩
          cases before with
          | nil =>
              obtain ⟨rfl, rfl⟩ := List.cons.inj split
              rw [sum.mpr far] at below
              exact absurd below (by decide)
          | cons first before =>
              obtain ⟨rfl, rfl⟩ := List.cons.inj split
              exact ⟨before, z, after, rfl, still, far⟩
      · -- the sum stays infinite from here on
        have above := (le_foldl_add nonneg_sum fun z member => (later z member).1).1
        rw [top] at above ⊢
        exact iff_of_true (eq_infinity_of_le above) ⟨[], y, ys, rfl, finite, sum.mp top⟩

/-! ## Equal doubles -/

/-- What is rounded to a number is this number, if it is a double. -/
theorem Rounds.exact {q : ℚ} {z : Float} (h : Rounds q (rank x)) (number : ¬x.isNaN)
    (finite : z.isFinite) (same : toRat z = q) : x.isFinite ∧ toRat x = q := by
  have equal := h.eq_rank finite same
  have upper := rank_lt_of_isFinite finite
  have lower := rank_lt_of_isFinite ((isFinite_negated z).trans finite)
  rw [rank_neg] at lower
  have finite_x : x.isFinite := isFinite_of_rank_mem number (by omega) (by omega)
  exact ⟨finite_x, (toRat_congr finite_x finite equal).trans same⟩

/-- Natural numbers of no more than 53 bits are doubles, and so is the first one of 54 bits. -/
theorem exists_count {k : ℕ} (bits : k ≤ 2 ^ 53) : ∃ z : Float, z.isFinite ∧ toRat z = k := by
  rcases Nat.lt_or_eq_of_le bits with fewer | rfl
  · obtain ⟨z, finite, whole⟩ := exists_whole (e := 0) fewer (Nat.zero_le _)
    rw [pow_zero, mul_one] at whole
    exact ⟨z, finite, whole⟩
  · obtain ⟨z, finite, whole⟩ := exists_of_canonical
      (show Canonical (.finite .positive (2 ^ 52) 1 (by norm_num)) by simp [Canonical]) rfl
    refine ⟨z, finite, whole.trans ?_⟩
    show ((2 ^ 52 : ℕ) : ℚ) * 2 ^ (1 : ℤ) = (2 ^ 53 : ℕ)
    norm_num

/-- A double added up a number of times, from the left. -/
def addedUp (x : Float) : Nat → Float
  | 0 => 0.0
  | times + 1 => addedUp x times + x

theorem zeros_add (positive : 0.0 < x) : 0.0 + x = x ∧ -0.0 + x = x := by
  have above := zero_lt_iff.mp positive
  have packed := pack_unpack x.toModel
  have sums {u : UnpackedFloat} (s : Sign) (some_place : 0 < place u) :
      UnpackedFloat.add Format.binary64 (.zero s) u = u := by
    cases u with
    | notANumber => rfl
    | infinity t => rfl
    | zero t => exact absurd some_place (Int.lt_irrefl 0)
    | finite t m e hm => rfl
  constructor
  · show Float.ofModel (Float.Model.pack (UnpackedFloat.add Format.binary64 (.zero .positive)
      x.toModel.unpack)) = x
    rw [sums .positive above, packed]
  · show Float.ofModel (Float.Model.pack (UnpackedFloat.add Format.binary64 (.zero .negative)
      x.toModel.unpack)) = x
    rw [sums .negative above, packed]

/-- It makes no difference from which zero a positive double is added up. -/
theorem foldl_replicate (positive : 0.0 < x) (times : Nat) :
    (List.replicate (times + 1) x).foldl (· + ·) (-0.0) = addedUp x (times + 1) := by
  induction times with
  | zero => exact (zeros_add positive).2.trans (zeros_add positive).1.symm
  | succ times ih =>
      rw [List.replicate_succ', List.foldl_append, ih]
      rfl

/-- Ones are counted exactly, as long as their number is a double. -/
theorem toRat_addedUp_one {k : Nat} (bits : k ≤ 2 ^ 53) :
    (addedUp 1.0 k).isFinite ∧ toRat (addedUp 1.0 k) = k := by
  induction k with
  | zero => exact ⟨by decide, Nat.cast_zero.symm⟩
  | succ k ih =>
      obtain ⟨finite, count⟩ := ih (by omega)
      obtain ⟨z, finite_z, whole⟩ := exists_count bits
      have sum := rounds_add (y := 1.0) finite (by decide)
      rw [count, toRat_one, ← Nat.cast_succ] at sum
      exact sum.exact (not_isNaN_add (not_isNaN_of_isFinite finite) (by decide)) finite_z whole

end Metaheuristics.Binary64

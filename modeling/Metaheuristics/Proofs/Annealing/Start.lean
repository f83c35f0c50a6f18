import Metaheuristics.Proofs.Annealing.Journal

/-!
# Where a run can start

The start of a run is drawn between minus and plus the initial range, and a number can be drawn between
two bounds if their distance is finite. That distance is twice the initial range. Collected here:

* twice a finite double is finite if and only if the double is below two to the power 1023
  (`isFinite_sub_neg_iff`);
* so the start can be drawn exactly for the initial ranges below that limit, and not for every valid one
  (`Config.Valid.sampleable_iff`);
* nothing else keeps a run from ending with a result (`run_ends_unless_too_wide`);
* a search that is valid and fails (`wide_fails`).
-/

namespace Metaheuristics.Annealing

open Binary64

/-- The first double whose double overflows, two to the power 1023. -/
def rangeLimit : Float := Float.ofBits 0x7fe0000000000000

theorem two_mul_toRat_rangeLimit : 2 * toRat rangeLimit = limit := by
  show (2 : ℚ) * ((2 ^ 52 : ℕ) * 2 ^ (971 : ℤ)) = 2 ^ 53 * 2 ^ (971 : ℤ)
  rw [← mul_assoc]
  norm_num

variable {x : Float}

/-- Before the limit, twice a double is at most the largest finite one. -/
theorem two_mul_toRat_le (finite : x.isFinite) (below : x < rangeLimit) :
    2 * toRat x ≤ toRat (Float.ofBits 0x7fefffffffffffff) := by
  have last : rank rangeLimit = rank (Float.ofBits 0x7fdfffffffffffff) + 1 := by decide
  have before : x ≤ Float.ofBits 0x7fdfffffffffffff := by
    have less := (lt_iff.mp below).2.2
    exact le_iff.mpr ⟨not_isNaN_of_isFinite finite, by decide, by omega⟩
  have bound := toRat_le_of_le finite (by decide) before
  have twice : 2 * toRat (Float.ofBits 0x7fdfffffffffffff) =
      toRat (Float.ofBits 0x7fefffffffffffff) := by
    show (2 : ℚ) * ((2 ^ 53 - 1 : ℕ) * 2 ^ (970 : ℤ)) = (2 ^ 53 - 1 : ℕ) * 2 ^ (970 + 1 : ℤ)
    rw [zpow_add_one₀ (by norm_num)]
    ring
  linarith

/-- The distance between a number and its negative is finite as long as it is less than the limit. -/
theorem isFinite_sub_neg_iff (nonneg : 0.0 ≤ x) (finite : x.isFinite) :
    (x - -x).isFinite ↔ x < rangeLimit := by
  have finite_neg : (-x).isFinite := (isFinite_negated x).trans finite
  have distance := rounds_sub finite finite_neg
  rw [toRat_neg, sub_neg_eq_add, ← two_mul] at distance
  constructor
  · intro sum
    refine Decidable.by_contra fun above => ?_
    have large : rangeLimit ≤ x := le_of_not_lt (not_isNaN_of_isFinite finite) (by decide) above
    have bound := toRat_le_of_le (by decide) finite large
    have top : rank (x - -x) = 2047 * 2 ^ 52 := by
      refine distance.top ?_
      rw [← two_mul_toRat_rangeLimit]
      linarith
    have := rank_lt_of_isFinite sum
    omega
  · intro below
    have number : ¬(x - -x).isNaN := by
      rw [sub_eq_add]
      exact not_isNaN_add (not_isNaN_of_isFinite finite) ((isFinite_negated (-x)).trans finite_neg)
    have positive : 0 ≤ rank (x - -x) := by
      refine distance.nonneg ?_
      have := toRat_nonneg finite nonneg
      linarith
    have largest : rank (x - -x) ≤ rank (Float.ofBits 0x7fefffffffffffff) :=
      distance.below _ (canonical_unpack _) (by decide) (two_mul_toRat_le finite below)
    have inner : rank (Float.ofBits 0x7fefffffffffffff) < 2047 * 2 ^ 52 := by decide
    exact isFinite_of_rank_lt number positive (by omega)

theorem neg_lt_self (positive : 0.0 < x) (finite : x.isFinite) : -x < x := by
  have zero : rank 0.0 = 0 := by decide
  have above : rank 0.0 < rank x := (lt_iff.mp positive).2.2
  have mirrored : rank (-x) = -rank x := by
    rw [rank, unpack_neg, place_neg, rank]
  have number : ¬(-x).isNaN := not_isNaN_of_isFinite ((isFinite_negated x).trans finite)
  exact lt_iff.mpr ⟨number, not_isNaN_of_isFinite finite, by omega⟩

/-- Between minus and plus a valid initial range a number can be drawn if the range is less than the
limit. -/
theorem Config.Valid.sampleable_iff {c : Config} (valid : c.Valid) :
    Sampleable (-c.initialRange) c.initialRange ↔ c.initialRange < rangeLimit := by
  obtain ⟨finite, positive⟩ := valid.initialRange
  rw [← isFinite_sub_neg_iff (le_of_lt positive) finite]
  constructor
  · intro sampleable
    exact sampleable.2.2.2
  · intro distance
    exact ⟨neg_lt_self positive finite, (isFinite_negated _).trans finite, finite, distance⟩

variable {σ : Type} [WordSource σ]

/-- A run ends with a result unless its start cannot be drawn. Its initial range alone decides about
that, and neither the objective nor the source nor a cancellation does. -/
theorem run_ends_unless_too_wide (a : Annealing) (stop : Nat → σ → Bool) (s : σ) :
    (a.config.initialRange < rangeLimit ∧
        Sampleable (-a.config.initialRange) a.config.initialRange ∧
        ∃ r t, a.run stop s = .ok (r, t)) ∨
      rangeLimit ≤ a.config.initialRange ∧
        ¬Sampleable (-a.config.initialRange) a.config.initialRange ∧
        a.run stop s =
          .error (.unsampleableRange (-a.config.initialRange) a.config.initialRange) := by
  have drawn := a.valid.sampleable_iff
  obtain ⟨steps, schedule⟩ := a.valid.exists_schedule
  rcases a.run_cases schedule stop s with ⟨refused, failed⟩ | ⟨sampleable, j, t, -, ran, -⟩
  · have number := not_isNaN_of_isFinite a.valid.initialRange.1
    have large := le_of_not_lt number (by decide) (mt drawn.mpr refused)
    exact .inr ⟨large, refused, failed⟩
  · exact .inl ⟨drawn.mp sampleable, sampleable, _, t, ran⟩

/-- A search whose start may be anywhere up to the limit. -/
def wide : Annealing where
  objective := fun _ _ => 1.0
  config := { initialRange := rangeLimit }
  valid := Config.defect?_eq_none_iff.mp rfl

/-- Although its parameters are valid, the search has no result, even if it is cancelled at once. -/
theorem wide_fails : wide.run (fun _ _ => true) (⟨#[0], 0⟩ : Script) =
    .error (.unsampleableRange (-rangeLimit) rangeLimit) := by
  have unsampleable : ¬Sampleable (-wide.config.initialRange) wide.config.initialRange := by decide
  exact Draw.bind_of_error _ (begin_refused unsampleable _)

end Metaheuristics.Annealing

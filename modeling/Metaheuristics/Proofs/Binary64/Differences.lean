import Metaheuristics.Proofs.Binary64.Bounded

/-!
# Differences and quotients

What a difference and its quotient by a positive number come to, be they finite or not. Collected here:

* the more is taken away from a finite number, the less is left (`sub_antitone`);
* a difference to a number that is not less, divided by a positive number, is not positive
  (`sub_of_not_lt`, `div_of_nonpos`);
* the difference of two finite doubles that are equal to each other is a zero, divided or not
  (`sub_of_beq`, `div_of_beq_zero`), but that of an infinity and itself is no number (`isNaN_sub_self`);
* quotients by a positive number grow with the dividend (`div_le_div_of_dividend`), and those of a dividend
  that is not positive grow with the divisor (`div_le_div_of_divisor`).
-/

namespace Metaheuristics.Binary64

open Float.Model UnpackedFloat

variable {x y z w : Float}

/-! ## Differences -/

theorem isNaN_negated (x : Float) : (-x).isNaN = x.isNaN := by
  show (-x).toModel.unpack.isNaN = x.toModel.unpack.isNaN
  rw [unpack_neg]
  cases x.toModel.unpack <;> rfl

theorem negated_le_negated (h : x ≤ y) : -y ≤ -x := by
  obtain ⟨number_x, number_y, less⟩ := le_iff.mp h
  rw [le_iff, isNaN_negated, isNaN_negated, rank_neg, rank_neg]
  exact ⟨number_y, number_x, Int.neg_le_neg less⟩

/-- The sum of a finite number and a number is a number. -/
theorem not_isNaN_finite_add (finite : x.isFinite) (number : ¬y.isNaN) : ¬(x + y).isNaN := by
  rcases isFinite_or_infinite number with finite_y | ⟨s, shape⟩
  · exact not_isNaN_add (not_isNaN_of_isFinite finite) finite_y
  · have sum : UnpackedFloat.add Format.binary64 x.toModel.unpack y.toModel.unpack =
        .infinity s := by
      rw [shape]
      rcases isFinite_cases finite with ⟨t, shape_x⟩ | ⟨t, m, e, hm, shape_x⟩ <;> rw [shape_x] <;> rfl
    show ¬(Float.Model.pack (UnpackedFloat.add Format.binary64 _ _)).unpack.isNaN = true
    rw [sum, unpack_pack (u := .infinity s) trivial]
    exact Bool.false_ne_true

/-- The more is taken away from a finite number, the less is left. -/
theorem sub_antitone (finite : x.isFinite) (h : y ≤ z) : x - z ≤ x - y := by
  obtain ⟨number_y, number_z, -⟩ := le_iff.mp h
  rw [sub_eq_add, sub_eq_add]
  refine add_le_add_of_numbers (le_refl (not_isNaN_of_isFinite finite)) (negated_le_negated h) ?_ ?_
  · exact not_isNaN_finite_add finite (by rwa [isNaN_negated])
  · exact not_isNaN_finite_add finite (by rwa [isNaN_negated])

/-- A number that is not less, taken away from another one, leaves nothing positive. -/
theorem sub_of_not_lt (h : ¬y < x) : (x - y).isNaN ∨ x - y ≤ 0.0 := by
  rw [sub_eq_add]
  by_cases nan : (x + -y).isNaN
  · exact .inl nan
  have number_x : ¬x.isNaN := fun nan_x => nan (isNaN_add_left nan_x)
  have number_y : ¬y.isNaN := fun nan_y => nan (isNaN_add_right (by rwa [isNaN_negated]))
  have le := le_of_not_lt number_y number_x h
  refine .inr (le_iff.mpr ⟨nan, by decide, ?_⟩)
  show rank (x + -y) ≤ 0
  by_cases bottom : rank x = -(2047 * 2 ^ 52) ∨ rank (-y) = -(2047 * 2 ^ 52)
  · rw [rank_add_of_infinite (s := .negative) bottom nan]
    decide
  -- neither is infinite on its own side, nor then on the other one
  rw [rank_neg] at bottom
  have := (le_iff.mp le).2.2
  have := neg_le_rank x
  have := rank_le_top y
  have finite_x : x.isFinite := isFinite_of_rank_mem number_x (by omega) (by omega)
  have finite_y : y.isFinite := isFinite_of_rank_mem number_y (by omega) (by omega)
  rw [← sub_eq_add]
  exact (rounds_sub finite_x finite_y).nonpos (sub_nonpos_of_le (toRat_le_of_le finite_x finite_y le))

/-- The difference of finite doubles that are equal to each other is a zero. -/
theorem sub_of_beq (same : (x == y) = true) (finite_x : x.isFinite) (finite_y : y.isFinite) :
    ((x - y) == 0.0) = true := by
  obtain ⟨number_x, number_y, ranks⟩ := beq_iff.mp same
  have le := toRat_le_of_le finite_x finite_y (le_iff.mpr ⟨number_x, number_y, ranks.le⟩)
  have ge := toRat_le_of_le finite_y finite_x (le_iff.mpr ⟨number_y, number_x, ranks.ge⟩)
  have difference := rounds_sub finite_x finite_y
  have number : ¬(x - y).isNaN := by
    rw [sub_eq_add]
    exact not_isNaN_add number_x ((isFinite_negated y).trans finite_y)
  refine beq_iff.mpr ⟨number, by decide, le_antisymm ?_ ?_⟩
  · exact difference.nonpos (sub_nonpos_of_le le)
  · exact difference.nonneg (sub_nonneg_of_le ge)

/-- The difference of an infinity and itself is no number. -/
theorem isNaN_sub_self (infinite : ¬x.isFinite) : (x - x).isNaN := by
  rw [sub_eq_add]
  by_cases number : x.isNaN
  · exact isNaN_add_left number
  · obtain ⟨s, shape⟩ := (isFinite_or_infinite number).resolve_left infinite
    show (Float.Model.pack (UnpackedFloat.add Format.binary64 _ (-x).toModel.unpack)).unpack.isNaN = true
    rw [unpack_neg, shape]
    cases s <;> rfl

/-! ## Quotients -/

theorem isNaN_div_left (nan : x.isNaN) : (x / y).isNaN := by
  show (Float.Model.pack (UnpackedFloat.div Format.binary64 x.toModel.unpack _)).unpack.isNaN = true
  rw [isNaN_iff.mp nan, show UnpackedFloat.div Format.binary64 .notANumber _ = .notANumber from rfl,
    unpack_pack (u := .notANumber) trivial]
  rfl

/-- An infinite dividend stays what it is if it is divided by a positive number. -/
theorem div_of_infinite {s : Sign} (infinite : rank x = s.apply (2047 * 2 ^ 52))
    (positive : 0.0 < y) (finite : y.isFinite) :
    rank (x / y) = s.apply (2047 * 2 ^ 52) ∧ ¬(x / y).isNaN := by
  have canonical := canonical_unpack y.toModel
  have above := zero_lt_iff.mp positive
  rw [rank] at above
  have quotient : UnpackedFloat.div Format.binary64 x.toModel.unpack y.toModel.unpack =
      .infinity s := by
    rw [unpack_of_infinite infinite]
    rcases isFinite_cases finite with ⟨t, shape⟩ | ⟨t, m, e, hm, shape⟩
    · rw [shape] at above
      exact absurd above (Int.lt_irrefl 0)
    · rw [shape] at above canonical ⊢
      obtain rfl := sign_of_nonneg canonical above.le
      cases s <;> rfl
  show place (Float.Model.pack (UnpackedFloat.div Format.binary64 _ _)).unpack = _ ∧
    ¬(Float.Model.pack (UnpackedFloat.div Format.binary64 _ _)).unpack.isNaN = true
  rw [quotient, unpack_pack (u := .infinity s) trivial]
  exact ⟨rfl, Bool.false_ne_true⟩

theorem not_isNaN_div_of_pos (number : ¬x.isNaN) (positive : 0.0 < y) (finite : y.isFinite) :
    ¬(x / y).isNaN := by
  rcases isFinite_or_infinite number with finite_x | ⟨s, shape⟩
  · exact not_isNaN_div finite_x finite (toRat_pos finite positive).ne'
  · have infinite : rank x = s.apply (2047 * 2 ^ 52) := by
      rw [rank, shape]
      rfl
    exact (div_of_infinite infinite positive finite).2

/-- A quotient by a positive number grows with the dividend. -/
theorem div_le_div_of_dividend (h : x ≤ z) (positive : 0.0 < y) (finite : y.isFinite) :
    x / y ≤ z / y := by
  obtain ⟨number_x, number_z, less⟩ := le_iff.mp h
  refine le_iff.mpr ⟨not_isNaN_div_of_pos number_x positive finite,
    not_isNaN_div_of_pos number_z positive finite, ?_⟩
  by_cases bottom : rank x = -(2047 * 2 ^ 52)
  · rw [(div_of_infinite (s := .negative) bottom positive finite).1]
    exact neg_le_rank _
  by_cases top : rank z = 2047 * 2 ^ 52
  · rw [(div_of_infinite (s := .positive) top positive finite).1]
    exact rank_le_top _
  have := neg_le_rank x
  have := rank_le_top z
  have finite_x : x.isFinite := isFinite_of_rank_mem number_x (by omega) (by omega)
  have finite_z : z.isFinite := isFinite_of_rank_mem number_z (by omega) (by omega)
  have divisor := toRat_pos finite positive
  refine (approaches_div finite_x finite divisor.ne').mono
    (approaches_div finite_z finite divisor.ne') ?_
  have := toRat_le_of_le finite_x finite_z h
  gcongr

/-- A quotient of a number that is not positive grows with the divisor. -/
theorem div_le_div_of_divisor (nonpos : x ≤ 0.0) (positive : 0.0 < y) (h : y ≤ w)
    (finite : w.isFinite) : x / y ≤ x / w := by
  obtain ⟨number, -, below⟩ := le_iff.mp nonpos
  change rank x ≤ 0 at below
  have finite_y := isFinite_of_le (le_of_lt positive) h finite
  have positive_w := lt_of_lt_of_le positive h
  refine le_iff.mpr ⟨not_isNaN_div_of_pos number positive finite_y,
    not_isNaN_div_of_pos number positive_w finite, ?_⟩
  by_cases bottom : rank x = -(2047 * 2 ^ 52)
  · rw [(div_of_infinite (s := .negative) bottom positive finite_y).1]
    exact neg_le_rank _
  have := neg_le_rank x
  have finite_x : x.isFinite := isFinite_of_rank_mem number (by omega) (by omega)
  have divisor := toRat_pos finite_y positive
  have larger := toRat_le_of_le finite_y finite h
  refine (approaches_div finite_x finite_y divisor.ne').mono
    (approaches_div finite_x finite (toRat_pos finite positive_w).ne') ?_
  have dividend : toRat x ≤ 0 := toRat_le_of_le finite_x (y := 0.0) (by decide) nonpos
  rw [div_le_div_iff₀ divisor (divisor.trans_le larger)]
  exact mul_le_mul_of_nonpos_left larger dividend

/-- A number that is not positive, divided by a positive one, leaves nothing positive. -/
theorem div_of_nonpos (nonpos : x ≤ 0.0) (positive : 0.0 < y) : (x / y).isNaN ∨ x / y ≤ 0.0 := by
  by_cases nan : (x / y).isNaN
  · exact .inl nan
  refine .inr (le_iff.mpr ⟨nan, by decide, ?_⟩)
  show rank (x / y) ≤ 0
  obtain ⟨number, -, below⟩ := le_iff.mp nonpos
  change rank x ≤ 0 at below
  by_cases bottom : rank x = -(2047 * 2 ^ 52)
  · rcases isFinite_or_eq_infinity (le_of_lt positive) with finite | rfl
    · rw [(div_of_infinite (s := .negative) bottom positive finite).1]
      decide
    · refine absurd ?_ nan
      show (Float.Model.pack (UnpackedFloat.div Format.binary64 x.toModel.unpack _)).unpack.isNaN = true
      rw [unpack_of_infinite (s := .negative) bottom]
      rfl
  · have := neg_le_rank x
    have finite_x : x.isFinite := isFinite_of_rank_mem number (by omega) (by omega)
    rcases isFinite_or_eq_infinity (le_of_lt positive) with finite | rfl
    · have divisor := toRat_pos finite positive
      have dividend : toRat x ≤ 0 := toRat_le_of_le finite_x (y := 0.0) (by decide) nonpos
      exact (rounds_div finite_x finite divisor.ne').nonpos
        (div_nonpos_of_nonpos_of_nonneg dividend divisor.le)
    · exact (div_infinity finite_x).1.le

/-- A zero, divided by a positive number, is a zero. -/
theorem div_of_beq_zero (zero : (x == 0.0) = true) (positive : 0.0 < y) : ((x / y) == 0.0) = true := by
  obtain ⟨number, -, place⟩ := beq_iff.mp zero
  change rank x = 0 at place
  have finite : x.isFinite := isFinite_of_rank_mem number (by omega) (by omega)
  have ge := zero_le_div (le_iff.mpr ⟨by decide, number, place.ge⟩) finite positive
  have le := (div_of_nonpos (le_iff.mpr ⟨number, by decide, place.le⟩) positive).resolve_left
    (le_iff.mp ge).2.1
  exact beq_iff.mpr ⟨(le_iff.mp le).1, by decide, le_antisymm (le_iff.mp le).2.2 (le_iff.mp ge).2.2⟩

end Metaheuristics.Binary64

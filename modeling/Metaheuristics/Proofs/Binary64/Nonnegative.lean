import Metaheuristics.Proofs.Binary64.Quotients

/-!
# Doubles that are not negative

Weights are numbers that are not negative, or no numbers at all (`NotNegative`), and so are their sums
and products. Collected here:

* a NaN stays in every sum that it comes into (`isNaN_add_left`, `isNaN_add_right`), and zero adds
  nothing, except to negative zero (`add_zero`), which is no such sum (`add_ne_negativeZero`);
* a product is not negative either, unless it is that of zero and infinity (`notNegative_mul`), and a
  fraction of a number is no larger than the number (`mul_le_of_le_one`);
* a quotient by a number that is at least as large is at most one (`div_le_one`), and it is one where the
  two are the same (`div_self_eq_one`);
* the inverse of a positive finite double does not vanish (`zero_lt_one_div`);
* a sum of doubles that are at most one is at most their count (`add_le_succ`), since rounding does not
  pass a whole number that is itself a double (`exists_whole`).
-/

namespace Metaheuristics.Binary64

open Float.Model UnpackedFloat

variable {x y : Float}

/-- A number that is not less than zero, or a NaN. -/
def NotNegative (x : Float) : Prop := 0.0 ≤ x ∨ x.isNaN

theorem toRat_one : toRat 1.0 = 1 := by
  show ((2 ^ 52 : ℕ) : ℚ) * 2 ^ (-52 : ℤ) = 1
  norm_num

theorem toRat_epsilon : toRat epsilon = 2 ^ (-52 : ℤ) := by
  show ((2 ^ 52 : ℕ) : ℚ) * 2 ^ (-104 : ℤ) = _
  rw [Nat.cast_pow, Nat.cast_two, ← zpow_natCast, ← zpow_add₀ (by norm_num)]
  norm_num

/-! ## Sums -/

theorem isNaN_iff : x.isNaN ↔ x.toModel.unpack = .notANumber := by
  show x.toModel.unpack.isNaN = true ↔ _
  cases x.toModel.unpack <;> simp [UnpackedFloat.isNaN]

theorem isNaN_add_left (nan : x.isNaN) : (x + y).isNaN := by
  show (Float.Model.pack (UnpackedFloat.add Format.binary64 x.toModel.unpack _)).unpack.isNaN = true
  rw [isNaN_iff.mp nan, show UnpackedFloat.add Format.binary64 .notANumber _ = .notANumber from rfl,
    unpack_pack (u := .notANumber) trivial]
  rfl

theorem isNaN_add_right (nan : y.isNaN) : (x + y).isNaN := by
  show (Float.Model.pack (UnpackedFloat.add Format.binary64 _ y.toModel.unpack)).unpack.isNaN = true
  have sum (u : UnpackedFloat) : UnpackedFloat.add Format.binary64 u .notANumber = .notANumber := by
    cases u <;> rfl
  rw [isNaN_iff.mp nan, sum, unpack_pack (u := .notANumber) trivial]
  rfl

theorem NotNegative.add (hx : NotNegative x) (hy : NotNegative y) : NotNegative (x + y) := by
  rcases hx with nonneg_x | nan
  · rcases hy with nonneg_y | nan
    · exact .inl (le_trans nonneg_x (le_add nonneg_x nonneg_y).1)
    · exact .inr (isNaN_add_right nan)
  · exact .inr (isNaN_add_left nan)

theorem unpacked_add_zero {u : UnpackedFloat} (plus : u ≠ .zero .negative) :
    UnpackedFloat.add Format.binary64 u (.zero .positive) = u := by
  cases u with
  | notANumber => rfl
  | infinity s => rfl
  | zero s =>
      cases s with
      | negative => exact absurd rfl plus
      | positive => rfl
  | finite s m e hm => rfl

/-- Adding zero changes nothing but negative zero. -/
theorem add_zero (plus : x ≠ -0.0) : x + 0.0 = x := by
  have unpacked : x.toModel.unpack ≠ .zero .negative := by
    intro minus
    refine plus ?_
    show Float.ofModel x.toModel = -0.0
    rw [← pack_unpack x.toModel, minus]
    rfl
  show Float.ofModel (Float.Model.pack (UnpackedFloat.add Format.binary64 x.toModel.unpack
    (.zero .positive))) = x
  rw [unpacked_add_zero unpacked, pack_unpack]

/-- Whichever zero a double is, adding zero does not change how it compares. -/
theorem add_zero_le_iff : x + 0.0 ≤ y ↔ x ≤ y := by
  by_cases minus : x = -0.0
  · have zeros : (-0.0 : Float) + 0.0 = 0.0 := by rfl
    have same : rank (-0.0) = rank 0.0 := by rfl
    rw [minus, zeros, le_iff, le_iff, same]
    exact ⟨fun h => ⟨by decide, h.2⟩, fun h => ⟨by decide, h.2⟩⟩
  · rw [add_zero minus]

/-- There are two doubles in the place of zero. -/
theorem eq_zero_of_rank (number : ¬x.isNaN) (zero : rank x = 0) : x = 0.0 ∨ x = -0.0 := by
  have canonical := canonical_unpack x.toModel
  have packed := pack_unpack x.toModel
  rw [rank] at zero
  change ¬x.toModel.unpack.isNaN = true at number
  cases shape : x.toModel.unpack with
  | notANumber =>
      rw [shape] at number
      exact absurd rfl number
  | infinity s =>
      rw [shape] at zero
      cases s <;> exact absurd zero (by decide)
  | zero s =>
      rw [shape] at packed
      cases s with
      | negative => exact .inr (congrArg Float.ofModel packed.symm)
      | positive => exact .inl (congrArg Float.ofModel packed.symm)
  | finite s m e hm =>
      rw [shape] at zero canonical
      have := steps_pos canonical
      cases s <;> simp only [place, Sign.apply] at zero <;> omega

/-- A number that is neither negative nor positive is in the place of zero. -/
theorem rank_of_not_pos (nonneg : 0.0 ≤ x) (light : ¬0.0 < x) : rank x = 0 :=
  le_antisymm (not_lt.mp (mt zero_lt_iff.mpr light)) (le_iff.mp nonneg).2.2

theorem toRat_of_not_pos (nonneg : 0.0 ≤ x) (light : ¬0.0 < x) : toRat x = 0 := by
  rcases eq_zero_of_rank (le_iff.mp nonneg).2.1 (rank_of_not_pos nonneg light) with rfl | rfl
  · rfl
  · rfl

/-- Adding either zero changes nothing but negative zero. -/
theorem add_of_not_pos (plus : x ≠ -0.0) (nonneg : 0.0 ≤ y) (light : ¬0.0 < y) : x + y = x := by
  rcases eq_zero_of_rank (le_iff.mp nonneg).2.1 (rank_of_not_pos nonneg light) with rfl | rfl
  · exact add_zero plus
  · rw [← sub_eq_add, sub_zero]

/-- A sum that begins with a number other than negative zero does not become negative zero. -/
theorem add_ne_negativeZero (nonneg : 0.0 ≤ x) (plus : x ≠ -0.0) (hy : NotNegative y) :
    x + y ≠ -0.0 := by
  intro minus
  rcases hy with nonneg_y | nan
  · obtain ⟨left, right⟩ := le_add nonneg nonneg_y
    rw [minus] at left right
    -- both operands are in the place of zero, so there are two sums to look at
    have zero_rank : rank 0.0 = 0 := by decide
    have minus_rank : rank (-0.0) = 0 := by decide
    have place_x : rank x = 0 := by
      have := (le_iff.mp nonneg).2.2
      have := (le_iff.mp left).2.2
      omega
    have place_y : rank y = 0 := by
      have := (le_iff.mp nonneg_y).2.2
      have := (le_iff.mp right).2.2
      omega
    have zero_x := (eq_zero_of_rank (le_iff.mp nonneg).2.1 place_x).resolve_right plus
    rcases eq_zero_of_rank (le_iff.mp nonneg_y).2.1 place_y with zero_y | zero_y
    · rw [zero_x, zero_y] at minus
      exact absurd minus (by decide)
    · rw [zero_x, zero_y] at minus
      exact absurd minus (by decide)
  · have := isNaN_add_right (x := x) nan
    rw [minus] at this
    exact absurd this (by decide)

/-! ## Products -/

theorem zero_le_mul (nonneg_x : 0.0 ≤ x) (finite_x : x.isFinite) (nonneg_y : 0.0 ≤ y)
    (finite_y : y.isFinite) : 0.0 ≤ x * y := by
  refine le_iff.mpr ⟨by decide, not_isNaN_mul finite_x finite_y, ?_⟩
  refine (rounds_mul finite_x finite_y).nonneg ?_
  exact mul_nonneg (toRat_nonneg finite_x nonneg_x) (toRat_nonneg finite_y nonneg_y)

/-- A product is positive only if its first factor is. -/
theorem zero_lt_of_zero_lt_mul (nonneg : 0.0 ≤ x) (finite_x : x.isFinite) (finite_y : y.isFinite)
    (positive : 0.0 < x * y) : 0.0 < x := by
  by_contra light
  have bound := (rounds_mul finite_x finite_y).nonpos
    (by rw [toRat_of_not_pos nonneg light, zero_mul])
  exact absurd (zero_lt_iff.mp positive) (not_lt.mpr bound)

/-- A product does not vanish unless it is below the smallest positive double. -/
theorem zero_lt_mul (finite_x : x.isFinite) (finite_y : y.isFinite)
    (large : 2 ^ (-1074 : ℤ) ≤ toRat x * toRat y) : 0.0 < x * y :=
  zero_lt_iff.mpr ((rounds_mul finite_x finite_y).pos large)

/-- A fraction of a number that is not negative is no larger. -/
theorem mul_le_of_le_one (nonneg_x : 0.0 ≤ x) (le : x ≤ 1.0) (nonneg_y : 0.0 ≤ y)
    (finite : y.isFinite) : x * y ≤ y := by
  have finite_x := isFinite_of_le nonneg_x le (by decide)
  have unit := toRat_le_of_le finite_x (by decide) le
  rw [toRat_one] at unit
  exact mul_le_of_toRat_le finite_x finite finite
    (mul_le_of_le_one_left (toRat_nonneg finite nonneg_y) unit)

/-- Infinity times what is not negative is infinity or a NaN, from either side. -/
theorem unpacked_mul_infinity {u : UnpackedFloat} (canonical : Canonical u) (nonneg : 0 ≤ place u) :
    (UnpackedFloat.mul Format.binary64 u (.infinity .positive) = .infinity .positive ∨
        UnpackedFloat.mul Format.binary64 u (.infinity .positive) = .notANumber) ∧
      (UnpackedFloat.mul Format.binary64 (.infinity .positive) u = .infinity .positive ∨
        UnpackedFloat.mul Format.binary64 (.infinity .positive) u = .notANumber) := by
  cases u with
  | notANumber => exact ⟨.inr rfl, .inr rfl⟩
  | zero s => exact ⟨.inr rfl, .inr rfl⟩
  | infinity s =>
      cases s with
      | negative => exact absurd nonneg (by decide)
      | positive => exact ⟨.inl rfl, .inl rfl⟩
  | finite s m e hm =>
      have := steps_pos canonical
      cases s with
      | negative =>
          simp only [place, Sign.apply] at nonneg
          omega
      | positive => exact ⟨.inl rfl, .inl rfl⟩

/-- The product of numbers that are not negative is not negative, or it is that of zero and infinity. -/
theorem notNegative_mul (nonneg_x : 0.0 ≤ x) (nonneg_y : 0.0 ≤ y) : NotNegative (x * y) := by
  have infinite {u v : UnpackedFloat}
      (product : UnpackedFloat.mul Format.binary64 u v = .infinity .positive ∨
        UnpackedFloat.mul Format.binary64 u v = .notANumber) :
      NotNegative (Float.ofModel (Float.Model.pack (UnpackedFloat.mul Format.binary64 u v))) := by
    rcases product with top | nan
    · rw [top]
      exact .inl (by decide)
    · rw [nan]
      exact .inr (by decide)
  have place_x := (le_iff.mp nonneg_x).2.2
  have place_y := (le_iff.mp nonneg_y).2.2
  rcases isFinite_or_eq_infinity nonneg_x with finite_x | rfl
  · rcases isFinite_or_eq_infinity nonneg_y with finite_y | rfl
    · exact .inl (zero_le_mul nonneg_x finite_x nonneg_y finite_y)
    · exact infinite (unpacked_mul_infinity (canonical_unpack _) place_x).1
  · exact infinite (unpacked_mul_infinity (canonical_unpack _) place_y).2

/-! ## Quotients -/

/-- A number that is not negative, divided by one that is at least as large, is at most one. -/
theorem div_le_one (nonneg : 0.0 ≤ x) (le : x ≤ y) (positive : 0.0 < y) (finite : y.isFinite) :
    x / y ≤ 1.0 := by
  have finite_x := isFinite_of_le nonneg le finite
  have divisor := toRat_pos finite positive
  refine le_iff.mpr ⟨not_isNaN_div finite_x finite divisor.ne', by decide, ?_⟩
  refine (rounds_div finite_x finite divisor.ne').below _ (canonical_unpack _) (by decide) ?_
  show toRat x / toRat y ≤ toRat 1.0
  rw [toRat_one, div_le_one₀ divisor]
  exact toRat_le_of_le finite_x finite le

/-- A positive finite double divided by itself is one. -/
theorem div_self_eq_one (positive : 0.0 < x) (finite : x.isFinite) : x / x = 1.0 := by
  have divisor := toRat_pos finite positive
  have quotient := rounds_div finite finite divisor.ne'
  rw [div_self divisor.ne'] at quotient
  have nonzero : rank 1.0 ≠ 0 := by decide
  exact (eq_of_rank_eq nonzero (quotient.eq_rank (by decide) toRat_one).symm).symm

/-- A quotient by a positive number is positive only if the dividend is. -/
theorem zero_lt_of_zero_lt_div (nonneg : 0.0 ≤ x) (finite_x : x.isFinite) (divisor : 0.0 < y)
    (finite_y : y.isFinite) (positive : 0.0 < x / y) : 0.0 < x := by
  by_contra light
  have bound := (rounds_div finite_x finite_y (toRat_pos finite_y divisor).ne').nonpos
    (by rw [toRat_of_not_pos nonneg light, div_eq_mul_inv, zero_mul])
  exact absurd (zero_lt_iff.mp positive) (not_lt.mpr bound)

theorem zero_div (positive : 0.0 < x) (finite : x.isFinite) : 0.0 / x = 0.0 := by
  have canonical := canonical_unpack x.toModel
  have above := zero_lt_iff.mp positive
  rw [rank] at above
  show Float.ofModel (Float.Model.pack (UnpackedFloat.div Format.binary64 (.zero .positive)
    x.toModel.unpack)) = 0.0
  rcases isFinite_cases finite with ⟨s, shape⟩ | ⟨s, m, e, hm, shape⟩
  · rw [shape] at above
    exact absurd above (Int.lt_irrefl 0)
  · rw [shape] at above canonical ⊢
    have := steps_pos canonical
    cases s with
    | negative =>
        simp only [place, Sign.apply] at above
        omega
    | positive => rfl

/-- The inverse of a positive finite double does not vanish, however large the double is. -/
theorem zero_lt_one_div (positive : 0.0 < x) (finite : x.isFinite) : 0.0 < 1.0 / x := by
  have divisor := toRat_pos finite positive
  have bound := (abs_lt.mp (abs_value_lt (canonical_unpack _) finite)).2
  change toRat x < limit at bound
  -- the inverse of the first number that is too large is still a double
  have smallest : 2 ^ (-1074 : ℤ) ≤ toRat 1.0 / toRat x := by
    have exponent : limit = 2 ^ (1024 : ℤ) := by
      unfold limit
      rw [← zpow_natCast, ← zpow_add₀ (by norm_num)]
      rfl
    rw [toRat_one, le_div_iff₀ divisor]
    calc (2 : ℚ) ^ (-1074 : ℤ) * toRat x ≤ 2 ^ (-1074 : ℤ) * 2 ^ (1024 : ℤ) := by
          rw [← exponent]
          gcongr
      _ = 2 ^ (-50 : ℤ) := by
          rw [← zpow_add₀ (by norm_num)]
          rfl
      _ ≤ 1 := by norm_num
  exact zero_lt_iff.mpr ((rounds_div (by decide) finite divisor.ne').pos smallest)

/-! ## Whole numbers -/

/-- What is in canonical form and finite is a double. -/
theorem exists_of_canonical {u : UnpackedFloat} (canonical : Canonical u) (finite : u.isFinite) :
    ∃ z : Float, z.isFinite ∧ toRat z = value u := by
  refine ⟨Float.ofModel (Float.Model.pack u), ?_, ?_⟩
  · show (Float.Model.pack u).unpack.isFinite = true
    rw [unpack_pack canonical]
    exact finite
  · show value (Float.Model.pack u).unpack = value u
    rw [unpack_pack canonical]

/-- Whole numbers of at most 53 bits are doubles, also in units of a power of two. -/
theorem exists_whole {k e : Nat} (bits : k < 2 ^ 53) (inner : e ≤ 971) :
    ∃ z : Float, z.isFinite ∧ toRat z = k * 2 ^ e := by
  rcases Nat.eq_zero_or_pos k with rfl | positive
  · refine ⟨0.0, by decide, ?_⟩
    rw [Nat.cast_zero, zero_mul]
    rfl
  have log : k.log2 < 53 := (Nat.log2_lt positive.ne').mpr bits
  obtain ⟨shift, full⟩ := Nat.exists_eq_add_of_le (show k.log2 ≤ 52 by omega)
  -- the significand is shifted until it has all its bits
  have low : 2 ^ k.log2 * 2 ^ shift ≤ k * 2 ^ shift :=
    Nat.mul_le_mul_right _ (Nat.log2_self_le positive.ne')
  have high : k * 2 ^ shift < 2 ^ (k.log2 + 1) * 2 ^ shift :=
    Nat.mul_lt_mul_of_pos_right Nat.lt_log2_self (by positivity)
  have exponent : k.log2 + 1 + shift = 53 := by omega
  rw [← pow_add, ← full] at low
  rw [← pow_add, exponent] at high
  have some_bit : 0 < k * 2 ^ shift := by positivity
  have canonical : Canonical (.finite .positive (k * 2 ^ shift) (e - shift) some_bit) := by
    simp only [Canonical]
    omega
  obtain ⟨z, finite, same⟩ := exists_of_canonical canonical rfl
  refine ⟨z, finite, same.trans ?_⟩
  show ((k * 2 ^ shift : ℕ) : ℚ) * 2 ^ ((e : ℤ) - shift) = k * 2 ^ e
  rw [zpow_sub₀ (by norm_num), zpow_natCast, zpow_natCast]
  push_cast
  field_simp

/-- Adding a double that is at most one leads at most to the next whole number. -/
theorem add_le_succ {k : Nat} (bits : k + 1 < 2 ^ 53) (nonneg_x : 0.0 ≤ x) (finite_x : x.isFinite)
    (count : toRat x ≤ k) (nonneg_y : 0.0 ≤ y) (unit : y ≤ 1.0) :
    (x + y).isFinite ∧ toRat (x + y) ≤ k + 1 := by
  have finite_y := isFinite_of_le nonneg_y unit (by decide)
  have one := toRat_le_of_le finite_y (by decide) unit
  rw [toRat_one] at one
  obtain ⟨next, finite_next, whole⟩ := exists_whole (e := 0) bits (Nat.zero_le _)
  rw [pow_zero, mul_one, Nat.cast_succ] at whole
  have nonneg := le_trans nonneg_x (le_add nonneg_x nonneg_y).1
  have below : x + y ≤ next := by
    refine le_iff.mpr ⟨(le_iff.mp nonneg).2.1, not_isNaN_of_isFinite finite_next, ?_⟩
    refine (rounds_add finite_x finite_y).below _ (canonical_unpack _) finite_next ?_
    show toRat x + toRat y ≤ toRat next
    rw [whole]
    exact add_le_add count one
  have finite := isFinite_of_le nonneg below finite_next
  exact ⟨finite, whole ▸ toRat_le_of_le finite finite_next below⟩

end Metaheuristics.Binary64

import Metaheuristics.Proofs.Binary64.Packing

/-!
# The order of doubles

Comparing two doubles is comparing two integers, the `rank` of each, unless one of them is a NaN
(`lt_iff`, `le_iff`). So the doubles that are numbers are ordered like integers, with the two zeros
in one place, and the laws of that order are those of the integers.
-/

namespace Metaheuristics.Binary64

open Float.Model UnpackedFloat

/-- How many numbers there are from zero up to a significand at an exponent. It grows by one from
one significand to the next, also where the exponent changes. -/
def steps (m : Nat) (e : Int) : Int := (e + 1074) * 2 ^ 52 + m

/-- The place of a number among all others, counted from zero. -/
def place : UnpackedFloat → Int
  | .notANumber => 0
  | .zero _ => 0
  | .infinity s => s.apply (2047 * 2 ^ 52)
  | .finite s m e _ => s.apply (steps m e)

theorem steps_pos {s : Sign} {m : Nat} {e : Int} {hm : 0 < m}
    (canonical : Canonical (.finite s m e hm)) : 0 < steps m e := by
  simp only [Canonical] at canonical
  simp only [steps]
  omega

theorem steps_lt {s : Sign} {m : Nat} {e : Int} {hm : 0 < m}
    (canonical : Canonical (.finite s m e hm)) : steps m e < 2047 * 2 ^ 52 := by
  simp only [Canonical] at canonical
  simp only [steps]
  omega

/-- In a comparison the exponents come first, and so they do in the number of steps. -/
theorem compare_then_eq {s t : Sign} {m k : Nat} {e f : Int} {hm : 0 < m} {hk : 0 < k}
    (hu : Canonical (.finite s m e hm)) (hv : Canonical (.finite t k f hk)) :
    (compare e f).then (compare m k) = compare (steps m e) (steps k f) := by
  simp only [Canonical] at hu hv
  simp only [steps]
  rcases Int.lt_trichotomy e f with less | equal | greater
  · rw [Int.compare_eq_lt.mpr less, Int.compare_eq_lt.mpr (by omega)]
    rfl
  · rw [Int.compare_eq_eq.mpr equal, Ordering.eq_then]
    rcases Nat.lt_trichotomy m k with less | equal | greater
    · rw [Nat.compare_eq_lt.mpr less, Int.compare_eq_lt.mpr (by omega)]
    · rw [Nat.compare_eq_eq.mpr equal, Int.compare_eq_eq.mpr (by omega)]
    · rw [Nat.compare_eq_gt.mpr greater, Int.compare_eq_gt.mpr (by omega)]
  · rw [Int.compare_eq_gt.mpr greater, Int.compare_eq_gt.mpr (by omega)]
    rfl

theorem compare_neg (a b : Int) : compare (-a) (-b) = (compare a b).swap := by
  rcases Int.lt_trichotomy a b with less | equal | greater
  · rw [Int.compare_eq_lt.mpr less, Int.compare_eq_gt.mpr (by omega)]
    rfl
  · rw [Int.compare_eq_eq.mpr equal, Int.compare_eq_eq.mpr (by omega)]
    rfl
  · rw [Int.compare_eq_gt.mpr greater, Int.compare_eq_lt.mpr (by omega)]
    rfl

/-- Numbers compare as their places do. -/
theorem compare_eq {u v : UnpackedFloat} (hu : Canonical u) (hv : Canonical v)
    (number_u : u.isNaN = false) (number_v : v.isNaN = false) :
    u.compare v = some (compare (place u) (place v)) := by
  have less {a b : Int} (h : a < b) : some Ordering.lt = some (compare a b) := by
    rw [Int.compare_eq_lt.mpr h]
  have greater {a b : Int} (h : b < a) : some Ordering.gt = some (compare a b) := by
    rw [Int.compare_eq_gt.mpr h]
  cases u with
  | notANumber => exact absurd number_u (by decide)
  | infinity s =>
      cases v with
      | notANumber => exact absurd number_v (by decide)
      | infinity t => cases s <;> cases t <;> rfl
      | zero t => cases s <;> rfl
      | finite t k f hk =>
          have := steps_pos hv
          have := steps_lt hv
          cases s
          · exact less (by cases t <;> simp only [place, Sign.apply] <;> omega)
          · exact greater (by cases t <;> simp only [place, Sign.apply] <;> omega)
  | zero s =>
      cases v with
      | notANumber => exact absurd number_v (by decide)
      | infinity t => cases t <;> rfl
      | zero t => rfl
      | finite t k f hk =>
          have := steps_pos hv
          cases t
          · exact greater (by simp only [place, Sign.apply]; omega)
          · exact less (by simp only [place, Sign.apply]; omega)
  | finite s m e hm =>
      have := steps_pos hu
      have := steps_lt hu
      cases v with
      | notANumber => exact absurd number_v (by decide)
      | infinity t =>
          cases t
          · cases s <;> exact greater (by simp only [place, Sign.apply]; omega)
          · cases s <;> exact less (by simp only [place, Sign.apply]; omega)
      | zero t =>
          cases s
          · exact less (by simp only [place, Sign.apply]; omega)
          · exact greater (by simp only [place, Sign.apply]; omega)
      | finite t k f hk =>
          have := steps_pos hv
          cases s <;> cases t
          · simp only [UnpackedFloat.compare, place, Sign.apply, compare_neg, compare_then_eq hu hv]
          · exact less (by simp only [place, Sign.apply]; omega)
          · exact greater (by simp only [place, Sign.apply]; omega)
          · simp only [UnpackedFloat.compare, place, Sign.apply, compare_then_eq hu hv]

/-- A comparison has a result when both sides are numbers, and then it is that of their places. -/
theorem compare_eq_some_iff {u v : UnpackedFloat} (hu : Canonical u) (hv : Canonical v)
    {o : Ordering} :
    u.compare v = some o ↔ ¬u.isNaN ∧ ¬v.isNaN ∧ compare (place u) (place v) = o := by
  by_cases nan_u : u.isNaN = true
  · cases u <;> simp_all [UnpackedFloat.compare, UnpackedFloat.isNaN]
  · by_cases nan_v : v.isNaN = true
    · cases u <;> cases v <;> simp_all [UnpackedFloat.compare, UnpackedFloat.isNaN]
    · rw [compare_eq hu hv (Bool.eq_false_iff.mpr nan_u) (Bool.eq_false_iff.mpr nan_v),
        Option.some.injEq]
      exact ⟨fun h => ⟨nan_u, nan_v, h⟩, fun h => h.2.2⟩

/-- Apart from the zeros, no two numbers have the same place. -/
theorem eq_of_place_eq {u v : UnpackedFloat} (hu : Canonical u) (hv : Canonical v)
    (nonzero : place u ≠ 0) (same : place u = place v) : u = v := by
  cases u with
  | notANumber => exact absurd rfl nonzero
  | zero s => exact absurd rfl nonzero
  | infinity s =>
      cases v with
      | notANumber => exact absurd same nonzero
      | zero t => exact absurd same nonzero
      | infinity t => cases s <;> cases t <;> first | rfl | exact absurd same (by decide)
      | finite t k f hk =>
          have := steps_pos hv
          have := steps_lt hv
          cases s <;> cases t <;> simp only [place, Sign.apply] at same <;> omega
  | finite s m e hm =>
      have := steps_pos hu
      have := steps_lt hu
      cases v with
      | notANumber => exact absurd same nonzero
      | zero t => exact absurd same nonzero
      | infinity t => cases s <;> cases t <;> simp only [place, Sign.apply] at same <;> omega
      | finite t k f hk =>
          have := steps_pos hv
          have signs : s = t ∧ steps m e = steps k f := by
            cases s <;> cases t <;> simp only [place, Sign.apply] at same <;>
              first | exact ⟨rfl, by omega⟩ | omega
          obtain ⟨rfl, counts⟩ := signs
          simp only [Canonical] at hu hv
          simp only [steps] at counts
          obtain rfl : e = f := by omega
          obtain rfl : m = k := by omega
          rfl

/-! ## Ranks -/

/-- The place of a double among all doubles. -/
def rank (x : Float) : Int := place x.toModel.unpack

/-- A double is less than another when both are numbers and it has the smaller rank. -/
theorem lt_iff {x y : Float} : x < y ↔ ¬x.isNaN ∧ ¬y.isNaN ∧ rank x < rank y := by
  have unfolded : x < y ↔ x.toModel.unpack.compare y.toModel.unpack = some .lt := by
    show decide ((_ == some Ordering.lt) = true) = true ↔ _
    rw [decide_eq_true_iff, beq_iff_eq]
  rw [unfolded, compare_eq_some_iff (canonical_unpack _) (canonical_unpack _),
    Int.compare_eq_lt]
  rfl

/-- A double is at most another when both are numbers and its rank is no larger. -/
theorem le_iff {x y : Float} : x ≤ y ↔ ¬x.isNaN ∧ ¬y.isNaN ∧ rank x ≤ rank y := by
  have unfolded : x ≤ y ↔ ∃ o, x.toModel.unpack.compare y.toModel.unpack = some o ∧ o.isLE := by
    show decide (Option.any _ _ = true) = true ↔ _
    rw [decide_eq_true_iff, Option.any_eq_true]
  rw [unfolded]
  simp only [compare_eq_some_iff (canonical_unpack _) (canonical_unpack _)]
  constructor
  · rintro ⟨o, ⟨number_x, number_y, rfl⟩, le⟩
    exact ⟨number_x, number_y, Int.isLE_compare.mp le⟩
  · rintro ⟨number_x, number_y, le⟩
    exact ⟨_, ⟨number_x, number_y, rfl⟩, Int.isLE_compare.mpr le⟩

/-- Two doubles are equal to each other when both are numbers of the same rank. -/
theorem beq_iff {x y : Float} : (x == y) = true ↔ ¬x.isNaN ∧ ¬y.isNaN ∧ rank x = rank y := by
  have unfolded : (x == y) = true ↔ x.toModel.unpack.compare y.toModel.unpack = some .eq := by
    show (_ == some Ordering.eq) = true ↔ _
    rw [beq_iff_eq]
  rw [unfolded, compare_eq_some_iff (canonical_unpack _) (canonical_unpack _),
    Int.compare_eq_eq]
  rfl

/-! ## The laws of the order -/

variable {x y z : Float}

/-- Apart from the zeros, a double is known by its rank. -/
theorem eq_of_rank_eq (nonzero : rank x ≠ 0) (same : rank x = rank y) : x = y := by
  have unpacked : x.toModel.unpack = y.toModel.unpack :=
    eq_of_place_eq (canonical_unpack _) (canonical_unpack _) nonzero same
  have packed := congrArg Float.Model.pack unpacked
  rw [pack_unpack, pack_unpack] at packed
  show Float.ofModel x.toModel = Float.ofModel y.toModel
  rw [packed]

/-- Doubles that are equal to each other are the same, unless they are zeros. -/
theorem eq_or_zero_of_beq (h : (x == y) = true) :
    x = y ∨ (x == 0.0) = true ∧ (y == 0.0) = true := by
  have zero : rank 0.0 = 0 := by decide
  obtain ⟨number_x, number_y, same⟩ := beq_iff.mp h
  by_cases nonzero : rank x = 0
  · refine .inr ⟨beq_iff.mpr ⟨number_x, by decide, nonzero.trans zero.symm⟩, ?_⟩
    exact beq_iff.mpr ⟨number_y, by decide, (same.symm.trans nonzero).trans zero.symm⟩
  · exact .inl (eq_of_rank_eq nonzero same)

theorem le_refl (number : ¬x.isNaN) : x ≤ x := by
  rw [le_iff]
  exact ⟨number, number, Int.le_refl _⟩

theorem le_of_lt (h : x < y) : x ≤ y := by
  rw [lt_iff] at h
  rw [le_iff]
  exact ⟨h.1, h.2.1, Int.le_of_lt h.2.2⟩

/-- Of two numbers, one is at most the other. -/
theorem le_of_not_lt (number_x : ¬x.isNaN) (number_y : ¬y.isNaN) (h : ¬x < y) : y ≤ x := by
  rw [lt_iff] at h
  rw [le_iff]
  exact ⟨number_y, number_x, Int.not_lt.mp fun less => h ⟨number_x, number_y, less⟩⟩

theorem le_trans (h : x ≤ y) (k : y ≤ z) : x ≤ z := by
  rw [le_iff] at h k ⊢
  exact ⟨h.1, k.2.1, Int.le_trans h.2.2 k.2.2⟩

theorem lt_of_lt_of_le (h : x < y) (k : y ≤ z) : x < z := by
  rw [lt_iff] at h ⊢
  rw [le_iff] at k
  exact ⟨h.1, k.2.1, Int.lt_of_lt_of_le h.2.2 k.2.2⟩

theorem lt_of_le_of_lt (h : x ≤ y) (k : y < z) : x < z := by
  rw [le_iff] at h
  rw [lt_iff] at k ⊢
  exact ⟨h.1, k.2.1, Int.lt_of_le_of_lt h.2.2 k.2.2⟩

/-- Two doubles that are not zero are the same if neither is larger. -/
theorem eq_of_le_of_le (nonzero : rank x ≠ 0) (le : x ≤ y) (ge : y ≤ x) : x = y :=
  eq_of_rank_eq nonzero (Int.le_antisymm (le_iff.mp le).2.2 (le_iff.mp ge).2.2)

theorem lt_irrefl (x : Float) : ¬x < x := by
  rw [lt_iff]
  rintro ⟨-, -, less⟩
  exact Int.lt_irrefl _ less

theorem rank_of_isNaN (nan : x.isNaN) : rank x = 0 := by
  change x.toModel.unpack.isNaN = true at nan
  rw [rank]
  cases shape : x.toModel.unpack with
  | notANumber => rfl
  | infinity s =>
      rw [shape] at nan
      exact absurd nan Bool.false_ne_true
  | zero s => rfl
  | finite s m e hm =>
      rw [shape] at nan
      exact absurd nan Bool.false_ne_true

/-- A double of positive rank is a positive number. -/
theorem zero_lt_iff : 0.0 < x ↔ 0 < rank x := by
  have zero : rank 0.0 = 0 := by decide
  rw [lt_iff, zero]
  constructor
  · exact fun h => h.2.2
  · intro positive
    refine ⟨by decide, fun nan => ?_, positive⟩
    rw [rank_of_isNaN nan] at positive
    exact Int.lt_irrefl 0 positive

theorem not_isNaN_of_lt (h : x < y) : ¬x.isNaN :=
  (lt_iff.mp h).1

theorem larger_cases (x y : Float) : larger x y = x ∨ larger x y = y := by
  unfold larger
  split
  · exact .inr rfl
  · split
    · exact .inr rfl
    · exact .inl rfl

theorem smaller_cases (x y : Float) : smaller x y = x ∨ smaller x y = y := by
  unfold smaller
  split
  · exact .inr rfl
  · split
    · exact .inr rfl
    · exact .inl rfl

theorem le_larger_left (number : ¬x.isNaN) : x ≤ larger x y := by
  unfold larger
  split
  · exact le_of_lt ‹_›
  · exact le_refl number

/-- The larger of two operands is not less than the second, even if the first is a NaN. -/
theorem le_larger (number : ¬y.isNaN) : y ≤ larger x y := by
  unfold larger
  split
  · exact le_refl number
  · rename_i above
    split
    · exact le_refl number
    · rename_i other
      exact le_of_not_lt other number above

theorem larger_of_le (h : y ≤ x) : larger x y = x := by
  obtain ⟨-, number, le⟩ := le_iff.mp h
  have not_less : ¬x < y := fun less => absurd (lt_iff.mp less).2.2 (by omega)
  rw [larger, if_neg not_less, if_neg number]

theorem larger_of_ge (h : x ≤ y) (nonzero : rank y ≠ 0) : larger x y = y := by
  rcases larger_cases x y with same | same
  · -- then the operands are equal
    have le := le_larger (x := x) (le_iff.mp h).2.1
    rw [same] at le ⊢
    exact (eq_of_le_of_le nonzero le h).symm
  · exact same

theorem not_isNaN_infinity : ¬infinity.isNaN := by decide

theorem place_le {u : UnpackedFloat} (canonical : Canonical u) : place u ≤ 2047 * 2 ^ 52 := by
  cases u with
  | notANumber => decide
  | infinity s => cases s <;> decide
  | zero s => exact (by decide : (0 : Int) ≤ 2047 * 2 ^ 52)
  | finite s m e hm =>
      have := steps_pos canonical
      have := steps_lt canonical
      cases s <;> simp only [place, Sign.apply] <;> omega

theorem not_infinity_lt (x : Float) : ¬infinity < x := by
  have top : rank infinity = 2047 * 2 ^ 52 := by decide
  have bound : rank x ≤ 2047 * 2 ^ 52 := place_le (canonical_unpack _)
  rw [lt_iff]
  rintro ⟨-, -, greater⟩
  omega

/-- No number is larger than infinity. -/
theorem le_infinity (number : ¬x.isNaN) : x ≤ infinity :=
  le_of_not_lt not_isNaN_infinity number (not_infinity_lt x)

theorem eq_infinity_of_le (above : infinity ≤ x) : x = infinity := by
  have last : rank infinity ≤ rank x := (le_iff.mp above).2.2
  have top : rank infinity = 2047 * 2 ^ 52 := by decide
  have bound : rank x ≤ 2047 * 2 ^ 52 := place_le (canonical_unpack _)
  exact eq_of_rank_eq (by omega) (by omega)

theorem eq_infinity_of_not_lt (number : ¬x.isNaN) (h : ¬x < infinity) : x = infinity :=
  eq_infinity_of_le (le_of_not_lt number not_isNaN_infinity h)

theorem beq_infinity_iff : (x == infinity) = true ↔ x = infinity := by
  constructor
  · intro same
    obtain ⟨number, -, top⟩ := beq_iff.mp same
    refine eq_infinity_of_not_lt number fun below => ?_
    exact absurd (lt_iff.mp below).2.2 (by rw [top]; exact Int.lt_irrefl _)
  · rintro rfl
    rfl

end Metaheuristics.Binary64

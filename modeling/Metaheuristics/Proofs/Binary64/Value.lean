import Metaheuristics.Proofs.Binary64.Order

/-!
# The numbers that doubles stand for

A finite double stands for a rational number (`toRat`), and the order of the doubles is the order of
these numbers (`toRat_le_of_le`, `toRat_lt_of_lt`). Below every double beyond the smallest normal one there is another
within the smallest relative gap (`exists_before`). The rank of a positive double is what its bits
count (`rank_eq_toBits`).
-/

namespace Metaheuristics.Binary64

open Float.Model UnpackedFloat

/-- A number with a sign. -/
def signed : Sign → ℚ → ℚ
  | .negative, q => -q
  | .positive, q => q

theorem signed_mul (s t : Sign) (a b : ℚ) : signed (s * t) (a * b) = signed s a * signed t b := by
  cases s <;> cases t
  · exact (neg_mul_neg a b).symm
  · exact (neg_mul a b).symm
  · exact (mul_neg a b).symm
  · rfl

theorem isFinite_cases {u : UnpackedFloat} (finite : u.isFinite) :
    (∃ s, u = .zero s) ∨ ∃ s m e hm, u = .finite s m e hm := by
  cases u with
  | notANumber => exact absurd finite (by decide)
  | infinity s => exact absurd finite Bool.false_ne_true
  | zero s => exact .inl ⟨s, rfl⟩
  | finite s m e hm => exact .inr ⟨s, m, e, hm, rfl⟩

/-- The number that a finite double stands for, taken apart. -/
def value : UnpackedFloat → ℚ
  | .finite s m e _ => signed s (m * 2 ^ e)
  | _ => 0

/-- A significand is less than the smallest full one at the next exponent. -/
theorem two_pow_mul_zpow_le {e f : Int} (h : e < f) : (2 : ℚ) ^ 53 * 2 ^ e ≤ 2 ^ 52 * 2 ^ f := by
  have next : (2 : ℚ) ^ (e + 1) ≤ 2 ^ f := zpow_le_zpow_right₀ (by norm_num) h
  rw [zpow_add_one₀ (by norm_num)] at next
  linarith

theorem mul_zpow_lt_of_steps_lt {s t : Sign} {m k : Nat} {e f : Int} {hm : 0 < m} {hk : 0 < k}
    (hu : Canonical (.finite s m e hm)) (hv : Canonical (.finite t k f hk))
    (lt : steps m e < steps k f) : (m * 2 ^ e : ℚ) < k * 2 ^ f := by
  simp only [Canonical] at hu hv
  simp only [steps] at lt
  rcases lt_trichotomy e f with below | rfl | above
  · have large : (2 : ℚ) ^ 52 ≤ k := by
      have : 2 ^ 52 ≤ k := by omega
      exact_mod_cast this
    have small : (m : ℚ) < 2 ^ 53 := by exact_mod_cast hu.1
    calc (m * 2 ^ e : ℚ) < 2 ^ 53 * 2 ^ e := by gcongr
      _ ≤ 2 ^ 52 * 2 ^ f := two_pow_mul_zpow_le below
      _ ≤ k * 2 ^ f := by gcongr
  · have fewer : (m : ℚ) < k := by
      have : m < k := by omega
      exact_mod_cast this
    gcongr
  · omega

theorem mul_zpow_le_of_steps_le {s t : Sign} {m k : Nat} {e f : Int} {hm : 0 < m} {hk : 0 < k}
    (hu : Canonical (.finite s m e hm)) (hv : Canonical (.finite t k f hk))
    (le : steps m e ≤ steps k f) : (m * 2 ^ e : ℚ) ≤ k * 2 ^ f := by
  rcases Int.lt_or_eq_of_le le with lt | same
  · exact (mul_zpow_lt_of_steps_lt hu hv lt).le
  · -- a number of steps belongs to one significand at one exponent
    simp only [Canonical] at hu hv
    simp only [steps] at same
    obtain rfl : e = f := by omega
    obtain rfl : m = k := by omega
    exact le_rfl

/-- Among finite doubles, a place that comes first belongs to a number that comes first. -/
theorem value_le_of_place_le {u v : UnpackedFloat} (hu : Canonical u) (hv : Canonical v)
    (finite_u : u.isFinite) (finite_v : v.isFinite) (le : place u ≤ place v) :
    value u ≤ value v := by
  have positive {m : Nat} {e : Int} : (0 : ℚ) ≤ m * 2 ^ e := by positivity
  rcases isFinite_cases finite_u with ⟨s, rfl⟩ | ⟨s, m, e, hm, rfl⟩
  · rcases isFinite_cases finite_v with ⟨t, rfl⟩ | ⟨t, k, f, hk, rfl⟩
    · exact le_rfl
    · have := steps_pos hv
      cases t with
      | negative =>
          simp only [place, Sign.apply] at le
          omega
      | positive => exact positive
  · have := steps_pos hu
    rcases isFinite_cases finite_v with ⟨t, rfl⟩ | ⟨t, k, f, hk, rfl⟩
    · cases s with
      | negative => exact neg_nonpos_of_nonneg positive
      | positive =>
          simp only [place, Sign.apply] at le
          omega
    · have := steps_pos hv
      cases s <;> cases t <;> simp only [place, Sign.apply] at le
      · exact neg_le_neg (mul_zpow_le_of_steps_le hv hu (by omega))
      · exact (neg_nonpos_of_nonneg positive).trans positive
      · omega
      · exact mul_zpow_le_of_steps_le hu hv le

/-- And a number that comes first has a place that comes first. -/
theorem place_le_of_value_le {u v : UnpackedFloat} (hu : Canonical u) (hv : Canonical v)
    (finite_u : u.isFinite) (finite_v : v.isFinite) (le : value u ≤ value v) :
    place u ≤ place v := by
  have positive {m : Nat} {e : Int} (hm : 0 < m) : (0 : ℚ) < m * 2 ^ e := by positivity
  by_contra behind
  refine absurd le (not_le.mpr ?_)
  rcases isFinite_cases finite_u with ⟨s, rfl⟩ | ⟨s, m, e, hm, rfl⟩
  · rcases isFinite_cases finite_v with ⟨t, rfl⟩ | ⟨t, k, f, hk, rfl⟩
    · exact absurd (Int.le_refl 0) behind
    · have := steps_pos hv
      cases t with
      | negative => exact neg_lt_zero.mpr (positive hk)
      | positive =>
          simp only [place, Sign.apply] at behind
          omega
  · have := steps_pos hu
    rcases isFinite_cases finite_v with ⟨t, rfl⟩ | ⟨t, k, f, hk, rfl⟩
    · cases s with
      | negative =>
          simp only [place, Sign.apply] at behind
          omega
      | positive => exact positive hm
    · have := steps_pos hv
      cases s <;> cases t <;> simp only [place, Sign.apply] at behind
      · exact neg_lt_neg (mul_zpow_lt_of_steps_lt hu hv (by omega))
      · omega
      · exact (neg_lt_zero.mpr (positive hk)).trans (positive hm)
      · exact mul_zpow_lt_of_steps_lt hv hu (by omega)

/-- The first number that is too large for a finite double, two to the power 1024. -/
def limit : ℚ := 2 ^ 53 * 2 ^ (971 : ℤ)

theorem limit_pos : 0 < limit := by
  unfold limit
  positivity

theorem mul_zpow_lt_limit {x : ℚ} {e : Int} (bits : x < 2 ^ 53) (inner : e ≤ 971) :
    x * 2 ^ e < limit := by
  have unit : (2 : ℚ) ^ e ≤ 2 ^ (971 : ℤ) := zpow_le_zpow_right₀ (by norm_num) inner
  calc x * 2 ^ e < 2 ^ 53 * 2 ^ e := by gcongr
    _ ≤ 2 ^ 53 * 2 ^ (971 : ℤ) := by gcongr

theorem abs_value_lt {u : UnpackedFloat} (canonical : Canonical u) (finite : u.isFinite) :
    |value u| < limit := by
  rcases isFinite_cases finite with ⟨s, rfl⟩ | ⟨s, m, e, hm, rfl⟩
  · show |(0 : ℚ)| < limit
    rw [abs_zero]
    exact limit_pos
  · have nonneg : (0 : ℚ) ≤ m * 2 ^ e := by positivity
    have signless : |value (.finite s m e hm)| = m * 2 ^ e := by
      cases s with
      | negative => exact (abs_neg _).trans (abs_of_nonneg nonneg)
      | positive => exact abs_of_nonneg nonneg
    rw [signless]
    exact mul_zpow_lt_limit (by exact_mod_cast canonical.1) canonical.2.2.1

/-! ## Finite doubles -/

/-- The number that a finite double stands for. -/
def toRat (x : Float) : ℚ := value x.toModel.unpack

variable {x y : Float}

theorem toRat_le_of_le (finite_x : x.isFinite) (finite_y : y.isFinite) (h : x ≤ y) :
    toRat x ≤ toRat y :=
  value_le_of_place_le (canonical_unpack _) (canonical_unpack _) finite_x finite_y (le_iff.mp h).2.2

theorem toRat_congr (finite_x : x.isFinite) (finite_y : y.isFinite) (same : rank x = rank y) :
    toRat x = toRat y :=
  le_antisymm
    (value_le_of_place_le (canonical_unpack _) (canonical_unpack _) finite_x finite_y same.le)
    (value_le_of_place_le (canonical_unpack _) (canonical_unpack _) finite_y finite_x same.ge)

theorem toRat_nonneg (finite : x.isFinite) (nonneg : 0.0 ≤ x) : 0 ≤ toRat x := by
  have zero : toRat 0.0 = 0 := rfl
  rw [← zero]
  exact toRat_le_of_le (by decide) finite nonneg

theorem toRat_lt_of_lt (finite_x : x.isFinite) (finite_y : y.isFinite) (h : x < y) :
    toRat x < toRat y := by
  by_contra above
  have behind := place_le_of_value_le (canonical_unpack _) (canonical_unpack _) finite_y finite_x
    (not_lt.mp above)
  exact absurd (lt_iff.mp h).2.2 (not_lt.mpr behind)

theorem toRat_pos (finite : x.isFinite) (positive : 0.0 < x) : 0 < toRat x := by
  have zero : toRat 0.0 = 0 := rfl
  rw [← zero]
  exact toRat_lt_of_lt (by decide) finite positive

theorem not_isNaN_of_isFinite (finite : x.isFinite) : ¬x.isNaN := by
  show ¬x.toModel.unpack.isNaN = true
  rcases isFinite_cases finite with ⟨s, shape⟩ | ⟨s, m, e, hm, shape⟩
  · rw [shape]
    exact Bool.false_ne_true
  · rw [shape]
    exact Bool.false_ne_true

theorem rank_lt_of_isFinite (finite : x.isFinite) : rank x < 2047 * 2 ^ 52 := by
  have canonical := canonical_unpack x.toModel
  rw [rank]
  rcases isFinite_cases finite with ⟨s, shape⟩ | ⟨s, m, e, hm, shape⟩
  · rw [shape]
    exact (by decide : (0 : Int) < 2047 * 2 ^ 52)
  · rw [shape] at canonical ⊢
    have := steps_pos canonical
    have := steps_lt canonical
    cases s <;> simp only [place, Sign.apply] <;> omega

theorem isFinite_of_rank_lt (number : ¬x.isNaN) (nonneg : 0 ≤ rank x)
    (below : rank x < 2047 * 2 ^ 52) : x.isFinite := by
  show x.toModel.unpack.isFinite = true
  change ¬x.toModel.unpack.isNaN = true at number
  simp only [rank] at nonneg below
  cases shape : x.toModel.unpack with
  | notANumber =>
      rw [shape] at number
      exact absurd rfl number
  | infinity s =>
      rw [shape] at nonneg below
      cases s <;> simp only [place, Sign.apply] at nonneg below <;> omega
  | zero s => rfl
  | finite s m e hm => rfl

theorem isFinite_of_lt_infinity (nonneg : 0.0 ≤ x) (below : x < infinity) : x.isFinite := by
  have top : rank infinity = 2047 * 2 ^ 52 := by decide
  obtain ⟨number, -, less⟩ := lt_iff.mp below
  rw [top] at less
  exact isFinite_of_rank_lt number (le_iff.mp nonneg).2.2 less

theorem isFinite_of_le (nonneg : 0.0 ≤ x) (le : x ≤ y) (finite : y.isFinite) : x.isFinite := by
  obtain ⟨number, -, less⟩ := le_iff.mp le
  exact isFinite_of_rank_lt number (le_iff.mp nonneg).2.2 (less.trans_lt (rank_lt_of_isFinite finite))

theorem isFinite_or_eq_infinity (nonneg : 0.0 ≤ x) : x.isFinite ∨ x = infinity := by
  by_cases below : x < infinity
  · exact .inl (isFinite_of_lt_infinity nonneg below)
  · exact .inr (eq_infinity_of_not_lt (le_iff.mp nonneg).2.1 below)

/-! ## Neighbours -/

/-- Before a double that is larger than the smallest normal one there is another double, and it is
lower by no more than the smallest relative gap. -/
theorem exists_before {u : UnpackedFloat} (canonical : Canonical u) (finite : u.isFinite)
    (normal : 2 ^ 52 < place u) :
    ∃ v, Canonical v ∧ v.isFinite ∧ place v = place u - 1 ∧
      value u * (1 - 2 ^ (-52 : ℤ)) ≤ value v := by
  rcases isFinite_cases finite with ⟨s, rfl⟩ | ⟨s, m, e, hm, rfl⟩
  · exact absurd (show (2 : Int) ^ 52 < 0 from normal) (by norm_num)
  · have := steps_pos canonical
    simp only [Canonical] at canonical
    cases s with
    | negative =>
        simp only [place, Sign.apply] at normal
        omega
    | positive =>
        change 2 ^ 52 < steps m e at normal
        simp only [steps] at normal
        have bits : 2 ^ 52 ≤ m := by omega
        have large : (2 : ℚ) ^ 52 ≤ m := by exact_mod_cast bits
        -- the share that is taken away is at least one gap
        have share : (1 : ℚ) ≤ m * 2 ^ (-52 : ℤ) := by
          calc (1 : ℚ) = 2 ^ 52 * 2 ^ (-52 : ℤ) := by norm_num
            _ ≤ m * 2 ^ (-52 : ℤ) := by gcongr
        have gap : (m : ℚ) * 2 ^ e * (1 - 2 ^ (-52 : ℤ)) ≤ (m - 1) * 2 ^ e := by
          calc (m : ℚ) * 2 ^ e * (1 - 2 ^ (-52 : ℤ)) = (m - m * 2 ^ (-52 : ℤ)) * 2 ^ e := by ring
            _ ≤ (m - 1) * 2 ^ e := by gcongr
        rcases Nat.eq_or_lt_of_le bits with first | later
        · -- below the smallest full significand the gaps are half as wide
          refine ⟨.finite .positive (2 ^ 53 - 1) (e - 1) (by norm_num), ?_, rfl, ?_, gap.trans ?_⟩
          · simp only [Canonical]
            omega
          · show steps _ _ = steps _ _ - 1
            simp only [steps]
            omega
          · have unit : (0 : ℚ) < 2 ^ e := by positivity
            show ((m : ℚ) - 1) * 2 ^ e ≤ ((2 ^ 53 - 1 : ℕ) : ℚ) * 2 ^ (e - 1)
            rw [← first, zpow_sub_one₀ (by norm_num)]
            norm_num
            linarith
        · refine ⟨.finite .positive (m - 1) e (by omega), ?_, rfl, ?_, gap.trans ?_⟩
          · simp only [Canonical]
            omega
          · show steps _ _ = steps _ _ - 1
            simp only [steps]
            omega
          · show ((m : ℚ) - 1) * 2 ^ e ≤ ((m - 1 : ℕ) : ℚ) * 2 ^ e
            rw [Nat.cast_pred hm]

/-! ## Bits -/

/-- A word counts its sign, its exponent and its significand. -/
theorem toNat_eq_fields (w : BitVec Format.binary64.numBits) :
    w.toNat = (unpackSign w).toNat * 2 ^ 63 + (unpackExponent w).toNat * 2 ^ 52 +
      (unpackMantissa w).toNat := by
  have bound : w.toNat < 2 ^ 64 := w.isLt
  rw [unpackSign_def, unpackExponent_def, unpackMantissa_def]
  simp only [BitVec.extractLsb'_toNat, Nat.shiftRight_eq_div_pow]
  show w.toNat = w.toNat / 2 ^ 63 % 2 ^ 1 * 2 ^ 63 + w.toNat / 2 ^ 52 % 2 ^ 11 * 2 ^ 52 +
    w.toNat / 2 ^ 0 % 2 ^ 52
  omega

/-- Taken apart, a word with the sign plus is at the place that it counts, unless it is a NaN. -/
theorem Reading.place_of_plus {w : BitVec Format.binary64.numBits} {u : UnpackedFloat}
    (reading : Reading w u) (plus : unpackSign w = 0#1) (number : u.isNaN = false) :
    place u = w.toNat := by
  have fields := toNat_eq_fields w
  cases reading with
  | notANumber => exact absurd number (by decide)
  | zero bottom nothing =>
      rw [fields, plus, bottom, nothing]
      rfl
  | infinity top nothing =>
      rw [fields, plus, top, nothing]
      rfl
  | subnormal hm bottom significand exponent =>
      rw [fields, plus, bottom]
      show steps _ _ = _
      rw [significand, exponent]
      simp [steps]
  | normal hm above below significand exponent =>
      rw [fields, plus]
      show steps _ _ = _
      rw [significand, exponent]
      simp [steps]
      omega

/-- Taken apart, a positive word is at the place that it counts. -/
theorem Reading.place_eq {w : BitVec Format.binary64.numBits} {u : UnpackedFloat}
    (reading : Reading w u) (positive : 0 < place u) : place u = w.toNat := by
  have plus {p : Int} (hp : 0 ≤ p) (h : 0 < (Sign.ofBitVec (unpackSign w)).apply p) :
      unpackSign w = 0#1 := by
    refine Decidable.by_contra fun minus => ?_
    rw [Sign.ofBitVec, if_neg minus] at h
    simp only [Sign.apply] at h
    omega
  cases reading with
  | notANumber => exact absurd positive (Int.lt_irrefl 0)
  | zero => exact absurd positive (Int.lt_irrefl 0)
  | infinity top nothing =>
      exact (Reading.infinity top nothing).place_of_plus (plus (by norm_num) positive) rfl
  | subnormal hm bottom significand exponent =>
      have sign := plus (by simp only [steps]; omega) positive
      exact (Reading.subnormal hm bottom significand exponent).place_of_plus sign rfl
  | normal hm above below significand exponent =>
      have sign := plus (by simp only [steps]; omega) positive
      exact (Reading.normal hm above below significand exponent).place_of_plus sign rfl

/-- The rank of a positive double is the number that its bits count. -/
theorem rank_eq_toBits (positive : 0 < rank x) : rank x = x.toBits.toNat :=
  (reading_unpack x.toModel.toBits.toBitVec).place_eq positive

/-- A word that counts less than the bits of infinity is a finite one with the sign plus. -/
theorem Reading.place_of_lt {w : BitVec Format.binary64.numBits} {u : UnpackedFloat}
    (reading : Reading w u) (below : w.toNat < 2047 * 2 ^ 52) : place u = w.toNat := by
  have fields := toNat_eq_fields w
  have plus : unpackSign w = 0#1 := BitVec.eq_of_toNat_eq (by show (unpackSign w).toNat = 0; omega)
  refine reading.place_of_plus plus (reading.isNaN_eq_false fun top => ?_)
  rw [top] at fields
  change w.toNat = _ + 2047 * 2 ^ 52 + _ at fields
  omega

theorem rank_ofBits {w : UInt64} (below : w.toNat < 2047 * 2 ^ 52) :
    rank (Float.ofBits w) = w.toNat := by
  have reading := reading_unpack w.toBitVec
  show place (Float.Model.pack (UnpackedFloat.unpack Format.binary64 w.toBitVec)).unpack = w.toNat
  rw [unpack_pack reading.canonical]
  exact reading.place_of_lt below

end Metaheuristics.Binary64

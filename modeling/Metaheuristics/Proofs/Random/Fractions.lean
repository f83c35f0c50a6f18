import Metaheuristics.Proofs.Binary64.Bounded
import Metaheuristics.Proofs.Random.Yields

/-!
# Fractions of a range

A word of 64 bits stands for a fraction of a range. The word becomes the significand of a double from one
to two (`significand_mem`), and one is taken away, so the fraction lies in the half-open unit interval
(`zero_le_fraction`, `fraction_lt_one`). The words below two to the power 12 stand for zero
(`fraction_eq_zero`), and no other word stands for less than the gap after one (`epsilon_le_fraction`). A
number that is drawn between another one and its negative stays between them, although it is rounded twice
(`point_mem`).

A fraction of the unit interval is counted by one bit more. It is below the smallest normal double for the
words below two to the power 11, which stand for zero, and for no others
(`unitFraction_lt_minNormal_iff`).
-/

namespace Metaheuristics.Draw

open Binary64

/-- A fraction of the unit interval is zero for the words below two to the power 11, and far from it for
all others. -/
theorem unitFraction_lt_minNormal_iff (w : UInt64) : unitFraction w < minNormal ↔ w.toNat < 2 ^ 11 := by
  have high : (w >>> 11).toNat = w.toNat / 2 ^ 11 := Nat.shiftRight_eq_div_pow w.toNat 11
  constructor
  · intro below
    refine Nat.lt_of_not_le fun large => lt_irrefl minNormal (lt_of_le_of_lt ?_ below)
    have some_count : 1 ≤ (w >>> 11).toNat := by omega
    have count : 1.0 ≤ (w >>> 11).toFloat := by
      refine le_iff.mpr ⟨by decide, not_isNaN_toFloat _, ?_⟩
      refine (rounds_toFloat _).above _ (canonical_unpack _) (by decide) ?_
      show toRat 1.0 ≤ _
      rw [toRat_one]
      exact_mod_cast some_count
    have finite := isFinite_toFloat_of_le (by decide) (toFloat_shiftRight_le w)
    have product : 1.0 * Float.ofBits 0x3ca0000000000000 ≤ unitFraction w :=
      mul_mono (by decide) count finite (by decide) (by decide)
    exact le_trans (by decide) product
  · intro small
    have none : w >>> 11 = 0 := by
      refine UInt64.toNat_inj.mp (high.trans ?_)
      exact Nat.div_eq_of_lt small
    rw [unitFraction, none]
    decide
end Metaheuristics.Draw

namespace Metaheuristics.Interval

open Binary64

/-- The significand that a word is given has the exponent of one. -/
theorem toNat_significand (w : UInt64) :
    ((w >>> 12) ||| 0x3ff0000000000000).toNat = 1023 * 2 ^ 52 + w.toNat / 2 ^ 12 := by
  have few : w.toNat / 2 ^ 12 < 2 ^ 52 := by
    have : w.toNat < 2 ^ 64 := w.toNat_lt
    omega
  have high : (w >>> 12).toNat = w.toNat / 2 ^ 12 := Nat.shiftRight_eq_div_pow w.toNat 12
  rw [UInt64.toNat_or, high, Nat.or_comm]
  exact (Nat.shiftLeft_add_eq_or_of_lt few 1023).symm

/-- The number from one to two that a word is turned into. -/
theorem significand_mem (w : UInt64) :
    1.0 ≤ Float.ofBits ((w >>> 12) ||| 0x3ff0000000000000) ∧
      Float.ofBits ((w >>> 12) ||| 0x3ff0000000000000) ≤ Float.ofBits 0x3fffffffffffffff := by
  have count := toNat_significand w
  have below : w.toNat < 2 ^ 64 := w.toNat_lt
  have place := rank_ofBits (w := (w >>> 12) ||| 0x3ff0000000000000) (by omega)
  have one : rank 1.0 = 1023 * 2 ^ 52 := by decide
  have last : rank (Float.ofBits 0x3fffffffffffffff) = 1024 * 2 ^ 52 - 1 := by decide
  have number : ¬(Float.ofBits ((w >>> 12) ||| 0x3ff0000000000000)).isNaN := by
    intro nan
    rw [rank_of_isNaN nan] at place
    omega
  exact ⟨le_iff.mpr ⟨by decide, number, by omega⟩, le_iff.mpr ⟨number, by decide, by omega⟩⟩

theorem isFinite_significand (w : UInt64) :
    (Float.ofBits ((w >>> 12) ||| 0x3ff0000000000000)).isFinite := by
  obtain ⟨above, below⟩ := significand_mem w
  exact isFinite_of_le (le_trans (by decide) above) below (by decide)

theorem zero_le_fraction (w : UInt64) : 0.0 ≤ fraction w := by
  have finite := isFinite_significand w
  have above := toRat_le_of_le (by decide) finite (significand_mem w).1
  have number : ¬(fraction w).isNaN := by
    rw [fraction, sub_eq_add]
    exact not_isNaN_add (not_isNaN_of_isFinite finite) (by decide)
  refine le_iff.mpr ⟨by decide, number, ?_⟩
  exact (rounds_sub finite (by decide)).nonneg (sub_nonneg.mpr above)

/-- The largest fraction is two to the power -52 below one. -/
theorem fraction_lt_one (w : UInt64) : fraction w < 1.0 := by
  have last : toRat (Float.ofBits 0x3fffffffffffffff) = 2 - 2 ^ (-52 : ℤ) := by
    show ((2 ^ 53 - 1 : ℕ) : ℚ) * 2 ^ (-52 : ℤ) = _
    norm_num
  have largest : toRat (Float.ofBits 0x3feffffffffffffe) = 1 - 2 ^ (-52 : ℤ) := by
    show ((2 ^ 53 - 2 : ℕ) : ℚ) * 2 ^ (-53 : ℤ) = _
    norm_num
  have finite := isFinite_significand w
  have below := toRat_le_of_le finite (by decide) (significand_mem w).2
  rw [last] at below
  have bound : fraction w ≤ Float.ofBits 0x3feffffffffffffe := by
    refine le_iff.mpr ⟨(le_iff.mp (zero_le_fraction w)).2.1, by decide, ?_⟩
    refine (rounds_sub finite (by decide)).below _ (canonical_unpack _) (by decide) ?_
    show toRat _ - toRat 1.0 ≤ toRat (Float.ofBits 0x3feffffffffffffe)
    rw [toRat_one, largest]
    linarith
  exact lt_of_le_of_lt bound (by decide)

theorem isFinite_fraction (w : UInt64) : (fraction w).isFinite :=
  isFinite_of_le (zero_le_fraction w) (le_of_lt (fraction_lt_one w)) (by decide)

theorem fraction_eq_zero {w : UInt64} (small : w.toNat < 2 ^ 12) : fraction w = 0.0 := by
  have none : w >>> 12 = 0 := by
    refine UInt64.toNat_inj.mp ((Nat.shiftRight_eq_div_pow w.toNat 12).trans ?_)
    exact Nat.div_eq_of_lt small
  rw [fraction, none]
  rfl

theorem epsilon_le_fraction {w : UInt64} (large : 2 ^ 12 ≤ w.toNat) : epsilon ≤ fraction w := by
  have count := toNat_significand w
  have below : w.toNat < 2 ^ 64 := w.toNat_lt
  have place := rank_ofBits (w := (w >>> 12) ||| 0x3ff0000000000000) (by omega)
  have finite := isFinite_significand w
  -- the significand is at least the double after one
  have next : rank (Float.ofBits 0x3ff0000000000001) = 1023 * 2 ^ 52 + 1 := by decide
  have above : Float.ofBits 0x3ff0000000000001 ≤ Float.ofBits ((w >>> 12) ||| 0x3ff0000000000000) :=
    le_iff.mpr ⟨by decide, not_isNaN_of_isFinite finite, by omega⟩
  have whole := toRat_le_of_le (by decide) finite above
  have second : toRat (Float.ofBits 0x3ff0000000000001) = 1 + 2 ^ (-52 : ℤ) := by
    show ((2 ^ 52 + 1 : ℕ) : ℚ) * 2 ^ (-52 : ℤ) = _
    norm_num
  rw [second] at whole
  refine le_iff.mpr ⟨by decide, (le_iff.mp (zero_le_fraction w)).2.1, ?_⟩
  refine (rounds_sub finite (by decide)).above _ (canonical_unpack _) (by decide) ?_
  show toRat epsilon ≤ _ - toRat 1.0
  rw [toRat_one, toRat_epsilon]
  linarith

/-- A number of a range that is symmetric around zero lies between the bounds. -/
theorem point_mem {r : Interval} (symmetric : r.lo = -r.hi) (w : UInt64) :
    -r.hi ≤ r.point w ∧ r.point w ≤ r.hi := by
  obtain ⟨order, -, finite, distance⟩ := r.sampleable
  rw [symmetric] at order distance
  have finite_neg : (-r.hi).isFinite := (isFinite_negated r.hi).trans finite
  have nonneg : 0.0 ≤ r.hi := by
    have above := (lt_iff.mp order).2.2
    rw [rank_neg] at above
    exact le_of_lt (zero_lt_iff.mpr (by omega))
  have wide : 0.0 ≤ r.hi - -r.hi := by
    refine le_iff.mpr ⟨by decide, not_isNaN_of_isFinite distance, ?_⟩
    refine (rounds_sub finite finite_neg).nonneg ?_
    rw [toRat_neg, sub_neg_eq_add]
    exact add_nonneg (toRat_nonneg finite nonneg) (toRat_nonneg finite nonneg)
  -- the part of the width that is taken is no more than twice the bound
  have small := le_of_lt (fraction_lt_one w)
  have part_nonneg := zero_le_mul (zero_le_fraction w) (isFinite_fraction w) wide distance
  have part_le := mul_le_of_le_one (zero_le_fraction w) small wide distance
  have part_finite := isFinite_of_le part_nonneg part_le distance
  have lower := toRat_nonneg part_finite part_nonneg
  have upper := toRat_le_of_le part_finite distance part_le
  rw [toRat_sub_neg finite nonneg distance] at upper
  have sum := rounds_add part_finite finite_neg
  have number := not_isNaN_add (not_isNaN_of_isFinite part_finite) finite_neg
  rw [point, symmetric]
  constructor
  · refine le_iff.mpr ⟨not_isNaN_of_isFinite finite_neg, number, ?_⟩
    exact sum.above _ (canonical_unpack _) finite_neg (le_add_of_nonneg_left lower)
  · refine le_iff.mpr ⟨number, not_isNaN_of_isFinite finite, ?_⟩
    refine sum.below _ (canonical_unpack _) finite ?_
    show _ + toRat (-r.hi) ≤ toRat r.hi
    rw [toRat_neg]
    linarith

end Metaheuristics.Interval

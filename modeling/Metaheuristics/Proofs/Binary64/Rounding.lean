import Metaheuristics.Proofs.Binary64.Value

/-!
# Rounding

A number is rounded by dropping bits until a significand is left, and no double lies strictly between
the number and what it is rounded to (`Lands`). Collected here:

* what is left of a number when low bits of its significand are dropped (`Encloses`);
* the significand is rounded up or down to a neighbour, and where the exact number is a neighbour, to
  that one (`Encloses.le_rounded`, `Encloses.rounded_le`);
* so there is no double between the exact number and the rounded one, whatever their size
  (`lands_of_neighbours`), and what is too large becomes infinite (`rounds_roundWithAccuracy`,
  `rounds_round`).
-/

namespace Metaheuristics.Binary64

open Float.Model UnpackedFloat

/-! ## Dropping bits -/

/-- A significand and its two residual bits tell the whole part of a number, and whether there is
anything else to it. -/
structure Encloses (em : ExtendedMantissa) (x : ℚ) : Prop where
  lower : (em.mantissa : ℚ) ≤ x
  upper : x < em.mantissa + 1
  exact : em.roundBit = false ∧ em.stickyBit = false ↔ x = em.mantissa

namespace Encloses

variable {em : ExtendedMantissa} {x : ℚ}

theorem ofNat (m : Nat) : Encloses (.ofMantissaAndAccuracy m .exact) m :=
  ⟨le_rfl, lt_add_one _, iff_of_true ⟨rfl, rfl⟩ rfl⟩

/-- Dropping a bit halves the number. -/
theorem shiftRightOne (h : Encloses em x) : Encloses em.shiftRightOne (x / 2) := by
  have whole : (em.mantissa : ℚ) = 2 * (em.mantissa / 2 : ℕ) + (em.mantissa % 2 : ℕ) := by
    exact_mod_cast (Nat.div_add_mod em.mantissa 2).symm
  have bit : ((em.mantissa % 2 : ℕ) : ℚ) ≤ 1 := by
    exact_mod_cast Nat.le_of_lt_succ (Nat.mod_lt _ (by norm_num))
  have bit_nonneg : (0 : ℚ) ≤ (em.mantissa % 2 : ℕ) := Nat.cast_nonneg _
  have lower := h.lower
  have upper := h.upper
  constructor
  · show ((em.mantissa / 2 : ℕ) : ℚ) ≤ x / 2
    linarith
  · show x / 2 < ((em.mantissa / 2 : ℕ) : ℚ) + 1
    linarith
  · show (em.mantissa % 2 != 0) = false ∧ (em.roundBit || em.stickyBit) = false ↔
      x / 2 = ((em.mantissa / 2 : ℕ) : ℚ)
    rw [bne_eq_false_iff_eq, Bool.or_eq_false_iff, h.exact]
    constructor
    · rintro ⟨even, rfl⟩
      rw [even] at whole
      push_cast at whole
      linarith
    · intro half
      -- the bit that is dropped is part of the number, so it is zero
      have zero : ((em.mantissa % 2 : ℕ) : ℚ) = 0 := by linarith
      exact ⟨by exact_mod_cast zero, by linarith⟩

theorem shiftRight (h : Encloses em x) (k : Nat) : Encloses (em >>> k) (x / 2 ^ k) := by
  induction k with
  | zero =>
      rw [pow_zero, div_one]
      exact h
  | succ k ih =>
      rw [pow_succ, ← div_div]
      exact ih.shiftRightOne

/-- A natural number that is not above the exact one is not above the rounded one. -/
theorem le_rounded (h : Encloses em x) {n : Nat} (le : (n : ℚ) ≤ x) : n ≤ em.roundedMantissa := by
  have below : n ≤ em.mantissa := by
    have := le.trans_lt h.upper
    exact Nat.le_of_lt_succ (by exact_mod_cast this)
  refine below.trans ?_
  rcases em with ⟨m, r, s⟩
  cases r <;> cases s <;>
    simp [ExtendedMantissa.roundedMantissa, ExtendedMantissa.accuracy, Accuracy.roundToNearestEven]

/-- A natural number that is not below the exact one is not below the rounded one. -/
theorem rounded_le (h : Encloses em x) {n : Nat} (le : x ≤ n) : em.roundedMantissa ≤ n := by
  have above : em.mantissa ≤ n := by exact_mod_cast h.lower.trans le
  have strict (residue : ¬(em.roundBit = false ∧ em.stickyBit = false)) : em.mantissa < n := by
    have apart : (em.mantissa : ℚ) < x := lt_of_le_of_ne h.lower fun same => residue (h.exact.mpr same.symm)
    exact_mod_cast apart.trans_le le
  rcases em with ⟨m, r, s⟩
  cases r <;> cases s
  · exact above
  · exact above
  · have := strict (by simp)
    show m + m % 2 ≤ n
    simp only at this
    omega
  · exact strict (by simp)

end Encloses

/-! ## Landing between neighbours -/

/-- No finite double lies strictly between the number `q` and the place `p`. -/
structure Lands (q : ℚ) (p : Int) : Prop where
  above : ∀ u, Canonical u → u.isFinite → value u ≤ q → place u ≤ p
  below : ∀ u, Canonical u → u.isFinite → q ≤ value u → p ≤ place u

/-- In units of `2 ^ t`, a number `x` is rounded to a natural number `r` next to it. There are no
doubles between them when `x` has as many bits as a significand, or `t` is the smallest exponent. -/
theorem lands_of_neighbours {x : ℚ} {r : Nat} {t : Int} (nonneg : 0 ≤ x)
    (down : ∀ n : Nat, (n : ℚ) ≤ x → n ≤ r) (up : ∀ n : Nat, x ≤ n → r ≤ n)
    (small : x < 2 ^ 53) (low : -1074 ≤ t) (full : t = -1074 ∨ 2 ^ 52 ≤ x) :
    Lands (x * 2 ^ t) (steps r t) := by
  have unit : (0 : ℚ) < 2 ^ t := by positivity
  have rounded : r ≤ 2 ^ 53 := up (2 ^ 53) (by exact_mod_cast small.le)
  have filled : t = -1074 ∨ 2 ^ 52 ≤ r :=
    full.imp_right fun h => down (2 ^ 52) (by exact_mod_cast h)
  have nonneg_steps : 0 ≤ steps r t := by
    simp only [steps]
    omega
  constructor
  · intro u canonical finite le
    rcases isFinite_cases finite with ⟨s, rfl⟩ | ⟨s, m, e, hm, rfl⟩
    · exact nonneg_steps
    · have positive := steps_pos canonical
      simp only [Canonical] at canonical
      cases s with
      | negative =>
          simp only [place, Sign.apply]
          omega
      | positive =>
          change (m : ℚ) * 2 ^ e ≤ x * 2 ^ t at le
          show steps m e ≤ steps r t
          rcases lt_trichotomy e t with before | rfl | after
          · simp only [steps]
            omega
          · have := down m (le_of_mul_le_mul_right le unit)
            simp only [steps]
            omega
          · -- a double with a larger exponent is above the exact number
            have large : (2 : ℚ) ^ 52 ≤ m := by
              have : 2 ^ 52 ≤ m := by omega
              exact_mod_cast this
            have : x * 2 ^ t < m * 2 ^ e :=
              calc x * 2 ^ t < 2 ^ 53 * 2 ^ t := by gcongr
                _ ≤ 2 ^ 52 * 2 ^ e := two_pow_mul_zpow_le after
                _ ≤ m * 2 ^ e := by gcongr
            exact absurd le (not_le.mpr this)
  · intro u canonical finite le
    rcases isFinite_cases finite with ⟨s, rfl⟩ | ⟨s, m, e, hm, rfl⟩
    · have none : x ≤ 0 := by
        by_contra positive
        exact absurd le (not_le.mpr (mul_pos (not_le.mp positive) unit))
      have : r ≤ 0 := up 0 (by exact_mod_cast none)
      show steps r t ≤ 0
      simp only [steps]
      omega
    · have positive := steps_pos canonical
      simp only [Canonical] at canonical
      have number : (0 : ℚ) < m * 2 ^ e := by positivity
      cases s with
      | negative =>
          change x * 2 ^ t ≤ -((m : ℚ) * 2 ^ e) at le
          have : 0 ≤ x * 2 ^ t := by positivity
          linarith
      | positive =>
          change x * 2 ^ t ≤ (m : ℚ) * 2 ^ e at le
          show steps r t ≤ steps m e
          rcases lt_trichotomy e t with before | rfl | after
          · -- a double with a smaller exponent is below the exact number
            have large : (2 : ℚ) ^ 52 ≤ x := full.resolve_left (by omega)
            have bits : (m : ℚ) < 2 ^ 53 := by exact_mod_cast canonical.1
            have : (m : ℚ) * 2 ^ e < x * 2 ^ t :=
              calc (m : ℚ) * 2 ^ e < 2 ^ 53 * 2 ^ e := by gcongr
                _ ≤ 2 ^ 52 * 2 ^ t := two_pow_mul_zpow_le before
                _ ≤ x * 2 ^ t := by gcongr
            exact absurd le (not_le.mpr this)
          · have := up m (le_of_mul_le_mul_right le unit)
            simp only [steps]
            omega
          · simp only [steps]
            omega

/-! ## The steps of rounding -/

theorem targetExponent_eq (m : Nat) (e : Int) :
    Format.binary64.targetExponent (totalExponent m e) = max (m.log2 + 1 + e - 53) (-1074) := rfl

/-- A number with enough bits is first cut down to a significand. -/
theorem cut_spec {m : Nat} {e : Int} {a : Accuracy} {x : ℚ}
    (h : Encloses (.ofMantissaAndAccuracy m a) x) (enough : 2 ^ 52 ≤ m ∨ e ≤ -1074) :
    ∃ (k : Nat) (t : Int), shiftToTargetExponent Format.binary64 m e a =
        (ExtendedMantissa.ofMantissaAndAccuracy m a >>> k, t) ∧
      x * 2 ^ e = x / 2 ^ k * 2 ^ t ∧ -1074 ≤ t ∧ x / 2 ^ k < 2 ^ 53 ∧
      (t = -1074 ∨ 2 ^ 52 ≤ x / 2 ^ k) := by
  have whole : (ExtendedMantissa.ofMantissaAndAccuracy m a).mantissa = m := by
    rcases a with _ | _ | _ | _ <;> rfl
  have lower : (m : ℚ) ≤ x := whole ▸ h.lower
  have upper : x < m + 1 := whole ▸ h.upper
  have log_of_full : 2 ^ 52 ≤ m → 52 ≤ m.log2 := fun full => (Nat.le_log2 (by omega)).mpr full
  generalize target : max (m.log2 + 1 + e - 53 : Int) (-1074) = t
  obtain ⟨k, shift⟩ := Int.le.dest (show e ≤ t by omega)
  refine ⟨k, t, ?_, ?_, by omega, ?_, ?_⟩
  · have amount : (t - e).toNat = k := by omega
    rw [shiftToTargetExponent, targetExponent_eq, target]
    simp only [shiftToExponent]
    rw [amount, shift]
  · rw [← shift, zpow_add₀ (by norm_num), zpow_natCast]
    field_simp
  · have bits : m + 1 ≤ 2 ^ (k + 53) := by
      have : m < 2 ^ (m.log2 + 1) := Nat.lt_log2_self
      have : 2 ^ (m.log2 + 1) ≤ 2 ^ (k + 53) := Nat.pow_le_pow_right (by norm_num) (by omega)
      omega
    rw [div_lt_iff₀ (by positivity), ← pow_add, Nat.add_comm]
    exact upper.trans_le (by exact_mod_cast bits)
  · by_cases lowest : t = -1074
    · exact .inl lowest
    · have some_bit : m ≠ 0 := by
        rintro rfl
        simp only [Nat.log2_zero] at target
        omega
      have bits : 2 ^ (52 + k) ≤ m := (Nat.le_log2 some_bit).mp (by omega)
      refine .inr ?_
      have large : (2 : ℚ) ^ (52 + k) ≤ m := by exact_mod_cast bits
      rw [le_div_iff₀ (by positivity), ← pow_add]
      exact large.trans lower

/-- Rounding up may carry into one bit too many, and then the exponent makes up for it. -/
theorem carry_spec {r : Nat} {t : Int} (bits : r ≤ 2 ^ 53) (low : -1074 ≤ t)
    (filled : t = -1074 ∨ 2 ^ 52 ≤ r) :
    ∃ em e, shiftToTargetExponent Format.binary64 r t .exact = (em, e) ∧ em.mantissa < 2 ^ 53 ∧
      -1074 ≤ e ∧ (2 ^ 52 ≤ em.mantissa ∨ e = -1074) ∧ steps em.mantissa e = steps r t := by
  rcases Nat.lt_or_eq_of_le bits with fits | rfl
  · have log : r.log2 ≤ 52 := by
      by_cases none : r = 0
      · rw [none]
        decide
      · exact Nat.le_of_lt_succ ((Nat.log2_lt none).mpr fits)
    have same : (max (r.log2 + 1 + t - 53 : Int) (-1074) - t).toNat = 0 := by omega
    refine ⟨⟨r, false, false⟩, t, ?_, fits, low, filled.symm, rfl⟩
    rw [shiftToTargetExponent, targetExponent_eq]
    simp only [shiftToExponent]
    rw [same]
    exact Prod.ext rfl (Int.add_zero t)
  · have next : (max ((2 ^ 53 : Nat).log2 + 1 + t - 53 : Int) (-1074) - t).toNat = 1 := by
      rw [Nat.log2_two_pow]
      omega
    refine ⟨⟨2 ^ 52, false, false⟩, t + 1, ?_, by norm_num, by omega, .inl le_rfl, ?_⟩
    · rw [shiftToTargetExponent, targetExponent_eq]
      simp only [shiftToExponent]
      rw [next]
      rfl
    · simp only [steps]
      push_cast
      ring

/-- The place of a word that is put together from a significand: beyond the largest exponent it is
that of infinity. -/
theorem place_unpack_pack {s : Sign} {m : Nat} {e : Int} {hm : 0 < m} (bits : m < 2 ^ 53)
    (low : -1074 ≤ e) (full : 2 ^ 52 ≤ m ∨ e = -1074) :
    place (Float.Model.pack (.finite s m e hm)).unpack =
      s.apply (min (steps m e) (2047 * 2 ^ 52)) := by
  by_cases inner : e ≤ 971
  · have canonical : Canonical (.finite s m e hm) := ⟨bits, low, inner, full⟩
    rw [unpack_pack canonical, min_eq_left (steps_lt canonical).le]
    rfl
  · have overflow : UnpackedFloat.pack Format.binary64 (.finite s m e hm) =
        UnpackedFloat.pack Format.binary64 (.infinity s) := by
      refine if_pos ?_
      show 2 ^ 11 ≤ (e + (1023 : Nat) + (52 : Nat)).toNat + 1
      omega
    have infinite : (Float.Model.pack (.finite s m e hm)).unpack = .infinity s := by
      rw [← unpack_pack (u := .infinity s) trivial]
      exact congrArg (UnpackedFloat.unpack Format.binary64) overflow
    rw [infinite, min_eq_right]
    · rfl
    · simp only [steps]
      omega

/-! ## Rounding -/

theorem canonical_neg {u : UnpackedFloat} (canonical : Canonical u) : Canonical u.neg := by
  cases u with
  | finite s m e hm => exact canonical
  | _ => trivial

theorem isFinite_neg (u : UnpackedFloat) : u.neg.isFinite = u.isFinite := by
  cases u <;> rfl

theorem value_neg (u : UnpackedFloat) : value u.neg = -value u := by
  cases u with
  | finite s m e hm =>
      cases s with
      | negative => exact (neg_neg _).symm
      | positive => rfl
  | _ => exact neg_zero.symm

theorem place_neg (u : UnpackedFloat) : place u.neg = -place u := by
  cases u with
  | notANumber => rfl
  | zero s => rfl
  | infinity s => cases s <;> rfl
  | finite s m e hm =>
      cases s with
      | negative => exact (Int.neg_neg _).symm
      | positive => rfl

namespace Lands

variable {q : ℚ} {p : Int}

theorem zero : Lands 0 0 := by
  have lowest := lands_of_neighbours (x := 0) (r := 0) (t := -1074) le_rfl
    (fun n le => by exact_mod_cast le) (fun n _ => Nat.zero_le n) (by norm_num) le_rfl (.inl rfl)
  rw [zero_mul] at lowest
  exact lowest

/-- No double is farther off than infinity. -/
theorem min_top (h : Lands q p) : Lands q (min p (2047 * 2 ^ 52)) where
  above u canonical finite le := le_min (h.above u canonical finite le) (place_le canonical)
  below u canonical finite le := (min_le_left _ _).trans (h.below u canonical finite le)

theorem neg (h : Lands q p) : Lands (-q) (-p) := by
  constructor
  · intro u canonical finite le
    have mirrored := h.below u.neg (canonical_neg canonical) ((isFinite_neg u).trans finite)
      (by rw [value_neg]; exact le_neg_of_le_neg le)
    rw [place_neg] at mirrored
    omega
  · intro u canonical finite le
    have mirrored := h.above u.neg (canonical_neg canonical) ((isFinite_neg u).trans finite)
      (by rw [value_neg]; exact neg_le_of_neg_le le)
    rw [place_neg] at mirrored
    omega

/-- What is not negative is not rounded to a negative double. -/
theorem nonneg (h : Lands q p) (le : 0 ≤ q) : 0 ≤ p :=
  h.above (.zero .positive) trivial rfl le

theorem nonpos (h : Lands q p) (le : q ≤ 0) : p ≤ 0 :=
  h.below (.zero .positive) trivial rfl le

/-- What is at least the smallest positive double does not vanish. -/
theorem pos (h : Lands q p) (le : 2 ^ (-1074 : ℤ) ≤ q) : 0 < p := by
  have canonical : Canonical (.finite .positive 1 (-1074) Nat.one_pos) := by simp [Canonical]
  refine h.above _ canonical rfl ?_
  show ((1 : ℕ) : ℚ) * 2 ^ (-1074 : ℤ) ≤ q
  rw [Nat.cast_one, one_mul]
  exact le

end Lands

/-- What a number is rounded to: the place of a double next to it, or beyond all finite doubles that of
an infinity. -/
structure Rounds (q : ℚ) (p : Int) : Prop extends Lands q p where
  top : limit ≤ q → p = 2047 * 2 ^ 52
  bottom : q ≤ -limit → p = -(2047 * 2 ^ 52)

namespace Rounds

variable {q : ℚ} {p : Int}

theorem zero : Rounds 0 0 where
  toLands := .zero
  top large := absurd large (not_le.mpr limit_pos)
  bottom large := absurd large (not_le.mpr (neg_neg_of_pos limit_pos))

theorem signed (h : Rounds q p) (s : Sign) : Rounds (signed s q) (s.apply p) := by
  cases s with
  | positive => exact h
  | negative =>
      refine ⟨h.neg, fun large => ?_, fun large => ?_⟩
      · have := h.bottom (le_neg_of_le_neg large)
        simp only [Sign.apply]
        omega
      · have := h.top (neg_le_neg_iff.mp large)
        simp only [Sign.apply]
        omega

/-- A double is its own rounding. -/
theorem ofCanonical {u : UnpackedFloat} (canonical : Canonical u) (finite : u.isFinite) :
    Rounds (value u) (place u) := by
  have bound := abs_value_lt canonical finite
  rw [abs_lt] at bound
  refine ⟨⟨fun v hv finite_v le => ?_, fun v hv finite_v le => ?_⟩, fun large => ?_, fun large => ?_⟩
  · exact place_le_of_value_le hv canonical finite_v finite le
  · exact place_le_of_value_le canonical hv finite finite_v le
  · exact absurd bound.2 (not_lt.mpr large)
  · exact absurd bound.1 (not_lt.mpr large)

end Rounds

/-- In the same units as before, with the exponents cut off where those of the doubles end. -/
theorem rounds_of_neighbours {x : ℚ} {r : Nat} {t : Int} (nonneg : 0 ≤ x)
    (down : ∀ n : Nat, (n : ℚ) ≤ x → n ≤ r) (up : ∀ n : Nat, x ≤ n → r ≤ n)
    (small : x < 2 ^ 53) (low : -1074 ≤ t) (full : t = -1074 ∨ 2 ^ 52 ≤ x) :
    Rounds (x * 2 ^ t) (min (steps r t) (2047 * 2 ^ 52)) := by
  refine ⟨(lands_of_neighbours nonneg down up small low full).min_top, fun large => ?_, fun large => ?_⟩
  · -- so large a number needs an exponent that no double has
    have beyond : 971 < t := by
      by_contra inner
      exact absurd large (not_le.mpr (mul_zpow_lt_limit small (not_lt.mp inner)))
    have filled : 2 ^ 52 ≤ r := down (2 ^ 52) (by exact_mod_cast full.resolve_left (by omega))
    rw [min_eq_right]
    simp only [steps]
    omega
  · have positive : 0 ≤ x * 2 ^ t := by positivity
    linarith [limit_pos]

/-- A number with enough bits is cut down to a significand, and that is rounded. Beyond the largest
exponent there is only infinity. -/
theorem place_roundWithAccuracy {m : Nat} {e : Int} {a : Accuracy} {x : ℚ} (s : Sign)
    (h : Encloses (.ofMantissaAndAccuracy m a) x) (enough : 2 ^ 52 ≤ m ∨ e ≤ -1074) :
    ∃ (k : Nat) (t : Int), x * 2 ^ e = x / 2 ^ k * 2 ^ t ∧ -1074 ≤ t ∧ x / 2 ^ k < 2 ^ 53 ∧
      (t = -1074 ∨ 2 ^ 52 ≤ x / 2 ^ k) ∧
      place (Float.Model.pack (roundWithAccuracy Format.binary64 s m e a)).unpack =
        s.apply (min (steps (ExtendedMantissa.ofMantissaAndAccuracy m a >>> k).roundedMantissa t)
          (2047 * 2 ^ 52)) := by
  obtain ⟨k, t, cut, same, low, small, full⟩ := cut_spec h enough
  have encloses := h.shiftRight k
  have bits := encloses.rounded_le (n := 2 ^ 53) (by exact_mod_cast small.le)
  have filled := full.imp_right fun large =>
    encloses.le_rounded (n := 2 ^ 52) (by exact_mod_cast large)
  obtain ⟨final, f, carry, fits, lowest, whole, kept⟩ := carry_spec bits low filled
  refine ⟨k, t, same, low, small, full, ?_⟩
  rw [← kept]
  unfold roundWithAccuracy
  simp only [cut, carry]
  split
  · rename_i nothing
    have underflow : steps final.mantissa f = 0 := by
      simp only [steps]
      omega
    rw [underflow, unpack_pack (u := .zero s) trivial, min_eq_left (by norm_num)]
    cases s <;> rfl
  · exact place_unpack_pack fits lowest whole

/-- A number with enough bits is rounded to a double next to it. -/
theorem rounds_roundWithAccuracy {m : Nat} {e : Int} {a : Accuracy} {x : ℚ} (s : Sign)
    (h : Encloses (.ofMantissaAndAccuracy m a) x) (enough : 2 ^ 52 ≤ m ∨ e ≤ -1074) :
    Rounds (signed s (x * 2 ^ e))
      (place (Float.Model.pack (roundWithAccuracy Format.binary64 s m e a)).unpack) := by
  obtain ⟨k, t, same, low, small, full, rounded⟩ := place_roundWithAccuracy s h enough
  have encloses := h.shiftRight k
  have nonneg : 0 ≤ x / 2 ^ k := (Nat.cast_nonneg _).trans encloses.lower
  rw [same, rounded]
  exact (rounds_of_neighbours nonneg (fun n => encloses.le_rounded) (fun n => encloses.rounded_le)
    small low full).signed s

/-- A number is given enough bits before it is rounded. -/
theorem round_spec {m : Nat} {e : Int} (s : Sign) (positive : 0 < m) :
    ∃ (n : Nat) (f : Int), UnpackedFloat.round Format.binary64 s m e =
        roundWithAccuracy Format.binary64 s n f .exact ∧
      (m * 2 ^ e : ℚ) = n * 2 ^ f ∧ (2 ^ 52 ≤ n ∨ f ≤ -1074) := by
  unfold UnpackedFloat.round
  simp only [targetExponent_eq, decreaseExponent]
  generalize target : max (m.log2 + 1 + e - 53 : Int) (-1074) = t
  generalize amount : (e - t).toNat = k
  refine ⟨m <<< k, e - k, rfl, ?_, ?_⟩
  · rw [Nat.shiftLeft_eq, zpow_sub₀ (by norm_num), zpow_natCast]
    push_cast
    field_simp
  · by_cases low : e - k ≤ -1074
    · exact .inr low
    · have bits : 2 ^ m.log2 ≤ m := Nat.log2_self_le positive.ne'
      have shifted : 2 ^ 52 ≤ 2 ^ (m.log2 + k) := Nat.pow_le_pow_right (by norm_num) (by omega)
      refine .inl (shifted.trans ?_)
      rw [Nat.shiftLeft_eq, pow_add]
      exact Nat.mul_le_mul_right _ bits

/-- A number is rounded to a double next to it. -/
theorem rounds_round {m : Nat} {e : Int} (s : Sign) (positive : 0 < m) :
    Rounds (signed s (m * 2 ^ e))
      (place (Float.Model.pack (UnpackedFloat.round Format.binary64 s m e)).unpack) := by
  obtain ⟨n, f, same, whole, enough⟩ := round_spec (e := e) s positive
  rw [whole, same]
  exact rounds_roundWithAccuracy s (.ofNat n) enough

end Metaheuristics.Binary64

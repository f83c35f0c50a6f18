import Metaheuristics.Proofs.Binary64.Arithmetic

/-!
# Rounding keeps the order

A number is rounded to the nearest double, and halfway between two to the even one. What it is rounded
to depends on the number alone and not on the operands that it comes from, and a larger number is never
rounded to a smaller double. Collected here:

* the residual bits tell which natural number is nearest (`Halves`, `nearestEven`), and larger numbers
  are nearest to larger ones (`nearestEven_mono`);
* so it is at any exponent, since a number with a larger exponent is larger (`Nearest.mono`), and on both
  sides of zero, since a negative number is rounded as its negative is (`Approaches.mono`);
* a number is rounded to infinity exactly from the middle on between the largest finite double and the
  first number that has too large an exponent (`overflow`, `Approaches.eq_top_iff`);
* the nearest double is next to the number, or beyond all doubles infinity is (`Approaches.rounds`);
* sums and products of finite doubles are rounded to the nearest double (`approaches_add`,
  `approaches_mul`), and a sum with an infinite operand is that infinity or no number
  (`rank_add_of_infinite`);
* so sums grow with their operands as long as they are numbers (`add_le_add_of_numbers`, `add_mono`), and
  so do products of numbers that are not negative (`mul_mono`).
-/

namespace Metaheuristics.Binary64

open Float.Model UnpackedFloat

/-! ## The nearest natural number -/

/-- The nearest natural number, and the even one halfway between two. -/
def nearestEven (x : ℚ) : ℕ :=
  if x < ⌊x⌋₊ + 1 / 2 then ⌊x⌋₊ else if ⌊x⌋₊ + 1 / 2 < x then ⌊x⌋₊ + 1 else ⌊x⌋₊ + ⌊x⌋₊ % 2

theorem nearestEven_cases (x : ℚ) : ⌊x⌋₊ ≤ nearestEven x ∧ nearestEven x ≤ ⌊x⌋₊ + 1 := by
  unfold nearestEven
  split_ifs <;> omega

theorem nearestEven_natCast (n : ℕ) : nearestEven n = n := by
  rw [nearestEven, Nat.floor_natCast, if_pos (by linarith)]

theorem nearestEven_mono {x y : ℚ} (le : x ≤ y) : nearestEven x ≤ nearestEven y := by
  have floors : ⌊x⌋₊ ≤ ⌊y⌋₊ := Nat.floor_mono le
  have above := (nearestEven_cases x).2
  have below := (nearestEven_cases y).1
  rcases Nat.lt_or_eq_of_le floors with less | same
  · omega
  · -- both lie between the same natural numbers, so the middle decides
    unfold nearestEven
    rw [← same]
    split_ifs <;> first | omega | linarith

theorem nearestEven_le {x : ℚ} {n : ℕ} (le : x ≤ n) : nearestEven x ≤ n :=
  (nearestEven_mono le).trans (nearestEven_natCast n).le

theorem le_nearestEven {x : ℚ} {n : ℕ} (le : (n : ℚ) ≤ x) : n ≤ nearestEven x :=
  (nearestEven_natCast n).ge.trans (nearestEven_mono le)

/-- Less than half a unit above a natural number, numbers are rounded to it. -/
theorem nearestEven_of_lt {q : ℚ} {k : ℕ} (le : k ≤ q) (lt : q < k + 1 / 2) : nearestEven q = k := by
  have whole : ⌊q⌋₊ = k := (Nat.floor_eq_iff ((Nat.cast_nonneg k).trans le)).mpr ⟨le, by linarith⟩
  rw [nearestEven, whole, if_pos lt]

/-- Half a unit below an even number, numbers begin to be rounded to it. -/
theorem le_nearestEven_iff {q : ℚ} {k : ℕ} (nonneg : 0 ≤ q) (even : k % 2 = 0) :
    k ≤ nearestEven q ↔ (k : ℚ) - 1 / 2 ≤ q := by
  have below := Nat.floor_le nonneg
  have above := Nat.lt_floor_add_one q
  have cases := nearestEven_cases q
  rcases Nat.lt_trichotomy (⌊q⌋₊ + 1) k with less | next | more
  · have far : (⌊q⌋₊ : ℚ) + 2 ≤ k := by exact_mod_cast less
    exact iff_of_false (by omega) (by linarith)
  · -- the natural number below is odd, so the middle is rounded up
    have odd : ⌊q⌋₊ % 2 = 1 := by omega
    rw [← next, Nat.cast_succ, nearestEven, odd]
    by_cases under : q < ⌊q⌋₊ + 1 / 2
    · rw [if_pos under]
      exact iff_of_false (by omega) (by linarith)
    · rw [if_neg under, ite_self]
      exact iff_of_true le_rfl (by linarith)
  · have reached : (k : ℚ) ≤ ⌊q⌋₊ := by exact_mod_cast Nat.lt_succ_iff.mp more
    exact iff_of_true (by omega) (by linarith)

/-- The residual bits of a significand tell on which side of the middle between two natural numbers a
number lies. -/
structure Halves (em : ExtendedMantissa) (x : ℚ) : Prop extends Encloses em x where
  half : em.roundBit = true ↔ (em.mantissa : ℚ) + 1 / 2 ≤ x
  middle : em.roundBit = true ∧ em.stickyBit = false ↔ x = em.mantissa + 1 / 2

namespace Halves

variable {em : ExtendedMantissa} {x : ℚ}

theorem ofNat (m : Nat) : Halves (.ofMantissaAndAccuracy m .exact) m where
  toEncloses := .ofNat m
  half := by
    refine iff_of_false Bool.false_ne_true ?_
    show ¬((m : ℚ) + 1 / 2 ≤ m)
    linarith
  middle := by
    refine iff_of_false (fun both => Bool.false_ne_true both.1) ?_
    show ¬((m : ℚ) = m + 1 / 2)
    linarith

theorem shiftRightOne (h : Halves em x) : Halves em.shiftRightOne (x / 2) := by
  have whole : (em.mantissa : ℚ) = 2 * (em.mantissa / 2 : ℕ) + (em.mantissa % 2 : ℕ) := by
    exact_mod_cast (Nat.div_add_mod em.mantissa 2).symm
  have lower := h.lower
  have upper := h.upper
  refine ⟨h.toEncloses.shiftRightOne, ?_, ?_⟩
  · show (em.mantissa % 2 != 0) = true ↔ ((em.mantissa / 2 : ℕ) : ℚ) + 1 / 2 ≤ x / 2
    rw [bne_iff_ne]
    rcases Nat.mod_two_eq_zero_or_one em.mantissa with even | odd
    · rw [even, Nat.cast_zero] at whole
      exact iff_of_false (not_not.mpr even) (by linarith)
    · rw [odd, Nat.cast_one] at whole
      exact iff_of_true (by omega) (by linarith)
  · show (em.mantissa % 2 != 0) = true ∧ (em.roundBit || em.stickyBit) = false ↔
      x / 2 = ((em.mantissa / 2 : ℕ) : ℚ) + 1 / 2
    rw [bne_iff_ne, Bool.or_eq_false_iff, h.exact]
    rcases Nat.mod_two_eq_zero_or_one em.mantissa with even | odd
    · rw [even, Nat.cast_zero] at whole
      exact iff_of_false (fun both => both.1 even) (by linarith)
    · rw [odd, Nat.cast_one] at whole
      constructor
      · rintro ⟨-, rfl⟩
        linarith
      · intro middle
        exact ⟨by omega, by linarith⟩

theorem shiftRight (h : Halves em x) (k : Nat) : Halves (em >>> k) (x / 2 ^ k) := by
  induction k with
  | zero =>
      rw [pow_zero, div_one]
      exact h
  | succ k ih =>
      rw [pow_succ, ← div_div]
      exact ih.shiftRightOne

/-- A significand is rounded to the nearest natural number. -/
theorem roundedMantissa_eq (h : Halves em x) : em.roundedMantissa = nearestEven x := by
  have nonneg : 0 ≤ x := (Nat.cast_nonneg em.mantissa).trans h.lower
  have floor : ⌊x⌋₊ = em.mantissa := (Nat.floor_eq_iff nonneg).mpr ⟨h.lower, h.upper⟩
  have half := h.half
  have middle := h.middle
  -- one case for each pair of residual bits
  unfold nearestEven
  rw [floor]
  rcases em with ⟨m, r, s⟩
  simp only at half middle ⊢
  cases r with
  | false =>
      have below : x < m + 1 / 2 := not_le.mp fun above => Bool.false_ne_true (half.mpr above)
      rw [if_pos below]
      cases s <;> rfl
  | true =>
      have above : (m : ℚ) + 1 / 2 ≤ x := half.mp rfl
      rw [if_neg (not_lt.mpr above)]
      cases s with
      | false =>
          rw [if_neg (not_lt.mpr (middle.mp ⟨rfl, rfl⟩).le)]
          rfl
      | true =>
          have apart : x ≠ m + 1 / 2 := fun same => Bool.false_ne_true (middle.mpr same).2.symm
          rw [if_pos (lt_of_le_of_ne above apart.symm)]
          rfl

end Halves

/-! ## The nearest double -/

/-- The middle between the largest finite double and two to the power 1024. It is rounded to infinity,
since the significand of the largest finite double is odd. -/
def overflow : ℚ := (2 ^ 53 - 1 / 2) * 2 ^ (971 : ℤ)

theorem overflow_pos : 0 < overflow := by
  unfold overflow
  norm_num

theorem overflow_le_limit : overflow ≤ limit := by
  unfold overflow limit
  gcongr
  norm_num

/-- The place of the double nearest to a number that is not negative. In units of `2 ^ t` the number has
as many bits as a significand, unless `t` is the smallest exponent. -/
def Nearest (q : ℚ) (p : Int) : Prop :=
  ∃ (y : ℚ) (t : Int), q = y * 2 ^ t ∧ -1074 ≤ t ∧ y < 2 ^ 53 ∧ (t = -1074 ∨ 2 ^ 52 ≤ y) ∧
    p = min (steps (nearestEven y) t) (2047 * 2 ^ 52)

namespace Nearest

variable {q q' : ℚ} {p p' : Int}

theorem zero : Nearest 0 0 := by
  refine ⟨0, -1074, (zero_mul _).symm, le_rfl, by norm_num, .inl rfl, ?_⟩
  have rounded : nearestEven 0 = 0 := nearestEven_natCast 0
  rw [rounded]
  rfl

theorem ofFinite {m : Nat} {e : Int} {hm : 0 < m} (canonical : Canonical (.finite .positive m e hm)) :
    Nearest (m * 2 ^ e) (steps m e) := by
  have bound := steps_lt canonical
  simp only [Canonical] at canonical
  obtain ⟨bits, low, -, full⟩ := canonical
  refine ⟨m, e, rfl, low, by exact_mod_cast bits, full.symm.imp_right fun large => ?_, ?_⟩
  · exact_mod_cast large
  · rw [nearestEven_natCast, min_eq_left bound.le]

/-- A larger number is not rounded to a smaller double. -/
theorem mono (h : Nearest q p) (h' : Nearest q' p') (le : q ≤ q') : p ≤ p' := by
  obtain ⟨y, t, rfl, low, small, full, rfl⟩ := h
  obtain ⟨y', t', rfl, low', small', full', rfl⟩ := h'
  refine min_le_min_right _ ?_
  simp only [steps]
  rcases lt_trichotomy t t' with before | rfl | after
  · -- a carry leads at most to the first significand at the next exponent
    have bits := nearestEven_le (n := 2 ^ 53) (by exact_mod_cast small.le)
    have filled := le_nearestEven (n := 2 ^ 52)
      (by exact_mod_cast full'.resolve_left (by omega))
    omega
  · have units : y ≤ y' := le_of_mul_le_mul_right le (by positivity)
    have := nearestEven_mono units
    omega
  · have large : 2 ^ 52 ≤ y := full.resolve_left (by omega)
    have : y' * 2 ^ t' < y * 2 ^ t :=
      calc y' * 2 ^ t' < 2 ^ 53 * 2 ^ t' := by gcongr
        _ ≤ 2 ^ 52 * 2 ^ t := two_pow_mul_zpow_le after
        _ ≤ y * 2 ^ t := by gcongr
    exact absurd le (not_le.mpr this)

/-- From the middle on and no earlier a number is rounded to infinity. -/
theorem eq_top_iff (h : Nearest q p) :
    p = 2047 * 2 ^ 52 ↔ overflow ≤ q := by
  obtain ⟨z, t, rfl, low, small, full, rfl⟩ := h
  rw [min_eq_right_iff]
  simp only [steps]
  rcases lt_trichotomy t 971 with inner | rfl | outer
  · have bits := nearestEven_le (n := 2 ^ 53) (by exact_mod_cast small.le)
    have lower : z * 2 ^ t < overflow := by
      calc z * 2 ^ t < 2 ^ 53 * 2 ^ t := by gcongr
        _ ≤ 2 ^ 52 * 2 ^ (971 : ℤ) := two_pow_mul_zpow_le inner
        _ ≤ overflow := by
            unfold overflow
            gcongr
            norm_num
    exact iff_of_false (by omega) (not_le.mpr lower)
  · have large : (2 : ℚ) ^ 52 ≤ z := full.resolve_left (by omega)
    have rounded := le_nearestEven_iff (k := 2 ^ 53) (large.trans' (by norm_num)) (by norm_num)
    rw [Nat.cast_pow, Nat.cast_ofNat] at rounded
    unfold overflow
    rw [mul_le_mul_iff_left₀ (by positivity), ← rounded]
    omega
  · have large : (2 : ℚ) ^ 52 ≤ z := full.resolve_left (by omega)
    have filled := le_nearestEven (n := 2 ^ 52) (by exact_mod_cast large)
    have upper : overflow ≤ z * 2 ^ t := by
      calc overflow ≤ 2 ^ 53 * 2 ^ (971 : ℤ) := overflow_le_limit
        _ ≤ 2 ^ 52 * 2 ^ t := two_pow_mul_zpow_le outer
        _ ≤ z * 2 ^ t := by gcongr
    exact iff_of_true (by omega) upper

/-- So it is beyond all finite doubles. -/
theorem top (h : Nearest q p) (large : limit ≤ q) : p = 2047 * 2 ^ 52 :=
  h.eq_top_iff.mpr (overflow_le_limit.trans large)

end Nearest

/-- The place of the double nearest to a number of any sign. A negative number is rounded as its negative
is. -/
def Approaches (q : ℚ) (p : Int) : Prop := 0 ≤ q ∧ Nearest q p ∨ q ≤ 0 ∧ Nearest (-q) (-p)

namespace Approaches

variable {q q' : ℚ} {p p' : Int}

theorem zero : Approaches 0 0 := .inl ⟨le_rfl, .zero⟩

theorem signed (h : Nearest q p) (nonneg : 0 ≤ q) (s : Sign) :
    Approaches (Binary64.signed s q) (s.apply p) := by
  cases s with
  | positive => exact .inl ⟨nonneg, h⟩
  | negative =>
      refine .inr ⟨neg_nonpos.mpr nonneg, ?_⟩
      show Nearest (- -q) (- -p)
      rw [neg_neg, Int.neg_neg]
      exact h

/-- A larger number is not rounded to a smaller double. -/
theorem mono (h : Approaches q p) (h' : Approaches q' p') (le : q ≤ q') : p ≤ p' := by
  rcases h with ⟨nonneg, near⟩ | ⟨nonpos, near⟩
  · rcases h' with ⟨-, near'⟩ | ⟨nonpos', near'⟩
    · exact near.mono near' le
    · -- both numbers are zero
      have := near.mono .zero (le.trans nonpos')
      have := near'.mono .zero (neg_nonpos.mpr (nonneg.trans le))
      omega
  · rcases h' with ⟨nonneg', near'⟩ | ⟨-, near'⟩
    · have := Nearest.zero.mono near (neg_nonneg.mpr nonpos)
      have := Nearest.zero.mono near' nonneg'
      omega
    · have := near'.mono near (neg_le_neg le)
      omega

/-- A number is rounded to one place only. -/
theorem unique (h : Approaches q p) (h' : Approaches q p') : p = p' :=
  le_antisymm (h.mono h' le_rfl) (h'.mono h le_rfl)

theorem eq_top_iff (h : Approaches q p) :
    p = 2047 * 2 ^ 52 ↔ overflow ≤ q := by
  rcases h with ⟨-, near⟩ | ⟨nonpos, near⟩
  · exact near.eq_top_iff
  · have mirrored := Nearest.zero.mono near (neg_nonneg.mpr nonpos)
    exact iff_of_false (by omega) (not_le.mpr (nonpos.trans_lt overflow_pos))

/-- A finite double is nearest to itself. -/
theorem ofCanonical {u : UnpackedFloat} (canonical : Canonical u) (finite : u.isFinite) :
    Approaches (value u) (place u) := by
  rcases isFinite_cases finite with ⟨s, rfl⟩ | ⟨s, m, e, hm, rfl⟩
  · exact .zero
  · -- whatever the sign is, the positive double of the same size is one too
    have size : Canonical (.finite .positive m e hm) := canonical
    exact .signed (.ofFinite size) (by positivity) s

/-- The nearest double is next to the number. -/
theorem rounds (h : Approaches q p) : Rounds q p := by
  refine ⟨⟨fun v canonical finite le => ?_, fun v canonical finite le => ?_⟩, fun large => ?_,
    fun large => ?_⟩
  · exact (ofCanonical canonical finite).mono h le
  · exact h.mono (ofCanonical canonical finite) le
  · rcases h with ⟨-, near⟩ | ⟨nonpos, -⟩
    · exact near.top large
    · exact absurd (large.trans nonpos) (not_le.mpr limit_pos)
  · rcases h with ⟨nonneg, -⟩ | ⟨-, near⟩
    · exact absurd (nonneg.trans large) (not_le.mpr (neg_neg_of_pos limit_pos))
    · have := near.top (le_neg_of_le_neg large)
      omega

end Approaches

theorem approaches_roundWithAccuracy {m : Nat} {e : Int} {a : Accuracy} {x : ℚ} (s : Sign)
    (h : Halves (.ofMantissaAndAccuracy m a) x) (enough : 2 ^ 52 ≤ m ∨ e ≤ -1074) :
    Approaches (signed s (x * 2 ^ e))
      (place (Float.Model.pack (roundWithAccuracy Format.binary64 s m e a)).unpack) := by
  obtain ⟨k, t, same, low, small, full, rounded⟩ := place_roundWithAccuracy s h.toEncloses enough
  have halves := h.shiftRight k
  have nonneg : 0 ≤ x / 2 ^ k := (Nat.cast_nonneg _).trans halves.lower
  rw [same, rounded, halves.roundedMantissa_eq]
  exact .signed ⟨_, t, rfl, low, small, full, rfl⟩ (by positivity) s

theorem approaches_round {m : Nat} {e : Int} (s : Sign) (positive : 0 < m) :
    Approaches (signed s (m * 2 ^ e))
      (place (Float.Model.pack (UnpackedFloat.round Format.binary64 s m e)).unpack) := by
  obtain ⟨n, f, same, whole, enough⟩ := round_spec (e := e) s positive
  rw [whole, same]
  exact approaches_roundWithAccuracy s (.ofNat n) enough

theorem approaches_normalize (m e : Int) (s : Sign) :
    Approaches (m * 2 ^ e) (place (Float.Model.pack
      (UnpackedFloat.normalize Format.binary64 m e s)).unpack) := by
  unfold UnpackedFloat.normalize
  rcases Int.lt_trichotomy m 0 with negative | rfl | positive
  · rw [Int.compare_eq_lt.mpr negative]
    have near := approaches_round (m := (-m).toNat) (e := e) .negative (by omega)
    have count : (((-m).toNat : ℕ) : ℚ) = -m := by
      exact_mod_cast Int.toNat_of_nonneg (show 0 ≤ -m by omega)
    rw [count, signed, neg_mul, neg_neg] at near
    exact near
  · show Approaches _ (place (Float.Model.pack (.zero s)).unpack)
    rw [unpack_pack (u := .zero s) trivial, Int.cast_zero, zero_mul]
    exact .zero
  · rw [Int.compare_eq_gt.mpr positive]
    have near := approaches_round (m := m.toNat) (e := e) .positive (by omega)
    have count : ((m.toNat : ℕ) : ℚ) = m := by
      exact_mod_cast Int.toNat_of_nonneg positive.le
    rw [count] at near
    exact near

theorem approaches_self {u : UnpackedFloat} (canonical : Canonical u) (finite : u.isFinite) :
    Approaches (value u) (place (Float.Model.pack u).unpack) := by
  rw [unpack_pack canonical]
  exact .ofCanonical canonical finite

/-! ## Sums and products -/

theorem approaches_unpacked_add {u v : UnpackedFloat} (hu : Canonical u) (hv : Canonical v)
    (finite_u : u.isFinite) (finite_v : v.isFinite) :
    Approaches (value u + value v)
      (place (Float.Model.pack (UnpackedFloat.add Format.binary64 u v)).unpack) := by
  rcases isFinite_cases finite_u with ⟨s, rfl⟩ | ⟨s, m, e, hm, rfl⟩
  · rw [show value (.zero s) = 0 from rfl, zero_add]
    rcases isFinite_cases finite_v with ⟨t, rfl⟩ | ⟨t, k, f, hk, rfl⟩
    · cases s <;> cases t <;> exact approaches_self (u := .zero _) trivial rfl
    · exact approaches_self hv finite_v
  · rcases isFinite_cases finite_v with ⟨t, rfl⟩ | ⟨t, k, f, hk, rfl⟩
    · rw [show value (.zero t) = 0 from rfl, add_zero]
      exact approaches_self hu finite_u
    · rw [value_add]
      exact approaches_normalize _ _ .positive

theorem approaches_unpacked_mul {u v : UnpackedFloat} (hu : Canonical u) (hv : Canonical v)
    (finite_u : u.isFinite) (finite_v : v.isFinite) : Approaches (value u * value v)
      (place (Float.Model.pack (UnpackedFloat.mul Format.binary64 u v)).unpack) := by
  have nothing {q : ℚ} (s : Sign) (zero : q = 0) :
      Approaches q (place (Float.Model.pack (.zero s)).unpack) := by
    rw [zero]
    exact approaches_self (u := .zero s) trivial rfl
  rcases isFinite_cases finite_u with ⟨s, rfl⟩ | ⟨s, m, e, hm, rfl⟩
  · rcases isFinite_cases finite_v with ⟨t, rfl⟩ | ⟨t, k, f, hk, rfl⟩
    · exact nothing (s * t) (zero_mul _)
    · exact nothing (s * t) (zero_mul _)
  · rcases isFinite_cases finite_v with ⟨t, rfl⟩ | ⟨t, k, f, hk, rfl⟩
    · exact nothing (s * t) (mul_zero _)
    · rw [value_mul]
      exact approaches_roundWithAccuracy (s * t) (.ofNat (m * k)) (mul_bits hu hv)

variable {x y z w : Float}

/-- The sum of finite doubles is nearest to the exact sum. -/
theorem approaches_add (finite_x : x.isFinite) (finite_y : y.isFinite) :
    Approaches (toRat x + toRat y) (rank (x + y)) :=
  approaches_unpacked_add (canonical_unpack _) (canonical_unpack _) finite_x finite_y

/-- The product of finite doubles is nearest to the exact product. -/
theorem approaches_mul (finite_x : x.isFinite) (finite_y : y.isFinite) :
    Approaches (toRat x * toRat y) (rank (x * y)) :=
  approaches_unpacked_mul (canonical_unpack _) (canonical_unpack _) finite_x finite_y

/-! ## Infinities -/

theorem isFinite_or_infinite (number : ¬x.isNaN) :
    x.isFinite ∨ ∃ s, x.toModel.unpack = .infinity s := by
  show x.toModel.unpack.isFinite = true ∨ _
  change ¬x.toModel.unpack.isNaN = true at number
  cases shape : x.toModel.unpack with
  | notANumber =>
      rw [shape] at number
      exact absurd rfl number
  | infinity s => exact .inr ⟨s, rfl⟩
  | zero s => exact .inl rfl
  | finite s m e hm => exact .inl rfl

theorem rank_neg (x : Float) : rank (-x) = -rank x := by
  rw [rank, unpack_neg, place_neg, rank]

/-- A number between the infinities is finite. -/
theorem isFinite_of_rank_mem (number : ¬x.isNaN) (above : -(2047 * 2 ^ 52) < rank x)
    (below : rank x < 2047 * 2 ^ 52) : x.isFinite := by
  rcases isFinite_or_infinite number with finite | ⟨s, shape⟩
  · exact finite
  · have far : rank x = s.apply (2047 * 2 ^ 52) := by
      rw [rank, shape]
      rfl
    cases s <;> simp only [Sign.apply] at far <;> omega

theorem rank_le_top (x : Float) : rank x ≤ 2047 * 2 ^ 52 := place_le (canonical_unpack _)

theorem neg_le_rank (x : Float) : -(2047 * 2 ^ 52) ≤ rank x := by
  have mirrored := rank_le_top (-x)
  rw [rank_neg] at mirrored
  omega

theorem unpack_of_infinite {s : Sign} (infinite : rank x = s.apply (2047 * 2 ^ 52)) :
    x.toModel.unpack = .infinity s := by
  refine eq_of_place_eq (canonical_unpack _) trivial ?_ infinite
  show rank x ≠ 0
  rw [infinite]
  cases s <;> decide

/-- A sum with an infinite operand is that infinity, or it is no number. -/
theorem rank_add_of_infinite {s : Sign}
    (infinite : rank x = s.apply (2047 * 2 ^ 52) ∨ rank y = s.apply (2047 * 2 ^ 52))
    (number : ¬(x + y).isNaN) : rank (x + y) = s.apply (2047 * 2 ^ 52) := by
  have sums (v : UnpackedFloat) :
      (UnpackedFloat.add Format.binary64 (.infinity s) v = .notANumber ∨
        UnpackedFloat.add Format.binary64 (.infinity s) v = .infinity s) ∧
      (UnpackedFloat.add Format.binary64 v (.infinity s) = .notANumber ∨
        UnpackedFloat.add Format.binary64 v (.infinity s) = .infinity s) := by
    cases v with
    | notANumber => exact ⟨.inl rfl, .inl rfl⟩
    | infinity t => cases s <;> cases t <;> simp [UnpackedFloat.add]
    | zero t => exact ⟨.inr rfl, .inr rfl⟩
    | finite t m e hm => exact ⟨.inr rfl, .inr rfl⟩
  have either : UnpackedFloat.add Format.binary64 x.toModel.unpack y.toModel.unpack = .notANumber ∨
      UnpackedFloat.add Format.binary64 x.toModel.unpack y.toModel.unpack = .infinity s := by
    rcases infinite with left | right
    · rw [unpack_of_infinite left]
      exact (sums _).1
    · rw [unpack_of_infinite right]
      exact (sums _).2
  change ¬(Float.Model.pack (UnpackedFloat.add Format.binary64 _ _)).unpack.isNaN = true at number
  show place (Float.Model.pack (UnpackedFloat.add Format.binary64 _ _)).unpack = _
  rcases either with nan | sum
  · rw [nan, unpack_pack (u := .notANumber) trivial] at number
    exact absurd rfl number
  · rw [sum, unpack_pack (u := .infinity s) trivial]
    rfl

/-! ## Order -/

theorem sign_of_nonneg {s : Sign} {m : Nat} {e : Int} {hm : 0 < m}
    (canonical : Canonical (.finite s m e hm)) (nonneg : 0 ≤ place (.finite s m e hm)) :
    s = .positive := by
  have := steps_pos canonical
  cases s with
  | positive => rfl
  | negative =>
      simp only [place, Sign.apply] at nonneg
      omega

/-- Sums that are numbers grow with their operands, be these infinite. -/
theorem add_le_add_of_numbers (hx : x ≤ z) (hy : y ≤ w) (number : ¬(x + y).isNaN)
    (number' : ¬(z + w).isNaN) : x + y ≤ z + w := by
  obtain ⟨number_x, number_z, rank_x⟩ := le_iff.mp hx
  obtain ⟨number_y, number_w, rank_y⟩ := le_iff.mp hy
  refine le_iff.mpr ⟨number, number', ?_⟩
  by_cases bottom : rank x = -(2047 * 2 ^ 52) ∨ rank y = -(2047 * 2 ^ 52)
  · rw [rank_add_of_infinite (s := .negative) bottom number]
    exact neg_le_rank _
  by_cases top : rank z = 2047 * 2 ^ 52 ∨ rank w = 2047 * 2 ^ 52
  · rw [rank_add_of_infinite (s := .positive) top number']
    exact rank_le_top _
  -- neither an infinite summand on the left nor one on the right, so all four are finite
  have := neg_le_rank x
  have := neg_le_rank y
  have := rank_le_top z
  have := rank_le_top w
  have finite_x : x.isFinite := isFinite_of_rank_mem number_x (by omega) (by omega)
  have finite_y : y.isFinite := isFinite_of_rank_mem number_y (by omega) (by omega)
  have finite_z : z.isFinite := isFinite_of_rank_mem number_z (by omega) (by omega)
  have finite_w : w.isFinite := isFinite_of_rank_mem number_w (by omega) (by omega)
  refine (approaches_add finite_x finite_y).mono (approaches_add finite_z finite_w) ?_
  have := toRat_le_of_le finite_x finite_z hx
  have := toRat_le_of_le finite_y finite_w hy
  linarith

/-- A sum of numbers that are not negative grows with both of them. -/
theorem add_mono (nonneg_x : 0.0 ≤ x) (nonneg_y : 0.0 ≤ y) (hx : x ≤ z) (hy : y ≤ w) :
    x + y ≤ z + w := by
  have nonneg_z := le_trans nonneg_x hx
  have nonneg_w := le_trans nonneg_y hy
  have number := (le_iff.mp (le_trans nonneg_x (le_add nonneg_x nonneg_y).1)).2.1
  have number' := (le_iff.mp (le_trans nonneg_z (le_add nonneg_z nonneg_w).1)).2.1
  exact add_le_add_of_numbers hx hy number number'

/-- A product of finite numbers that are not negative grows with the first of them. -/
theorem mul_mono (nonneg_x : 0.0 ≤ x) (hx : x ≤ z) (finite_z : z.isFinite)
    (nonneg_y : 0.0 ≤ y) (finite_y : y.isFinite) : x * y ≤ z * y := by
  have finite_x := isFinite_of_le nonneg_x hx finite_z
  refine le_iff.mpr ⟨not_isNaN_mul finite_x finite_y, not_isNaN_mul finite_z finite_y, ?_⟩
  refine (approaches_mul finite_x finite_y).mono (approaches_mul finite_z finite_y) ?_
  have := toRat_le_of_le finite_x finite_z hx
  have := toRat_nonneg finite_y nonneg_y
  gcongr

end Metaheuristics.Binary64

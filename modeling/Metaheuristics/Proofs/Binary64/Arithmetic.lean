import Metaheuristics.Proofs.Binary64.Rounding
import Metaheuristics.Proofs.Binary64.Sums

/-!
# Sums, products and conversions

What rounding means for the operations on doubles. Sums, differences and products are rounded from the
exact ones (`rounds_add`, `rounds_sub`, `rounds_mul`), and so is a word that is converted
(`rounds_toFloat`). The difference of unequal doubles does not vanish (`zero_lt_sub`). A double that the exact result does not exceed is then not exceeded by the rounded
one either (`mul_le_of_toRat_le`, `toFloat_le_of_le_toRat`). A sum of numbers that are not negative is
no less than any of them, whether or not it overflows (`le_add`), and a sum of doubles that are not
positive is not positive (`rank_add_nonpos`).
-/

namespace Metaheuristics.Binary64

open Float.Model UnpackedFloat

variable {x y z : Float}

/-! ## Negation -/

theorem unpack_neg (x : Float) : (-x).toModel.unpack = x.toModel.unpack.neg :=
  unpack_pack (canonical_neg (canonical_unpack _))

theorem isFinite_negated (x : Float) : (-x).isFinite = x.isFinite := by
  show (-x).toModel.unpack.isFinite = x.toModel.unpack.isFinite
  rw [unpack_neg, isFinite_neg]

theorem toRat_neg (x : Float) : toRat (-x) = -toRat x := by
  rw [toRat, unpack_neg, value_neg, toRat]

theorem unpacked_sub_eq_add (u v : UnpackedFloat) :
    UnpackedFloat.sub Format.binary64 u v = UnpackedFloat.add Format.binary64 u v.neg := by
  cases u with
  | notANumber => rfl
  | infinity s => cases v <;> rfl
  | zero s => cases v <;> rfl
  | finite s m e hm =>
      cases v with
      | notANumber => rfl
      | infinity t => rfl
      | zero t => rfl
      | finite t k f hk =>
          have mirrored (a : Int) : (-t).apply a = -t.apply a := by
            cases t with
            | negative => exact (Int.neg_neg a).symm
            | positive => rfl
          simp only [UnpackedFloat.sub, UnpackedFloat.add, UnpackedFloat.neg, mirrored,
            Int.sub_eq_add_neg]

theorem sub_eq_add (x y : Float) : x - y = x + -y := by
  show Float.ofModel (Float.Model.pack (UnpackedFloat.sub Format.binary64 _ _)) =
    Float.ofModel (Float.Model.pack (UnpackedFloat.add Format.binary64 _ (-y).toModel.unpack))
  rw [unpacked_sub_eq_add, unpack_neg]

/-! ## Sums and differences -/

theorem cast_apply (s : Sign) (m : Nat) : ((s.apply m : Int) : ℚ) = signed s m := by
  cases s with
  | negative => exact Int.cast_neg _
  | positive => rfl

/-- A significand that is brought to a smaller exponent counts the same number in smaller units. -/
theorem signed_decreaseExponent (s : Sign) (m : Nat) {e t : Int} (le : t ≤ e) :
    ((s.apply (decreaseExponent m e t).1 : Int) : ℚ) * 2 ^ t = signed s (m * 2 ^ e) := by
  obtain ⟨k, rfl⟩ := Int.le.dest le
  have amount : (t + k - t).toNat = k := by omega
  have same : ((m <<< k : ℕ) : ℚ) * 2 ^ t = m * 2 ^ (t + k) := by
    rw [Nat.shiftLeft_eq, zpow_add₀ (by norm_num), zpow_natCast]
    push_cast
    ring
  rw [cast_apply, decreaseExponent, amount]
  cases s with
  | negative => rw [signed, signed, neg_mul, same]
  | positive => exact same

theorem rounds_normalize (m e : Int) (s : Sign) :
    Rounds (m * 2 ^ e) (place (Float.Model.pack
      (UnpackedFloat.normalize Format.binary64 m e s)).unpack) := by
  unfold UnpackedFloat.normalize
  rcases Int.lt_trichotomy m 0 with negative | rfl | positive
  · rw [Int.compare_eq_lt.mpr negative]
    have rounds := rounds_round (m := (-m).toNat) (e := e) .negative (by omega)
    have count : (((-m).toNat : ℕ) : ℚ) = -m := by
      exact_mod_cast Int.toNat_of_nonneg (show 0 ≤ -m by omega)
    rw [count, signed, neg_mul, neg_neg] at rounds
    exact rounds
  · show Rounds _ (place (Float.Model.pack (.zero s)).unpack)
    rw [unpack_pack (u := .zero s) trivial, Int.cast_zero, zero_mul]
    exact .zero
  · rw [Int.compare_eq_gt.mpr positive]
    have rounds := rounds_round (m := m.toNat) (e := e) .positive (by omega)
    have count : ((m.toNat : ℕ) : ℚ) = m := by
      exact_mod_cast Int.toNat_of_nonneg positive.le
    rw [count] at rounds
    exact rounds

/-- The exact sum, counted in units of the smaller exponent. -/
theorem value_add (s t : Sign) {m k : Nat} (e f : Int) (hm : 0 < m) (hk : 0 < k) :
    value (.finite s m e hm) + value (.finite t k f hk) =
      ((s.apply (decreaseExponent m e (min e f)).1 +
        t.apply (decreaseExponent k f (min e f)).1 : Int) : ℚ) * 2 ^ min e f := by
  rw [Int.cast_add, add_mul, signed_decreaseExponent s m (min_le_left e f),
    signed_decreaseExponent t k (min_le_right e f)]
  rfl

theorem rounds_unpacked_add {u v : UnpackedFloat} (hu : Canonical u) (hv : Canonical v)
    (finite_u : u.isFinite) (finite_v : v.isFinite) :
    Rounds (value u + value v)
      (place (Float.Model.pack (UnpackedFloat.add Format.binary64 u v)).unpack) := by
  have kept {w : UnpackedFloat} (hw : Canonical w) (finite : w.isFinite) :
      Rounds (value w) (place (Float.Model.pack w).unpack) := by
    rw [unpack_pack hw]
    exact .ofCanonical hw finite
  rcases isFinite_cases finite_u with ⟨s, rfl⟩ | ⟨s, m, e, hm, rfl⟩
  · rw [show value (.zero s) = 0 from rfl, zero_add]
    rcases isFinite_cases finite_v with ⟨t, rfl⟩ | ⟨t, k, f, hk, rfl⟩
    · cases s <;> cases t <;> exact kept (w := .zero _) trivial rfl
    · exact kept hv finite_v
  · rcases isFinite_cases finite_v with ⟨t, rfl⟩ | ⟨t, k, f, hk, rfl⟩
    · rw [show value (.zero t) = 0 from rfl, add_zero]
      exact kept hu finite_u
    · rw [value_add]
      exact rounds_normalize _ _ .positive

/-- A number that is a double is rounded to this double. -/
theorem Rounds.eq_rank {q : ℚ} {p : Int} (h : Rounds q p) (finite : z.isFinite) (same : toRat z = q) :
    p = rank z :=
  le_antisymm (h.below _ (canonical_unpack _) finite same.ge)
    (h.above _ (canonical_unpack _) finite same.le)

/-- The sum of finite doubles is next to the exact sum. -/
theorem rounds_add (finite_x : x.isFinite) (finite_y : y.isFinite) :
    Rounds (toRat x + toRat y) (rank (x + y)) :=
  rounds_unpacked_add (canonical_unpack _) (canonical_unpack _) finite_x finite_y

/-- The difference of finite doubles is next to the exact difference. -/
theorem rounds_sub (finite_x : x.isFinite) (finite_y : y.isFinite) :
    Rounds (toRat x - toRat y) (rank (x - y)) := by
  have rounds := rounds_add finite_x ((isFinite_negated y).trans finite_y)
  rw [toRat_neg, ← sub_eq_add_neg] at rounds
  rw [sub_eq_add]
  exact rounds

/-- A finite double is a whole number of the smallest ones. -/
theorem exists_toRat_eq (finite : x.isFinite) : ∃ k : Int, toRat x = k * 2 ^ (-1074 : Int) := by
  have canonical := canonical_unpack x.toModel
  unfold toRat
  rcases isFinite_cases finite with ⟨s, shape⟩ | ⟨s, m, e, hm, shape⟩
  · rw [shape]
    refine ⟨0, ?_⟩
    rw [Int.cast_zero, zero_mul]
    rfl
  · rw [shape] at canonical ⊢
    exact ⟨_, (signed_decreaseExponent s m canonical.2.1).symm⟩

/-- The difference of unequal doubles does not vanish, however close they are. -/
theorem zero_lt_sub (finite_x : x.isFinite) (finite_y : y.isFinite) (h : x < y) : 0.0 < y - x := by
  obtain ⟨k, counted⟩ := exists_toRat_eq finite_x
  obtain ⟨m, counted'⟩ := exists_toRat_eq finite_y
  have less := toRat_lt_of_lt finite_x finite_y h
  rw [counted, counted'] at less
  have fewer : k < m := by exact_mod_cast lt_of_mul_lt_mul_right less (by positivity)
  have gap : (1 : ℚ) ≤ m - k := by exact_mod_cast Int.sub_pos.mpr fewer
  have smallest : ((1 : ℕ) : ℚ) * 2 ^ (-1074 : Int) ≤ toRat y - toRat x := by
    rw [counted, counted', ← sub_mul, Nat.cast_one]
    gcongr
  have canonical : Canonical (.finite .positive 1 (-1074) Nat.one_pos) := by simp [Canonical]
  exact zero_lt_iff.mpr ((rounds_sub finite_y finite_x).above _ canonical rfl smallest)

/-- What is taken away from a number leaves no more than the number. -/
theorem sub_le (finite_x : x.isFinite) (finite_y : y.isFinite) (nonneg : 0.0 ≤ y) : x - y ≤ x := by
  have number := not_isNaN_of_isFinite finite_x
  refine le_iff.mpr ⟨?_, number, (rounds_sub finite_x finite_y).below _ (canonical_unpack _)
    finite_x ?_⟩
  · rw [sub_eq_add]
    exact not_isNaN_add number ((isFinite_negated y).trans finite_y)
  · exact sub_le_self _ (toRat_nonneg finite_y nonneg)

/-! ## Sums of numbers that are not negative -/

theorem infinity_add (nonneg : 0.0 ≤ y) : infinity + y = infinity := by
  rcases isFinite_or_eq_infinity nonneg with finite | rfl
  · show Float.ofModel (Float.Model.pack (UnpackedFloat.add Format.binary64
      infinity.toModel.unpack y.toModel.unpack)) = infinity
    rcases isFinite_cases finite with ⟨s, shape⟩ | ⟨s, m, e, hm, shape⟩ <;> rw [shape] <;> rfl
  · rfl

theorem add_infinity (nonneg : 0.0 ≤ x) : x + infinity = infinity := by
  rcases isFinite_or_eq_infinity nonneg with finite | rfl
  · show Float.ofModel (Float.Model.pack (UnpackedFloat.add Format.binary64
      x.toModel.unpack infinity.toModel.unpack)) = infinity
    rcases isFinite_cases finite with ⟨s, shape⟩ | ⟨s, m, e, hm, shape⟩ <;> rw [shape] <;> rfl
  · rfl

/-- A sum of numbers that are not negative is at least either of them. -/
theorem le_add (nonneg_x : 0.0 ≤ x) (nonneg_y : 0.0 ≤ y) : x ≤ x + y ∧ y ≤ x + y := by
  have number_x := (le_iff.mp nonneg_x).2.1
  have number_y := (le_iff.mp nonneg_y).2.1
  rcases isFinite_or_eq_infinity nonneg_x with finite_x | rfl
  · rcases isFinite_or_eq_infinity nonneg_y with finite_y | rfl
    · have number := not_isNaN_add number_x finite_y
      have sum := rounds_add finite_x finite_y
      constructor
      · refine le_iff.mpr ⟨number_x, number, sum.above _ (canonical_unpack _) finite_x ?_⟩
        exact le_add_of_nonneg_right (toRat_nonneg finite_y nonneg_y)
      · refine le_iff.mpr ⟨number_y, number, sum.above _ (canonical_unpack _) finite_y ?_⟩
        exact le_add_of_nonneg_left (toRat_nonneg finite_x nonneg_x)
    · rw [add_infinity nonneg_x]
      exact ⟨le_infinity number_x, le_infinity number_y⟩
  · rw [infinity_add nonneg_y]
    exact ⟨le_infinity number_x, le_infinity number_y⟩

/-! ## Sums of numbers that are not positive -/

/-- Where an operand is not finite, nothing positive comes out either. -/
theorem unpacked_add_of_not_isFinite {u v : UnpackedFloat} (nonpos_u : place u ≤ 0)
    (nonpos_v : place v ≤ 0) (infinite : ¬(u.isFinite ∧ v.isFinite)) :
    UnpackedFloat.add Format.binary64 u v = .notANumber ∨
      UnpackedFloat.add Format.binary64 u v = .infinity .negative := by
  cases u with
  | notANumber => exact .inl rfl
  | infinity s =>
      cases s with
      | positive => exact absurd nonpos_u (by decide)
      | negative =>
          cases v with
          | notANumber => exact .inl rfl
          | infinity t =>
              cases t with
              | positive => exact .inl rfl
              | negative => exact .inr rfl
          | zero t => exact .inr rfl
          | finite t k f hk => exact .inr rfl
  | zero s =>
      cases v with
      | notANumber => exact .inl rfl
      | infinity t =>
          cases t with
          | positive => exact absurd nonpos_v (by decide)
          | negative => exact .inr rfl
      | zero t => exact absurd ⟨rfl, rfl⟩ infinite
      | finite t k f hk => exact absurd ⟨rfl, rfl⟩ infinite
  | finite s m e hm =>
      cases v with
      | notANumber => exact .inl rfl
      | infinity t =>
          cases t with
          | positive => exact absurd nonpos_v (by decide)
          | negative => exact .inr rfl
      | zero t => exact absurd ⟨rfl, rfl⟩ infinite
      | finite t k f hk => exact absurd ⟨rfl, rfl⟩ infinite

/-- Nothing positive is the sum of two doubles that are not positive. -/
theorem rank_add_nonpos (nonpos_x : rank x ≤ 0) (nonpos_y : rank y ≤ 0) : rank (x + y) ≤ 0 := by
  have canonical_x := canonical_unpack x.toModel
  have canonical_y := canonical_unpack y.toModel
  by_cases finite : x.isFinite ∧ y.isFinite
  · refine (rounds_add finite.1 finite.2).nonpos ?_
    have zero_value {u : UnpackedFloat} (canonical : Canonical u) (finite : u.isFinite)
        (nonpos : place u ≤ 0) : value u ≤ 0 :=
      value_le_of_place_le (v := .zero .positive) canonical trivial finite rfl nonpos
    exact add_nonpos (zero_value canonical_x finite.1 nonpos_x)
      (zero_value canonical_y finite.2 nonpos_y)
  · show place (Float.Model.pack (UnpackedFloat.add Format.binary64
      x.toModel.unpack y.toModel.unpack)).unpack ≤ 0
    rcases unpacked_add_of_not_isFinite nonpos_x nonpos_y finite with sum | sum
    · rw [sum]
      decide
    · rw [sum]
      decide

/-! ## Products -/

theorem isNaN_unpacked_mul {u v : UnpackedFloat} (finite_u : u.isFinite) (finite_v : v.isFinite) :
    (UnpackedFloat.mul Format.binary64 u v).isNaN = false := by
  rcases isFinite_cases finite_u with ⟨s, rfl⟩ | ⟨s, m, e, hm, rfl⟩
  · rcases isFinite_cases finite_v with ⟨t, rfl⟩ | ⟨t, k, f, hk, rfl⟩
    · rfl
    · rfl
  · rcases isFinite_cases finite_v with ⟨t, rfl⟩ | ⟨t, k, f, hk, rfl⟩
    · rfl
    · exact isNaN_roundWithAccuracy ..

theorem value_mul (s t : Sign) {m k : Nat} (e f : Int) (hm : 0 < m) (hk : 0 < k) :
    value (.finite s m e hm) * value (.finite t k f hk) =
      signed (s * t) ((m * k : Nat) * 2 ^ (e + f)) := by
  show signed s _ * signed t _ = _
  rw [← signed_mul, zpow_add₀ (by norm_num)]
  push_cast
  ring_nf

/-- One of the factors has all its bits, or both exponents are the smallest one. -/
theorem mul_bits {s t : Sign} {m k : Nat} {e f : Int} {hm : 0 < m} {hk : 0 < k}
    (hu : Canonical (.finite s m e hm)) (hv : Canonical (.finite t k f hk)) :
    2 ^ 52 ≤ m * k ∨ e + f ≤ -1074 := by
  have left : m ≤ m * k := Nat.le_mul_of_pos_right m hk
  have right : k ≤ m * k := Nat.le_mul_of_pos_left k hm
  simp only [Canonical] at hu hv
  omega

theorem rounds_unpacked_mul {u v : UnpackedFloat} (hu : Canonical u) (hv : Canonical v)
    (finite_u : u.isFinite) (finite_v : v.isFinite) :
    Rounds (value u * value v)
      (place (Float.Model.pack (UnpackedFloat.mul Format.binary64 u v)).unpack) := by
  have nothing {q : ℚ} (s : Sign) (zero : q = 0) :
      Rounds q (place (Float.Model.pack (.zero s)).unpack) := by
    rw [zero, unpack_pack (u := .zero s) trivial]
    exact .zero
  rcases isFinite_cases finite_u with ⟨s, rfl⟩ | ⟨s, m, e, hm, rfl⟩
  · rcases isFinite_cases finite_v with ⟨t, rfl⟩ | ⟨t, k, f, hk, rfl⟩
    · exact nothing (s * t) (zero_mul _)
    · exact nothing (s * t) (zero_mul _)
  · rcases isFinite_cases finite_v with ⟨t, rfl⟩ | ⟨t, k, f, hk, rfl⟩
    · exact nothing (s * t) (mul_zero _)
    · rw [value_mul]
      exact rounds_roundWithAccuracy (s * t) (.ofNat _) (mul_bits hu hv)

theorem not_isNaN_mul (finite_x : x.isFinite) (finite_y : y.isFinite) : ¬(x * y).isNaN :=
  Bool.eq_false_iff.mp (isNaN_unpack_pack (isNaN_unpacked_mul finite_x finite_y))

/-- The product of finite doubles is next to the exact product. -/
theorem rounds_mul (finite_x : x.isFinite) (finite_y : y.isFinite) :
    Rounds (toRat x * toRat y) (rank (x * y)) :=
  rounds_unpacked_mul (canonical_unpack _) (canonical_unpack _) finite_x finite_y

/-- A product is at most what the exact product is at most. -/
theorem mul_le_of_toRat_le (finite_x : x.isFinite) (finite_y : y.isFinite) (finite_z : z.isFinite)
    (h : toRat x * toRat y ≤ toRat z) : x * y ≤ z :=
  le_iff.mpr ⟨not_isNaN_mul finite_x finite_y, not_isNaN_of_isFinite finite_z,
    (rounds_mul finite_x finite_y).below _ (canonical_unpack _) finite_z h⟩

theorem infinity_mul (positive : 0.0 < x) (finite : x.isFinite) : infinity * x = infinity := by
  have above : 0 < rank x := (lt_iff.mp positive).2.2
  have canonical := canonical_unpack x.toModel
  simp only [rank] at above
  rcases isFinite_cases finite with ⟨s, shape⟩ | ⟨s, m, e, hm, shape⟩
  · rw [shape] at above
    exact absurd above (Int.lt_irrefl 0)
  · rw [shape] at above canonical
    have := steps_pos canonical
    cases s with
    | negative =>
        simp only [place, Sign.apply] at above
        omega
    | positive =>
        show Float.ofModel (Float.Model.pack (UnpackedFloat.mul Format.binary64
          infinity.toModel.unpack x.toModel.unpack)) = infinity
        rw [shape]
        rfl

/-! ## Conversions -/

/-- A word becomes a double next to the number that it counts. -/
theorem rounds_toFloat (w : UInt64) : Rounds w.toNat (rank w.toFloat) := by
  have rounds := rounds_normalize w.toNat 0 .positive
  rw [zpow_zero, mul_one, Int.cast_natCast] at rounds
  exact rounds

theorem not_isNaN_toFloat (w : UInt64) : ¬w.toFloat.isNaN :=
  Bool.eq_false_iff.mp (isNaN_unpack_pack (isNaN_normalize ..))

/-- A converted word is at most what it counts is at most. -/
theorem toFloat_le_of_le_toRat {w : UInt64} (finite_z : z.isFinite) (h : w.toNat ≤ toRat z) :
    w.toFloat ≤ z :=
  le_iff.mpr ⟨not_isNaN_toFloat w, not_isNaN_of_isFinite finite_z,
    (rounds_toFloat w).below _ (canonical_unpack _) finite_z h⟩

theorem isFinite_toFloat_of_le {w : UInt64} (finite_z : z.isFinite) (h : w.toFloat ≤ z) :
    w.toFloat.isFinite := by
  have nonneg : 0 ≤ rank w.toFloat :=
    (rounds_toFloat w).nonneg (Nat.cast_nonneg _)
  refine isFinite_of_rank_lt (not_isNaN_toFloat w) nonneg ?_
  exact (le_iff.mp h).2.2.trans_lt (rank_lt_of_isFinite finite_z)

end Metaheuristics.Binary64

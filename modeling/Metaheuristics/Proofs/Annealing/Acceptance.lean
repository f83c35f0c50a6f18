import Metaheuristics.Proofs.Annealing.Held
import Metaheuristics.Proofs.Binary64.Differences

/-!
# The chance of a move

How an exponential is computed is left to the platform. It is asked to be one at zero, to give a NaN for a
NaN (`LawfulExponential`) and not to fall (`MonotoneExponential`). This is enough for the chance of a move,
where a difference may overflow and a quotient of two infinities is a NaN. Collected here:

* a move to a lower value is certain (`acceptance_of_lt`), and no chance is greater than one
  (`acceptance_le_one`) or less than the smallest normal double (`minNormal_le_acceptance`);
* a higher candidate has no greater chance (`acceptance_antitone`), and a higher temperature gives no
  smaller one (`acceptance_mono`);
* all of this together (`acceptance_is_monotone_chance`), and an exponential that is a staircase
  (`stairs`).
-/

namespace Metaheuristics.Annealing

open Binary64

/-- An exponential that is one at zero and a NaN at a NaN. -/
class LawfulExponential [Exponential] : Prop where
  /-- The exponential of both zeros is one. -/
  zero : ∀ x : Float, (x == 0.0) = true → Exponential.exp x = 1.0
  nan : ∀ x : Float, x.isNaN → (Exponential.exp x).isNaN

/-- An exponential that does not fall besides. The exponential of a number is then a number. -/
class MonotoneExponential [Exponential] : Prop extends LawfulExponential where
  mono : ∀ x y : Float, x ≤ y → Exponential.exp x ≤ Exponential.exp y

/-! ## Bounds -/

theorem larger_le {x y z : Float} (hx : x.isNaN ∨ x ≤ z) (hy : y ≤ z) : larger x y ≤ z := by
  unfold larger
  split
  · exact hy
  · split
    · exact hy
    · rename_i number
      exact hx.resolve_left number

/-- The larger of two numbers grows with the first. -/
theorem larger_mono {x y z : Float} (h : x ≤ y) (number : ¬z.isNaN) : larger x z ≤ larger y z := by
  have first : x ≤ larger y z := le_trans h (le_larger_left (le_iff.mp h).2.1)
  exact larger_le (.inr first) (le_larger number)

section

variable {current candidate temperature : Float}

/-- If a candidate is not lower, its loss over the temperature is not negative, or it is a NaN. -/
theorem exponent_of_not_lt (h : ¬candidate < current) (positive : 0.0 < temperature) :
    ((current - candidate) / temperature).isNaN ∨ (current - candidate) / temperature ≤ 0.0 := by
  rcases sub_of_not_lt h with nan | nonpos
  · exact .inl (isNaN_div_left nan)
  · exact div_of_nonpos nonpos positive

variable [Exponential]

theorem acceptance_of_lt (lower : candidate < current) :
    acceptance current candidate temperature = 1.0 := if_pos lower

theorem acceptance_of_not_lt (h : ¬candidate < current) :
    acceptance current candidate temperature =
      larger (Exponential.exp ((current - candidate) / temperature)) minNormal := if_neg h

variable [MonotoneExponential]

/-- The exponential of a number that is not positive is at most one. -/
theorem exp_le_one {x : Float} (h : x.isNaN ∨ x ≤ 0.0) :
    (Exponential.exp x).isNaN ∨ Exponential.exp x ≤ 1.0 := by
  rcases h with nan | nonpos
  · exact .inl (LawfulExponential.nan x nan)
  · have bound := MonotoneExponential.mono x 0.0 nonpos
    rw [LawfulExponential.zero 0.0 rfl] at bound
    exact .inr bound

theorem acceptance_le_one (current candidate : Float) (positive : 0.0 < temperature) :
    acceptance current candidate temperature ≤ 1.0 := by
  by_cases lower : candidate < current
  · rw [acceptance_of_lt lower]
    decide
  · rw [acceptance_of_not_lt lower]
    exact larger_le (exp_le_one (exponent_of_not_lt lower positive)) (by decide)

/-! ## Monotony -/

/-- A higher candidate has no greater chance. -/
theorem acceptance_antitone {worse : Float} (held : current.isFinite) (finite : temperature.isFinite)
    (positive : 0.0 < temperature) (h : candidate ≤ worse) :
    acceptance current worse temperature ≤ acceptance current candidate temperature := by
  by_cases lower : candidate < current
  · rw [acceptance_of_lt lower]
    exact acceptance_le_one current worse positive
  · have higher : ¬worse < current := fun below => lower (lt_of_le_of_lt h below)
    rw [acceptance_of_not_lt lower, acceptance_of_not_lt higher]
    refine larger_mono (MonotoneExponential.mono _ _ ?_) (by decide)
    exact div_le_div_of_dividend (sub_antitone held h) positive finite

/-- A higher temperature gives no smaller chance. -/
theorem acceptance_mono {warmer : Float} (held : current.isFinite) (proposed : candidate.isFinite)
    (positive : 0.0 < temperature) (h : temperature ≤ warmer) (finite : warmer.isFinite) :
    acceptance current candidate temperature ≤ acceptance current candidate warmer := by
  by_cases lower : candidate < current
  · rw [acceptance_of_lt lower, acceptance_of_lt lower]
    decide
  · have number : ¬(current - candidate).isNaN := by
      rw [sub_eq_add]
      exact not_isNaN_add (not_isNaN_of_isFinite held) ((isFinite_negated _).trans proposed)
    have loss : current - candidate ≤ 0.0 := (sub_of_not_lt lower).resolve_left number
    rw [acceptance_of_not_lt lower, acceptance_of_not_lt lower]
    refine larger_mono (MonotoneExponential.mono _ _ ?_) (by decide)
    exact div_le_div_of_divisor loss positive h finite

end

/-- At every positive temperature the chance of a move is between the smallest normal double and one, and
it is one if the candidate is lower, whatever infinities and NaNs there are. From a finite value, at finite
temperatures, it does not grow with the candidate; and to a finite one it does not fall with the
temperature. -/
theorem acceptance_is_monotone_chance [Exponential] [MonotoneExponential] :
    (∀ current candidate temperature : Float, 0.0 < temperature →
      minNormal ≤ acceptance current candidate temperature ∧
      acceptance current candidate temperature ≤ 1.0 ∧
      (candidate < current → acceptance current candidate temperature = 1.0)) ∧
    (∀ current better worse temperature : Float, current.isFinite → temperature.isFinite →
      0.0 < temperature → better ≤ worse →
      acceptance current worse temperature ≤ acceptance current better temperature) ∧
    ∀ current candidate cooler warmer : Float, current.isFinite → candidate.isFinite →
      0.0 < cooler → cooler ≤ warmer → warmer.isFinite →
      acceptance current candidate cooler ≤ acceptance current candidate warmer := by
  refine ⟨fun current candidate temperature positive => ⟨?_, ?_, ?_⟩, ?_, ?_⟩
  · exact minNormal_le_acceptance current candidate temperature
  · exact acceptance_le_one current candidate positive
  · exact acceptance_of_lt
  · intro current better worse temperature held finite positive h
    exact acceptance_antitone held finite positive h
  · intro current candidate cooler warmer held proposed positive h finite
    exact acceptance_mono held proposed positive h finite

/-- A staircase that meets the exponential at minus infinity, at -1, at -1/2, at zero and at NaNs. -/
def stair (x : Float) : Float :=
  if x.isNaN then x
  else if x ≤ -infinity then 0.0
  else if x ≤ -1.0 then Float.ofBits 0x3fd78b56362cef38
  else if x < 0.0 then Float.ofBits 0x3fe368b2fc6f960a
  else 1.0

theorem stair_mono {x y : Float} (h : x ≤ y) : stair x ≤ stair y := by
  obtain ⟨number_x, number_y, -⟩ := le_iff.mp h
  -- where `y` is not above an edge, neither is `x`
  have bottom : y ≤ -infinity → x ≤ -infinity := le_trans h
  have lower : y ≤ -1.0 → x ≤ -1.0 := le_trans h
  have upper : y < 0.0 → x < 0.0 := lt_of_le_of_lt h
  unfold stair
  rw [if_neg number_x, if_neg number_y]
  split_ifs <;> first | decide | simp_all

theorem stair_zero {x : Float} (same : (x == 0.0) = true) : stair x = 1.0 := by
  obtain ⟨number, -, zero⟩ := beq_iff.mp same
  have above {c : Float} (negative : c < 0.0) : ¬x ≤ c := by
    intro below
    exact lt_irrefl _ (lt_of_le_of_lt (le_iff.mpr ⟨by decide, number, zero.ge⟩)
      (lt_of_le_of_lt below negative))
  have nonneg : ¬x < 0.0 := fun below => Int.lt_irrefl _ (zero ▸ (lt_iff.mp below).2.2)
  rw [stair, if_neg number, if_neg (above (by decide)), if_neg (above (by decide)), if_neg nonneg]

theorem stair_nan {x : Float} (nan : x.isNaN) : (stair x).isNaN := by
  rw [stair, if_pos nan]
  exact nan

/-- The staircase in the place of the exponential. -/
@[reducible]
def stairs : Exponential := ⟨stair⟩

theorem stairs_lawful : @LawfulExponential stairs :=
  @LawfulExponential.mk stairs (fun _ => stair_zero) fun _ => stair_nan

theorem stairs_monotone : @MonotoneExponential stairs :=
  @MonotoneExponential.mk stairs stairs_lawful fun _ _ => stair_mono

/-- On the staircase, a loss of one is taken with the chance 1/e at the temperature 1. It is not greater
than that of no loss, and not greater than the chance at the temperature 2. -/
theorem stairs_is_monotone_chance :
    @acceptance stairs 1.0 2.0 1.0 = Float.ofBits 0x3fd78b56362cef38 ∧
    @acceptance stairs 1.0 2.0 2.0 = Float.ofBits 0x3fe368b2fc6f960a ∧
    minNormal ≤ @acceptance stairs 1.0 2.0 1.0 ∧ @acceptance stairs 1.0 2.0 1.0 ≤ 1.0 ∧
    @acceptance stairs 2.0 1.0 infinity = 1.0 ∧
    @acceptance stairs 1.0 2.0 1.0 ≤ @acceptance stairs 1.0 1.0 1.0 ∧
    @acceptance stairs 1.0 2.0 1.0 ≤ @acceptance stairs 1.0 2.0 2.0 := by
  obtain ⟨bounds, candidates, temperatures⟩ := @acceptance_is_monotone_chance stairs stairs_monotone
  obtain ⟨above, below, -⟩ := bounds 1.0 2.0 1.0 (by decide)
  refine ⟨by decide +kernel, by decide +kernel, above, below, ?_, ?_, ?_⟩
  · exact (bounds 2.0 1.0 infinity (by decide)).2.2 (by decide)
  · exact candidates 1.0 1.0 2.0 1.0 (by decide) (by decide) (by decide) (by decide)
  · exact temperatures 1.0 2.0 1.0 2.0 (by decide) (by decide) (by decide) (by decide) (by decide)

end Metaheuristics.Annealing

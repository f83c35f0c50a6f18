import Metaheuristics.Binary64
import Metaheuristics.InputError

/-!
# Configuring an annealing run

The parameters of simulated annealing, what is wrong with those under which it cannot run, and the
number of temperature levels that its cooling schedule has.
-/

namespace Metaheuristics.Annealing

/-- The parameters of an annealing run. -/
structure Config where
  /-- The temperature of the first level. -/
  initialTemperature : Float := 1000.0
  /-- The factor by which the temperature falls after each level. -/
  coolingRate : Float := 0.99
  /-- How many moves are tried at each level. -/
  movesPerLevel : UInt64 := 1000
  /-- The temperature at which the run ends. -/
  minTemperature : Float := 1e-3
  /-- How far from zero each coordinate of the start may lie. -/
  initialRange : Float := 5.0
  /-- The seed of the random source, if one is set. -/
  seed : Option UInt64 := none

namespace Config

/-- What is wrong with the parameters of an annealing run. -/
inductive Defect where
  | initialTemperature
  | minTemperature
  | temperatureOrder
  | coolingRate (value : Float)
  | noMoves
  | initialRange (value : Float)

/-- The message of a defect. -/
def Defect.message : Defect → String
  | .initialTemperature => "initial_temperature must be finite and positive"
  | .minTemperature => "min_temperature must be finite, positive and normal"
  | .temperatureOrder => "min_temperature must be less than initial_temperature"
  | .coolingRate value => s!"cooling_rate must be in (0, 1), got {Decimal.text value}"
  | .noMoves => "iterations_per_temperature must be positive"
  | .initialRange value =>
    s!"initial_range must be finite and positive, got {Decimal.text value}"

/-- The largest admissible cooling rate. A rate nearer to one could leave a temperature as it is,
because their product is rounded. -/
def maxCoolingRate : Float := 1.0 - Binary64.epsilon

/-- The parameters under which an annealing run is possible. Its temperatures stay normal, where a
product with the cooling rate is smaller than the temperature. -/
structure Valid (c : Config) : Prop where
  initialTemperature : c.initialTemperature.isFinite ∧ 0.0 < c.initialTemperature
  minTemperature : c.minTemperature.isFinite ∧ Binary64.minNormal ≤ c.minTemperature
  temperatureOrder : c.minTemperature < c.initialTemperature
  coolingRate : 0.0 < c.coolingRate ∧ c.coolingRate ≤ maxCoolingRate
  moves : c.movesPerLevel ≠ 0
  initialRange : c.initialRange.isFinite ∧ 0.0 < c.initialRange

/-- The first defect of the parameters, in the order in which they are listed. -/
def defect? (c : Config) : Option Defect :=
  if ¬(c.initialTemperature.isFinite ∧ 0.0 < c.initialTemperature) then some .initialTemperature
  else if ¬(c.minTemperature.isFinite ∧ Binary64.minNormal ≤ c.minTemperature) then
    some .minTemperature
  else if ¬c.minTemperature < c.initialTemperature then some .temperatureOrder
  else if ¬(0.0 < c.coolingRate ∧ c.coolingRate ≤ maxCoolingRate) then
    some (.coolingRate c.coolingRate)
  else if c.movesPerLevel = 0 then some .noMoves
  else if ¬(c.initialRange.isFinite ∧ 0.0 < c.initialRange) then
    some (.initialRange c.initialRange)
  else none

/-- Parameters without a defect are those under which an annealing run is possible. -/
theorem defect?_eq_none_iff {c : Config} : c.defect? = none ↔ c.Valid := by
  unfold defect?
  constructor
  · intro h
    repeat' split at h
    all_goals first | contradiction | skip
    rename_i initial minimum order rate moves range
    exact ⟨Decidable.not_not.1 initial, Decidable.not_not.1 minimum, Decidable.not_not.1 order,
      Decidable.not_not.1 rate, moves, Decidable.not_not.1 range⟩
  · rintro ⟨initial, minimum, order, rate, moves, range⟩
    simp only [initial, minimum, order, rate, moves, range, and_self, not_true_eq_false, ite_false]

/-! ## The cooling schedule -/

/-- A bound on the number of levels of a schedule. The doubles from zero to a temperature are in
the order of their bits, and every level has a temperature of its own, above zero. -/
def levelBound (c : Config) : Nat := c.initialTemperature.toBits.toNat

/-- How many levels a schedule has that has been through `count` of them and goes on, for at most
`limit` more, from a temperature. -/
def levelsFrom (c : Config) : Nat → Nat → Float → Nat
  | 0, count, _ => count
  | limit + 1, count, temperature =>
    if c.minTemperature < temperature then
      c.levelsFrom limit (count + 1) (temperature * c.coolingRate)
    else
      count

/-- How many temperature levels a complete run goes through. There is no answer for parameters
under which no run is possible. -/
def levels (c : Config) : Except Defect Nat :=
  match c.defect? with
  | none => .ok (c.levelsFrom c.levelBound 0 c.initialTemperature)
  | some defect => .error defect

end Config

end Metaheuristics.Annealing

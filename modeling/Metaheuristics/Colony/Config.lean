import Metaheuristics.InputError
import Metaheuristics.Room

/-!
# Configuring a colony

The parameters of a colony, and what is wrong with those under which no colony can work.
-/

namespace Metaheuristics.Colony

/-- The parameters of a colony. -/
structure Config where
  /-- How many ants build a tour in each iteration. -/
  ants : UInt64 := 10
  /-- How many iterations a run has. -/
  iterations : UInt64 := 100
  /-- The exponent of the trail in the desirability of an edge. -/
  alpha : Float := 1.0
  /-- The exponent of the closeness of two cities in the desirability of an edge. -/
  beta : Float := 2.0
  /-- The fraction of every trail that is lost in each iteration. -/
  evaporation : Float := 0.5
  /-- What a tour deposits on its edges, times its length. -/
  q : Float := 100.0
  /-- The strength of every trail at first. -/
  initialTrail : Float := 1.0
  /-- The seed of the random source, if one is set. -/
  seed : Option UInt64 := none

namespace Config

/-- The number of cities that the default parameters are meant for. -/
def defaultCities : Nat := 5

/-- What is wrong with the parameters of a colony. -/
inductive Defect where
  | noAnts
  | noIterations
  | alpha (value : Float)
  | beta (value : Float)
  | evaporation (value : Float)
  | q (value : Float)
  | initialTrail (value : Float)

/-- The message of a defect. -/
def Defect.message : Defect → String
  | .noAnts => "num_ants must be positive"
  | .noIterations => "max_iterations must be positive"
  | .alpha value => s!"alpha must be finite and >= 0, got {Decimal.text value}"
  | .beta value => s!"beta must be finite and >= 0, got {Decimal.text value}"
  | .evaporation value => s!"evaporation must be in (0, 1), got {Decimal.text value}"
  | .q value => s!"q must be finite and positive, got {Decimal.text value}"
  | .initialTrail value =>
    s!"initial_pheromone must be finite and positive, got {Decimal.text value}"

/-- The parameters under which a colony works. -/
structure Valid (c : Config) : Prop where
  ants : c.ants ≠ 0
  iterations : c.iterations ≠ 0
  alpha : c.alpha.isFinite ∧ 0.0 ≤ c.alpha
  beta : c.beta.isFinite ∧ 0.0 ≤ c.beta
  evaporation : 0.0 < c.evaporation ∧ c.evaporation < 1.0
  q : c.q.isFinite ∧ 0.0 < c.q
  initialTrail : c.initialTrail.isFinite ∧ 0.0 < c.initialTrail

/-- The first defect of the parameters, in the order in which they are listed. -/
def defect? (c : Config) : Option Defect :=
  if c.ants = 0 then some .noAnts
  else if c.iterations = 0 then some .noIterations
  else if ¬(c.alpha.isFinite ∧ 0.0 ≤ c.alpha) then some (.alpha c.alpha)
  else if ¬(c.beta.isFinite ∧ 0.0 ≤ c.beta) then some (.beta c.beta)
  else if ¬(0.0 < c.evaporation ∧ c.evaporation < 1.0) then some (.evaporation c.evaporation)
  else if ¬(c.q.isFinite ∧ 0.0 < c.q) then some (.q c.q)
  else if ¬(c.initialTrail.isFinite ∧ 0.0 < c.initialTrail) then
    some (.initialTrail c.initialTrail)
  else none

/-- Parameters without a defect are those under which a colony works. -/
theorem defect?_eq_none_iff {c : Config} : c.defect? = none ↔ c.Valid := by
  unfold defect?
  constructor
  · intro h
    repeat' split at h
    all_goals first | contradiction | skip
    rename_i ants iterations alpha beta evaporation q initialTrail
    exact ⟨ants, iterations, Decidable.not_not.1 alpha, Decidable.not_not.1 beta,
      Decidable.not_not.1 evaporation, Decidable.not_not.1 q, Decidable.not_not.1 initialTrail⟩
  · rintro ⟨ants, iterations, alpha, beta, evaporation, q, initialTrail⟩
    simp only [ants, iterations, alpha, beta, evaporation, q, initialTrail, and_self,
      not_true_eq_false, ite_false]

/-- The parameters under which there is room for what a run keeps: a length for every iteration and
a tour for every ant. The lengths of the tours need less room than the tours. -/
structure Fits (c : Config) : Prop where
  lengths : Room.Holds c.iterations.toNat Room.doubleBytes
  tours : Room.Holds c.ants.toNat Room.listBytes

/-- Reserves what a run keeps. -/
def reserve (c : Config) : Except Fault Unit := do
  Room.reserve c.iterations.toNat Room.doubleBytes
  Room.reserve c.ants.toNat Room.listBytes

theorem reserve_eq_ok_iff {c : Config} : c.reserve = .ok () ↔ c.Fits := by
  by_cases lengths : Room.Holds c.iterations.toNat Room.doubleBytes
  · have rest : c.reserve = Room.reserve c.ants.toNat Room.listBytes := by
      rw [reserve, Room.reserve_of_holds lengths]
      rfl
    rw [rest, Room.reserve_eq_ok_iff]
    exact ⟨fun tours => ⟨lengths, tours⟩, Fits.tours⟩
  · rw [reserve, Room.reserve_of_not_holds lengths]
    exact ⟨nofun, fun fits => absurd fits.lengths lengths⟩

end Config

end Metaheuristics.Colony

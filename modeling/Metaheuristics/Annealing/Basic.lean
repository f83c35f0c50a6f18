import Metaheuristics.Annealing.Config
import Metaheuristics.Annealing.Point
import Metaheuristics.Random.Sampling

/-!
# Simulated annealing

A point wanders over the plane. Every move proposes a point nearby, no farther off in either
coordinate than the temperature. A better point is always taken, a worse one with a chance that
shrinks as the loss grows and as the temperature falls. The best point held so far is remembered.
-/

namespace Metaheuristics

/-- An annealing search for a point of low value. -/
structure Annealing where
  /-- The function to be minimised. -/
  objective : Annealing.Objective
  /-- The parameters of the search. -/
  config : Annealing.Config
  /-- The search can run under its parameters. -/
  valid : config.Valid

namespace Annealing

variable {σ : Type} [WordSource σ]

/-- An annealing search, unless its parameters are refused. -/
def create (objective : Objective) (config : Config) : Except InputError Annealing :=
  match h : config.defect? with
  | none => .ok ⟨objective, config, Config.defect?_eq_none_iff.1 h⟩
  | some defect => .error (.invalidConfig defect.message)

/-! ## Moving -/

/-- How the exponential of a number is computed, which is left to the platform. -/
class Exponential where
  /-- The exponential. -/
  exp : Float → Float

instance : Exponential := ⟨Float.exp⟩

/-- The chance of moving from a point with value `current` to one with value `candidate`: one if
the candidate is lower, and otherwise the exponential of the loss over the temperature, but never
less than the smallest normal double. -/
def acceptance [Exponential] (current candidate temperature : Float) : Float :=
  if candidate < current then
    1.0
  else
    Binary64.larger (Exponential.exp ((current - candidate) / temperature)) Binary64.minNormal

/-- A wandering point, with what it has been through. -/
structure Walk where
  /-- The point held now. -/
  current : Point
  /-- The lowest point ever held, the first of its value. -/
  best : Point
  /-- How many moves were tried. -/
  tried : Nat
  /-- How many moves were accepted. -/
  accepted : Nat
  /-- How many accepted moves led to a lower value. -/
  improving : Nat

namespace Walk

/-- A walk that has not moved from its start. -/
def start (p : Point) : Walk := ⟨p, p, 0, 0, 0⟩

/-- Moves to a point, which becomes the best one if it is lower. -/
def accept (w : Walk) (p : Point) : Walk where
  current := p
  best := if p.value < w.best.value then p else w.best
  tried := w.tried + 1
  accepted := w.accepted + 1
  improving := if p.value < w.current.value then w.improving + 1 else w.improving

/-- Stays where it is. -/
def decline (w : Walk) : Walk := { w with tried := w.tried + 1 }

/-- Moves to the candidate if its chance is greater than a fraction drawn at random. -/
def consider [Exponential] (w : Walk) (temperature : Float) (candidate : Point)
    (fraction : Float) : Walk :=
  if fraction < acceptance w.current.value candidate.value temperature then
    w.accept candidate
  else
    w.decline

end Walk

/-- Draws a point near `p`: each coordinate is moved by at most the temperature. -/
def propose (a : Annealing) (temperature : Float) (p : Point) : Draw σ Point := do
  let dx ← Interval.symmetricUnit.sample
  let dy ← Interval.symmetricUnit.sample
  return a.objective.at (p.x + dx * temperature) (p.y + dy * temperature)

/-- Tries one move. -/
def move [Exponential] (a : Annealing) (temperature : Float) (w : Walk) : Draw σ Walk := do
  let candidate ← a.propose temperature w.current
  let fraction ← Draw.fraction
  return w.consider temperature candidate fraction

/-- Tries a number of moves, one after another, at the same temperature. -/
def moves [Exponential] (a : Annealing) (temperature : Float) : Nat → Walk → Draw σ Walk
  | 0, w => return w
  | count + 1, w => do
    let w ← a.move temperature w
    a.moves temperature count w

/-! ## Running -/

/-- How far a run has come: the walk, the temperature it has cooled down to, and the best value at
the start and after each level. -/
structure Progress where
  /-- The walk so far. -/
  walk : Walk
  /-- The temperature of the next level. -/
  temperature : Float
  /-- How many levels were completed. -/
  levels : Nat
  /-- The best value at the start and after each level. -/
  history : Array Float

/-- Draws the start of a run: a point of a square around the origin, its first coordinate first. -/
def begin (a : Annealing) : Draw σ Progress := do
  let range ← Interval.between (-a.config.initialRange) a.config.initialRange
  let x ← range.sample
  let y ← range.sample
  let start := a.objective.at x y
  return ⟨Walk.start start, a.config.initialTemperature, 0, #[start.value]⟩

/-- Goes through one temperature level and cools down. -/
def level [Exponential] (a : Annealing) (p : Progress) : Draw σ Progress := do
  let walk ← a.moves p.temperature a.config.movesPerLevel.toNat p.walk
  return {
    walk
    temperature := p.temperature * a.config.coolingRate
    levels := p.levels + 1
    history := p.history.push walk.best.value }

/-- What a run has found. -/
structure Result where
  /-- The lowest point ever held, the first of its value. -/
  best : Point
  /-- The point held at the end. -/
  lastAccepted : Point
  /-- How many moves were tried. -/
  iterations : Nat
  /-- How many temperature levels were completed. -/
  temperatureSteps : Nat
  /-- The temperature at the end. -/
  finalTemperature : Float
  /-- How many moves were accepted. -/
  acceptedMoves : Nat
  /-- How many accepted moves led to a lower value. -/
  improvingMoves : Nat
  /-- Whether the run was cancelled. -/
  cancelled : Bool
  /-- The best value at the start and after each level. -/
  valueHistory : Array Float

/-- The result of a run that has come so far. -/
def Progress.result (p : Progress) (cancelled : Bool) : Result where
  best := p.walk.best
  lastAccepted := p.walk.current
  iterations := p.walk.tried
  temperatureSteps := p.levels
  finalTemperature := p.temperature
  acceptedMoves := p.walk.accepted
  improvingMoves := p.walk.improving
  cancelled := cancelled
  valueHistory := p.history

/-- Goes on with a run while the temperature is above its minimum, for at most `limit` levels.
Before each of them, `stop` decides whether the run is cancelled; it is told how many levels are
complete, and sees the random source. -/
def proceed [Exponential] (a : Annealing) (stop : Nat → σ → Bool) :
    Nat → Progress → Draw σ Result
  | 0, p => return p.result false
  | limit + 1, p => do
    if a.config.minTemperature < p.temperature then
      let source ← get
      if stop p.levels source then
        return p.result true
      else
        let p ← a.level p
        a.proceed stop limit p
    else
      return p.result false

/-- Anneals from a random start until the temperature has reached its minimum or `stop` cancels
the run. -/
def run [Exponential] (a : Annealing) (stop : Nat → σ → Bool) : Draw σ Result := do
  let p ← a.begin
  a.proceed stop a.config.levelBound p

/-- Anneals from a random start until the temperature has reached its minimum. -/
def solve [Exponential] (a : Annealing) : Draw σ Result :=
  a.run fun _ _ => false

end Annealing

end Metaheuristics

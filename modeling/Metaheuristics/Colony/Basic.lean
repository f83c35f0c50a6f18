import Metaheuristics.Colony.Config
import Metaheuristics.Distances
import Metaheuristics.Roulette
import Metaheuristics.Trails

/-!
# A colony of ants

Ants build closed tours through all cities, preferring strong trails and short edges, and the
trails of the tours they built are strengthened after every iteration. A run records the shortest
tour that any of its ants has built.
-/

namespace Metaheuristics

/-- A colony at work between `n` cities. -/
structure Colony (n : Nat) where
  /-- The parameters it works under. -/
  config : Colony.Config
  /-- The costs of travelling between the cities. -/
  distances : Distances n
  /-- The trails that its ants have left so far. -/
  trails : Trails n
  /-- A colony can work under its parameters. -/
  valid : config.Valid
  /-- How a number is raised to a power, which is left to the platform. -/
  power : Float → Float → Float := Float.pow

namespace Colony

variable {n : Nat} {σ : Type} [WordSource σ]

/-- A colony that has not worked yet, unless its parameters are refused. -/
def create (distances : Distances n) (config : Config) : Except InputError (Colony n) :=
  match h : config.defect? with
  | none =>
    match made : Trails.create n config.initialTrail with
    | .ok trails =>
      .ok {
        config
        distances
        trails
        valid := Config.defect?_eq_none_iff.1 h }
    -- the distances have found room, and the trails need no more
    | .error _ => nomatch made.symm.trans (Trails.create_of_holds distances.room)
  | some defect => .error (.invalidConfig defect.message)

theorem create_of_valid (distances : Distances n) {config : Config} (valid : config.Valid) :
    create distances config =
      .ok { config, distances, trails := .uniform n config.initialTrail, valid } := by
  have uniform : Trails.create n config.initialTrail = .ok (.uniform n config.initialTrail) :=
    Trails.create_of_holds distances.room
  unfold create
  split
  · split
    · rename_i made
      cases uniform.symm.trans made
      rfl
    · rename_i made
      cases uniform.symm.trans made
  · rename_i found
    rw [Config.defect?_eq_none_iff.2 valid] at found
    cases found

theorem create_of_defect (distances : Distances n) {config : Config} {defect : Config.Defect}
    (found : config.defect? = some defect) :
    create distances config = .error (.invalidConfig defect.message) := by
  unfold create
  split
  · rename_i sound
    cases sound.symm.trans found
  · rename_i other
    cases other.symm.trans found
    rfl

/-! ## Building a tour -/

/-- How desirable an edge is: the strength of its trail and the inverse of its cost, each raised to
its exponent. -/
def Config.desirability (c : Config) (power : Float → Float → Float) (trail cost : Float) : Float :=
  power trail c.alpha * power (1.0 / cost) c.beta

/-- The moves open to an ant in city `current`: the cities `left`, weighted by desirability. -/
def options (c : Colony n) (current : Nat) (left : List Nat) :
    Except Fault (List (Nat × Float)) :=
  left.mapM fun city => do
    let trail ← c.trails.read current city
    let cost ← c.distances.read current city
    return (city, c.config.desirability c.power trail cost)

/-- Chooses the next city of an ant. With no city left, the ant stays where it is. -/
def step (c : Colony n) (current : Nat) (left : List Nat) : Draw σ Nat := do
  let options ← c.options current left
  let city ← Roulette.spin options
  return city.getD current

/-- The next `moves` cities of an ant. The cities left are in index order. -/
def walk (c : Colony n) : Nat → Nat → List Nat → Draw σ Tour
  | 0, _, _ => return []
  | moves + 1, current, left => do
    let city ← c.step current left
    let rest ← c.walk moves city (left.erase city)
    return city :: rest

/-- The tour of one ant, from a city drawn at random through all the others. -/
def tour (c : Colony n) : Draw σ Tour := do
  let start ← Draw.index n
  let rest ← c.walk (n - 1) start ((List.range n).erase start)
  return start :: rest

/-- A tour that an ant has made, with its length. -/
structure Trip where
  /-- The cities in the order of visiting. -/
  tour : Tour
  /-- The length of the closed tour. -/
  length : Float

/-- Sends out one ant. -/
def trip (c : Colony n) : Draw σ Trip := do
  let tour ← c.tour
  let length ← c.distances.tourLength tour
  return ⟨tour, length⟩

/-- Sends out ants one after another, over the same trails. -/
def trips (c : Colony n) : Nat → Draw σ (List Trip)
  | 0 => return []
  | ants + 1 => do
    let trip ← c.trip
    let rest ← c.trips ants
    return trip :: rest

/-- One iteration: all ants are sent out, and then the trails are reinforced by their tours. -/
def iterate (c : Colony n) : Draw σ (List Trip × Colony n) := do
  let trips ← c.trips c.config.ants.toNat
  let trails ← c.trails.reinforce c.config.evaporation c.config.q
    (trips.map fun trip => (trip.tour, trip.length))
  return (trips, { c with trails })

/-! ## Running -/

/-- What a run has found. -/
structure Result where
  /-- The shortest tour, the first of its length, if any tour is shorter than infinity. -/
  bestTour : Option Tour
  /-- Its length; infinity if there is none. -/
  bestLength : Float
  /-- How many iterations were completed. -/
  iterations : Nat
  /-- The iteration that found the shortest tour, counted from zero. -/
  bestIteration : Nat
  /-- Whether the run was cancelled. -/
  cancelled : Bool
  /-- The shortest length so far after each iteration. -/
  lengthHistory : Array Float

namespace Result

/-- The result of a run in which nothing has happened. -/
def empty : Result := ⟨none, Binary64.infinity, 0, 0, false, #[]⟩

/-- Takes note of a trip made during the next iteration. -/
def note (r : Result) (trip : Trip) : Result :=
  if trip.length < r.bestLength then
    { r with bestTour := some trip.tour, bestLength := trip.length, bestIteration := r.iterations }
  else
    r

/-- Takes note of all trips of the next iteration and completes it. -/
def record (r : Result) (trips : List Trip) : Result :=
  let r := trips.foldl note r
  { r with iterations := r.iterations + 1, lengthHistory := r.lengthHistory.push r.bestLength }

end Result

/-- Goes on with a run for at most `limit` iterations. Before each of them, `stop` decides whether
the run is cancelled; it is told how many iterations are complete, and sees the random source. -/
def proceed (stop : Nat → σ → Bool) :
    Nat → Colony n → Result → Draw σ (Result × Colony n)
  | 0, c, r => return (r, c)
  | limit + 1, c, r => do
    let source ← get
    if stop r.iterations source then
      return ({ r with cancelled := true }, c)
    else
      let (trips, c) ← c.iterate
      proceed stop limit c (r.record trips)

/-- Runs the colony until its iterations are complete or `stop` cancels it. The trails persist, the
best tour does not. What the run keeps is reserved first, so a colony that asks for too much does
not run at all, not even to be cancelled. -/
def run (c : Colony n) (stop : Nat → σ → Bool) : Draw σ (Result × Colony n) := do
  c.config.reserve
  proceed stop c.config.iterations.toNat c .empty

/-- A run that there is room for consists of its iterations. -/
theorem run_of_fits {c : Colony n} (fits : c.config.Fits) (stop : Nat → σ → Bool) :
    c.run stop = proceed stop c.config.iterations.toNat c .empty := by
  rw [run, Config.reserve_eq_ok_iff.2 fits]; rfl

/-- A run ends with a result when there is room for it and its iterations do so. -/
theorem run_eq_ok_iff {c : Colony n} {stop : Nat → σ → Bool} {s t : σ} {r : Result × Colony n} :
    c.run stop s = .ok (r, t) ↔
      c.config.Fits ∧ proceed stop c.config.iterations.toNat c .empty s = .ok (r, t) := by
  by_cases fits : c.config.Fits
  · rw [run_of_fits fits, and_iff_right fits]
  · refine iff_of_false (fun ran => ?_) (fun both => fits both.1)
    obtain ⟨_, _, reserved, _⟩ := Draw.bind_eq_ok_iff.1 ran
    cases h : c.config.reserve with
    | ok _ => exact fits (Config.reserve_eq_ok_iff.1 h)
    | error _ => rw [h] at reserved; cases reserved

/-- Runs the colony until its iterations are complete. -/
def solve (c : Colony n) : Draw σ (Result × Colony n) :=
  c.run fun _ _ => false

end Colony

end Metaheuristics

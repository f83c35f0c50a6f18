import Metaheuristics.Annealing.Basic
import Metaheuristics.Record.Basic

/-!
# Annealing as records

The JSON forms of the parameters of an annealing run, of points, and of the result of a run.
-/

namespace Metaheuristics.Annealing

namespace Config

/-- The names of the parameters, in their order. -/
def fieldNames : List String :=
  ["initial_temperature", "cooling_rate", "iterations_per_temperature", "min_temperature",
    "initial_range", "seed"]

/-- The record of the parameters. -/
def toJson (c : Config) : Json :=
  .object [
    ("initial_temperature", Json.ofDouble c.initialTemperature),
    ("cooling_rate", Json.ofDouble c.coolingRate),
    ("iterations_per_temperature", .natural c.movesPerLevel.toNat),
    ("min_temperature", Json.ofDouble c.minTemperature),
    ("initial_range", Json.ofDouble c.initialRange),
    ("seed", Json.ofOption (fun seed => .natural seed.toNat) c.seed)]

/-- The parameters in a record. They are not checked. -/
def ofJson? (j : Json) : Option Config :=
  match Record.fields? fieldNames j with
  | some [initialTemperature, coolingRate, movesPerLevel, minTemperature, initialRange, seed] => do
    let initialTemperature ← Record.required Json.double? initialTemperature
    let coolingRate ← Record.required Json.double? coolingRate
    let movesPerLevel ← Record.required Json.word? movesPerLevel
    let minTemperature ← Record.required Json.double? minTemperature
    let initialRange ← Record.required Json.double? initialRange
    let seed ← Record.optional Json.word? seed
    return { initialTemperature, coolingRate, movesPerLevel, minTemperature, initialRange, seed }
  | _ => none

end Config

namespace Point

/-- The names of the fields of a point, in their order. -/
def fieldNames : List String := ["x", "y", "value"]

/-- The record of a point. -/
def toJson (p : Point) : Json :=
  .object [
    ("x", Json.ofDouble p.x),
    ("y", Json.ofDouble p.y),
    ("value", Json.ofDouble p.value)]

/-- The point in a record. Its value is taken as it is. -/
def ofJson? (j : Json) : Option Point :=
  match Record.fields? fieldNames j with
  | some [x, y, value] => do
    let x ← Record.required Json.double? x
    let y ← Record.required Json.double? y
    let value ← Record.required Json.double? value
    return { x, y, value }
  | _ => none

end Point

namespace Objective

/-- The JSON form of the default objective, which has no parameters. -/
def defaultJson : Json := .null

/-- The default objective, if that is what a JSON value stands for. -/
def ofJson? : Json → Option Objective
  | .null => some inverseParaboloid
  | _ => none

end Objective

namespace Result

/-- The names of the fields of a result, in their order. -/
def fieldNames : List String :=
  ["best", "last_accepted", "iterations", "temperature_steps", "final_temperature",
    "accepted_moves", "improving_moves", "cancelled", "value_history"]

/-- The record of a result. -/
def toJson (r : Result) : Json :=
  .object [
    ("best", r.best.toJson),
    ("last_accepted", r.lastAccepted.toJson),
    ("iterations", .natural r.iterations),
    ("temperature_steps", .natural r.temperatureSteps),
    ("final_temperature", Json.ofDouble r.finalTemperature),
    ("accepted_moves", .natural r.acceptedMoves),
    ("improving_moves", .natural r.improvingMoves),
    ("cancelled", .bool r.cancelled),
    ("value_history", Json.ofDoubles r.valueHistory.toList)]

/-- The result in a record. -/
def ofJson? (j : Json) : Option Result :=
  match Record.fields? fieldNames j with
  | some [best, lastAccepted, iterations, temperatureSteps, finalTemperature, acceptedMoves,
      improvingMoves, cancelled, valueHistory] => do
    let best ← Record.required Point.ofJson? best
    let lastAccepted ← Record.required Point.ofJson? lastAccepted
    let iterations ← Record.required Json.count? iterations
    let temperatureSteps ← Record.required Json.count? temperatureSteps
    let finalTemperature ← Record.required Json.double? finalTemperature
    let acceptedMoves ← Record.required Json.count? acceptedMoves
    let improvingMoves ← Record.required Json.count? improvingMoves
    let cancelled ← Record.required Json.bool? cancelled
    let valueHistory ← Record.required (Json.list? Json.double?) valueHistory
    return {
      best, lastAccepted, iterations, temperatureSteps, finalTemperature, acceptedMoves
      improvingMoves, cancelled
      valueHistory := valueHistory.toArray }
  | _ => none

end Result

end Metaheuristics.Annealing

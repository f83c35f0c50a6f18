import Metaheuristics.Colony.Basic
import Metaheuristics.Record.Basic

/-!
# Colonies as records

The JSON forms of the parameters of a colony and of the result of a run.
-/

namespace Metaheuristics.Colony

namespace Config

/-- The names of the parameters, in their order. -/
def fieldNames : List String :=
  ["num_ants", "max_iterations", "alpha", "beta", "evaporation", "q", "initial_pheromone", "seed"]

/-- The record of the parameters. -/
def toJson (c : Config) : Json :=
  .object [
    ("num_ants", .natural c.ants.toNat),
    ("max_iterations", .natural c.iterations.toNat),
    ("alpha", Json.ofDouble c.alpha),
    ("beta", Json.ofDouble c.beta),
    ("evaporation", Json.ofDouble c.evaporation),
    ("q", Json.ofDouble c.q),
    ("initial_pheromone", Json.ofDouble c.initialTrail),
    ("seed", Json.ofOption (fun seed => .natural seed.toNat) c.seed)]

/-- The parameters in a record. They are not checked. -/
def ofJson? (j : Json) : Option Config :=
  match Record.fields? fieldNames j with
  | some [ants, iterations, alpha, beta, evaporation, q, initialTrail, seed] => do
    let ants ← Record.required Json.word? ants
    let iterations ← Record.required Json.word? iterations
    let alpha ← Record.required Json.double? alpha
    let beta ← Record.required Json.double? beta
    let evaporation ← Record.required Json.double? evaporation
    let q ← Record.required Json.double? q
    let initialTrail ← Record.required Json.double? initialTrail
    let seed ← Record.optional Json.word? seed
    return { ants, iterations, alpha, beta, evaporation, q, initialTrail, seed }
  | _ => none

end Config

namespace Result

/-- The names of the fields of a result, in their order. -/
def fieldNames : List String :=
  ["best_tour", "best_length", "iterations", "best_iteration", "cancelled", "length_history"]

/-- The record of a result. -/
def toJson (r : Result) : Json :=
  .object [
    ("best_tour", Json.ofOption Json.ofCounts r.bestTour),
    ("best_length", Json.ofDouble r.bestLength),
    ("iterations", .natural r.iterations),
    ("best_iteration", .natural r.bestIteration),
    ("cancelled", .bool r.cancelled),
    ("length_history", Json.ofDoubles r.lengthHistory.toList)]

/-- The result in a record. -/
def ofJson? (j : Json) : Option Result :=
  match Record.fields? fieldNames j with
  | some [bestTour, bestLength, iterations, bestIteration, cancelled, lengthHistory] => do
    let bestTour ← Record.optional (Json.list? Json.count?) bestTour
    let bestLength ← Record.required Json.double? bestLength
    let iterations ← Record.required Json.count? iterations
    let bestIteration ← Record.required Json.count? bestIteration
    let cancelled ← Record.required Json.bool? cancelled
    let lengthHistory ← Record.required (Json.list? Json.double?) lengthHistory
    return {
      bestTour, bestLength, iterations, bestIteration, cancelled
      lengthHistory := lengthHistory.toArray }
  | _ => none

end Result

end Metaheuristics.Colony

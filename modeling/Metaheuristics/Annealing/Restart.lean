import Metaheuristics.Annealing.Basic
import Metaheuristics.Random.Keystream
import Metaheuristics.Restart

/-!
# Seeded annealing

An annealing run whose random source comes from a seed, and the best of several such runs.
-/

namespace Metaheuristics.Annealing

/-- The result of a run whose random source comes from a seed. -/
def solveFrom (a : Annealing) (seed : UInt64) : Except Fault Result := do
  let (result, _) ← a.solve (Keystream.ofSeed seed)
  return result

/-- Runs the search for every seed and keeps the first result of the lowest best value. No seeds
are refused, and so are parameters under which no run is possible. -/
def multiStart (objective : Objective) (config : Config) (seeds : List UInt64) :
    Except InputError (Except Fault Result) :=
  match seeds with
  | [] => .error Restart.noSeeds
  | seed :: seeds => do
    let annealing ← create objective config
    return Restart.best (fun result => result.best.value) annealing.solveFrom seed seeds

end Metaheuristics.Annealing

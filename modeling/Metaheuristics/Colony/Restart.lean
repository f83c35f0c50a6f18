import Metaheuristics.Colony.Basic
import Metaheuristics.Random.Keystream
import Metaheuristics.Restart

/-!
# Seeded colonies

A colony whose random source comes from a seed, and the best of several such colonies.
-/

namespace Metaheuristics.Colony

variable {n : Nat}

/-- The result of a fresh run whose random source comes from a seed. -/
def solveFrom (c : Colony n) (seed : UInt64) : Except Fault Result := do
  let ((result, _), _) ← c.solve (Keystream.ofSeed seed)
  return result

/-- Runs a fresh colony for every seed and keeps the first result of the shortest length. No seeds
are refused, and so are parameters under which no colony can work. -/
def multiStart (distances : Distances n) (config : Config) (seeds : List UInt64) :
    Except InputError (Except Fault Result) :=
  match seeds with
  | [] => .error Restart.noSeeds
  | seed :: seeds => do
    let colony ← create distances config
    return Restart.best Result.bestLength colony.solveFrom seed seeds

end Metaheuristics.Colony

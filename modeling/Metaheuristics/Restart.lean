import Metaheuristics.Fault
import Metaheuristics.InputError

/-!
# Restarts

A stochastic search is repeated from several seeds, and the best of its results is kept.
-/

namespace Metaheuristics.Restart

/-- The first of the results with the lowest score. A later one is preferred only if its score is
strictly lower. -/
def firstLowest {α : Type} (score : α → Float) : α → List α → α
  | best, [] => best
  | best, r :: results => firstLowest score (if score r < score best then r else best) results

/-- The refusal of restarts from no seed at all. -/
def noSeeds : InputError := .invalidConfig "multi_start requires at least one seed"

/-- Repeats a search from every seed, one after another, and keeps the first result of lowest
score. -/
def best {α : Type} (score : α → Float) (search : UInt64 → Except Fault α)
    (seed : UInt64) (seeds : List UInt64) : Except Fault α := do
  let first ← search seed
  let others ← seeds.mapM search
  return firstLowest score first others

end Metaheuristics.Restart

import Metaheuristics.Decimal.Positional

/-!
# Refused input

The causes for which data is refused before a search begins, and the message of each.
-/

namespace Metaheuristics

/-- Why a table of distances or a configuration is refused. -/
inductive InputError where
  /-- The table has no rows. -/
  | emptyMatrix
  /-- The table has fewer rows than a tour has cities. -/
  | tooFewCities (count : Nat)
  /-- A row is not as long as there are rows. -/
  | notSquare (row length expected : Nat)
  /-- A distance is negative or not finite, or it is zero between two cities. -/
  | invalidDistance (origin target : Nat) (value : Float)
  /-- A parameter of a search is out of its range, as the text says. -/
  | invalidConfig (text : String)
deriving BEq

/-- The message of a refusal. -/
def InputError.message : InputError → String
  | .emptyMatrix => "distance matrix is empty"
  | .tooFewCities count => s!"at least 2 cities are required, got {count}"
  | .notSquare row length expected =>
    s!"distance matrix is not square: row {row} has {length} entries, expected {expected}"
  | .invalidDistance origin target value =>
    s!"invalid distance {Decimal.text value} from city {origin} to city {target}"
  | .invalidConfig text => s!"invalid configuration: {text}"

end Metaheuristics

import Metaheuristics.Distances
import Metaheuristics.Json.Basic
import Metaheuristics.Trails

/-!
# Tables as records

Distances are exchanged as the list of their rows and are checked whenever they are read. Trails
are only written.
-/

namespace Metaheuristics

namespace Distances

/-- Why a JSON value is not read as distances. -/
inductive Unreadable where
  /-- It is not a list of lists of numbers. -/
  | noRows
  /-- Its rows are no distances. -/
  | refused (error : InputError)

/-- The rows of the distances. -/
def toJson {n : Nat} (d : Distances n) : Json := .list (d.toRows.map Json.ofDoubles)

/-- The rows that a JSON value lists. -/
def rows? (j : Json) : Option (List (List Float)) := j.list? (Json.list? Json.double?)

/-- The distances whose rows a JSON value lists. -/
def ofJson (j : Json) : Except Fault (Except Unreadable ((n : Nat) × Distances n)) :=
  match rows? j with
  | none => .ok (.error .noRows)
  | some rows => Except.mapError .refused <$> ofRows rows

end Distances

/-- The size of the table of trails and all its cells, row after row. -/
def Trails.toJson {n : Nat} (t : Trails n) : Json :=
  .object [("n", .natural n), ("data", Json.ofDoubles t.toList)]

end Metaheuristics

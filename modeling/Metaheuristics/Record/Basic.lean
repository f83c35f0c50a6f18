import Metaheuristics.Json.Basic

/-!
# Records

A record has named fields in a fixed order. Its JSON form is an object; what is read may be an
object with the fields in any order among others, or a list with exactly one item for each field.
-/

namespace Metaheuristics.Record

/-- The values of the named fields, in their order. In an object a field may be missing, in a list
it may not. -/
def fields? (names : List String) : Json → Option (List (Option Json))
  | .object members => some (names.map fun name => Json.member? name (.object members))
  | .list items => if items.length = names.length then some (items.map some) else none
  | _ => none

/-- A field that has to be present. -/
def required {α : Type} (decode : Json → Option α) (field : Option Json) : Option α :=
  field.bind decode

/-- A field that may be missing or `null`. -/
def optional {α : Type} (decode : Json → Option α) : Option Json → Option (Option α)
  | none => some none
  | some .null => some none
  | some j => (decode j).map some

end Metaheuristics.Record

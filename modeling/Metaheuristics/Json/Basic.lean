/-!
# JSON values

A number without sign, fraction and exponent is kept as the natural number it is, and every other
number as a double. Members of an object stay in the order of the text, repeated names included.
-/

namespace Metaheuristics

/-- A JSON value. -/
inductive Json where
  | null
  | bool (value : Bool)
  | natural (value : Nat)
  | real (value : Float)
  | text (value : String)
  | list (items : List Json)
  | object (members : List (String × Json))

namespace Json

/-! ## Making values -/

/-- A double as a JSON value. JSON has no infinities and no NaN: `null` stands for them. -/
def ofDouble (x : Float) : Json :=
  if x.isFinite then .real x else .null

/-- A list of doubles. -/
def ofDoubles (xs : List Float) : Json := .list (xs.map ofDouble)

/-- A list of counts. -/
def ofCounts (ns : List Nat) : Json := .list (ns.map natural)

/-- What `encode` makes of a present value; `null` stands for an absent one. -/
def ofOption {α : Type} (encode : α → Json) : Option α → Json
  | none => .null
  | some a => encode a

/-! ## Taking values apart -/

/-- A truth value. -/
def bool? : Json → Option Bool
  | .bool b => some b
  | _ => none

/-- A double, from any number. -/
def double? : Json → Option Float
  | .natural n => some (Float.ofNat n)
  | .real x => some x
  | _ => none

/-- A count: a natural number of at most 64 bits. -/
def count? : Json → Option Nat
  | .natural n => if n < UInt64.size then some n else none
  | _ => none

/-- A word of 64 bits. -/
def word? (j : Json) : Option UInt64 := j.count?.map UInt64.ofNat

/-- A text. -/
def text? : Json → Option String
  | .text s => some s
  | _ => none

/-- A list, if `decode` accepts each of its items. -/
def list? {α : Type} (decode : Json → Option α) : Json → Option (List α)
  | .list items => items.mapM decode
  | _ => none

/-- The member of an object with a given name, the last one if the name is repeated. -/
def member? (name : String) : Json → Option Json
  | .object members => members.reverse.lookup name
  | _ => none

end Json

end Metaheuristics

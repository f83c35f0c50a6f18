import Metaheuristics.Json.Basic
import Metaheuristics.Json.Token

/-!
# Reading JSON

A text is a JSON value if its tokens are those of one value and nothing is left over.
-/

namespace Metaheuristics.Json

mutual

/-- A value at the start of some tokens, and what follows it. -/
def value? : Nat → List Token → Option (Json × List Token)
  | _, .null :: ts => some (.null, ts)
  | _, .bool b :: ts => some (.bool b, ts)
  | _, .natural n :: ts => some (.natural n, ts)
  | _, .real x :: ts => some (.real x, ts)
  | _, .text s :: ts => some (.text s, ts)
  | _, .openList :: .closeList :: ts => some (.list [], ts)
  | _, .openObject :: .closeObject :: ts => some (.object [], ts)
  | fuel + 1, .openList :: ts => (items? fuel ts).map fun (items, ts) => (.list items, ts)
  | fuel + 1, .openObject :: ts =>
    (members? fuel ts).map fun (members, ts) => (.object members, ts)
  | _, _ => none

/-- The items of a list up to its closing bracket, of which there is at least one. -/
def items? : Nat → List Token → Option (List Json × List Token)
  | 0, _ => none
  | fuel + 1, ts =>
    match value? fuel ts with
    | some (item, .closeList :: ts) => some ([item], ts)
    | some (item, .comma :: ts) => (items? fuel ts).map fun (items, ts) => (item :: items, ts)
    | _ => none

/-- The members of an object up to its closing bracket, of which there is at least one. -/
def members? : Nat → List Token → Option (List (String × Json) × List Token)
  | fuel + 1, .text name :: .colon :: ts =>
    match value? fuel ts with
    | some (item, .closeObject :: ts) => some ([(name, item)], ts)
    | some (item, .comma :: ts) =>
      (members? fuel ts).map fun (members, ts) => ((name, item) :: members, ts)
    | _ => none
  | _, _ => none

end

/-- The value that some tokens are. A value nests no deeper than twice its tokens. -/
def ofTokens? (ts : List Token) : Option Json :=
  match value? (2 * ts.length) ts with
  | some (j, []) => some j
  | _ => none

/-- The value that a text stands for. -/
def parse? (text : String) : Option Json :=
  (Token.ofChars? text.toList).bind ofTokens?

end Metaheuristics.Json

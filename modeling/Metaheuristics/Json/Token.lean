import Metaheuristics.Decimal.Nearest

/-!
# JSON tokens

The text of a JSON value is cut into tokens: brackets, separators, words, numbers and strings, with
blanks between them left out. Anything else is refused.
-/

namespace Metaheuristics.Json

/-- A piece of JSON text. -/
inductive Token where
  | openList
  | closeList
  | openObject
  | closeObject
  | comma
  | colon
  | null
  | bool (value : Bool)
  | natural (value : Nat)
  | real (value : Float)
  | text (value : String)

namespace Token

/-- Blanks may stand between tokens. -/
def isBlank (c : Char) : Bool := c == ' ' || c == '\t' || c == '\n' || c == '\r'

/-- The number that decimal digits stand for. -/
def ofDigits (digits : List Char) : Nat :=
  digits.foldl (fun n c => 10 * n + (c.toNat - '0'.toNat)) 0

/-- The longest run of decimal digits at the start of a text, and what follows it. -/
def digitRun (cs : List Char) : List Char × List Char :=
  (cs.takeWhile Char.isDigit, cs.dropWhile Char.isDigit)

/-- A run of at least one digit. -/
def digits? (cs : List Char) : Option (List Char × List Char) :=
  if (digitRun cs).1.isEmpty then none else some (digitRun cs)

/-- The whole part of a number: zero, or digits that do not begin with one. -/
def whole? (cs : List Char) : Option (List Char × List Char) :=
  match cs with
  | '0' :: rest => some (['0'], rest)
  | _ => digits? cs

/-- The fraction of a number; it may be missing. -/
def fraction? : List Char → Option (Option (List Char) × List Char)
  | '.' :: cs => (digits? cs).map fun (digits, rest) => (some digits, rest)
  | cs => some (none, cs)

/-- Digits with an optional sign. -/
def signed? : List Char → Option (Int × List Char)
  | '-' :: cs => (digits? cs).map fun (digits, rest) => (-(ofDigits digits : Int), rest)
  | '+' :: cs => (digits? cs).map fun (digits, rest) => ((ofDigits digits : Int), rest)
  | cs => (digits? cs).map fun (digits, rest) => ((ofDigits digits : Int), rest)

/-- The exponent of a number; it may be missing. -/
def exponent? : List Char → Option (Option Int × List Char)
  | 'e' :: cs => (signed? cs).map fun (exponent, rest) => (some exponent, rest)
  | 'E' :: cs => (signed? cs).map fun (exponent, rest) => (some exponent, rest)
  | cs => some (none, cs)

/-- A number without a sign, and what follows it: its whole part, fraction and exponent. -/
def unsigned? (cs : List Char) :
    Option ((List Char × Option (List Char) × Option Int) × List Char) := do
  let (whole, cs) ← whole? cs
  let (fraction, cs) ← fraction? cs
  let (exponent, cs) ← exponent? cs
  return ((whole, fraction, exponent), cs)

/-- The double nearest to a number given by its whole part, fraction and exponent. -/
def nearest (whole : List Char) (fraction : Option (List Char)) (exponent : Option Int) : Float :=
  let fraction := fraction.getD []
  Decimal.Scientific.nearest
    ⟨ofDigits (whole ++ fraction), exponent.getD 0 - fraction.length⟩

/-- A number at the start of a text, and what follows it. -/
def number? : List Char → Option (Token × List Char)
  | '-' :: cs => do
    let ((whole, fraction, exponent), cs) ← unsigned? cs
    return (.real (-nearest whole fraction exponent), cs)
  | cs => do
    let ((whole, fraction, exponent), cs) ← unsigned? cs
    match fraction, exponent with
    | none, none => return (.natural (ofDigits whole), cs)
    | _, _ => return (.real (nearest whole fraction exponent), cs)

/-- The value of a hexadecimal digit. -/
def hexDigit? (c : Char) : Option Nat :=
  if c.isDigit then some (c.toNat - '0'.toNat)
  else if 'a' ≤ c ∧ c ≤ 'f' then some (c.toNat - 'a'.toNat + 10)
  else if 'A' ≤ c ∧ c ≤ 'F' then some (c.toNat - 'A'.toNat + 10)
  else none

/-- The value of hexadecimal digits. -/
def ofHex? (cs : List Char) : Option Nat :=
  cs.foldlM (fun n c => (16 * n + ·) <$> hexDigit? c) 0

/-- A unit of 16 bits, written with four hexadecimal digits. -/
def unit? : List Char → Option (Nat × List Char)
  | a :: b :: c :: d :: rest => (ofHex? [a, b, c, d]).map (·, rest)
  | _ => none

/-- A character written by its units of 16 bits, after the first escape sign. A character above
`0xffff` has two units; a half of such a pair does not stand alone. -/
def escapedUnit? (cs : List Char) : Option (Char × List Char) := do
  let (high, cs) ← unit? cs
  if high < 0xd800 ∨ 0xdfff < high then
    return (Char.ofNat high, cs)
  else if high < 0xdc00 then
    match cs with
    | '\\' :: 'u' :: cs =>
      let (low, cs) ← unit? cs
      if 0xdc00 ≤ low ∧ low ≤ 0xdfff then
        return (Char.ofNat (0x10000 + (high - 0xd800) * 0x400 + (low - 0xdc00)), cs)
      else
        none
    | _ => none
  else
    none

/-- An escaped character, after the backslash. -/
def escaped? : List Char → Option (Char × List Char)
  | '"' :: cs => some ('"', cs)
  | '\\' :: cs => some ('\\', cs)
  | '/' :: cs => some ('/', cs)
  | 'b' :: cs => some ('\x08', cs)
  | 'f' :: cs => some ('\x0c', cs)
  | 'n' :: cs => some ('\n', cs)
  | 'r' :: cs => some ('\r', cs)
  | 't' :: cs => some ('\t', cs)
  | 'u' :: cs => escapedUnit? cs
  | _ => none

/-- The characters of a string up to its closing quotation mark, put in front of `done` in reverse,
and what follows. Every step takes at least one character, so `fuel` need not exceed their
number. -/
def string? : Nat → List Char → List Char → Option (String × List Char)
  | _, done, '"' :: cs => some (String.ofList done.reverse, cs)
  | fuel + 1, done, '\\' :: cs =>
    match escaped? cs with
    | some (c, cs) => string? fuel (c :: done) cs
    | none => none
  | fuel + 1, done, c :: cs => if c < ' ' then none else string? fuel (c :: done) cs
  | _, _, _ => none

/-- A token at the start of a text that does not begin with a blank, and what follows it. -/
def next? : List Char → Option (Token × List Char)
  | '[' :: cs => some (.openList, cs)
  | ']' :: cs => some (.closeList, cs)
  | '\x7b' :: cs => some (.openObject, cs)
  | '\x7d' :: cs => some (.closeObject, cs)
  | ',' :: cs => some (.comma, cs)
  | ':' :: cs => some (.colon, cs)
  | '"' :: cs => (string? cs.length [] cs).map fun (s, cs) => (.text s, cs)
  | 'n' :: 'u' :: 'l' :: 'l' :: cs => some (.null, cs)
  | 't' :: 'r' :: 'u' :: 'e' :: cs => some (.bool true, cs)
  | 'f' :: 'a' :: 'l' :: 's' :: 'e' :: cs => some (.bool false, cs)
  | cs => number? cs

/-- The tokens of a text, put in front of `done` in reverse. Every step takes at least one
character, so `fuel` need not exceed their number. -/
def scan? : Nat → List Token → List Char → Option (List Token)
  | _, done, [] => some done.reverse
  | 0, _, _ :: _ => none
  | fuel + 1, done, c :: cs =>
    if isBlank c then
      scan? fuel done cs
    else
      match next? (c :: cs) with
      | some (token, cs) => scan? fuel (token :: done) cs
      | none => none

/-- The tokens of a text. -/
def ofChars? (cs : List Char) : Option (List Token) := scan? cs.length [] cs

end Token

end Metaheuristics.Json

/-!
# The shortest decimal of a double

Every positive double is the double nearest to a whole range of real numbers. Among the decimals
in that range, the shortest is the one on the coarsest decimal grid; where the grid has two points
in the range, the one nearer to the double is taken, and of two equally near ones the larger. All
comparisons are exact, over the natural numbers.
-/

namespace Metaheuristics.Decimal

/-- The decimal number `digits * 10 ^ exponent`. -/
structure Scientific where
  /-- The digits, read as one natural number. -/
  digits : Nat
  /-- The power of ten that scales them. -/
  exponent : Int

/-- The real numbers that round to one positive double. The double and the two ends are whole
multiples of one power of two. -/
structure Rounding where
  /-- The lower end. -/
  lower : Nat
  /-- The double itself. -/
  value : Nat
  /-- The upper end. -/
  upper : Nat
  /-- The power of two that scales all three. -/
  exponent : Int
  /-- Whether the ends round to the double as well. -/
  closed : Bool

namespace Rounding

/-- The numbers that round to `significand * 2 ^ exponent`. The ends lie half way to the doubles
beside it, of which the lower is half as far away if `narrow` holds. They round to the double if
its significand is even. -/
def around (significand : Nat) (exponent : Int) (narrow : Bool) : Rounding where
  lower := 4 * significand - if narrow then 1 else 2
  value := 4 * significand
  upper := 4 * significand + 2
  exponent := exponent - 2
  closed := significand % 2 == 0

/-- The numbers that round to the positive finite double with the given bits, its sign put aside.
A double of full precision has a hidden leading bit, and just above a power of two the double
below it is half as far away as the double above. -/
def ofBits (bits : UInt64) : Rounding :=
  let biased := ((bits >>> 52) &&& 0x7ff).toNat
  let fraction := (bits &&& 0xfffffffffffff).toNat
  if biased = 0 then
    around fraction (-1074) false
  else
    around (0x10000000000000 + fraction) (biased - 1075) (fraction == 0 && decide (1 < biased))

/-- The point of the grid of multiples of `10 ^ k` that stands for the double: the nearer of the
two points beside it that round to it, if any does. -/
def gridPoint? (r : Rounding) (k : Int) : Option Nat :=
  let unit := Nat.pow 10 k.toNat * Nat.pow 2 (-r.exponent).toNat
  let scale := Nat.pow 10 (-k).toNat * Nat.pow 2 r.exponent.toNat
  let lower := r.lower * scale
  let value := r.value * scale
  let upper := r.upper * scale
  let below := value / unit
  let above := below + 1
  let belowFits := lower < below * unit ∨ r.closed ∧ lower = below * unit
  let aboveFits := above * unit < upper ∨ r.closed ∧ above * unit = upper
  if belowFits then
    if aboveFits ∧ above * unit - value ≤ value - below * unit then some above else some below
  else if aboveFits then
    some above
  else
    none

/-- The first grid, from `10 ^ k` on towards finer ones, that has a point for the double. It looks
at no more than `count` grids. -/
def firstGrid? (r : Rounding) : Nat → Int → Option Scientific
  | 0, _ => none
  | count + 1, k =>
    match r.gridPoint? k with
    | some digits => some ⟨digits, k⟩
    | none => firstGrid? r count (k - 1)

/-- The coarsest grid on which a double can have a point: no double reaches `10 ^ 309`. -/
def coarsest : Int := 309

/-- How many grids there are down to `10 ^ (-1074)`, on which every double lies. -/
def gridCount : Nat := 309 + 1074 + 1

/-- The shortest decimal that rounds to the double. -/
def shortest (r : Rounding) : Scientific :=
  (r.firstGrid? gridCount coarsest).getD ⟨0, 0⟩

end Rounding

end Metaheuristics.Decimal

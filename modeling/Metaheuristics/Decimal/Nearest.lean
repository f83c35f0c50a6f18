import Metaheuristics.Binary64
import Metaheuristics.Decimal.Shortest

/-!
# The double nearest to a decimal

A decimal number is read as the double nearest to it, in a tie the one with an even significand.
Numbers too large for the format become infinite and numbers too small for it become zero. Both
are recognised without computing the power of ten.
-/

namespace Metaheuristics.Decimal.Scientific

/-- The double nearest to a decimal number. A nonzero number from `10 ^ 309` on is above every
double. A number with `b` binary digits is below `10 ^ b`, and whatever is at most `10 ^ (-324)` is
nearer to zero than to the smallest double. -/
def nearest (d : Scientific) : Float :=
  if d.digits = 0 then
    0.0
  else if 309 ≤ d.exponent then
    Binary64.infinity
  else if d.digits.log2 + 1 + d.exponent ≤ -324 then
    0.0
  else
    Float.ofScientific d.digits (decide (d.exponent < 0)) d.exponent.natAbs

end Metaheuristics.Decimal.Scientific

/-!
# Doubles

Constants of the binary64 format and the two extrema that disregard a NaN. Every other operation
of the library is the one of `Float`, rounded to nearest even and applied in the order written.
-/

namespace Metaheuristics.Binary64

/-- The smallest positive double with a full significand, two to the power -1022. -/
def minNormal : Float := Float.ofBits 0x0010000000000000

/-- The gap between 1 and the next double, two to the power -52. -/
def epsilon : Float := Float.ofBits 0x3cb0000000000000

/-- Positive infinity. -/
def infinity : Float := Float.ofBits 0x7ff0000000000000

/-- The larger of two doubles. A NaN gives way to the other operand, and of two equal operands
the first is kept. -/
def larger (a b : Float) : Float :=
  if a < b then b else if a.isNaN then b else a

/-- The smaller of two doubles. A NaN gives way to the other operand, and of two equal operands
the first is kept. -/
def smaller (a b : Float) : Float :=
  if b < a then b else if a.isNaN then b else a

end Metaheuristics.Binary64

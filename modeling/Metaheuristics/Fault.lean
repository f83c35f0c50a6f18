/-!
# Faults

What can go wrong while a computation runs. A fault means that a caller broke a promise or asked
for more than memory can hold: it is not an answer about the data. Data that is merely unsuitable
is refused beforehand, with an `InputError`.
-/

namespace Metaheuristics

/-- Why a computation stopped short of a result. -/
inductive Fault where
  /-- An index was to be drawn from no alternatives. -/
  | emptyChoice
  /-- A number was to be drawn between bounds that are not in order or too far apart. -/
  | unsampleableRange (lo hi : Float)
  /-- A cell was read or written past the end of its table. -/
  | outOfBounds (index size : Nat)
  /-- No block of memory holds `count` elements of `bytes` bytes each. -/
  | noRoom (count bytes : Nat)

end Metaheuristics

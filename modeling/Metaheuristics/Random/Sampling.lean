import Metaheuristics.Random.Source

/-!
# Drawing numbers

Numbers as functions of random words: a fraction of the unit interval, a number between two
bounds, an index below a count. Each says beside its rule how many words it takes.
-/

namespace Metaheuristics

/-- The fraction that a word of 64 bits stands for: its 53 high bits over two to the power 53. It
lies in the half-open unit interval. -/
def unitFraction (w : UInt64) : Float :=
  (w >>> 11).toFloat * Float.ofBits 0x3ca0000000000000

/-- Draws a fraction of the unit interval with one word of 64 bits. -/
def Draw.fraction {σ : Type} [WordSource σ] : Draw σ Float :=
  unitFraction <$> Draw.word64

/-- Bounds between which a number can be drawn: in order, finite, and with a finite distance. -/
def Sampleable (lo hi : Float) : Prop :=
  lo < hi ∧ lo.isFinite ∧ hi.isFinite ∧ (hi - lo).isFinite

instance (lo hi : Float) : Decidable (Sampleable lo hi) :=
  inferInstanceAs (Decidable (_ ∧ _))

/-- A range from which a number can be drawn. -/
structure Interval where
  /-- The lower bound. -/
  lo : Float
  /-- The upper bound. -/
  hi : Float
  /-- A number can be drawn between the bounds. -/
  sampleable : Sampleable lo hi

namespace Interval

/-- The range between two bounds, if a number can be drawn from it. -/
def between (lo hi : Float) : Except Fault Interval :=
  if h : Sampleable lo hi then .ok ⟨lo, hi, h⟩ else .error (.unsampleableRange lo hi)

/-- From minus one to one. -/
def symmetricUnit : Interval := ⟨-1.0, 1.0, by decide⟩

/-- The fraction that a word of 64 bits stands for when a range is sampled: its 52 high bits become
the significand of a double from 1 to 2, and 1 is taken away. -/
def fraction (w : UInt64) : Float :=
  Float.ofBits ((w >>> 12) ||| 0x3ff0000000000000) - 1.0

/-- The number of the range that a word of 64 bits stands for. -/
def point (r : Interval) (w : UInt64) : Float :=
  fraction w * (r.hi - r.lo) + r.lo

/-- Draws a number of the range with one word of 64 bits. -/
def sample {σ : Type} [WordSource σ] (r : Interval) : Draw σ Float :=
  r.point <$> Draw.word64

end Interval

/-- Draws an index below `n` from words below `size`. The product of word and `n` has a high part,
which is the index, and a low part; where the low part leaves room for a carry, a second word
decides whether the carry happens. -/
def Draw.scaled {σ : Type} (size n : Nat) (word : Draw σ Nat) : Draw σ Nat := do
  let product := (← word) * n
  let index := product / size
  let low := product % size
  if size - n < low then
    let carry := (← word) * n / size
    return if size ≤ low + carry then index + 1 else index
  else
    return index

/-- Draws an index below `n`, with words of 32 bits while `n` is itself such a word and of 64 bits
above. It takes one word or two. -/
def Draw.index {σ : Type} [WordSource σ] (n : Nat) : Draw σ Nat :=
  if n = 0 then
    throw .emptyChoice
  else if n < UInt32.size then
    Draw.scaled UInt32.size n (UInt32.toNat <$> Draw.word32)
  else
    Draw.scaled UInt64.size n (UInt64.toNat <$> Draw.word64)

end Metaheuristics

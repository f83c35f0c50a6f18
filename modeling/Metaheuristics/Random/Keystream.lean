import Metaheuristics.Random.ChaCha
import Metaheuristics.Random.Source

/-!
# Seeded sources

A seed of 64 bits is expanded to a key, and the words of the key's ChaCha blocks, block after
block, are the source. A reading of 64 bits takes two words, the low half first, wherever the
reading position stands.
-/

namespace Metaheuristics

/-- One step of the congruential generator that expands a seed. -/
def Seed.step (state : UInt64) : UInt64 :=
  state * 6364136223846793005 + 11634580027462260723

/-- The word that a state of the expansion yields: its high bits, folded and rotated to the right
by the topmost five. -/
def Seed.word (state : UInt64) : UInt32 :=
  let folded := (((state >>> 18) ^^^ state) >>> 27).toUInt32
  let turn := (state >>> 59).toUInt32
  (folded >>> turn) ||| (folded <<< ((32 - turn) % 32))

/-- The key of a seed: the words of the eight states that follow it. -/
def Seed.key (seed : UInt64) : ChaCha.Key :=
  Vector.ofFn fun i : Fin 8 => Seed.word (Nat.repeat Seed.step (i.val + 1) seed)

/-- A reading position in the keystream of a key. -/
structure Keystream where
  /-- The key that chooses the stream. -/
  key : ChaCha.Key
  /-- The number of the block being read. -/
  counter : UInt64
  /-- The words of that block. -/
  block : ChaCha.Block
  /-- How many of its words have been read. -/
  used : Nat
  /-- The block kept at hand is the one that key and counter name. -/
  block_eq : block = ChaCha.block key counter

namespace Keystream

/-- The position before word 0 of the block number `counter`. -/
def atBlock (key : ChaCha.Key) (counter : UInt64) : Keystream :=
  ⟨key, counter, ChaCha.block key counter, 0, rfl⟩

/-- The source that a seed stands for. -/
def ofSeed (seed : UInt64) : Keystream := atBlock (Seed.key seed) 0

/-- The source of an optional seed. Without a seed, a word of outside entropy takes its place. -/
def ofSeedOr (entropy : UInt64) (seed : Option UInt64) : Keystream :=
  ofSeed (seed.getD entropy)

/-- Reads one word. -/
def next (k : Keystream) : UInt32 × Keystream :=
  if h : k.used < 16 then
    (k.block[k.used], { k with used := k.used + 1 })
  else
    let fresh := atBlock k.key (k.counter + 1)
    (fresh.block[0], { fresh with used := 1 })

instance : WordSource Keystream where
  word32 := next
  word64 k :=
    let (low, k) := k.next
    let (high, k) := k.next
    ((high.toUInt64 <<< 32) ||| low.toUInt64, k)

end Keystream

end Metaheuristics

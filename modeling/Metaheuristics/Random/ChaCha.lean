/-!
# The ChaCha block function

Sixteen words are stirred by twelve rounds of additions, exclusive ors and rotations, and the
words from before the stirring are added at the end. A block depends on a key of eight words and
a counter of 64 bits; the stream number is always zero.
-/

namespace Metaheuristics.ChaCha

/-- The eight words that choose a keystream. -/
abbrev Key : Type := Vector UInt32 8

/-- The sixteen words of one block. -/
abbrev Block : Type := Vector UInt32 16

/-- Rotates a word to the left by `k` places, `0 < k < 32`. -/
def rotateLeft (x k : UInt32) : UInt32 := (x <<< k) ||| (x >>> (32 - k))

/-- Stirs four words of a block. -/
def quarterRound (a b c d : Fin 16) (s : Block) : Block :=
  let wa := s[a] + s[b]
  let wd := rotateLeft (s[d] ^^^ wa) 16
  let wc := s[c] + wd
  let wb := rotateLeft (s[b] ^^^ wc) 12
  let wa := wa + wb
  let wd := rotateLeft (wd ^^^ wa) 8
  let wc := wc + wd
  let wb := rotateLeft (wb ^^^ wc) 7
  (((s.set a wa).set b wb).set c wc).set d wd

/-- Two rounds: the four columns of the four by four block, then its four diagonals. -/
def doubleRound (s : Block) : Block :=
  let s := quarterRound 0 4 8 12 s
  let s := quarterRound 1 5 9 13 s
  let s := quarterRound 2 6 10 14 s
  let s := quarterRound 3 7 11 15 s
  let s := quarterRound 0 5 10 15 s
  let s := quarterRound 1 6 11 12 s
  let s := quarterRound 2 7 8 13 s
  quarterRound 3 4 9 14 s

/-- The double rounds of a block: six of them make twelve rounds. -/
def doubleRounds : Nat := 6

/-- The four words that every block starts from. -/
def constants : Vector UInt32 4 := #v[0x61707865, 0x3320646e, 0x79622d32, 0x6b206574]

/-- The counter, its low half first, and the stream number zero. -/
def position (counter : UInt64) : Vector UInt32 4 :=
  let low := counter.toUInt32
  let high := (counter >>> 32).toUInt32
  ⟨#[low, high, 0, 0], rfl⟩

/-- The block before stirring. -/
def initial (key : Key) (counter : UInt64) : Block :=
  constants ++ key ++ position counter

/-- The block number `counter` of the keystream of `key`. -/
def block (key : Key) (counter : UInt64) : Block :=
  let start := initial key counter
  Vector.zipWith (· + ·) (Nat.repeat doubleRound doubleRounds start) start

end Metaheuristics.ChaCha

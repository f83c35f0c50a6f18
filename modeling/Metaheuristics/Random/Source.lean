import Metaheuristics.Fault

/-!
# Sources of random words

A source is a state from which words of 32 and 64 bits are taken, one after another. Everything
drawn at random in this library is a function of such words, so it can be replayed and counted.
-/

namespace Metaheuristics

universe u v

/-- A state from which random words are taken. Each reading gives a word and the state after it. -/
class WordSource (σ : Type u) where
  /-- Takes a word of 32 bits. -/
  word32 : σ → UInt32 × σ
  /-- Takes a word of 64 bits. -/
  word64 : σ → UInt64 × σ

/-- A computation that draws from a source of type `σ` and may end in a fault. -/
abbrev Draw (σ : Type) (α : Type) : Type := StateT σ (Except Fault) α

namespace Draw

variable {σ : Type} [WordSource σ]

/-- Draws one word of 32 bits. -/
def word32 : Draw σ UInt32 := fun s => .ok (WordSource.word32 s)

/-- Draws one word of 64 bits. -/
def word64 : Draw σ UInt64 := fun s => .ok (WordSource.word64 s)

omit [WordSource σ] in
/-- A composed computation succeeds when both of its parts do, the second from the source that the
first leaves behind. -/
theorem bind_eq_ok_iff {α β : Type} {first : Draw σ α} {next : α → Draw σ β} {s t : σ} {b : β} :
    (first >>= next) s = .ok (b, t) ↔
      ∃ a u, first s = .ok (a, u) ∧ next a u = .ok (b, t) := by
  change (first s >>= fun p => next p.1 p.2) = .ok (b, t) ↔ _
  cases first s with
  | error fault => simp [bind, Except.bind]
  | ok p => exact ⟨fun h => ⟨p.1, p.2, rfl, h⟩, fun ⟨_, _, h, k⟩ => by cases h; exact k⟩

end Draw

/-- Two kinds of source are one kind: words come from whichever is present. -/
instance {σ : Type u} {τ : Type v} [WordSource σ] [WordSource τ] : WordSource (σ ⊕ τ) where
  word32
    | .inl s => let (w, s) := WordSource.word32 s; (w, .inl s)
    | .inr t => let (w, t) := WordSource.word32 t; (w, .inr t)
  word64
    | .inl s => let (w, s) := WordSource.word64 s; (w, .inl s)
    | .inr t => let (w, t) := WordSource.word64 t; (w, .inr t)

/-- A source that counts the words taken from it. -/
structure Metered (σ : Type u) where
  /-- The source that the words come from. -/
  source : σ
  /-- How many words of 32 bits have been taken. -/
  taken32 : Nat := 0
  /-- How many words of 64 bits have been taken. -/
  taken64 : Nat := 0

namespace Metered

/-- How many words of either width have been taken. -/
def taken {σ : Type u} (m : Metered σ) : Nat := m.taken32 + m.taken64

instance {σ : Type u} [WordSource σ] : WordSource (Metered σ) where
  word32 m :=
    let (w, s) := WordSource.word32 m.source
    (w, { m with source := s, taken32 := m.taken32 + 1 })
  word64 m :=
    let (w, s) := WordSource.word64 m.source
    (w, { m with source := s, taken64 := m.taken64 + 1 })

end Metered

/-- A scripted source: a fixed list of words, read in turn and over again from its start. Each
reading takes one whole word, of which a reading of 32 bits keeps the low half. -/
structure Script where
  /-- The words in the order of reading. -/
  words : Array UInt64
  /-- The index of the next word to read. -/
  next : Nat := 0

namespace Script

/-- The word at the reading position. A script without words reads as zeros. -/
def current (s : Script) : UInt64 := s.words[s.next]?.getD 0

/-- Moves to the following word, after the last one to the first. -/
def advance (s : Script) : Script := { s with next := (s.next + 1) % s.words.size }

instance : WordSource Script where
  word32 s := (s.current.toUInt32, s.advance)
  word64 s := (s.current, s.advance)

end Script

end Metaheuristics

import Metaheuristics.Fault

/-!
# Room in memory

What a computation keeps many of, it keeps in one block of memory, and the block is reserved for
all of them before the first is made. No block is larger than the largest signed word of 64 bits,
so a count can be too large whatever the computation would have gone on to do with it.
-/

namespace Metaheuristics.Room

/-- The size of the largest block, in bytes. -/
def largest : Nat := 0x7fffffffffffffff

/-- The size of a double, in bytes. -/
def doubleBytes : Nat := 8

/-- The size of a list within a block of lists, in bytes: three words, for where its elements are,
how many there are, and how many there is room for. -/
def listBytes : Nat := 24

/-- A block holds `count` elements of `bytes` bytes each. -/
def Holds (count bytes : Nat) : Prop := count * bytes ≤ largest

instance (count bytes : Nat) : Decidable (Holds count bytes) :=
  inferInstanceAs (Decidable (_ ≤ _))

/-- A block that holds a count of elements also holds any smaller count of them. -/
theorem Holds.of_le {count more bytes : Nat} (h : Holds more bytes) (le : count ≤ more) :
    Holds count bytes :=
  Nat.le_trans (Nat.mul_le_mul_right bytes le) h

/-- Reserves a block for `count` elements of `bytes` bytes each. -/
def reserve (count bytes : Nat) : Except Fault Unit :=
  if Holds count bytes then .ok () else .error (.noRoom count bytes)

theorem reserve_of_holds {count bytes : Nat} (h : Holds count bytes) :
    reserve count bytes = .ok () :=
  if_pos h

theorem reserve_of_not_holds {count bytes : Nat} (h : ¬Holds count bytes) :
    reserve count bytes = .error (.noRoom count bytes) :=
  if_neg h

theorem reserve_eq_ok_iff {count bytes : Nat} : reserve count bytes = .ok () ↔ Holds count bytes := by
  by_cases h : Holds count bytes
  · exact iff_of_true (reserve_of_holds h) h
  · rw [reserve_of_not_holds h]
    exact iff_of_false nofun h

end Metaheuristics.Room

import Metaheuristics.Fault

/-!
# Square tables

A table of doubles with as many rows as columns, stored row after row. A cell is found by its
place in that order, so a column past the end of a row names a cell of a later row, and only a
place past the last row is out of bounds.
-/

namespace Metaheuristics

/-- A table of `n` rows and `n` columns. -/
structure SquareTable (n : Nat) where
  /-- The cells, row after row. -/
  cells : Vector Float (n * n)

namespace SquareTable

variable {n : Nat}

/-- Row `i` and column `j` of a table of size `n` meet in one of its cells. -/
theorem place_lt {i j : Nat} (hi : i < n) (hj : j < n) : i * n + j < n * n :=
  calc i * n + j < i * n + n := Nat.add_lt_add_left hj _
    _ = (i + 1) * n := (Nat.succ_mul i n).symm
    _ ≤ n * n := Nat.mul_le_mul_right n hi

/-- The table whose cells all hold `x`. -/
def uniform (n : Nat) (x : Float) : SquareTable n :=
  ⟨Vector.replicate (n * n) x⟩

/-- Reads the cell at row `i` and column `j`. -/
def read (t : SquareTable n) (i j : Nat) : Except Fault Float :=
  match t.cells[i * n + j]? with
  | some x => .ok x
  | none => .error (.outOfBounds (i * n + j) (n * n))

theorem read_of_lt (t : SquareTable n) {i j : Nat} (h : i * n + j < n * n) :
    t.read i j = .ok t.cells[i * n + j] := by
  rw [read, Vector.getElem?_eq_getElem h]

theorem read_of_le (t : SquareTable n) {i j : Nat} (h : n * n ≤ i * n + j) :
    t.read i j = .error (.outOfBounds (i * n + j) (n * n)) := by
  rw [read, Vector.getElem?_eq_none h]

/-- All cells, row after row. -/
def toList (t : SquareTable n) : List Float := t.cells.toList

/-- Cuts a list into `count` pieces of `width` elements. -/
def pieces (width : Nat) : Nat → List Float → List (List Float)
  | 0, _ => []
  | count + 1, xs => xs.take width :: pieces width count (xs.drop width)

theorem length_pieces {width count : Nat} {xs : List Float} :
    (pieces width count xs).length = count := by
  induction count generalizing xs with
  | zero => rfl
  | succ count ih => simp [pieces, ih]

/-- Nothing is lost by cutting a list into pieces that cover it. -/
theorem flatten_pieces {width count : Nat} {xs : List Float} (h : xs.length = count * width) :
    (pieces width count xs).flatten = xs := by
  induction count generalizing xs with
  | zero => simpa [pieces] using h
  | succ count ih =>
    rw [pieces, List.flatten_cons, ih (by rw [List.length_drop, h, Nat.succ_mul]; omega),
      List.take_append_drop]

/-- Lists of one width, written after one another, are the pieces of what is written. -/
theorem pieces_flatten {width : Nat} {rows : List (List Float)}
    (square : ∀ row ∈ rows, row.length = width) :
    pieces width rows.length rows.flatten = rows := by
  induction rows with
  | nil => rfl
  | cons row rows ih =>
    have hrow : row.length = width := square row (by simp)
    rw [List.length_cons, pieces, List.flatten_cons, List.take_left' hrow, List.drop_left' hrow,
      ih fun r hr => square r (by simp [hr])]

/-- The rows of a table. -/
def toRows (t : SquareTable n) : List (List Float) := pieces n n t.toList

/-- A table has `n` rows. -/
theorem length_toRows (t : SquareTable n) : t.toRows.length = n := length_pieces

/-- The rows of a table hold all of its cells. -/
theorem flatten_toRows (t : SquareTable n) : t.toRows.flatten = t.toList :=
  flatten_pieces (by simp [toList])

/-- Whether two tables have the same size and equal doubles in corresponding cells. The zeros are
equal to each other, and a NaN to nothing. -/
def same {m : Nat} (t : SquareTable n) (u : SquareTable m) : Bool :=
  n == m && t.toList == u.toList

end SquareTable

end Metaheuristics

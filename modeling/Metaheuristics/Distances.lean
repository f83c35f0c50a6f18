import Metaheuristics.InputError
import Metaheuristics.Room
import Metaheuristics.SquareTable
import Metaheuristics.Tour

/-!
# Distances

The travel costs between the cities of an instance. They need not be symmetric, but there are at
least two cities, every cost is finite and not negative, and between two different cities it is
positive. Rows of numbers become distances only if they satisfy all of this; otherwise the first
defect is reported, in the order of reading. The costs are kept in one block of memory. It is
reserved before the rows are read, so more rows than any block has room for are not read at all.
-/

namespace Metaheuristics

/-- Whether `x` may stand as the cost from city `i` to city `j`. -/
def AdmissibleCost (i j : Nat) (x : Float) : Prop :=
  x.isFinite ∧ 0.0 ≤ x ∧ (i = j ∨ 0.0 < x)

instance (i j : Nat) (x : Float) : Decidable (AdmissibleCost i j x) :=
  inferInstanceAs (Decidable (_ ∧ _))

/-- The travel costs between `n` cities. -/
structure Distances (n : Nat) extends SquareTable n where
  /-- There are at least two cities. -/
  two_le : 2 ≤ n
  /-- Every cost may stand where it does. -/
  admissible : ∀ {i j : Nat} {x : Float}, i < n → j < n →
    cells[i * n + j]? = some x → AdmissibleCost i j x
  /-- There is room for all of them in one block. -/
  room : Room.Holds (n * n) Room.doubleBytes

namespace Distances

/-- The first entry of row `i`, from column `j` on, that may not stand there. -/
def entryDefect? (i : Nat) : Nat → List Float → Option InputError
  | _, [] => none
  | j, x :: xs =>
    if AdmissibleCost i j x then entryDefect? i (j + 1) xs else some (.invalidDistance i j x)

/-- The first defect of row `i` in a table of size `n`. The length of a row is looked at before
its entries. -/
def rowDefect? (n i : Nat) (row : List Float) : Option InputError :=
  if row.length = n then entryDefect? i 0 row else some (.notSquare i row.length n)

/-- The first defect of the rows from number `i` on. -/
def rowsDefect? (n : Nat) : Nat → List (List Float) → Option InputError
  | _, [] => none
  | i, row :: rows => (rowDefect? n i row).or (rowsDefect? n (i + 1) rows)

/-- The first defect of a table given by its rows. -/
def defect? : List (List Float) → Option InputError
  | [] => some .emptyMatrix
  | [_] => some (.tooFewCities 1)
  | rows => rowsDefect? rows.length 0 rows

/-- Rows that are the distances of an instance. -/
structure ValidRows (rows : List (List Float)) : Prop where
  two_le : 2 ≤ rows.length
  square : ∀ row ∈ rows, row.length = rows.length
  admissible : ∀ {i j : Nat} {row : List Float} {x : Float},
    rows[i]? = some row → row[j]? = some x → AdmissibleCost i j x

theorem entryDefect?_eq_none_iff {i j : Nat} {row : List Float} :
    entryDefect? i j row = none ↔ ∀ k x, row[k]? = some x → AdmissibleCost i (j + k) x := by
  induction row generalizing j with
  | nil => simp [entryDefect?]
  | cons y row ih =>
    by_cases h : AdmissibleCost i j y
    · rw [entryDefect?, if_pos h, ih]
      constructor
      · intro all k x hx
        cases k with
        | zero => simp at hx; exact hx ▸ h
        | succ k => rw [← Nat.add_assoc, Nat.add_right_comm]; exact all k x (by simpa using hx)
      · intro all k x hx
        have := all (k + 1) x (by simpa using hx)
        rwa [← Nat.add_assoc, Nat.add_right_comm] at this
    · rw [entryDefect?, if_neg h]
      simp only [reduceCtorEq, false_iff]
      exact fun all => h (all 0 y rfl)

theorem rowDefect?_eq_none_iff {n i : Nat} {row : List Float} :
    rowDefect? n i row = none ↔
      row.length = n ∧ ∀ j x, row[j]? = some x → AdmissibleCost i j x := by
  by_cases h : row.length = n <;> simp [rowDefect?, h, entryDefect?_eq_none_iff]

theorem rowsDefect?_eq_none_iff {n i : Nat} {rows : List (List Float)} :
    rowsDefect? n i rows = none ↔ ∀ k row, rows[k]? = some row → rowDefect? n (i + k) row = none := by
  induction rows generalizing i with
  | nil => simp [rowsDefect?]
  | cons row rows ih =>
    rw [rowsDefect?, Option.or_eq_none_iff, ih]
    constructor
    · rintro ⟨first, rest⟩ k r hr
      cases k with
      | zero => simp at hr; exact hr ▸ first
      | succ k => rw [← Nat.add_assoc, Nat.add_right_comm]; exact rest k r (by simpa using hr)
    · intro all
      refine ⟨all 0 row rfl, fun k r hr => ?_⟩
      have := all (k + 1) r (by simpa using hr)
      rwa [← Nat.add_assoc, Nat.add_right_comm] at this

/-- Rows without a defect are the distances of an instance, and they alone. -/
theorem defect?_eq_none_iff {rows : List (List Float)} : defect? rows = none ↔ ValidRows rows := by
  match rows with
  | [] => exact ⟨fun h => (nomatch h), fun h => absurd h.two_le (by simp)⟩
  | [_] => exact ⟨fun h => (nomatch h), fun h => absurd h.two_le (by simp)⟩
  | a :: b :: rest =>
    change rowsDefect? (a :: b :: rest).length 0 (a :: b :: rest) = none ↔ _
    simp only [rowsDefect?_eq_none_iff, rowDefect?_eq_none_iff, Nat.zero_add]
    constructor
    · intro h
      refine ⟨by simp, fun row hrow => ?_, fun hi hj => (h _ _ hi).2 _ _ hj⟩
      obtain ⟨k, hk⟩ := List.getElem?_of_mem hrow
      exact (h k row hk).1
    · exact fun h k row hk =>
        ⟨h.square row (List.mem_of_getElem? hk), fun j x hx => h.admissible hk hx⟩

/-- Rows of one width, written after one another, keep each entry where row and column say. -/
theorem getElem?_flatten_of_width {width : Nat} {rows : List (List Float)}
    (square : ∀ row ∈ rows, row.length = width) (i : Nat) {j : Nat} (hj : j < width) :
    rows.flatten[i * width + j]? = rows[i]?.bind (·[j]?) := by
  induction rows generalizing i with
  | nil => simp
  | cons row rows ih =>
    have hrow : row.length = width := square row (by simp)
    cases i with
    | zero =>
      rw [List.flatten_cons, List.getElem?_append_left (by omega)]
      simp
    | succ i =>
      rw [List.flatten_cons, List.getElem?_append_right (by rw [hrow, Nat.succ_mul]; omega)]
      have : (i + 1) * width + j - row.length = i * width + j := by
        rw [hrow, Nat.succ_mul]; omega
      rw [this, ih (fun r hr => square r (by simp [hr])) i]
      simp

theorem length_flatten_of_width {width : Nat} {rows : List (List Float)}
    (square : ∀ row ∈ rows, row.length = width) : rows.flatten.length = rows.length * width := by
  induction rows with
  | nil => simp
  | cons row rows ih =>
    rw [List.flatten_cons, List.length_append, ih fun r hr => square r (by simp [hr]),
      square row (by simp), List.length_cons, Nat.succ_mul, Nat.add_comm]

/-- There is room for the costs between as many cities as there are rows. -/
abbrev RowsFit (rows : List (List Float)) : Prop :=
  Room.Holds (rows.length * rows.length) Room.doubleBytes

/-- The distances that valid rows hold. -/
def ofValidRows (rows : List (List Float)) (valid : ValidRows rows)
    (room : RowsFit rows := by decide) : Distances rows.length where
  cells := ⟨rows.flatten.toArray, by simpa using length_flatten_of_width valid.square⟩
  two_le := valid.two_le
  admissible := by
    intro i j x _ hj hx
    have hx : rows.flatten[i * rows.length + j]? = some x := by simpa using hx
    rw [getElem?_flatten_of_width valid.square i hj, Option.bind_eq_some_iff] at hx
    obtain ⟨row, hrow, hx⟩ := hx
    exact valid.admissible hrow hx
  room

/-- Distances keep the rows that they were made from. -/
theorem toRows_ofValidRows {rows : List (List Float)} (valid : ValidRows rows)
    (room : RowsFit rows) : (ofValidRows rows valid room).toRows = rows := by
  simpa [SquareTable.toRows, SquareTable.toList, ofValidRows] using
    SquareTable.pieces_flatten valid.square

/-- The distances given by rows that there is room for, or the first defect of the rows. -/
def checkRows (rows : List (List Float)) (room : RowsFit rows) :
    Except InputError ((n : Nat) × Distances n) :=
  match h : defect? rows with
  | none => .ok ⟨rows.length, ofValidRows rows (defect?_eq_none_iff.1 h) room⟩
  | some e => .error e

/-- The distances given by rows, or the first defect of the rows, if there is room for the costs
between as many cities. Fewer than two rows are refused without need of any, but they never lack
it. -/
def ofRows (rows : List (List Float)) :
    Except Fault (Except InputError ((n : Nat) × Distances n)) :=
  match reserved : Room.reserve (rows.length * rows.length) Room.doubleBytes with
  | .ok () => .ok (checkRows rows (Room.reserve_eq_ok_iff.1 reserved))
  | .error fault => .error fault

theorem ofRows_of_fit {rows : List (List Float)} (room : RowsFit rows) :
    ofRows rows = .ok (checkRows rows room) := by
  unfold ofRows
  split
  · rfl
  · rename_i refused
    rw [Room.reserve_of_holds room] at refused
    cases refused

theorem ofRows_of_not_fit {rows : List (List Float)} (full : ¬RowsFit rows) :
    ofRows rows = .error (.noRoom (rows.length * rows.length) Room.doubleBytes) := by
  unfold ofRows
  split
  · rename_i reserved
    exact absurd (Room.reserve_eq_ok_iff.1 reserved) full
  · rename_i refused
    rw [Room.reserve_of_not_holds full] at refused
    cases refused
    rfl

/-- The length of a closed tour: the costs of its edges, added from the left. The empty tour has
length zero; every other sum starts from the zero that is neutral for addition, which is the
negative one. -/
def tourLength {n : Nat} (d : Distances n) (tour : Tour) : Except Fault Float :=
  if tour.isEmpty then
    .ok 0.0
  else
    tour.edges.foldlM (fun sum edge => (sum + ·) <$> d.read edge.1 edge.2) (-0.0)

end Distances

end Metaheuristics

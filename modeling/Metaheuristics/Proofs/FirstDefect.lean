import Metaheuristics.Distances

/-!
# The first defect

Rows of numbers are refused for the defect that is met first when they are read row after row, the length
of a row before its entries and those from the left (`FirstDefect`). It hides everything that comes later,
and without one the rows are accepted and kept as they are. That is so of all rows for which there is room
(`rowsFit_iff`); of others not even the first is read (`ofRows_reports_first_defect`).
-/

namespace Metaheuristics

namespace SquareTable

variable {n : Nat}

/-! ## Rows and cells -/

theorem length_of_mem_pieces {width count : Nat} {xs : List Float} (h : xs.length = count * width) :
    ∀ piece ∈ pieces width count xs, piece.length = width := by
  induction count generalizing xs with
  | zero => exact nofun
  | succ count ih =>
    have enough : width ≤ xs.length := by
      rw [h, Nat.succ_mul]
      exact Nat.le_add_left _ _
    refine List.forall_mem_cons.mpr ⟨List.length_take_of_le enough, ih ?_⟩
    rw [List.length_drop, h, Nat.succ_mul, Nat.add_sub_cancel]

theorem length_toList (t : SquareTable n) : t.toList.length = n * n := t.cells.length_toList

theorem length_of_mem_toRows (t : SquareTable n) : ∀ row ∈ t.toRows, row.length = n :=
  length_of_mem_pieces t.length_toList

/-- An entry of a row is the cell in its place. -/
theorem getElem?_toRows (t : SquareTable n) (i : Nat) {j : Nat} (hj : j < n) :
    t.toRows[i]?.bind (·[j]?) = t.cells[i * n + j]? := by
  rw [← Distances.getElem?_flatten_of_width t.length_of_mem_toRows i hj, t.flatten_toRows, toList,
    Vector.getElem?_toList]

end SquareTable

namespace Distances

variable {n i j : Nat} {row : List Float} {rows : List (List Float)} {e : InputError}

/-- Row `i` of a table of size `n` is as long as it should be, and each entry may stand where it does. -/
def Sound (n i : Nat) (row : List Float) : Prop :=
  row.length = n ∧ ∀ j x, row[j]? = some x → AdmissibleCost i j x

/-- The defect that is met first when the rows are read in order. -/
inductive FirstDefect (rows : List (List Float)) : InputError → Prop
  /-- There is nothing to read. -/
  | empty : rows = [] → FirstDefect rows .emptyMatrix
  /-- There is one row, whatever it holds. -/
  | alone : rows.length = 1 → FirstDefect rows (.tooFewCities 1)
  /-- After sound rows comes one of the wrong length, whatever it holds. -/
  | width {i : Nat} {row : List Float} : 2 ≤ rows.length → rows[i]? = some row →
      (∀ k < i, ∀ earlier, rows[k]? = some earlier → Sound rows.length k earlier) →
      row.length ≠ rows.length → FirstDefect rows (.notSquare i row.length rows.length)
  /-- After sound rows comes one of the right length with an entry that may not stand where it does. The
  entries to its left may. -/
  | entry {i j : Nat} {row : List Float} {x : Float} : 2 ≤ rows.length → rows[i]? = some row →
      (∀ k < i, ∀ earlier, rows[k]? = some earlier → Sound rows.length k earlier) →
      row.length = rows.length → row[j]? = some x →
      (∀ k < j, ∀ y, row[k]? = some y → AdmissibleCost i k y) →
      ¬AdmissibleCost i j x → FirstDefect rows (.invalidDistance i j x)

/-! ## Reading in order -/

section Scan

variable {α β : Type} {f : Nat → α → Option β} {first : α} {xs : List α}

/-- There is nothing in a list before a place past its first element if there is nothing in that and
nothing in the others before. -/
theorem before_cons_iff {k : Nat} :
    (∀ m < k + 1, ∀ y, (first :: xs)[m]? = some y → f (i + m) y = none) ↔
      f i first = none ∧ ∀ m < k, ∀ y, xs[m]? = some y → f (i + 1 + m) y = none := by
  constructor
  · intro before
    refine ⟨before 0 (Nat.succ_pos k) first rfl, fun m earlier y here => ?_⟩
    rw [Nat.succ_add_eq_add_succ]
    exact before (m + 1) (Nat.succ_lt_succ earlier) y here
  · rintro ⟨missing, before⟩ m earlier y here
    cases m with
    | zero =>
      cases here
      exact missing
    | succ m =>
      rw [← Nat.succ_add_eq_add_succ]
      exact before m (Nat.lt_of_succ_lt_succ earlier) y here

/-- What is looked for element after element is found at the first one that has it. -/
theorem scan_eq_some_iff {scan : Nat → List α → Option β} (nil : ∀ i, scan i [] = none)
    (cons : ∀ i x xs, scan i (x :: xs) = (f i x).or (scan (i + 1) xs)) {b : β} :
    scan i xs = some b ↔ ∃ k x, xs[k]? = some x ∧
      (∀ m < k, ∀ y, xs[m]? = some y → f (i + m) y = none) ∧ f (i + k) x = some b := by
  induction xs generalizing i with
  | nil => simp [nil]
  | cons first xs ih =>
    rw [cons, Option.or_eq_some_iff, ih]
    constructor
    · rintro (found | ⟨missing, k, x, here, before, found⟩)
      · exact ⟨0, first, rfl, nofun, found⟩
      · rw [Nat.succ_add_eq_add_succ] at found
        exact ⟨k + 1, x, here, before_cons_iff.mpr ⟨missing, before⟩, found⟩
    · rintro ⟨k, x, here, before, found⟩
      cases k with
      | zero =>
        cases here
        exact .inl found
      | succ k =>
        obtain ⟨missing, before⟩ := before_cons_iff.mp before
        rw [← Nat.succ_add_eq_add_succ] at found
        exact .inr ⟨missing, k, x, here, before, found⟩

end Scan

theorem entryDefect?_eq_some_iff : entryDefect? i 0 row = some e ↔
    ∃ j x, row[j]? = some x ∧ (∀ k < j, ∀ y, row[k]? = some y → AdmissibleCost i k y) ∧
      ¬AdmissibleCost i j x ∧ e = .invalidDistance i j x := by
  have cons : ∀ j x xs, entryDefect? i j (x :: xs) =
      (if AdmissibleCost i j x then none else some (.invalidDistance i j x)).or
        (entryDefect? i (j + 1) xs) := by
    intro j x xs
    rw [entryDefect?]
    split
    · rfl
    · rfl
  rw [scan_eq_some_iff (fun _ => rfl) cons]
  simp only [Nat.zero_add, ite_eq_left_iff, reduceCtorEq, imp_false, Classical.not_not,
    Option.ite_none_left_eq_some, Option.some.injEq, eq_comm (a := e)]

theorem rowDefect?_eq_some_iff : rowDefect? n i row = some e ↔
    (row.length ≠ n ∧ e = .notSquare i row.length n) ∨
      row.length = n ∧ ∃ j x, row[j]? = some x ∧
        (∀ k < j, ∀ y, row[k]? = some y → AdmissibleCost i k y) ∧
        ¬AdmissibleCost i j x ∧ e = .invalidDistance i j x := by
  rw [rowDefect?]
  split
  · rename_i square
    simp only [entryDefect?_eq_some_iff, square, ne_eq, not_true_eq_false, false_and, true_and,
      false_or]
  · rename_i ragged
    simp only [ragged, ne_eq, not_false_eq_true, true_and, false_and, or_false, Option.some.injEq,
      eq_comm (a := e)]

theorem rowsDefect?_eq_some_iff : rowsDefect? n 0 rows = some e ↔
    ∃ i row, rows[i]? = some row ∧
      (∀ k < i, ∀ earlier, rows[k]? = some earlier → Sound n k earlier) ∧
      rowDefect? n i row = some e := by
  rw [scan_eq_some_iff (fun _ => rfl) (fun _ _ _ => rfl)]
  simp only [Nat.zero_add, rowDefect?_eq_none_iff, Sound]

theorem defect?_of_two_le (two_le : 2 ≤ rows.length) :
    defect? rows = rowsDefect? rows.length 0 rows := by
  match rows, two_le with
  | _ :: _ :: _, _ => rfl

theorem defect?_eq_some_iff : defect? rows = some e ↔ FirstDefect rows e := by
  constructor
  · intro found
    rcases Nat.lt_or_ge rows.length 2 with few | two_le
    · match rows, few with
      | [], _ =>
        cases found
        exact .empty rfl
      | [_], _ =>
        cases found
        exact .alone rfl
    · rw [defect?_of_two_le two_le] at found
      obtain ⟨i, row, here, before, wrong⟩ := rowsDefect?_eq_some_iff.mp found
      rcases rowDefect?_eq_some_iff.mp wrong with ⟨ragged, rfl⟩ |
        ⟨square, j, x, there, left, bad, rfl⟩
      · exact .width two_le here before ragged
      · exact .entry two_le here before square there left bad
  · intro first
    cases first with
    | empty nothing =>
      subst nothing
      rfl
    | alone one =>
      obtain ⟨row, rfl⟩ := List.length_eq_one_iff.mp one
      rfl
    | width two_le here before ragged =>
      rw [defect?_of_two_le two_le, rowsDefect?_eq_some_iff]
      exact ⟨_, _, here, before, rowDefect?_eq_some_iff.mpr (.inl ⟨ragged, rfl⟩)⟩
    | entry two_le here before square there left bad =>
      rw [defect?_of_two_le two_le, rowsDefect?_eq_some_iff]
      exact ⟨_, _, here, before,
        rowDefect?_eq_some_iff.mpr (.inr ⟨square, _, _, there, left, bad, rfl⟩)⟩

/-! ## What becomes of rows -/

theorem checkRows_of_valid (valid : ValidRows rows) (room : RowsFit rows) :
    checkRows rows room = .ok ⟨rows.length, ofValidRows rows valid room⟩ := by
  unfold checkRows
  split
  · rfl
  · rename_i found
    rw [defect?_eq_none_iff.mpr valid] at found
    cases found

theorem checkRows_eq_ok_iff {room : RowsFit rows} {m : (n : Nat) × Distances n} :
    checkRows rows room = .ok m ↔
      ∃ valid : ValidRows rows, m = ⟨rows.length, ofValidRows rows valid room⟩ := by
  constructor
  · intro accepted
    unfold checkRows at accepted
    split at accepted
    · rename_i sound
      exact ⟨defect?_eq_none_iff.mp sound, (Except.ok.inj accepted).symm⟩
    · cases accepted
  · rintro ⟨valid, rfl⟩
    exact checkRows_of_valid valid room

theorem checkRows_eq_error_iff {room : RowsFit rows} :
    checkRows rows room = .error e ↔ FirstDefect rows e := by
  rw [← defect?_eq_some_iff]
  unfold checkRows
  split
  · rename_i sound
    constructor
    · exact nofun
    · intro found
      exact absurd (sound.symm.trans found) nofun
  · rename_i other found
    constructor
    · rintro ⟨⟩
      exact found
    · intro same
      cases Option.some.inj (found.symm.trans same)
      rfl

/-- There is room for the costs between fewer than 2 to the 30 cities, and between no more. -/
theorem rowsFit_iff : RowsFit rows ↔ rows.length < 0x40000000 := by
  show rows.length * rows.length * 8 ≤ 0x7fffffffffffffff ↔ _
  constructor
  · refine fun room => Nat.not_le.mp fun many => ?_
    have := Nat.mul_le_mul many many
    omega
  · intro few
    have few : rows.length ≤ 0x3fffffff := Nat.le_of_lt_succ few
    have := Nat.mul_le_mul few few
    omega

theorem ofRows_eq_ok_iff {answer : Except InputError ((n : Nat) × Distances n)} :
    ofRows rows = .ok answer ↔ ∃ room : RowsFit rows, answer = checkRows rows room := by
  by_cases room : RowsFit rows
  · rw [ofRows_of_fit room, Except.ok.injEq, eq_comm]
    exact ⟨fun same => ⟨room, same⟩, fun ⟨_, same⟩ => same⟩
  · rw [ofRows_of_not_fit room]
    exact iff_of_false nofun fun ⟨fits, _⟩ => room fits

/-- Distances come from valid rows that there is room for. -/
theorem ofRows_eq_distances_iff {m : (n : Nat) × Distances n} :
    ofRows rows = .ok (.ok m) ↔
      ∃ (valid : ValidRows rows) (room : RowsFit rows),
        m = ⟨rows.length, ofValidRows rows valid room⟩ := by
  rw [ofRows_eq_ok_iff]
  constructor
  · rintro ⟨room, checked⟩
    obtain ⟨valid, same⟩ := checkRows_eq_ok_iff.mp checked.symm
    exact ⟨valid, room, same⟩
  · rintro ⟨valid, room, rfl⟩
    exact ⟨room, (checkRows_of_valid valid room).symm⟩

theorem validRows_iff : ValidRows rows ↔ 2 ≤ rows.length ∧ ∀ i row, rows[i]? = some row →
    row.length = rows.length ∧ ∀ j x, row[j]? = some x → AdmissibleCost i j x := by
  constructor
  · intro valid
    exact ⟨valid.two_le, fun i row here =>
      ⟨valid.square row (List.mem_of_getElem? here), fun j x there => valid.admissible here there⟩⟩
  · rintro ⟨two_le, sound⟩
    refine ⟨two_le, fun row member => ?_, fun here there => (sound _ _ here).2 _ _ there⟩
    obtain ⟨i, here⟩ := List.getElem?_of_mem member
    exact (sound i row here).1

/-- Distances are read as they stand in the rows. -/
theorem read_ofValidRows (valid : ValidRows rows) (room : RowsFit rows) (hi : i < rows.length)
    (hj : j < rows.length) : ∃ row x, rows[i]? = some row ∧ row[j]? = some x ∧
      (ofValidRows rows valid room).read i j = .ok x := by
  have here : rows[i]? = some rows[i] := List.getElem?_eq_getElem hi
  have width : rows[i].length = rows.length := valid.square _ (List.getElem_mem hi)
  obtain ⟨x, there⟩ : ∃ x, rows[i][j]? = some x := ⟨_, List.getElem?_eq_getElem (width ▸ hj)⟩
  refine ⟨rows[i], x, here, there, ?_⟩
  rw [SquareTable.read, ← SquareTable.getElem?_toRows _ i hj, toRows_ofValidRows, here,
    Option.bind_some, there]

/-- A zero, also a negative one, may stand only on the diagonal. -/
theorem admissibleCost_negZero_iff : AdmissibleCost i j (-0.0) ↔ i = j := by
  have zero : (-0.0 : Float).isFinite ∧ (0.0 : Float) ≤ -0.0 ∧ ¬(0.0 : Float) < -0.0 := by decide
  constructor
  · rintro ⟨-, -, same | apart⟩
    · exact same
    · exact absurd apart zero.2.2
  · rintro rfl
    exact ⟨zero.1, zero.2.1, .inl rfl⟩

/-- From 2 to the 30 rows on there is no room for the costs, and the rows are not looked at. Fewer rows are
accepted exactly if there are at least two, all as long as there are rows, and every entry is finite, not
negative, and positive off the diagonal; then each entry is kept where it stands. A zero, also a negative
one, may stand on the diagonal. All other rows are refused for the first defect. -/
theorem ofRows_reports_first_defect (rows : List (List Float)) :
    (0x40000000 ≤ rows.length ∧
        ofRows rows = .error (.noRoom (rows.length * rows.length) Room.doubleBytes) ∨
      rows.length < 0x40000000 ∧ ∃ answer, ofRows rows = .ok answer ∧
        ((∃ m, answer = .ok m) ↔ 2 ≤ rows.length ∧
          ∀ (i : Nat) (row : List Float), rows[i]? = some row → row.length = rows.length ∧
            ∀ (j : Nat) (x : Float), row[j]? = some x → x.isFinite ∧ 0.0 ≤ x ∧ (i = j ∨ 0.0 < x)) ∧
        (∀ n d, answer = .ok ⟨n, d⟩ → n = rows.length ∧ ∀ i j, i < n → j < n →
          ∃ (row : List Float) (x : Float), rows[i]? = some row ∧ row[j]? = some x ∧
            d.read i j = .ok x) ∧
        ∀ e, answer = .error e ↔ FirstDefect rows e) ∧
    ∀ i j, AdmissibleCost i j (-0.0) ↔ i = j := by
  refine ⟨?_, fun i j => admissibleCost_negZero_iff⟩
  by_cases room : RowsFit rows
  · refine .inr ⟨rowsFit_iff.mp room, checkRows rows room, ofRows_of_fit room, ?_,
      fun n d accepted => ?_, fun e => checkRows_eq_error_iff⟩
    · constructor
      · rintro ⟨m, accepted⟩
        obtain ⟨valid, -⟩ := checkRows_eq_ok_iff.mp accepted
        exact validRows_iff.mp valid
      · intro sound
        exact ⟨_, checkRows_of_valid (validRows_iff.mpr sound) room⟩
    · obtain ⟨valid, same⟩ := checkRows_eq_ok_iff.mp accepted
      cases same
      exact ⟨rfl, fun i j hi hj => read_ofValidRows valid room hi hj⟩
  · exact .inl ⟨Nat.not_lt.mp fun few => room (rowsFit_iff.mpr few), ofRows_of_not_fit room⟩

/-- A zero between two cities hides the last row, which is too short and has a negative entry. -/
example : ofRows [[-0.0, 1.0, 2.0], [1.0, 0.0, 0.0], [-1.0]] =
    .ok (.error (.invalidDistance 1 2 0.0)) := by
  rfl

end Distances

end Metaheuristics

import Mathlib.Data.List.Forall2
import Metaheuristics.Proofs.FirstDefect
import Metaheuristics.Proofs.Record.ReadBack
import Metaheuristics.Record.Tables

/-!
# Distances as rows

Distances can be taken for their rows: different distances have different rows (`eq_of_toRows`), the rows
of distances are accepted (`validRows_toRows`), and accepted rows are the rows of the distances that they
become. A JSON value is read through the same check (`ofJson_of_lists`), so nothing is read as distances
that is not what distances are to be (`distances_read_back`).
-/

namespace Metaheuristics

namespace Distances

open Record

variable {n : Nat} {j : Json} {rows : List (List Float)} {m : (n : Nat) × Distances n}

/-! ## Rows -/

/-- Distances with the same rows are the same. -/
theorem eq_of_toRows {m' : (n : Nat) × Distances n} (same : m.2.toRows = m'.2.toRows) : m = m' := by
  obtain ⟨n, d⟩ := m
  obtain ⟨n', d'⟩ := m'
  have size : n = n' := by rw [← d.length_toRows, ← d'.length_toRows, same]
  subst size
  have cells : d.toList = d'.toList := by rw [← d.flatten_toRows, ← d'.flatten_toRows, same]
  obtain ⟨⟨cells⟩, two_le, admissible, room⟩ := d
  obtain ⟨⟨cells'⟩, two_le', admissible', room'⟩ := d'
  cases Vector.toList_inj.mp cells
  rfl

theorem validRows_toRows (d : Distances n) : ValidRows d.toRows := by
  refine validRows_iff.mpr ⟨by rw [d.length_toRows]; exact d.two_le, fun i row here => ?_⟩
  have width := d.length_of_mem_toRows row (List.mem_of_getElem? here)
  refine ⟨by rw [width, d.length_toRows], fun j x there => ?_⟩
  obtain ⟨hi, -⟩ := List.getElem?_eq_some_iff.mp here
  obtain ⟨hj, -⟩ := List.getElem?_eq_some_iff.mp there
  rw [d.length_toRows] at hi
  rw [width] at hj
  refine d.admissible hi hj ?_
  rw [← d.getElem?_toRows i hj, here]
  exact there

theorem rowsFit_toRows (d : Distances n) : RowsFit d.toRows := by
  rw [RowsFit, d.length_toRows]
  exact d.room

/-- The rows of distances are accepted and become the same distances. -/
theorem ofRows_toRows (d : Distances n) : ofRows d.toRows = .ok (.ok ⟨n, d⟩) := by
  refine ofRows_eq_distances_iff.mpr ⟨d.validRows_toRows, d.rowsFit_toRows, ?_⟩
  exact eq_of_toRows (toRows_ofValidRows d.validRows_toRows d.rowsFit_toRows).symm

/-- Every cost may stand somewhere. -/
theorem exists_admissible (d : Distances n) :
    ∀ row ∈ d.toRows, ∀ x ∈ row, ∃ i j, AdmissibleCost i j x := by
  intro row member x entry
  obtain ⟨i, here⟩ := List.getElem?_of_mem member
  obtain ⟨j, there⟩ := List.getElem?_of_mem entry
  exact ⟨i, j, d.validRows_toRows.admissible here there⟩

/-- Accepted rows are the rows of what they become. -/
theorem toRows_of_ofRows (accepted : ofRows rows = .ok (.ok m)) : m.2.toRows = rows := by
  obtain ⟨valid, room, rfl⟩ := ofRows_eq_distances_iff.mp accepted
  exact toRows_ofValidRows valid room

/-! ## JSON -/

/-- A JSON value is a number that stands for a double: it is that double, or a natural number that is
rounded to it. -/
inductive Stands : Json → Float → Prop
  | real (x : Float) : Stands (.real x) x
  | natural (n : Nat) : Stands (.natural n) (Float.ofNat n)

/-- A JSON value is a list whose items are in a relation to the elements of `xs`. -/
inductive Lists {α : Type} (item : Json → α → Prop) : Json → List α → Prop
  | list {items : List Json} {xs : List α} : List.Forall₂ item items xs → Lists item (.list items) xs

theorem double?_eq_some_iff {x : Float} : j.double? = some x ↔ Stands j x := by
  constructor
  · intro read
    unfold Json.double? at read
    split at read
    · cases read
      exact .natural _
    · cases read
      exact .real _
    · cases read
  · rintro ⟨⟩
    · rfl
    · rfl

theorem list?_eq_some_iff {α : Type} {decode : Json → Option α} {xs : List α} :
    j.list? decode = some xs ↔ Lists (fun item x => decode item = some x) j xs := by
  have each (items : List Json) : items.mapM decode = some xs ↔
      List.Forall₂ (fun item x => decode item = some x) items xs := by
    induction items generalizing xs with
    | nil => simp [eq_comm]
    | cons item items ih =>
      simp only [List.mapM_cons, Option.bind_eq_bind, Option.bind_eq_some_iff, Option.pure_def,
        Option.some.injEq, ih, List.forall₂_cons_left_iff, exists_and_left, eq_comm (a := xs)]
  constructor
  · intro read
    unfold Json.list? at read
    split at read
    · exact .list ((each _).mp read)
    · cases read
  · rintro ⟨items⟩
    exact (each _).mpr items

theorem rows?_eq_some_iff : rows? j = some rows ↔ Lists (Lists Stands) j rows := by
  simp only [rows?, list?_eq_some_iff, double?_eq_some_iff]

/-- Rows that are listed are checked like any others. -/
theorem ofJson_of_lists (listed : Lists (Lists Stands) j rows) :
    ofJson j = Except.mapError .refused <$> ofRows rows := by
  rw [ofJson, rows?_eq_some_iff.mpr listed]

/-- Whatever is read as distances lists rows that are accepted. -/
theorem exists_rows_of_ofJson (read : ofJson j = .ok (.ok m)) :
    ∃ rows, Lists (Lists Stands) j rows ∧ ofRows rows = .ok (.ok m) := by
  unfold ofJson at read
  split at read
  · cases read
  · rename_i rows listed
    refine ⟨rows, rows?_eq_some_iff.mp listed, ?_⟩
    rcases answered : ofRows rows with fault | e | found
    · rw [answered] at read
      cases read
    · rw [answered] at read
      cases read
    · rw [answered] at read
      cases read
      rfl

theorem toJson_eq (d : Distances n) :
    d.toJson = .list (d.toRows.map fun row => .list (row.map .real)) := by
  rw [toJson]
  refine congrArg Json.list (List.map_congr_left fun row member => ?_)
  refine congrArg Json.list (List.map_congr_left fun x entry => ?_)
  obtain ⟨i, j, finite, -⟩ := d.exists_admissible row member x entry
  exact if_pos finite

theorem ofJson_toJson (d : Distances n) : ofJson d.toJson = .ok (.ok ⟨n, d⟩) := by
  have finite : ∀ row ∈ d.toRows, ∀ x ∈ row, x.isFinite = true := by
    intro row member x entry
    obtain ⟨i, j, finite, -⟩ := d.exists_admissible row member x entry
    exact finite
  have read : rows? d.toJson = some d.toRows :=
    (ReadsBack.list (ReadsBack.list readsBack_double) d.toRows).eq_some finite
  rw [ofJson, read]
  show Except.mapError _ <$> ofRows d.toRows = _
  rw [d.ofRows_toRows]
  rfl

/-- Rows that are accepted are kept as they are, and all distances are read back from their rows and
from their JSON form, which is the list of the rows. A JSON value that lists rows of numbers is read
exactly if the rows are accepted, and no other one is. So all distances are between at least two cities,
with a cost in every cell, finite and not negative, and positive off the diagonal. -/
theorem distances_read_back :
    (∀ rows (m : (n : Nat) × Distances n), ofRows rows = .ok (.ok m) → m.2.toRows = rows) ∧
    (∀ (n : Nat) (d : Distances n), ofRows d.toRows = .ok (.ok ⟨n, d⟩) ∧
      d.toJson = .list (d.toRows.map fun row => .list (row.map .real)) ∧
      ofJson d.toJson = .ok (.ok ⟨n, d⟩) ∧
      2 ≤ n ∧ d.toList.length = n * n ∧ (∀ x ∈ d.toList, x.isFinite ∧ 0.0 ≤ x) ∧
      ∀ i j, i < n → j < n → i ≠ j → ∃ x, d.read i j = .ok x ∧ 0.0 < x) ∧
    ∀ j : Json,
      (∀ rows, Lists (Lists Stands) j rows →
        ofJson j = Except.mapError .refused <$> ofRows rows) ∧
      ∀ m, ofJson j = .ok (.ok m) →
        ∃ rows, Lists (Lists Stands) j rows ∧ ofRows rows = .ok (.ok m) := by
  refine ⟨fun rows m => toRows_of_ofRows, fun n d => ⟨d.ofRows_toRows, d.toJson_eq, d.ofJson_toJson,
    d.two_le, d.length_toList, fun x member => ?_, fun i j hi hj apart => ?_⟩,
    fun j => ⟨fun rows => ofJson_of_lists, fun m => exists_rows_of_ofJson⟩⟩
  · rw [← d.flatten_toRows] at member
    obtain ⟨row, here, entry⟩ := List.mem_flatten.mp member
    obtain ⟨i, j, finite, above, -⟩ := d.exists_admissible row here x entry
    exact ⟨finite, above⟩
  · have place := SquareTable.place_lt hi hj
    refine ⟨_, d.read_of_lt place, ?_⟩
    obtain ⟨-, -, same | positive⟩ := d.admissible hi hj (Vector.getElem?_eq_getElem place)
    · exact absurd same apart
    · exact positive

end Distances

end Metaheuristics

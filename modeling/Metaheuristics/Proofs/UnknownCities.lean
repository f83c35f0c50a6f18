import Metaheuristics.Proofs.FirstDefect
import Metaheuristics.Proofs.Passes

/-!
# Tours through unknown cities

A column past the end of a row names a cell of the next row (`SquareTable.read_next_row`), so a single
access may take an unknown city for a known one. A whole tour does not. It leaves every city that it
visits, so an unknown city is a row at least once, and there is nothing past the last row
(`Distances.tourLength_fails`, `Trails.deposit_fails`). A tour of known cities never needs a column past
the end of a row: its length is the sum of the entries between its cities (`Distances.tourLength_eq_sum`),
and its deposits are made between its cities (`Trails.deposit_passes`). So both meet a fault for an unknown
city and for nothing else (`tours_keep_to_their_rows`).
-/

namespace Metaheuristics

/-- A fold fails for a reason of a kind if one of its steps always does, and no step fails for another
reason. -/
theorem foldlM_fails {α β ε : Type} {f : β → α → Except ε β} {Reason : ε → Prop} {xs : List α}
    (either : ∀ x ∈ xs, ∀ b, (∃ b', f b x = .ok b') ∨ ∃ e, Reason e ∧ f b x = .error e)
    (fails : ∃ x ∈ xs, ∀ b, ∃ e, Reason e ∧ f b x = .error e) (b : β) :
    ∃ e, Reason e ∧ xs.foldlM f b = .error e := by
  induction xs generalizing b with
  | nil =>
    obtain ⟨x, member, -⟩ := fails
    exact absurd member List.not_mem_nil
  | cons x xs ih =>
    rw [List.foldlM_cons]
    rcases either x List.mem_cons_self b with ⟨next, done⟩ | ⟨e, reason, failed⟩
    · obtain ⟨bad, member, always⟩ := fails
      rcases List.mem_cons.mp member with rfl | later
      · obtain ⟨e, -, failed⟩ := always b
        rw [done] at failed
        cases failed
      · rw [done]
        exact ih (fun y hy => either y (List.mem_cons_of_mem x hy)) ⟨bad, later, always⟩ next
    · rw [failed]
      exact ⟨e, reason, rfl⟩

/-! ## Rows -/

/-- The entry in row `i` and column `j` of a table given by its rows. -/
def entryAt? (rows : List (List Float)) (i j : Nat) : Option Float := rows[i]?.bind (·[j]?)

/-- A fault that names a place past the last row of a table of size `n`. -/
def Fault.PastRows (n : Nat) (fault : Fault) : Prop :=
  ∃ place, n * n ≤ place ∧ fault = .outOfBounds place (n * n)

namespace SquareTable

variable {n : Nat}

/-- The columns go on in the next row. -/
theorem read_next_row (t : SquareTable n) (i j : Nat) : t.read i (n + j) = t.read (i + 1) j := by
  have place : i * n + (n + j) = (i + 1) * n + j := by rw [Nat.succ_mul, Nat.add_assoc]
  rw [read, read, place]

/-- A row past the last one is out of bounds, whatever the column. -/
theorem le_place {i : Nat} (unknown : n ≤ i) (j : Nat) : n * n ≤ i * n + j :=
  Nat.le_trans (Nat.mul_le_mul_right n unknown) (Nat.le_add_right _ j)

theorem read_either (t : SquareTable n) (i j : Nat) :
    (∃ x, t.read i j = .ok x) ∨ ∃ fault, fault.PastRows n ∧ t.read i j = .error fault := by
  rcases Nat.lt_or_ge (i * n + j) (n * n) with inside | outside
  · exact .inl ⟨_, t.read_of_lt inside⟩
  · exact .inr ⟨_, ⟨_, outside, rfl⟩, t.read_of_le outside⟩

/-- Inside a row, what is read is its entry. -/
theorem entryAt?_toRows (t : SquareTable n) {i j : Nat} (hi : i < n) (hj : j < n) :
    ∃ x, entryAt? t.toRows i j = some x ∧ t.read i j = .ok x := by
  have place := place_lt hi hj
  refine ⟨t.cells[i * n + j], ?_, t.read_of_lt place⟩
  rw [entryAt?, t.getElem?_toRows i hj, Vector.getElem?_eq_getElem place]

end SquareTable

/-! ## Tours -/

namespace Tour

variable {tour : Tour} {n : Nat}

/-- A tour leaves every city that it visits. -/
theorem exists_edge_from {city : Nat} (visited : city ∈ tour) : ∃ edge ∈ tour.edges, edge.1 = city := by
  rw [← tour.map_fst_edges] at visited
  exact List.mem_map.mp visited

/-- The edges of a tour are those from each city to the next, and the one back to the first city. -/
theorem edges_eq_legs (some_city : tour ≠ []) : tour.edges =
    tour.dropLast.zip tour.tail ++ [(tour.getLast some_city, tour.head some_city)] := by
  have reached : tour.drop 1 ++ tour.take 1 = tour.tail ++ [tour.head some_city] := by
    rw [List.drop_one, List.take_one, List.head?_eq_some_head some_city]
    rfl
  have left : tour.edges = (tour.dropLast ++ [tour.getLast some_city]).zip
      (tour.tail ++ [tour.head some_city]) := by
    rw [edges, reached, List.dropLast_append_getLast]
  rw [left, List.zip_append (by rw [List.length_dropLast, List.length_tail])]
  rfl

/-- What a tour costs between its cities: each leg from one city to the next, and the way back from the
last city to the first. -/
structure Costs (rows : List (List Float)) (tour : Tour) (legs : List Float) (back : Float) : Prop where
  length : legs.length + 1 = tour.length
  leg : ∀ k i j, tour[k]? = some i → tour[k + 1]? = some j → entryAt? rows i j = legs[k]?
  back : ∀ first last, tour.head? = some first → tour.getLast? = some last →
    entryAt? rows last first = some back

end Tour

namespace Distances

variable {n : Nat} {tour : Tour}

/-- The length of a tour through an unknown city is looked for past the last row. -/
theorem tourLength_fails (d : Distances n) (unknown : ∃ city ∈ tour, n ≤ city) :
    ∃ fault, fault.PastRows n ∧ d.tourLength tour = .error fault := by
  obtain ⟨city, visited, unknown⟩ := unknown
  have some_city : tour.isEmpty = false := List.isEmpty_eq_false_iff.mpr (List.ne_nil_of_mem visited)
  rw [tourLength, some_city]
  refine foldlM_fails (fun edge _ sum => ?_) ?_ _
  · rcases d.read_either edge.1 edge.2 with ⟨cost, found⟩ | ⟨fault, past, missing⟩
    · exact .inl ⟨sum + cost, by rw [found]; rfl⟩
    · exact .inr ⟨fault, past, by rw [missing]; rfl⟩
  · obtain ⟨edge, member, rfl⟩ := Tour.exists_edge_from visited
    refine ⟨edge, member, fun sum => ⟨_, ⟨_, SquareTable.le_place unknown edge.2, rfl⟩, ?_⟩⟩
    rw [d.read_of_le (SquareTable.le_place unknown edge.2)]
    rfl

/-- Costs that can all be read are added from the left. -/
theorem foldlM_read (d : Distances n) {cost : Nat × Nat → Float} {edges : List (Nat × Nat)}
    (found : ∀ edge ∈ edges, d.read edge.1 edge.2 = .ok (cost edge)) (sum : Float) :
    edges.foldlM (fun sum edge => (sum + ·) <$> d.read edge.1 edge.2) sum =
      .ok ((edges.map cost).foldl (· + ·) sum) := by
  induction edges generalizing sum with
  | nil => rfl
  | cons edge edges ih =>
    obtain ⟨first, others⟩ := List.forall_mem_cons.mp found
    rw [List.foldlM_cons, first]
    exact ih others (sum + cost edge)

/-- The length of a tour is the sum of what its edges cost. -/
theorem tourLength_eq_foldl (d : Distances n) {cost : Nat × Nat → Float} (some_city : tour ≠ [])
    (found : ∀ edge ∈ tour.edges, d.read edge.1 edge.2 = .ok (cost edge)) :
    d.tourLength tour = .ok ((tour.edges.map cost).foldl (· + ·) (-0.0)) := by
  rw [tourLength, List.isEmpty_eq_false_iff.mpr some_city]
  exact d.foldlM_read found (-0.0)

/-- The length of a tour of known cities is the sum of what it costs between them. -/
theorem tourLength_eq_sum (d : Distances n) (some_city : tour ≠ [])
    (known : ∀ city ∈ tour, city < n) : ∃ legs back, tour.Costs d.toRows legs back ∧
      d.tourLength tour = .ok (legs.foldl (· + ·) (-0.0) + back) := by
  -- every entry that is looked up below is there
  let cost (edge : Nat × Nat) : Float := (entryAt? d.toRows edge.1 edge.2).getD 0.0
  have entry {i j : Nat} (hi : i ∈ tour) (hj : j ∈ tour) : entryAt? d.toRows i j = some (cost (i, j)) := by
    obtain ⟨x, there, -⟩ := d.entryAt?_toRows (known i hi) (known j hj)
    show _ = some ((entryAt? d.toRows i j).getD 0.0)
    rw [there]
    rfl
  have found : ∀ edge ∈ tour.edges, d.read edge.1 edge.2 = .ok (cost edge) := by
    intro edge member
    obtain ⟨here, there⟩ := Tour.mem_of_mem_edges member
    obtain ⟨x, same, read⟩ := d.entryAt?_toRows (known _ here) (known _ there)
    rw [entry here there, Option.some.injEq] at same
    rw [read, ← same]
  refine ⟨(tour.dropLast.zip tour.tail).map cost, cost (tour.getLast some_city, tour.head some_city),
    ⟨?_, ?_, ?_⟩, ?_⟩
  · have positive : 0 < tour.length := List.length_pos_iff.mpr some_city
    rw [List.length_map, List.length_zip, List.length_dropLast, List.length_tail]
    omega
  · intro k i j here next
    have inside : k < tour.dropLast.length := by
      have below := (List.getElem?_eq_some_iff.mp next).1
      rw [List.length_dropLast]
      omega
    have leg : (tour.dropLast.zip tour.tail)[k]? = some (i, j) := by
      rw [List.getElem?_zip_eq_some, List.getElem?_tail]
      refine ⟨?_, next⟩
      rw [List.getElem?_dropLast, if_pos (List.length_dropLast ▸ inside), here]
    rw [entry (List.mem_of_getElem? here) (List.mem_of_getElem? next), List.getElem?_map, leg]
    rfl
  · intro first last begins ends
    have head : tour.head some_city = first := (List.head_eq_iff_head?_eq_some some_city).mpr begins
    have final : tour.getLast some_city = last :=
      (List.getLast_eq_iff_getLast?_eq_some some_city).mpr ends
    rw [head, final]
    exact entry (List.mem_of_getLast? ends) (List.mem_of_mem_head? begins)
  · rw [d.tourLength_eq_foldl some_city found, Tour.edges_eq_legs some_city, List.map_append,
      List.foldl_append]
    rfl

end Distances

namespace Trails

variable {n : Nat} {tour : Tour} {t t' : Trails n} {amount : Float}

theorem strengthen_either (t : Trails n) (amount : Float) (i j : Nat) :
    (∃ t', t.strengthen amount i j = .ok t') ∨
      ∃ fault, fault.PastRows n ∧ t.strengthen amount i j = .error fault := by
  rcases Nat.lt_or_ge (i * n + j) (n * n) with inside | outside
  · exact .inl ⟨_, dif_pos inside⟩
  · exact .inr ⟨_, ⟨_, outside, rfl⟩, dif_neg (Nat.not_lt.mpr outside)⟩

/-- A tour through an unknown city looks for a trail past the last row. -/
theorem deposit_fails (t : Trails n) (amount : Float) (unknown : ∃ city ∈ tour, n ≤ city) :
    ∃ fault, fault.PastRows n ∧ t.deposit tour amount = .error fault := by
  obtain ⟨city, visited, unknown⟩ := unknown
  refine foldlM_fails (fun edge _ t => ?_) ?_ t
  · rcases t.strengthen_either amount edge.1 edge.2 with ⟨t₁, once⟩ | ⟨fault, past, missing⟩
    · rw [once]
      exact t₁.strengthen_either amount edge.2 edge.1
    · exact .inr ⟨fault, past, by rw [missing]; rfl⟩
  · obtain ⟨edge, member, rfl⟩ := Tour.exists_edge_from visited
    have outside := SquareTable.le_place unknown edge.2
    refine ⟨edge, member, fun t => ⟨_, ⟨_, outside, rfl⟩, ?_⟩⟩
    rw [strengthen, dif_neg (Nat.not_lt.mpr outside)]
    rfl

/-- From city 0 of three there seems to be a trail to city 3, but from there none leads back. -/
example : (uniform 3 1.0).strengthen 1.0 0 3 = (uniform 3 1.0).strengthen 1.0 1 0 ∧
    (uniform 3 1.0).deposit [0, 3] 1.0 = .error (.outOfBounds 9 9) := ⟨rfl, rfl⟩

/-- The deposits of a tour of known cities are made where it passes, and nowhere else. -/
theorem deposit_passes (known : ∀ city ∈ tour, city < n) (done : t.deposit tour amount = .ok t')
    {i j : Nat} (hi : i < n) (hj : j < n) : ∃ old, t.read i j = .ok old ∧
      t'.read i j = .ok (pile amount (tour.deposits i j) old) := by
  have place := SquareTable.place_lt hi hj
  refine ⟨_, t.read_of_lt place, ?_⟩
  rw [t'.read_of_lt place, deposit_cell done place, count_touched known hj]

end Trails

/-- What fails past the last row for an unknown city and succeeds for known ones meets a fault if and only
if there is an unknown city. -/
theorem fault_iff_unknown {α : Type} {n : Nat} {tour : Tour} {x : Except Fault α}
    (fails : (∃ city ∈ tour, n ≤ city) → ∃ fault, fault.PastRows n ∧ x = .error fault)
    (succeeds : (∀ city ∈ tour, city < n) → ∃ a, x = .ok a) :
    ((∃ fault, x = .error fault) ↔ tour ≠ [] ∧ ∃ city ∈ tour, n ≤ city) ∧
      ∀ fault, x = .error fault → fault.PastRows n := by
  have unknown {fault : Fault} (failed : x = .error fault) : ∃ city ∈ tour, n ≤ city := by
    by_contra none
    obtain ⟨a, done⟩ := succeeds fun city visited => Nat.lt_of_not_le fun le => none ⟨city, visited, le⟩
    rw [failed] at done
    cases done
  refine ⟨⟨?_, ?_⟩, fun fault failed => ?_⟩
  · rintro ⟨fault, failed⟩
    obtain ⟨city, visited, le⟩ := unknown failed
    exact ⟨List.ne_nil_of_mem visited, city, visited, le⟩
  · rintro ⟨-, somewhere⟩
    obtain ⟨fault, -, failed⟩ := fails somewhere
    exact ⟨fault, failed⟩
  · obtain ⟨same, past, failed'⟩ := fails (unknown failed)
    rw [failed, Except.error.injEq] at failed'
    exact failed' ▸ past

/-- Whatever list of cities is taken for a tour, it is not read or strengthened across the ends of rows,
though single accesses would be. It meets a fault, past the last row, if and only if it visits an unknown
city. Otherwise its length is zero without cities, and else the sum of the entries of the rows on its way,
added from the left; and its deposits are made on the trails that it passes in one of the directions, all
others staying as they are. -/
theorem tours_keep_to_their_rows {n m : Nat} (d : Distances n) (t : Trails m) (amount : Float)
    (tour : Tour) :
    (∀ i j, d.read i (n + j) = d.read (i + 1) j ∧ t.read i (m + j) = t.read (i + 1) j) ∧
    (((∃ fault, d.tourLength tour = .error fault) ↔ tour ≠ [] ∧ ∃ city ∈ tour, n ≤ city) ∧
      ∀ fault, d.tourLength tour = .error fault → fault.PastRows n) ∧
    (tour = [] → d.tourLength tour = .ok 0.0) ∧
    (tour ≠ [] → (∀ city ∈ tour, city < n) → ∃ legs back, tour.Costs d.toRows legs back ∧
      d.tourLength tour = .ok (legs.foldl (· + ·) (-0.0) + back)) ∧
    (((∃ fault, t.deposit tour amount = .error fault) ↔ tour ≠ [] ∧ ∃ city ∈ tour, m ≤ city) ∧
      ∀ fault, t.deposit tour amount = .error fault → fault.PastRows m) ∧
    ∀ t', t.deposit tour amount = .ok t' → ∀ i j, i < m → j < m →
      ∃ old new, t.read i j = .ok old ∧ t'.read i j = .ok new ∧
        new = Trails.pile amount (tour.deposits i j) old ∧
        (tour.passes i j = 0 → tour.passes j i = 0 → new = old) := by
  refine ⟨fun i j => ⟨d.read_next_row i j, t.read_next_row i j⟩,
    fault_iff_unknown d.tourLength_fails fun known => ?_, ?_, d.tourLength_eq_sum,
    fault_iff_unknown (t.deposit_fails amount) (t.deposit_ok amount), fun t' done i j hi hj => ?_⟩
  · obtain ⟨length, done, -⟩ := d.tourLength_ok known
    exact ⟨length, done⟩
  · rintro rfl
    rfl
  · have known : ∀ city ∈ tour, city < m := by
      intro city visited
      refine Nat.lt_of_not_le fun unknown => ?_
      obtain ⟨fault, -, failed⟩ := t.deposit_fails amount ⟨city, visited, unknown⟩
      rw [done] at failed
      cases failed
    obtain ⟨old, before, after⟩ := Trails.deposit_passes known done hi hj
    refine ⟨old, _, before, after, rfl, fun there back => ?_⟩
    rw [Tour.deposits, there, back]
    rfl

end Metaheuristics

import Mathlib.Data.Finset.Prod
import Metaheuristics.Proofs.Deposits

/-!
# Which trails a tour strengthens

A closed tour makes a deposit on a trail whenever it passes there, in either direction
(`Tour.deposits`). So after an iteration every trail is known to the last bit: first it evaporates, and
then tour after tour adds its share as often as it passes (`reinforce_cell`, `reinforce_is_cellwise`).
A tour through at least three cities that visits each once passes no edge twice, and if it passes one, it
does not come back there (`Tour.deposits_le_one`); since it makes two deposits for every city in all, it
makes one on twice as many trails as there are cities (`Tour.card_deposits`).
-/

namespace Metaheuristics

namespace Tour

variable {n : Nat} {tour : Tour} {i j : Nat}

/-! ## Passing an edge -/

/-- How often a closed tour goes from city `i` straight to city `j`. After its last city it goes to its
first one. -/
def passes (tour : Tour) (i j : Nat) : Nat :=
  (List.range tour.length).countP fun k =>
    tour[k]? = some i ∧ tour[(k + 1) % tour.length]? = some j

/-- How many deposits a closed tour makes on the trail from city `i` to city `j`. If it stays in a city,
it passes there in both directions. -/
def deposits (tour : Tour) (i j : Nat) : Nat := tour.passes i j + tour.passes j i

theorem passes_eq_count (tour : Tour) (i j : Nat) : tour.passes i j = tour.edges.count (i, j) := by
  have positions (xs : List (Nat × Nat)) (x : Nat × Nat) :
      xs.count x = (List.range xs.length).countP fun k => xs[k]? = some x := by
    have listed : xs.map some = (List.range xs.length).map fun k => xs[k]? :=
      List.ext_getElem (by simp) (by simp)
    rw [← List.count_map_of_injective xs some (Option.some_injective _), listed, List.count,
      List.countP_map]
    exact List.countP_congr fun k _ => by simp
  rw [positions, tour.length_edges, passes]
  refine List.countP_congr fun k inside => ?_
  rw [decide_eq_true_iff, decide_eq_true_iff, edges_eq_zip_rotate, List.getElem?_zip_eq_some,
    List.getElem?_rotate (List.mem_range.mp inside)]

/-- The deposits are made on the edges and on the same edges turned round. -/
theorem deposits_eq_count (tour : Tour) (i j : Nat) :
    tour.deposits i j = (tour.edges ++ tour.edges.map Prod.swap).count (i, j) := by
  have turned := List.count_map_of_injective tour.edges Prod.swap Prod.swap_injective (j, i)
  rw [deposits, passes_eq_count, passes_eq_count, List.count_append, ← turned]
  rfl

/-- Both ways along the edges of a tour of known cities join two of them. -/
theorem lt_of_mem_ways (known : ∀ city ∈ tour, city < n) :
    ∀ edge ∈ tour.edges ++ tour.edges.map Prod.swap, edge.1 < n ∧ edge.2 < n := by
  intro edge member
  rcases List.mem_append.mp member with there | back
  · obtain ⟨left, reached⟩ := mem_of_mem_edges there
    exact ⟨known _ left, known _ reached⟩
  · obtain ⟨turned, there, rfl⟩ := List.mem_map.mp back
    obtain ⟨left, reached⟩ := mem_of_mem_edges there
    exact ⟨known _ reached, known _ left⟩

/-! ## Tours that visit each city once -/

theorem passes_le_one (once : tour.Nodup) (i j : Nat) : tour.passes i j ≤ 1 := by
  rw [passes_eq_count]
  have edges : tour.edges.Nodup := List.Nodup.of_map Prod.fst (by rwa [tour.map_fst_edges])
  exact List.nodup_iff_count_le_one.mp edges (i, j)

theorem exists_of_passes (h : 0 < tour.passes i j) : ∃ k, k < tour.length ∧
    tour[k]? = some i ∧ tour[(k + 1) % tour.length]? = some j := by
  obtain ⟨k, inside, here⟩ := List.countP_pos_iff.mp h
  exact ⟨k, List.mem_range.mp inside, of_decide_eq_true here⟩

/-- Such a tour of at least three cities does not come back by the same edge. -/
theorem passes_one_way (once : tour.Nodup) (three_le : 3 ≤ tour.length)
    (there : 0 < tour.passes i j) : tour.passes j i = 0 := by
  refine Nat.eq_zero_of_not_pos fun back => ?_
  obtain ⟨k, hk, left, reached⟩ := exists_of_passes there
  obtain ⟨m, hm, left', reached'⟩ := exists_of_passes back
  have next : (k + 1) % tour.length = m :=
    (List.getElem?_inj (Nat.mod_lt _ (by omega)) once).mp (reached.trans left'.symm)
  have return' : (m + 1) % tour.length = k :=
    (List.getElem?_inj (Nat.mod_lt _ (by omega)) once).mp (reached'.trans left.symm)
  -- two steps round a circle of at least three cities do not lead back
  rcases Nat.lt_or_ge (k + 1) tour.length with inner | last
  · rw [Nat.mod_eq_of_lt inner] at next
    rcases Nat.lt_or_ge (m + 1) tour.length with inner' | last'
    · rw [Nat.mod_eq_of_lt inner'] at return'
      omega
    · rw [show m + 1 = tour.length by omega, Nat.mod_self] at return'
      omega
  · rw [show k + 1 = tour.length by omega, Nat.mod_self] at next
    rw [← next, Nat.mod_eq_of_lt (by omega)] at return'
    omega

theorem deposits_le_one (once : tour.Nodup) (three_le : 3 ≤ tour.length) (i j : Nat) :
    tour.deposits i j ≤ 1 := by
  rw [deposits]
  rcases Nat.eq_zero_or_pos (tour.passes i j) with never | there
  · rw [never, Nat.zero_add]
    exact passes_le_one once j i
  · rw [passes_one_way once three_le there]
    exact passes_le_one once i j

theorem deposits_diagonal (once : tour.Nodup) (two_le : 2 ≤ tour.length) (i : Nat) :
    tour.deposits i i = 0 := by
  have never : tour.passes i i = 0 := by
    rw [passes_eq_count, List.count_eq_zero]
    exact fun member => ne_of_mem_edges once two_le member rfl
  rw [deposits, never]

/-- All pairs of two cities, in both orders. -/
def pairs (n : Nat) : Finset (Nat × Nat) := Finset.range n ×ˢ Finset.range n

/-- Every city of a tour brings about two deposits. -/
theorem sum_deposits (known : ∀ city ∈ tour, city < n) :
    ∑ pair ∈ pairs n, tour.deposits pair.1 pair.2 = 2 * tour.length := by
  have inside : ∀ edge ∈ tour.edges ++ tour.edges.map Prod.swap, edge ∈ pairs n := by
    intro edge member
    rw [pairs, Finset.mem_product, Finset.mem_range, Finset.mem_range]
    exact lt_of_mem_ways known edge member
  calc ∑ pair ∈ pairs n, tour.deposits pair.1 pair.2
      = ∑ pair ∈ pairs n, (tour.edges ++ tour.edges.map Prod.swap).count pair :=
        Finset.sum_congr rfl fun pair _ => tour.deposits_eq_count pair.1 pair.2
    _ = (tour.edges ++ tour.edges.map Prod.swap).length := by
        rw [← Multiset.coe_card, ← Multiset.sum_count_eq_card inside]
        refine Finset.sum_congr rfl fun pair _ => ?_
        rw [Multiset.coe_count]
        congr
        exact lawful_beq_subsingleton _ _
    _ = 2 * tour.length := by
        rw [List.length_append, List.length_map, tour.length_edges, Nat.two_mul]

/-- A tour through all of at least three cities makes one deposit on twice as many trails. -/
theorem card_deposits (visits : tour.Perm (List.range n)) (three_le : 3 ≤ n) :
    ((pairs n).filter fun pair => tour.deposits pair.1 pair.2 = 1).card = 2 * n := by
  have length := length_of_visits visits
  calc ((pairs n).filter fun pair => tour.deposits pair.1 pair.2 = 1).card
      = ∑ pair ∈ pairs n, if tour.deposits pair.1 pair.2 = 1 then 1 else 0 := Finset.card_filter _ _
    _ = ∑ pair ∈ pairs n, tour.deposits pair.1 pair.2 := by
        refine Finset.sum_congr rfl fun pair _ => ?_
        have most := deposits_le_one (nodup_of_visits visits) (by omega) pair.1 pair.2
        split <;> omega
    _ = 2 * n := by rw [sum_deposits (lt_of_visits visits), length]

end Tour

namespace Trails

variable {n : Nat} {t t' : Trails n} {rate q : Float}

/-! ## An iteration -/

/-- A tour touches a cell as often as it passes between its cities. -/
theorem count_touched {tour : Tour} (known : ∀ city ∈ tour, city < n) {i j : Nat} (hj : j < n) :
    (touched n tour).count (i * n + j) = tour.deposits i j := by
  rw [(touched_perm n tour).count_eq, tour.deposits_eq_count, List.count, List.countP_map, List.count]
  refine List.countP_congr fun edge member => ?_
  rw [Function.comp_apply, beq_iff_eq, beq_iff_eq]
  constructor
  · intro same
    obtain ⟨row, column⟩ := place_inj (Tour.lt_of_mem_ways known edge member).2 hj same
    exact Prod.ext row column
  · rintro rfl
    rfl

theorem evaporate_cell (t : Trails n) (rate : Float) {c : Nat} (h : c < n * n) :
    (t.evaporate rate).cells[c] = fade rate t.cells[c] := Vector.getElem_map ..

/-- After it has evaporated, a trail gains the share of tour after tour as often as that touches it. -/
theorem reinforce_cell {tours : List (Tour × Float)} (done : t.reinforce rate q tours = .ok t')
    {c : Nat} (h : c < n * n) : t'.cells[c] = tours.foldl
      (fun level tour => pile (q / tour.2) ((touched n tour.1).count c) level)
      (fade rate t.cells[c]) := by
  unfold reinforce at done
  rw [← t.evaporate_cell rate h]
  -- any trails, since they change from tour to tour
  generalize t.evaporate rate = left at done ⊢
  induction tours generalizing left with
  | nil =>
      cases done
      rfl
  | cons tour tours ih =>
      rw [List.foldlM_cons] at done
      obtain ⟨next, deposited, later⟩ := exists_of_bind_eq_ok done
      rw [ih next later, deposit_cell deposited h, List.foldl_cons]

/-- A trail that no tour touches evaporates, and that is all. -/
theorem reinforce_untouched {tours : List (Tour × Float)} (done : t.reinforce rate q tours = .ok t')
    {c : Nat} (h : c < n * n) (away : ∀ tour ∈ tours, (touched n tour.1).count c = 0) :
    t'.cells[c] = fade rate t.cells[c] := by
  rw [reinforce_cell done h]
  refine (List.foldl_ext _ (fun level _ => level) _ fun level tour member => ?_).trans
    (List.foldl_fixed _)
  rw [away tour member]
  rfl

/-- An iteration with any tours of known cities, any rate and any quantity gives every trail a strength
that depends on nothing but what the trail was before and how often the tours pass there. A tour through
all of at least three cities makes one deposit on two trails for every city and none on the others; one
through two cities makes two on both trails between them. -/
theorem reinforce_is_cellwise (t : Trails n) (rate q : Float) {tours : List (Tour × Float)}
    (known : ∀ tour ∈ tours, ∀ city ∈ tour.1, city < n) :
    (∃ t', t.reinforce rate q tours = .ok t' ∧ ∀ i j, i < n → j < n →
      ∃ old new, t.read i j = .ok old ∧ t'.read i j = .ok new ∧
        new = tours.foldl (fun level tour => pile (q / tour.2) (tour.1.deposits i j) level)
          (Binary64.larger (old * (1.0 - rate)) Binary64.minNormal) ∧
        ((∀ tour ∈ tours, tour.1.passes i j = 0 ∧ tour.1.passes j i = 0) →
          new = Binary64.larger (old * (1.0 - rate)) Binary64.minNormal)) ∧
    ∀ tour : Tour, tour.Perm (List.range n) →
      (3 ≤ n → (∀ i j, tour.deposits i j ≤ 1) ∧
        ((Tour.pairs n).filter fun pair => tour.deposits pair.1 pair.2 = 1).card = 2 * n) ∧
      (n = 2 → tour.deposits 0 1 = 2 ∧ tour.deposits 1 0 = 2 ∧
        tour.deposits 0 0 = 0 ∧ tour.deposits 1 1 = 0) := by
  refine ⟨?_, fun tour visits => ⟨fun three_le => ⟨?_, Tour.card_deposits visits three_le⟩, ?_⟩⟩
  · obtain ⟨t', done⟩ := t.reinforce_ok rate q known
    refine ⟨t', done, fun i j hi hj => ?_⟩
    have place := SquareTable.place_lt hi hj
    have strength : t'.cells[i * n + j] = tours.foldl
        (fun level tour => pile (q / tour.2) (tour.1.deposits i j) level)
        (fade rate t.cells[i * n + j]) := by
      rw [reinforce_cell done place]
      refine List.foldl_ext _ _ _ fun level tour member => ?_
      rw [count_touched (known tour member) hj]
    refine ⟨_, _, t.read_of_lt place, t'.read_of_lt place, strength, fun away => ?_⟩
    refine reinforce_untouched done place fun tour member => ?_
    rw [count_touched (known tour member) hj, Tour.deposits, (away tour member).1,
      (away tour member).2]
  · have enough : 3 ≤ tour.length := (Tour.length_of_visits visits).symm ▸ three_le
    exact Tour.deposits_le_one (Tour.nodup_of_visits visits) enough
  · rintro rfl
    rcases Tour.of_two_cities visits with rfl | rfl
    · decide
    · decide

/-- A round trip, and a tour that stays in a city and goes back and forth. -/
def roundAndBack : List (Tour × Float) := [([0, 1, 2], 4.0), ([2, 2, 0], 2.0)]

/-- What the two leave of new trails in four of the cells, and on how many the round trip makes its
deposits. -/
theorem roundAndBack_is_cellwise :
    (∀ tour ∈ roundAndBack, ∀ city ∈ tour.1, city < 3) ∧
    (∃ t', (uniform 3 1.0).reinforce 0.5 1.0 roundAndBack = .ok t' ∧ t'.read 0 1 = .ok 0.75 ∧
      t'.read 2 0 = .ok 1.75 ∧ t'.read 2 2 = .ok 1.5 ∧ t'.read 1 1 = .ok 0.5) ∧
    ((Tour.pairs 3).filter fun pair => Tour.deposits [0, 1, 2] pair.1 pair.2 = 1).card = 6 := by
  have known : ∀ tour ∈ roundAndBack, ∀ city ∈ tour.1, city < 3 := by decide
  obtain ⟨⟨t', done, cells⟩, counts⟩ := reinforce_is_cellwise (uniform 3 1.0) 0.5 1.0 known
  have strength (i j : Nat) (hi : i < 3) (hj : j < 3) : t'.read i j = .ok (roundAndBack.foldl
      (fun level tour => pile (1.0 / tour.2) (tour.1.deposits i j) level)
      (Binary64.larger (1.0 * (1.0 - 0.5)) Binary64.minNormal)) := by
    obtain ⟨old, new, before, after, rfl, -⟩ := cells i j hi hj
    have level : old = 1.0 := by
      rw [(uniform 3 1.0).read_of_lt (SquareTable.place_lt hi hj), Except.ok.injEq] at before
      exact before.symm.trans (Vector.getElem_replicate _)
    rw [after, level]
  refine ⟨known, ⟨t', done, ?_, ?_, ?_, ?_⟩, ((counts [0, 1, 2] (.refl _)).1 (by decide)).2⟩
  · exact strength 0 1 (by decide) (by decide)
  · exact strength 2 0 (by decide) (by decide)
  · exact strength 2 2 (by decide) (by decide)
  · exact strength 1 1 (by decide) (by decide)

end Trails

end Metaheuristics

import Metaheuristics.Proofs.Binary64.Arithmetic
import Metaheuristics.Distances
import Metaheuristics.Trails

/-!
# Tours through known cities

A tour of cities below `n` meets no fault: its length is a number that is not negative
(`tourLength_ok`), and it can strengthen its edges (`deposit_ok`, `reinforce_ok`). A tour through all
of at least two cities never stays where it is (`Tour.ne_of_mem_edges`), so its length is positive, even
if it is infinite (`tourLength_pos`).
-/

namespace Metaheuristics

/-- Both ends of an edge are cities of the tour. -/
theorem Tour.mem_of_mem_edges {tour : Tour} {edge : Nat × Nat} (h : edge ∈ tour.edges) :
    edge.1 ∈ tour ∧ edge.2 ∈ tour := by
  have ends := List.of_mem_zip h
  refine ⟨ends.1, ?_⟩
  rcases List.mem_append.mp ends.2 with later | first
  · exact List.mem_of_mem_drop later
  · exact List.mem_of_mem_take first

/-- A tour through all cities visits known cities only. -/
theorem Tour.lt_of_visits {n : Nat} {tour : Tour} (visits : tour.Perm (List.range n)) :
    ∀ city ∈ tour, city < n := by
  intro city member
  exact List.mem_range.mp (visits.mem_iff.mp member)

theorem Tour.nodup_of_visits {n : Nat} {tour : Tour} (visits : tour.Perm (List.range n)) :
    tour.Nodup :=
  visits.nodup_iff.mpr List.nodup_range

theorem Tour.length_of_visits {n : Nat} {tour : Tour} (visits : tour.Perm (List.range n)) :
    tour.length = n := by
  rw [visits.length_eq, List.length_range]

/-- There are two tours through two cities. -/
theorem Tour.of_two_cities {tour : Tour} (visits : tour.Perm (List.range 2)) :
    tour = [0, 1] ∨ tour = [1, 0] := by
  have member := List.mem_permutations.mpr visits
  simpa [List.range, List.range.loop, List.permutations] using member

/-- Every city of a tour is left once. -/
theorem Tour.map_fst_edges (tour : Tour) : tour.edges.map Prod.fst = tour := by
  refine List.map_fst_zip ?_
  rw [List.length_append, List.length_drop, List.length_take]
  omega

/-- Every city of a tour is reached once. -/
theorem Tour.map_snd_edges_perm (tour : Tour) : (tour.edges.map Prod.snd).Perm tour := by
  have reached : tour.edges.map Prod.snd = tour.drop 1 ++ tour.take 1 := by
    refine List.map_snd_zip ?_
    rw [List.length_append, List.length_drop, List.length_take]
    omega
  rw [reached]
  refine List.perm_append_comm.trans ?_
  rw [List.take_append_drop]

/-- The edges pair the cities of a tour with those of the same tour, started one city later. -/
theorem Tour.edges_eq_zip_rotate (tour : Tour) : tour.edges = tour.zip (tour.rotate 1) := by
  cases tour with
  | nil => rfl
  | cons city tour => rw [Tour.edges, List.rotate_eq_drop_append_take (by simp)]

/-- A tour of at least two cities that visits each once goes from every city to another one. -/
theorem Tour.ne_of_mem_edges {tour : Tour} (once : tour.Nodup) (two_le : 2 ≤ tour.length)
    {edge : Nat × Nat} (h : edge ∈ tour.edges) : edge.1 ≠ edge.2 := by
  rw [Tour.edges_eq_zip_rotate] at h
  obtain ⟨k, hk, rfl⟩ := List.getElem_of_mem h
  have inside : k < tour.length := by
    rw [List.length_zip] at hk
    omega
  rw [List.getElem_zip, List.getElem_rotate]
  intro same
  have next := (once.getElem_inj_iff).mp same
  by_cases last : k + 1 < tour.length
  · rw [Nat.mod_eq_of_lt last] at next
    omega
  · rw [show k + 1 = tour.length by omega, Nat.mod_self] at next
    omega

/-- Every edge of a tour through all of at least two cities joins two of them. -/
theorem Tour.apart_of_visits {n : Nat} {tour : Tour} (two_le : 2 ≤ n)
    (visits : tour.Perm (List.range n)) :
    ∀ edge ∈ tour.edges, edge.1 < n ∧ edge.2 < n ∧ edge.1 ≠ edge.2 := by
  intro edge member
  obtain ⟨here, there⟩ := Tour.mem_of_mem_edges member
  have known := Tour.lt_of_visits visits
  have enough : 2 ≤ tour.length := (Tour.length_of_visits visits).symm ▸ two_le
  exact ⟨known _ here, known _ there,
    Tour.ne_of_mem_edges (Tour.nodup_of_visits visits) enough member⟩

/-- A computation that does not fail has not failed at its first step. -/
theorem exists_of_bind_eq_ok {α β ε : Type} {x : Except ε α} {f : α → Except ε β} {b : β}
    (done : x >>= f = .ok b) : ∃ a, x = .ok a ∧ f a = .ok b := by
  cases x with
  | error e => cases done
  | ok a => exact ⟨a, rfl, done⟩

/-- A fold that goes on from every state with a property keeps the property to its end. -/
theorem foldlM_ok {α β ε : Type} {f : β → α → Except ε β} {P : β → Prop} {xs : List α}
    (step : ∀ x ∈ xs, ∀ b, P b → ∃ b', f b x = .ok b' ∧ P b') {b : β} (start : P b) :
    ∃ b', xs.foldlM f b = .ok b' ∧ P b' := by
  induction xs generalizing b with
  | nil => exact ⟨b, rfl, start⟩
  | cons x xs ih =>
      obtain ⟨next, done, kept⟩ := step x List.mem_cons_self b start
      obtain ⟨last, rest, finished⟩ :=
        ih (fun y hy => step y (List.mem_cons_of_mem x hy)) kept
      refine ⟨last, ?_, finished⟩
      rw [List.foldlM_cons, done]
      exact rest

/-- A fold of at least one step has in the end what every step brings about. -/
theorem foldlM_ok_of_ne_nil {α β ε : Type} {f : β → α → Except ε β} {P Q : β → Prop} {xs : List α}
    (step : ∀ x ∈ xs, ∀ b, P b → ∃ b', f b x = .ok b' ∧ Q b') (weaker : ∀ b, Q b → P b)
    (some_step : xs ≠ []) {b : β} (start : P b) : ∃ b', xs.foldlM f b = .ok b' ∧ Q b' := by
  cases xs with
  | nil => exact absurd rfl some_step
  | cons x xs =>
      obtain ⟨next, done, reached⟩ := step x List.mem_cons_self b start
      obtain ⟨last, rest, finished⟩ := foldlM_ok (fun y hy b kept =>
        step y (List.mem_cons_of_mem x hy) b (weaker b kept)) reached
      refine ⟨last, ?_, finished⟩
      rw [List.foldlM_cons, done]
      exact rest

/-- A fold keeps to its end what every step keeps. -/
theorem foldlM_keeps {α β ε : Type} {f : β → α → Except ε β} {P : β → Prop} {xs : List α}
    (step : ∀ x ∈ xs, ∀ b b', P b → f b x = .ok b' → P b') {b b' : β} (start : P b)
    (folded : xs.foldlM f b = .ok b') : P b' := by
  induction xs generalizing b with
  | nil =>
      cases folded
      exact start
  | cons x xs ih =>
      rw [List.foldlM_cons] at folded
      obtain ⟨next, done, folded⟩ := exists_of_bind_eq_ok folded
      refine ih (fun y hy => step y (List.mem_cons_of_mem x hy)) ?_ folded
      exact step x List.mem_cons_self b next start done

/-- What is read from a list is read from its elements. -/
theorem exists_of_mem_mapM {α β ε : Type} {f : α → Except ε β} {xs : List α} {ys : List β}
    (done : xs.mapM f = .ok ys) : ∀ y ∈ ys, ∃ x ∈ xs, f x = .ok y := by
  induction xs generalizing ys with
  | nil =>
      cases done
      exact nofun
  | cons x xs ih =>
      rw [List.mapM_cons] at done
      obtain ⟨first, read, done⟩ := exists_of_bind_eq_ok done
      obtain ⟨others, later, done⟩ := exists_of_bind_eq_ok done
      cases done
      refine List.forall_mem_cons.mpr ⟨⟨x, List.mem_cons_self, read⟩, fun y member => ?_⟩
      obtain ⟨x', known, read'⟩ := ih later y member
      exact ⟨x', List.mem_cons_of_mem x known, read'⟩

/-- A list is read alike if each of its elements is. -/
theorem mapM_congr {α β ε : Type} {f g : α → Except ε β} {xs : List α}
    (agree : ∀ x ∈ xs, f x = g x) : xs.mapM f = xs.mapM g := by
  induction xs with
  | nil => rfl
  | cons x xs ih =>
      obtain ⟨first, others⟩ := List.forall_mem_cons.mp agree
      rw [List.mapM_cons, List.mapM_cons, first, ih others]

/-- Folds whose steps agree on the elements of a list agree on the list. -/
theorem foldlM_congr {α β ε : Type} {f g : β → α → Except ε β} {xs : List α}
    (agree : ∀ x ∈ xs, ∀ b, f b x = g b x) (b : β) : xs.foldlM f b = xs.foldlM g b := by
  induction xs generalizing b with
  | nil => rfl
  | cons x xs ih =>
      obtain ⟨first, others⟩ := List.forall_mem_cons.mp agree
      rw [List.foldlM_cons, List.foldlM_cons, first b]
      exact bind_congr fun next => ih others next

namespace Distances

variable {n : Nat}

/-- Between known cities there is an admissible cost. -/
theorem read_ok (d : Distances n) {i j : Nat} (hi : i < n) (hj : j < n) :
    ∃ cost, d.read i j = .ok cost ∧ AdmissibleCost i j cost := by
  have place := SquareTable.place_lt hi hj
  refine ⟨d.cells[i * n + j], d.read_of_lt place, ?_⟩
  exact d.admissible hi hj (Vector.getElem?_eq_getElem place)

/-- The length of a tour of known cities is a number that is not negative. -/
theorem tourLength_ok (d : Distances n) {tour : Tour} (known : ∀ city ∈ tour, city < n) :
    ∃ length, d.tourLength tour = .ok length ∧ 0.0 ≤ length := by
  unfold tourLength
  split
  · exact ⟨0.0, rfl, by decide⟩
  · refine foldlM_ok (fun edge member sum nonneg => ?_) (by decide)
    obtain ⟨here, there⟩ := Tour.mem_of_mem_edges member
    obtain ⟨cost, found, finite, above, -⟩ := d.read_ok (known _ here) (known _ there)
    refine ⟨sum + cost, ?_, Binary64.le_trans nonneg (Binary64.le_add nonneg above).1⟩
    rw [found]
    rfl

/-- Going from one city to another costs something. -/
theorem add_cost_ok (d : Distances n) {i j : Nat} (hi : i < n) (hj : j < n) (apart : i ≠ j)
    {sum : Float} (nonneg : 0.0 ≤ sum) :
    ∃ sum', (sum + ·) <$> d.read i j = .ok sum' ∧ 0.0 < sum' := by
  obtain ⟨cost, found, -, -, same | positive⟩ := d.read_ok hi hj
  · exact absurd same apart
  · refine ⟨sum + cost, by rw [found]; rfl, ?_⟩
    exact Binary64.lt_of_lt_of_le positive (Binary64.le_add nonneg (Binary64.le_of_lt positive)).2

/-- A tour through all cities has a positive length, since there are at least two of them. -/
theorem tourLength_pos (d : Distances n) {tour : Tour} (visits : tour.Perm (List.range n)) :
    ∃ length, d.tourLength tour = .ok length ∧ 0.0 < length := by
  have two_le : 2 ≤ tour.length := (Tour.length_of_visits visits).symm ▸ d.two_le
  have some_city : tour.isEmpty = false :=
    List.isEmpty_eq_false_iff.mpr (List.ne_nil_of_length_pos (by omega))
  have some_edge : tour.edges ≠ [] :=
    List.ne_nil_of_length_pos (by rw [tour.length_edges]; omega)
  rw [tourLength, some_city]
  refine foldlM_ok_of_ne_nil (fun edge member sum nonneg => ?_)
    (fun sum positive => Binary64.le_of_lt positive) some_edge (by decide)
  obtain ⟨here, there, apart⟩ := Tour.apart_of_visits d.two_le visits edge member
  exact d.add_cost_ok here there apart nonneg

end Distances

namespace Trails

variable {n : Nat}

theorem strengthen_ok (t : Trails n) (amount : Float) {i j : Nat} (hi : i < n) (hj : j < n) :
    ∃ t', t.strengthen amount i j = .ok t' :=
  ⟨_, dif_pos (SquareTable.place_lt hi hj)⟩

/-- A tour of known cities strengthens its edges. -/
theorem deposit_ok (t : Trails n) {tour : Tour} (amount : Float)
    (known : ∀ city ∈ tour, city < n) : ∃ t', t.deposit tour amount = .ok t' := by
  have deposited : ∃ t', t.deposit tour amount = .ok t' ∧ True := by
    refine foldlM_ok (fun edge member t _ => ?_) trivial
    obtain ⟨here, there⟩ := Tour.mem_of_mem_edges member
    obtain ⟨t₁, once⟩ := t.strengthen_ok amount (known _ here) (known _ there)
    obtain ⟨t₂, twice⟩ := t₁.strengthen_ok amount (known _ there) (known _ here)
    refine ⟨t₂, ?_, trivial⟩
    rw [once]
    exact twice
  obtain ⟨t', done, -⟩ := deposited
  exact ⟨t', done⟩

theorem reinforce_ok (t : Trails n) (rate q : Float) {tours : List (Tour × Float)}
    (known : ∀ tour ∈ tours, ∀ city ∈ tour.1, city < n) :
    ∃ t', t.reinforce rate q tours = .ok t' := by
  have reinforced : ∃ t', t.reinforce rate q tours = .ok t' ∧ True := by
    refine foldlM_ok (fun tour member t _ => ?_) trivial
    obtain ⟨t', deposited⟩ := t.deposit_ok (q / tour.2) (known tour member)
    exact ⟨t', deposited, trivial⟩
  obtain ⟨t', done, -⟩ := reinforced
  exact ⟨t', done⟩

end Trails

end Metaheuristics

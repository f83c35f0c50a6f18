import Metaheuristics.Proofs.Binary64.LongSums
import Metaheuristics.Proofs.UnknownCities

/-!
# Lengths of tours

The length of a tour is a sum of costs, rounded at every edge. Nothing that holds of exact sums of costs
that are not negative is lost by this: the length of a tour through all cities is positive, is at least the
cost of each of its edges and is infinite only where the sum overflows (`length_of_visits`), and a tour gets
no shorter if costs are raised (`NoDearer.tourLength_le`).
-/

namespace Metaheuristics.Distances

open Binary64

variable {n : Nat} {d d' : Distances n} {tour : Tour}

/-- Between known cities all costs can be read. -/
theorem exists_cost (d : Distances n) : ∃ cost : Nat × Nat → Float, ∀ edge : Nat × Nat,
    edge.1 < n → edge.2 < n →
      d.read edge.1 edge.2 = .ok (cost edge) ∧ AdmissibleCost edge.1 edge.2 (cost edge) := by
  have readable (edge : Nat × Nat) (here : edge.1 < n) (there : edge.2 < n) := d.read_ok here there
  choose! cost entries using readable
  exact ⟨cost, entries⟩

/-- A tour through all cities is at least as long as any of its edges, and infinitely long only if the sum
of their costs overflows. -/
theorem length_of_visits (d : Distances n) (visits : tour.Perm (List.range n)) :
    ∃ (cost : Nat × Nat → Float) (length : Float), d.tourLength tour = .ok length ∧
      (∀ edge ∈ tour.edges, d.read edge.1 edge.2 = .ok (cost edge) ∧ (cost edge).isFinite ∧
        cost edge ≤ length) ∧
      (length = infinity ↔ SumOverflows (-0.0) (tour.edges.map cost)) := by
  obtain ⟨cost, entries⟩ := d.exists_cost
  have known := Tour.lt_of_visits visits
  have read : ∀ edge ∈ tour.edges, d.read edge.1 edge.2 = .ok (cost edge) ∧
      AdmissibleCost edge.1 edge.2 (cost edge) := by
    intro edge member
    obtain ⟨here, there⟩ := Tour.mem_of_mem_edges member
    exact entries edge (known _ here) (known _ there)
  have some_city : tour ≠ [] := by
    have two_le := d.two_le
    rintro rfl
    rw [← Tour.length_of_visits visits] at two_le
    exact absurd two_le (by decide)
  have costs : ∀ x ∈ tour.edges.map cost, 0.0 ≤ x ∧ x.isFinite := by
    intro x member
    obtain ⟨edge, travelled, rfl⟩ := List.mem_map.mp member
    obtain ⟨-, finite, nonneg, -⟩ := read edge travelled
    exact ⟨nonneg, finite⟩
  have bounds := (le_foldl_add (x := -0.0) (by decide) fun x member => (costs x member).1).2
  refine ⟨cost, _, d.tourLength_eq_foldl some_city fun edge member => (read edge member).1,
    fun edge member => ?_, foldl_add_eq_infinity_iff (by decide) (by decide) costs⟩
  obtain ⟨found, finite, -⟩ := read edge member
  exact ⟨found, finite, bounds _ (List.mem_map_of_mem member)⟩

/-- No cost of the first table is larger than that of the second in the same place. -/
def NoDearer (d d' : Distances n) : Prop :=
  ∀ i j cost cost', i < n → j < n → d.read i j = .ok cost → d'.read i j = .ok cost' → cost ≤ cost'

/-- A tour of known cities, whichever it repeats, does not get shorter if costs are raised. -/
theorem NoDearer.tourLength_le (raised : d.NoDearer d') (known : ∀ city ∈ tour, city < n) :
    ∃ length length', d.tourLength tour = .ok length ∧ d'.tourLength tour = .ok length' ∧
      length ≤ length' := by
  by_cases some_city : tour = []
  · subst some_city
    exact ⟨0.0, 0.0, rfl, rfl, by decide⟩
  · obtain ⟨cost, entries⟩ := d.exists_cost
    obtain ⟨cost', entries'⟩ := d'.exists_cost
    have inside : ∀ edge ∈ tour.edges, edge.1 < n ∧ edge.2 < n := by
      intro edge member
      obtain ⟨here, there⟩ := Tour.mem_of_mem_edges member
      exact ⟨known _ here, known _ there⟩
    have found : ∀ edge ∈ tour.edges, d.read edge.1 edge.2 = .ok (cost edge) :=
      fun edge member => (entries edge (inside edge member).1 (inside edge member).2).1
    have found' : ∀ edge ∈ tour.edges, d'.read edge.1 edge.2 = .ok (cost' edge) :=
      fun edge member => (entries' edge (inside edge member).1 (inside edge member).2).1
    refine ⟨_, _, d.tourLength_eq_foldl some_city found, d'.tourLength_eq_foldl some_city found', ?_⟩
    refine foldl_add_mono (by decide) (by decide) ?_
    rw [List.forall₂_map_left_iff, List.forall₂_map_right_iff, List.forall₂_same]
    intro edge member
    obtain ⟨here, there⟩ := inside edge member
    obtain ⟨-, -, nonneg, -⟩ := entries edge here there
    exact ⟨nonneg, raised _ _ _ _ here there (found edge member) (found' edge member)⟩

/-- The length of a tour through all cities is a positive number, at least the cost of each edge, and it is
infinite exactly when the sum of these finite costs overflows on the way. If no cost is larger in one table
than in another, no tour of known cities is longer there. -/
theorem tourLength_positive_and_monotone (d : Distances n) :
    (∀ tour : Tour, tour.Perm (List.range n) → ∃ (cost : Nat × Nat → Float) (length : Float),
      d.tourLength tour = .ok length ∧ ¬length.isNaN ∧ 0.0 < length ∧
      (∀ edge ∈ tour.edges, d.read edge.1 edge.2 = .ok (cost edge) ∧ (cost edge).isFinite ∧
        cost edge ≤ length) ∧
      (¬length.isFinite ↔ SumOverflows (-0.0) (tour.edges.map cost))) ∧
    ∀ d' : Distances n, d.NoDearer d' → ∀ tour : Tour, (∀ city ∈ tour, city < n) →
      ∃ length length', d.tourLength tour = .ok length ∧ d'.tourLength tour = .ok length' ∧
        length ≤ length' := by
  refine ⟨fun tour visits => ?_, fun d' raised tour known => raised.tourLength_le known⟩
  obtain ⟨cost, length, measured, edges, overflows⟩ := d.length_of_visits visits
  obtain ⟨same, measured', positive⟩ := d.tourLength_pos visits
  obtain rfl : length = same := Except.ok.inj (measured.symm.trans measured')
  refine ⟨cost, length, measured, (lt_iff.mp positive).2.1, positive, edges, ?_⟩
  rw [← overflows]
  constructor
  · exact (isFinite_or_eq_infinity (le_of_lt positive)).resolve_left
  · rintro rfl
    decide

end Metaheuristics.Distances

/-!
# Tours

A tour is a list of cities in the order of visiting. It is closed: from its last city it goes back
to its first.
-/

namespace Metaheuristics

/-- Cities in the order of visiting. -/
abbrev Tour : Type := List Nat

/-- The edges of a closed tour, one for each of its cities: from every city to the one visited
next, and from the last to the first. -/
def Tour.edges (tour : Tour) : List (Nat × Nat) :=
  tour.zip (tour.drop 1 ++ tour.take 1)

/-- A closed tour has as many edges as cities. -/
theorem Tour.length_edges (tour : Tour) : tour.edges.length = tour.length := by
  cases tour <;> simp [Tour.edges]

end Metaheuristics

import Metaheuristics.Colony.Basic
import Metaheuristics.Proofs.Roulette
import Metaheuristics.Proofs.Tour

/-!
# The tours of ants

An ant always completes its tour, and the tour visits every city once (`tour_yields`, `Toured.perm`),
under any parameters, trails and words. The invariant of its walk is that the cities left are the ones
it has not visited: each move takes one of them away, and the walk has as many moves as there are
(`Walked`). In no move does anything fail on the way: all cities are known, the wheel can be turned, and
it lands on a city (`Moved`).

An ant only ever weighs moves to cities that it is not in. Two colonies in which those are weighed alike
have the same tours (`WeighAlike`, `tour_congr`).
-/

namespace Metaheuristics.Colony

variable {n : Nat} {σ : Type} [WordSource σ]

/-! ## What an ant meets with -/

variable (σ) in
/-- A move from city `current` to one of the cities `left`. -/
structure Moved (c : Colony n) (current : Nat) (left : List Nat) (city : Nat) : Prop where
  here : current < n
  known : ∀ x ∈ left, x < n
  member : city ∈ left
  /-- All cities left are weighed, and the wheel lands on the city without fail. -/
  spun : ∃ options, c.options current left = .ok options ∧ options.map Prod.fst = left ∧
    Roulette.Fair options (Roulette.spin options : Draw σ (Option Nat)) ∧
    ∃ s t : σ, Roulette.spin options s = .ok (some city, t)

variable (σ) in
/-- A walk from city `current` through the cities `left`, one move after another. -/
inductive Walked (c : Colony n) : Nat → List Nat → Tour → Prop
  | home {current : Nat} : current < n → Walked c current [] []
  | move {current city : Nat} {left : List Nat} {rest : Tour} : Moved σ c current left city →
      Walked c city (left.erase city) rest → Walked c current left (city :: rest)

variable (σ) in
/-- A tour of an ant, from a city drawn among at least two through all the others. -/
structure Toured (c : Colony n) (tour : Tour) : Prop where
  cities : 2 ≤ n
  path : ∃ start rest, tour = start :: rest ∧ start < n ∧
    (∃ s t : σ, Draw.index n s = .ok (start, t)) ∧
    Walked σ c start ((List.range n).erase start) rest

/-- A walk visits the cities that are left, each of them once. -/
theorem Walked.perm {c : Colony n} {current : Nat} {left : List Nat} {visited : Tour}
    (walked : Walked σ c current left visited) : visited.Perm left := by
  induction walked with
  | home here => exact .nil
  | move moved later ih =>
      exact (ih.cons _).trans (List.perm_cons_erase moved.member).symm

/-- A tour visits every city once. -/
theorem Toured.perm {c : Colony n} {tour : Tour} (toured : Toured σ c tour) :
    tour.Perm (List.range n) := by
  obtain ⟨start, rest, rfl, below, -, walked⟩ := toured.path
  exact (walked.perm.cons start).trans (List.perm_cons_erase (List.mem_range.mpr below)).symm

/-! ## What an ant does -/

/-- From a known city, all moves to known cities are weighed. -/
theorem options_ok (c : Colony n) {current : Nat} {left : List Nat} (here : current < n)
    (known : ∀ city ∈ left, city < n) :
    ∃ options, c.options current left = .ok options ∧ options.map Prod.fst = left := by
  induction left with
  | nil => exact ⟨[], rfl, rfl⟩
  | cons city left ih =>
      obtain ⟨options, weighed, cities⟩ := ih fun x hx => known x (List.mem_cons_of_mem city hx)
      have place := SquareTable.place_lt here (known city List.mem_cons_self)
      refine ⟨(city, c.config.desirability c.power c.trails.cells[current * n + city]
        c.distances.cells[current * n + city]) :: options, ?_, by rw [List.map_cons, cities]⟩
      rw [Colony.options] at weighed ⊢
      rw [List.mapM_cons, weighed, c.trails.read_of_lt place, c.distances.read_of_lt place]
      rfl

/-- A step leads to a city that is left. -/
theorem step_yields (c : Colony n) {current : Nat} {left : List Nat} (here : current < n)
    (known : ∀ city ∈ left, city < n) (some_left : left ≠ []) :
    Draw.Yields (c.step current left : Draw σ Nat) (Moved σ c current left) := by
  obtain ⟨options, weighed, cities⟩ := c.options_ok here known
  have some_option : options ≠ [] := by
    intro none
    rw [none] at cities
    exact some_left cities.symm
  unfold step
  rw [weighed]
  have given : ∃ given, Except.ok (ε := Fault) options = .ok given ∧ given = options :=
    ⟨options, rfl, rfl⟩
  refine (Draw.Yields.lift given).bind fun given same => ?_
  subst same
  refine (Roulette.spin_yields some_option).traced.bind fun choice ⟨chosen, s, t, spun⟩ => ?_
  obtain ⟨city, rfl, member⟩ := chosen
  rw [cities] at member
  exact .pure ⟨here, known, member, _, weighed, cities, Roulette.spin_fair some_option, s, t, spun⟩

theorem walk_yields (c : Colony n) {moves current : Nat} {left : List Nat} (here : current < n)
    (known : ∀ city ∈ left, city < n) (enough : left.length = moves) :
    Draw.Yields (c.walk moves current left : Draw σ Tour) (Walked σ c current left) := by
  induction moves generalizing current left with
  | zero =>
      obtain rfl := List.eq_nil_of_length_eq_zero enough
      exact .pure (.home here)
  | succ moves ih =>
      have some_left : left ≠ [] := List.ne_nil_of_length_eq_add_one enough
      refine (c.step_yields here known some_left).bind fun city moved => ?_
      have fewer : (left.erase city).length = moves := by
        rw [List.length_erase_of_mem moved.member, enough]
        rfl
      have still_known : ∀ x ∈ left.erase city, x < n :=
        fun x hx => known x (List.mem_of_mem_erase hx)
      refine (ih (known city moved.member) still_known fewer).bind fun rest later => .pure ?_
      exact .move moved later

/-- An ant completes its tour. -/
theorem tour_yields (c : Colony n) : Draw.Yields (c.tour : Draw σ Tour) (Toured σ c) := by
  have positive : 0 < n := Nat.lt_of_lt_of_le (by decide) c.distances.two_le
  unfold tour
  refine (Draw.index_yields positive).traced.bind fun start ⟨below, drawn⟩ => ?_
  have member : start ∈ List.range n := List.mem_range.mpr below
  have known : ∀ city ∈ (List.range n).erase start, city < n :=
    fun city h => List.mem_range.mp (List.mem_of_mem_erase h)
  have enough : ((List.range n).erase start).length = n - 1 := by
    rw [List.length_erase_of_mem member, List.length_range]
  refine (c.walk_yields below known enough).bind fun rest walked => .pure ?_
  exact ⟨c.distances.two_le, start, rest, rfl, below, drawn, walked⟩

/-! ## Two colonies -/

/-- The ants of two colonies weigh the moves from a city to others alike. -/
def WeighAlike (c c' : Colony n) : Prop :=
  ∀ {current : Nat} {left : List Nat}, current < n → (∀ city ∈ left, city < n) →
    current ∉ left → c.options current left = c'.options current left

variable {c c' : Colony n}

/-- An ant is never in one of the cities that it has left, so it takes the same way in both colonies. -/
theorem walk_congr (weighed : WeighAlike c c') {moves current : Nat} {left : List Nat}
    (here : current < n) (known : ∀ city ∈ left, city < n) (once : left.Nodup)
    (away : current ∉ left) (enough : left.length = moves) :
    (c.walk moves current left : Draw σ Tour) = c'.walk moves current left := by
  induction moves generalizing current left with
  | zero => rfl
  | succ moves ih =>
      have same : (c.step current left : Draw σ Nat) = c'.step current left := by
        rw [step, step, weighed here known away]
      have some_left : left ≠ [] := List.ne_nil_of_length_eq_add_one enough
      rw [walk, walk, ← same]
      refine (c.step_yields here known some_left).bind_congr fun city moved => ?_
      have fewer : (left.erase city).length = moves := by
        rw [List.length_erase_of_mem moved.member, enough]
        rfl
      rw [ih (known city moved.member) (fun x hx => known x (List.mem_of_mem_erase hx))
        (once.erase city) once.not_mem_erase fewer]

theorem tour_congr (weighed : WeighAlike c c') : (c.tour : Draw σ Tour) = c'.tour := by
  have positive : 0 < n := Nat.lt_of_lt_of_le (by decide) c.distances.two_le
  unfold tour
  refine (Draw.index_yields positive).bind_congr fun start below => ?_
  have once : (List.range n).Nodup := List.nodup_range
  have enough : ((List.range n).erase start).length = n - 1 := by
    rw [List.length_erase_of_mem (List.mem_range.mpr below), List.length_range]
  rw [walk_congr weighed below (fun x hx => List.mem_range.mp (List.mem_of_mem_erase hx))
    (once.erase start) once.not_mem_erase enough]

end Metaheuristics.Colony

import Metaheuristics.Proofs.Colony.Tours
import Metaheuristics.Proofs.Roulette.Landing

/-!
# How an ant chooses

An ant chooses among the cities that it has left by turning the roulette wheel once (`step_eq_spin`).
Whatever the weights are, as long as they are not negative, the choice is exact (`Exact`,
`step_is_exact`): the city is the first one at which the partial sums reach the number that was rolled,
and the wheel never gets past the last city. The sums that decide may be taken over all cities, of which
the ones visited weigh nothing.
-/

namespace Metaheuristics.Colony

open Binary64 Roulette

variable {n : Nat} {σ : Type} [WordSource σ] {current : Nat} {left : List Nat}
  {options : List (Nat × Float)}

/-- A step is one turn of the wheel. -/
theorem step_eq_spin {c : Colony n} (weighed : c.options current left = .ok options) :
    (c.step current left : Draw σ Nat) = (fun choice => choice.getD current) <$> spin options := by
  unfold step
  rw [weighed]
  rfl

theorem step_of_spin {c : Colony n} {city : Nat} (weighed : c.options current left = .ok options)
    (spun : (spin options : Draw σ (Option Nat)) = pure (some city)) :
    (c.step current left : Draw σ Nat) = pure city := by
  rw [step_eq_spin weighed, spun, map_pure]
  rfl

/-! ## Exact choices -/

/-- A choice among weighted options, some of `n` cities, that is as exact as sums of doubles are. Its
parts speak of the options as they are rolled for, which are divided by the largest weight if the weights
overflow only together. -/
structure Exact (n : Nat) (options : List (Nat × Float)) (choice : Draw σ Nat) : Prop where
  /-- There are three ways to a city, and the total tells which. -/
  ways : (0.0 < total (rolled options) ∧ (total (rolled options)).isFinite) ∨
    total (rolled options) = infinity ∨
    total (rolled options) = 0.0 ∨ (total (rolled options)).isNaN
  /-- Below a positive finite total one word is drawn. It stands for a fraction of the total, and the city
  is the first one at which the partial sums reach it. -/
  rolls : 0.0 < total (rolled options) → (total (rolled options)).isFinite →
    Draw.Reads choice fun word count city => count = 1 ∧
      0.0 ≤ Interval.fraction (word 0) ∧ Interval.fraction (word 0) < 1.0 ∧
      ∃ k, Reached (rolled options) (Interval.fraction (word 0) * total (rolled options)) k ∧
        (options.map Prod.fst)[k]? = some city
  /-- Every fraction of such a total is reached somewhere. -/
  reaches : 0.0 < total (rolled options) → (total (rolled options)).isFinite →
    ∀ v : Float, 0.0 ≤ v → v < 1.0 →
      ∃ k, Reached (rolled options) (v * total (rolled options)) k
  /-- A larger fraction is not reached earlier. -/
  later : 0.0 < total (rolled options) → (total (rolled options)).isFinite →
    ∀ (v v' : Float) (k k' : Nat), 0.0 ≤ v → v ≤ v' → v' < 1.0 →
      Reached (rolled options) (v * total (rolled options)) k →
      Reached (rolled options) (v' * total (rolled options)) k' → k ≤ k'
  /-- Weights that are divided have a total between one and the number of cities. -/
  divided : Overflows options → (total (rolled options)).isFinite ∧
    1 ≤ toRat (total (rolled options)) ∧ toRat (total (rolled options)) ≤ n
  /-- At an infinite total, the first city of infinite weight is chosen without drawing. -/
  outright : total (rolled options) = infinity →
    ∃ city, FirstInfinite options city ∧ choice = pure city
  /-- At a total that is zero or a NaN, the last city is chosen without drawing. -/
  fallback : total (rolled options) = 0.0 ∨ (total (rolled options)).isNaN →
    ∃ city, (options.map Prod.fst).getLast? = some city ∧ choice = pure city
  /-- Totals and the largest weight may be taken over all cities, of which the others weigh nothing. -/
  padded : (table (List.range n) options).foldl (fun sum weight => sum + weight) 0.0 = total options ∧
    (table (List.range n) options).foldl larger 0.0 = heaviest options ∧
    (Overflows options → ((table (List.range n) options).map fun weight =>
      weight / heaviest options).foldl (fun sum weight => sum + weight) 0.0 = total (rolled options))

/-- Every choice of an ant among cities that it has left is exact, if their weights are not negative. -/
theorem step_is_exact (c : Colony n) (few : n < 2 ^ 53) (here : current < n)
    (unvisited : left.Sublist (List.range n)) (some_left : left ≠ []) :
    ∃ options, c.options current left = .ok options ∧ options.map Prod.fst = left ∧
      (Weights options → Exact n options (c.step current left : Draw σ Nat)) := by
  have known : ∀ city ∈ left, city < n := fun city h => List.mem_range.mp (unvisited.subset h)
  obtain ⟨options, weighed, cities⟩ := c.options_ok here known
  refine ⟨options, weighed, cities, fun weights => ?_⟩
  have some_option : rolled options ≠ [] := by
    intro none
    have cities' := map_fst_rolled options
    rw [none, cities] at cities'
    exact some_left cities'.symm
  have length : options.length ≤ n := by
    rw [← List.length_map (f := Prod.fst), cities, ← List.length_range (n := n)]
    exact unvisited.length_le
  have rolled_weights := weights.rolled
  constructor
  case ways => exact total_cases rolled_weights
  case rolls =>
    intro positive finite
    rw [step_eq_spin weighed]
    refine .map ((spin_reads positive finite).imp ?_)
    rintro word count choice ⟨one, k, reached, rfl⟩
    refine ⟨one, Interval.zero_le_fraction _, Interval.fraction_lt_one _, k, reached, ?_⟩
    have inside : k < (options.map Prod.fst).length := by
      rw [← map_fst_rolled, List.length_map]
      exact reached.inside
    rw [List.getElem?_eq_getElem inside]
    rfl
  case reaches =>
    intro positive finite v nonneg below
    obtain ⟨k, reached, -⟩ := exists_reached some_option
      (mul_le_of_le_one nonneg (le_of_lt below) (le_of_lt positive) finite)
    exact ⟨k, reached⟩
  case later =>
    intro positive finite v v' k k' nonneg le below reached reached'
    have finite_v' := isFinite_of_le (le_trans nonneg le) (le_of_lt below) (by decide)
    exact reached.mono reached' (mul_mono nonneg le finite_v' (le_of_lt positive) finite)
  case divided =>
    intro overflow
    obtain ⟨finite, above, bound⟩ := overflow.total_mem weights (by omega)
    rw [rolled, if_pos overflow]
    exact ⟨finite, above, bound.trans (by exact_mod_cast length)⟩
  case outright =>
    intro top
    obtain ⟨top, option, member, infinite⟩ :=
      (total_rolled_eq_infinity_iff weights (by omega)).mp top
    obtain ⟨city, first, spun⟩ := spin_of_infinite (σ := σ) top member infinite
    exact ⟨city, first, step_of_spin weighed spun⟩
  case fallback =>
    intro nothing
    rw [cities]
    refine ⟨_, List.getLast?_eq_some_getLast some_left, step_of_spin weighed ?_⟩
    rw [spin_of_nothing nothing, cities, List.getLast?_eq_some_getLast some_left]
  case padded =>
    have entries : Padded options (table (List.range n) options) := by
      rw [← cities] at unvisited
      exact padded_table List.nodup_range unvisited
    refine ⟨entries.total .zero weights, entries.heaviest (by decide), fun overflow => ?_⟩
    obtain ⟨positive, finite⟩ := overflow.heaviest_mem
    rw [rolled, if_pos overflow] at rolled_weights ⊢
    exact (entries.divided positive finite).total .zero rolled_weights

/-- First powers, and squares for the exponent two. -/
def square (x exponent : Float) : Float := if exponent == 2.0 then x * x else x

/-- The two to the power -511 that the cities of a huddle are apart. -/
def whisker : Float := Float.ofBits 0x2000000000000000

/-- A colony between three cities so close together that two of them have weights that overflow
together. -/
def huddle : Colony 3 where
  config := { initialTrail := 2.0 }
  distances := .ofValidRows [[0.0, whisker, whisker], [whisker, 0.0, whisker], [whisker, whisker, 0.0]]
    (Distances.defect?_eq_none_iff.mp rfl)
  trails := .uniform 3 2.0
  valid := Config.defect?_eq_none_iff.mp rfl
  power := square

/-- The choice between these two is exact. -/
theorem huddle_step_is_exact : ∃ options, huddle.options 0 [1, 2] = .ok options ∧
    Weights options ∧ Overflows options ∧
    Exact 3 options (huddle.step 0 [1, 2] : Draw Script Nat) := by
  obtain ⟨options, weighed, -, exact_choice⟩ := step_is_exact (σ := Script) huddle (by decide)
    (show 0 < 3 by decide) (show [1, 2].Sublist (List.range 3) by decide) (by decide)
  have two_to_1023 : huddle.options 0 [1, 2] =
      .ok [(1, Float.ofBits 0x7fe0000000000000), (2, Float.ofBits 0x7fe0000000000000)] := by rfl
  rw [two_to_1023] at weighed
  cases weighed
  have weights : Weights
      [(1, Float.ofBits 0x7fe0000000000000), (2, Float.ofBits 0x7fe0000000000000)] := by
    intro option member
    simp only [List.mem_cons, List.not_mem_nil, or_false] at member
    rcases member with rfl | rfl <;> exact .inl (by decide)
  exact ⟨_, two_to_1023, weights, by decide, exact_choice weights⟩

end Metaheuristics.Colony

import Metaheuristics.Proofs.Colony.Choice
import Metaheuristics.Proofs.Colony.Strength
import Metaheuristics.Proofs.Deposits

/-!
# Weights that overflow

An infinite weight wins outright unless another weight is a NaN (`step_of_infinite`). A weight is a NaN
where the power of the trail overflows and that of the closeness vanishes, or the other way round; then so
is the total, and the ant goes to the last city (`step_of_nan`), also if it has left a city of infinite
weight (`torn_passes_infinite`). That holds of any colony that was new once, however often it has been run
(`infinite_weight_wins`): its trails are positive, so no weight is negative (`Iterations.weigh`).
-/

namespace Metaheuristics.Colony

open Binary64 Roulette

variable {n : Nat} {σ : Type} [WordSource σ] {current : Nat} {left : List Nat}
  {options : List (Nat × Float)}

/-! ## Turning the wheel -/

/-- Without a NaN among them, weights of which one is infinite have an infinite total, and the first
infinite one wins. -/
theorem step_of_infinite {c : Colony n} (weighed : c.options current left = .ok options)
    (weights : Weights options) (numbers : ∀ option ∈ options, ¬option.2.isNaN)
    {option : Nat × Float} (member : option ∈ options) (infinite : option.2 = infinity) :
    ∃ city, FirstInfinite options city ∧ (c.step current left : Draw σ Nat) = pure city := by
  have nonneg : ∀ option ∈ options, 0.0 ≤ option.2 :=
    fun option h => (weights option h).resolve_right (numbers option h)
  have top := total_eq_infinity nonneg member infinite
  obtain ⟨city, first, spun⟩ := spin_of_infinite (σ := σ) top member infinite
  exact ⟨city, first, step_of_spin weighed spun⟩

/-- With a NaN among the weights, the last city is chosen, also if another weight is infinite. -/
theorem step_of_nan {c : Colony n} (weighed : c.options current left = .ok options)
    {option : Nat × Float} (member : option ∈ options) (nan : option.2.isNaN) :
    ∃ city, (options.map Prod.fst).getLast? = some city ∧
      (c.step current left : Draw σ Nat) = pure city := by
  have total_nan : (total options).isNaN := isNaN_totalFrom_of_mem member nan
  have alone : ¬Overflows options := fun overflow => overflow.number total_nan
  have some_city : options.map Prod.fst ≠ [] := List.ne_nil_of_mem (List.mem_map_of_mem member)
  refine ⟨_, List.getLast?_eq_some_getLast some_city, step_of_spin weighed ?_⟩
  rw [spin_of_nothing, List.getLast?_eq_some_getLast some_city]
  rw [rolled, if_neg alone]
  exact .inr total_nan

/-! ## Colonies at work -/

/-- Positive numbers, infinity included, are raised to powers that are not negative. -/
def PositivePower (power : Float → Float → Float) : Prop :=
  ∀ x exponent : Float, 0.0 < x → exponent.isFinite → 0.0 ≤ exponent → 0.0 ≤ power x exponent

/-- An option stands for the desirability of an edge of the tables. -/
theorem exists_desirability {c : Colony n} (weighed : c.options current left = .ok options) :
    ∀ option ∈ options, option.1 ∈ left ∧ ∃ trail cost,
      c.trails.read current option.1 = .ok trail ∧ c.distances.read current option.1 = .ok cost ∧
      option.2 = c.config.desirability c.power trail cost := by
  intro option member
  obtain ⟨city, open_city, read⟩ := exists_of_mem_mapM weighed option member
  obtain ⟨trail, strong, read⟩ := exists_of_bind_eq_ok read
  obtain ⟨cost, long, read⟩ := exists_of_bind_eq_ok read
  cases read
  exact ⟨open_city, trail, cost, strong, long, rfl⟩

/-- Over positive trails no weight is negative. -/
theorem weights_of_positive {c : Colony n} (power : PositivePower c.power)
    (positive : ∀ x ∈ c.trails.toList, 0.0 < x) (here : current < n)
    (known : ∀ city ∈ left, city < n) (away : current ∉ left)
    (weighed : c.options current left = .ok options) : Weights options := by
  intro option member
  obtain ⟨open_city, trail, cost, strong, long, weight⟩ := exists_desirability weighed option member
  have place := SquareTable.place_lt here (known option.1 open_city)
  have above : 0.0 < trail := by
    rw [c.trails.read_of_lt place, Except.ok.injEq] at strong
    exact strong ▸ positive _ (c.trails.getElem_mem_toList place)
  have close : 0.0 < 1.0 / cost := by
    obtain ⟨read, found, finite, -, same | apart⟩ :=
      c.distances.read_ok here (known option.1 open_city)
    · exact absurd (same ▸ open_city) away
    · rw [found, Except.ok.injEq] at long
      exact long ▸ zero_lt_one_div apart finite
  obtain ⟨finite_alpha, nonneg_alpha⟩ := c.valid.alpha
  obtain ⟨finite_beta, nonneg_beta⟩ := c.valid.beta
  rw [weight]
  exact notNegative_mul (power trail _ above finite_alpha nonneg_alpha)
    (power _ _ close finite_beta nonneg_beta)

/-- Iterations change nothing of a colony but its trails. -/
theorem Iterations.frame {c c' : Colony n} {batches : List (List Trip)}
    (through : Iterations σ c batches c') : ∃ trails, c' = { c with trails } := by
  induction through with
  | @none c => exact ⟨c.trails, rfl⟩
  | more iterated rest ih => exact ih

/-- And they leave positive trails positive. -/
theorem Iterations.positive {c c' : Colony n} {batches : List (List Trip)}
    (through : Iterations σ c batches c') (positive : ∀ x ∈ c.trails.toList, 0.0 < x) :
    ∀ x ∈ c'.trails.toList, 0.0 < x := by
  rcases through.atLeast with ⟨-, rfl⟩ | strong
  · exact positive
  · exact fun x member => ((strong.positive (by decide)).1 x member).1

/-- Hence the cities left to an ant of a colony that was new once are weighed, and no weight is negative. -/
theorem Iterations.weigh {c c' : Colony n} {batches : List (List Trip)}
    (through : Iterations σ c batches c') (new : c.trails = .uniform n c.config.initialTrail)
    (power : PositivePower c.power) (here : current < n) (known : ∀ city ∈ left, city < n)
    (away : current ∉ left) :
    ∃ options, c'.options current left = .ok options ∧ options.map Prod.fst = left ∧
      Weights options := by
  have initial : ∀ x ∈ c.trails.toList, 0.0 < x := by
    intro x member
    rw [new] at member
    rw [Trails.eq_of_mem_uniform member]
    exact c.valid.initialTrail.2
  have power' : PositivePower c'.power := by
    obtain ⟨trails, rfl⟩ := through.frame
    exact power
  obtain ⟨options, weighed, cities⟩ := c'.options_ok here known
  exact ⟨options, weighed, cities,
    weights_of_positive power' (through.positive initial) here known away weighed⟩

/-- However often a new colony is run and however the runs are stopped, its ants go from wherever they
are to the first city left to them of infinite weight, without drawing, if there is one and no weight is
a NaN. If one is, they go to the last city. -/
theorem infinite_weight_wins {c : Colony n} (new : c.trails = .uniform n c.config.initialTrail)
    (power : PositivePower c.power) (stops : List (Nat → σ → Bool)) (s : σ) :
    (¬c.config.Fits ∧ stops ≠ [] ∧ ∃ count bytes, runs stops c s = .error (.noRoom count bytes)) ∨
      ∃ results c' t, runs stops c s = .ok ((results, c'), t) ∧ results.length = stops.length ∧
        ∀ (current : Nat) (left : List Nat), current < n → left.Sublist (List.range n) →
          current ∉ left → ∃ options, c'.options current left = .ok options ∧
            options.map Prod.fst = left ∧ Weights options ∧
            ((∀ option ∈ options, ¬option.2.isNaN) → ∀ option ∈ options, option.2 = infinity →
              ∃ city, FirstInfinite options city ∧
                (c'.step current left : Draw σ Nat) = pure city) ∧
            (∀ option ∈ options, option.2.isNaN →
              ∃ city, left.getLast? = some city ∧
                (c'.step current left : Draw σ Nat) = pure city) := by
  rcases c.runs_cases stops s with refused | ⟨js, c', t, -, ran, count, sequel⟩
  · exact .inl refused
  · refine .inr ⟨js.map Journal.result, c', t, ran, by rw [List.length_map, count], ?_⟩
    intro current left here unvisited away
    obtain ⟨options, weighed, cities, weights⟩ := sequel.iterations.weigh new power here
      (fun city h => List.mem_range.mp (unvisited.subset h)) away
    refine ⟨options, weighed, cities, weights, fun numbers option member infinite => ?_,
      fun option member nan => ?_⟩
    · exact step_of_infinite weighed weights numbers member infinite
    · obtain ⟨city, last, stepped⟩ := step_of_nan (σ := σ) weighed member nan
      rw [cities] at last
      exact ⟨city, last, stepped⟩

theorem square_positive : PositivePower square := by
  intro x exponent positive _ _
  unfold square
  split
  · rcases isFinite_or_eq_infinity (le_of_lt positive) with finite | rfl
    · exact zero_le_mul (le_of_lt positive) finite (le_of_lt positive) finite
    · decide
  · exact le_of_lt positive

/-- The two to the power -600 that two pairs of cities are apart. -/
def hair : Float := Float.ofBits 0x1a70000000000000

/-- A new colony in which the ways from the first city to the last two are so short that both weights are
infinite. -/
def pinched : Colony 4 where
  config := {}
  distances := .ofValidRows
    [[0.0, 1.0, hair, hair], [1.0, 0.0, 1.0, 1.0], [hair, 1.0, 0.0, 1.0], [hair, 1.0, 1.0, 0.0]]
    (Distances.defect?_eq_none_iff.mp rfl)
  trails := .uniform 4 1.0
  valid := Config.defect?_eq_none_iff.mp rfl
  power := square

/-- After a run that was cancelled at once, an ant in the first city goes to the first of the two. -/
theorem pinched_goes_to_first_infinite : pinched.trails = .uniform 4 pinched.config.initialTrail ∧
    PositivePower pinched.power ∧ ∃ results c' t options,
      runs [fun _ _ => true] pinched (⟨#[0], 0⟩ : Script) = .ok ((results, c'), t) ∧
      c'.options 0 [1, 2, 3] = .ok options ∧ (∀ option ∈ options, ¬option.2.isNaN) ∧
      (∃ option ∈ options, option.2 = infinity) ∧
      ∃ city, FirstInfinite options city ∧ (c'.step 0 [1, 2, 3] : Draw Script Nat) = pure city := by
  have fits : pinched.config.Fits := ⟨by decide, by decide⟩
  have cancelled : runs [fun _ _ => true] pinched (⟨#[0], 0⟩ : Script) =
      .ok (([{ Result.empty with cancelled := true }], pinched), ⟨#[0], 0⟩) := by rfl
  have read : pinched.options 0 [1, 2, 3] = .ok [(1, 1.0), (2, infinity), (3, infinity)] := by rfl
  refine ⟨rfl, square_positive, ?_⟩
  rcases infinite_weight_wins (c := pinched) rfl square_positive [fun _ _ => true] (⟨#[0], 0⟩ : Script) with
    refused | ⟨results, c', t, ran, -, wins⟩
  · exact absurd fits refused.1
  · rw [cancelled] at ran
    cases ran
    obtain ⟨options, weighed, -, -, outright, -⟩ :=
      wins 0 [1, 2, 3] (by decide) (by decide) (by decide)
    rw [read] at weighed
    cases weighed
    have numbers : ∀ option ∈ [(1, 1.0), (2, infinity), (3, infinity)], ¬option.2.isNaN := by
      decide
    have infinite : (2, infinity) ∈ [(1, 1.0), (2, infinity), (3, infinity)] :=
      List.mem_cons_of_mem _ List.mem_cons_self
    exact ⟨_, _, _, _, cancelled, read, numbers, ⟨_, infinite, rfl⟩,
      outright numbers _ infinite rfl⟩

/-- Two to the power 538. -/
def span : Float := Float.ofBits 0x6190000000000000

/-- A new colony whose trails have infinite powers, and in which the way from the first city to the last
is so long that the power of its inverse vanishes. -/
def torn : Colony 3 where
  config := { alpha := 2.0, beta := 2.0, initialTrail := span }
  distances := .ofValidRows [[0.0, 1.0, span], [1.0, 0.0, 1.0], [1.0, 1.0, 0.0]]
    (Distances.defect?_eq_none_iff.mp rfl)
  trails := .uniform 3 span
  valid := Config.defect?_eq_none_iff.mp rfl
  power := square

/-- An ant in the first city passes the second one, whose weight is infinite, since the weight of the
last one is a NaN. -/
theorem torn_passes_infinite : torn.trails = .uniform 3 torn.config.initialTrail ∧
    PositivePower torn.power ∧ ∃ options, torn.options 0 [1, 2] = .ok options ∧
      FirstInfinite options 1 ∧ (torn.step 0 [1, 2] : Draw Script Nat) = pure 2 := by
  have read : torn.options 0 [1, 2] = .ok [(1, square span 2.0 * square (1.0 / 1.0) 2.0),
      (2, square span 2.0 * square (1.0 / span) 2.0)] := by rfl
  have overflow : square span 2.0 * square (1.0 / 1.0) 2.0 = infinity := by decide +kernel
  have nan : (square span 2.0 * square (1.0 / span) 2.0).isNaN := by decide +kernel
  rw [overflow] at read
  refine ⟨rfl, square_positive, _, read, ⟨[], _, rfl, nofun⟩, ?_⟩
  obtain ⟨city, last, stepped⟩ :=
    step_of_nan (σ := Script) read (List.mem_cons_of_mem _ List.mem_cons_self) nan
  cases last
  exact stepped

end Metaheuristics.Colony

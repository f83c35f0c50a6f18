import Metaheuristics.Proofs.Random.Fractions
import Metaheuristics.Proofs.Random.Words
import Metaheuristics.Proofs.Roulette.Totals

/-!
# Where the roulette wheel lands

The wheel is exact: it lands on the first option at which the partial sums reach the number that was
rolled (`Reached`), and there is such an option for every number up to the total (`exists_reached`), so
that the way out after the last option is never taken (`turn_reads`). A larger number is not reached
earlier (`Reached.mono`). Which of its ways the wheel goes depends on the total of the weights, divided
beforehand if they overflow only together (`rolled`):

* below a positive finite total a number is rolled with one word (`spin_reads`);
* at an infinite total the first infinite weight wins (`spin_of_infinite`);
* at a total that is zero or a NaN the last option is chosen (`spin_of_nothing`).

There is no other case (`total_cases`).
-/

namespace Metaheuristics.Roulette

open Binary64

variable {ι σ : Type} [WordSource σ] {options : List (ι × Float)} {roll x : Float}

/-! ## The first option reached -/

/-- A roll is reached at option number `k`: by the sum of the weights up to there, and by no shorter
sum. -/
structure Reached (options : List (ι × Float)) (roll : Float) (k : Nat) : Prop where
  inside : k < options.length
  reached : roll ≤ total (options.take (k + 1))
  first : ∀ j < k, ¬roll ≤ total (options.take (j + 1))

/-- A larger roll is not reached earlier. -/
theorem Reached.mono {roll' : Float} {k k' : Nat} (h : Reached options roll k)
    (h' : Reached options roll' k') (le : roll ≤ roll') : k ≤ k' :=
  Nat.le_of_not_lt fun earlier => h.first k' earlier (le_trans le h'.reached)

/-- Whichever zero is added to a roll, it is reached at the same option. -/
theorem reached_add_zero {k : Nat} : Reached options (roll + 0.0) k ↔ Reached options roll k := by
  constructor
  · rintro ⟨inside, reached, first⟩
    exact ⟨inside, add_zero_le_iff.mp reached, fun j less => mt add_zero_le_iff.mpr (first j less)⟩
  · rintro ⟨inside, reached, first⟩
    exact ⟨inside, add_zero_le_iff.mpr reached, fun j less => mt add_zero_le_iff.mp (first j less)⟩

/-- A roll that the sum of all weights reaches is first reached at one of the options. -/
theorem reach?_of_le (some_option : options ≠ []) (enough : roll ≤ totalFrom x options) :
    ∃ k < options.length, roll ≤ totalFrom x (options.take (k + 1)) ∧
      (∀ j < k, ¬roll ≤ totalFrom x (options.take (j + 1))) ∧
      reach? roll x options = options[k]?.map Prod.fst := by
  induction options generalizing x with
  | nil => exact absurd rfl some_option
  | cons option options ih =>
      by_cases now : roll ≤ x + option.2
      · exact ⟨0, Nat.succ_pos _, now, nofun, if_pos now⟩
      · have later : options ≠ [] := by
          rintro rfl
          exact now enough
        obtain ⟨k, inside, reached, first, found⟩ := ih later enough
        refine ⟨k + 1, Nat.succ_lt_succ inside, reached, ?_, (if_neg now).trans found⟩
        intro j less
        cases j with
        | zero => exact now
        | succ j => exact first j (Nat.lt_of_succ_lt_succ less)

theorem exists_reached (some_option : options ≠ []) (enough : roll ≤ total options) :
    ∃ k, Reached options roll k ∧ reach? roll 0.0 options = options[k]?.map Prod.fst := by
  obtain ⟨k, inside, reached, first, found⟩ := reach?_of_le some_option enough
  exact ⟨k, ⟨inside, reached, first⟩, found⟩

/-! ## Turning the wheel -/

/-- Below a positive finite total one word is drawn, and the option at which the fraction of the total
that it stands for is reached is chosen. -/
theorem turn_reads (positive : 0.0 < total options) (finite : (total options).isFinite) :
    Draw.Reads (turn options : Draw σ (Option ι)) fun word count choice => count = 1 ∧
      ∃ k, Reached options (Interval.fraction (word 0) * total options) k ∧
        choice = options[k]?.map Prod.fst := by
  have some_option : options ≠ [] := by
    rintro rfl
    exact absurd positive (lt_irrefl _)
  obtain ⟨range, sampled, bottom, top⟩ := Interval.between_zero positive finite
  unfold turn
  rw [if_pos ⟨positive, finite⟩, sampled]
  change Draw.Reads ((fun roll => (reach? roll 0.0 options).or (last? options)) <$> range.sample) _
  refine .map ((Draw.sample_reads range).imp ?_)
  rintro word count roll ⟨one, rfl⟩
  refine ⟨one, ?_⟩
  -- the fraction of the total is no larger than the total
  have rolled : range.point (word 0) = Interval.fraction (word 0) * total options + 0.0 := by
    rw [Interval.point, bottom, top, sub_zero]
  have bound := mul_le_of_le_one (Interval.zero_le_fraction (word 0))
    (le_of_lt (Interval.fraction_lt_one (word 0))) (le_of_lt positive) finite
  obtain ⟨k, reached, found⟩ := exists_reached some_option (add_zero_le_iff.mpr bound)
  refine ⟨k, reached_add_zero.mp reached, ?_⟩
  rw [rolled, found, List.getElem?_eq_getElem reached.inside]
  rfl

/-- At other totals the last option is chosen without drawing. -/
theorem turn_of_not_rollable (nothing : ¬(0.0 < total options ∧ (total options).isFinite)) :
    (turn options : Draw σ (Option ι)) = pure (last? options) := by
  unfold turn
  rw [if_neg nothing]

/-! ## The ways of the wheel -/

/-- The first infinite weight is the one of `i`. -/
def FirstInfinite (options : List (ι × Float)) (i : ι) : Prop :=
  ∃ before after, options = before ++ (i, infinity) :: after ∧
    ∀ option ∈ before, option.2 ≠ infinity

/-- Among weights of which one is infinite there is a first one. -/
theorem find?_infinite {option : ι × Float} (member : option ∈ options)
    (infinite : option.2 = infinity) :
    ∃ i, FirstInfinite options i ∧
      (options.find? fun option => option.2 == infinity) = some (i, infinity) := by
  cases found : options.find? fun option => option.2 == infinity with
  | none =>
      exact absurd (beq_infinity_iff.mpr infinite) (List.find?_eq_none.mp found option member)
  | some first =>
      obtain ⟨top, before, after, split, others⟩ := List.find?_eq_some_iff_append.mp found
      obtain ⟨i, weight⟩ := first
      obtain rfl : weight = infinity := beq_infinity_iff.mp top
      refine ⟨i, ⟨before, after, split, fun other earlier same => ?_⟩, rfl⟩
      have different := others other earlier
      rw [beq_infinity_iff.mpr same] at different
      exact absurd different (by decide)

/-- The options as they are rolled for. If the weights overflow only together, they are divided by the
largest of them. -/
def rolled (options : List (ι × Float)) : List (ι × Float) :=
  if Overflows options then rescaled options else options

theorem map_fst_rolled (options : List (ι × Float)) :
    (rolled options).map Prod.fst = options.map Prod.fst := by
  unfold rolled
  split
  · exact map_fst_rescaled options
  · rfl

theorem Weights.rolled (weights : Weights options) : Weights (rolled options) := by
  unfold Roulette.rolled
  split
  · rename_i overflow
    exact fun option member => .inl (overflow.unit weights option member).1
  · exact weights

/-- A total of weights is positive and finite, infinite, zero, or a NaN. -/
theorem total_cases (weights : Weights options) :
    (0.0 < total options ∧ (total options).isFinite) ∨ total options = infinity ∨
      total options = 0.0 ∨ (total options).isNaN := by
  have running : Running (total options) := Running.zero.totalFrom weights
  rcases running.notNegative with nonneg | nan
  · rcases isFinite_or_eq_infinity nonneg with finite | infinite
    · by_cases positive : 0.0 < total options
      · exact .inl ⟨positive, finite⟩
      · have number := (le_iff.mp nonneg).2.1
        have zero : rank (total options) = 0 :=
          le_antisymm (not_lt.mp (mt zero_lt_iff.mpr positive)) (le_iff.mp nonneg).2.2
        exact .inr (.inr (.inl ((eq_zero_of_rank number zero).resolve_right running.plus)))
    · exact .inr (.inl infinite)
  · exact .inr (.inr (.inr nan))

/-- Unless their total is infinite, the wheel is turned for the options that are rolled for. -/
theorem spin_eq_turn (bounded : total (rolled options) ≠ infinity) :
    (spin options : Draw σ (Option ι)) = turn (rolled options) := by
  by_cases top : total options = infinity
  · have overflow : Overflows options := by
      refine Decidable.by_contra fun alone => bounded ?_
      rw [rolled, if_neg alone, top]
    have none : (options.find? fun option => option.2 == infinity) = none :=
      List.find?_eq_none.mpr fun option member same =>
        overflow.2 option member (beq_infinity_iff.mp same)
    unfold spin rolled
    rw [if_pos (beq_infinity_iff.mpr top), none, if_pos overflow]
  · unfold spin rolled
    rw [if_neg (mt beq_infinity_iff.mp top), if_neg fun overflow => top overflow.1]

/-- The total of options that are rolled for is infinite only if a weight and the total are infinite. -/
theorem total_rolled_eq_infinity_iff (weights : Weights options) (few : options.length < 2 ^ 53) :
    total (rolled options) = infinity ↔
      total options = infinity ∧ ∃ option ∈ options, option.2 = infinity := by
  unfold rolled
  split
  · rename_i overflow
    refine iff_of_false (fun top => ?_) fun ⟨_, option, member, top⟩ => overflow.2 option member top
    have finite := (overflow.total_mem weights few).1
    rw [top] at finite
    exact absurd finite (by decide)
  · rename_i alone
    refine ⟨fun top => ⟨top, Decidable.by_contra fun bounded => alone ⟨top, ?_⟩⟩, And.left⟩
    exact fun option member infinite => bounded ⟨option, member, infinite⟩

/-- Below a positive finite total a number is rolled. -/
theorem spin_reads (positive : 0.0 < total (rolled options))
    (finite : (total (rolled options)).isFinite) :
    Draw.Reads (spin options : Draw σ (Option ι)) fun word count choice => count = 1 ∧
      ∃ k, Reached (rolled options) (Interval.fraction (word 0) * total (rolled options)) k ∧
        choice = (options.map Prod.fst)[k]? := by
  have bounded : total (rolled options) ≠ infinity := by
    intro top
    rw [top] at finite
    exact absurd finite (by decide)
  rw [spin_eq_turn bounded]
  refine (turn_reads positive finite).imp ?_
  rintro word count choice ⟨one, k, reached, rfl⟩
  refine ⟨one, k, reached, ?_⟩
  rw [← map_fst_rolled, List.getElem?_map]

/-- At an infinite total the first infinite weight wins. -/
theorem spin_of_infinite (top : total options = infinity) {option : ι × Float}
    (member : option ∈ options) (infinite : option.2 = infinity) :
    ∃ i, FirstInfinite options i ∧ (spin options : Draw σ (Option ι)) = pure (some i) := by
  obtain ⟨i, first, found⟩ := find?_infinite member infinite
  refine ⟨i, first, ?_⟩
  unfold spin
  rw [if_pos (beq_infinity_iff.mpr top), found]

/-- At a total that is zero or a NaN the last option is chosen. -/
theorem spin_of_nothing (nothing : total (rolled options) = 0.0 ∨ (total (rolled options)).isNaN) :
    (spin options : Draw σ (Option ι)) = pure (options.map Prod.fst).getLast? := by
  have not_rollable :
      ¬(0.0 < total (rolled options) ∧ (total (rolled options)).isFinite) := by
    rintro ⟨positive, finite⟩
    rcases nothing with zero | nan
    · rw [zero] at positive
      exact absurd positive (lt_irrefl _)
    · exact not_isNaN_of_isFinite finite nan
  have bounded : total (rolled options) ≠ infinity := by
    intro top
    rw [top] at nothing
    exact absurd nothing (by decide)
  rw [spin_eq_turn bounded, turn_of_not_rollable not_rollable, last?, ← List.getLast?_map,
    map_fst_rolled]

end Metaheuristics.Roulette

import Metaheuristics.Binary64
import Metaheuristics.Random.Sampling

/-!
# The roulette wheel

A choice among weighted options, each with a chance proportional to its weight. The options have
an order, and all sums run through it from the left. Weights may be so large that they or their
sum overflow, so small that all of them vanish, or no numbers at all; a choice is made nevertheless.
-/

namespace Metaheuristics.Roulette

variable {ι : Type}

/-- The sum of all weights. -/
def total (options : List (ι × Float)) : Float :=
  options.foldl (fun sum option => sum + option.2) 0.0

/-- The largest weight. -/
def heaviest (options : List (ι × Float)) : Float :=
  options.foldl (fun weight option => Binary64.larger weight option.2) 0.0

/-- The options with their weights divided by the largest. -/
def rescaled (options : List (ι × Float)) : List (ι × Float) :=
  options.map fun option => (option.1, option.2 / heaviest options)

/-- The first option at which the sum of the weights, begun at `sum`, reaches `roll`. -/
def reach? (roll : Float) : Float → List (ι × Float) → Option ι
  | _, [] => none
  | sum, (i, weight) :: options =>
    if roll ≤ sum + weight then some i else reach? roll (sum + weight) options

/-- Only options are reached. -/
theorem mem_of_reach?_eq_some {roll sum : Float} {options : List (ι × Float)} {i : ι}
    (h : reach? roll sum options = some i) : ∃ weight, (i, weight) ∈ options := by
  induction options generalizing sum with
  | nil => cases h
  | cons option options ih =>
    rw [reach?] at h
    split at h
    · cases h
      exact ⟨option.2, List.mem_cons_self⟩
    · obtain ⟨weight, hmem⟩ := ih h
      exact ⟨weight, List.mem_cons_of_mem _ hmem⟩

/-- The last option. -/
def last? (options : List (ι × Float)) : Option ι :=
  options.getLast?.map Prod.fst

/-- Rolls a number below the sum of the weights and chooses the option at which the partial sums
reach it. Where the sum is no positive finite number, or no option is reached, the last option is
chosen, in the former case without drawing. -/
def turn {σ : Type} [WordSource σ] (options : List (ι × Float)) : Draw σ (Option ι) :=
  if 0.0 < total options ∧ (total options).isFinite then do
    let range ← Interval.between 0.0 (total options)
    let roll ← range.sample
    return (reach? roll 0.0 options).or (last? options)
  else
    return last? options

/-- Chooses one of the options, if there are any. Where the weights add up to infinity, the first
infinite weight wins outright, and finite weights are brought down by the largest of them. -/
def spin {σ : Type} [WordSource σ] (options : List (ι × Float)) : Draw σ (Option ι) :=
  if total options == Binary64.infinity then
    match options.find? fun option => option.2 == Binary64.infinity with
    | some option => return some option.1
    | none => turn (rescaled options)
  else
    turn options

end Metaheuristics.Roulette

import Metaheuristics.Proofs.Random.Yields
import Metaheuristics.Roulette

/-!
# The roulette wheel lands on an option

Whatever the weights are, a choice among at least one option is made, and it is one of the options
(`spin_yields`). An infinite weight, weights that overflow together, a total that is zero or no
number, and a roll that no partial sum reaches all end with an option. Collected here:

* the largest weight is a bound and attained, where a NaN does not count (`foldl_larger`);
* weights that overflow only together have a largest one that is positive and finite, so that they can
  be divided by it (`heaviest_of_overflow`);
* every way to a choice keeps clear of faults: a number is rolled only below a total that is positive
  and finite (`Fair`, `spin_fair`).
-/

namespace Metaheuristics.Roulette

variable {ι σ : Type}

/-! ## Totals that overflow -/

theorem foldl_larger {x : Float} (number : ¬x.isNaN) (options : List (ι × Float)) :
    x ≤ options.foldl (fun weight option => Binary64.larger weight option.2) x ∧
      (∀ option ∈ options, ¬option.2.isNaN → option.2 ≤
        options.foldl (fun weight option => Binary64.larger weight option.2) x) ∧
      (options.foldl (fun weight option => Binary64.larger weight option.2) x = x ∨
        ∃ option ∈ options, option.2 =
          options.foldl (fun weight option => Binary64.larger weight option.2) x) := by
  induction options generalizing x with
  | nil => exact ⟨Binary64.le_refl number, nofun, .inl rfl⟩
  | cons option options ih =>
      have above := Binary64.le_larger_left (y := option.2) number
      obtain ⟨further, bound, attained⟩ := ih (Binary64.le_iff.mp above).2.1
      refine ⟨Binary64.le_trans above further, ?_, ?_⟩
      · refine List.forall_mem_cons.mpr ⟨fun counted => ?_, bound⟩
        exact Binary64.le_trans (Binary64.le_larger counted) further
      · rcases attained with same | ⟨other, member, same⟩
        · rcases Binary64.larger_cases x option.2 with kept | taken
          · exact .inl (same.trans kept)
          · exact .inr ⟨option, List.mem_cons_self, (same.trans taken).symm⟩
        · exact .inr ⟨other, List.mem_cons_of_mem option member, same⟩

theorem rank_foldl_nonpos {x : Float} (nonpos : Binary64.rank x ≤ 0)
    {options : List (ι × Float)} (light : ∀ option ∈ options, Binary64.rank option.2 ≤ 0) :
    Binary64.rank (options.foldl (fun sum option => sum + option.2) x) ≤ 0 := by
  induction options generalizing x with
  | nil => exact nonpos
  | cons option options ih =>
      obtain ⟨first, others⟩ := List.forall_mem_cons.mp light
      exact ih (Binary64.rank_add_nonpos nonpos first) others

/-- Weights that overflow only together have a largest one, which is positive and finite. -/
theorem heaviest_of_overflow {options : List (ι × Float)}
    (overflow : total options = Binary64.infinity)
    (bounded : ∀ option ∈ options, option.2 ≠ Binary64.infinity) :
    0.0 < heaviest options ∧ (heaviest options).isFinite := by
  obtain ⟨nonneg, bound, attained⟩ := foldl_larger (x := 0.0) (by decide) options
  change 0.0 ≤ heaviest options at nonneg
  constructor
  · refine Decidable.by_contra fun light => ?_
    -- with no positive weight the total is not positive either
    have every : ∀ option ∈ options, Binary64.rank option.2 ≤ 0 := by
      intro option member
      refine Int.not_lt.mp fun positive => light ?_
      have heavy := Binary64.zero_lt_iff.mpr positive
      have number := (Binary64.lt_iff.mp heavy).2.1
      exact Binary64.lt_of_lt_of_le heavy (bound option member number)
    have nonpos := rank_foldl_nonpos (x := 0.0) (by decide) every
    change Binary64.rank (total options) ≤ 0 at nonpos
    rw [overflow] at nonpos
    exact absurd nonpos (by decide)
  · rcases Binary64.isFinite_or_eq_infinity nonneg with finite | infinite
    · exact finite
    · rcases attained with none | ⟨option, member, same⟩
      · change heaviest options = 0.0 at none
        rw [infinite] at none
        exact absurd (congrArg Float.isFinite none) (by decide)
      · exact absurd (same.trans infinite) (bounded option member)

/-! ## Choices -/

/-- One of the options has been chosen. -/
def Chosen (options : List (ι × Float)) (choice : Option ι) : Prop :=
  ∃ i, choice = some i ∧ i ∈ options.map Prod.fst

theorem chosen_last {options : List (ι × Float)} (some_option : options ≠ []) :
    Chosen options (last? options) := by
  refine ⟨(options.getLast some_option).1, ?_, ?_⟩
  · rw [last?, List.getLast?_eq_some_getLast some_option]
    rfl
  · exact List.mem_map_of_mem (List.getLast_mem some_option)

/-- Where the partial sums reach the roll an option is chosen, and elsewhere the last one is. -/
theorem chosen_reach_or_last {options : List (ι × Float)} (some_option : options ≠ [])
    (roll sum : Float) : Chosen options ((reach? roll sum options).or (last? options)) := by
  cases reached : reach? roll sum options with
  | none => exact chosen_last some_option
  | some i =>
      obtain ⟨weight, member⟩ := mem_of_reach?_eq_some reached
      exact ⟨i, rfl, List.mem_map_of_mem member⟩

theorem map_fst_rescaled (options : List (ι × Float)) :
    (rescaled options).map Prod.fst = options.map Prod.fst := by
  simp [rescaled, Function.comp_def]

theorem chosen_rescaled_iff {options : List (ι × Float)} {choice : Option ι} :
    Chosen (rescaled options) choice ↔ Chosen options choice := by
  rw [Chosen, map_fst_rescaled, Chosen]

variable [WordSource σ]

/-- The ways to a choice that cannot fail. -/
inductive Fair : List (ι × Float) → Draw σ (Option ι) → Prop
  /-- An option is chosen without drawing. -/
  | settled {options : List (ι × Float)} {choice : Option ι} :
      Chosen options choice → Fair options (pure choice)
  /-- A number is rolled below the total, which is positive and finite. -/
  | rolled {options : List (ι × Float)} {range : Interval} {choose : Float → Option ι} :
      0.0 < total options → (total options).isFinite →
      range.lo = 0.0 → range.hi = total options → (∀ roll, Chosen options (choose roll)) →
      Fair options (choose <$> range.sample)
  /-- All weights are divided by the largest one, which is positive and finite. -/
  | lightened {options : List (ι × Float)} {choice : Draw σ (Option ι)} :
      0.0 < heaviest options → (heaviest options).isFinite →
      Fair (rescaled options) choice → Fair options choice

theorem Fair.yields {options : List (ι × Float)} {choice : Draw σ (Option ι)}
    (fair : Fair options choice) : Draw.Yields choice (Chosen options) := by
  induction fair with
  | settled chosen => exact .pure chosen
  | rolled positive finite bottom top chosen =>
      exact .map ((Interval.sample_yields _).imp fun roll _ => chosen roll)
  | lightened positive finite fair ih => exact ih.imp fun choice => chosen_rescaled_iff.mp

theorem turn_fair {options : List (ι × Float)} (some_option : options ≠ []) :
    Fair options (turn options : Draw σ (Option ι)) := by
  unfold turn
  by_cases rollable : 0.0 < total options ∧ (total options).isFinite
  · obtain ⟨range, sampled, bottom, top⟩ := Interval.between_zero rollable.1 rollable.2
    rw [if_pos rollable, sampled]
    exact .rolled rollable.1 rollable.2 bottom top
      fun roll => chosen_reach_or_last some_option roll 0.0
  · rw [if_neg rollable]
    exact .settled (chosen_last some_option)

/-- No spin of the wheel can fail. -/
theorem spin_fair {options : List (ι × Float)} (some_option : options ≠ []) :
    Fair options (spin options : Draw σ (Option ι)) := by
  unfold spin
  by_cases overflow : (total options == Binary64.infinity) = true
  · rw [if_pos overflow]
    cases found : options.find? fun option => option.2 == Binary64.infinity with
    | some option =>
        exact .settled ⟨option.1, rfl, List.mem_map_of_mem (List.mem_of_find?_eq_some found)⟩
    | none =>
        -- no weight is infinite, and dividing them by the largest loses no option
        have bounded : ∀ option ∈ options, option.2 ≠ Binary64.infinity := by
          intro option member infinite
          exact List.find?_eq_none.mp found option member (Binary64.beq_infinity_iff.mpr infinite)
        obtain ⟨positive, finite⟩ :=
          heaviest_of_overflow (Binary64.beq_infinity_iff.mp overflow) bounded
        have some_rescaled : rescaled options ≠ [] := by
          simpa [rescaled] using some_option
        exact .lightened positive finite (turn_fair some_rescaled)
  · rw [if_neg overflow]
    exact turn_fair some_option

/-- Every spin of the wheel chooses one of its options. -/
theorem spin_yields {options : List (ι × Float)} (some_option : options ≠ []) :
    Draw.Yields (spin options : Draw σ (Option ι)) (Chosen options) :=
  (spin_fair some_option).yields

end Metaheuristics.Roulette

import Metaheuristics.Proofs.Colony.Outright

/-!
# Weights that vanish

The power of a small number may vanish, and the weight of a city with it. The partial sums of the wheel
do not move at such a city, so a positive roll is never reached there (`Reached.zero_lt_weight`). But a roll
may be zero, and then it is reached at once, at the first city, whatever that weighs (`Reached.eq_zero`).
Hence an ant goes to a city of weight zero if and only if that city is the first one left and nothing was
rolled (`step_outcome`), in any colony that was new once (`positive_weight_unless_nothing_rolled`). Unless
the total is subnormal, one word in two to the power 52 rolls nothing (`rollOf_pos_iff`).
-/

namespace Metaheuristics

namespace Roulette

open Binary64

variable {ι σ : Type} [WordSource σ] {options : List (ι × Float)} {roll : Float} {k : Nat}

/-! ## At the wheel -/

theorem total_take_succ {option : ι × Float} (here : options[k]? = some option) :
    total (options.take (k + 1)) = total (options.take k) + option.2 := by
  obtain ⟨inside, same⟩ := List.getElem?_eq_some_iff.mp here
  rw [List.take_succ_eq_append_getElem inside, same, total, List.foldl_append]
  rfl

/-- A positive roll is reached at an option that weighs something. -/
theorem Reached.zero_lt_weight (h : Reached options roll k)
    (weights : ∀ option ∈ options, 0.0 ≤ option.2) (positive : 0.0 < roll) {option : ι × Float}
    (here : options[k]? = some option) : 0.0 < option.2 := by
  by_contra light
  have running : Running (total (options.take k)) :=
    Running.zero.totalFrom fun other earlier => .inl (weights other (List.mem_of_mem_take earlier))
  -- otherwise the sum before the option would have reached the roll already
  have reached := h.reached
  rw [total_take_succ here,
    add_of_not_pos running.plus (weights option (List.mem_of_getElem? here)) light] at reached
  cases k with
  | zero => exact lt_irrefl _ (lt_of_lt_of_le positive reached)
  | succ j => exact h.first j (Nat.lt_succ_self j) reached

/-- If nothing is rolled, it is reached at the first option. -/
theorem Reached.eq_zero (h : Reached options roll k)
    (weights : ∀ option ∈ options, 0.0 ≤ option.2) (nonneg : 0.0 ≤ roll) (nothing : ¬0.0 < roll) :
    k = 0 := by
  have first_weights : ∀ option ∈ options.take 1, 0.0 ≤ option.2 :=
    fun option member => weights option (List.mem_of_mem_take member)
  obtain ⟨-, number, above⟩ := le_iff.mp (le_totalFrom (x := 0.0) (by decide) first_weights).1
  have at_once : roll ≤ total (options.take 1) := by
    refine le_iff.mpr ⟨(le_iff.mp nonneg).2.1, number, ?_⟩
    rw [rank_of_not_pos nonneg nothing]
    exact above
  exact Nat.eq_zero_of_not_pos fun later => h.first 0 later at_once

/-- An option that is rolled for with a positive weight has one. -/
theorem exists_rolled (weights : ∀ option ∈ options, 0.0 ≤ option.2) {i : ι} {weight : Float}
    (here : options[k]? = some (i, weight)) :
    ∃ share, (rolled options)[k]? = some (i, share) ∧ (0.0 < share → 0.0 < weight) := by
  unfold rolled
  split
  · rename_i overflow
    obtain ⟨divisor, finite⟩ := overflow.heaviest_mem
    have member := List.mem_of_getElem? here
    have nonneg : 0.0 ≤ weight := weights (i, weight) member
    have finite_weight : weight.isFinite :=
      (isFinite_or_eq_infinity nonneg).resolve_right (overflow.2 (i, weight) member)
    refine ⟨weight / heaviest options, ?_, fun positive => ?_⟩
    · rw [rescaled, List.getElem?_map, here]
      rfl
    · exact zero_lt_of_zero_lt_div nonneg finite_weight divisor finite positive
  · exact ⟨weight, here, id⟩

/-- If no weight is infinite, a positive total can be rolled for. -/
theorem rollable_of_bounded (weights : Weights options) (positive : 0.0 < total options)
    (bounded : ∀ option ∈ options, option.2 ≠ infinity) :
    0.0 < total (rolled options) ∧ (total (rolled options)).isFinite := by
  unfold rolled
  split
  · rename_i overflow
    obtain ⟨above, finite⟩ := overflow.one_le_total weights
    exact ⟨lt_of_lt_of_le (by decide) above, finite⟩
  · rename_i alone
    refine ⟨positive, (isFinite_or_eq_infinity (le_of_lt positive)).resolve_right fun top => ?_⟩
    exact alone ⟨top, bounded⟩

/-- The number that a word rolls: the fraction of the total that it stands for. -/
def rollOf (options : List (ι × Float)) (word : UInt64) : Float :=
  Interval.fraction word * total (rolled options)

theorem rollOf_nonneg (positive : 0.0 < total (rolled options))
    (finite : (total (rolled options)).isFinite) (word : UInt64) : 0.0 ≤ rollOf options word := by
  rw [rollOf]
  exact zero_le_mul (Interval.zero_le_fraction word) (Interval.isFinite_fraction word)
    (le_of_lt positive) finite

/-- Unless the total is subnormal, the word alone decides whether anything is rolled. -/
theorem rollOf_pos_iff {word : UInt64} (finite : (total (rolled options)).isFinite)
    (normal : 2 ^ (-1022 : ℤ) ≤ toRat (total (rolled options))) :
    0.0 < rollOf options word ↔ 2 ^ 12 ≤ word.toNat := by
  have nonneg := Interval.zero_le_fraction word
  have finite_fraction := Interval.isFinite_fraction word
  constructor
  · intro positive
    by_contra small
    have some_fraction := zero_lt_of_zero_lt_mul nonneg finite_fraction finite positive
    rw [Interval.fraction_eq_zero (not_le.mp small)] at some_fraction
    exact lt_irrefl _ some_fraction
  · intro large
    have gap := toRat_le_of_le (by decide) finite_fraction (Interval.epsilon_le_fraction large)
    rw [toRat_epsilon] at gap
    refine zero_lt_mul finite_fraction finite ?_
    calc (2 : ℚ) ^ (-1074 : ℤ) = 2 ^ (-52 : ℤ) * 2 ^ (-1022 : ℤ) := by
          rw [← zpow_add₀ (by norm_num)]
          rfl
      _ ≤ toRat (Interval.fraction word) * toRat (total (rolled options)) := by gcongr

/-- How the wheel comes to an option, with the number of words that it takes. -/
inductive Outcome (options : List (ι × Float)) (word : UInt64) : Nat → ι → Prop
  /-- An infinite weight wins without drawing. -/
  | outright {i : ι} : (i, infinity) ∈ options → Outcome options word 0 i
  /-- Something was rolled, and the option weighs something. -/
  | weighty {i : ι} {weight : Float} : 0.0 < rollOf options word → (i, weight) ∈ options →
      0.0 < weight → Outcome options word 1 i
  /-- Nothing was rolled, and the option is the first one. -/
  | nothing {i : ι} {weight : Float} : ¬0.0 < rollOf options word →
      options.head? = some (i, weight) → Outcome options word 1 i

/-- The option at which the roll is reached weighs something, or nothing was rolled and it is the first
one. -/
theorem Reached.exists_outcome {word : UInt64} (h : Reached (rolled options) (rollOf options word) k)
    (weights : Weights options) (nonneg : ∀ option ∈ options, 0.0 ≤ option.2)
    (rollable : 0.0 < total (rolled options)) (finite : (total (rolled options)).isFinite) :
    ∃ i, (options.map Prod.fst)[k]? = some i ∧ Outcome options word 1 i := by
  have inside : k < options.length := by
    rw [← List.length_map (f := Prod.fst), ← map_fst_rolled, List.length_map]
    exact h.inside
  obtain ⟨⟨i, weight⟩, here⟩ : ∃ option, options[k]? = some option :=
    ⟨_, List.getElem?_eq_getElem inside⟩
  have shares : ∀ option ∈ rolled options, 0.0 ≤ option.2 :=
    weights.rolled.nonneg (lt_iff.mp rollable).2.1
  refine ⟨i, by rw [List.getElem?_map, here]; rfl, ?_⟩
  by_cases something : 0.0 < rollOf options word
  · obtain ⟨share, there, heavier⟩ := exists_rolled nonneg here
    have positive_share := h.zero_lt_weight shares something there
    exact .weighty something (List.mem_of_getElem? here) (heavier positive_share)
  · have first := h.eq_zero shares (rollOf_nonneg rollable finite word) something
    subst first
    exact .nothing something (List.head?_eq_getElem?.trans here)

/-- There is no other way to an option below a positive total. -/
theorem spin_outcome (weights : Weights options) (positive : 0.0 < total options) :
    Draw.Reads (spin options : Draw σ (Option ι)) fun word count choice =>
      ∃ i, choice = some i ∧ Outcome options (word 0) count i := by
  have nonneg := weights.nonneg (lt_iff.mp positive).2.1
  by_cases bounded : ∀ option ∈ options, option.2 ≠ infinity
  · obtain ⟨rollable, finite⟩ := rollable_of_bounded weights positive bounded
    refine (spin_reads rollable finite).imp ?_
    rintro word count choice ⟨rfl, k, reached, rfl⟩
    exact Reached.exists_outcome reached weights nonneg rollable finite
  · push Not at bounded
    obtain ⟨option, member, infinite⟩ := bounded
    have top := total_eq_infinity nonneg member infinite
    obtain ⟨i, ⟨before, after, split, -⟩, spun⟩ := spin_of_infinite (σ := σ) top member infinite
    rw [spun]
    exact .pure fun w => ⟨i, rfl, .outright (by rw [split]; simp)⟩

end Roulette

namespace Colony

open Binary64 Roulette

variable {n : Nat} {σ : Type} [WordSource σ]

/-! ## On the way -/

/-- An ant goes to the city that the wheel comes to. -/
theorem step_outcome {c : Colony n} {current : Nat} {left : List Nat} {options : List (Nat × Float)}
    (weighed : c.options current left = .ok options) (weights : Weights options)
    (positive : 0.0 < total options) :
    Draw.Reads (c.step current left : Draw σ Nat) fun word count city =>
      Outcome options (word 0) count city := by
  rw [step_eq_spin weighed]
  refine .map ((spin_outcome weights positive).imp ?_)
  rintro word count choice ⟨city, rfl, outcome⟩
  exact outcome

/-- However often a new colony is run and however the runs are stopped: if the weights of the cities left
to an ant have a positive total, it goes to a city of positive weight, unless nothing was rolled. Then it
goes to the first city left. Below a total that is not subnormal, only the smallest 4096 words roll
nothing. -/
theorem positive_weight_unless_nothing_rolled {c : Colony n}
    (new : c.trails = .uniform n c.config.initialTrail) (power : PositivePower c.power)
    (stops : List (Nat → σ → Bool)) (s : σ) :
    (¬c.config.Fits ∧ stops ≠ [] ∧ ∃ count bytes, runs stops c s = .error (.noRoom count bytes)) ∨
      ∃ results c' t, runs stops c s = .ok ((results, c'), t) ∧ results.length = stops.length ∧
        ∀ (current : Nat) (left : List Nat), current < n → left.Sublist (List.range n) →
          current ∉ left → ∃ options, c'.options current left = .ok options ∧
            options.map Prod.fst = left ∧ Weights options ∧
            (0.0 < total options → Draw.Reads (c'.step current left : Draw σ Nat)
              fun word count city => Outcome options (word 0) count city) ∧
            ∀ word, (total (rolled options)).isFinite →
              2 ^ (-1022 : ℤ) ≤ toRat (total (rolled options)) →
              (0.0 < rollOf options word ↔ 2 ^ 12 ≤ word.toNat) := by
  rcases c.runs_cases stops s with refused | ⟨js, c', t, -, ran, count, sequel⟩
  · exact .inl refused
  · refine .inr ⟨js.map Journal.result, c', t, ran, by rw [List.length_map, count], ?_⟩
    intro current left here unvisited away
    obtain ⟨options, weighed, cities, weights⟩ := sequel.iterations.weigh new power here
      (fun city h => List.mem_range.mp (unvisited.subset h)) away
    exact ⟨options, weighed, cities, weights, step_outcome weighed weights,
      fun word finite normal => rollOf_pos_iff finite normal⟩

/-- The two to the power 600 that two of the cities are apart. -/
def beyond : Float := Float.ofBits 0x6570000000000000

/-- A new colony in which the way from the first city to the second is so long that its weight is zero. -/
def outland : Colony 3 where
  config := { ants := 1, iterations := 1 }
  distances := .ofValidRows [[0.0, beyond, 1.0], [1.0, 0.0, 1.0], [1.0, 1.0, 0.0]]
    (Distances.defect?_eq_none_iff.mp rfl)
  trails := .uniform 3 1.0
  valid := Config.defect?_eq_none_iff.mp rfl
  power := square

theorem outland_options : outland.options 0 [1, 2] = .ok [(1, 0.0), (2, 1.0)] := by
  have read : outland.options 0 [1, 2] = .ok [(1, square 1.0 1.0 * square (1.0 / beyond) 2.0),
      (2, square 1.0 1.0 * square (1.0 / 1.0) 2.0)] := by rfl
  have vanishing : square 1.0 1.0 * square (1.0 / beyond) 2.0 = 0.0 := by decide +kernel
  have staying : square 1.0 1.0 * square (1.0 / 1.0) 2.0 = 1.0 := by decide +kernel
  rw [read, vanishing, staying]

/-- After a run that was cancelled at once, an ant in the first city goes to the last one with every word
but the smallest 4096. -/
theorem outland_avoids_zero_weight : outland.trails = .uniform 3 outland.config.initialTrail ∧
    PositivePower outland.power ∧ ∃ results c' t,
      runs [fun _ _ => true] outland (⟨#[0], 0⟩ : Script) = .ok ((results, c'), t) ∧
      c'.options 0 [1, 2] = .ok [(1, 0.0), (2, 1.0)] ∧
      Draw.Reads (c'.step 0 [1, 2] : Draw Script Nat) fun word count city =>
        2 ^ 12 ≤ (word 0).toNat → count = 1 ∧ city = 2 := by
  have fits : outland.config.Fits := ⟨by decide, by decide⟩
  have cancelled : runs [fun _ _ => true] outland (⟨#[0], 0⟩ : Script) =
      .ok (([{ Result.empty with cancelled := true }], outland), ⟨#[0], 0⟩) := by rfl
  refine ⟨rfl, square_positive, _, _, _, cancelled, outland_options, ?_⟩
  rcases positive_weight_unless_nothing_rolled (c := outland) rfl square_positive [fun _ _ => true]
    (⟨#[0], 0⟩ : Script) with refused | ⟨results, c', t, ran, -, goes⟩
  · exact absurd fits refused.1
  · rw [cancelled] at ran
    cases ran
    obtain ⟨options, weighed, -, -, outcome, threshold⟩ :=
      goes 0 [1, 2] (by decide) (by decide) (by decide)
    rw [outland_options] at weighed
    cases weighed
    refine (outcome (by decide +kernel)).imp fun word count city came large => ?_
    have all : total (rolled [(1, 0.0), (2, 1.0)]) = 1.0 := by decide +kernel
    have normal : (2 : ℚ) ^ (-1022 : ℤ) ≤ 1 := zpow_le_one_of_nonpos₀ (by norm_num) (by decide)
    have bounded : ∀ option ∈ [(1, 0.0), (2, 1.0)], option.2 ≠ infinity := by decide
    have something : 0.0 < rollOf [(1, 0.0), (2, 1.0)] (word 0) :=
      (threshold (word 0) (by rw [all]; decide) (by rw [all, toRat_one]; exact normal)).mpr large
    cases came with
    | outright member => exact absurd rfl (bounded _ member)
    | weighty _ member heavy =>
      rcases List.mem_pair.mp member with same | same
      · cases same
        exact absurd heavy (by decide)
      · cases same
        exact ⟨rfl, rfl⟩
    | nothing empty => exact absurd something empty

/-- With the smallest word it goes to the second one, whose weight is zero. -/
theorem outland_reaches_zero_weight : outland.trails = .uniform 3 outland.config.initialTrail ∧
    PositivePower outland.power ∧ outland.options 0 [1, 2] = .ok [(1, 0.0), (2, 1.0)] ∧
    0.0 < total [(1, 0.0), (2, 1.0)] ∧
    (outland.step 0 [1, 2] : Draw Script Nat) ⟨#[0], 0⟩ = .ok (1, ⟨#[0], 0⟩) := by
  refine ⟨rfl, square_positive, outland_options, by decide +kernel, ?_⟩
  rw [step_eq_spin outland_options]
  rfl

end Colony

end Metaheuristics

import Metaheuristics.Proofs.Binary64.LongSums
import Metaheuristics.Proofs.Roulette

/-!
# Totals of weights

Weights are numbers that are not negative, or NaNs (`Weights`). Collected here:

* a NaN among them makes the total a NaN (`isNaN_totalFrom_of_mem`), and if there is none the total is at
  least every weight (`le_totalFrom`);
* weights that overflow only together (`Overflows`) are divided by the largest of them to numbers from
  zero to one, one of which is one (`Overflows.unit`, `Overflows.exists_one`), so that their total is
  positive and finite (`Overflows.one_le_total`) and lies between one and their count, unless they are
  too many to be counted in doubles (`Overflows.total_mem`);
* a table with an entry for every option of a longer list, in which the others weigh zero (`table`,
  `padded_table`), has the same total (`Padded.total`), the same largest entry (`Padded.heaviest`) and the
  same quotients (`Padded.divided`), although zeros are added in between.
-/

namespace Metaheuristics.Roulette

open Binary64

variable {ι : Type} {options : List (ι × Float)} {x : Float}

/-- The weights are numbers that are not negative, or NaNs. -/
def Weights (options : List (ι × Float)) : Prop :=
  ∀ option ∈ options, NotNegative option.2

/-- The sum of the weights, begun at a given number. -/
def totalFrom (x : Float) (options : List (ι × Float)) : Float :=
  options.foldl (fun sum option => sum + option.2) x

/-- A sum of weights on its way. It is not negative unless it is a NaN, and it is never negative zero,
to which zero is not neutral. -/
structure Running (x : Float) : Prop where
  notNegative : NotNegative x
  plus : x ≠ -0.0

namespace Running

theorem zero : Running 0.0 := ⟨.inl (by decide), by decide⟩

theorem add {weight : Float} (running : Running x) (h : NotNegative weight) :
    Running (x + weight) := by
  refine ⟨running.notNegative.add h, ?_⟩
  rcases running.notNegative with nonneg | nan
  · exact add_ne_negativeZero nonneg running.plus h
  · intro minus
    have := isNaN_add_left (y := weight) nan
    rw [minus] at this
    exact absurd this (by decide)

theorem totalFrom (running : Running x) (weights : Weights options) :
    Running (totalFrom x options) := by
  induction options generalizing x with
  | nil => exact running
  | cons option options ih =>
      obtain ⟨first, others⟩ := List.forall_mem_cons.mp weights
      exact ih (running.add first) others

end Running

/-! ## Totals of all weights -/

theorem isNaN_totalFrom (nan : x.isNaN) (options : List (ι × Float)) :
    (totalFrom x options).isNaN := by
  induction options generalizing x with
  | nil => exact nan
  | cons option options ih => exact ih (isNaN_add_left nan)

/-- A NaN among the weights makes the total a NaN, whatever comes before and after it. -/
theorem isNaN_totalFrom_of_mem {option : ι × Float} (member : option ∈ options)
    (nan : option.2.isNaN) : (totalFrom x options).isNaN := by
  induction options generalizing x with
  | nil => cases member
  | cons other options ih =>
      rcases List.mem_cons.mp member with rfl | later
      · exact isNaN_totalFrom (isNaN_add_right nan) options
      · exact ih later

theorem le_totalFrom (nonneg : 0.0 ≤ x) (weights : ∀ option ∈ options, 0.0 ≤ option.2) :
    x ≤ totalFrom x options ∧ ∀ option ∈ options, option.2 ≤ totalFrom x options := by
  have sum : totalFrom x options = (options.map Prod.snd).foldl (· + ·) x := List.foldl_map.symm
  obtain ⟨start, bound⟩ := le_foldl_add nonneg (List.forall_mem_map.mpr weights)
  rw [sum]
  exact ⟨start, List.forall_mem_map.mp bound⟩

/-- An infinite weight has an infinite total. -/
theorem total_eq_infinity (weights : ∀ option ∈ options, 0.0 ≤ option.2) {option : ι × Float}
    (member : option ∈ options) (infinite : option.2 = infinity) : total options = infinity := by
  have above := (le_totalFrom (x := 0.0) (by decide) weights).2 option member
  rw [infinite] at above
  exact eq_infinity_of_le above

/-- The total of weights that are at most one is at most their count. -/
theorem totalFrom_le_count {k : Nat} (nonneg : 0.0 ≤ x) (finite : x.isFinite)
    (count : toRat x ≤ k) (bits : k + options.length < 2 ^ 53)
    (weights : ∀ option ∈ options, 0.0 ≤ option.2 ∧ option.2 ≤ 1.0) :
    (totalFrom x options).isFinite ∧ toRat (totalFrom x options) ≤ k + options.length := by
  induction options generalizing x k with
  | nil => exact ⟨finite, le_add_of_le_of_nonneg count (Nat.cast_nonneg _)⟩
  | cons option options ih =>
      obtain ⟨⟨first, unit⟩, others⟩ := List.forall_mem_cons.mp weights
      rw [List.length_cons] at bits
      obtain ⟨still_finite, next⟩ := add_le_succ (by omega) nonneg finite count first unit
      obtain ⟨done, bound⟩ := ih (k := k + 1) (le_trans nonneg (le_add nonneg first).1) still_finite
        (by exact_mod_cast next) (by omega) others
      refine ⟨done, bound.trans_eq ?_⟩
      rw [List.length_cons]
      push_cast
      ring

/-- Two to the power 53, which does not grow by adding one. -/
def plateau : Float := Float.ofBits 0x4340000000000000

/-- The total of weights that are at most one gets no further than that, however many they are. -/
theorem totalFrom_le_plateau (nonneg : 0.0 ≤ x) (low : x ≤ plateau)
    (weights : ∀ option ∈ options, 0.0 ≤ option.2 ∧ option.2 ≤ 1.0) :
    totalFrom x options ≤ plateau := by
  induction options generalizing x with
  | nil => exact low
  | cons option options ih =>
      obtain ⟨⟨first, unit⟩, others⟩ := List.forall_mem_cons.mp weights
      have saturated : plateau + 1.0 = plateau := by decide +kernel
      have next : x + option.2 ≤ plateau := by
        rw [← saturated]
        exact add_mono nonneg first low unit
      exact ih (le_trans nonneg (le_add nonneg first).1) next others

/-- A total that is a number has no NaN among its weights. -/
theorem Weights.nonneg (weights : Weights options) (number : ¬(total options).isNaN) :
    ∀ option ∈ options, 0.0 ≤ option.2 := by
  intro option member
  rcases weights option member with nonneg | nan
  · exact nonneg
  · exact absurd (isNaN_totalFrom_of_mem member nan) number

/-! ## Weights that overflow together -/

/-- The weights overflow, but only together. -/
def Overflows (options : List (ι × Float)) : Prop :=
  total options = infinity ∧ ∀ option ∈ options, option.2 ≠ infinity

instance (options : List (ι × Float)) : Decidable (Overflows options) :=
  inferInstanceAs (Decidable (_ ∧ _))

namespace Overflows

theorem number (overflow : Overflows options) : ¬(total options).isNaN := by
  rw [overflow.1]
  decide

theorem heaviest_mem (overflow : Overflows options) : 0.0 < heaviest options ∧
    (heaviest options).isFinite :=
  heaviest_of_overflow overflow.1 overflow.2

/-- Divided by the largest of them, all weights lie between zero and one. -/
theorem unit (overflow : Overflows options) (weights : Weights options) :
    ∀ option ∈ rescaled options, 0.0 ≤ option.2 ∧ option.2 ≤ 1.0 := by
  obtain ⟨positive, finite⟩ := overflow.heaviest_mem
  intro option member
  obtain ⟨original, open_option, rfl⟩ := List.mem_map.mp member
  have nonneg := weights.nonneg overflow.number original open_option
  have bound : original.2 ≤ heaviest options :=
    (foldl_larger (x := 0.0) (by decide) options).2.1 original open_option (le_iff.mp nonneg).2.1
  exact ⟨zero_le_div nonneg (isFinite_of_le nonneg bound finite) positive,
    div_le_one nonneg bound positive finite⟩

/-- One of them becomes one. -/
theorem exists_one (overflow : Overflows options) :
    ∃ option ∈ rescaled options, option.2 = 1.0 := by
  obtain ⟨positive, finite⟩ := overflow.heaviest_mem
  rcases (foldl_larger (x := 0.0) (by decide) options).2.2 with none | ⟨option, member, same⟩
  · change heaviest options = 0.0 at none
    rw [none] at positive
    exact absurd positive (lt_irrefl _)
  · change option.2 = heaviest options at same
    refine ⟨_, List.mem_map_of_mem member, ?_⟩
    show option.2 / heaviest options = 1.0
    rw [same]
    exact div_self_eq_one positive finite

/-- So their total is at least one, and finite. -/
theorem one_le_total (overflow : Overflows options) (weights : Weights options) :
    1.0 ≤ total (rescaled options) ∧ (total (rescaled options)).isFinite := by
  have unit := overflow.unit weights
  obtain ⟨option, member, one⟩ := overflow.exists_one
  obtain ⟨nonneg, above⟩ := le_totalFrom (x := 0.0) (by decide) fun option h => (unit option h).1
  have bound := totalFrom_le_plateau (x := 0.0) (by decide) (by decide) unit
  have heavy := above option member
  rw [one] at heavy
  exact ⟨heavy, isFinite_of_le nonneg bound (by decide)⟩

/-- If they are not too many, it lies between one and their count. -/
theorem total_mem (overflow : Overflows options) (weights : Weights options)
    (few : options.length < 2 ^ 53) :
    (total (rescaled options)).isFinite ∧ 1 ≤ toRat (total (rescaled options)) ∧
      toRat (total (rescaled options)) ≤ options.length := by
  have unit := overflow.unit weights
  have length : (rescaled options).length = options.length := List.length_map ..
  obtain ⟨-, bound⟩ := totalFrom_le_count (x := 0.0) (k := 0) (by decide) (by decide)
    (by rw [Nat.cast_zero]; exact le_rfl) (by rw [length]; omega) unit
  obtain ⟨above, finite⟩ := overflow.one_le_total weights
  have below := toRat_le_of_le (by decide) finite above
  rw [toRat_one] at below
  rw [length, Nat.cast_zero, zero_add] at bound
  exact ⟨finite, below, bound⟩

end Overflows

/-! ## Tables of all options -/

/-- The entries of a table for some options among others. Where there is no option, the entry is zero. -/
inductive Padded : List (ι × Float) → List Float → Prop
  | none : Padded [] []
  | closed {options : List (ι × Float)} {entries : List Float} :
      Padded options entries → Padded options (0.0 :: entries)
  | opened {option : ι × Float} {options : List (ι × Float)} {entries : List Float} :
      Padded options entries → Padded (option :: options) (option.2 :: entries)

namespace Padded

variable {entries : List Float}

/-- Zeros in between do not change the total. -/
theorem total (padded : Padded options entries) (running : Running x) (weights : Weights options) :
    entries.foldl (fun sum weight => sum + weight) x = totalFrom x options := by
  induction padded generalizing x with
  | none => rfl
  | closed rest ih =>
      rw [List.foldl_cons, add_zero running.plus]
      exact ih running weights
  | opened rest ih =>
      obtain ⟨first, others⟩ := List.forall_mem_cons.mp weights
      exact ih (running.add first) others

/-- Nor the largest weight. -/
theorem heaviest (padded : Padded options entries) (nonneg : 0.0 ≤ x) :
    entries.foldl larger x = options.foldl (fun weight option => larger weight option.2) x := by
  induction padded generalizing x with
  | none => rfl
  | closed rest ih =>
      have kept : larger x 0.0 = x := by
        have above : ¬x < 0.0 := fun below => lt_irrefl _ (lt_of_le_of_lt nonneg below)
        rw [larger, if_neg above, if_neg (le_iff.mp nonneg).2.1]
      rw [List.foldl_cons, kept]
      exact ih nonneg
  | opened rest ih => exact ih (le_trans nonneg (le_larger_left (le_iff.mp nonneg).2.1))

/-- Divided by a positive finite number, all of them stay zeros. -/
theorem divided (padded : Padded options entries) (positive : 0.0 < x) (finite : x.isFinite) :
    Padded (options.map fun option => (option.1, option.2 / x))
      (entries.map fun weight => weight / x) := by
  induction padded with
  | none => exact .none
  | closed rest ih =>
      rw [List.map_cons, zero_div positive finite]
      exact .closed ih
  | opened rest ih => exact .opened ih

end Padded

/-- A table of weights with an entry for every one of `all`, which is zero if there is no such option. -/
def table [DecidableEq ι] (all : List ι) (options : List (ι × Float)) : List Float :=
  all.map fun i => (options.lookup i).getD 0.0

theorem padded_table [DecidableEq ι] {all : List ι} (once : all.Nodup)
    (some_of_all : (options.map Prod.fst).Sublist all) : Padded options (table all options) := by
  generalize open_options : options.map Prod.fst = opened at some_of_all
  induction some_of_all generalizing options with
  | slnil =>
      rw [List.map_eq_nil_iff.mp open_options]
      exact .none
  | cons i some_of_rest ih =>
      subst open_options
      obtain ⟨absent, once_rest⟩ := List.nodup_cons.mp once
      have missing : options.lookup i = none := by
        refine List.lookup_eq_none_iff.mpr fun option member => bne_iff_ne.mpr fun same => absent ?_
        rw [same]
        exact some_of_rest.subset (List.mem_map_of_mem member)
      rw [table, List.map_cons, missing]
      exact .closed (ih once_rest rfl)
  | @cons_cons opened all i some_of_rest ih =>
      obtain ⟨option, rest, rfl, rfl, same⟩ := List.map_eq_cons_iff.mp open_options
      obtain ⟨absent, once_rest⟩ := List.nodup_cons.mp once
      rw [table, List.map_cons, List.lookup_cons, beq_self_eq_true]
      have others : ∀ other ∈ all, ((option :: rest).lookup other).getD 0.0 =
          (rest.lookup other).getD 0.0 := by
        intro other member
        have apart : other ≠ option.1 := fun same => absent (same ▸ member)
        rw [List.lookup_cons, beq_eq_false_iff_ne.mpr apart]
      rw [List.map_congr_left others]
      exact .opened (ih once_rest same)

end Metaheuristics.Roulette

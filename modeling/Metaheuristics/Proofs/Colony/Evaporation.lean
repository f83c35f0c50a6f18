import Metaheuristics.Colony.Config
import Metaheuristics.Proofs.Binary64.NearOne
import Metaheuristics.Proofs.Passes

/-!
# Trails that wear out

A trail on which nothing is deposited gets weaker with every iteration, down to the smallest normal double,
unless the rate is negligible: a rate of no more than two to the power -54 is lost when it is taken from
one (`fade_of_negligible`), and the parameters may have such a rate. With any larger rate evaporation
strictly lowers all finite trails above the floor (`fade_lt`) and leaves those on it and below there
(`fade_of_le`). Since there are only so many doubles, a trail reaches the floor (`iterate_fade`).
-/

namespace Metaheuristics

open Binary64

namespace Trails

variable {n : Nat} {t t' : Trails n} {rate q x : Float}

/-! ## One trail -/

/-- At a negligible rate nothing evaporates. -/
theorem fade_of_negligible (some_loss : 0.0 < rate) (small : rate ≤ negligible)
    (normal : minNormal ≤ x) : fade rate x = x := by
  have positive : 0.0 < x := lt_of_lt_of_le (by decide) normal
  rw [fade, one_sub_negligible (le_of_lt some_loss) small, times_one positive]
  exact larger_of_le normal

/-- At any larger rate a trail above the floor gets weaker. -/
theorem fade_lt (some_loss : 0.0 < rate) (some_rest : rate < 1.0) (more : negligible < rate)
    (finite : x.isFinite) (normal : minNormal < x) : fade rate x < x := by
  have kept := (kept_pos some_loss some_rest).1
  rcases larger_cases (x * (1.0 - rate)) minNormal with same | same
  · rw [fade, same]
    exact mul_lt finite normal (le_of_lt kept) (one_sub_le more)
  · rw [fade, same]
    exact normal

/-- A trail that is not above the floor is raised to it or stays there. -/
theorem fade_of_le (some_loss : 0.0 < rate) (some_rest : rate < 1.0) (finite : x.isFinite)
    (weak : x ≤ minNormal) : fade rate x = minNormal := by
  obtain ⟨positive, finite_kept⟩ := kept_pos some_loss some_rest
  have floor : minNormal.isFinite := by decide
  have product : x * (1.0 - rate) ≤ minNormal := by
    refine mul_le_of_toRat_le finite finite_kept floor ?_
    have below := toRat_le_of_le finite floor weak
    have some_kept := toRat_pos finite_kept positive
    have no_more := toRat_le_of_le finite_kept (by decide) (kept_le_one some_loss some_rest)
    rw [toRat_one] at no_more
    have nonneg : 0 ≤ toRat minNormal := toRat_nonneg floor (by decide)
    calc toRat x * toRat (1.0 - rate) ≤ toRat minNormal * toRat (1.0 - rate) := by gcongr
      _ ≤ toRat minNormal := mul_le_of_le_one_right nonneg no_more
  exact larger_of_ge product (by decide)

/-- It takes no more iterations to wear out a trail than there are doubles between it and the floor. -/
theorem iterate_fade_of_rank (some_loss : 0.0 < rate) (some_rest : rate < 1.0)
    (more : negligible < rate) {k : Nat} (finite : x.isFinite) (near : rank x ≤ 2 ^ 52 + k) :
    (fade rate)^[k + 1] x = minNormal := by
  have floor : rank minNormal = 2 ^ 52 := by decide
  induction k generalizing x with
  | zero =>
      refine fade_of_le some_loss some_rest finite ?_
      exact le_iff.mpr ⟨not_isNaN_of_isFinite finite, by decide, by omega⟩
  | succ k ih =>
      rw [Function.iterate_succ_apply]
      by_cases normal : minNormal < x
      · have weaker := fade_lt some_loss some_rest more finite normal
        have above := minNormal_le_fade rate x
        have step := (lt_iff.mp weaker).2.2
        refine ih ?_ (by omega)
        exact isFinite_of_le (le_trans (by decide) above) (le_of_lt weaker) finite
      · have weak := le_of_not_lt (by decide) (not_isNaN_of_isFinite finite) normal
        rw [fade_of_le some_loss some_rest finite weak]
        exact ih (by decide) (by omega)

/-- So many iterations wear out every trail that is finite. -/
theorem iterate_fade (some_loss : 0.0 < rate) (some_rest : rate < 1.0) (more : negligible < rate)
    {k : Nat} (enough : 2046 * 2 ^ 52 ≤ k) (finite : x.isFinite) : (fade rate)^[k] x = minNormal := by
  obtain ⟨k, rfl⟩ := Nat.exists_eq_succ_of_ne_zero (show k ≠ 0 by omega)
  have below := rank_lt_of_isFinite finite
  exact iterate_fade_of_rank some_loss some_rest more finite (by omega)

/-! ## All trails -/

/-- Iterations, each with the tours that are made in it. -/
def reinforceAll (t : Trails n) (rate q : Float) (batches : List (List (Tour × Float))) :
    Except Fault (Trails n) :=
  batches.foldlM (fun t tours => t.reinforce rate q tours) t

variable {batches : List (List (Tour × Float))}

theorem reinforceAll_ok (t : Trails n) (rate q : Float)
    (known : ∀ tours ∈ batches, ∀ tour ∈ tours, ∀ city ∈ tour.1, city < n) :
    ∃ t', t.reinforceAll rate q batches = .ok t' := by
  have reinforced : ∃ t', t.reinforceAll rate q batches = .ok t' ∧ True := by
    refine foldlM_ok (fun tours member t _ => ?_) trivial
    obtain ⟨t', done⟩ := t.reinforce_ok rate q (known tours member)
    exact ⟨t', done, trivial⟩
  obtain ⟨t', done, -⟩ := reinforced
  exact ⟨t', done⟩

/-- A trail that no tour touches in any iteration evaporates once in each of them, and that is all. -/
theorem reinforceAll_untouched (done : t.reinforceAll rate q batches = .ok t') {c : Nat}
    (h : c < n * n) (away : ∀ tours ∈ batches, ∀ tour ∈ tours, (touched n tour.1).count c = 0) :
    t'.cells[c] = (fade rate)^[batches.length] t.cells[c] := by
  induction batches generalizing t with
  | nil =>
      cases done
      rfl
  | cons tours batches ih =>
      obtain ⟨first, later⟩ := List.forall_mem_cons.mp away
      rw [reinforceAll, List.foldlM_cons] at done
      obtain ⟨next, reinforced, done⟩ := exists_of_bind_eq_ok done
      rw [ih done later, reinforce_untouched reinforced h first, List.length_cons,
        Function.iterate_succ_apply]

end Trails

namespace Colony.Config

variable {n : Nat}

/-- Evaporation lowers the finite trails above the floor, and wears out in the end all those on which
nothing is deposited, exactly if the rate of a colony is not negligible. At a negligible rate, which its
parameters may have, they stay as they are for ever. -/
theorem trails_wear_out_iff {config : Config} (valid : config.Valid) :
    (∀ (t : Trails n) (i j : Nat), i < n → j < n → ∃ old new, t.read i j = .ok old ∧
      (t.evaporate config.evaporation).read i j = .ok new ∧ minNormal ≤ new ∧
      (old.isFinite → minNormal < old → (new < old ↔ negligible < config.evaporation)) ∧
      (config.evaporation ≤ negligible → minNormal ≤ old → new = old)) ∧
    ∃ enough, ∀ (t : Trails n) (q : Float) (batches : List (List (Tour × Float))),
      (∀ tours ∈ batches, ∀ tour ∈ tours, ∀ city ∈ tour.1, city < n) →
      ∃ t', t.reinforceAll config.evaporation q batches = .ok t' ∧
        ∀ i j, i < n → j < n →
          (∀ tours ∈ batches, ∀ tour ∈ tours, tour.1.deposits i j = 0) →
          ∃ old new, t.read i j = .ok old ∧ t'.read i j = .ok new ∧
            (negligible < config.evaporation → old.isFinite → enough ≤ batches.length →
              new = minNormal) ∧
            (config.evaporation ≤ negligible → minNormal ≤ old → new = old) := by
  obtain ⟨some_loss, some_rest⟩ := valid.evaporation
  refine ⟨fun t i j hi hj => ?_, 2046 * 2 ^ 52, fun t q batches known => ?_⟩
  · have place := SquareTable.place_lt hi hj
    refine ⟨_, _, t.read_of_lt place, (t.evaporate _).read_of_lt place, ?_⟩
    rw [t.evaporate_cell _ place]
    refine ⟨Trails.minNormal_le_fade _ _, fun finite normal => ⟨fun weaker => ?_, fun more => ?_⟩,
      fun small normal => Trails.fade_of_negligible some_loss small normal⟩
    · refine Decidable.by_contra fun few => ?_
      have small : config.evaporation ≤ negligible :=
        le_of_not_lt (by decide) (not_isNaN_of_lt some_rest) few
      rw [Trails.fade_of_negligible some_loss small (le_of_lt normal)] at weaker
      exact lt_irrefl _ weaker
    · exact Trails.fade_lt some_loss some_rest more finite normal
  · obtain ⟨t', done⟩ := t.reinforceAll_ok config.evaporation q known
    refine ⟨t', done, fun i j hi hj away => ?_⟩
    have place := SquareTable.place_lt hi hj
    have worn := Trails.reinforceAll_untouched done place fun tours batch tour made => by
      rw [Trails.count_touched (known tours batch tour made) hj, away tours batch tour made]
    refine ⟨_, _, t.read_of_lt place, t'.read_of_lt place, ?_⟩
    rw [worn]
    refine ⟨fun more finite enough => Trails.iterate_fade some_loss some_rest more enough finite,
      fun small normal => ?_⟩
    exact Function.iterate_fixed (Trails.fade_of_negligible some_loss small normal) _

/-- Half of a trail evaporates, and a trail on the diagonal is worn out in the end by iterations whose tour
does not stay in its city. -/
theorem half_wears_out :
    Config.Valid { evaporation := 0.5 } ∧
    (∃ new, ((Trails.uniform 2 4.0).evaporate 0.5).read 0 1 = .ok new ∧ new < 4.0 ∧ minNormal ≤ new) ∧
    ∃ k t', (Trails.uniform 2 4.0).reinforceAll 0.5 1.0 (List.replicate k [([0, 1], 2.0)]) = .ok t' ∧
      t'.read 0 0 = .ok minNormal := by
  have valid : Config.Valid { evaporation := 0.5 } := defect?_eq_none_iff.mp rfl
  obtain ⟨once, k, always⟩ := trails_wear_out_iff (n := 2) valid
  have tours : ∀ tours ∈ List.replicate k [([0, 1], 2.0)], ∀ tour ∈ tours, tour = ([0, 1], 2.0) := by
    intro tours batch tour made
    rw [List.eq_of_mem_replicate batch] at made
    exact List.mem_singleton.mp made
  refine ⟨valid, ?_, k, ?_⟩
  · obtain ⟨old, new, before, after, above, lower, -⟩ := once (.uniform 2 4.0) 0 1 (by decide) (by decide)
    obtain rfl : 4.0 = old := Except.ok.inj before
    exact ⟨new, after, (lower (by decide) (by decide)).mpr (by decide), above⟩
  · obtain ⟨t', done, cells⟩ := always (.uniform 2 4.0) 1.0 (List.replicate k [([0, 1], 2.0)])
      fun _ batch tour made => by
        rw [tours _ batch tour made]
        decide
    obtain ⟨old, new, before, after, worn, -⟩ := cells 0 0 (by decide) (by decide)
      fun _ batch tour made => by
        rw [tours _ batch tour made]
        decide
    obtain rfl : 4.0 = old := Except.ok.inj before
    refine ⟨t', done, ?_⟩
    rw [after, worn (by decide) (by decide) (by rw [List.length_replicate])]

/-- A colony may have a negligible rate, and then a trail above the floor is not lowered once, nor by any
number of iterations that make no deposits on it. -/
theorem negligible_rate_lowers_nothing :
    Config.Valid { evaporation := negligible } ∧ (1.0 : Float).isFinite ∧ minNormal < 1.0 ∧
    ((Trails.uniform 2 1.0).evaporate negligible).read 0 1 = .ok 1.0 ∧ ¬(1.0 : Float) < 1.0 ∧
    ∀ k, ∃ t', (Trails.uniform 2 1.0).reinforceAll negligible 1.0 (List.replicate k []) = .ok t' ∧
      t'.read 0 1 = .ok 1.0 := by
  have kept : Trails.fade negligible 1.0 = 1.0 :=
    Trails.fade_of_negligible (by decide) (by decide) (by decide)
  have level : (Trails.uniform 2 1.0).cells[0 * 2 + 1] = 1.0 := Vector.getElem_replicate _
  refine ⟨defect?_eq_none_iff.mp rfl, by decide, by decide, ?_, by decide, fun k => ?_⟩
  · rw [((Trails.uniform 2 1.0).evaporate negligible).read_of_lt (by decide), Trails.evaporate_cell,
      level, kept]
  · have none : ∀ tours ∈ List.replicate k ([] : List (Tour × Float)), ∀ tour ∈ tours, False := by
      intro tours batch tour made
      rw [List.eq_of_mem_replicate batch] at made
      exact List.not_mem_nil made
    obtain ⟨t', done⟩ := (Trails.uniform 2 1.0).reinforceAll_ok negligible 1.0
      fun tours batch tour made => (none tours batch tour made).elim
    have cell := Trails.reinforceAll_untouched done (c := 0 * 2 + 1) (by decide)
      fun tours batch tour made => (none tours batch tour made).elim
    refine ⟨t', done, ?_⟩
    rw [t'.read_of_lt (by decide), cell, level, Function.iterate_fixed kept]

end Colony.Config

end Metaheuristics

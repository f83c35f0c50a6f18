import Metaheuristics.Proofs.Colony.Composition
import Metaheuristics.Proofs.Colony.Overflow
import Metaheuristics.Proofs.Colony.Strength
import Metaheuristics.Proofs.Deposits

/-!
# Trails that overflow

What a tour deposits is not bounded by anything but the range of the doubles: where a tour is short
enough, the deposit is infinite. Collected here:

* a trail is a finite number or infinite, never a NaN, and an infinite one stays infinite for all
  iterations to come (`Iterations.infinity`);
* where no iteration leads beyond a finite level that bounds the trails at first (`Ceiling`), it bounds
  them for ever (`Iterations.within`), so all of them stay finite (`runs_keep_trails_below_ceiling`);
* two cities that almost touch are enough for a trail to overflow in the first iteration
  (`touching_overflows`).
-/

namespace Metaheuristics.Colony

open Binary64 (infinity)

variable {n : Nat} {σ : Type} [WordSource σ] {c c' : Colony n} {level : Float}

/-- A finite level that bounds the trails of a new colony, and beyond which no iteration leads: no tour
deposits more than some share, and with two of them for every ant, what is left of the level after
evaporation does not exceed it. -/
structure Ceiling (c : Colony n) (level : Float) : Prop where
  finite : level.isFinite
  initial : c.config.initialTrail ≤ level
  room : ∃ share,
    (∀ tour length, tour.Perm (List.range n) → c.distances.tourLength tour = .ok length →
      c.config.q / length ≤ share) ∧
    Trails.pile share (2 * c.config.ants.toNat) (Trails.fade c.config.evaporation level) ≤ level

namespace Iterated

variable {trips : List Trip} {trails : Trails n}

/-- What a trip deposits is not negative. -/
theorem share_nonneg (iterated : Iterated σ c trips trails) :
    ∀ tour ∈ trips.map fun trip => (trip.tour, trip.length), 0.0 ≤ c.config.q / tour.2 := by
  intro tour member
  obtain ⟨trip, sent, rfl⟩ := List.mem_map.mp member
  obtain ⟨finite, positive⟩ := c.valid.q
  exact Binary64.zero_le_div (Binary64.le_of_lt positive) finite (iterated.valid trip sent).positive

/-- An iteration does not lead beyond a ceiling. -/
theorem within (iterated : Iterated σ c trips trails) (ceiling : c.Ceiling level)
    (bounded : c.trails.Within level) : trails.Within level := by
  obtain ⟨share, most, room⟩ := ceiling.room
  obtain ⟨some_loss, some_rest⟩ := c.valid.evaporation
  have shares : ∀ tour ∈ trips.map fun trip => (trip.tour, trip.length),
      tour.1.Perm (List.range n) ∧ 0.0 ≤ c.config.q / tour.2 ∧ c.config.q / tour.2 ≤ share := by
    intro tour member
    have nonneg := iterated.share_nonneg tour member
    obtain ⟨trip, sent, rfl⟩ := List.mem_map.mp member
    have valid := iterated.valid trip sent
    exact ⟨valid.visits, nonneg, most _ _ valid.visits valid.measured⟩
  have after := bounded.reinforce some_loss some_rest ceiling.finite shares iterated.reinforced
  rw [List.length_map, iterated.ants] at after
  intro x member
  obtain ⟨nonneg, below⟩ := after x member
  exact ⟨nonneg, Binary64.le_trans below room⟩

/-- An iteration leaves an infinite trail infinite. -/
theorem infinity (iterated : Iterated σ c trips trails) {i : Nat} (h : i < n * n)
    (overflow : c.trails.cells[i] = infinity) : trails.cells[i] = infinity := by
  obtain ⟨some_loss, some_rest⟩ := c.valid.evaporation
  exact Trails.reinforce_infinity some_loss some_rest iterated.share_nonneg iterated.reinforced h
    overflow

end Iterated

namespace Iterations

variable {batches : List (List Trip)}

theorem within (through : Iterations σ c batches c') (ceiling : c.Ceiling level)
    (bounded : c.trails.Within level) : c'.trails.Within level := by
  induction through with
  | none => exact bounded
  | more iterated rest ih =>
      -- the trails are no part of what makes a level a ceiling
      exact ih ⟨ceiling.finite, ceiling.initial, ceiling.room⟩ (iterated.within ceiling bounded)

theorem infinity (through : Iterations σ c batches c') {i : Nat} (h : i < n * n)
    (overflow : c.trails.cells[i] = infinity) : c'.trails.cells[i] = infinity := by
  induction through with
  | none => exact overflow
  | more iterated rest ih => exact ih (iterated.infinity h overflow)

theorem nonneg (through : Iterations σ c batches c') (before : ∀ x ∈ c.trails.toList, 0.0 ≤ x) :
    ∀ x ∈ c'.trails.toList, 0.0 ≤ x := by
  rcases through.atLeast with ⟨-, rfl⟩ | strong
  · exact before
  · intro x member
    exact Binary64.le_trans (by decide) (strong x member)

end Iterations

/-- However often a new colony is run and however the runs are stopped, each of its trails is finite or
infinite. An infinite one stays so for good. Under a ceiling all of them are finite. -/
theorem runs_keep_trails_below_ceiling {d : Distances n} {config : Config} {c : Colony n}
    (created : create d config = .ok c) (stops : List (Nat → σ → Bool)) (s : σ) :
    (¬c.config.Fits ∧ stops ≠ [] ∧ ∃ count bytes, runs stops c s = .error (.noRoom count bytes)) ∨
      ∃ results c' t, runs stops c s = .ok ((results, c'), t) ∧ results.length = stops.length ∧
        (∀ x ∈ c'.trails.toList, x.isFinite ∨ x = infinity) ∧
        (∀ more results' c'' t', runs more c' t = .ok ((results', c''), t') →
          ∀ i (h : i < n * n), c'.trails.cells[i] = infinity → c''.trails.cells[i] = infinity) ∧
        ∀ level, c.Ceiling level → ∀ x ∈ c'.trails.toList, x.isFinite ∧ x ≤ level := by
  rcases c.runs_cases stops s with refused | ⟨js, c', t, -, ran, count, sequel⟩
  · exact .inl refused
  · have positive := Binary64.le_of_lt c.valid.initialTrail.2
    have initial : ∀ x ∈ c.trails.toList, x = c.config.initialTrail := by
      rw [trails_of_created created]
      exact fun x member => Trails.eq_of_mem_uniform member
    refine .inr ⟨js.map Journal.result, c', t, ran, by rw [List.length_map, count], ?_, ?_, ?_⟩
    · -- no deposit is negative, so infinity is all that an overflow leads to
      intro x member
      refine Binary64.isFinite_or_eq_infinity (sequel.iterations.nonneg ?_ x member)
      intro x member
      rw [initial x member]
      exact positive
    · -- the later runs are runs of a colony of their own, whose trails begin with the infinite one
      intro more results' c'' t' ran' i h overflow
      rcases c'.runs_cases more t with ⟨-, -, _, _, failed⟩ | ⟨_, _, _, -, ran'', -, sequel'⟩
      · rw [failed] at ran'
        cases ran'
      · rw [ran''] at ran'
        cases ran'
        exact sequel'.iterations.infinity h overflow
    · intro level ceiling x member
      have bounded : c.trails.Within level := by
        intro x member
        rw [initial x member]
        exact ⟨positive, ceiling.initial⟩
      obtain ⟨nonneg, below⟩ := sequel.iterations.within ceiling bounded x member
      exact ⟨Binary64.isFinite_of_le nonneg below ceiling.finite, below⟩

/-- With ten ants that deposit 50 at most twice each, and half of it lost in each iteration, the trails
between two cities do not exceed 2000. -/
theorem twoCities_ceiling : twoCities.Ceiling 2000.0 where
  finite := by decide
  initial := by decide
  room := by
    refine ⟨50.0, fun tour length visits measured => ?_, by decide +kernel⟩
    rcases Tour.of_two_cities visits with rfl | rfl
    · cases measured
      decide
    · cases measured
      decide

theorem twoCities_keeps_trails_below_ceiling :
    create twoCities.distances twoCities.config = .ok twoCities ∧ twoCities.Ceiling 2000.0 ∧
      ∃ results c' t, runs [fun _ _ => false, fun _ _ => false] twoCities
          (⟨#[6, 28], 0⟩ : Script) = .ok ((results, c'), t) ∧
        results.length = 2 ∧ ∀ x ∈ c'.trails.toList, x.isFinite ∧ x ≤ 2000.0 := by
  have created : create twoCities.distances twoCities.config = .ok twoCities := by rfl
  have fits : twoCities.config.Fits := ⟨by decide, by decide⟩
  rcases runs_keep_trails_below_ceiling created [fun _ _ => false, fun _ _ => false]
    (⟨#[6, 28], 0⟩ : Script) with refused | ⟨results, c', t, ran, count, -, -, below⟩
  · exact absurd fits refused.1
  · exact ⟨created, twoCities_ceiling, results, c', t, ran, count, below 2000.0 twoCities_ceiling⟩

/-! ## Two cities that almost touch -/

/-- A colony of one ant between two cities, at the smallest normal distance from each other. -/
def touching : Colony 2 where
  config := { iterations := 1, ants := 1 }
  distances := .ofValidRows [[0.0, Binary64.minNormal], [Binary64.minNormal, 0.0]]
    (Distances.defect?_eq_none_iff.mp rfl)
  trails := .uniform 2 1.0
  valid := Config.valid_single

theorem exists_infinite_of_reinforced {x : Except Fault (Trails 2)} {trails : Trails 2}
    (overflow : x.toOption.any fun t => t.toList.any fun level => !level.isFinite)
    (reinforced : x = .ok trails) : ∃ level ∈ trails.toList, ¬level.isFinite := by
  subst reinforced
  obtain ⟨level, member, infinite⟩ := List.any_eq_true.mp overflow
  exact ⟨level, member, by simpa using infinite⟩

/-- The first tour between them deposits more than a double can count. -/
theorem touching_overflows :
    create touching.distances touching.config = .ok touching ∧ ∃ r c t,
      touching.run (fun _ _ => false) (⟨#[0], 0⟩ : Script) = .ok ((r, c), t) ∧
        r.iterations = 1 ∧ ∃ x ∈ c.trails.toList, ¬x.isFinite := by
  have fits : touching.config.Fits := ⟨by decide, by decide⟩
  obtain ⟨⟨trips, _⟩, t, done, trails, iterated, changed⟩ :=
    touching.iterate_yields (⟨#[0], 0⟩ : Script)
  subst changed
  have ran : touching.run (fun _ _ => false) (⟨#[0], 0⟩ : Script) =
      .ok ((Result.empty.record trips, { touching with trails }), t) := by
    rw [run_of_fits fits]
    show advance 1 touching .empty (⟨#[0], 0⟩ : Script) = _
    rw [advance_succ, Draw.bind_of_ok _ done]
    rfl
  refine ⟨rfl, _, _, t, ran, Result.iterations_record .empty trips, ?_⟩
  -- whichever way the one ant goes, its tour is twice as long as the distance
  obtain ⟨⟨tour, length⟩, rfl⟩ := List.length_eq_one_iff.mp iterated.ants
  have valid := iterated.valid ⟨tour, length⟩ List.mem_cons_self
  have measured := valid.measured
  have reinforced : touching.trails.reinforce touching.config.evaporation touching.config.q
      [(tour, length)] = .ok trails := iterated.reinforced
  rcases Tour.of_two_cities valid.visits with rfl | rfl
  · cases measured
    exact exists_infinite_of_reinforced (by decide +kernel) reinforced
  · cases measured
    exact exists_infinite_of_reinforced (by decide +kernel) reinforced

end Metaheuristics.Colony

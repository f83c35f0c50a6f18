import Metaheuristics.Proofs.Annealing.Points
import Metaheuristics.Proofs.Annealing.Schedule
import Metaheuristics.Proofs.Binary64.Differences

/-!
# The window of a proposal

The step to a candidate is a share of the temperature, so the candidate lies in a window around the point
held, from the temperature below it to the temperature above it in either coordinate. Products and sums are
rounded, but rounding keeps their order, and the bounds of the window are rounded as the candidate is
(`add_share_mem`, `Near.window`). A coordinate may overflow. The infinity that it becomes is never met by
the opposite one, since steps are finite, so no coordinate of a run is a NaN (`Journal.Faithful.numbers`).
Both hold of all runs (`proposals_stay_in_window`).
-/

namespace Metaheuristics.Annealing

open Binary64

/-- A share of a number, added to another one, comes to lie between their difference and their sum. -/
theorem add_share_mem {u share t : Float} (number : ¬u.isNaN) (above : -1.0 ≤ share)
    (below : share ≤ 1.0) (nonneg : 0.0 ≤ t) (finite : t.isFinite) :
    u - t ≤ u + share * t ∧ u + share * t ≤ u + t := by
  obtain ⟨lower, upper⟩ := unit_mul_mem above below nonneg finite
  have finite_neg : (-t).isFinite := (isFinite_negated t).trans finite
  have moved : ¬(u + share * t).isNaN := not_isNaN_add number (isFinite_of_mem lower upper finite)
  constructor
  · rw [sub_eq_add]
    exact add_le_add_of_numbers (le_refl number) lower (not_isNaN_add number finite_neg) moved
  · exact add_le_add_of_numbers (le_refl number) upper moved (not_isNaN_add number finite)

/-- A candidate in the window of a temperature around the point held. -/
structure InWindow (temperature : Float) (held candidate : Point) : Prop where
  x : held.x - temperature ≤ candidate.x ∧ candidate.x ≤ held.x + temperature
  y : held.y - temperature ≤ candidate.y ∧ candidate.y ≤ held.y + temperature

/-- What is near a point is in the window around it. -/
theorem Near.window {t : Float} {p q : Point} (near : Near t p q) (nonneg : 0.0 ≤ t)
    (finite : t.isFinite) (number_x : ¬q.x.isNaN) (number_y : ¬q.y.isNaN) : InWindow t p q := by
  obtain ⟨share_x, above_x, below_x, moved_x⟩ := near.x
  obtain ⟨share_y, above_y, below_y, moved_y⟩ := near.y
  rw [moved_x] at number_x
  rw [moved_y] at number_y
  -- a sum with a NaN is one, so the point held has numbers for its coordinates too
  have held_x : ¬p.x.isNaN := mt isNaN_add_left number_x
  have held_y : ¬p.y.isNaN := mt isNaN_add_left number_y
  refine ⟨?_, ?_⟩
  · rw [moved_x]
    exact add_share_mem held_x above_x below_x nonneg finite
  · rw [moved_y]
    exact add_share_mem held_y above_y below_y nonneg finite

/-- Coordinates of a run may become infinite, but they stay numbers. -/
theorem Journal.Faithful.numbers {a : Annealing} {steps : Nat} {j : Journal}
    (faithful : j.Faithful a steps) (schedule : a.config.Schedule steps)
    (located : j.Located a.config) : ∀ p ∈ j.points, ¬p.x.isNaN ∧ ¬p.y.isNaN := by
  refine faithful.reaches (P := fun _ p => ¬p.x.isNaN ∧ ¬p.y.isNaN) (fun _ h => h) ?_ ?_
  · intro stage completed trial tried _ held
    obtain ⟨finite, above⟩ := faithful.temperature schedule stage completed
    have near := located.near stage completed trial tried
    refine near.both (P := (¬·.isNaN)) (Q := (¬·.isNaN)) (a.valid.zero_le above) finite held ?_
    intro u d number lower upper
    exact not_isNaN_add number (isFinite_of_mem lower upper finite)
  · exact ⟨(le_iff.mp located.start.x.1).2.1, (le_iff.mp located.start.y.1).2.1⟩

variable {σ : Type} [WordSource σ]

/-- However a run is stopped and whatever its objective is, it starts in the square of its range, each of
its candidates lies in the window of the temperature around the point held at the time, and all coordinates
are numbers. -/
theorem proposals_stay_in_window (a : Annealing) (stop : Nat → σ → Bool) (s : σ) :
    (¬Sampleable (-a.config.initialRange) a.config.initialRange ∧ a.run stop s =
        .error (.unsampleableRange (-a.config.initialRange) a.config.initialRange)) ∨
      Sampleable (-a.config.initialRange) a.config.initialRange ∧ ∃ j t,
        a.journal stop s = .ok (j, t) ∧ a.run stop s = .ok (j.result a.config, t) ∧
          Stages a (.start a.config j.start) j.stages ∧
          a.config.Holds j.start ∧
          (∀ stage ∈ j.stages, stage.temperature.isFinite ∧ 0.0 < stage.temperature ∧
            ∀ trial ∈ stage.trials, InWindow stage.temperature trial.held trial.candidate) ∧
          ∀ p ∈ j.points, ¬p.x.isNaN ∧ ¬p.y.isNaN := by
  obtain ⟨steps, schedule⟩ := a.valid.exists_schedule
  rcases a.run_cases schedule stop s with refused | ⟨sampleable, j, t, told, ran, faithful⟩
  · exact .inl refused
  · have located := (journal_located sampleable stop).of_ok told
    have numbers := faithful.numbers schedule located
    refine .inr ⟨sampleable, j, t, told, ran, faithful.stages, located.start,
      fun stage completed => ?_, numbers⟩
    obtain ⟨finite, above⟩ := faithful.temperature schedule stage completed
    refine ⟨finite, a.valid.zero_lt above, fun trial tried => ?_⟩
    obtain ⟨number_x, number_y⟩ :=
      (Journal.forall_points_iff.mp numbers).2 stage completed trial tried
    exact (located.near stage completed trial tried).window (a.valid.zero_le above) finite
      number_x number_y

end Metaheuristics.Annealing

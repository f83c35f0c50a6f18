import Metaheuristics.Proofs.Annealing.Restart
import Metaheuristics.Proofs.Colony.Restart

/-!
# Restarts keep the earliest of the best

What restarts promise is the same for both searches. They are refused for want of a seed or for a defect
of the parameters and for nothing else, they do not look at the seed among the parameters, and their
result is that of a fresh search from the first of the best seeds.
-/

namespace Metaheuristics.Restart

/-- The restarts of a colony keep the earliest of the shortest results, and those of an annealing
search the earliest of the lowest, if its objective is never a NaN. -/
theorem multiStart_keeps_earliest :
    (∀ (n : Nat) (d : Distances n) (c : Colony.Config),
      (∀ seed seeds, Colony.multiStart d { c with seed } seeds = Colony.multiStart d c seeds) ∧
      (∀ seeds e, Colony.multiStart d c seeds = .error e ↔ (seeds = [] ∧ e = noSeeds) ∨
        seeds ≠ [] ∧ ∃ defect, c.defect? = some defect ∧ e = .invalidConfig defect.message) ∧
      (c.Valid →
        (¬c.Fits ∧ ∃ count bytes, ∀ seeds, seeds ≠ [] →
            Colony.multiStart d c seeds = .ok (.error (.noRoom count bytes))) ∨
          c.Fits ∧ ∃ run : UInt64 → Colony.Result,
            (∀ entropy seed,
              Colony.solveFresh entropy d { c with seed := some seed } = .ok (.ok (run seed))) ∧
            KeepsEarliest Colony.Result.bestLength run (Colony.multiStart d c) ∧
            ∀ xs ys r r', xs.Perm ys → Colony.multiStart d c xs = .ok (.ok r) →
              Colony.multiStart d c ys = .ok (.ok r') → r.bestLength = r'.bestLength)) ∧
    ∀ (f : Annealing.Objective) (c : Annealing.Config),
      (∀ seed seeds, Annealing.multiStart f { c with seed } seeds = Annealing.multiStart f c seeds) ∧
      (∀ seeds e, Annealing.multiStart f c seeds = .error e ↔ (seeds = [] ∧ e = noSeeds) ∨
        seeds ≠ [] ∧ ∃ defect, c.defect? = some defect ∧ e = .invalidConfig defect.message) ∧
      (c.Valid → Sampleable (-c.initialRange) c.initialRange → (∀ x y, ¬(f x y).isNaN) →
        ∃ run : UInt64 → Annealing.Result,
          (∀ entropy seed,
            Annealing.solveFresh entropy f { c with seed := some seed } = .ok (.ok (run seed))) ∧
          KeepsEarliest (fun r => r.best.value) run (Annealing.multiStart f c)) := by
  refine ⟨fun n d c => ⟨?_, ?_, ?_⟩, fun f c => ⟨?_, ?_, ?_⟩⟩
  · exact Colony.multiStart_reseeded d c
  · exact fun _ _ => Colony.multiStart_eq_error_iff
  · exact Colony.multiStart_keepsEarliest d
  · exact Annealing.multiStart_reseeded f c
  · exact fun _ _ => Annealing.multiStart_eq_error_iff
  · exact fun valid sampleable number => Annealing.multiStart_keepsEarliest valid number sampleable

end Metaheuristics.Restart

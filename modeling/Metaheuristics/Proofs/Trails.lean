import Metaheuristics.Proofs.Binary64.Quotients
import Metaheuristics.Proofs.Tour

/-!
# How weak trails become

Evaporation leaves no trail below the smallest normal double, however weak it was (`evaporate_atLeast`),
and what tours deposit makes no trail weaker as long as it is not negative (`AtLeast.deposit`). So after
an iteration all trails are at least that strong, whatever they were before it (`atLeast_of_reinforce`).
-/

namespace Metaheuristics.Trails

open Binary64

variable {n : Nat} {t t' : Trails n} {level amount : Float}

/-- No trail is weaker than a level. -/
def AtLeast (t : Trails n) (level : Float) : Prop := ∀ x ∈ t.toList, level ≤ x

theorem eq_of_mem_uniform {x : Float} (member : x ∈ (uniform n level).toList) : x = level := by
  simp only [uniform, SquareTable.uniform, SquareTable.toList, Vector.mem_toList_iff,
    Vector.mem_replicate] at member
  exact member.2

theorem uniform_atLeast (number : ¬level.isNaN) : (uniform n level).AtLeast level := by
  intro x member
  rw [eq_of_mem_uniform member]
  exact le_refl number

theorem evaporate_atLeast (t : Trails n) (rate : Float) : (t.evaporate rate).AtLeast minNormal := by
  intro x member
  rw [toList_evaporate] at member
  obtain ⟨old, -, rfl⟩ := List.mem_map.mp member
  exact le_larger (by decide)

namespace AtLeast

theorem strengthen (h : t.AtLeast level) (nonneg_level : 0.0 ≤ level) (nonneg : 0.0 ≤ amount)
    {i j : Nat} (done : t.strengthen amount i j = .ok t') : t'.AtLeast level := by
  unfold Trails.strengthen at done
  split at done
  · rename_i place
    cases done
    intro x member
    simp only [AtLeast, SquareTable.toList, Vector.mem_toList_iff] at h member
    rcases Vector.mem_or_eq_of_mem_set member with old | rfl
    · exact h x old
    · have before := h t.cells[i * n + j] (Vector.getElem_mem place)
      exact le_trans before (le_add (le_trans nonneg_level before) nonneg).1
  · cases done

theorem deposit (h : t.AtLeast level) (nonneg_level : 0.0 ≤ level) (nonneg : 0.0 ≤ amount)
    {tour : Tour} (done : t.deposit tour amount = .ok t') : t'.AtLeast level := by
  refine foldlM_keeps (P := (AtLeast · level)) (fun edge _ before after kept both => ?_) h done
  obtain ⟨halfway, once, twice⟩ := exists_of_bind_eq_ok both
  exact (kept.strengthen nonneg_level nonneg once).strengthen nonneg_level nonneg twice

theorem le_weakest (h : t.AtLeast level) (number : ¬level.isNaN) : level ≤ t.weakest := by
  have kept {xs : List Float} {least : Float} (above : ∀ x ∈ xs, level ≤ x) (start : level ≤ least) :
      level ≤ xs.foldl smaller least := by
    induction xs generalizing least with
    | nil => exact start
    | cons x xs ih =>
        obtain ⟨first, others⟩ := List.forall_mem_cons.mp above
        refine ih others ?_
        rcases smaller_cases least x with same | same
        · rw [same]
          exact start
        · rw [same]
          exact first
  exact kept h (le_infinity number)

/-- Trails that are not weaker than a positive level are positive. -/
theorem positive (h : t.AtLeast level) (positive_level : 0.0 < level) :
    (∀ x ∈ t.toList, 0.0 < x ∧ ¬x.isNaN) ∧ 0.0 < t.weakest := by
  constructor
  · intro x member
    have above := h x member
    exact ⟨lt_of_lt_of_le positive_level above, (le_iff.mp above).2.1⟩
  · exact lt_of_lt_of_le positive_level (h.le_weakest (lt_iff.mp positive_level).2.1)

end AtLeast

/-- After an iteration no trail is below the smallest normal double, be the deposits infinite or
vanishing. -/
theorem atLeast_of_reinforce {rate q : Float} {tours : List (Tour × Float)} (finite : q.isFinite)
    (nonneg : 0.0 ≤ q) (positive : ∀ tour ∈ tours, 0.0 < tour.2)
    (done : t.reinforce rate q tours = .ok t') : t'.AtLeast minNormal := by
  refine foldlM_keeps (P := (AtLeast · minNormal))
    (fun tour member before after kept deposited => ?_) (t.evaporate_atLeast rate) done
  have share := zero_le_div nonneg finite (positive tour member)
  exact kept.deposit (by decide) share deposited

end Metaheuristics.Trails

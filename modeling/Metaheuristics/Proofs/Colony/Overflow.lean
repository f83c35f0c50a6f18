import Metaheuristics.Proofs.Colony.Composition
import Metaheuristics.Proofs.Colony.Minimum

/-!
# Tours that are infinitely long

Costs are finite, but their sum may overflow, and a tour of infinite length is never the best one. So a
run that completes its iterations has a best tour exactly when one of its tours has a finite length
(`run_finds_finite`). That is every run where no sum overflows, and it is no run where all of them do
(`farApart_finds_none`).
-/

namespace Metaheuristics.Colony

open Binary64 (infinity)

variable {n : Nat} {σ : Type} [WordSource σ]

theorem Trip.Valid.isFinite_iff {d : Distances n} {trip : Trip} (valid : trip.Valid d) :
    trip.length.isFinite ↔ trip.length < infinity := by
  constructor
  · intro finite
    refine Decidable.by_contra fun long => ?_
    rw [Binary64.eq_infinity_of_not_lt valid.number long] at finite
    exact absurd finite (by decide)
  · exact Binary64.isFinite_of_lt_infinity (Binary64.le_of_lt valid.positive)

namespace RunningMinimum

variable {r : Result} {batches : List (List Trip)}

theorem exists_trip (h : RunningMinimum r batches) {tour : Tour} (best : r.bestTour = some tour) :
    ∃ trips ∈ batches, ⟨tour, r.bestLength⟩ ∈ trips := by
  obtain ⟨-, before, after, order, -⟩ := h.first tour best
  have member : (r.bestIteration, ⟨tour, r.bestLength⟩) ∈ built batches := by
    rw [order]
    simp
  have made := List.mem_map_of_mem (f := Prod.snd) member
  rw [map_snd_built] at made
  exact List.mem_flatten.mp made

theorem bestLength_of_none (h : RunningMinimum r batches) (none : r.bestTour = none) :
    r.bestLength = infinity := by
  have long : ¬r.bestLength < infinity := by
    rw [← h.found, none]
    exact Bool.false_ne_true
  have last := h.last
  rw [Array.back?_eq_getElem?] at last
  by_cases some_entry : r.lengthHistory.size - 1 < r.lengthHistory.size
  · rw [Array.getElem?_eq_getElem some_entry, Option.getD_some] at last
    rcases (h.entry _ some_entry).attained with ⟨-, below⟩ | top
    · rw [← last] at below
      exact absurd below long
    · exact last.trans top
  · rw [Array.getElem?_eq_none (Nat.not_lt.mp some_entry), Option.getD_none] at last
    exact last

end RunningMinimum

namespace Journal.Faithful

variable {c : Colony n} {limit : Nat} {j : Journal n}

/-- A run has a best tour when one of its trips is finite, and then the best length is. -/
theorem isSome_bestTour_iff (faithful : j.Faithful c limit) :
    j.result.bestTour.isSome ↔ ∃ trips ∈ j.batches, ∃ trip ∈ trips, trip.length.isFinite := by
  have minimum := faithful.runningMinimum
  constructor
  · intro found
    obtain ⟨tour, best⟩ := Option.isSome_iff_exists.mp found
    obtain ⟨trips, batch, made⟩ := minimum.exists_trip best
    refine ⟨trips, batch, _, made, ?_⟩
    exact (faithful.valid trips batch _ made).isFinite_iff.mpr (minimum.found.mp found)
  · rintro ⟨trips, batch, trip, made, finite⟩
    have short := (faithful.valid trips batch trip made).isFinite_iff.mp finite
    exact minimum.found.mpr (Binary64.lt_of_le_of_lt (minimum.lower trips batch trip made) short)

theorem isFinite_bestLength (faithful : j.Faithful c limit) (found : j.result.bestTour.isSome) :
    j.result.bestLength.isFinite := by
  have minimum := faithful.runningMinimum
  obtain ⟨tour, best⟩ := Option.isSome_iff_exists.mp found
  obtain ⟨trips, batch, made⟩ := minimum.exists_trip best
  exact (faithful.valid trips batch _ made).isFinite_iff.mpr (minimum.found.mp found)

/-- In an iteration some ant has made a trip. -/
theorem exists_mem_batch (faithful : j.Faithful c limit) {trips : List Trip}
    (batch : trips ∈ j.batches) : ∃ trip, trip ∈ trips := by
  refine List.exists_mem_of_length_pos ?_
  rw [faithful.ants trips batch]
  exact Nat.pos_of_ne_zero fun none => c.valid.ants (UInt64.toNat_inj.mp none)

/-- So it has in a run that has completed one. -/
theorem exists_trip (faithful : j.Faithful c limit) (completed : 0 < j.result.iterations) :
    ∃ trips ∈ j.batches, ∃ trip, trip ∈ trips := by
  rw [faithful.runningMinimum.iterations] at completed
  obtain ⟨trips, batch⟩ := List.exists_mem_of_length_pos completed
  exact ⟨trips, batch, faithful.exists_mem_batch batch⟩

end Journal.Faithful

/-- A run has a best tour exactly when one of its tours has a finite length, and then the best length is
finite. So it is after every iteration, if no tour is so long that its length overflows. -/
theorem run_finds_finite (c : Colony n) (stop : Nat → σ → Bool) (s : σ) :
    (¬c.config.Fits ∧ ∃ count bytes, c.run stop s = .error (.noRoom count bytes)) ∨
      c.config.Fits ∧ ∃ j t, c.journal stop s = .ok (j, t) ∧
        c.run stop s = .ok ((j.result, j.colony), t) ∧
        (j.result.bestTour.isSome ↔
          ∃ trips ∈ j.batches, ∃ trip ∈ trips, trip.length.isFinite) ∧
        (j.result.bestTour.isSome → j.result.bestLength.isFinite) ∧
        (j.result.bestTour = none → j.result.bestLength = infinity) ∧
        (0 < j.result.iterations →
          (∀ tour length, tour.Perm (List.range n) → c.distances.tourLength tour = .ok length →
            length.isFinite) →
          j.result.bestTour.isSome ∧ j.result.bestLength.isFinite) := by
  rcases c.run_cases stop s with refused | ⟨fits, j, t, told, ran, faithful⟩
  · exact .inl refused
  · refine .inr ⟨fits, j, t, told, ran, faithful.isSome_bestTour_iff, faithful.isFinite_bestLength,
      faithful.runningMinimum.bestLength_of_none, fun completed bounded => ?_⟩
    obtain ⟨trips, batch, trip, made⟩ := faithful.exists_trip completed
    have valid := faithful.valid trips batch trip made
    have found := faithful.isSome_bestTour_iff.mpr
      ⟨trips, batch, trip, made, bounded _ _ valid.visits valid.measured⟩
    exact ⟨found, faithful.isFinite_bestLength found⟩

/-! ## Two cities far apart -/

/-- Half of the first number that is too large, two to the power 1023. -/
def halfway : Float := Float.ofBits 0x7fe0000000000000

/-- A colony can work with one ant that goes once. -/
theorem Config.valid_single : Config.Valid { iterations := 1, ants := 1 } :=
  defect?_eq_none_iff.mp rfl

/-- A colony between two cities so far apart that the way there and back is infinitely long. -/
def farApart : Colony 2 where
  config := { iterations := 1, ants := 1 }
  distances := .ofValidRows [[0.0, halfway], [halfway, 0.0]] (Distances.defect?_eq_none_iff.mp rfl)
  trails := .uniform 2 1.0
  valid := Config.valid_single

/-- Both tours between them are infinitely long. -/
theorem farApart_tourLength {tour : Tour} (visits : tour.Perm (List.range 2)) :
    farApart.distances.tourLength tour = .ok infinity := by
  rcases Tour.of_two_cities visits with rfl | rfl
  · rfl
  · rfl

/-- A run between them completes its iteration without a best tour. -/
theorem farApart_finds_none : ∃ r c t,
    farApart.run (fun _ _ => false) (⟨#[0], 0⟩ : Script) = .ok ((r, c), t) ∧
      r.iterations = 1 ∧ r.cancelled = false ∧ r.bestTour = none ∧ r.bestLength = infinity := by
  have fits : farApart.config.Fits := ⟨by decide, by decide⟩
  obtain ⟨⟨r, c⟩, t, advanced, count, going, -⟩ :=
    advance_yields 1 farApart .empty (⟨#[0], 0⟩ : Script)
  have solved : farApart.run (fun _ _ => false) (⟨#[0], 0⟩ : Script) = .ok ((r, c), t) := by
    rw [run_of_fits fits]
    exact advanced
  rcases farApart.run_cases (fun _ _ => false) (⟨#[0], 0⟩ : Script) with refused |
    ⟨-, j, t', -, ran, faithful⟩
  · exact absurd fits refused.1
  · rw [solved] at ran
    cases ran
    have none : j.result.bestTour = none := by
      rw [← Option.not_isSome_iff_eq_none, faithful.isSome_bestTour_iff]
      rintro ⟨trips, batch, trip, made, finite⟩
      have valid := faithful.valid trips batch trip made
      have measured := valid.measured
      rw [farApart_tourLength valid.visits, Except.ok.injEq] at measured
      rw [← measured] at finite
      exact absurd finite (by decide)
    exact ⟨j.result, j.colony, t, solved, count, going, none,
      faithful.runningMinimum.bestLength_of_none none⟩

end Metaheuristics.Colony

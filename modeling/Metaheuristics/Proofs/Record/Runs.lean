import Metaheuristics.Proofs.Annealing.Minimum
import Metaheuristics.Proofs.Annealing.Schedule
import Metaheuristics.Proofs.Colony.Overflow
import Metaheuristics.Proofs.Record.ReadBack

/-!
# Which results are read back

A run may end with a result that cannot be read back from its record. Collected here:

* a result of a colony is read back if and only if the first iteration was completed and one of its ants
  made a trip of finite length (`Journal.Faithful.portable_iff`): before that the best length is
  infinite, and an infinite entry stays in the history;
* a result of annealing with a finite objective is read back if and only if the coordinates of its two
  points are finite and its moves can be counted with a word (`Journal.Faithful.portable_iff`);
* both for every run (`runs_read_back`), and runs of either kind that are not read back
  (`some_runs_not_read_back`).
-/

namespace Metaheuristics

namespace Colony

open Binary64 (infinity)

variable {n : Nat} {c : Colony n} {j : Journal n}

/-- An ant has made a trip of finite length in the first iteration. -/
def Journal.StartsFinite (j : Journal n) : Prop :=
  ∃ trips, j.batches.head? = some trips ∧ ∃ trip ∈ trips, trip.length.isFinite

namespace Journal.Faithful

variable {limit : Nat}

/-- An entry of the history is the length of a trip, or it is infinite. -/
theorem isFinite_entry_iff (faithful : j.Faithful c limit) {i : Nat}
    (hi : i < j.result.lengthHistory.size) :
    j.result.lengthHistory[i].isFinite ↔ j.result.lengthHistory[i] < infinity := by
  rcases (faithful.runningMinimum.entry i hi).attained with ⟨member, short⟩ | top
  · obtain ⟨trip, made, same⟩ := List.mem_map.mp member
    obtain ⟨trips, taken, inside⟩ := List.mem_flatten.mp made
    rw [← same]
    exact (faithful.valid trips (List.mem_of_mem_take taken) trip inside).isFinite_iff
  · rw [top]
    decide

/-- The first entry of the history is finite if one of the first trips is. -/
theorem startsFinite_iff (faithful : j.Faithful c limit) :
    j.StartsFinite ↔ ∃ h : 0 < j.result.lengthHistory.size, j.result.lengthHistory[0].isFinite := by
  have minimum := faithful.runningMinimum
  have size : j.result.lengthHistory.size = j.batches.length :=
    minimum.size.trans minimum.iterations
  constructor
  · rintro ⟨trips, first, trip, made, finite⟩
    have some_batch : 0 < j.result.lengthHistory.size := by
      rw [size]
      exact List.length_pos_of_ne_nil fun none => by simp [none] at first
    have batch : trips ∈ j.batches.take 1 := by
      rw [List.take_one, first]
      exact List.mem_singleton_self trips
    have bound := (minimum.entry 0 some_batch).lower trip.length
      (List.mem_map_of_mem (List.mem_flatten_of_mem batch made))
    have valid := faithful.valid trips (List.mem_of_mem_take batch) trip made
    refine ⟨some_batch, (faithful.isFinite_entry_iff some_batch).mpr ?_⟩
    exact Binary64.lt_of_le_of_lt bound (valid.isFinite_iff.mp finite)
  · rintro ⟨some_batch, finite⟩
    rcases (minimum.entry 0 some_batch).attained with ⟨member, -⟩ | top
    · obtain ⟨trip, made, same⟩ := List.mem_map.mp member
      obtain ⟨trips, taken, inside⟩ := List.mem_flatten.mp made
      rw [Nat.zero_add, List.take_one, Option.mem_toList] at taken
      exact ⟨trips, taken, trip, inside, same ▸ finite⟩
    · rw [top] at finite
      exact absurd finite (by decide)

/-- What follows a finite entry is finite, and so is the best length then. -/
theorem portable_iff (faithful : j.Faithful c c.config.iterations.toNat) (few : n ≤ UInt64.size) :
    j.result.Portable ↔ j.StartsFinite := by
  have minimum := faithful.runningMinimum
  rw [faithful.startsFinite_iff]
  constructor
  · intro portable
    have some_entry : 0 < j.result.lengthHistory.size := by
      refine Nat.pos_of_ne_zero fun none => ?_
      have finite := portable.bestLength
      rw [minimum.last, Array.back?_eq_getElem?, Array.getElem?_eq_none (by omega)] at finite
      exact absurd finite (by decide)
    exact ⟨some_entry, portable.history _ (Array.getElem_mem_toList some_entry)⟩
  · rintro ⟨some_entry, finite⟩
    have short := (faithful.isFinite_entry_iff some_entry).mp finite
    have entries (i : Nat) (hi : i < j.result.lengthHistory.size) :
        j.result.lengthHistory[i].isFinite :=
      (faithful.isFinite_entry_iff hi).mpr
        (Binary64.lt_of_le_of_lt (minimum.antitone 0 i hi (Nat.zero_le i)) short)
    have length : j.result.bestLength.isFinite := by
      have last : j.result.lengthHistory.size - 1 < j.result.lengthHistory.size := by omega
      rw [minimum.last, Array.back?_eq_getElem?, Array.getElem?_eq_getElem last]
      exact entries _ last
    have words : j.result.iterations < UInt64.size := by
      rw [minimum.iterations]
      exact Nat.lt_of_le_of_lt faithful.within c.config.iterations.toNat_lt
    obtain ⟨trips, first, trip, made, finite⟩ := faithful.startsFinite_iff.mpr ⟨some_entry, finite⟩
    obtain ⟨best, found⟩ := Option.isSome_iff_exists.mp
      (faithful.isSome_bestTour_iff.mpr ⟨trips, List.mem_of_mem_head? first, trip, made, finite⟩)
    exact {
      cities := by
        intro tour same city member
        obtain ⟨trips, batch, built⟩ := minimum.exists_trip same
        exact Nat.lt_of_lt_of_le (Tour.lt_of_visits (faithful.valid trips batch _ built).visits
          city member) few
      bestLength := length
      iterations := words
      bestIteration := Nat.lt_trans (minimum.first best found).1 words
      history := by
        intro l member
        obtain ⟨i, hi, rfl⟩ := Array.getElem_of_mem (Array.mem_toList_iff.mp member)
        exact entries i hi }

/-- After a completed iteration, if no tour is so long that its length overflows. -/
theorem startsFinite_of_bounded (faithful : j.Faithful c limit) (completed : 0 < j.result.iterations)
    (bounded : ∀ tour length, tour.Perm (List.range n) →
      c.distances.tourLength tour = .ok length → length.isFinite) : j.StartsFinite := by
  rw [faithful.runningMinimum.iterations] at completed
  obtain ⟨trips, first⟩ := Option.isSome_iff_exists.mp (List.isSome_head?.mpr
    (List.ne_nil_of_length_pos completed))
  have batch := List.mem_of_mem_head? first
  obtain ⟨trip, made⟩ := faithful.exists_mem_batch batch
  have valid := faithful.valid trips batch trip made
  exact ⟨trips, first, trip, made, bounded _ _ valid.visits valid.measured⟩

end Journal.Faithful

end Colony

namespace Annealing

variable {a : Annealing} {steps : Nat} {j : Journal}

/-- The points of a result have finite coordinates. -/
def Result.Located (r : Result) : Prop :=
  r.best.x.isFinite ∧ r.best.y.isFinite ∧ r.lastAccepted.x.isFinite ∧ r.lastAccepted.y.isFinite

/-- If the objective is finite everywhere, nothing but the coordinates and the number of moves keeps a
result from being read back. -/
theorem Journal.Faithful.portable_iff (schedule : a.config.Schedule steps)
    (finite : ∀ x y, (a.objective x y).isFinite) (faithful : j.Faithful a steps) :
    (j.result a.config).Portable ↔
      (j.result a.config).Located ∧ (j.result a.config).iterations < UInt64.size := by
  have numbers (x y : Float) : ¬(a.objective x y).isNaN :=
    Binary64.not_isNaN_of_isFinite (finite x y)
  have minimum := faithful.runningMinimum numbers
  have after := faithful.counts.1
  have value {p : Point} (on : p.On a.objective) : p.value.isFinite := by
    rw [on]
    exact finite _ _
  constructor
  · intro portable
    exact ⟨⟨portable.best.x, portable.best.y, portable.lastAccepted.x, portable.lastAccepted.y⟩,
      portable.iterations⟩
  · rintro ⟨⟨bestX, bestY, lastX, lastY⟩, words⟩
    have few : j.stages.length < UInt64.size := by
      have within := faithful.length_le
      have bound := schedule.le_levelBound a.valid
      have small := a.valid.levelBound_lt
      rw [show UInt64.size = 2 * 2 ^ 63 from rfl]
      omega
    exact {
      best := ⟨bestX, bestY, value minimum.best⟩
      lastAccepted := ⟨lastX, lastY, value minimum.current.2⟩
      iterations := words
      temperatureSteps := by
        rw [after.temperatureSteps]
        exact few
      finalTemperature := by
        rw [after.finalTemperature]
        exact schedule.isFinite_temperature a.valid faithful.length_le
      acceptedMoves := Nat.lt_of_le_of_lt after.accepted.2 words
      improvingMoves :=
        Nat.lt_of_le_of_lt (Nat.le_trans after.accepted.1 after.accepted.2) words
      history := by
        intro v member
        obtain ⟨k, hk, rfl⟩ := Array.getElem_of_mem (Array.mem_toList_iff.mp member)
        obtain ⟨p, evaluated, same⟩ := (minimum.entry k hk).attained
        have later := j.points_upTo_subset (Nat.le_max_left k j.stages.length) p evaluated
        rw [Journal.upTo_of_le (Nat.le_max_right k j.stages.length)] at later
        rw [← same]
        exact value (minimum.measured p later) }

/-- Two to the power 1022. -/
def remote : Float := Float.ofBits 0x7fd0000000000000

/-- A search that starts far off and can move twice as far. Its objective falls towards the left, and it
is lowest where the first coordinate is no longer finite. -/
def runaway : Annealing where
  objective := fun x _ => if x.isFinite then (if x < -remote then 1.0 else 2.0) else 0.0
  config := {
    initialTemperature := Float.ofBits 0x7fe0000000000000
    coolingRate := 0.5
    movesPerLevel := 2
    minTemperature := remote
    initialRange := remote }
  valid := Config.defect?_eq_none_iff.mp rfl

/-- Where its first move leads. -/
def outpost : Point :=
  ⟨Float.ofBits 0xffe8000000000000, Float.ofBits 0xffe8000000000000, 1.0⟩

/-- It moves down twice, and the second time its coordinates overflow. -/
theorem runaway_journal : runaway.journal (fun _ _ => false) (⟨#[0], 0⟩ : Script) =
    .ok (⟨⟨-remote, -remote, 2.0⟩, [⟨Float.ofBits 0x7fe0000000000000,
      [⟨⟨-remote, -remote, 2.0⟩, outpost, 0.0⟩,
        ⟨outpost, ⟨-Binary64.infinity, -Binary64.infinity, 0.0⟩, 0.0⟩]⟩], false⟩, ⟨#[0], 0⟩) := by
  rfl

end Annealing

open Record

variable {n : Nat} {σ : Type} [WordSource σ]

/-- The result of a colony is read back from its record if its first iteration has found a tour of finite
length, and not if the run was cancelled before. The result of annealing with a finite objective is read
back if its points have finite coordinates and its moves can be counted with a word. What is read back
is equal to the result in every field. -/
theorem runs_read_back (c : Colony n) (few : n ≤ UInt64.size) (a : Annealing)
    (finite : ∀ x y, (a.objective x y).isFinite) (stop : Nat → σ → Bool) (s : σ) :
    ((¬c.config.Fits ∧ ∃ count bytes, c.run stop s = .error (.noRoom count bytes)) ∨
      c.config.Fits ∧ ∃ j t, c.journal stop s = .ok (j, t) ∧
        c.run stop s = .ok ((j.result, j.colony), t) ∧
        ReadsBack Colony.Result.ofJson? j.result.toJson j.result j.StartsFinite ∧
        (j.result.iterations = 0 → Colony.Result.ofJson? j.result.toJson = none) ∧
        (0 < j.result.iterations →
          (∀ tour length, tour.Perm (List.range n) → c.distances.tourLength tour = .ok length →
            length.isFinite) →
          Colony.Result.ofJson? j.result.toJson = some j.result)) ∧
    ((¬Sampleable (-a.config.initialRange) a.config.initialRange ∧ a.run stop s =
        .error (.unsampleableRange (-a.config.initialRange) a.config.initialRange)) ∨
      Sampleable (-a.config.initialRange) a.config.initialRange ∧ ∃ j t,
        a.journal stop s = .ok (j, t) ∧ a.run stop s = .ok (j.result a.config, t) ∧
        ReadsBack Annealing.Result.ofJson? (j.result a.config).toJson (j.result a.config)
          ((j.result a.config).Located ∧ (j.result a.config).iterations < UInt64.size)) := by
  constructor
  · rcases c.run_cases stop s with refused | ⟨fits, j, t, told, ran, faithful⟩
    · exact .inl refused
    · have read : ReadsBack Colony.Result.ofJson? j.result.toJson j.result j.StartsFinite := by
        rw [← faithful.portable_iff few]
        exact j.result.readsBack
      refine .inr ⟨fits, j, t, told, ran, read, fun none => read.eq_none ?_, fun completed bounded =>
        read.eq_some (faithful.startsFinite_of_bounded completed bounded)⟩
      rw [faithful.startsFinite_iff]
      rintro ⟨some_entry, -⟩
      rw [faithful.runningMinimum.size, none] at some_entry
      exact Nat.lt_irrefl 0 some_entry
  · obtain ⟨steps, schedule⟩ := a.valid.exists_schedule
    rcases a.run_cases schedule stop s with refused | ⟨sampleable, j, t, told, ran, faithful⟩
    · exact .inl refused
    · refine .inr ⟨sampleable, j, t, told, ran, ?_⟩
      rw [← faithful.portable_iff schedule finite]
      exact (j.result a.config).readsBack

/-- A complete run between two cities is read back, and so is what a search on two terraces finds if its
coordinates are finite. -/
theorem twoCities_read_back :
    (∃ r c t, Colony.twoCities.run (fun _ _ => false) (⟨#[6, 28], 0⟩ : Script) = .ok ((r, c), t) ∧
      Colony.Result.ofJson? r.toJson = some r) ∧
    ∃ r t, Annealing.terraces.run (fun _ _ => false) (⟨#[6, 28], 0⟩ : Script) = .ok (r, t) ∧
      ReadsBack Annealing.Result.ofJson? r.toJson r
        (r.Located ∧ r.iterations < UInt64.size) := by
  have finite : ∀ x y, (Annealing.terraces.objective x y).isFinite := by
    intro x y
    simp only [Annealing.terraces]
    split
    · decide
    · decide
  have bounded : ∀ tour length, tour.Perm (List.range 2) →
      Colony.twoCities.distances.tourLength tour = .ok length → length.isFinite := by
    intro tour length visits measured
    have two : Colony.twoCities.distances.tourLength tour = .ok 2.0 := by
      rcases Tour.of_two_cities visits with rfl | rfl
      · rfl
      · rfl
    rw [two] at measured
    cases measured
    decide
  have fits : Colony.twoCities.config.Fits := ⟨by decide, by decide⟩
  have sampleable : Sampleable (-Annealing.terraces.config.initialRange)
    Annealing.terraces.config.initialRange := by decide
  obtain ⟨colony, annealing⟩ := runs_read_back Colony.twoCities (by decide) Annealing.terraces
    finite (fun _ _ => false) (⟨#[6, 28], 0⟩ : Script)
  constructor
  · obtain ⟨⟨r, c⟩, t, advanced, count, -⟩ :=
      Colony.advance_yields 2 Colony.twoCities .empty (⟨#[6, 28], 0⟩ : Script)
    rcases colony with refused | ⟨-, j, t', -, ran, -, -, complete⟩
    · exact absurd fits refused.1
    · have same := ran
      rw [Colony.run_of_fits fits] at same
      have known := same.symm.trans advanced
      cases known
      have completed : 0 < j.result.iterations := by
        rw [count]
        exact Nat.succ_pos 1
      exact ⟨_, _, _, ran, complete completed bounded⟩
  · rcases annealing with refused | ⟨-, j, t, -, ran, read⟩
    · exact absurd sampleable refused.1
    · exact ⟨_, t, ran, read⟩

/-- Neither a colony that is cancelled at once nor a search that has run away leaves a result that is
read back, although the objective of the search is finite everywhere. -/
theorem some_runs_not_read_back :
    (∃ r c t, Colony.twoCities.run (fun _ _ => true) (⟨#[0], 0⟩ : Script) = .ok ((r, c), t) ∧
      r.cancelled = true ∧ Colony.Result.ofJson? r.toJson = none) ∧
    (∀ x y, (Annealing.runaway.objective x y).isFinite) ∧
    ∃ r t, Annealing.runaway.run (fun _ _ => false) (⟨#[0], 0⟩ : Script) = .ok (r, t) ∧
      Annealing.Result.ofJson? r.toJson = none := by
  refine ⟨⟨_, _, _, rfl, rfl, ?_⟩, ?_, ?_⟩
  · exact (Colony.Result.readsBack _).eq_none fun portable =>
      absurd portable.bestLength (by decide)
  · intro x y
    simp only [Annealing.runaway]
    split
    · split
      · decide
      · decide
    · decide
  · have ran := Draw.map_eq_ok (Annealing.Journal.result Annealing.runaway.config)
      Annealing.runaway_journal
    rw [← Annealing.run_eq_journal] at ran
    refine ⟨_, _, ran, (Annealing.Result.readsBack _).eq_none fun portable => ?_⟩
    exact absurd portable.best.x (by decide)

end Metaheuristics

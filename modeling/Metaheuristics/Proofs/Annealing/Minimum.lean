import Metaheuristics.Proofs.Annealing.Journal

/-!
# The minimum of an annealing run

The best point of a run is compared with the accepted points only, yet no point at which the objective
was evaluated has a lower value (`RunningMinimum`). The invariant (`Walk.Tracks`) is that the best value
is at most the one held. A candidate below the one held is certain to be accepted, since its chance is
one and the fraction drawn is less, so a candidate that is declined is not below the best one either
(`Walk.Tracks.weigh`). Trials make up the levels, and levels make up the run (`Tracks.pass`,
`Tracks.extend`).
-/

namespace Metaheuristics.Annealing

/-- The lowest of the values of some points. -/
structure Lowest (value : Float) (points : List Point) : Prop where
  attained : ∃ p ∈ points, p.value = value
  lower : ∀ p ∈ points, value ≤ p.value

theorem Lowest.anti {x y : Float} {ps qs : List Point} (hx : Lowest x ps) (hy : Lowest y qs)
    (more : ∀ p ∈ ps, p ∈ qs) : y ≤ x := by
  obtain ⟨p, member, rfl⟩ := hx.attained
  exact hy.lower p (more p member)

/-! ## Trials -/

/-- Whether the candidate of a trial is below the point held. -/
def Trial.improves (trial : Trial) : Bool := trial.candidate.value < trial.held.value

/-- What holds of a walk after the objective was evaluated at some points. -/
structure Walk.Tracks (w : Walk) (points : List Point) : Prop where
  first : ∃ before after, points = before ++ w.best :: after ∧
    ∀ p ∈ before, w.best.value < p.value
  lower : ∀ p ∈ points, w.best.value ≤ p.value
  held : w.current ∈ points

namespace Walk

variable {w : Walk} {temperature : Float} {trial : Trial} {points : List Point}

/-- A candidate below the point held is accepted. -/
theorem weigh_of_lt (below : trial.candidate.value < w.current.value)
    (small : trial.fraction < 1.0) : w.weigh temperature trial = w.accept trial.candidate := by
  rw [weigh, consider, acceptance, if_pos below, if_pos small]

/-- The moves to a lower value are those whose candidate is below the point held. -/
theorem improving_weigh (held : trial.held = w.current) (small : trial.fraction < 1.0) :
    (w.weigh temperature trial).improving = w.improving + if trial.improves then 1 else 0 := by
  unfold Trial.improves
  rw [held]
  by_cases below : trial.candidate.value < w.current.value
  · rw [weigh_of_lt below small, accept, if_pos below, if_pos (decide_eq_true below)]
  · rw [if_neg (by simpa using below)]
    unfold weigh consider
    split
    · rw [accept, if_neg below]
      rfl
    · rfl

namespace Tracks

theorem start (p : Point) (number : ¬p.value.isNaN) : (Walk.start p).Tracks [p] where
  first := ⟨[], [], rfl, nofun⟩
  lower := by
    intro q member
    rw [List.mem_singleton.mp member]
    exact Binary64.le_refl number
  held := List.mem_singleton_self p

theorem best_mem (h : w.Tracks points) : w.best ∈ points := by
  obtain ⟨before, after, order, -⟩ := h.first
  rw [order]
  simp

theorem lowest (h : w.Tracks points) : Lowest w.best.value points :=
  ⟨⟨w.best, h.best_mem, rfl⟩, h.lower⟩

/-- A point that is not below the best one changes nothing. -/
theorem append (h : w.Tracks points) {p : Point} (above : w.best.value ≤ p.value) :
    w.Tracks (points ++ [p]) := by
  obtain ⟨before, after, order, strict⟩ := h.first
  refine ⟨⟨before, after ++ [p], ?_, strict⟩, ?_, List.mem_append_left _ h.held⟩
  · rw [order, List.append_assoc, List.cons_append]
  · exact List.forall_mem_append.mpr ⟨h.lower, List.forall_mem_singleton.mpr above⟩

/-- Moving to the point at which the objective was evaluated last. -/
theorem accept (h : w.Tracks points) {p : Point} (number : ¬p.value.isNaN) :
    (w.accept p).Tracks (points ++ [p]) := by
  have last : p ∈ points ++ [p] := List.mem_append_right _ (List.mem_singleton_self p)
  unfold Walk.accept
  by_cases below : p.value < w.best.value
  · have strict : ∀ q ∈ points, p.value < q.value :=
      fun q member => Binary64.lt_of_lt_of_le below (h.lower q member)
    rw [if_pos below]
    refine ⟨⟨points, [], rfl, strict⟩, ?_, last⟩
    exact List.forall_mem_append.mpr ⟨fun q member => Binary64.le_of_lt (strict q member),
      List.forall_mem_singleton.mpr (Binary64.le_refl number)⟩
  · have best : ¬w.best.value.isNaN := (Binary64.le_iff.mp (h.lower _ h.best_mem)).1
    have kept := h.append (Binary64.le_of_not_lt number best below)
    rw [if_neg below]
    exact ⟨kept.first, kept.lower, last⟩

/-- Staying, although the objective was evaluated at a point that is not below the one held. -/
theorem decline (h : w.Tracks points) {p : Point} (number : ¬p.value.isNaN)
    (above : ¬p.value < w.current.value) : w.decline.Tracks (points ++ [p]) := by
  -- the best point is not above the one held, and that one is not above the new point
  have held := h.lower _ h.held
  have further := Binary64.le_of_not_lt number (Binary64.le_iff.mp held).2.1 above
  have kept := h.append (Binary64.le_trans held further)
  exact ⟨kept.first, kept.lower, kept.held⟩

theorem weigh (h : w.Tracks points) (number : ¬trial.candidate.value.isNaN)
    (small : trial.fraction < 1.0) :
    (w.weigh temperature trial).Tracks (points ++ [trial.candidate]) := by
  by_cases below : trial.candidate.value < w.current.value
  · rw [weigh_of_lt below small]
    exact h.accept number
  · unfold Walk.weigh consider
    split
    · exact h.accept number
    · exact h.decline number below

end Tracks

end Walk

/-! ## Levels -/

namespace Journal

/-- The journal after one more level. -/
def push (j : Journal) (stage : Stage) : Journal := { j with stages := j.stages ++ [stage] }

/-- The journal as it was after a number of levels. -/
def upTo (j : Journal) (levels : Nat) : Journal := { j with stages := j.stages.take levels }

theorem trials_push (j : Journal) (stage : Stage) :
    (j.push stage).trials = j.trials ++ stage.trials := by
  simp [push, trials]

theorem points_push (j : Journal) (stage : Stage) :
    (j.push stage).points = j.points ++ stage.trials.map Trial.candidate := by
  unfold points
  rw [trials_push, List.map_append]
  rfl

theorem upTo_push {j : Journal} {levels : Nat} (within : levels ≤ j.stages.length) (stage : Stage) :
    (j.push stage).upTo levels = j.upTo levels := by
  unfold upTo push
  rw [List.take_append_of_le_length within]

theorem upTo_of_le {j : Journal} {levels : Nat} (all : j.stages.length ≤ levels) :
    j.upTo levels = j := by
  unfold upTo
  rw [List.take_of_length_le all]

end Journal

variable {a : Annealing} {p : Progress} {j : Journal}

/-- All trials of a level are tracked if the walk is tracked before it. -/
theorem Walk.Tracks.through {w : Walk} {points : List Point} {temperature : Float}
    {trials : List Trial} (numbers : ∀ x y, ¬(a.objective x y).isNaN) (h : w.Tracks points)
    (trying : Trials a.objective temperature w trials) :
    (w.through ⟨temperature, trials⟩).Tracks (points ++ trials.map Trial.candidate) ∧
      (w.through ⟨temperature, trials⟩).improving =
        w.improving + trials.countP Trial.improves := by
  induction trying generalizing points with
  | nil =>
      rw [List.map_nil, List.append_nil]
      exact ⟨h, rfl⟩
  | cons held on small later ih =>
      rename_i w trial trials
      have number : ¬trial.candidate.value.isNaN := by
        rw [on]
        exact numbers _ _
      obtain ⟨tracks, improving⟩ := ih (h.weigh number small)
      rw [List.append_assoc] at tracks
      refine ⟨tracks, ?_⟩
      show (Walk.through (w.weigh temperature trial) ⟨temperature, trials⟩).improving = _
      rw [improving, improving_weigh held small, List.countP_cons]
      omega

/-- What holds of a run after the levels of a journal. -/
structure Progress.Tracks (p : Progress) (j : Journal) : Prop where
  walk : p.walk.Tracks j.points
  size : p.history.size = j.stages.length + 1
  first : p.history[0]? = some j.start.value
  entry : ∀ k (h : k < p.history.size), Lowest p.history[k] (j.upTo k).points
  last : p.history.back? = some p.walk.best.value
  improving : p.walk.improving = j.trials.countP Trial.improves

namespace Progress.Tracks

theorem start {point : Point} (number : ¬point.value.isNaN) (c : Config) (cancelled : Bool) :
    (Progress.start c point).Tracks ⟨point, [], cancelled⟩ where
  walk := .start point number
  size := rfl
  first := rfl
  entry := by
    intro k h
    cases k with
    | zero => exact (Walk.Tracks.start point number).lowest
    | succ k => exact absurd (Nat.lt_of_succ_lt_succ h) (Nat.not_lt_zero k)
  last := rfl
  improving := rfl

theorem pass {stage : Stage} (numbers : ∀ x y, ¬(a.objective x y).isNaN) (h : p.Tracks j)
    (trying : Trials a.objective stage.temperature p.walk stage.trials) :
    (p.pass a.config stage).Tracks (j.push stage) := by
  obtain ⟨walk, improving⟩ := h.walk.through numbers trying
  rw [← Journal.points_push] at walk
  exact {
    walk := walk
    size := by simp [Progress.pass, Journal.push, h.size]
    first := by
      have some_entry : 0 ≠ p.history.size := by
        rw [h.size]
        omega
      rw [Progress.pass, Array.getElem?_push, if_neg some_entry]
      exact h.first
    entry := by
      intro k hk
      have size := h.size
      simp only [Progress.pass, Array.size_push] at hk
      simp only [Progress.pass, Array.getElem_push]
      split
      · -- an old entry has seen nothing of the level that is completed now
        rename_i old
        rw [Journal.upTo_push (by omega)]
        exact h.entry k old
      · rw [Journal.upTo_of_le (by simp [Journal.push]; omega)]
        exact walk.lowest
    last := Array.back?_push ..
    improving := by
      rw [Journal.trials_push, List.countP_append, ← h.improving]
      exact improving }

/-- Every run is made of levels. -/
theorem extend {stages : List Stage} (numbers : ∀ x y, ¬(a.objective x y).isNaN) (h : p.Tracks j)
    (through : Stages a p stages) :
    (p.extend a.config stages).Tracks { j with stages := j.stages ++ stages } := by
  induction through generalizing j with
  | nil =>
      rw [List.append_nil]
      exact h
  | cons temperature moves trying later ih =>
      have rest := ih (h.pass numbers trying)
      simp only [Journal.push, List.append_assoc] at rest
      exact rest

end Progress.Tracks

/-! ## The result of a run -/

/-- The result is the running minimum over all points at which the objective was evaluated. -/
structure RunningMinimum (f : Objective) (r : Result) (j : Journal) : Prop where
  /-- The best point is the first one of the lowest value. -/
  first : ∃ before after, j.points = before ++ r.best :: after ∧ ∀ p ∈ before, r.best.value < p.value
  lower : ∀ p ∈ j.points, r.best.value ≤ p.value
  /-- The history has an entry for the start and one for each level. -/
  size : r.valueHistory.size = j.stages.length + 1
  start : r.valueHistory[0]? = some j.start.value
  /-- An entry is the lowest value of all points up to its level. -/
  entry : ∀ k (h : k < r.valueHistory.size), Lowest r.valueHistory[k] (j.upTo k).points
  antitone : ∀ i k (h : k < r.valueHistory.size) (le : i ≤ k),
    r.valueHistory[k] ≤ r.valueHistory[i]
  last : r.valueHistory.back? = some r.best.value
  lastAccepted : r.best.value ≤ r.lastAccepted.value
  /-- Every point has the value of the objective, also the best one and the last one. -/
  measured : ∀ p ∈ j.points, p.On f
  best : r.best.On f
  current : r.lastAccepted ∈ j.points ∧ r.lastAccepted.On f
  /-- The improving moves are the candidates below the point held when they were proposed. -/
  improving : r.improvingMoves =
    j.trials.countP fun trial => trial.candidate.value < trial.held.value

/-- What has been evaluated after a level has been evaluated after every later one. -/
theorem Journal.points_upTo_subset (j : Journal) {i k : Nat} (le : i ≤ k) :
    ∀ p ∈ (j.upTo i).points, p ∈ (j.upTo k).points := by
  intro p member
  rcases List.mem_cons.mp member with rfl | candidate
  · exact List.mem_cons_self
  · obtain ⟨trial, tried, rfl⟩ := List.mem_map.mp candidate
    obtain ⟨stage, completed, inside⟩ := List.mem_flatMap.mp tried
    have later : stage ∈ j.stages.take k := List.take_subset_take_left j.stages le completed
    exact List.mem_cons_of_mem _ (List.mem_map_of_mem (List.mem_flatMap_of_mem later inside))

theorem Journal.Faithful.runningMinimum {steps : Nat} (numbers : ∀ x y, ¬(a.objective x y).isNaN)
    (faithful : j.Faithful a steps) : RunningMinimum a.objective (j.result a.config) j := by
  have number : ¬j.start.value.isNaN := by
    rw [faithful.start]
    exact numbers _ _
  have tracks := (Progress.Tracks.start number a.config j.cancelled).extend numbers faithful.stages
  rw [List.nil_append] at tracks
  exact {
    first := tracks.walk.first
    lower := tracks.walk.lower
    size := tracks.size
    start := tracks.first
    entry := tracks.entry
    antitone := fun i k h le => (tracks.entry i (Nat.lt_of_le_of_lt le h)).anti (tracks.entry k h)
      (j.points_upTo_subset le)
    last := tracks.last
    lastAccepted := tracks.walk.lower _ tracks.walk.held
    measured := faithful.measured
    best := faithful.measured _ tracks.walk.best_mem
    current := ⟨tracks.walk.held, faithful.measured _ tracks.walk.held⟩
    improving := tracks.improving }

variable {σ : Type} [WordSource σ]

/-- However a run is stopped, no point at which its objective was evaluated is below its best point,
provided that the objective is never a NaN. -/
theorem run_finds_lowest (a : Annealing) (numbers : ∀ x y, ¬(a.objective x y).isNaN)
    (stop : Nat → σ → Bool) (s : σ) :
    (¬Sampleable (-a.config.initialRange) a.config.initialRange ∧ a.run stop s =
        .error (.unsampleableRange (-a.config.initialRange) a.config.initialRange)) ∨
      Sampleable (-a.config.initialRange) a.config.initialRange ∧ ∃ j t,
        a.journal stop s = .ok (j, t) ∧ a.run stop s = .ok (j.result a.config, t) ∧
          Stages a (.start a.config j.start) j.stages ∧
          RunningMinimum a.objective (j.result a.config) j := by
  obtain ⟨steps, schedule⟩ := a.valid.exists_schedule
  rcases a.run_cases schedule stop s with refused | ⟨sampleable, j, t, told, ran, faithful⟩
  · exact .inl refused
  · exact .inr ⟨sampleable, j, t, told, ran, faithful.stages, faithful.runningMinimum numbers⟩

/-- A search on two terraces, the lower one to the left of the origin. -/
def terraces : Annealing where
  objective := fun x _ => if x < 0.0 then 0.0 else 1.0
  config := { initialTemperature := 4.0, coolingRate := 0.5, movesPerLevel := 3, minTemperature := 1.0 }
  valid := Config.defect?_eq_none_iff.mp rfl

/-- The terraces are numbers everywhere, so a run over them that is cancelled after a level finds the
lowest of its points. -/
theorem terraces_finds_lowest :
    (∀ x y, ¬(terraces.objective x y).isNaN) ∧ ∃ j t,
      terraces.journal (fun done _ => done == 1) (⟨#[6, 28], 0⟩ : Script) = .ok (j, t) ∧
      terraces.run (fun done _ => done == 1) (⟨#[6, 28], 0⟩ : Script) =
        .ok (j.result terraces.config, t) ∧
      Stages terraces (.start terraces.config j.start) j.stages ∧
      RunningMinimum terraces.objective (j.result terraces.config) j := by
  have numbers : ∀ x y, ¬(terraces.objective x y).isNaN := by
    intro x y
    simp only [terraces]
    split <;> decide
  have sampleable : Sampleable (-terraces.config.initialRange) terraces.config.initialRange := by
    decide
  rcases run_finds_lowest terraces numbers (fun done _ => done == 1) (⟨#[6, 28], 0⟩ : Script) with
    refused | ⟨-, found⟩
  · exact absurd sampleable refused.1
  · exact ⟨numbers, found⟩

end Metaheuristics.Annealing

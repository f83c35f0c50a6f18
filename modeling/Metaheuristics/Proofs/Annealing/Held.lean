import Metaheuristics.Proofs.Annealing.Journal
import Metaheuristics.Proofs.Earliest

/-!
# The points that a run holds

A run holds its start, and then each candidate that it accepts (`Journal.held`). No value is below a
NaN and a NaN is below no value, so it matters where the first one is met. Collected here:

* every candidate has a chance to be accepted, whatever its value is (`minNormal_le_acceptance`);
* a best point that is a number stays the lowest number held, and one that is not stays as it is
  (`Walk.Keeps.weigh`);
* so the best point of a run is the lowest number held, unless the start is a NaN: then it is the
  start, whatever is held later (`run_keeps_lowest_held`);
* such a search may leave its start for a number and keep the NaN (`islet_keeps_nan`).
-/

namespace Metaheuristics.Annealing

/-- Whether the candidate of a trial is accepted at a temperature. -/
def Trial.accepted [Exponential] (temperature : Float) (trial : Trial) : Bool :=
  trial.fraction < acceptance trial.held.value trial.candidate.value temperature

/-- The points that some trials move to. -/
def movesOf (temperature : Float) (trials : List Trial) : List Point :=
  (trials.filter (Trial.accepted temperature)).map Trial.candidate

/-- The points that a level moves to. -/
def Stage.moves (stage : Stage) : List Point := movesOf stage.temperature stage.trials

/-- The points that a run holds, in the order of time. -/
def Journal.held (j : Journal) : List Point := j.start :: j.stages.flatMap Stage.moves

/-- No candidate is without a chance, be it a NaN or infinitely worse. -/
theorem minNormal_le_acceptance [Exponential] (current candidate temperature : Float) :
    Binary64.minNormal ≤ acceptance current candidate temperature := by
  unfold acceptance
  split
  · decide
  · exact Binary64.le_larger (by decide)

/-! ## The lowest number held -/

/-- The first point of the lowest value, where a NaN does not count. -/
structure LowestHeld (best : Point) (held : List Point) : Prop where
  number : ¬best.value.isNaN
  first : ∃ before after, held = before ++ best :: after ∧
    ∀ p ∈ before, ¬p.value.isNaN → best.value < p.value
  lower : ∀ p ∈ held, ¬p.value.isNaN → best.value ≤ p.value

theorem lowestHeld_iff {best : Point} {held : List Point} :
    LowestHeld best held ↔ Restart.Earliest Point.value held best :=
  ⟨fun ⟨number, first, lower⟩ => ⟨number, first, lower⟩,
    fun ⟨number, first, lower⟩ => ⟨number, first, lower⟩⟩

/-! ## Trials -/

/-- What holds of a walk that began at a point and has moved to some others since. -/
structure Walk.Keeps (w : Walk) (start : Point) (moves : List Point) : Prop where
  current : (start :: moves).getLast? = some w.current
  accepted : w.accepted = moves.length
  stuck : start.value.isNaN → w.best = start
  lowest : ¬start.value.isNaN → LowestHeld w.best (start :: moves)

namespace Walk.Keeps

variable {w : Walk} {start : Point} {moves : List Point} {temperature : Float} {trial : Trial}

theorem initial (p : Point) : (Walk.start p).Keeps p [] where
  current := rfl
  accepted := rfl
  stuck := fun _ => rfl
  lowest := fun number => lowestHeld_iff.mpr (.single number)

theorem accept (h : w.Keeps start moves) (p : Point) :
    (w.accept p).Keeps start (moves ++ [p]) where
  current := List.getLast?_concat (l := start :: moves)
  accepted := by
    rw [List.length_append, ← h.accepted]
    rfl
  stuck := by
    intro nan
    have same := h.stuck nan
    -- nothing is below a NaN
    have above : ¬p.value < w.best.value := by
      rw [same]
      exact fun below => (Binary64.lt_iff.mp below).2.1 nan
    rw [Walk.accept, if_neg above]
    exact same
  lowest := fun number => lowestHeld_iff.mpr ((lowestHeld_iff.mp (h.lowest number)).push p)

theorem decline (h : w.Keeps start moves) : w.decline.Keeps start moves :=
  ⟨h.current, h.accepted, h.stuck, h.lowest⟩

/-- A trial adds its candidate to the points held if it is accepted. -/
theorem weigh (h : w.Keeps start moves) (held : trial.held = w.current) :
    (w.weigh temperature trial).Keeps start (moves ++ movesOf temperature [trial]) := by
  unfold Walk.weigh consider
  by_cases accepted : trial.fraction < acceptance w.current.value trial.candidate.value temperature
  · have moved : movesOf temperature [trial] = [trial.candidate] := by
      simp [movesOf, Trial.accepted, held, accepted]
    rw [if_pos accepted, moved]
    exact h.accept trial.candidate
  · have stayed : movesOf temperature [trial] = [] := by
      simp [movesOf, Trial.accepted, held, accepted]
    rw [if_neg accepted, stayed, List.append_nil]
    exact h.decline

end Walk.Keeps

theorem movesOf_cons (temperature : Float) (trial : Trial) (trials : List Trial) :
    movesOf temperature (trial :: trials) =
      movesOf temperature [trial] ++ movesOf temperature trials := by
  simp only [movesOf, ← List.map_append, ← List.filter_append, List.singleton_append]

/-! ## Levels and runs -/

variable {a : Annealing}

theorem Walk.Keeps.through {w : Walk} {start : Point} {moves : List Point} {temperature : Float}
    {trials : List Trial} (h : w.Keeps start moves)
    (trying : Trials a.objective temperature w trials) :
    (w.through ⟨temperature, trials⟩).Keeps start (moves ++ movesOf temperature trials) := by
  induction trying generalizing moves with
  | nil =>
      rw [movesOf, List.filter_nil, List.map_nil, List.append_nil]
      exact h
  | cons held on small later ih =>
      rename_i w trial trials
      rw [movesOf_cons, ← List.append_assoc]
      exact ih (h.weigh held)

theorem Walk.Keeps.extend {p : Progress} {start : Point} {moves : List Point} {stages : List Stage}
    (h : p.walk.Keeps start moves) (through : Stages a p stages) :
    (p.extend a.config stages).walk.Keeps start (moves ++ stages.flatMap Stage.moves) := by
  induction through generalizing moves with
  | nil =>
      rw [List.flatMap_nil, List.append_nil]
      exact h
  | cons temperature count trying later ih =>
      rw [List.flatMap_cons, ← List.append_assoc]
      exact ih (h.through trying)

/-- What the result of a run tells of the points held. -/
structure KeepsHeld (r : Result) (j : Journal) : Prop where
  /-- The last point is the one held at the end. -/
  last : j.held.getLast? = some r.lastAccepted
  accepted : r.acceptedMoves + 1 = j.held.length
  /-- After a start that is a number, the best point is the first one of the lowest value. -/
  lowest : ¬j.start.value.isNaN → LowestHeld r.best j.held
  /-- After a start that is a NaN, nothing counts. -/
  stuck : j.start.value.isNaN → r.best = j.start

theorem Journal.Faithful.keepsHeld {steps : Nat} {j : Journal} (faithful : j.Faithful a steps) :
    KeepsHeld (j.result a.config) j := by
  have keeps := (Walk.Keeps.initial j.start).extend
    (p := .start a.config j.start) faithful.stages
  rw [List.nil_append] at keeps
  exact {
    last := keeps.current
    accepted := congrArg (· + 1) keeps.accepted
    lowest := keeps.lowest
    stuck := keeps.stuck }

/-- The best point is a NaN if the start is one, and not otherwise. -/
theorem KeepsHeld.isNaN_best_iff {r : Result} {j : Journal} (keeps : KeepsHeld r j) :
    r.best.value.isNaN ↔ j.start.value.isNaN := by
  constructor
  · intro nan
    refine Decidable.by_contra fun number => ?_
    exact (keeps.lowest number).number nan
  · intro nan
    rw [keeps.stuck nan]
    exact nan

variable {σ : Type} [WordSource σ]

/-- However a run is stopped and wherever its objective is a NaN, its best point has the lowest number
that it held, unless it began at a NaN, which then stays its best point. -/
theorem run_keeps_lowest_held (a : Annealing) (stop : Nat → σ → Bool) (s : σ) :
    (¬Sampleable (-a.config.initialRange) a.config.initialRange ∧ a.run stop s =
        .error (.unsampleableRange (-a.config.initialRange) a.config.initialRange)) ∨
      Sampleable (-a.config.initialRange) a.config.initialRange ∧ ∃ j t,
        a.journal stop s = .ok (j, t) ∧ a.run stop s = .ok (j.result a.config, t) ∧
          Stages a (.start a.config j.start) j.stages ∧
          KeepsHeld (j.result a.config) j ∧
          ((j.result a.config).best.value.isNaN ↔ j.start.value.isNaN) := by
  obtain ⟨steps, schedule⟩ := a.valid.exists_schedule
  rcases a.run_cases schedule stop s with refused | ⟨sampleable, j, t, told, ran, faithful⟩
  · exact .inl refused
  · have keeps := faithful.keepsHeld
    exact .inr ⟨sampleable, j, t, told, ran, faithful.stages, keeps, keeps.isNaN_best_iff⟩

/-- A search on an islet around the origin. Off the islet the objective is a NaN. -/
def islet : Annealing where
  objective := fun x y => if 1.0 < x.abs || 1.0 < y.abs then 0.0 / 0.0 else x * x + y * y
  config := { initialTemperature := 10.0, coolingRate := 0.5, movesPerLevel := 1, minTemperature := 8.0 }
  valid := Config.defect?_eq_none_iff.mp rfl

/-- Words by which the search starts at (-5, -5), off the islet, and is offered the origin. -/
def adrift : Script := ⟨#[0, 0, 0xc000000000000000, 0xc000000000000000, 0], 0⟩

/-- The trial that these words lead to. -/
def landing : Trial := ⟨islet.objective.at (-5.0) (-5.0), islet.objective.at 0.0 0.0, 0.0⟩

theorem landing_accepted : landing.accepted 10.0 = true := by
  have chance := minNormal_le_acceptance landing.held.value landing.candidate.value 10.0
  exact decide_eq_true (Binary64.lt_of_lt_of_le (by decide) chance)

/-- A search that starts at a NaN, moves to a number and ends there has a NaN for its best value. -/
theorem islet_keeps_nan : ∃ j t,
    islet.journal (fun _ _ => false) adrift = .ok (j, t) ∧
      islet.run (fun _ _ => false) adrift = .ok (j.result islet.config, t) ∧
      (∃ p ∈ j.held, ¬p.value.isNaN) ∧ (j.result islet.config).best.value.isNaN := by
  have told : islet.journal (fun _ _ => false) adrift =
      .ok (⟨landing.held, [⟨10.0, [landing]⟩], false⟩, adrift) := by rfl
  have ran := Draw.map_eq_ok (Journal.result islet.config) told
  rw [← run_eq_journal] at ran
  refine ⟨_, _, told, ran, ⟨landing.candidate, ?_, by decide⟩, ?_⟩
  · simp [Journal.held, Stage.moves, movesOf, landing_accepted]
  · have keeps : ((Walk.start landing.held).weigh 10.0 landing).Keeps landing.held _ :=
      (Walk.Keeps.initial landing.held).weigh rfl
    show ((Walk.start landing.held).weigh 10.0 landing).best.value.isNaN = true
    rw [keeps.stuck (by decide)]
    decide

end Metaheuristics.Annealing

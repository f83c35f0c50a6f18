import Metaheuristics.Annealing.Basic
import Metaheuristics.Proofs.Annealing.Cooling
import Metaheuristics.Proofs.Random.Yields

/-!
# The journal of an annealing run

A run keeps the best point and the last one, and counts the rest. Its journal keeps every trial, level
by level, and the result of the run is read off the journal. Collected here:

* the journal (`Journal`, `follow`) and the result that it sums up to (`run_eq_journal`);
* what the trials of a level have in common: each starts from the point held after those before it,
  its candidate has the value of the objective, and its fraction is less than one (`Trials`,
  `Stages`);
* a run whose start can be drawn ends with a result, and its journal is faithful (`run_cases`).
-/

namespace Metaheuristics.Annealing

/-- A move that was tried: the point held at the time, the point proposed, and the fraction that
decided between them. -/
structure Trial where
  held : Point
  candidate : Point
  fraction : Float

/-- The trials of one temperature level. -/
structure Stage where
  temperature : Float
  trials : List Trial

/-- What has happened in a run: its start, the completed levels, and whether it was cancelled then. -/
structure Journal where
  start : Point
  stages : List Stage
  cancelled : Bool

/-- Decides about a trial. -/
def Walk.weigh [Exponential] (temperature : Float) (w : Walk) (trial : Trial) : Walk :=
  w.consider temperature trial.candidate trial.fraction

/-- Goes through the trials of a level. -/
def Walk.through [Exponential] (w : Walk) (stage : Stage) : Walk :=
  stage.trials.foldl (Walk.weigh stage.temperature) w

namespace Progress

/-- The beginning of a run at a point. -/
def start (c : Config) (p : Point) : Progress := ⟨.start p, c.initialTemperature, 0, #[p.value]⟩

/-- Completes a level. -/
def pass [Exponential] (c : Config) (p : Progress) (stage : Stage) : Progress where
  walk := p.walk.through stage
  temperature := p.temperature * c.coolingRate
  levels := p.levels + 1
  history := p.history.push (p.walk.through stage).best.value

/-- What is known after some levels if `p` was known before them. -/
def extend [Exponential] (c : Config) (p : Progress) (stages : List Stage) : Progress :=
  stages.foldl (pass c) p

end Progress

namespace Journal

/-- The result of the run that the journal tells of. -/
def result [Exponential] (c : Config) (j : Journal) : Result :=
  ((Progress.start c j.start).extend c j.stages).result j.cancelled

/-- All trials in the order of time. -/
def trials (j : Journal) : List Trial := j.stages.flatMap Stage.trials

/-- All points at which the objective was evaluated, in the order of time. -/
def points (j : Journal) : List Point := j.start :: j.trials.map Trial.candidate

end Journal

variable {σ : Type} [WordSource σ]

/-- Tries a number of moves as `moves` does, and writes them down. -/
def tries [Exponential] (a : Annealing) (temperature : Float) :
    Nat → Walk → Draw σ (List Trial)
  | 0, _ => return []
  | count + 1, w => do
    let candidate ← a.propose temperature w.current
    let fraction ← Draw.fraction
    let trial : Trial := ⟨w.current, candidate, fraction⟩
    let rest ← a.tries temperature count (w.weigh temperature trial)
    return trial :: rest

/-- Goes through a level as `level` does, and writes its trials down. -/
def stage [Exponential] (a : Annealing) (p : Progress) : Draw σ Stage := do
  let trials ← a.tries p.temperature a.config.movesPerLevel.toNat p.walk
  return ⟨p.temperature, trials⟩

/-- Goes on with a run as `proceed` does, and writes down what happens. -/
def follow [Exponential] (a : Annealing) (stop : Nat → σ → Bool) :
    Nat → Progress → Draw σ (List Stage × Bool)
  | 0, _ => return ([], false)
  | limit + 1, p => do
    if a.config.minTemperature < p.temperature then
      let source ← get
      if stop p.levels source then
        return ([], true)
      else
        let stage ← a.stage p
        let rest ← a.follow stop limit (p.pass a.config stage)
        return (stage :: rest.1, rest.2)
    else
      return ([], false)

/-- Runs the search and writes down what happens. -/
def journal [Exponential] (a : Annealing) (stop : Nat → σ → Bool) : Draw σ Journal := do
  let p ← a.begin
  let (stages, cancelled) ← a.follow stop a.config.levelBound p
  return ⟨p.walk.current, stages, cancelled⟩

/-! ## Reading the result off the journal -/

variable [Exponential]

theorem moves_eq_tries (a : Annealing) (temperature : Float) (count : Nat) (w : Walk) :
    (a.moves temperature count w : Draw σ Walk) =
      (fun trials => w.through ⟨temperature, trials⟩) <$> a.tries temperature count w := by
  induction count generalizing w with
  | zero =>
      rw [moves, tries, map_pure]
      rfl
  | succ count ih =>
      rw [moves, tries, move, map_bind, bind_assoc]
      refine bind_congr fun candidate => ?_
      rw [map_bind, bind_assoc]
      refine bind_congr fun fraction => ?_
      rw [pure_bind, map_bind, ih, map_eq_pure_bind]
      refine bind_congr fun rest => ?_
      rw [map_pure]
      rfl

theorem level_eq_stage (a : Annealing) (p : Progress) :
    (a.level p : Draw σ Progress) = p.pass a.config <$> a.stage p := by
  rw [level, stage, moves_eq_tries, map_bind, map_eq_pure_bind, bind_assoc]
  refine bind_congr fun trials => ?_
  rw [pure_bind, map_pure]
  rfl

/-- A run knows in the end what its journal tells. -/
theorem proceed_eq_follow (a : Annealing) (stop : Nat → σ → Bool) (limit : Nat) (p : Progress) :
    a.proceed stop limit p =
      (fun rest => (p.extend a.config rest.1).result rest.2) <$> a.follow stop limit p := by
  induction limit generalizing p with
  | zero =>
      rw [proceed, follow, map_pure]
      rfl
  | succ limit ih =>
      rw [proceed, follow]
      by_cases above : a.config.minTemperature < p.temperature
      · rw [if_pos above, if_pos above, map_bind]
        refine bind_congr fun source => ?_
        by_cases raised : stop p.levels source = true
        · rw [if_pos raised, if_pos raised, map_pure]
          rfl
        · rw [if_neg raised, if_neg raised, level_eq_stage, map_bind, bind_map_left]
          refine bind_congr fun stage => ?_
          rw [ih, map_bind, map_eq_pure_bind]
          refine bind_congr fun rest => ?_
          rw [map_pure]
          rfl
      · rw [if_neg above, if_neg above, map_pure]
        rfl

omit [Exponential] in
/-- What comes after the beginning of a run only ever sees a run that begins at a point. -/
theorem begin_congr {α : Type} (a : Annealing) {f g : Progress → Draw σ α}
    (same : ∀ start : Point, f (.start a.config start) = g (.start a.config start)) :
    a.begin >>= f = a.begin >>= g := by
  rw [begin, bind_assoc, bind_assoc]
  refine bind_congr fun range => ?_
  rw [bind_assoc, bind_assoc]
  refine bind_congr fun x => ?_
  rw [bind_assoc, bind_assoc]
  refine bind_congr fun y => ?_
  rw [pure_bind, pure_bind]
  exact same (a.objective.at x y)

/-- The result of a run is read off its journal. -/
theorem run_eq_journal (a : Annealing) (stop : Nat → σ → Bool) :
    a.run stop = Journal.result a.config <$> a.journal stop := by
  rw [run, journal, map_bind]
  refine a.begin_congr fun start => ?_
  rw [proceed_eq_follow, map_bind, map_eq_pure_bind]
  refine bind_congr fun rest => ?_
  rw [map_pure]
  rfl

/-! ## What a run depends on -/

/-- Of a search, the trials of a level see the objective alone. -/
theorem tries_congr {a b : Annealing} (objective : a.objective = b.objective) (temperature : Float)
    (count : Nat) (w : Walk) :
    (a.tries temperature count w : Draw σ (List Trial)) = b.tries temperature count w := by
  induction count generalizing w with
  | zero => rfl
  | succ count ih =>
      rw [tries, tries, propose, propose, objective]
      refine bind_congr fun candidate => bind_congr fun fraction => ?_
      exact congrArg (· >>= _) (ih _)

/-- A level sees besides how many moves there are. -/
theorem stage_congr {a b : Annealing} (objective : a.objective = b.objective)
    (moves : a.config.movesPerLevel = b.config.movesPerLevel) (p : Progress) :
    (a.stage p : Draw σ Stage) = b.stage p := by
  rw [stage, stage, moves, tries_congr objective]

/-! ## What a run does -/

/-- A point has the value of the objective. -/
def Point.On (p : Point) (f : Objective) : Prop := p = f.at p.x p.y

omit [Exponential] in
theorem Objective.at_on (f : Objective) (x y : Float) : (f.at x y).On f := rfl

/-- Trials that a walk may go through: each starts from the point held at the time. -/
inductive Trials (f : Objective) (temperature : Float) : Walk → List Trial → Prop
  | nil {w : Walk} : Trials f temperature w []
  | cons {w : Walk} {trial : Trial} {trials : List Trial} : trial.held = w.current →
      trial.candidate.On f → trial.fraction < 1.0 →
      Trials f temperature (w.weigh temperature trial) trials →
      Trials f temperature w (trial :: trials)

/-- Levels that a run may go through: each has the temperature of the time and as many trials as there
are moves. -/
inductive Stages (a : Annealing) : Progress → List Stage → Prop
  | nil {p : Progress} : Stages a p []
  | cons {p : Progress} {stage : Stage} {stages : List Stage} :
      stage.temperature = p.temperature → stage.trials.length = a.config.movesPerLevel.toNat →
      Trials a.objective stage.temperature p.walk stage.trials →
      Stages a (p.pass a.config stage) stages → Stages a p (stage :: stages)

theorem Trials.measured {f : Objective} {temperature : Float} {w : Walk} {trials : List Trial}
    (trying : Trials f temperature w trials) : ∀ trial ∈ trials, trial.candidate.On f := by
  induction trying with
  | nil => nofun
  | cons held on small later ih => exact List.forall_mem_cons.mpr ⟨on, ih⟩

theorem Stages.measured {a : Annealing} {p : Progress} {stages : List Stage}
    (through : Stages a p stages) :
    ∀ stage ∈ stages, ∀ trial ∈ stage.trials, trial.candidate.On a.objective := by
  induction through with
  | nil => nofun
  | cons temperature moves trying later ih => exact List.forall_mem_cons.mpr ⟨trying.measured, ih⟩

omit [Exponential] in
theorem propose_yields (a : Annealing) (temperature : Float) (p : Point) :
    Draw.Yields (a.propose temperature p : Draw σ Point) fun candidate =>
      candidate.On a.objective := by
  unfold propose
  refine (Interval.symmetricUnit.sample_yields).bind fun dx _ => ?_
  refine (Interval.symmetricUnit.sample_yields).bind fun dy _ => ?_
  exact .pure (a.objective.at_on _ _)

theorem tries_yields (a : Annealing) (temperature : Float) (count : Nat) (w : Walk) :
    Draw.Yields (a.tries temperature count w : Draw σ (List Trial)) fun trials =>
      trials.length = count ∧ Trials a.objective temperature w trials := by
  induction count generalizing w with
  | zero => exact .pure ⟨rfl, .nil⟩
  | succ count ih =>
      unfold tries
      refine (a.propose_yields temperature w.current).bind fun candidate on => ?_
      refine Draw.fraction_yields.bind fun fraction small => ?_
      refine (ih _).bind fun rest later => .pure ?_
      exact ⟨congrArg (· + 1) later.1, .cons rfl on small later.2⟩

theorem stage_yields (a : Annealing) (p : Progress) :
    Draw.Yields (a.stage p : Draw σ Stage) fun stage =>
      stage.temperature = p.temperature ∧ stage.trials.length = a.config.movesPerLevel.toNat ∧
        Trials a.objective stage.temperature p.walk stage.trials := by
  unfold stage
  refine (a.tries_yields p.temperature _ p.walk).bind fun trials later => .pure ?_
  exact ⟨rfl, later.1, later.2⟩

/-- However a run is stopped, it goes through levels of the schedule, and through all of them if it is
not cancelled. -/
theorem follow_yields (a : Annealing) {steps : Nat} (schedule : a.config.Schedule steps)
    (stop : Nat → σ → Bool) {limit levels : Nat} {p : Progress} (within : levels ≤ steps)
    (enough : steps ≤ levels + limit) (now : p.temperature = a.config.temperature levels) :
    Draw.Yields (a.follow stop limit p) fun rest =>
      Stages a p rest.1 ∧
        if rest.2 then levels + rest.1.length < steps else levels + rest.1.length = steps := by
  induction limit generalizing levels p with
  | zero => exact .pure ⟨.nil, Nat.le_antisymm within enough⟩
  | succ limit ih =>
      unfold follow
      rw [now]
      by_cases going : levels < steps
      · rw [if_pos ((schedule.above_iff within).mpr going)]
        refine .get_bind fun source => ?_
        by_cases raised : stop p.levels source = true
        · rw [if_pos raised]
          exact .pure ⟨.nil, going⟩
        · rw [if_neg raised]
          refine (a.stage_yields p).bind fun stage ⟨temperature, count, trials⟩ => ?_
          have cooled : (p.pass a.config stage).temperature = a.config.temperature (levels + 1) :=
            congrArg (· * a.config.coolingRate) now
          refine (ih going (by omega) cooled).bind fun rest ⟨stages, done⟩ => .pure ?_
          refine ⟨.cons temperature count trials stages, ?_⟩
          rw [List.length_cons, ← Nat.add_assoc, Nat.add_right_comm]
          exact done
      · rw [if_neg (mt (schedule.above_iff within).mp going)]
        exact .pure ⟨.nil, Nat.le_antisymm within (Nat.not_lt.mp going)⟩

omit [Exponential] in
/-- The start of a run is drawn from a range that may be too wide. -/
theorem begin_refused {a : Annealing}
    (unsampleable : ¬Sampleable (-a.config.initialRange) a.config.initialRange) (s : σ) :
    a.begin s =
      .error (.unsampleableRange (-a.config.initialRange) a.config.initialRange) := by
  rw [begin, Interval.between, dif_neg unsampleable]
  rfl

omit [Exponential] in
theorem begin_yields {a : Annealing}
    (sampleable : Sampleable (-a.config.initialRange) a.config.initialRange) :
    Draw.Yields (a.begin : Draw σ Progress) fun p =>
      ∃ start : Point, start.On a.objective ∧ p = .start a.config start := by
  have range : Interval.between (-a.config.initialRange) a.config.initialRange =
      .ok ⟨_, _, sampleable⟩ := dif_pos sampleable
  rw [begin, range]
  refine (Draw.Yields.lift ⟨_, rfl, trivial⟩).bind (P := fun _ => True) fun range _ => ?_
  refine range.sample_yields.bind fun x _ => range.sample_yields.bind fun y _ => .pure ?_
  exact ⟨a.objective.at x y, a.objective.at_on x y, rfl⟩

/-- A journal tells of levels that the run went through after it had begun at the start. -/
theorem journal_eq_ok {a : Annealing} {stop : Nat → σ → Bool} {s t : σ} {j : Journal}
    (sampleable : Sampleable (-a.config.initialRange) a.config.initialRange)
    (told : a.journal stop s = .ok (j, t)) :
    ∃ s', a.begin s = .ok (.start a.config j.start, s') ∧
      a.follow stop a.config.levelBound (.start a.config j.start) s' =
        .ok ((j.stages, j.cancelled), t) := by
  obtain ⟨p, s', begun, told⟩ := Draw.bind_eq_ok_iff.mp told
  obtain ⟨rest, u, followed, told⟩ := Draw.bind_eq_ok_iff.mp told
  obtain ⟨start, -, rfl⟩ := (begin_yields sampleable).of_ok begun
  cases told
  exact ⟨s', begun, followed⟩

/-- A journal that a search may have whose schedule has `steps` levels. -/
structure Journal.Faithful (a : Annealing) (steps : Nat) (j : Journal) : Prop where
  start : j.start.On a.objective
  stages : Stages a (.start a.config j.start) j.stages
  length : if j.cancelled then j.stages.length < steps else j.stages.length = steps

omit [Exponential] in
/-- The points of a run are its start and the candidates of all trials. -/
theorem Journal.forall_points_iff {P : Point → Prop} {j : Journal} :
    (∀ p ∈ j.points, P p) ↔
      P j.start ∧ ∀ stage ∈ j.stages, ∀ trial ∈ stage.trials, P trial.candidate := by
  rw [points, trials, List.forall_mem_cons]
  refine and_congr_right fun _ => ⟨fun all stage completed trial tried => ?_, fun all p member => ?_⟩
  · exact all _ (List.mem_map_of_mem (List.mem_flatMap_of_mem completed tried))
  · obtain ⟨trial, tried, rfl⟩ := List.mem_map.mp member
    obtain ⟨stage, completed, inside⟩ := List.mem_flatMap.mp tried
    exact all stage completed trial inside

/-- All points have the values of the objective. -/
theorem Journal.Faithful.measured {a : Annealing} {steps : Nat} {j : Journal}
    (faithful : j.Faithful a steps) : ∀ p ∈ j.points, p.On a.objective :=
  forall_points_iff.mpr ⟨faithful.start, faithful.stages.measured⟩

/-- A run cannot draw its start, or it ends with the result that a faithful journal sums up to. -/
theorem run_cases (a : Annealing) {steps : Nat} (schedule : a.config.Schedule steps)
    (stop : Nat → σ → Bool) (s : σ) :
    (¬Sampleable (-a.config.initialRange) a.config.initialRange ∧
        a.run stop s =
          .error (.unsampleableRange (-a.config.initialRange) a.config.initialRange)) ∨
      Sampleable (-a.config.initialRange) a.config.initialRange ∧ ∃ j t,
        a.journal stop s = .ok (j, t) ∧ a.run stop s = .ok (j.result a.config, t) ∧
          j.Faithful a steps := by
  by_cases sampleable : Sampleable (-a.config.initialRange) a.config.initialRange
  · have room : steps ≤ 0 + a.config.levelBound := by
      rw [Nat.zero_add]
      exact schedule.le_levelBound a.valid
    have told : Draw.Yields (a.journal stop) (Journal.Faithful a steps) := by
      refine (begin_yields sampleable).bind fun p ⟨start, on, begun⟩ => ?_
      subst begun
      refine (a.follow_yields schedule stop (Nat.zero_le steps) room rfl).bind
        fun rest ⟨stages, length⟩ => .pure ⟨on, stages, ?_⟩
      rw [Nat.zero_add] at length
      exact length
    obtain ⟨j, t, written, faithful⟩ := told s
    refine .inr ⟨sampleable, j, t, written, ?_, faithful⟩
    rw [run_eq_journal]
    exact Draw.map_eq_ok _ written
  · exact .inl ⟨sampleable, Draw.bind_of_error _ (begin_refused sampleable s)⟩

end Metaheuristics.Annealing

import Metaheuristics.Proofs.Annealing.Journal

/-!
# Keeping to the schedule

An annealing run goes through the levels of its schedule, one temperature after another, until they are
complete or it is cancelled. Neither the objective nor what is drawn makes a difference to how many
there are. Collected here:

* what the number of completed levels alone decides about a run (`Progress.Counts`, `Result.After`);
* the schedule ends, and so does every run, whatever the limit of its loop is (`run_of_enough`,
  `run_cools_down`);
* a run is cancelled before the first level whose check shows the flag raised (`shown`,
  `follow_checks`), and otherwise it goes through as many levels as are counted in advance
  (`run_keeps_schedule`).
-/

namespace Metaheuristics.Annealing

variable {σ : Type} [WordSource σ]

/-! ## Counting -/

namespace Walk

/-- Of the moves that were tried some were accepted, and of these some led to a lower value. -/
def Counts (w : Walk) : Prop := w.improving ≤ w.accepted ∧ w.accepted ≤ w.tried

theorem start_counts (p : Point) : (start p).Counts := ⟨Nat.le_refl 0, Nat.le_refl 0⟩

theorem tried_weigh [Exponential] (temperature : Float) (w : Walk) (trial : Trial) :
    (w.weigh temperature trial).tried = w.tried + 1 := by
  unfold weigh consider
  split <;> rfl

theorem Counts.weigh [Exponential] {w : Walk} (h : w.Counts) (temperature : Float)
    (trial : Trial) : (w.weigh temperature trial).Counts := by
  simp only [Counts] at h ⊢
  unfold Walk.weigh consider
  split
  · simp only [accept]
    split <;> omega
  · simp only [decline]
    omega

theorem foldl_weigh_counts [Exponential] {w : Walk} (h : w.Counts) (temperature : Float)
    (trials : List Trial) :
    (trials.foldl (Walk.weigh temperature) w).Counts ∧
      (trials.foldl (Walk.weigh temperature) w).tried = w.tried + trials.length := by
  induction trials generalizing w with
  | nil => exact ⟨h, rfl⟩
  | cons trial trials ih =>
      obtain ⟨counts, tried⟩ := ih (h.weigh temperature trial)
      have one := tried_weigh temperature w trial
      refine ⟨counts, ?_⟩
      simp only [List.foldl_cons, List.length_cons]
      omega

end Walk

/-- What a number of completed levels decides about a run. -/
structure Progress.Counts (c : Config) (levels : Nat) (p : Progress) : Prop where
  completed : p.levels = levels
  temperature : p.temperature = c.temperature levels
  tried : p.walk.tried = levels * c.movesPerLevel.toNat
  size : p.history.size = levels + 1
  walk : p.walk.Counts

namespace Progress.Counts

variable {a : Annealing} {p : Progress} {levels : Nat}

theorem start (c : Config) (point : Point) : Counts c 0 (.start c point) :=
  ⟨rfl, rfl, (Nat.zero_mul _).symm, rfl, Walk.start_counts point⟩

theorem pass [Exponential] {c : Config} {stage : Stage} (h : Counts c levels p)
    (moves : stage.trials.length = c.movesPerLevel.toNat) :
    Counts c (levels + 1) (p.pass c stage) := by
  obtain ⟨counts, tried⟩ := Walk.foldl_weigh_counts h.walk stage.temperature stage.trials
  exact {
    completed := congrArg (· + 1) h.completed
    temperature := congrArg (· * c.coolingRate) h.temperature
    tried := by
      rw [Nat.succ_mul, ← h.tried, ← moves]
      exact tried
    size := by
      rw [Progress.pass, Array.size_push, h.size]
    walk := counts }

/-- The temperatures of the levels that a run goes through are those of the schedule. -/
theorem extend [Exponential] {stages : List Stage} (h : Counts a.config levels p)
    (through : Stages a p stages) :
    Counts a.config (levels + stages.length) (p.extend a.config stages) ∧
      ∀ i (hi : i < stages.length),
        stages[i].temperature = a.config.temperature (levels + i) := by
  induction through generalizing levels with
  | nil => exact ⟨h, nofun⟩
  | cons temperature moves trials later ih =>
      rename_i p stage stages
      obtain ⟨counts, temperatures⟩ := ih (h.pass moves)
      refine ⟨?_, fun i hi => ?_⟩
      · rw [List.length_cons, ← Nat.add_assoc, Nat.add_right_comm]
        exact counts
      · cases i with
        | zero => exact temperature.trans h.temperature
        | succ i =>
            rw [← Nat.add_assoc, Nat.add_right_comm]
            exact temperatures i (Nat.lt_of_succ_lt_succ hi)

end Progress.Counts

/-- The result of a run that has completed a number of levels. -/
structure Result.After (c : Config) (levels : Nat) (r : Result) : Prop where
  temperatureSteps : r.temperatureSteps = levels
  iterations : r.iterations = levels * c.movesPerLevel.toNat
  /-- The word of 64 bits that holds the count of moves, if one does, is the product of words. -/
  word : r.iterations < 2 ^ 64 →
    (UInt64.ofNat r.temperatureSteps * c.movesPerLevel).toNat = r.iterations
  size : r.valueHistory.size = levels + 1
  finalTemperature : r.finalTemperature = c.temperature levels
  accepted : r.improvingMoves ≤ r.acceptedMoves ∧ r.acceptedMoves ≤ r.iterations

namespace Journal.Faithful

variable [Exponential] {a : Annealing} {steps : Nat} {j : Journal}

theorem counts (faithful : j.Faithful a steps) :
    (j.result a.config).After a.config j.stages.length ∧
      ∀ i (hi : i < j.stages.length), j.stages[i].temperature = a.config.temperature i := by
  obtain ⟨counts, temperatures⟩ := (Progress.Counts.start a.config j.start).extend faithful.stages
  simp only [Nat.zero_add] at counts temperatures
  have tried : (j.result a.config).iterations = j.stages.length * a.config.movesPerLevel.toNat :=
    counts.tried
  refine ⟨⟨counts.completed, tried, fun fits => ?_, counts.size, counts.temperature, counts.walk⟩,
    temperatures⟩
  have completed : (j.result a.config).temperatureSteps = j.stages.length := counts.completed
  rw [UInt64.toNat_mul, UInt64.toNat_ofNat', Nat.mod_mul_mod, completed, ← tried]
  exact Nat.mod_eq_of_lt fits

theorem length_le (faithful : j.Faithful a steps) : j.stages.length ≤ steps := by
  have := faithful.length
  split at this <;> omega

theorem length_of_uncancelled (faithful : j.Faithful a steps) (uncancelled : j.cancelled = false) :
    j.stages.length = steps := by
  have := faithful.length
  rw [uncancelled] at this
  exact this

theorem temperature (faithful : j.Faithful a steps) (schedule : a.config.Schedule steps) :
    ∀ stage ∈ j.stages, stage.temperature.isFinite ∧
      a.config.minTemperature < stage.temperature := by
  intro stage member
  obtain ⟨i, hi, rfl⟩ := List.getElem_of_mem member
  rw [faithful.counts.2 i hi]
  have before : i < steps := Nat.lt_of_lt_of_le hi faithful.length_le
  exact ⟨schedule.isFinite_temperature a.valid (Nat.le_of_lt before), schedule.above i before⟩

theorem reached (faithful : j.Faithful a steps) (schedule : a.config.Schedule steps)
    (uncancelled : j.cancelled = false) :
    (j.result a.config).finalTemperature ≤ a.config.minTemperature := by
  rw [faithful.counts.1.finalTemperature, faithful.length_of_uncancelled uncancelled]
  exact schedule.reached

end Journal.Faithful

/-! ## The end of a run -/

/-- A run does not depend on the limit of its loop, if that leaves room for all levels. -/
theorem proceed_of_enough (a : Annealing) {steps : Nat} (schedule : a.config.Schedule steps)
    (stop : Nat → σ → Bool) {limit levels : Nat} {p : Progress} (within : levels ≤ steps)
    (enough : steps ≤ levels + limit) (now : p.temperature = a.config.temperature levels) :
    a.proceed stop limit p = a.proceed stop (steps - levels) p := by
  induction limit generalizing levels p with
  | zero => rw [show steps - levels = 0 by omega]
  | succ limit ih =>
      by_cases going : levels < steps
      · have above := (schedule.above_iff within).mpr going
        rw [show steps - levels = steps - (levels + 1) + 1 by omega, proceed, proceed, now,
          if_pos above, if_pos above]
        refine bind_congr fun source => ?_
        split
        · rfl
        · rw [level_eq_stage, bind_map_left, bind_map_left]
          refine bind_congr fun stage => ih going (by omega) ?_
          exact congrArg (· * a.config.coolingRate) now
      · rw [show steps - levels = 0 by omega, proceed, proceed, now,
          if_neg (mt (schedule.above_iff within).mp going)]

theorem run_of_enough (a : Annealing) {steps limit : Nat} (schedule : a.config.Schedule steps)
    (stop : Nat → σ → Bool) (enough : steps ≤ limit) :
    a.begin >>= a.proceed stop limit = a.run stop := by
  have levels (limit : Nat) (enough : steps ≤ 0 + limit) (start : Point) :
      a.proceed stop limit (.start a.config start) = a.proceed stop steps (.start a.config start) :=
    a.proceed_of_enough schedule stop (Nat.zero_le steps) enough rfl
  have bound := schedule.le_levelBound a.valid
  refine a.begin_congr fun start => ?_
  rw [levels limit (by omega), levels a.config.levelBound (by omega)]

/-- Cooling down ends, and every run with it, before a count of 63 bits overflows. A temperature above
the minimum falls unless it is infinite, and those of a run are finite. -/
theorem run_cools_down (a : Annealing) (stop : Nat → σ → Bool) (s : σ) :
    (∀ t, a.config.minTemperature < t → (t * a.config.coolingRate < t ↔ t.isFinite)) ∧
    2 ^ (-1022 : ℤ) ≤ Binary64.toRat a.config.minTemperature ∧
    ∃ steps < 2 ^ 63, a.config.levels = .ok steps ∧
      (∀ limit ≥ steps, a.config.levelsFrom limit 0 a.config.initialTemperature = steps) ∧
      (∀ i < steps, (a.config.temperature i).isFinite ∧
        a.config.minTemperature < a.config.temperature i) ∧
      a.config.temperature steps ≤ a.config.minTemperature ∧
      (∀ limit ≥ steps, (a.begin >>= a.proceed stop limit) = a.run stop) ∧
      ((¬Sampleable (-a.config.initialRange) a.config.initialRange ∧ a.run stop s =
          .error (.unsampleableRange (-a.config.initialRange) a.config.initialRange)) ∨
        ∃ j t, a.journal stop s = .ok (j, t) ∧ a.run stop s = .ok (j.result a.config, t) ∧
          j.stages.length ≤ steps ∧
          (∀ stage ∈ j.stages, stage.temperature.isFinite ∧
            a.config.minTemperature < stage.temperature) ∧
          ((j.result a.config).cancelled = false →
            (j.result a.config).finalTemperature ≤ a.config.minTemperature)) := by
  obtain ⟨steps, schedule⟩ := a.valid.exists_schedule
  have bound := schedule.le_levelBound a.valid
  have small := a.valid.levelBound_lt
  refine ⟨fun t above => a.valid.cooled_lt_iff above, ?_, steps, by omega,
    schedule.levels_eq a.valid, fun limit enough => ?_, fun i before => ?_, schedule.reached,
    fun limit enough => a.run_of_enough schedule stop enough, ?_⟩
  · rw [← Config.toRat_minNormal]
    exact Binary64.toRat_le_of_le (by decide) a.valid.minTemperature.1 a.valid.minTemperature.2
  · exact schedule.levelsFrom_eq (Nat.zero_le steps) (by omega)
  · exact ⟨schedule.isFinite_temperature a.valid (by omega), schedule.above i before⟩
  · rcases a.run_cases schedule stop s with refused | ⟨-, j, t, told, ran, faithful⟩
    · exact .inl refused
    · exact .inr ⟨j, t, told, ran, faithful.length_le, faithful.temperature schedule,
        faithful.reached schedule⟩

/-! ## Cancelling -/

/-- What the check before level `i` shows, counted from `p`, if no check before it stops the run. -/
def shownFrom (a : Annealing) (stop : Nat → σ → Bool) (p : Progress) (s : σ) (i : Nat) : Bool :=
  match a.follow (fun _ _ => false) i p s with
  | .ok (_, t) => stop (p.levels + i) t
  | .error _ => false

/-- What the check before level `i` of a run shows, if no check before it stops the run. -/
def shown (a : Annealing) (stop : Nat → σ → Bool) (s : σ) (i : Nat) : Bool :=
  match a.begin s with
  | .ok (p, t) => a.shownFrom stop p t i
  | .error _ => false

theorem shown_never (a : Annealing) (s : σ) (i : Nat) : a.shown (fun _ _ => false) s i = false := by
  unfold shown
  split
  · unfold shownFrom
    split <;> rfl
  · rfl

theorem follow_total (a : Annealing) (stop : Nat → σ → Bool) (limit : Nat) (p : Progress) :
    Draw.Yields (a.follow stop limit p) fun _ => True := by
  induction limit generalizing p with
  | zero => exact .pure trivial
  | succ limit ih =>
      unfold follow
      split
      · refine .get_bind fun source => ?_
        split
        · exact .pure trivial
        · refine (a.stage_yields p).bind fun stage _ => ?_
          exact (ih (p.pass a.config stage)).bind fun rest _ => .pure trivial
      · exact .pure trivial

/-- A flag that does not look at the source shows the value that it has at the time. -/
theorem shown_of_flag {a : Annealing}
    (sampleable : Sampleable (-a.config.initialRange) a.config.initialRange) (flag : Nat → Bool)
    (s : σ) (i : Nat) : a.shown (fun done _ => flag done) s i = flag i := by
  obtain ⟨p, t, begun, start, -, rfl⟩ := begin_yields sampleable s
  obtain ⟨rest, u, followed, -⟩ :=
    a.follow_total (fun _ _ => false) i (.start a.config start) t
  have count : (Progress.start a.config start).levels + i = i := Nat.zero_add i
  rw [shown, begun]
  simp only [shownFrom]
  rw [followed, count]

/-- After a level, the checks are those of the run that goes on from there. -/
theorem shownFrom_succ {a : Annealing} {stop : Nat → σ → Bool} {p : Progress} {s t : σ}
    {stage : Stage} (above : a.config.minTemperature < p.temperature)
    (done : a.stage p s = .ok (stage, t)) (i : Nat) :
    a.shownFrom stop p s (i + 1) = a.shownFrom stop (p.pass a.config stage) t i := by
  have unstopped : a.follow (fun _ _ => false) (i + 1) p s =
      (a.follow (fun _ _ => false) i (p.pass a.config stage) >>= fun rest =>
        pure (stage :: rest.1, rest.2)) t := by
    rw [follow, if_pos above]
    show (a.stage p >>= fun stage => a.follow (fun _ _ => false) i (p.pass a.config stage) >>=
      fun rest => pure (stage :: rest.1, rest.2)) s = _
    exact Draw.bind_of_ok _ done
  have count : p.levels + (i + 1) = (p.pass a.config stage).levels + i := Nat.add_right_comm _ i 1
  unfold shownFrom
  rw [unstopped, count]
  cases went : a.follow (fun _ _ => false) i (p.pass a.config stage) t with
  | error fault => rw [Draw.bind_of_error _ went]
  | ok rest =>
      rw [Draw.bind_of_ok _ went]
      rfl

/-- A run passes the checks that do not show the flag raised, and ends at the first one that does. -/
theorem follow_checks {a : Annealing} {stop : Nat → σ → Bool} {limit : Nat} {p : Progress} {s t : σ}
    {rest : List Stage × Bool} (followed : a.follow stop limit p s = .ok (rest, t)) :
    (∀ i < rest.1.length, a.shownFrom stop p s i = false) ∧
      (rest.2 = true → a.shownFrom stop p s rest.1.length = true) := by
  have nothing {p : Progress} {s : σ} (i : Nat) (before : i < ([] : List Stage).length) :
      a.shownFrom stop p s i = false := absurd before (Nat.not_lt_zero i)
  induction limit generalizing p s rest with
  | zero =>
      cases followed
      exact ⟨nothing, fun cancelled => absurd cancelled Bool.false_ne_true⟩
  | succ limit ih =>
      rw [follow] at followed
      by_cases above : a.config.minTemperature < p.temperature
      · rw [if_pos above] at followed
        obtain ⟨source, s', got, followed⟩ := Draw.bind_eq_ok_iff.mp followed
        cases got
        have now : a.shownFrom stop p s 0 = stop p.levels s := rfl
        by_cases raised : stop p.levels s = true
        · rw [if_pos raised] at followed
          cases followed
          exact ⟨nothing, fun _ => now.trans raised⟩
        · rw [if_neg raised] at followed
          obtain ⟨stage, s', done, followed⟩ := Draw.bind_eq_ok_iff.mp followed
          obtain ⟨later, s'', went, followed⟩ := Draw.bind_eq_ok_iff.mp followed
          cases followed
          obtain ⟨passed, ended⟩ := ih went
          refine ⟨fun i before => ?_, fun cancelled => ?_⟩
          · cases i with
            | zero => exact now.trans (Bool.eq_false_iff.mpr raised)
            | succ i =>
                rw [shownFrom_succ above done]
                exact passed i (Nat.lt_of_succ_lt_succ before)
          · rw [List.length_cons, shownFrom_succ above done]
            exact ended cancelled
      · rw [if_neg above] at followed
        cases followed
        exact ⟨nothing, fun cancelled => absurd cancelled Bool.false_ne_true⟩

theorem journal_checks {a : Annealing} {stop : Nat → σ → Bool} {s t : σ} {j : Journal}
    (told : a.journal stop s = .ok (j, t)) :
    (∀ i < j.stages.length, a.shown stop s i = false) ∧
      (j.cancelled = true → a.shown stop s j.stages.length = true) := by
  obtain ⟨p, s', begun, told⟩ := Draw.bind_eq_ok_iff.mp told
  obtain ⟨rest, s'', followed, told⟩ := Draw.bind_eq_ok_iff.mp told
  cases told
  have now (i : Nat) : a.shown stop s i = a.shownFrom stop p s' i := by
    rw [shown, begun]
  simp only [now]
  exact follow_checks followed

/-- A run goes through its whole schedule if no check shows the flag raised, and otherwise through the
levels before the first check that does. -/
theorem Journal.Faithful.length_of_shown {a : Annealing} {stop : Nat → σ → Bool} {s t : σ}
    {j : Journal} {steps : Nat} (faithful : j.Faithful a steps)
    (told : a.journal stop s = .ok (j, t)) :
    ((∀ i < steps, a.shown stop s i = false) → j.cancelled = false ∧ j.stages.length = steps) ∧
      ∀ k < steps, a.shown stop s k = true → (∀ i < k, a.shown stop s i = false) →
        j.cancelled = true ∧ j.stages.length = k := by
  obtain ⟨passed, ended⟩ := journal_checks told
  constructor
  · intro quiet
    have uncancelled : j.cancelled = false := by
      refine Bool.eq_false_iff.mpr fun cancelled => ?_
      have fewer := faithful.length
      rw [if_pos cancelled] at fewer
      rw [quiet _ fewer] at ended
      exact Bool.false_ne_true (ended cancelled)
    exact ⟨uncancelled, faithful.length_of_uncancelled uncancelled⟩
  · intro k before raised quiet
    have most : j.stages.length ≤ k := by
      refine Nat.not_lt.mp fun beyond => ?_
      rw [passed k beyond] at raised
      exact Bool.false_ne_true raised
    have cancelled : j.cancelled = true := by
      refine Bool.eq_true_of_not_eq_false fun uncancelled => ?_
      have := faithful.length_of_uncancelled uncancelled
      omega
    have least : k ≤ j.stages.length := by
      refine Nat.not_lt.mp fun earlier => ?_
      rw [quiet _ earlier] at ended
      exact Bool.false_ne_true (ended cancelled)
    exact ⟨cancelled, Nat.le_antisymm most least⟩

/-- An annealing run goes through as many levels as are counted in advance, unless a check shows the
flag raised. Then it has gone through the levels before that check. -/
theorem run_keeps_schedule (a : Annealing) (stop : Nat → σ → Bool) (s : σ) :
    (¬Sampleable (-a.config.initialRange) a.config.initialRange ∧ a.run stop s =
        .error (.unsampleableRange (-a.config.initialRange) a.config.initialRange)) ∨
      Sampleable (-a.config.initialRange) a.config.initialRange ∧
      ∃ steps, a.config.levels = .ok steps ∧
        (∃ r t, a.solve s = .ok (r, t) ∧ r.cancelled = false ∧ r.After a.config steps ∧
          r.finalTemperature ≤ a.config.minTemperature) ∧
        ∃ r t, a.run stop s = .ok (r, t) ∧
          r.improvingMoves ≤ r.acceptedMoves ∧ r.acceptedMoves ≤ r.iterations ∧
          ((∀ i < steps, a.shown stop s i = false) →
            r.cancelled = false ∧ r.After a.config steps ∧
              r.finalTemperature ≤ a.config.minTemperature) ∧
          ∀ k < steps, a.shown stop s k = true → (∀ i < k, a.shown stop s i = false) →
            r.cancelled = true ∧ r.After a.config k := by
  obtain ⟨steps, schedule⟩ := a.valid.exists_schedule
  rcases a.run_cases schedule stop s with refused | ⟨sampleable, j, t, told, ran, faithful⟩
  · exact .inl refused
  · rcases a.run_cases schedule (fun _ _ => false) s with refused |
      ⟨-, whole, t', told', solved, faithful'⟩
    · exact absurd sampleable refused.1
    · have complete := (faithful'.length_of_shown told').1 fun i _ => a.shown_never s i
      have after' := faithful'.counts.1
      have after := faithful.counts.1
      rw [complete.2] at after'
      refine .inr ⟨sampleable, steps, schedule.levels_eq a.valid,
        ⟨_, t', solved, complete.1, after', faithful'.reached schedule complete.1⟩,
        _, t, ran, after.accepted.1, after.accepted.2, fun quiet => ?_, fun k before raised quiet => ?_⟩
      · obtain ⟨uncancelled, all⟩ := (faithful.length_of_shown told).1 quiet
        rw [all] at after
        exact ⟨uncancelled, after, faithful.reached schedule uncancelled⟩
      · obtain ⟨cancelled, part⟩ := (faithful.length_of_shown told).2 k before raised quiet
        rw [part] at after
        exact ⟨cancelled, after⟩

end Metaheuristics.Annealing

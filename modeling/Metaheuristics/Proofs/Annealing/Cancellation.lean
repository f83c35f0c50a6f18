import Metaheuristics.Proofs.Annealing.Schedule

/-!
# Cancelling an annealing run

The temperature at which a run is to end decides when it ends, and nothing else in a run depends on it.
So a run that is cancelled has done exactly what a run does that is to end at the temperature reached by
then, and what every uncancelled run does up to there. Collected here:

* levels that nothing stops (`descend`) follow one another (`descend_add`), and a run that is stopped
  has been through some of them (`descend_of_follow`);
* what is known after some levels is part of what is known after more of them (`Progress.Part`);
* the temperatures reached after the first level are admissible minima (`Config.Valid.endingAt`), and a
  search with such a minimum goes through the levels before it (`Config.Schedule.endingAt`,
  `descend_endingAt`);
* so cancelling a run is raising its minimum (`run_cancelled_is_shortened`).
-/

namespace Metaheuristics.Annealing

variable {σ : Type} [WordSource σ]

/-! ## Levels one after another -/

/-- Goes through at most `count` levels that nothing stops but the minimum of the temperature. -/
def descend (a : Annealing) (count : Nat) (p : Progress) : Draw σ (List Stage × Bool) :=
  a.follow (fun _ _ => false) count p

theorem descend_of_above {a : Annealing} {p : Progress}
    (above : a.config.minTemperature < p.temperature) (count : Nat) :
    (a.descend (count + 1) p : Draw σ (List Stage × Bool)) = (do
      let stage ← a.stage p
      let rest ← a.descend count (p.pass a.config stage)
      return (stage :: rest.1, rest.2)) := by
  rw [descend, follow, if_pos above]
  rfl

theorem descend_of_reached {a : Annealing} {p : Progress}
    (reached : ¬a.config.minTemperature < p.temperature) (count : Nat) :
    (a.descend count p : Draw σ (List Stage × Bool)) = pure ([], false) := by
  cases count with
  | zero => rfl
  | succ count => rw [descend, follow, if_neg reached]

theorem descend_add (a : Annealing) (k m : Nat) (p : Progress) :
    (a.descend (k + m) p : Draw σ (List Stage × Bool)) = (do
      let first ← a.descend k p
      let rest ← a.descend m (p.extend a.config first.1)
      return (first.1 ++ rest.1, rest.2)) := by
  induction k generalizing p with
  | zero =>
      rw [Nat.zero_add]
      exact (bind_pure _).symm
  | succ k ih =>
      by_cases above : a.config.minTemperature < p.temperature
      · rw [Nat.add_right_comm, descend_of_above above, descend_of_above above, bind_assoc]
        refine bind_congr fun stage => ?_
        rw [ih, bind_assoc, bind_assoc]
        refine bind_congr fun first => ?_
        rw [bind_assoc, pure_bind]
        exact bind_congr fun rest => pure_bind _ _
      · -- the minimum is reached, and it stays so
        rw [descend_of_reached above, descend_of_reached above, pure_bind]
        show _ = a.descend m p >>= _
        rw [descend_of_reached above, pure_bind]
        rfl

/-- The levels that a run goes through before it is stopped are those of a run that is not stopped. -/
theorem descend_of_follow {a : Annealing} {stop : Nat → σ → Bool} {limit : Nat} {p : Progress}
    {s t : σ} {rest : List Stage × Bool} (followed : a.follow stop limit p s = .ok (rest, t)) :
    a.descend rest.1.length p s = .ok ((rest.1, false), t) := by
  induction limit generalizing p s rest with
  | zero =>
      cases followed
      rfl
  | succ limit ih =>
      rw [follow] at followed
      by_cases above : a.config.minTemperature < p.temperature
      · rw [if_pos above] at followed
        obtain ⟨source, s', got, followed⟩ := Draw.bind_eq_ok_iff.mp followed
        cases got
        by_cases raised : stop p.levels s = true
        · -- stopped here, so no level counts
          rw [if_pos raised] at followed
          cases followed
          rfl
        · rw [if_neg raised] at followed
          obtain ⟨stage, s', done, followed⟩ := Draw.bind_eq_ok_iff.mp followed
          obtain ⟨later, s'', went, followed⟩ := Draw.bind_eq_ok_iff.mp followed
          cases followed
          rw [List.length_cons, descend_of_above above, Draw.bind_of_ok _ done,
            Draw.bind_of_ok _ (ih went)]
          rfl
      · rw [if_neg above] at followed
        cases followed
        rfl

/-! ## Parts of a run -/

namespace Walk

theorem weigh_counts_le (w : Walk) (temperature : Float) (trial : Trial) :
    w.tried ≤ (w.weigh temperature trial).tried ∧
      w.accepted ≤ (w.weigh temperature trial).accepted ∧
      w.improving ≤ (w.weigh temperature trial).improving := by
  unfold weigh consider
  split
  · simp only [accept]
    split <;> omega
  · simp only [decline]
    omega

/-- No trial lowers a count. -/
theorem foldl_weigh_counts_le (w : Walk) (temperature : Float) (trials : List Trial) :
    w.tried ≤ (trials.foldl (weigh temperature) w).tried ∧
      w.accepted ≤ (trials.foldl (weigh temperature) w).accepted ∧
      w.improving ≤ (trials.foldl (weigh temperature) w).improving := by
  induction trials generalizing w with
  | nil => exact ⟨le_rfl, le_rfl, le_rfl⟩
  | cons trial trials ih =>
      obtain ⟨tried, accepted, improving⟩ := w.weigh_counts_le temperature trial
      obtain ⟨tried', accepted', improving'⟩ := ih (w.weigh temperature trial)
      exact ⟨tried.trans tried', accepted.trans accepted', improving.trans improving'⟩

end Walk

/-- What was known of a run at an earlier time: the history goes on from there, and no count has
fallen. -/
structure Progress.Part (p q : Progress) : Prop where
  history : p.history.toList <+: q.history.toList
  levels : p.levels ≤ q.levels
  tried : p.walk.tried ≤ q.walk.tried
  accepted : p.walk.accepted ≤ q.walk.accepted
  improving : p.walk.improving ≤ q.walk.improving

namespace Progress.Part

variable {p q r : Progress}

theorem refl (p : Progress) : p.Part p :=
  ⟨List.prefix_refl _, le_rfl, le_rfl, le_rfl, le_rfl⟩

theorem trans (first : p.Part q) (second : q.Part r) : p.Part r where
  history := first.history.trans second.history
  levels := first.levels.trans second.levels
  tried := first.tried.trans second.tried
  accepted := first.accepted.trans second.accepted
  improving := first.improving.trans second.improving

theorem pass (c : Config) (p : Progress) (stage : Stage) : p.Part (p.pass c stage) := by
  obtain ⟨tried, accepted, improving⟩ :=
    p.walk.foldl_weigh_counts_le stage.temperature stage.trials
  exact {
    history := by
      rw [Progress.pass, Array.toList_push]
      exact List.prefix_append _ _
    levels := Nat.le_succ _
    tried, accepted, improving }

theorem extend (c : Config) (p : Progress) (stages : List Stage) : p.Part (p.extend c stages) := by
  induction stages generalizing p with
  | nil => exact refl p
  | cons stage stages ih => exact (pass c p stage).trans (ih (p.pass c stage))

end Progress.Part

/-! ## Another end -/

/-- The same parameters, but for the temperature at which the run ends. -/
def Config.endingAt (c : Config) (t : Float) : Config := { c with minTemperature := t }

theorem Config.temperature_endingAt (c : Config) (t : Float) (levels : Nat) :
    (c.endingAt t).temperature levels = c.temperature levels := by
  induction levels with
  | zero => rfl
  | succ levels ih =>
      rw [temperature, ih]
      rfl

section

variable {c : Config} {steps k : Nat}

/-- A temperature that is reached after the first level, but before the last one, is one at which a run
may end. -/
theorem Config.Valid.endingAt (valid : c.Valid) (schedule : c.Schedule steps) (positive : 0 < k)
    (before : k < steps) : (c.endingAt (c.temperature k)).Valid where
  initialTemperature := valid.initialTemperature
  minTemperature := by
    refine ⟨schedule.isFinite_temperature valid (Nat.le_of_lt before), ?_⟩
    exact Binary64.le_trans valid.minTemperature.2 (Binary64.le_of_lt (schedule.above k before))
  temperatureOrder := by
    have lower : c.temperature k < c.temperature 0 :=
      schedule.temperature_lt valid positive (Nat.le_of_lt before)
    exact lower
  coolingRate := valid.coolingRate
  moves := valid.moves
  initialRange := valid.initialRange

/-- Ending at the temperature that is reached after some levels leaves these levels to the schedule. -/
theorem Config.Schedule.endingAt (schedule : c.Schedule steps) (valid : c.Valid)
    (within : k ≤ steps) : (c.endingAt (c.temperature k)).Schedule k where
  above := by
    intro i earlier
    rw [temperature_endingAt]
    exact schedule.temperature_lt valid earlier within
  reached := by
    rw [temperature_endingAt]
    have finite := schedule.isFinite_temperature valid within
    exact Binary64.le_refl (Binary64.not_isNaN_of_isFinite finite)

end

/-- The same search, but for the temperature at which it ends. -/
def endingAt (a : Annealing) (t : Float) (valid : (a.config.endingAt t).Valid) : Annealing where
  objective := a.objective
  config := a.config.endingAt t
  valid := valid

variable {a : Annealing} {t : Float} {valid : (a.config.endingAt t).Valid}

/-- As long as neither end is reached, the levels are the same. -/
theorem descend_endingAt {steps k levels : Nat} (schedule : a.config.Schedule steps)
    (shorter : (a.config.endingAt t).Schedule k) (count : Nat) {p : Progress}
    (within : levels + count ≤ k) (before : k ≤ steps)
    (now : p.temperature = a.config.temperature levels) :
    ((a.endingAt t valid).descend count p : Draw σ (List Stage × Bool)) = a.descend count p := by
  induction count generalizing levels p with
  | zero => rfl
  | succ count ih =>
      have above : a.config.minTemperature < p.temperature := by
        rw [now]
        exact schedule.above levels (by omega)
      have above' : (a.endingAt t valid).config.minTemperature < p.temperature := by
        rw [now, ← a.config.temperature_endingAt t]
        exact shorter.above levels (by omega)
      -- the level itself does not see where the run is to end
      rw [descend_of_above above', descend_of_above above,
        stage_congr (a := a.endingAt t valid) (b := a) rfl rfl]
      refine bind_congr fun stage => ?_
      have cooled : (p.pass a.config stage).temperature = a.config.temperature (levels + 1) :=
        congrArg (· * a.config.coolingRate) now
      have same : p.pass (a.endingAt t valid).config stage = p.pass a.config stage := rfl
      rw [same, ih (by omega) cooled]

/-! ## Cancelling -/

/-- A run that nothing stops has the result of the levels that it goes through. -/
theorem solve_of_descend {steps count : Nat} (schedule : a.config.Schedule steps)
    (enough : steps ≤ count) {start : Point} {s s' t : σ} {rest : List Stage × Bool}
    (begun : a.begin s = .ok (.start a.config start, s'))
    (descended : a.descend count (.start a.config start) s' = .ok (rest, t)) :
    a.solve s = .ok (((Progress.start a.config start).extend a.config rest.1).result rest.2, t) := by
  rw [solve, ← a.run_of_enough schedule _ enough, Draw.bind_of_ok _ begun, proceed_eq_follow]
  exact Draw.map_eq_ok _ descended

/-- What a run has found after some of its levels, against what it has found in the end. -/
structure Result.Part (levels : Nat) (r whole : Result) : Prop where
  valueHistory : r.valueHistory.toList = whole.valueHistory.toList.take (levels + 1)
  temperatureSteps : r.temperatureSteps ≤ whole.temperatureSteps
  iterations : r.iterations ≤ whole.iterations
  acceptedMoves : r.acceptedMoves ≤ whole.acceptedMoves
  improvingMoves : r.improvingMoves ≤ whole.improvingMoves

theorem Progress.Part.result {p q : Progress} (part : p.Part q) {levels : Nat}
    (size : p.history.size = levels + 1) (b b' : Bool) :
    (p.result b).Part levels (q.result b') where
  valueHistory := by
    have first := List.prefix_iff_eq_take.mp part.history
    rw [Array.length_toList, size] at first
    exact first
  temperatureSteps := part.levels
  iterations := part.tried
  acceptedMoves := part.accepted
  improvingMoves := part.improving

/-- A run that is cancelled before level `k` has the result of a run whose minimum is the temperature
reached by then, and leaves the source as that one does. It has done what an uncancelled run does in its
first `k` levels, and without any level it is left with its start. -/
theorem run_cancelled_is_shortened (a : Annealing) (stop : Nat → σ → Bool) (s : σ) :
    (¬Sampleable (-a.config.initialRange) a.config.initialRange ∧ a.run stop s =
        .error (.unsampleableRange (-a.config.initialRange) a.config.initialRange)) ∨
      Sampleable (-a.config.initialRange) a.config.initialRange ∧
      ∃ steps whole u, a.config.levels = .ok steps ∧ a.solve s = .ok (whole, u) ∧
        ∀ k < steps, a.shown stop s k = true → (∀ i < k, a.shown stop s i = false) →
          a.config.minTemperature < a.config.temperature k ∧
          ∃ r t, a.run stop s = .ok (r, t) ∧ r.cancelled = true ∧
            r.finalTemperature = a.config.temperature k ∧ r.Part k whole ∧
            (k = 0 → ∃ start, a.begin s = .ok (.start a.config start, t) ∧
              r = ⟨start, start, 0, 0, a.config.initialTemperature, 0, 0, true, #[start.value]⟩) ∧
            (0 < k → ∃ valid : (a.config.endingAt (a.config.temperature k)).Valid,
              (a.endingAt _ valid).solve s = .ok ({ r with cancelled := false }, t)) := by
  obtain ⟨steps, schedule⟩ := a.valid.exists_schedule
  rcases a.run_cases schedule stop s with refused | ⟨sampleable, j, t, told, ran, faithful⟩
  · exact .inl refused
  · obtain ⟨s', begun, followed⟩ := journal_eq_ok sampleable told
    obtain ⟨all, u, descended, -⟩ :=
      a.follow_total (fun _ _ => false) steps (.start a.config j.start) s'
    refine .inr ⟨sampleable, steps, _, u, schedule.levels_eq a.valid,
      solve_of_descend schedule le_rfl begun descended, fun k before raised quiet => ?_⟩
    obtain ⟨cancelled, completed⟩ := (faithful.length_of_shown told).2 k before raised quiet
    have after := faithful.counts.1
    have first := descend_of_follow followed
    simp only [completed] at after first
    refine ⟨schedule.above k before, _, t, ran, cancelled, after.finalTemperature, ?_, ?_, ?_⟩
    · -- the uncancelled run goes on from here
      obtain ⟨left, rfl⟩ := Nat.exists_eq_add_of_lt before
      rw [Nat.add_assoc, ← descend, descend_add, Draw.bind_of_ok _ first] at descended
      obtain ⟨more, v, -, descended⟩ := Draw.bind_eq_ok_iff.mp descended
      cases descended
      have part := Progress.Part.extend a.config
        ((Progress.start a.config j.start).extend a.config j.stages) more.1
      rw [Progress.extend, Progress.extend, ← List.foldl_append] at part
      exact part.result after.size _ _
    · rintro rfl
      have nothing : j.stages = [] := List.eq_nil_of_length_eq_zero completed
      rw [nothing] at first
      cases first
      refine ⟨j.start, begun, ?_⟩
      rw [Journal.result, nothing, cancelled]
      rfl
    · -- where this run is stopped, the other search has been through all of its levels
      intro positive
      have valid := a.valid.endingAt schedule positive before
      have shorter := schedule.endingAt a.valid (Nat.le_of_lt before)
      have same : ((a.endingAt _ valid).descend k (.start a.config j.start) : Draw σ _) =
          a.descend k (.start a.config j.start) :=
        descend_endingAt schedule shorter k (Nat.zero_add k).le (Nat.le_of_lt before) rfl
      rw [← same] at first
      exact ⟨valid, solve_of_descend (a := a.endingAt _ valid) shorter le_rfl begun first⟩

end Metaheuristics.Annealing

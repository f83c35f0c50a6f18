import Metaheuristics.Proofs.Annealing.Schedule
import Metaheuristics.Proofs.Random.Words

/-!
# The words of an annealing run

A run takes two words for its start and three for every move, whatever becomes of the move. Collected
here:

* the trials of a run as functions of the words (`Trial.Drawn`, `Drawn`), and that a run makes its trials
  so (`tries_reads`, `follow_reads`, `journal_reads`);
* a run is the same with two sources that give the same words of 64 bits (`journal_matches`), so a source
  that counts them can stand for its original (`run_metered`);
* the flag that cancels a run decides how many moves it tries, and the objective does not
  (`exists_iterations_of_flag`).

So the objective has no influence on what is drawn (`run_draws_alike`).
-/

namespace Metaheuristics.Annealing

open WordSource

/-! ## Trials as functions of words -/

/-- The trial proposes the point and has the fraction that three words stand for. -/
def Trial.Drawn (f : Objective) (temperature : Float) (dx dy chance : UInt64) (trial : Trial) :
    Prop :=
  trial.candidate = f.at
    (trial.held.x + Interval.symmetricUnit.point dx * temperature)
    (trial.held.y + Interval.symmetricUnit.point dy * temperature) ∧
  trial.fraction = unitFraction chance

/-- Trials at given temperatures that take three words each, one after another. -/
def Drawn (f : Objective) (temperature : Nat → Float) (w : Nat → UInt64) (trials : List Trial) :
    Prop :=
  ∀ k (hk : k < trials.length),
    trials[k].Drawn f (temperature k) (w (3 * k)) (w (3 * k + 1)) (w (3 * k + 2))

namespace Drawn

variable {f : Objective} {temperature : Nat → Float} {w : Nat → UInt64}

theorem nil : Drawn f temperature w [] := nofun

theorem congr {other : Nat → Float} {trials : List Trial} (h : Drawn f temperature w trials)
    (same : ∀ k < trials.length, temperature k = other k) : Drawn f other w trials := by
  intro k hk
  rw [← same k hk]
  exact h k hk

theorem singleton {trial : Trial} (h : trial.Drawn f (temperature 0) (w 0) (w 1) (w 2)) :
    Drawn f temperature w [trial] := by
  intro k hk
  obtain rfl := Nat.lt_one_iff.mp hk
  exact h

theorem append {first rest : List Trial} (h : Drawn f temperature w first)
    (later : Drawn f (fun k => temperature (first.length + k)) (fun l => w (3 * first.length + l))
      rest) : Drawn f temperature w (first ++ rest) := by
  intro k hk
  by_cases early : k < first.length
  · rw [List.getElem_append_left early]
    exact h k early
  · obtain ⟨i, rfl⟩ := Nat.exists_eq_add_of_le (Nat.not_lt.mp early)
    rw [List.getElem_append_right (Nat.le_add_right _ i)]
    simp only [Nat.add_sub_cancel_left, Nat.mul_add, Nat.add_assoc]
    have below : i < rest.length := by
      rw [List.length_append] at hk
      omega
    exact later i below

end Drawn

variable {σ τ : Type} [WordSource σ] [WordSource τ]

theorem propose_reads (a : Annealing) (temperature : Float) (p : Point) :
    Draw.Reads (a.propose temperature p : Draw σ Point) fun w taken candidate =>
      taken = 2 ∧ candidate = a.objective.at
        (p.x + Interval.symmetricUnit.point (w 0) * temperature)
        (p.y + Interval.symmetricUnit.point (w 1) * temperature) := by
  unfold propose
  refine ((Draw.sample_reads _).bind fun dx => (Draw.sample_reads _).bind fun dy =>
    .known _).imp ?_
  rintro w taken candidate ⟨dx, i, k, rfl, ⟨rfl, rfl⟩, dy, l, m, rfl, ⟨rfl, rfl⟩, rfl, rfl⟩
  exact ⟨rfl, rfl⟩

theorem begin_reads {a : Annealing}
    (sampleable : Sampleable (-a.config.initialRange) a.config.initialRange) :
    Draw.Reads (a.begin : Draw σ Progress) fun w taken p =>
      taken = 2 ∧ p = .start a.config (a.objective.at
        (Interval.point ⟨_, _, sampleable⟩ (w 0)) (Interval.point ⟨_, _, sampleable⟩ (w 1))) := by
  have range : Interval.between (-a.config.initialRange) a.config.initialRange =
      .ok ⟨_, _, sampleable⟩ := dif_pos sampleable
  unfold begin
  refine ((Draw.Reads.lift range).bind fun r => (Draw.sample_reads r).bind fun x =>
    (Draw.sample_reads r).bind fun y => .known _).imp ?_
  rintro w taken p ⟨r, i, k, rfl, ⟨rfl, rfl⟩, x, l, m, rfl, ⟨rfl, rfl⟩, y, o, q, rfl, ⟨rfl, rfl⟩,
    rfl, rfl⟩
  exact ⟨rfl, rfl⟩

section

variable [Exponential]

theorem tries_reads (a : Annealing) (temperature : Float) (count : Nat) (walk : Walk) :
    Draw.Reads (a.tries temperature count walk : Draw σ (List Trial)) fun w taken trials =>
      taken = 3 * trials.length ∧ trials.length = count ∧
        Drawn a.objective (fun _ => temperature) w trials := by
  induction count generalizing walk with
  | zero => exact .pure fun w => ⟨rfl, rfl, .nil⟩
  | succ count ih =>
      unfold tries
      refine ((a.propose_reads temperature walk.current).bind fun candidate =>
        Draw.fraction_reads.bind fun fraction => (ih _).bind fun rest =>
          .known _).imp ?_
      rintro w taken trials ⟨candidate, i, k, rfl, ⟨rfl, rfl⟩, fraction, l, m, rfl, ⟨rfl, rfl⟩,
        rest, o, q, rfl, ⟨rfl, rfl, later⟩, rfl, rfl⟩
      refine ⟨?_, rfl, ?_⟩
      · rw [List.length_cons]
        omega
      · show Drawn a.objective _ w ([_] ++ rest)
        simp only [← Nat.add_assoc] at later
        exact .append (.singleton ⟨rfl, rfl⟩) later

theorem stage_reads (a : Annealing) (p : Progress) :
    Draw.Reads (a.stage p : Draw σ Stage) fun w taken stage =>
      taken = 3 * stage.trials.length ∧ stage.trials.length = a.config.movesPerLevel.toNat ∧
        Drawn a.objective (fun _ => p.temperature) w stage.trials := by
  unfold stage
  refine ((a.tries_reads p.temperature _ p.walk).bind fun trials => .known _).imp ?_
  rintro w taken stage ⟨trials, i, k, rfl, read, rfl, rfl⟩
  exact read

/-- From level to level a run reads on, and the number of a trial tells its level. -/
theorem follow_reads (a : Annealing) (stop : Nat → σ → Bool) {limit : Nat} {p : Progress}
    (levels : Nat) (now : p.temperature = a.config.temperature levels) :
    Draw.Reads (a.follow stop limit p) fun w taken rest =>
      taken = 3 * (rest.1.flatMap Stage.trials).length ∧
        Drawn a.objective
          (fun k => a.config.temperature (levels + k / a.config.movesPerLevel.toNat)) w
          (rest.1.flatMap Stage.trials) := by
  induction limit generalizing levels p with
  | zero => exact .pure fun w => ⟨rfl, .nil⟩
  | succ limit ih =>
      unfold follow
      split
      · refine .get_bind fun source => ?_
        split
        · exact .pure fun w => ⟨rfl, .nil⟩
        · have cooled (stage : Stage) :
              (p.pass a.config stage).temperature = a.config.temperature (levels + 1) :=
            congrArg (· * a.config.coolingRate) now
          refine ((a.stage_reads p).bind fun stage => (ih (levels + 1) (cooled stage)).bind fun rest =>
            .known _).imp ?_
          rintro w taken all ⟨stage, i, k, rfl, ⟨rfl, moves, first⟩, rest, l, m, rfl,
            ⟨rfl, later⟩, rfl, rfl⟩
          rw [List.flatMap_cons]
          refine ⟨?_, (first.congr fun k early => ?_).append (later.congr fun k _ => ?_)⟩
          · rw [List.length_append]
            omega
          · rw [Nat.div_eq_of_lt (moves ▸ early)]
            exact now
          · have positive : 0 < a.config.movesPerLevel.toNat :=
              UInt64.lt_iff_toNat_lt.mp (UInt64.pos_iff_ne_zero.mpr a.valid.moves)
            rw [moves, Nat.add_div_left k positive, Nat.add_succ, Nat.succ_add]
            rfl
      · exact .pure fun w => ⟨rfl, .nil⟩

/-- A run takes two words for its start, and then three for every trial. -/
theorem journal_reads {a : Annealing} {stop : Nat → σ → Bool} {s t : σ} {j : Journal}
    (sampleable : Sampleable (-a.config.initialRange) a.config.initialRange)
    (told : a.journal stop s = .ok (j, t)) :
    t = after s (2 + 3 * j.trials.length) ∧
      j.start = a.objective.at (Interval.point ⟨_, _, sampleable⟩ (word s 0))
        (Interval.point ⟨_, _, sampleable⟩ (word s 1)) ∧
      Drawn a.objective (fun k => a.config.temperature (k / a.config.movesPerLevel.toNat))
        (fun l => word s (2 + l)) j.trials := by
  obtain ⟨s', begun, followed⟩ := journal_eq_ok sampleable told
  obtain ⟨taken, rfl, rfl, started⟩ := (begin_reads sampleable).of_ok begun
  obtain ⟨taken', rfl, rfl, drawn⟩ := (a.follow_reads stop 0 rfl).of_ok followed
  rw [word_after] at drawn
  simp only [Nat.zero_add] at drawn
  exact ⟨after_after s _ _, congrArg (fun p => p.walk.current) started, drawn⟩

end

/-! ## Sources with the same words -/

section

variable {S : σ → τ → Prop} (same : SameWords S)
include same

theorem tries_matches (a : Annealing) (temperature : Float) (count : Nat) (walk : Walk) :
    Draw.Matches S (· = ·) (a.tries temperature count walk : Draw σ (List Trial))
      (a.tries temperature count walk : Draw τ (List Trial)) := by
  have drawn (r : Interval) := Draw.sample_matches same r
  induction count generalizing walk with
  | zero => exact .pure rfl
  | succ count ih =>
      unfold tries propose
      refine Draw.Matches.bind_same ?_ fun candidate => ?_
      · exact (drawn _).bind_same fun dx => (drawn _).bind_same fun dy => .pure rfl
      · refine (Draw.fraction_matches same).bind_same fun fraction => ?_
        exact (ih _).bind_same fun rest => .pure rfl

theorem follow_matches (a : Annealing) {stop : Nat → σ → Bool} {stop' : Nat → τ → Bool}
    (agree : ∀ done s t, S s t → stop done s = stop' done t) (limit : Nat) (p : Progress) :
    Draw.Matches S (· = ·) (a.follow stop limit p) (a.follow stop' limit p) := by
  induction limit generalizing p with
  | zero => exact .pure rfl
  | succ limit ih =>
      unfold follow
      split
      · refine .get_bind fun s t related => ?_
        rw [agree p.levels s t related]
        split
        · exact .pure rfl
        · refine Draw.Matches.bind_same ?_ fun stage => (ih _).bind_same fun rest => .pure rfl
          exact (tries_matches same a _ _ _).bind_same fun trials => .pure rfl
      · exact .pure rfl

/-- A run is told by the same journal with two sources that give the same words of 64 bits. -/
theorem journal_matches (a : Annealing) {stop : Nat → σ → Bool} {stop' : Nat → τ → Bool}
    (agree : ∀ done s t, S s t → stop done s = stop' done t) :
    Draw.Matches S (· = ·) (a.journal stop) (a.journal stop') := by
  have drawn (r : Interval) := Draw.sample_matches same r
  refine Draw.Matches.bind_same ?_ fun p => ?_
  · refine (Draw.Matches.lift (.refl _)).bind_same fun range => ?_
    exact (drawn range).bind_same fun x => (drawn range).bind_same fun y => .pure rfl
  · exact (follow_matches same a agree _ p).bind_same fun rest => .pure rfl

end

/-- A source that counts gives the same run, and has then counted the words of 64 bits that were taken. -/
theorem run_metered {a : Annealing} (flag : Nat → Bool) {s t : σ} {j : Journal}
    (sampleable : Sampleable (-a.config.initialRange) a.config.initialRange)
    (told : a.journal (fun done _ => flag done) s = .ok (j, t)) (narrow wide : Nat) :
    a.run (fun done _ => flag done) (⟨s, narrow, wide⟩ : Metered σ) =
      .ok (j.result a.config, ⟨t, narrow, wide + (2 + 3 * j.trials.length)⟩) := by
  have agree (done : Nat) (m : Metered σ) (s : σ) (_ : m.source = s) : flag done = flag done := rfl
  have alike := journal_matches sameWords_metered a agree
  obtain ⟨_, m, counted, rfl, rfl⟩ := alike.of_ok (s := ⟨s, narrow, wide⟩) rfl told
  obtain ⟨rfl, -⟩ := journal_reads sampleable counted
  rw [run_eq_journal, Draw.map_eq_ok _ counted, after_metered]

/-! ## Two objectives -/

/-- Every level has as many trials as there are moves. -/
theorem Stages.length_trials {a : Annealing} {p : Progress} {stages : List Stage}
    (through : Stages a p stages) :
    (stages.flatMap Stage.trials).length = stages.length * a.config.movesPerLevel.toNat := by
  induction through with
  | nil => exact (Nat.zero_mul _).symm
  | cons temperature moves trying later ih =>
      rw [List.flatMap_cons, List.length_append, List.length_cons, Nat.succ_mul, ih, moves,
        Nat.add_comm]

variable {config : Config}

/-- A flag is raised before none of some levels, or there is a first one before which it is raised. -/
theorem quiet_or_first_raised (flag : Nat → Bool) (steps : Nat) :
    (∀ i < steps, flag i = false) ∨
      ∃ k < steps, flag k = true ∧ ∀ i < k, flag i = false := by
  by_cases quiet : ∀ i < steps, flag i = false
  · exact .inl quiet
  · have raised : ∃ i, i < steps ∧ flag i = true := by simpa using quiet
    obtain ⟨before, first⟩ := Nat.find_spec raised
    refine .inr ⟨Nat.find raised, before, first, fun i earlier => ?_⟩
    exact Bool.eq_false_iff.mpr fun up => Nat.find_min raised earlier ⟨earlier.trans before, up⟩

/-- The flag that cancels a run decides how many levels it goes through. -/
theorem exists_levels_of_flag (valid : config.Valid)
    (sampleable : Sampleable (-config.initialRange) config.initialRange) (flag : Nat → Bool)
    (steps : Nat) :
    ∃ levels, ∀ (f : Objective) (s t : σ) (j : Journal), j.Faithful ⟨f, config, valid⟩ steps →
      journal ⟨f, config, valid⟩ (fun done _ => flag done) s = .ok (j, t) →
      j.stages.length = levels := by
  have shown (f : Objective) (s : σ) (i : Nat) :=
    shown_of_flag (a := ⟨f, config, valid⟩) sampleable flag s i
  rcases quiet_or_first_raised flag steps with quiet | ⟨k, before, raised, quiet⟩
  · refine ⟨steps, fun f s t j faithful told => ?_⟩
    exact ((faithful.length_of_shown told).1 fun i hi => (shown f s i).trans (quiet i hi)).2
  · refine ⟨k, fun f s t j faithful told => ?_⟩
    exact ((faithful.length_of_shown told).2 k before ((shown f s k).trans raised)
      fun i hi => (shown f s i).trans (quiet i hi)).2

/-- The flag that cancels a run and its parameters decide how many moves it tries, whatever its
objective is and whatever is drawn. -/
theorem exists_iterations_of_flag (valid : config.Valid)
    (sampleable : Sampleable (-config.initialRange) config.initialRange) (flag : Nat → Bool) :
    ∃ iterations, ∀ (f : Objective) (s : σ), ∃ j t,
      journal ⟨f, config, valid⟩ (fun done _ => flag done) s = .ok (j, t) ∧
        run ⟨f, config, valid⟩ (fun done _ => flag done) s = .ok (j.result config, t) ∧
        (j.result config).iterations = iterations ∧ j.trials.length = iterations := by
  obtain ⟨steps, schedule⟩ := valid.exists_schedule
  obtain ⟨levels, reached⟩ := exists_levels_of_flag (σ := σ) valid sampleable flag steps
  refine ⟨levels * config.movesPerLevel.toNat, fun f s => ?_⟩
  rcases run_cases ⟨f, config, valid⟩ schedule (fun done _ => flag done) s with refused |
    ⟨-, j, t, told, ran, faithful⟩
  · exact absurd sampleable refused.1
  · have length : j.stages.length = levels := reached f s t j faithful told
    refine ⟨j, t, told, ran, ?_, ?_⟩
    · rw [← length]
      exact faithful.counts.1.iterations
    · rw [← length]
      exact faithful.stages.length_trials

/-- What a run draws depends on its parameters, on the flag that cancels it and on the source alone. It
takes two words of 64 bits for its start and three for every move, and no others, whatever the
objective is and whatever was accepted. -/
theorem run_draws_alike (valid : config.Valid)
    (sampleable : Sampleable (-config.initialRange) config.initialRange) (flag : Nat → Bool)
    (s : σ) (narrow wide : Nat) :
    ∃ iterations, ∀ f : Objective, ∃ j : Journal,
      journal ⟨f, config, valid⟩ (fun done _ => flag done) s =
        .ok (j, after s (2 + 3 * iterations)) ∧
      run ⟨f, config, valid⟩ (fun done _ => flag done) s =
        .ok (j.result config, after s (2 + 3 * iterations)) ∧
      run ⟨f, config, valid⟩ (fun done _ => flag done) (⟨s, narrow, wide⟩ : Metered σ) =
        .ok (j.result config,
          ⟨after s (2 + 3 * iterations), narrow, wide + (2 + 3 * iterations)⟩) ∧
      (j.result config).iterations = iterations ∧ j.trials.length = iterations ∧
      j.start = f.at (Interval.point ⟨_, _, sampleable⟩ (word s 0))
        (Interval.point ⟨_, _, sampleable⟩ (word s 1)) ∧
      ∀ k (hk : k < j.trials.length),
        j.trials[k].Drawn f (config.temperature (k / config.movesPerLevel.toNat))
          (word s (2 + 3 * k)) (word s (3 + 3 * k)) (word s (4 + 3 * k)) := by
  obtain ⟨iterations, alike⟩ := exists_iterations_of_flag (σ := σ) valid sampleable flag
  refine ⟨iterations, fun f => ?_⟩
  obtain ⟨j, t, told, ran, tried, trials⟩ := alike f s
  have counted := run_metered (a := ⟨f, config, valid⟩) flag sampleable told narrow wide
  obtain ⟨rfl, start, drawn⟩ := journal_reads (a := ⟨f, config, valid⟩) sampleable told
  rw [trials] at told ran counted
  refine ⟨j, told, ran, counted, tried, trials, start, fun k hk => ?_⟩
  have read := drawn k hk
  rw [show 3 + 3 * k = 2 + (3 * k + 1) by omega, show 4 + 3 * k = 2 + (3 * k + 2) by omega]
  exact read

/-- A run of one level with two moves. -/
def brief : Config :=
  { initialTemperature := 10.0, coolingRate := 0.5, movesPerLevel := 2, minTemperature := 8.0 }

theorem brief_valid : brief.Valid := Config.defect?_eq_none_iff.mp rfl

/-- The run takes eight words, whether its objective falls where it is led or rises there. -/
theorem brief_draws_alike :
    Sampleable (-brief.initialRange) brief.initialRange ∧ ∃ r r',
      run ⟨fun x _ => x, brief, brief_valid⟩ (fun _ _ => false)
        (⟨⟨#[0], 0⟩, 0, 0⟩ : Metered Script) = .ok (r, ⟨after ⟨#[0], 0⟩ 8, 0, 8⟩) ∧
      run ⟨fun x _ => -x, brief, brief_valid⟩ (fun _ _ => false)
        (⟨⟨#[0], 0⟩, 0, 0⟩ : Metered Script) = .ok (r', ⟨after ⟨#[0], 0⟩ 8, 0, 8⟩) := by
  have sampleable : Sampleable (-brief.initialRange) brief.initialRange := by decide
  obtain ⟨iterations, alike⟩ := run_draws_alike brief_valid sampleable (fun _ => false)
    (⟨#[0], 0⟩ : Script) 0 0
  obtain ⟨j, told, -, counted, -, trials, -⟩ := alike fun x _ => x
  obtain ⟨j', -, -, counted', -⟩ := alike fun x _ => -x
  have two : iterations = 2 := by
    -- where the objective falls, both moves are certain
    have known : journal ⟨fun x _ => x, brief, brief_valid⟩ (fun _ _ => false)
        (⟨#[0], 0⟩ : Script) = .ok (⟨⟨-5.0, -5.0, -5.0⟩, [⟨10.0,
          [⟨⟨-5.0, -5.0, -5.0⟩, ⟨-15.0, -15.0, -15.0⟩, 0.0⟩,
            ⟨⟨-15.0, -15.0, -15.0⟩, ⟨-25.0, -25.0, -25.0⟩, 0.0⟩]⟩], false⟩, ⟨#[0], 0⟩) := by rfl
    rw [known] at told
    obtain ⟨rfl, -⟩ := Prod.mk.inj (Except.ok.inj told)
    exact trials.symm
  subst two
  exact ⟨sampleable, _, _, counted, counted'⟩

end Metaheuristics.Annealing

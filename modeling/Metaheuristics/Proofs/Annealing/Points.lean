import Metaheuristics.Proofs.Annealing.Journal
import Metaheuristics.Proofs.Random.Fractions

/-!
# The points of a run

A run evaluates its objective at its start, which lies in a square around the origin, and at candidates,
each of which lies near the point held at the time (`Journal.Located`, `journal_located`). Collected here:

* what holds of the start and of every candidate that is near a point of which it holds, holds of all
  points, where it may depend on how many trials there were (`Journal.Faithful.reaches`);
* everything that a result tells is told of one of these points: the best one, the last one and every
  entry of the history (`Result.Tells`, `Journal.tells`).
-/

namespace Metaheuristics.Annealing

variable {σ : Type} [WordSource σ] {a : Annealing}

/-! ## Where points lie -/

/-- A point that can be proposed from another one at a temperature. Each of its coordinates is moved by
a share of the temperature. -/
structure Near (temperature : Float) (p q : Point) : Prop where
  x : ∃ share : Float, -1.0 ≤ share ∧ share ≤ 1.0 ∧ q.x = p.x + share * temperature
  y : ∃ share : Float, -1.0 ≤ share ∧ share ≤ 1.0 ∧ q.y = p.y + share * temperature

/-- Coordinates are moved by at most the temperature, so what such steps lead to holds of both. -/
theorem Near.both {t : Float} {p q : Point} {P Q : Float → Prop} (near : Near t p q)
    (nonneg : 0.0 ≤ t) (finite : t.isFinite) (held : P p.x ∧ P p.y)
    (step : ∀ u d : Float, P u → -t ≤ d → d ≤ t → Q (u + d)) : Q q.x ∧ Q q.y := by
  obtain ⟨share_x, above_x, below_x, moved_x⟩ := near.x
  obtain ⟨share_y, above_y, below_y, moved_y⟩ := near.y
  obtain ⟨lower_x, upper_x⟩ := Binary64.unit_mul_mem above_x below_x nonneg finite
  obtain ⟨lower_y, upper_y⟩ := Binary64.unit_mul_mem above_y below_y nonneg finite
  rw [moved_x, moved_y]
  exact ⟨step _ _ held.1 lower_x upper_x, step _ _ held.2 lower_y upper_y⟩

/-- A point of the square from which a start is drawn. -/
structure Config.Holds (c : Config) (p : Point) : Prop where
  x : -c.initialRange ≤ p.x ∧ p.x ≤ c.initialRange
  y : -c.initialRange ≤ p.y ∧ p.y ≤ c.initialRange

/-- A journal whose start lies in the square, and whose candidates lie near the points held. -/
structure Journal.Located (c : Config) (j : Journal) : Prop where
  start : c.Holds j.start
  near : ∀ stage ∈ j.stages, ∀ trial ∈ stage.trials,
    Near stage.temperature trial.held trial.candidate

theorem sample_yields_between {r : Interval} (symmetric : r.lo = -r.hi) :
    Draw.Yields (r.sample : Draw σ Float) fun x => -r.hi ≤ x ∧ x ≤ r.hi :=
  .map (Draw.word64_yields.imp fun w _ => Interval.point_mem symmetric w)

theorem propose_yields_near (a : Annealing) (temperature : Float) (p : Point) :
    Draw.Yields (a.propose temperature p : Draw σ Point) (Near temperature p) := by
  have share := sample_yields_between (σ := σ) (r := Interval.symmetricUnit) rfl
  unfold propose
  refine share.bind fun dx hx => share.bind fun dy hy => .pure ?_
  exact ⟨⟨dx, hx.1, hx.2, rfl⟩, ⟨dy, hy.1, hy.2, rfl⟩⟩

theorem tries_yields_near (a : Annealing) (temperature : Float) (count : Nat) (w : Walk) :
    Draw.Yields (a.tries temperature count w : Draw σ (List Trial)) fun trials =>
      ∀ trial ∈ trials, Near temperature trial.held trial.candidate := by
  induction count generalizing w with
  | zero => exact .pure (List.forall_mem_nil _)
  | succ count ih =>
      unfold tries
      refine (a.propose_yields_near temperature w.current).bind fun candidate near => ?_
      refine Draw.fraction_yields.bind fun fraction _ => (ih _).bind fun rest later => .pure ?_
      exact List.forall_mem_cons.mpr ⟨near, later⟩

theorem follow_yields_near (a : Annealing) (stop : Nat → σ → Bool) (limit : Nat) (p : Progress) :
    Draw.Yields (a.follow stop limit p) fun rest =>
      ∀ stage ∈ rest.1, ∀ trial ∈ stage.trials,
        Near stage.temperature trial.held trial.candidate := by
  induction limit generalizing p with
  | zero => exact .pure (List.forall_mem_nil _)
  | succ limit ih =>
      unfold follow
      by_cases above : a.config.minTemperature < p.temperature
      · rw [if_pos above]
        refine .get_bind fun source => ?_
        by_cases raised : stop p.levels source = true
        · rw [if_pos raised]
          exact .pure (List.forall_mem_nil _)
        · rw [if_neg raised]
          have near : Draw.Yields (a.stage p : Draw σ Stage) fun stage =>
              ∀ trial ∈ stage.trials, Near stage.temperature trial.held trial.candidate :=
            (a.tries_yields_near _ _ _).bind fun trials near => .pure near
          refine near.bind fun stage here => (ih _).bind fun rest later => .pure ?_
          exact List.forall_mem_cons.mpr ⟨here, later⟩
      · rw [if_neg above]
        exact .pure (List.forall_mem_nil _)

theorem begin_yields_held
    (sampleable : Sampleable (-a.config.initialRange) a.config.initialRange) :
    Draw.Yields (a.begin : Draw σ Progress) fun p => a.config.Holds p.walk.current := by
  have range : Interval.between (-a.config.initialRange) a.config.initialRange =
      .ok ⟨_, _, sampleable⟩ := dif_pos sampleable
  have inside := sample_yields_between (σ := σ) (r := ⟨_, _, sampleable⟩) rfl
  have given : ∃ r, Except.ok (ε := Fault) (⟨_, _, sampleable⟩ : Interval) = .ok r ∧
      r = ⟨_, _, sampleable⟩ := ⟨_, rfl, rfl⟩
  rw [begin, range]
  refine (Draw.Yields.lift given).bind fun r same => ?_
  subst same
  exact inside.bind fun x hx => inside.bind fun y hy => .pure ⟨hx, hy⟩

/-- However a run is stopped, its points lie where they should. -/
theorem journal_located (sampleable : Sampleable (-a.config.initialRange) a.config.initialRange)
    (stop : Nat → σ → Bool) : Draw.Yields (a.journal stop) (Journal.Located a.config) :=
  (begin_yields_held sampleable).bind fun _ start =>
    (a.follow_yields_near stop _ _).bind fun _ near => .pure ⟨start, near⟩

/-! ## What holds of all points -/

section

variable {P : Nat → Point → Prop} (longer : ∀ {i k : Nat} {p : Point}, i ≤ k → P i p → P k p)

include longer

/-- What holds of a walk after `i` trials holds after some more, if every trial keeps it. -/
theorem Trials.reaches {f : Objective} {temperature : Float} {w : Walk} {trials : List Trial}
    (trying : Trials f temperature w trials)
    (step : ∀ trial ∈ trials, ∀ i, P i trial.held → P (i + 1) trial.candidate) {i : Nat}
    (h : P i w.current) :
    (∀ trial ∈ trials, P (i + trials.length) trial.candidate) ∧
      P (i + trials.length) (w.through ⟨temperature, trials⟩).current := by
  induction trying generalizing i with
  | nil => exact ⟨nofun, h⟩
  | cons held on small rest ih =>
      rename_i w trial trials
      obtain ⟨first, others⟩ := List.forall_mem_cons.mp step
      have candidate := first i (held ▸ h)
      have moved : P (i + 1) (w.weigh temperature trial).current := by
        unfold Walk.weigh Walk.consider
        split
        · exact candidate
        · exact longer (Nat.le_succ i) h
      obtain ⟨all, last⟩ := ih others moved
      rw [List.length_cons, Nat.add_comm trials.length, ← Nat.add_assoc]
      exact ⟨List.forall_mem_cons.mpr ⟨longer (Nat.le_add_right _ _) candidate, all⟩, last⟩

theorem Stages.reaches {p : Progress} {stages : List Stage} (through : Stages a p stages)
    (step : ∀ stage ∈ stages, ∀ trial ∈ stage.trials, ∀ i, P i trial.held →
      P (i + 1) trial.candidate) {i : Nat} (h : P i p.walk.current) :
    ∀ stage ∈ stages, ∀ trial ∈ stage.trials,
      P (i + (stages.flatMap Stage.trials).length) trial.candidate := by
  induction through generalizing i with
  | nil => nofun
  | cons temperature moves trying rest ih =>
      rename_i p stage stages
      obtain ⟨first, others⟩ := List.forall_mem_cons.mp step
      obtain ⟨all, last⟩ := trying.reaches (P := P) longer first h
      rw [List.flatMap_cons, List.length_append, ← Nat.add_assoc]
      refine List.forall_mem_cons.mpr ⟨fun trial tried => ?_, ih others last⟩
      exact longer (Nat.le_add_right _ _) (all trial tried)

/-- What holds of the start, and of every candidate if it held of the point held, holds of all points. It
may depend on the number of trials. -/
theorem Journal.Faithful.reaches {steps : Nat} {j : Journal} (faithful : j.Faithful a steps)
    (step : ∀ stage ∈ j.stages, ∀ trial ∈ stage.trials, ∀ i, P i trial.held →
      P (i + 1) trial.candidate) (start : P 0 j.start) :
    ∀ p ∈ j.points, P j.trials.length p := by
  have all := faithful.stages.reaches (P := P) longer step start
  rw [Nat.zero_add] at all
  exact Journal.forall_points_iff.mpr ⟨longer (Nat.zero_le _) start, all⟩

end

/-! ## What a result tells -/

/-- Everything that is known of a run is known of points with a property. -/
structure Progress.Knows (P : Point → Prop) (p : Progress) : Prop where
  best : P p.walk.best
  current : P p.walk.current
  entry : ∀ v ∈ p.history, ∃ q, P q ∧ q.value = v

/-- Everything that a result tells is told of points with a property. -/
structure Result.Tells (P : Point → Prop) (r : Result) : Prop where
  best : P r.best
  lastAccepted : P r.lastAccepted
  entry : ∀ v ∈ r.valueHistory, ∃ q, P q ∧ q.value = v

namespace Progress.Knows

variable {P : Point → Prop} {p : Progress}

theorem pass {c : Config} {stage : Stage} (h : p.Knows P)
    (candidates : ∀ trial ∈ stage.trials, P trial.candidate) : (p.pass c stage).Knows P := by
  have through {w : Walk} {trials : List Trial} (best : P w.best) (current : P w.current)
      (candidates : ∀ trial ∈ trials, P trial.candidate) :
      P (w.through ⟨stage.temperature, trials⟩).best ∧
        P (w.through ⟨stage.temperature, trials⟩).current := by
    induction trials generalizing w with
    | nil => exact ⟨best, current⟩
    | cons trial trials ih =>
        obtain ⟨first, others⟩ := List.forall_mem_cons.mp candidates
        have moved : P (w.weigh stage.temperature trial).best ∧
            P (w.weigh stage.temperature trial).current := by
          unfold Walk.weigh Walk.consider
          split
          · refine ⟨?_, first⟩
            unfold Walk.accept
            split
            · exact first
            · exact best
          · exact ⟨best, current⟩
        exact ih moved.1 moved.2 others
  obtain ⟨best, current⟩ := through h.best h.current candidates
  refine ⟨best, current, fun v member => ?_⟩
  rcases Array.mem_push.mp member with old | rfl
  · exact h.entry v old
  · exact ⟨_, best, rfl⟩

theorem extend {c : Config} {stages : List Stage} (h : p.Knows P)
    (candidates : ∀ stage ∈ stages, ∀ trial ∈ stage.trials, P trial.candidate) :
    (p.extend c stages).Knows P := by
  induction stages generalizing p with
  | nil => exact h
  | cons stage stages ih =>
      obtain ⟨first, others⟩ := List.forall_mem_cons.mp candidates
      exact ih (h.pass first) others

end Progress.Knows

/-- Everything that the result of a run tells is told of points at which the objective was evaluated. -/
theorem Journal.tells {P : Point → Prop} (c : Config) (j : Journal) (all : ∀ p ∈ j.points, P p) :
    (j.result c).Tells P := by
  obtain ⟨start, candidates⟩ := forall_points_iff.mp all
  have begun : (Progress.start c j.start).Knows P := by
    refine ⟨start, start, fun v member => ⟨j.start, start, ?_⟩⟩
    exact (List.mem_singleton.mp (Array.mem_toList_iff.mpr member)).symm
  obtain ⟨best, current, entry⟩ := begun.extend (c := c) candidates
  exact ⟨best, current, entry⟩

end Metaheuristics.Annealing

import Metaheuristics.Annealing.Restart
import Metaheuristics.Proofs.Annealing.Held

/-!
# Restarting an annealing run

An annealing run is restarted from one seed after another, and the result with the lowest best value is
kept. Collected here:

* a search is created unless its parameters have a defect (`create_of_valid`, `create_eq_error_iff`),
  and restarts are refused for that reason or for want of a seed (`multiStart_eq_error_iff`);
* the seed among the parameters is that of a fresh search (`solveFresh`), and no restart looks at it
  (`multiStart_reseeded`);
* a run from a seed has a number for its best value unless it starts at a NaN (`exists_solveFrom`), so
  if no value is a NaN, the restarts keep the earliest of the lowest results
  (`multiStart_keepsEarliest`);
* in general they do so if the first seed leads to a number, and if it does not they keep its NaN
  whatever the other seeds lead to (`multiStart_lowest_unless_first_nan`, `islet_restarts_keep_nan`).
-/

namespace Metaheuristics.Annealing

variable {f : Objective} {config : Config}

/-! ## Fresh searches -/

/-- The result of a fresh search. Its random source comes from the seed of its parameters, or from
outside entropy if they have none. -/
def solveFresh (entropy : UInt64) (f : Objective) (config : Config) :
    Except InputError (Except Fault Result) := do
  let annealing ← create f config
  return do
    let (result, _) ← annealing.solve (Keystream.ofSeedOr entropy config.seed)
    return result

theorem create_of_valid (f : Objective) (valid : config.Valid) :
    create f config = .ok ⟨f, config, valid⟩ := by
  unfold create
  split
  · rfl
  · rename_i defect found
    rw [Config.defect?_eq_none_iff.mpr valid] at found
    cases found

theorem create_eq_error_iff {e : InputError} : create f config = .error e ↔
    ∃ defect, config.defect? = some defect ∧ e = .invalidConfig defect.message := by
  unfold create
  split
  · rename_i none
    simp [none]
  · rename_i defect found
    simp [found, eq_comm]

/-- Restarts are refused if there is no seed, whatever the parameters are, and else for a defect of
the parameters. -/
theorem multiStart_eq_error_iff {seeds : List UInt64} {e : InputError} :
    multiStart f config seeds = .error e ↔ (seeds = [] ∧ e = Restart.noSeeds) ∨
      seeds ≠ [] ∧ ∃ defect, config.defect? = some defect ∧ e = .invalidConfig defect.message := by
  rw [← create_eq_error_iff (f := f)]
  exact Restart.eq_error_iff rfl fun _ _ => rfl

theorem multiStart_cons (a : Annealing) (seed : UInt64) (seeds : List UInt64) :
    multiStart a.objective a.config (seed :: seeds) =
      .ok (Restart.best (fun result => result.best.value) a.solveFrom seed seeds) := by
  rw [multiStart, create_of_valid a.objective a.valid]
  rfl

/-! ## The seed among the parameters -/

/-- The same search with another seed among its parameters. -/
def reseeded (a : Annealing) (seed : Option UInt64) : Annealing where
  objective := a.objective
  config := { a.config with seed }
  valid := { a.valid with }

section

variable {σ : Type} [WordSource σ]

theorem follow_reseeded (a : Annealing) (seed : Option UInt64) (stop : Nat → σ → Bool)
    (limit : Nat) (p : Progress) : (a.reseeded seed).follow stop limit p = a.follow stop limit p := by
  induction limit generalizing p with
  | zero => rfl
  | succ limit ih =>
      have level : ((a.reseeded seed).stage p : Draw σ Stage) = a.stage p :=
        stage_congr (a := a.reseeded seed) (b := a) rfl rfl p
      have later (stage : Stage) := ih (p.pass a.config stage)
      rw [follow, follow, level]
      simp only [← later]
      rfl

theorem run_reseeded (a : Annealing) (seed : Option UInt64) (stop : Nat → σ → Bool) :
    (a.reseeded seed).run stop = a.run stop := by
  have told : (a.reseeded seed).journal stop = a.journal stop := by
    show (a.begin >>= _) = a.begin >>= _
    refine bind_congr fun p => ?_
    rw [follow_reseeded]
    rfl
  rw [run_eq_journal, run_eq_journal, told]
  rfl

end

theorem create_reseeded (f : Objective) (config : Config) (seed : Option UInt64) :
    create f { config with seed } = (fun a => a.reseeded seed) <$> create f config := by
  cases found : config.defect? with
  | none =>
      have valid := Config.defect?_eq_none_iff.mp found
      have created : create f { config with seed } = .ok (reseeded ⟨f, config, valid⟩ seed) :=
        create_of_valid f _
      rw [create_of_valid f valid, created]
      rfl
  | some defect =>
      -- no defect has to do with the seed
      have found' : { config with seed }.defect? = some defect := found
      rw [create_eq_error_iff.mpr ⟨defect, found, rfl⟩,
        create_eq_error_iff.mpr ⟨defect, found', rfl⟩]
      rfl

theorem solveFrom_reseeded (a : Annealing) (seed : Option UInt64) :
    (a.reseeded seed).solveFrom = a.solveFrom := by
  funext x
  rw [solveFrom, solveFrom, solve, solve, run_reseeded]

/-- No restart looks at the seed among the parameters. -/
theorem multiStart_reseeded (f : Objective) (config : Config) (seed : Option UInt64)
    (seeds : List UInt64) :
    multiStart f { config with seed } seeds = multiStart f config seeds := by
  cases seeds with
  | nil => rfl
  | cons first seeds =>
      rw [multiStart, multiStart, create_reseeded]
      cases create f config with
      | error refusal => rfl
      | ok a =>
          have same := a.solveFrom_reseeded seed
          exact congrArg (fun search => Except.ok
            (Restart.best (fun result => result.best.value) search first seeds)) same

/-- A fresh search that has a seed among its parameters runs from it. -/
theorem solveFresh_eq_solveFrom (entropy : UInt64) (f : Objective) (config : Config)
    (seed : UInt64) : solveFresh entropy f { config with seed := some seed } =
      (fun a => a.solveFrom seed) <$> create f config := by
  rw [solveFresh, create_reseeded]
  cases create f config with
  | error refusal => rfl
  | ok a => exact congrArg (fun search => Except.ok (search seed)) (a.solveFrom_reseeded (some seed))

/-! ## Runs from seeds -/

/-- Where a run from a seed starts. -/
def startFrom (a : Annealing) (seed : UInt64) : Except Fault Point := do
  let (p, _) ← a.begin (Keystream.ofSeed seed)
  return p.walk.current

variable {a : Annealing}

/-- A search whose start can be drawn has a result from every seed, and its best value is a NaN only if
its first one is. -/
theorem exists_solveFrom
    (sampleable : Sampleable (-a.config.initialRange) a.config.initialRange) :
    ∃ run : UInt64 → Result, ∀ seed, a.solveFrom seed = .ok (run seed) ∧
      ∃ start, a.startFrom seed = .ok start ∧ start.On a.objective ∧
        ((run seed).best.value.isNaN ↔ start.value.isNaN) := by
  have each (seed : UInt64) : ∃ r, a.solveFrom seed = .ok r ∧
      ∃ start, a.startFrom seed = .ok start ∧ start.On a.objective ∧
        (r.best.value.isNaN ↔ start.value.isNaN) := by
    obtain ⟨steps, schedule⟩ := a.valid.exists_schedule
    rcases a.run_cases schedule (fun _ _ => false) (Keystream.ofSeed seed) with refused |
      ⟨-, j, t, told, ran, faithful⟩
    · exact absurd sampleable refused.1
    · obtain ⟨s', begun, -⟩ := journal_eq_ok sampleable told
      refine ⟨j.result a.config, ?_, j.start, ?_, faithful.start, faithful.keepsHeld.isNaN_best_iff⟩
      · rw [solveFrom, solve, ran]
        rfl
      · rw [startFrom, begun]
        rfl
  choose run searched using each
  exact ⟨run, searched⟩

theorem solveFrom_refused
    (unsampleable : ¬Sampleable (-a.config.initialRange) a.config.initialRange) (seed : UInt64) :
    a.solveFrom seed =
      .error (.unsampleableRange (-a.config.initialRange) a.config.initialRange) := by
  have refused : a.solve (Keystream.ofSeed seed) = _ :=
    Draw.bind_of_error _ (begin_refused unsampleable _)
  rw [solveFrom, refused]
  rfl

/-! ## Restarts -/

theorem multiStart_refused
    (unsampleable : ¬Sampleable (-a.config.initialRange) a.config.initialRange)
    (seed : UInt64) (seeds : List UInt64) : multiStart a.objective a.config (seed :: seeds) =
      .ok (.error (.unsampleableRange (-a.config.initialRange) a.config.initialRange)) := by
  rw [multiStart_cons, Restart.best, solveFrom_refused unsampleable]
  rfl

/-- The restarts of a search whose objective is never a NaN keep the earliest of the lowest results. -/
theorem multiStart_keepsEarliest (valid : config.Valid) (number : ∀ x y, ¬(f x y).isNaN)
    (sampleable : Sampleable (-config.initialRange) config.initialRange) :
    ∃ run : UInt64 → Result,
      (∀ entropy seed,
        solveFresh entropy f { config with seed := some seed } = .ok (.ok (run seed))) ∧
      Restart.KeepsEarliest (fun result => result.best.value) run (multiStart f config) := by
  obtain ⟨run, searched⟩ := exists_solveFrom (a := ⟨f, config, valid⟩) sampleable
  refine ⟨run, ?_, ?_⟩
  · intro entropy seed
    rw [solveFresh_eq_solveFrom, create_of_valid f valid, ← (searched seed).1]
    rfl
  · have counted (seed : UInt64) : ¬(run seed).best.value.isNaN := by
      obtain ⟨-, start, -, on, nan_iff⟩ := searched seed
      rw [nan_iff, on]
      exact number start.x start.y
    exact Restart.keepsEarliest counted (fun seed => (searched seed).1)
      (multiStart_cons ⟨f, config, valid⟩)

/-- If the first seed leads to a number, the restarts keep the earliest of the lowest numbers, and no
NaN counts. If it leads to a NaN, they keep that. A run leads to a NaN when its start has one for its
value. -/
theorem multiStart_lowest_unless_first_nan (a : Annealing) (seed : UInt64) (seeds : List UInt64) :
    (¬Sampleable (-a.config.initialRange) a.config.initialRange ∧
        multiStart a.objective a.config (seed :: seeds) =
          .ok (.error (.unsampleableRange (-a.config.initialRange) a.config.initialRange))) ∨
      Sampleable (-a.config.initialRange) a.config.initialRange ∧ ∃ run : UInt64 → Result,
        (∀ x, a.solveFrom x = .ok (run x)) ∧
        (∀ x, ∃ start, a.startFrom x = .ok start ∧
          ((run x).best.value.isNaN ↔ start.value.isNaN)) ∧
        ∃ chosen, multiStart a.objective a.config (seed :: seeds) = .ok (.ok (run chosen)) ∧
          (¬(run seed).best.value.isNaN →
            Restart.Earliest (fun x => (run x).best.value) (seed :: seeds) chosen) ∧
          ((run seed).best.value.isNaN → chosen = seed) := by
  by_cases sampleable : Sampleable (-a.config.initialRange) a.config.initialRange
  · obtain ⟨run, searched⟩ := exists_solveFrom sampleable
    refine .inr ⟨sampleable, run, fun x => (searched x).1, ?_,
      Restart.firstLowest (fun x => (run x).best.value) seed seeds, ?_, ?_, ?_⟩
    · intro x
      obtain ⟨-, start, started, -, nan_iff⟩ := searched x
      exact ⟨start, started, nan_iff⟩
    · rw [multiStart_cons, Restart.best_eq_ok fun x => (searched x).1]
    · intro number
      exact Restart.earliest_firstLowest (fun x => (run x).best.value) number seeds
    · intro nan
      exact Restart.firstLowest_of_isNaN (fun x => (run x).best.value) nan seeds
  · exact .inl ⟨sampleable, multiStart_refused sampleable seed seeds⟩

/-- From seed 0 the search on the islet starts off it, from seed 12 on it. -/
theorem islet_starts :
    (islet.startFrom 0).toOption.any (fun start => start.value.isNaN) ∧
      (islet.startFrom 12).toOption.any (fun start => !start.value.isNaN) := by
  decide +kernel

/-- Restarts from both seeds keep the NaN of the first one, although the second one leads to a
number. -/
theorem islet_restarts_keep_nan : ∃ r r',
    islet.solveFrom 0 = .ok r ∧ islet.solveFrom 12 = .ok r' ∧
      ¬r'.best.value.isNaN ∧ r.best.value.isNaN ∧
      multiStart islet.objective islet.config [0, 12] = .ok (.ok r) := by
  have sampleable : Sampleable (-islet.config.initialRange) islet.config.initialRange := by decide
  obtain ⟨run, searched⟩ := exists_solveFrom sampleable
  obtain ⟨off, on⟩ := islet_starts
  obtain ⟨first, start, begun, -, nan_iff⟩ := searched 0
  obtain ⟨second, start', begun', -, nan_iff'⟩ := searched 12
  rw [begun] at off
  rw [begun'] at on
  -- a run keeps a NaN for its best value exactly when it starts at one, so the starts decide
  have nan : (run 0).best.value.isNaN := nan_iff.mpr off
  refine ⟨run 0, run 12, first, second, fun nan' => ?_, nan, ?_⟩
  · have number : (!start'.value.isNaN) = true := on
    rw [nan_iff'.mp nan'] at number
    exact Bool.false_ne_true number
  · rw [multiStart_cons, Restart.best_eq_ok fun x => (searched x).1,
      Restart.firstLowest_of_isNaN (fun x => (run x).best.value) nan]

end Metaheuristics.Annealing

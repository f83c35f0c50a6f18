import Metaheuristics.Colony.Restart
import Metaheuristics.Proofs.Colony.Overflow
import Metaheuristics.Proofs.Earliest

/-!
# Restarting a colony

A colony is restarted from one seed after another, and the shortest of the results is kept. Collected
here:

* a colony is created unless its parameters have a defect (`create_eq_error_iff`), and restarts are
  refused for that reason or for want of a seed (`multiStart_eq_error_iff`);
* the seed among the parameters is that of a fresh colony (`solveFresh`), and no restart looks at it
  (`multiStart_reseeded`);
* the best length of a run is a positive number (`exists_solveFrom`), so the restarts keep the earliest
  of the shortest results (`multiStart_keepsEarliest`).
-/

namespace Metaheuristics.Colony

variable {n : Nat} {d : Distances n} {config : Config}

/-! ## Fresh colonies -/

/-- The result of a fresh colony. Its random source comes from the seed of its parameters, or from
outside entropy if they have none. -/
def solveFresh (entropy : UInt64) (d : Distances n) (config : Config) :
    Except InputError (Except Fault Result) := do
  let colony ← create d config
  return do
    let ((result, _), _) ← colony.solve (Keystream.ofSeedOr entropy config.seed)
    return result

theorem create_eq_error_iff {e : InputError} : create d config = .error e ↔
    ∃ defect, config.defect? = some defect ∧ e = .invalidConfig defect.message := by
  cases found : config.defect? with
  | none =>
      rw [create_of_valid d (Config.defect?_eq_none_iff.mp found)]
      simp
  | some defect =>
      rw [create_of_defect d found]
      simp [eq_comm]

/-- Restarts are refused if there is no seed, whatever the parameters are, and else for a defect of
the parameters. -/
theorem multiStart_eq_error_iff {seeds : List UInt64} {e : InputError} :
    multiStart d config seeds = .error e ↔ (seeds = [] ∧ e = Restart.noSeeds) ∨
      seeds ≠ [] ∧ ∃ defect, config.defect? = some defect ∧ e = .invalidConfig defect.message := by
  rw [← create_eq_error_iff (d := d)]
  exact Restart.eq_error_iff rfl fun _ _ => rfl

/-! ## The seed among the parameters -/

theorem Config.unnoticed_seed (seed : Option UInt64) :
    Config.Unnoticed fun c => { c with seed } :=
  ⟨fun _ => rfl, fun _ => rfl, fun _ => rfl, fun _ => rfl, fun _ => rfl,
    fun _ valid => { valid with }⟩

theorem create_reseeded (d : Distances n) (config : Config) (seed : Option UInt64) :
    create d { config with seed } =
      (fun c => c.changed (Config.unnoticed_seed seed)) <$> create d config := by
  cases found : config.defect? with
  | none =>
      have valid := Config.defect?_eq_none_iff.mp found
      have valid' := (Config.unnoticed_seed seed).valid config valid
      rw [create_of_valid d valid, create_of_valid d valid']
      rfl
  | some defect =>
      -- no defect has to do with the seed
      have found' : { config with seed }.defect? = some defect := found
      rw [create_eq_error_iff.mpr ⟨defect, found, rfl⟩,
        create_eq_error_iff.mpr ⟨defect, found', rfl⟩]
      rfl

theorem solveFrom_reseeded (c : Colony n) (seed : Option UInt64) :
    (c.changed (Config.unnoticed_seed seed)).solveFrom = c.solveFrom := by
  have solved : ((c.changed (Config.unnoticed_seed seed)).solve : Draw Keystream _) =
      (fun q => (q.1, q.2.changed (Config.unnoticed_seed seed))) <$> c.solve := by
    rw [solve, solve, run, run, map_bind]
    exact bind_congr fun _ => advance_changed _ c _ .empty
  funext x
  rw [solveFrom, solveFrom, solved]
  cases ran : c.solve (Keystream.ofSeed x) with
  | ok outcome =>
      rw [Draw.map_eq_ok _ ran]
      rfl
  | error fault => rw [map_eq_pure_bind, Draw.bind_of_error _ ran]

/-- No restart looks at the seed among the parameters. -/
theorem multiStart_reseeded (d : Distances n) (config : Config) (seed : Option UInt64)
    (seeds : List UInt64) :
    multiStart d { config with seed } seeds = multiStart d config seeds := by
  cases seeds with
  | nil => rfl
  | cons first seeds =>
      rw [multiStart, multiStart, create_reseeded]
      cases create d config with
      | error refusal => rfl
      | ok c =>
          have same := c.solveFrom_reseeded seed
          exact congrArg
            (fun search => Except.ok (Restart.best Result.bestLength search first seeds)) same

/-- A fresh colony that has a seed among its parameters runs from it. -/
theorem solveFresh_eq_solveFrom (entropy : UInt64) (d : Distances n) (config : Config)
    (seed : UInt64) : solveFresh entropy d { config with seed := some seed } =
      (fun c => c.solveFrom seed) <$> create d config := by
  rw [solveFresh, create_reseeded]
  cases create d config with
  | error refusal => rfl
  | ok c => exact congrArg (fun search => Except.ok (search seed)) (c.solveFrom_reseeded (some seed))

/-! ## Restarts -/

/-- The best length of a run is a positive number. -/
theorem Journal.Faithful.bestLength_pos {c : Colony n} {limit : Nat} {j : Journal n}
    (faithful : j.Faithful c limit) : 0.0 < j.result.bestLength := by
  have minimum := faithful.runningMinimum
  cases best : j.result.bestTour with
  | none =>
      rw [minimum.bestLength_of_none best]
      decide
  | some tour =>
      obtain ⟨trips, batch, made⟩ := minimum.exists_trip best
      exact (faithful.valid trips batch _ made).positive

/-- A colony for which there is room has a result from every seed. -/
theorem exists_solveFrom {c : Colony n} (fits : c.config.Fits) :
    ∃ run : UInt64 → Result, ∀ seed,
      c.solveFrom seed = .ok (run seed) ∧ 0.0 < (run seed).bestLength := by
  have each (seed : UInt64) : ∃ r, c.solveFrom seed = .ok r ∧ 0.0 < r.bestLength := by
    rcases c.run_cases (fun _ _ => false) (Keystream.ofSeed seed) with refused |
      ⟨-, j, t, -, ran, faithful⟩
    · exact absurd fits refused.1
    · refine ⟨j.result, ?_, faithful.bestLength_pos⟩
      rw [solveFrom, solve, ran]
      rfl
  choose run searched using each
  exact ⟨run, searched⟩

theorem solveFrom_refused {c : Colony n} (unfit : ¬c.config.Fits) :
    ∃ count bytes, ∀ seed, c.solveFrom seed = .error (.noRoom count bytes) := by
  obtain ⟨count, bytes, refused⟩ := Config.reserve_eq_error unfit
  refine ⟨count, bytes, fun seed => ?_⟩
  rw [solveFrom, solve, run, refused]
  rfl

/-- The restarts of a colony keep the earliest of the shortest results, unless there is no room for what
a run keeps. No length is zero, so it is the same to the last bit in every order of the seeds. -/
theorem multiStart_keepsEarliest (d : Distances n) (valid : config.Valid) :
    (¬config.Fits ∧ ∃ count bytes, ∀ seeds, seeds ≠ [] →
        multiStart d config seeds = .ok (.error (.noRoom count bytes))) ∨
      config.Fits ∧ ∃ run : UInt64 → Result,
        (∀ entropy seed,
          solveFresh entropy d { config with seed := some seed } = .ok (.ok (run seed))) ∧
        Restart.KeepsEarliest Result.bestLength run (multiStart d config) ∧
        ∀ xs ys r r', xs.Perm ys → multiStart d config xs = .ok (.ok r) →
          multiStart d config ys = .ok (.ok r') → r.bestLength = r'.bestLength := by
  obtain ⟨c, created, rfl⟩ : ∃ c, create d config = .ok c ∧ c.config = config :=
    ⟨_, create_of_valid d valid, rfl⟩
  have repeated (seed : UInt64) (seeds : List UInt64) :
      multiStart d c.config (seed :: seeds) =
        .ok (Restart.best Result.bestLength c.solveFrom seed seeds) := by
    rw [multiStart, created]
    rfl
  by_cases fits : c.config.Fits
  · obtain ⟨run, searched⟩ := exists_solveFrom fits
    have number (seed : UInt64) : ¬(run seed).bestLength.isNaN :=
      (Binary64.lt_iff.mp (searched seed).2).2.1
    have keeps : Restart.KeepsEarliest Result.bestLength run (multiStart d c.config) :=
      Restart.keepsEarliest number (fun seed => (searched seed).1) repeated
    refine .inr ⟨fits, run, ?_, keeps, ?_⟩
    · intro entropy seed
      rw [solveFresh_eq_solveFrom, created, ← (searched seed).1]
      rfl
    · intro xs ys r r' order result result'
      have some_seed : xs ≠ [] := by
        rintro rfl
        cases result
      obtain ⟨seed, chosen, -⟩ := keeps.earliest xs some_seed
      obtain ⟨q, q', kept, kept', -, equal⟩ := keeps.perm xs ys order some_seed
      rw [result, Except.ok.injEq, Except.ok.injEq] at chosen kept
      rw [result', Except.ok.injEq, Except.ok.injEq] at kept'
      subst chosen kept'
      rw [← kept] at equal
      -- lengths that are equal to each other are the same unless they are zeros, and these are positive
      refine equal.resolve_right fun zeros => ?_
      have zero := (Binary64.beq_iff.mp zeros.1).2.2
      have positive := (Binary64.lt_iff.mp (searched seed).2).2.2
      omega
  · obtain ⟨count, bytes, refused⟩ := solveFrom_refused fits
    refine .inl ⟨fits, count, bytes, ?_⟩
    intro seeds some_seed
    obtain ⟨seed, seeds, rfl⟩ := List.exists_cons_of_ne_nil some_seed
    rw [repeated, Restart.best, refused]
    rfl

end Metaheuristics.Colony

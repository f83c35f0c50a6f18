import Metaheuristics.Proofs.Colony.Journal

/-!
# Any number of runs

A colony may be run again and again, each time over the trails that it has left so far, and any run may
be cancelled. Collected here:

* iterations one after another (`Iterations`), and that a run consists of them (`follow_iterates`);
* runs one after another (`runs`), and their journals (`journals`, `runs_eq_journals`);
* runs for which there is room all end with a result, and together they consist of iterations
  (`Sequel`, `runs_cases`);
* so nothing fails in any move of any ant (`runs_meet_no_fault`).
-/

namespace Metaheuristics.Colony

variable {n : Nat} {σ : Type} [WordSource σ]

/-! ## Iterations -/

variable (σ) in
/-- Iterations that take a colony from one state to another, with the trips made in each. -/
inductive Iterations : Colony n → List (List Trip) → Colony n → Prop
  | none {c : Colony n} : Iterations c [] c
  | more {c c' : Colony n} {trips : List Trip} {batches : List (List Trip)} {trails : Trails n} :
      Iterated σ c trips trails → Iterations { c with trails } batches c' →
      Iterations c (trips :: batches) c'

namespace Iterations

variable {c c' c'' : Colony n} {batches later : List (List Trip)}

theorem append (first : Iterations σ c batches c') (second : Iterations σ c' later c'') :
    Iterations σ c (batches ++ later) c'' := by
  induction first with
  | none => exact second
  | more iterated rest ih => exact .more iterated (ih second)

/-- Each of the iterations was one of the same colony, over the trails of its time. -/
theorem forall_iterated (through : Iterations σ c batches c') :
    ∀ trips ∈ batches, ∃ before after, Iterated σ { c with trails := before } trips after := by
  induction through with
  | none => nofun
  | more iterated rest ih => exact List.forall_mem_cons.mpr ⟨⟨_, _, iterated⟩, ih⟩

end Iterations

/-- However a run is stopped, it consists of iterations. -/
theorem follow_iterates (stop : Nat → σ → Bool) (limit done : Nat) (c : Colony n) :
    Draw.Yields (follow stop limit done c) fun j => Iterations σ c j.batches j.colony := by
  induction limit generalizing done c with
  | zero => exact .pure .none
  | succ limit ih =>
      unfold follow
      refine .get_bind fun source => ?_
      by_cases raised : stop done source = true
      · rw [if_pos raised]
        exact .pure .none
      · rw [if_neg raised]
        refine c.iterate_yields.bind fun outcome iterated => ?_
        obtain ⟨trips, _⟩ := outcome
        obtain ⟨trails, iterated, rfl⟩ := iterated
        refine (ih (done + 1) { c with trails }).bind fun rest later => .pure ?_
        exact .more iterated later

/-! ## Runs -/

/-- Runs a colony once for every way of stopping, over the trails that the run before has left. -/
def runs : List (Nat → σ → Bool) → Colony n → Draw σ (List Result × Colony n)
  | [], c => return ([], c)
  | stop :: stops, c => do
    let (r, c) ← c.run stop
    let (rest, c) ← runs stops c
    return (r :: rest, c)

/-- Runs a colony as `runs` does, and writes down what happens. -/
def journals : List (Nat → σ → Bool) → Colony n → Draw σ (List (Journal n) × Colony n)
  | [], c => return ([], c)
  | stop :: stops, c => do
    let j ← c.journal stop
    let (rest, c) ← journals stops j.colony
    return (j :: rest, c)

/-- The results of all runs are read off their journals. -/
theorem runs_eq_journals (stops : List (Nat → σ → Bool)) (c : Colony n) :
    runs stops c = (fun told => (told.1.map Journal.result, told.2)) <$> journals stops c := by
  induction stops generalizing c with
  | nil =>
      rw [runs, journals, map_pure]
      rfl
  | cons stop stops ih =>
      rw [runs, journals, run_eq_journal, bind_map_left, map_bind]
      refine bind_congr fun j => ?_
      show (runs stops j.colony >>= fun rest => pure (j.result :: rest.1, rest.2)) = _
      rw [ih, bind_map_left, map_bind]
      refine bind_congr fun told => ?_
      rw [map_pure]
      rfl

variable (σ) in
/-- Runs that take a colony from one state to another, told by their journals. -/
inductive Sequel : Colony n → List (Journal n) → Colony n → Prop
  | none {c : Colony n} : Sequel c [] c
  | run {c c' : Colony n} {j : Journal n} {js : List (Journal n)} :
      j.Faithful c c.config.iterations.toNat → Iterations σ c j.batches j.colony →
      Sequel j.colony js c' → Sequel c (j :: js) c'

/-- All runs together are iterations. -/
theorem Sequel.iterations {c c' : Colony n} {js : List (Journal n)} (sequel : Sequel σ c js c') :
    Iterations σ c (js.flatMap Journal.batches) c' := by
  induction sequel with
  | none => exact .none
  | run faithful through later ih => exact through.append ih

theorem journals_yield {c : Colony n} (fits : c.config.Fits) (stops : List (Nat → σ → Bool)) :
    Draw.Yields (journals stops c) fun told =>
      told.1.length = stops.length ∧ Sequel σ c told.1 told.2 := by
  induction stops generalizing c with
  | nil => exact .pure ⟨rfl, .none⟩
  | cons stop stops ih =>
      have told : Draw.Yields (c.journal stop) fun j =>
          j.Faithful c c.config.iterations.toNat ∧ Iterations σ c j.batches j.colony := by
        intro s
        rcases c.run_cases stop s with refused | ⟨-, j, t, written, -, faithful⟩
        · exact absurd fits refused.1
        · refine ⟨j, t, written, faithful, ?_⟩
          rw [journal, Config.reserve_eq_ok_iff.mpr fits] at written
          exact (follow_iterates stop _ 0 c).of_ok written
      unfold journals
      refine told.bind fun j written => ?_
      obtain ⟨faithful, through⟩ := written
      -- the parameters of the colony are still the same, so there is room for the other runs
      have still_fits : j.colony.config.Fits := by
        rw [faithful.colony]
        exact fits
      refine (ih still_fits).bind fun rest later => .pure ?_
      exact ⟨congrArg (· + 1) later.1, .run faithful through later.2⟩

/-- The first of some runs finds no room for what it keeps, or they all end with a result. -/
theorem runs_cases (c : Colony n) (stops : List (Nat → σ → Bool)) (s : σ) :
    (¬c.config.Fits ∧ stops ≠ [] ∧ ∃ count bytes, runs stops c s = .error (.noRoom count bytes)) ∨
      ∃ js c' t, journals stops c s = .ok ((js, c'), t) ∧
        runs stops c s = .ok ((js.map Journal.result, c'), t) ∧ js.length = stops.length ∧
        Sequel σ c js c' := by
  by_cases fits : c.config.Fits
  · obtain ⟨⟨js, c'⟩, t, told, count, sequel⟩ := journals_yield fits stops s
    refine .inr ⟨js, c', t, told, ?_, count, sequel⟩
    rw [runs_eq_journals]
    exact Draw.map_eq_ok _ told
  · cases stops with
    | nil => exact .inr ⟨[], c, s, rfl, rfl, rfl, .none⟩
    | cons stop stops =>
        obtain ⟨count, bytes, refused⟩ := run_refused fits stop s
        refine .inl ⟨fits, List.cons_ne_nil stop stops, count, bytes, ?_⟩
        exact Draw.bind_of_error _ refused

/-- However often a colony is run and however the runs are stopped, nothing fails but the reservation
of memory: every ant starts in one of at least two cities, weighs and reaches cities of the table only,
rolls only below totals that are positive and finite, and always lands on a city. Every tour has a
length and strengthens its edges. -/
theorem runs_meet_no_fault (c : Colony n) (stops : List (Nat → σ → Bool)) (s : σ) :
    (¬c.config.Fits ∧ stops ≠ [] ∧ ∃ count bytes, runs stops c s = .error (.noRoom count bytes)) ∨
      ∃ js c' t, journals stops c s = .ok ((js, c'), t) ∧
        runs stops c s = .ok ((js.map Journal.result, c'), t) ∧ js.length = stops.length ∧
        Sequel σ c js c' ∧ ∀ j ∈ js, ∀ trips ∈ j.batches,
          (trips.map Trip.tour).length = c.config.ants.toNat ∧
          (trips.map Trip.length).length = c.config.ants.toNat ∧
          ∃ before after : Trails n,
            before.reinforce c.config.evaporation c.config.q
              (trips.map fun trip => (trip.tour, trip.length)) = .ok after ∧
            ∀ trip ∈ trips, Toured σ { c with trails := before } trip.tour ∧
              (∀ city ∈ trip.tour, city < n) ∧
              c.distances.tourLength trip.tour = .ok trip.length := by
  rcases c.runs_cases stops s with refused | ⟨js, c', t, told, ran, count, sequel⟩
  · exact .inl refused
  · refine .inr ⟨js, c', t, told, ran, count, sequel, fun j member trips batch => ?_⟩
    have made : trips ∈ js.flatMap Journal.batches := List.mem_flatMap_of_mem member batch
    obtain ⟨before, after, iterated⟩ := sequel.iterations.forall_iterated trips made
    refine ⟨?_, ?_, before, after, iterated.reinforced, fun trip sent => ⟨?_, ?_, ?_⟩⟩
    · rw [List.length_map]
      exact iterated.ants
    · rw [List.length_map]
      exact iterated.ants
    · exact iterated.toured trip sent
    · exact Tour.lt_of_visits (iterated.valid trip sent).visits
    · exact (iterated.valid trip sent).measured

end Metaheuristics.Colony

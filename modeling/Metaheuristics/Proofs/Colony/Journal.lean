import Metaheuristics.Proofs.Colony.Tours

/-!
# The journal of a run

A run keeps only the shortest of the tours that its ants build. Its journal keeps all of them, in
the order of building, and the result of the run is read off the journal. Collected here:

* the journal (`Journal`, `follow`) and the result that it sums up to (`proceed_eq_follow`);
* what an iteration does: it sends out every ant, each ant makes a valid trip, and nothing but the
  trails of the colony changes (`Iterated`, `iterate_yields`);
* two colonies that weigh moves and measure tours alike send their ants on the same trips
  (`trip_congr`, `trips_congr`);
* hence a run for which there is room ends with a result, and its journal holds valid trips only
  (`run_cases`);
* every tour of a run visits every city once, and the best one is among them.
-/

namespace Metaheuristics.Colony

/-- A trip through all cities, with the length of its tour. -/
structure Trip.Valid {n : Nat} (d : Distances n) (trip : Trip) : Prop where
  visits : trip.tour.Perm (List.range n)
  measured : d.tourLength trip.tour = .ok trip.length
  number : ¬trip.length.isNaN

theorem Trip.Valid.positive {n : Nat} {d : Distances n} {trip : Trip} (valid : trip.Valid d) :
    0.0 < trip.length := by
  obtain ⟨length, measured, positive⟩ := d.tourLength_pos valid.visits
  rw [valid.measured] at measured
  cases measured
  exact positive

/-- What has happened in a run: the trips of each completed iteration, whether the run was
cancelled then, and what has become of the colony. -/
structure Journal (n : Nat) where
  batches : List (List Trip)
  cancelled : Bool
  colony : Colony n

namespace Journal

variable {n : Nat}

/-- What is known after a journal if `r` was known before it. -/
def extend (r : Result) (j : Journal n) : Result :=
  { j.batches.foldl Result.record r with cancelled := j.cancelled }

/-- The result of the run that the journal tells of. -/
def result (j : Journal n) : Result := j.extend .empty

/-- A journal that colony `c` may have in a run of at most `limit` iterations. -/
structure Faithful (c : Colony n) (limit : Nat) (j : Journal n) : Prop where
  ants : ∀ trips ∈ j.batches, trips.length = c.config.ants.toNat
  valid : ∀ trips ∈ j.batches, ∀ trip ∈ trips, trip.Valid c.distances
  within : j.batches.length ≤ limit
  complete : j.cancelled = false → j.batches.length = limit
  colony : j.colony = { c with trails := j.colony.trails }

end Journal

variable {n : Nat} {σ : Type} [WordSource σ]

/-- Goes on with a run as `proceed` does, and writes down what happens. -/
def follow (stop : Nat → σ → Bool) : Nat → Nat → Colony n → Draw σ (Journal n)
  | 0, _, c => return ⟨[], false, c⟩
  | limit + 1, done, c => do
    let source ← get
    if stop done source then
      return ⟨[], true, c⟩
    else
      let (trips, c) ← c.iterate
      let rest ← follow stop limit (done + 1) c
      return { rest with batches := trips :: rest.batches }

/-- Runs the colony and writes down what happens. -/
def journal (c : Colony n) (stop : Nat → σ → Bool) : Draw σ (Journal n) := do
  c.config.reserve
  follow stop c.config.iterations.toNat 0 c

/-! ## Reading the result off the journal -/

namespace Result

theorem note_frame (r : Result) (trip : Trip) :
    (r.note trip).iterations = r.iterations ∧ (r.note trip).cancelled = r.cancelled ∧
      (r.note trip).lengthHistory = r.lengthHistory := by
  unfold note
  split
  · exact ⟨rfl, rfl, rfl⟩
  · exact ⟨rfl, rfl, rfl⟩

/-- Taking notes changes nothing but the best tour and what is known about it. -/
theorem foldl_note_frame (r : Result) (trips : List Trip) :
    (trips.foldl note r).iterations = r.iterations ∧
      (trips.foldl note r).cancelled = r.cancelled ∧
      (trips.foldl note r).lengthHistory = r.lengthHistory := by
  induction trips generalizing r with
  | nil => exact ⟨rfl, rfl, rfl⟩
  | cons trip trips ih =>
      obtain ⟨iterations, cancelled, history⟩ := ih (r.note trip)
      obtain ⟨iterations', cancelled', history'⟩ := r.note_frame trip
      exact ⟨iterations.trans iterations', cancelled.trans cancelled', history.trans history'⟩

/-- The best tour and its length are those of a trip that was noted. -/
theorem foldl_note_best {P : Trip → Prop} {r : Result} {trips : List Trip}
    (known : ∀ tour, r.bestTour = some tour → P ⟨tour, r.bestLength⟩)
    (noted : ∀ trip ∈ trips, P trip) (tour : Tour)
    (best : (trips.foldl note r).bestTour = some tour) :
    P ⟨tour, (trips.foldl note r).bestLength⟩ := by
  induction trips generalizing r with
  | nil => exact known tour best
  | cons trip trips ih =>
      obtain ⟨first, others⟩ := List.forall_mem_cons.mp noted
      refine ih (fun tour best => ?_) others best
      unfold note at best ⊢
      by_cases shorter : trip.length < r.bestLength
      · rw [if_pos shorter] at best ⊢
        cases best
        exact first
      · rw [if_neg shorter] at best ⊢
        exact known tour best

theorem foldl_record_best {P : Trip → Prop} {r : Result} {batches : List (List Trip)}
    (known : ∀ tour, r.bestTour = some tour → P ⟨tour, r.bestLength⟩)
    (noted : ∀ trips ∈ batches, ∀ trip ∈ trips, P trip) (tour : Tour)
    (best : (batches.foldl record r).bestTour = some tour) :
    P ⟨tour, (batches.foldl record r).bestLength⟩ := by
  induction batches generalizing r with
  | nil => exact known tour best
  | cons trips batches ih =>
      obtain ⟨first, others⟩ := List.forall_mem_cons.mp noted
      exact ih (foldl_note_best known first) others best

@[simp] theorem iterations_record (r : Result) (trips : List Trip) :
    (r.record trips).iterations = r.iterations + 1 :=
  congrArg (· + 1) (r.foldl_note_frame trips).1

@[simp] theorem cancelled_record (r : Result) (trips : List Trip) :
    (r.record trips).cancelled = r.cancelled :=
  (r.foldl_note_frame trips).2.1

theorem iterations_foldl_record (r : Result) (batches : List (List Trip)) :
    (batches.foldl record r).iterations = r.iterations + batches.length := by
  induction batches generalizing r with
  | nil => rfl
  | cons trips batches ih =>
      rw [List.foldl_cons, ih, iterations_record, List.length_cons]
      omega

end Result

theorem Journal.iterations_result (j : Journal n) : j.result.iterations = j.batches.length :=
  (Result.iterations_foldl_record .empty j.batches).trans (Nat.zero_add _)

/-- A run knows in the end what its journal tells. -/
theorem proceed_eq_follow (stop : Nat → σ → Bool) (limit : Nat) (c : Colony n) {r : Result}
    (going : r.cancelled = false) :
    proceed stop limit c r =
      (fun j => (j.extend r, j.colony)) <$> follow stop limit r.iterations c := by
  induction limit generalizing c r with
  | zero =>
      have same : (⟨[], false, c⟩ : Journal n).extend r = r := by
        cases r
        cases going
        rfl
      rw [proceed, follow, map_pure, same]
  | succ limit ih =>
      rw [proceed, follow, map_bind]
      refine bind_congr fun source => ?_
      by_cases raised : stop r.iterations source = true
      · rw [if_pos raised, if_pos raised, map_pure]
        rfl
      · rw [if_neg raised, if_neg raised, map_bind]
        refine bind_congr fun ⟨trips, c⟩ => ?_
        show proceed stop limit c (r.record trips) = _
        rw [map_bind, ih c (by rw [Result.cancelled_record, going]), Result.iterations_record,
          map_eq_pure_bind]
        refine bind_congr fun rest => ?_
        rw [map_pure]
        rfl

/-- The result of a run is read off its journal. -/
theorem run_eq_journal (c : Colony n) (stop : Nat → σ → Bool) :
    c.run stop = (fun j => (j.result, j.colony)) <$> c.journal stop := by
  rw [run, journal, map_bind, proceed_eq_follow stop _ c rfl]
  rfl

/-! ## What a run does -/

theorem trip_yields (c : Colony n) :
    Draw.Yields (c.trip : Draw σ Trip) fun trip =>
      trip.Valid c.distances ∧ Toured σ c trip.tour := by
  unfold trip
  refine c.tour_yields.bind fun tour toured => ?_
  obtain ⟨length, measured, nonneg⟩ :=
    c.distances.tourLength_ok (Tour.lt_of_visits toured.perm)
  have found : ∃ l, c.distances.tourLength tour = .ok l ∧ l = length := ⟨length, measured, rfl⟩
  refine (Draw.Yields.lift found).bind fun l same => .pure ?_
  subst same
  exact ⟨⟨toured.perm, measured, (Binary64.le_iff.mp nonneg).2.1⟩, toured⟩

theorem trips_yields (c : Colony n) (ants : Nat) :
    Draw.Yields (c.trips ants : Draw σ (List Trip)) fun trips =>
      trips.length = ants ∧ ∀ trip ∈ trips, trip.Valid c.distances ∧ Toured σ c trip.tour := by
  induction ants with
  | zero => exact .pure ⟨rfl, nofun⟩
  | succ ants ih =>
      unfold trips
      refine c.trip_yields.bind fun trip first => ih.bind fun rest others => .pure ?_
      exact ⟨congrArg (· + 1) others.1, List.forall_mem_cons.mpr ⟨first, others.2⟩⟩

/-- Ants that weigh their moves alike and measure their tours alike make the same trips. -/
theorem trip_congr {c c' : Colony n} (weighed : WeighAlike c c')
    (measured : ∀ {tour : Tour}, tour.Perm (List.range n) →
      c.distances.tourLength tour = c'.distances.tourLength tour) :
    (c.trip : Draw σ Trip) = c'.trip := by
  rw [trip, trip, ← tour_congr weighed]
  refine c.tour_yields.bind_congr fun tour toured => ?_
  rw [measured toured.perm]

theorem trips_congr {c c' : Colony n} (same : (c.trip : Draw σ Trip) = c'.trip) (ants : Nat) :
    (c.trips ants : Draw σ (List Trip)) = c'.trips ants := by
  induction ants with
  | zero => rfl
  | succ ants ih => rw [trips, trips, same, ih]

variable (σ) in
/-- An iteration in which the ants make some trips and the trails become those given. -/
structure Iterated (c : Colony n) (trips : List Trip) (trails : Trails n) : Prop where
  ants : trips.length = c.config.ants.toNat
  valid : ∀ trip ∈ trips, trip.Valid c.distances
  toured : ∀ trip ∈ trips, Toured σ c trip.tour
  reinforced : c.trails.reinforce c.config.evaporation c.config.q
    (trips.map fun trip => (trip.tour, trip.length)) = .ok trails

/-- An iteration sends out all ants, and changes nothing but the trails. -/
theorem iterate_yields (c : Colony n) :
    Draw.Yields (c.iterate : Draw σ (List Trip × Colony n)) fun outcome =>
      ∃ trails, Iterated σ c outcome.1 trails ∧ outcome.2 = { c with trails } := by
  unfold iterate
  refine (c.trips_yields c.config.ants.toNat).bind fun trips ⟨count, made⟩ => ?_
  have known : ∀ tour ∈ trips.map fun trip => (trip.tour, trip.length),
      ∀ city ∈ tour.1, city < n := by
    intro tour member
    obtain ⟨trip, sent, rfl⟩ := List.mem_map.mp member
    exact Tour.lt_of_visits (made trip sent).1.visits
  obtain ⟨trails, reinforced⟩ := c.trails.reinforce_ok c.config.evaporation c.config.q known
  have deposited := Draw.Yields.lift (σ := σ) (P := fun trails => c.trails.reinforce
    c.config.evaporation c.config.q (trips.map fun trip => (trip.tour, trip.length)) = .ok trails)
    ⟨trails, reinforced, reinforced⟩
  refine deposited.bind fun trails reinforced => .pure ⟨trails, ?_, rfl⟩
  exact ⟨count, fun trip sent => (made trip sent).1, fun trip sent => (made trip sent).2, reinforced⟩

/-- However a run is stopped, its journal is faithful. -/
theorem follow_yields (stop : Nat → σ → Bool) (limit done : Nat) (c : Colony n) :
    Draw.Yields (follow stop limit done c) (Journal.Faithful c limit) := by
  induction limit generalizing done c with
  | zero => exact .pure ⟨nofun, nofun, Nat.le_refl 0, fun _ => rfl, rfl⟩
  | succ limit ih =>
      unfold follow
      refine .get_bind fun source => ?_
      by_cases raised : stop done source = true
      · rw [if_pos raised]
        exact .pure ⟨nofun, nofun, Nat.zero_le _, nofun, rfl⟩
      · rw [if_neg raised]
        refine c.iterate_yields.bind fun ⟨trips, _⟩ ⟨trails, iterated, changed⟩ => ?_
        subst changed
        -- the ants and the distances of the colony are still the same
        refine (ih (done + 1) { c with trails }).bind fun rest later => .pure ?_
        exact {
          ants := List.forall_mem_cons.mpr ⟨iterated.ants, later.ants⟩
          valid := List.forall_mem_cons.mpr ⟨iterated.valid, later.valid⟩
          within := Nat.succ_le_succ later.within
          complete := fun going => congrArg (· + 1) (later.complete going)
          colony := later.colony }

theorem Config.reserve_eq_error {c : Config} (unfit : ¬c.Fits) :
    ∃ count bytes, c.reserve = .error (.noRoom count bytes) := by
  unfold Config.reserve
  by_cases lengths : Room.Holds c.iterations.toNat Room.doubleBytes
  · have tours : ¬Room.Holds c.ants.toNat Room.listBytes := fun tours => unfit ⟨lengths, tours⟩
    rw [Room.reserve_of_holds lengths, Room.reserve_of_not_holds tours]
    exact ⟨_, _, rfl⟩
  · rw [Room.reserve_of_not_holds lengths]
    exact ⟨_, _, rfl⟩

theorem run_refused {c : Colony n} (unfit : ¬c.config.Fits) (stop : Nat → σ → Bool) (s : σ) :
    ∃ count bytes, c.run stop s = .error (.noRoom count bytes) := by
  obtain ⟨count, bytes, refused⟩ := Config.reserve_eq_error unfit
  refine ⟨count, bytes, ?_⟩
  rw [run, refused]
  rfl

/-- A run finds no room for what it keeps, or it ends with the result that a faithful journal sums
up to. -/
theorem run_cases (c : Colony n) (stop : Nat → σ → Bool) (s : σ) :
    (¬c.config.Fits ∧ ∃ count bytes, c.run stop s = .error (.noRoom count bytes)) ∨
      c.config.Fits ∧ ∃ j t, c.journal stop s = .ok (j, t) ∧
        c.run stop s = .ok ((j.result, j.colony), t) ∧
        j.Faithful c c.config.iterations.toNat := by
  by_cases fits : c.config.Fits
  · obtain ⟨j, t, followed, faithful⟩ := follow_yields stop c.config.iterations.toNat 0 c s
    have told : c.journal stop s = .ok (j, t) := by
      rw [journal, Config.reserve_eq_ok_iff.mpr fits]
      exact followed
    refine .inr ⟨fits, j, t, told, ?_, faithful⟩
    rw [run_eq_journal]
    exact Draw.map_eq_ok _ told
  · exact .inl ⟨fits, run_refused fits stop s⟩

/-- Every tour that is built in a run, one by each ant in each iteration, visits every city once. The
best tour is one of them, and its length is the one recorded, to the last bit. -/
theorem run_builds_permutations (c : Colony n) (stop : Nat → σ → Bool) (s : σ) :
    (¬c.config.Fits ∧ ∃ count bytes, c.run stop s = .error (.noRoom count bytes)) ∨
      c.config.Fits ∧ ∃ j t, c.journal stop s = .ok (j, t) ∧
        c.run stop s = .ok ((j.result, j.colony), t) ∧
        j.batches.length = j.result.iterations ∧
        (∀ trips ∈ j.batches, trips.length = c.config.ants.toNat) ∧
        (∀ trips ∈ j.batches, ∀ trip ∈ trips, trip.tour.Perm (List.range n)) ∧
        ∀ tour, j.result.bestTour = some tour →
          (∃ trips ∈ j.batches, (⟨tour, j.result.bestLength⟩ : Trip) ∈ trips) ∧
          tour.Perm (List.range n) ∧ c.distances.tourLength tour = .ok j.result.bestLength := by
  rcases c.run_cases stop s with refused | ⟨fits, j, t, told, ran, faithful⟩
  · exact .inl refused
  · refine .inr ⟨fits, j, t, told, ran, j.iterations_result.symm, faithful.ants, ?_,
      fun tour best => ?_⟩
    · intro trips batch trip made
      exact (faithful.valid trips batch trip made).visits
    · obtain ⟨trips, batch, made⟩ : ∃ trips ∈ j.batches, ⟨tour, j.result.bestLength⟩ ∈ trips :=
        Result.foldl_record_best (r := .empty) (P := fun trip => ∃ trips ∈ j.batches, trip ∈ trips)
          nofun (fun trips batch trip made => ⟨trips, batch, made⟩) tour best
      have valid := faithful.valid trips batch _ made
      exact ⟨⟨trips, batch, made⟩, valid.visits, valid.measured⟩

end Metaheuristics.Colony

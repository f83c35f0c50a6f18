import Metaheuristics.Proofs.Binary64.Order
import Metaheuristics.Proofs.Colony.Journal

/-!
# The running minimum of a run

The result of a run is the running minimum over all tours built in it (`RunningMinimum`): after each
iteration the least length so far, and in the end the first tour that attains it and the iteration
that built it. The invariant (`Tracks`) speaks of the middle of an iteration. Noting one trip keeps it
(`Tracks.note`), completing the iteration starts the next one (`Tracks.complete`), and every run is
made of these two steps (`tracks_foldl_record`).
-/

namespace Metaheuristics.Colony

open Binary64 (infinity)

/-- The least of some lengths that are below infinity, and infinity if there is none. -/
structure Least (x : Float) (lengths : List Float) : Prop where
  attained : x ∈ lengths ∧ x < infinity ∨ x = infinity
  lower : ∀ l ∈ lengths, x ≤ l

namespace Least

variable {x y l : Float} {xs ys : List Float}

theorem nil : Least infinity [] := ⟨.inr rfl, nofun⟩

theorem number (h : Least x xs) : ¬x.isNaN := by
  rcases h.attained with ⟨-, finite⟩ | rfl
  · exact Binary64.not_isNaN_of_lt finite
  · exact Binary64.not_isNaN_infinity

/-- Among more lengths the least is no larger. -/
theorem anti (hx : Least x xs) (hy : Least y ys) (more : ∀ l ∈ xs, l ∈ ys) : y ≤ x := by
  rcases hx.attained with ⟨member, -⟩ | rfl
  · exact hy.lower x (more x member)
  · exact Binary64.le_infinity hy.number

theorem append_of_lt (h : Least x xs) (less : l < x) : Least l (xs ++ [l]) := by
  refine ⟨.inl ⟨by simp, Binary64.lt_of_lt_of_le less (Binary64.le_infinity h.number)⟩, fun k member => ?_⟩
  rcases List.mem_append.mp member with old | new
  · exact Binary64.le_of_lt (Binary64.lt_of_lt_of_le less (h.lower k old))
  · rw [List.mem_singleton.mp new]
    exact Binary64.le_refl (Binary64.not_isNaN_of_lt less)

theorem append_of_not_lt (h : Least x xs) (number : ¬l.isNaN) (more : ¬l < x) :
    Least x (xs ++ [l]) := by
  refine ⟨h.attained.imp_left (.imp_left (List.mem_append_left _)), fun k member => ?_⟩
  rcases List.mem_append.mp member with old | new
  · exact h.lower k old
  · rw [List.mem_singleton.mp new]
    exact Binary64.le_of_not_lt number h.number more

end Least

/-! ## The trips in the order of construction -/

/-- All trips in the order of construction, each with the iteration that made it. -/
def built (batches : List (List Trip)) : List (Nat × Trip) :=
  batches.zipIdx.flatMap fun (trips, i) => trips.map (i, ·)

theorem built_concat (batches : List (List Trip)) (trips : List Trip) :
    built (batches ++ [trips]) = built batches ++ trips.map (batches.length, ·) := by
  simp [built, List.zipIdx_append]

theorem map_snd_built (batches : List (List Trip)) :
    (built batches).map Prod.snd = batches.flatten := by
  simp [built, List.flatMap_def, Function.comp_def]

theorem lt_of_mem_built {batches : List (List Trip)} {i : Nat} {trip : Trip}
    (h : (i, trip) ∈ built batches) : i < batches.length := by
  obtain ⟨⟨trips, k⟩, batch, member⟩ := List.mem_flatMap.mp h
  obtain ⟨_, _, same⟩ := List.mem_map.mp member
  cases same
  exact (List.mem_zipIdx' batch).1

/-! ## The invariant -/

/-- What holds of a result after some completed iterations and some trips of the next one. -/
structure Tracks (r : Result) (batches : List (List Trip)) (trips : List Trip) : Prop where
  iterations : r.iterations = batches.length
  size : r.lengthHistory.size = batches.length
  entry : ∀ i (h : i < r.lengthHistory.size),
    Least r.lengthHistory[i] ((batches.take (i + 1)).flatten.map Trip.length)
  best : Least r.bestLength ((batches.flatten ++ trips).map Trip.length)
  found : r.bestTour.isSome ↔ r.bestLength < infinity
  first : ∀ tour, r.bestTour = some tour → ∃ before after,
    built batches ++ trips.map (batches.length, ·) =
      before ++ (r.bestIteration, ⟨tour, r.bestLength⟩) :: after ∧
    ∀ earlier ∈ before, r.bestLength < earlier.2.length
  ahead : ∀ tour, r.bestTour = some tour → ∀ i (h : i < r.lengthHistory.size),
    i < r.bestIteration → r.bestLength < r.lengthHistory[i]

namespace Tracks

variable {r : Result} {batches : List (List Trip)} {trips : List Trip}

theorem empty : Tracks .empty [] [] where
  iterations := rfl
  size := rfl
  entry := nofun
  best := .nil
  found := iff_of_false nofun (Binary64.lt_irrefl infinity)
  first := nofun
  ahead := nofun

/-- No length in the history is below the best one. -/
theorem le_entry (h : Tracks r batches trips) (i : Nat) (hi : i < r.lengthHistory.size) :
    r.bestLength ≤ r.lengthHistory[i] := by
  refine (h.entry i hi).anti h.best fun l member => ?_
  obtain ⟨trip, made, rfl⟩ := List.mem_map.mp member
  obtain ⟨batch, taken, inside⟩ := List.mem_flatten.mp made
  have earlier : trip ∈ batches.flatten :=
    List.mem_flatten_of_mem (List.mem_of_mem_take taken) inside
  exact List.mem_map_of_mem (List.mem_append_left trips earlier)

/-- No trip so far is shorter than the best one. -/
theorem le_built (h : Tracks r batches trips) {made : Nat × Trip}
    (member : made ∈ built batches ++ trips.map (batches.length, ·)) :
    r.bestLength ≤ made.2.length := by
  have trip := List.mem_map_of_mem (f := Prod.snd) member
  rw [List.map_append, map_snd_built, List.map_map] at trip
  exact h.best.lower _ (List.mem_map_of_mem (by simpa [Function.comp_def] using trip))

/-- The best trip was made in the iteration at work or before. -/
theorem bestIteration_le (h : Tracks r batches trips) {tour : Tour}
    (best : r.bestTour = some tour) : r.bestIteration ≤ batches.length := by
  obtain ⟨before, after, order, -⟩ := h.first tour best
  have member : (r.bestIteration, ⟨tour, r.bestLength⟩) ∈
      built batches ++ trips.map (batches.length, ·) := by
    rw [order]
    simp
  rcases List.mem_append.mp member with completed | current
  · exact Nat.le_of_lt (lt_of_mem_built completed)
  · obtain ⟨_, _, same⟩ := List.mem_map.mp current
    have label : batches.length = r.bestIteration := congrArg Prod.fst same
    omega

/-- Noting one more trip of the iteration at work. -/
theorem note (h : Tracks r batches trips) {trip : Trip} (number : ¬trip.length.isNaN) :
    Tracks (r.note trip) batches (trips ++ [trip]) := by
  have lengths : (batches.flatten ++ (trips ++ [trip])).map Trip.length =
      (batches.flatten ++ trips).map Trip.length ++ [trip.length] := by simp
  have order : built batches ++ (trips ++ [trip]).map (batches.length, ·) =
      built batches ++ trips.map (batches.length, ·) ++ [(batches.length, trip)] := by simp
  unfold Result.note
  by_cases shorter : trip.length < r.bestLength
  · rw [if_pos shorter]
    exact {
      iterations := h.iterations
      size := h.size
      entry := h.entry
      best := by
        rw [lengths]
        exact h.best.append_of_lt shorter
      found := iff_of_true rfl (Binary64.lt_of_lt_of_le shorter (Binary64.le_infinity h.best.number))
      first := by
        rintro tour ⟨⟩
        refine ⟨built batches ++ trips.map (batches.length, ·), [], ?_, fun earlier made => ?_⟩
        · rw [order, ← h.iterations]
        · exact Binary64.lt_of_lt_of_le shorter (h.le_built made)
      ahead := fun _ _ i hi _ => Binary64.lt_of_lt_of_le shorter (h.le_entry i hi) }
  · rw [if_neg shorter]
    exact {
      iterations := h.iterations
      size := h.size
      entry := h.entry
      best := by
        rw [lengths]
        exact h.best.append_of_not_lt number shorter
      found := h.found
      first := by
        intro tour best
        obtain ⟨before, after, parts, strict⟩ := h.first tour best
        refine ⟨before, after ++ [(batches.length, trip)], ?_, strict⟩
        rw [order, parts]
        simp
      ahead := h.ahead }

theorem foldl_note (h : Tracks r batches trips) {more : List Trip}
    (numbers : ∀ trip ∈ more, ¬trip.length.isNaN) :
    Tracks (more.foldl Result.note r) batches (trips ++ more) := by
  induction more generalizing r trips with
  | nil =>
      rw [List.append_nil]
      exact h
  | cons trip more ih =>
      obtain ⟨first, others⟩ := List.forall_mem_cons.mp numbers
      have rest := ih (h.note first) others
      rw [List.append_assoc] at rest
      exact rest

/-- Completing the iteration at work. -/
theorem complete (h : Tracks r batches trips) :
    Tracks { r with
      iterations := r.iterations + 1
      lengthHistory := r.lengthHistory.push r.bestLength } (batches ++ [trips]) [] where
  iterations := by simp [h.iterations]
  size := by simp [h.size]
  entry := by
    intro i hi
    have size := h.size
    simp only [Array.size_push] at hi
    rw [Array.getElem_push]
    split
    · -- an old entry has seen nothing of the iteration that is completed now
      rename_i old
      rw [List.take_append_of_le_length (by omega)]
      exact h.entry i old
    · -- the new entry is the best length among all trips so far
      rw [List.take_of_length_le (by simp; omega)]
      simpa using h.best
  best := by simpa using h.best
  found := h.found
  first := by
    intro tour best
    obtain ⟨before, after, parts, strict⟩ := h.first tour best
    refine ⟨before, after, ?_, strict⟩
    rw [built_concat, List.map_nil, List.append_nil, parts]
  ahead := by
    intro tour best i hi earlier
    have within := h.bestIteration_le best
    have old : i < r.lengthHistory.size := by
      rw [h.size]
      exact Nat.lt_of_lt_of_le earlier within
    rw [Array.getElem_push_lt old]
    exact h.ahead tour best i old earlier

theorem record (h : Tracks r batches []) (numbers : ∀ trip ∈ trips, ¬trip.length.isNaN) :
    Tracks (r.record trips) (batches ++ [trips]) [] :=
  (h.foldl_note numbers).complete

end Tracks

/-- After every iteration of a run, the result tracks the trips so far. -/
theorem tracks_foldl_record {r : Result} {batches more : List (List Trip)}
    (h : Tracks r batches []) (numbers : ∀ trips ∈ more, ∀ trip ∈ trips, ¬trip.length.isNaN) :
    Tracks (more.foldl Result.record r) (batches ++ more) [] := by
  induction more generalizing r batches with
  | nil =>
      rw [List.append_nil]
      exact h
  | cons trips more ih =>
      obtain ⟨first, others⟩ := List.forall_mem_cons.mp numbers
      have rest := ih (h.record first) others
      rw [List.append_assoc] at rest
      exact rest

/-- The best length is the last one in the history. -/
theorem foldl_record_last {r : Result} {batches : List (List Trip)}
    (h : r.bestLength = r.lengthHistory.back?.getD infinity) :
    (batches.foldl Result.record r).bestLength =
      (batches.foldl Result.record r).lengthHistory.back?.getD infinity := by
  induction batches generalizing r with
  | nil => exact h
  | cons trips batches ih =>
      refine ih ?_
      simp [Result.record]

/-! ## The result of a run -/

/-- The result is the running minimum over the trips of some iterations. -/
structure RunningMinimum (r : Result) (batches : List (List Trip)) : Prop where
  /-- The history has one entry for each iteration. -/
  iterations : r.iterations = batches.length
  size : r.lengthHistory.size = r.iterations
  /-- An entry is the least length of all tours up to its iteration. -/
  entry : ∀ i (h : i < r.lengthHistory.size),
    Least r.lengthHistory[i] ((batches.take (i + 1)).flatten.map Trip.length)
  antitone : ∀ i j (h : j < r.lengthHistory.size) (le : i ≤ j),
    r.lengthHistory[j] ≤ r.lengthHistory[i]
  last : r.bestLength = r.lengthHistory.back?.getD infinity
  lower : ∀ trips ∈ batches, ∀ trip ∈ trips, r.bestLength ≤ trip.length
  /-- There is a best tour when some tour is shorter than infinity. -/
  found : r.bestTour.isSome ↔ r.bestLength < infinity
  /-- The best tour is the first of its length, and the iteration is the one that built it. -/
  first : ∀ tour, r.bestTour = some tour → r.bestIteration < r.iterations ∧ ∃ before after,
    built batches = before ++ (r.bestIteration, ⟨tour, r.bestLength⟩) :: after ∧
    ∀ earlier ∈ before, r.bestLength < earlier.2.length
  /-- Before that iteration, the least length so far is larger. -/
  ahead : ∀ tour, r.bestTour = some tour → ∀ i (h : i < r.lengthHistory.size),
    i < r.bestIteration → r.bestLength < r.lengthHistory[i]

theorem Tracks.runningMinimum {r : Result} {batches : List (List Trip)} (h : Tracks r batches [])
    (last : r.bestLength = r.lengthHistory.back?.getD infinity) : RunningMinimum r batches where
  iterations := h.iterations
  size := h.size.trans h.iterations.symm
  entry := h.entry
  antitone := by
    intro i j hj le
    refine (h.entry i (Nat.lt_of_le_of_lt le hj)).anti (h.entry j hj) fun l member => ?_
    obtain ⟨trip, made, rfl⟩ := List.mem_map.mp member
    obtain ⟨trips, taken, inside⟩ := List.mem_flatten.mp made
    have later : trips ∈ batches.take (j + 1) :=
      List.take_subset_take_left batches (Nat.succ_le_succ le) taken
    exact List.mem_map_of_mem (List.mem_flatten_of_mem later inside)
  last := last
  lower := by
    intro trips batch trip made
    refine h.best.lower _ (List.mem_map_of_mem (List.mem_append_left [] ?_))
    exact List.mem_flatten_of_mem batch made
  found := h.found
  first := by
    intro tour best
    obtain ⟨before, after, parts, strict⟩ := h.first tour best
    rw [List.map_nil, List.append_nil] at parts
    have member : (r.bestIteration, ⟨tour, r.bestLength⟩) ∈ built batches := by
      rw [parts]
      simp
    refine ⟨?_, before, after, parts, strict⟩
    rw [h.iterations]
    exact lt_of_mem_built member
  ahead := h.ahead

variable {n : Nat} {σ : Type} [WordSource σ]

theorem Journal.Faithful.runningMinimum {c : Colony n} {limit : Nat} {j : Journal n}
    (faithful : j.Faithful c limit) : RunningMinimum j.result j.batches := by
  have numbers : ∀ trips ∈ j.batches, ∀ trip ∈ trips, ¬trip.length.isNaN :=
    fun trips batch trip made => (faithful.valid trips batch trip made).number
  have noted := (tracks_foldl_record .empty numbers).runningMinimum (foldl_record_last rfl)
  -- whether the run was cancelled makes no difference to the minimum
  exact {
    iterations := noted.iterations
    size := noted.size
    entry := noted.entry
    antitone := noted.antitone
    last := noted.last
    lower := noted.lower
    found := noted.found
    first := noted.first
    ahead := noted.ahead }

/-- However a run is stopped, its result is the running minimum over all tours built in it, one by each
ant in each iteration. -/
theorem run_finds_minimum (c : Colony n) (stop : Nat → σ → Bool) (s : σ) :
    (¬c.config.Fits ∧ ∃ count bytes, c.run stop s = .error (.noRoom count bytes)) ∨
      c.config.Fits ∧ ∃ j t, c.journal stop s = .ok (j, t) ∧
        c.run stop s = .ok ((j.result, j.colony), t) ∧
        (∀ trips ∈ j.batches, trips.length = c.config.ants.toNat) ∧
        (∀ trips ∈ j.batches, ∀ trip ∈ trips,
          c.distances.tourLength trip.tour = .ok trip.length) ∧
        RunningMinimum j.result j.batches := by
  rcases c.run_cases stop s with refused | ⟨fits, j, t, told, ran, faithful⟩
  · exact .inl refused
  · refine .inr ⟨fits, j, t, told, ran, faithful.ants, ?_, faithful.runningMinimum⟩
    intro trips batch trip made
    exact (faithful.valid trips batch trip made).measured

end Metaheuristics.Colony

import Metaheuristics.Proofs.Colony.Overflow
import Metaheuristics.Proofs.Lengths

/-!
# Cities that are all equally far apart

If going from any city to any other one costs the same, all tours through all cities have one length, to
the last bit: the cost added up once for each city (`Distances.Equidistant.tourLength`). Every trip of an
ant ties with the first one then, and a later trip has to be shorter to be noted. So a run is settled by
its very first trip (`RunningMinimum.settledAtOnce`), whatever its ants do after that.
-/

namespace Metaheuristics

open Binary64

namespace Distances

variable {n : Nat} {d : Distances n} {cost : Float}

/-- Going from one city to another costs the same everywhere. -/
def Equidistant (d : Distances n) (cost : Float) : Prop :=
  ∀ i j, i < n → j < n → i ≠ j → d.read i j = .ok cost

/-- There are two cities, so the cost is that of an edge. -/
theorem Equidistant.positive (even : d.Equidistant cost) : 0.0 < cost := by
  have two_le := d.two_le
  obtain ⟨x, found, -, -, same | positive⟩ := d.read_ok (i := 0) (j := 1) (by omega) (by omega)
  · exact absurd same (by decide)
  · rw [even 0 1 (by omega) (by omega) (by decide)] at found
    cases found
    exact positive

/-- Every tour through all cities has as many edges as there are cities, of one cost. -/
theorem Equidistant.tourLength (even : d.Equidistant cost) {tour : Tour}
    (visits : tour.Perm (List.range n)) : d.tourLength tour = .ok (addedUp cost n) := by
  have two_le := d.two_le
  obtain ⟨times, rfl⟩ : ∃ times, n = times + 1 := ⟨n - 1, by omega⟩
  have cities := Tour.length_of_visits visits
  have found : ∀ edge ∈ tour.edges, d.read edge.1 edge.2 = .ok cost := by
    intro edge member
    obtain ⟨here, there, apart⟩ := Tour.apart_of_visits two_le visits edge member
    exact even _ _ here there apart
  rw [d.tourLength_eq_foldl (List.ne_nil_of_length_eq_add_one cities) found, List.map_const',
    tour.length_edges, cities, foldl_replicate even.positive]

end Distances

namespace Colony

/-- The first trip of a run is the best one for ever. -/
structure SettledAtOnce (r : Result) (batches : List (List Trip)) (length : Float) : Prop where
  first : ∃ trip trips later, batches = (trip :: trips) :: later ∧ r.bestTour = some trip.tour
  bestLength : r.bestLength = length
  bestIteration : r.bestIteration = 0
  history : r.lengthHistory = Array.replicate r.iterations length

theorem Least.eq_of_forall {x length : Float} {lengths : List Float} (h : Least x lengths)
    (same : ∀ l ∈ lengths, l = length) (some_length : length ∈ lengths)
    (below : length < infinity) : x = length := by
  rcases h.attained with ⟨member, -⟩ | rfl
  · exact same x member
  · exact absurd (lt_of_lt_of_le below (h.lower length some_length)) (lt_irrefl length)

theorem length_of_mem_built {batches : List (List Trip)} {length : Float}
    (same : ∀ made ∈ batches.flatten, made.length = length) {made : Nat × Trip}
    (member : made ∈ built batches) : made.2.length = length := by
  refine same _ ?_
  rw [← map_snd_built]
  exact List.mem_map_of_mem member

theorem exists_built_eq (trip : Trip) (trips : List Trip) (later : List (List Trip)) :
    ∃ others, built ((trip :: trips) :: later) = (0, trip) :: others := ⟨_, rfl⟩

namespace RunningMinimum

variable {r : Result} {trip : Trip} {trips : List Trip} {later : List (List Trip)} {length : Float}

/-- If all trips are of one length, the least length so far is this one after every iteration. -/
theorem lengthHistory_eq (h : RunningMinimum r ((trip :: trips) :: later))
    (same : ∀ made ∈ ((trip :: trips) :: later).flatten, made.length = length)
    (below : length < infinity) : r.lengthHistory = Array.replicate r.iterations length := by
  refine Array.eq_replicate_iff.mpr ⟨h.size, fun entry member => ?_⟩
  obtain ⟨i, inside, rfl⟩ := Array.getElem_of_mem member
  refine (h.entry i inside).eq_of_forall (fun l listed => ?_) ?_ below
  · obtain ⟨made, taken, rfl⟩ := List.mem_map.mp listed
    obtain ⟨batch, among, sent⟩ := List.mem_flatten.mp taken
    exact same made (List.mem_flatten_of_mem (List.mem_of_mem_take among) sent)
  · rw [← same trip (by simp)]
    exact List.mem_map_of_mem (by simp)

/-- If all trips are of one length, no later one is shorter than the first. -/
theorem settledAtOnce (h : RunningMinimum r ((trip :: trips) :: later))
    (same : ∀ made ∈ ((trip :: trips) :: later).flatten, made.length = length)
    (below : length < infinity) : SettledAtOnce r ((trip :: trips) :: later) length := by
  have short : r.bestLength < infinity := by
    refine lt_of_le_of_lt (h.lower _ List.mem_cons_self trip List.mem_cons_self) ?_
    rw [same trip (by simp)]
    exact below
  obtain ⟨tour, best⟩ := Option.isSome_iff_exists.mp (h.found.mpr short)
  obtain ⟨-, before, after, order, strict⟩ := h.first tour best
  have bestLength : r.bestLength = length := by
    have member : (r.bestIteration, ⟨tour, r.bestLength⟩) ∈ built ((trip :: trips) :: later) := by
      rw [order]
      simp
    exact length_of_mem_built same member
  -- every trip ties with the best one, so nothing was made before it
  cases before with
  | cons earlier before =>
      have longer := strict earlier List.mem_cons_self
      rw [length_of_mem_built same (by rw [order]; simp), bestLength] at longer
      exact absurd longer (lt_irrefl length)
  | nil =>
      obtain ⟨others, start⟩ := exists_built_eq trip trips later
      obtain ⟨one, -⟩ := List.cons.inj (start.symm.trans order)
      obtain ⟨iteration, made⟩ := Prod.mk.inj one
      exact {
        first := ⟨trip, trips, later, rfl, by rw [best, made]⟩
        bestLength := bestLength
        bestIteration := iteration.symm
        history := h.lengthHistory_eq same below }

end RunningMinimum

variable {n : Nat} {σ : Type} [WordSource σ]

/-- A run that nothing stops is not cancelled. -/
theorem not_cancelled_of_quiet {c : Colony n} {stop : Nat → σ → Bool} {s t : σ}
    {outcome : Result × Colony n} (quiet : ∀ done source, stop done source = false)
    (ran : c.run stop s = .ok (outcome, t)) : outcome.1.cancelled = false := by
  have never : stop = fun _ _ => false := funext fun done => funext (quiet done)
  obtain ⟨-, advanced⟩ := run_eq_ok_iff.mp ran
  rw [never] at advanced
  obtain ⟨q, u, advanced', -, going, -⟩ := advance_yields c.config.iterations.toNat c .empty s
  obtain ⟨rfl, -⟩ := Prod.mk.inj (Except.ok.inj (advanced.symm.trans advanced'))
  exact going

/-- Between cities that are all equally far apart, the first tour is the best one for ever, unless its
length overflows. -/
theorem equidistant_settled_at_once (c : Colony n) {cost : Float}
    (even : c.distances.Equidistant cost) :
    (∀ tour : Tour, tour.Perm (List.range n) →
      c.distances.tourLength tour = .ok (addedUp cost n)) ∧
    (cost = 1.0 → n ≤ 2 ^ 53 → (addedUp cost n).isFinite ∧ toRat (addedUp cost n) = n) ∧
    ((addedUp cost n).isFinite → ∀ (stop : Nat → σ → Bool) (s : σ),
      (¬c.config.Fits ∧ ∃ count bytes, c.run stop s = .error (.noRoom count bytes)) ∨
        c.config.Fits ∧ ∃ j t, c.journal stop s = .ok (j, t) ∧
          c.run stop s = .ok ((j.result, j.colony), t) ∧
          ((∀ done source, stop done source = false) → j.result.cancelled = false) ∧
          (j.result.cancelled = false → j.result.iterations = c.config.iterations.toNat ∧
            0 < j.result.iterations) ∧
          (0 < j.result.iterations → SettledAtOnce j.result j.batches (addedUp cost n))) := by
  refine ⟨fun tour visits => even.tourLength visits, ?_, fun finite stop s => ?_⟩
  · rintro rfl bits
    exact toRat_addedUp_one bits
  · rcases c.run_cases stop s with refused | ⟨fits, j, t, told, ran, faithful⟩
    · exact .inl refused
    · have minimum := faithful.runningMinimum
      refine .inr ⟨fits, j, t, told, ran, (not_cancelled_of_quiet · ran), fun going => ?_,
        fun completed => ?_⟩
      · rw [minimum.iterations, faithful.complete going]
        exact ⟨rfl, Nat.pos_of_ne_zero fun none => c.valid.iterations (UInt64.toNat_inj.mp none)⟩
      · have same : ∀ made ∈ j.batches.flatten, made.length = addedUp cost n := by
          intro made member
          obtain ⟨trips, batch, sent⟩ := List.mem_flatten.mp member
          have valid := faithful.valid trips batch made sent
          exact Except.ok.inj (valid.measured.symm.trans (even.tourLength valid.visits))
        rw [minimum.iterations] at completed
        obtain ⟨batch, later, order⟩ := List.exists_cons_of_length_pos completed
        have started : batch ∈ j.batches := by
          rw [order]
          exact List.mem_cons_self
        obtain ⟨_, some_trip⟩ := faithful.exists_mem_batch started
        obtain ⟨trip, trips, rfl⟩ := List.exists_cons_of_ne_nil (List.ne_nil_of_mem some_trip)
        have below := (faithful.valid _ started trip List.mem_cons_self).isFinite_iff
        rw [same trip (List.mem_flatten_of_mem started List.mem_cons_self)] at below
        rw [order] at minimum same ⊢
        exact minimum.settledAtOnce same (below.mp finite)

/-- A colony of two ants that goes twice between three cities, each at distance one from the others. -/
def triangle : Colony 3 where
  config := { iterations := 2, ants := 2 }
  distances := .ofValidRows [[0.0, 1.0, 1.0], [1.0, 0.0, 1.0], [1.0, 1.0, 0.0]]
    (Distances.defect?_eq_none_iff.mp rfl)
  trails := .uniform 3 1.0
  valid := Config.defect?_eq_none_iff.mp rfl

/-- Its tours have length three, and its first one is the best one. -/
theorem triangle_settled_at_once :
    triangle.distances.Equidistant 1.0 ∧
    (addedUp 1.0 3).isFinite ∧ toRat (addedUp 1.0 3) = 3 ∧
    triangle.distances.tourLength [2, 0, 1] = .ok 3.0 ∧
    ∃ j t, triangle.journal (fun _ _ => false) (⟨#[6, 28], 0⟩ : Script) = .ok (j, t) ∧
      triangle.run (fun _ _ => false) (⟨#[6, 28], 0⟩ : Script) = .ok ((j.result, j.colony), t) ∧
      j.result.iterations = 2 ∧ j.result.cancelled = false ∧
      SettledAtOnce j.result j.batches 3.0 := by
  have even : triangle.distances.Equidistant 1.0 := by
    intro i j hi hj apart
    interval_cases i <;> interval_cases j <;> first | exact absurd rfl apart | rfl
  have three : addedUp 1.0 3 = 3.0 := rfl
  obtain ⟨lengths, exact_length, settled⟩ := triangle.equidistant_settled_at_once (σ := Script) even
  obtain ⟨finite, value⟩ := exact_length rfl (by decide)
  have tour := lengths [2, 0, 1] (by decide)
  rcases settled finite (fun _ _ => false) ⟨#[6, 28], 0⟩ with refused |
    ⟨-, j, t, told, ran, going, complete, first⟩
  · exact absurd ⟨by decide, by decide⟩ refused.1
  · have uncancelled := going fun _ _ => rfl
    obtain ⟨count, positive⟩ := complete uncancelled
    rw [three] at tour first
    exact ⟨even, finite, value, tour, j, t, told, ran, count, uncancelled, first positive⟩

end Colony

end Metaheuristics

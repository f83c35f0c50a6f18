import Metaheuristics.Proofs.Colony.Composition
import Metaheuristics.Proofs.Colony.Lockstep
import Metaheuristics.Proofs.Colony.Strength
import Metaheuristics.Proofs.Passes

/-!
# The diagonal makes no difference

The costs of staying in a city are part of the table, and so are trails on which an ant would stay
there. No ant ever does. Collected here:

* a tour through all of at least two cities has no edge on the diagonal, so neither its length
  (`SameEdges.tourLength_congr`) nor what it deposits (`count_touched_diagonal`) has to do with it;
* nothing but evaporation happens to a trail on the diagonal (`reinforce_diagonal`,
  `Iterations.diagonal`);
* two colonies whose distances agree off the diagonal run in lockstep (`lockstep_sameEdges`), so the
  diagonal of the distances makes no difference to what they find (`runs_ignore_diagonal`).
-/

namespace Metaheuristics

variable {n : Nat}

namespace Distances

/-- Two tables agree about the costs from every city to every other one. -/
def SameEdges (d d' : Distances n) : Prop :=
  ∀ i j, i < n → j < n → i ≠ j → d.read i j = d'.read i j

theorem SameEdges.tourLength_congr {d d' : Distances n} (same : d.SameEdges d') {tour : Tour}
    (visits : tour.Perm (List.range n)) : d.tourLength tour = d'.tourLength tour := by
  unfold tourLength
  split
  · rfl
  · refine foldlM_congr (fun edge member sum => ?_) _
    obtain ⟨here, there, apart⟩ := Tour.apart_of_visits d.two_le visits edge member
    rw [same _ _ here there apart]

end Distances

namespace Trails

variable {t t' : Trails n} {rate q : Float}

/-- A tour through all of at least two cities strengthens no trail on the diagonal. -/
theorem count_touched_diagonal {tour : Tour} (two_le : 2 ≤ n) (visits : tour.Perm (List.range n))
    {i : Nat} (hi : i < n) : (touched n tour).count (i * n + i) = 0 := by
  have enough : 2 ≤ tour.length := (Tour.length_of_visits visits).symm ▸ two_le
  rw [count_touched (Tour.lt_of_visits visits) hi,
    Tour.deposits_diagonal (Tour.nodup_of_visits visits) enough]

/-- An iteration lowers a trail on the diagonal and deposits nothing on it. -/
theorem reinforce_diagonal {tours : List (Tour × Float)} (two_le : 2 ≤ n)
    (visits : ∀ tour ∈ tours, tour.1.Perm (List.range n))
    (done : t.reinforce rate q tours = .ok t') {i : Nat} (hi : i < n) (place : i * n + i < n * n) :
    t'.cells[i * n + i] = fade rate t.cells[i * n + i] :=
  reinforce_untouched done place fun tour member =>
    count_touched_diagonal two_le (visits tour member) hi

end Trails

namespace Colony

variable {σ : Type} [WordSource σ]

/-- Every iteration evaporates a trail on the diagonal once, and that is all. -/
theorem Iterations.diagonal {c c' : Colony n} {batches : List (List Trip)}
    (through : Iterations σ c batches c') {i : Nat} (hi : i < n) (place : i * n + i < n * n) :
    c'.trails.cells[i * n + i] =
      (Trails.fade c.config.evaporation)^[batches.length] c.trails.cells[i * n + i] := by
  induction through with
  | none => rfl
  | @more c _ trips _ trails iterated rest ih =>
      have visits : ∀ tour ∈ trips.map fun trip => (trip.tour, trip.length),
          tour.1.Perm (List.range n) := by
        intro tour member
        obtain ⟨trip, sent, rfl⟩ := List.mem_map.mp member
        exact (iterated.valid trip sent).visits
      have once := Trails.reinforce_diagonal c.distances.two_le visits iterated.reinforced hi place
      rw [ih, List.length_cons, Function.iterate_succ_apply, ← once]

/-! ## Two tables -/

/-- The colonies differ in nothing but the costs on the diagonal. -/
structure SameEdges (c c' : Colony n) : Prop where
  config : c.config = c'.config
  trails : c.trails = c'.trails
  power : c.power = c'.power
  distances : c.distances.SameEdges c'.distances

/-- Where an ant is, it has been, so it never weighs a cost on the diagonal. -/
theorem SameEdges.weighAlike {c c' : Colony n} (same : SameEdges c c') : WeighAlike c c' := by
  intro current left here known away
  unfold options
  refine mapM_congr fun city member => ?_
  have apart : current ≠ city := fun stays => away (stays ▸ member)
  rw [same.config, same.trails, same.power, same.distances _ _ here (known city member) apart]

theorem lockstep_sameEdges : Lockstep σ (SameEdges (n := n)) where
  ants same := by rw [same.config]
  iterations same := by rw [same.config]
  trip same := trip_congr same.weighAlike same.distances.tourLength_congr
  reinforced := by
    intro c c' trips trails trails' same iterated iterated'
    have reinforced := iterated.reinforced
    rw [same.config, same.trails, iterated'.reinforced] at reinforced
    cases reinforced
    exact { same with trails := rfl }

/-- However often new colonies are run and however the runs are stopped, it makes no difference what
stands on the diagonal of their distances. A trail on the diagonal of their trails has been lowered
once by every iteration that was completed, and nothing was deposited on it. -/
theorem runs_ignore_diagonal {d d' : Distances n} {config : Config} {c c' : Colony n}
    (created : create d config = .ok c) (created' : create d' config = .ok c')
    (same : d.SameEdges d') (stops : List (Nat → σ → Bool)) (s : σ) :
    (¬config.Fits ∧ stops ≠ [] ∧ ∃ count bytes, runs stops c s = .error (.noRoom count bytes) ∧
        runs stops c' s = .error (.noRoom count bytes)) ∨
      ∃ results a a' t, runs stops c s = .ok ((results, a), t) ∧
        runs stops c' s = .ok ((results, a'), t) ∧ results.length = stops.length ∧
        a.trails = a'.trails ∧
        ∀ i < n, a.trails.read i i = .ok ((Trails.fade config.evaporation)^[
          (results.map Result.iterations).sum] config.initialTrail) := by
  obtain ⟨rfl, rfl, trails, power⟩ := parts_of_created created
  obtain ⟨config, rfl, trails', power'⟩ := parts_of_created created'
  have related : SameEdges c c' :=
    ⟨config.symm, trails.trans trails'.symm, power.trans power'.symm, same⟩
  rcases lockstep_sameEdges.runs_alike related stops s with refused |
    ⟨js, a, a', t, ran, ran', length, sequel, still⟩
  · exact .inl refused
  · refine .inr ⟨_, a, a', t, ran, ran', by rw [List.length_map, length], still.trails, ?_⟩
    intro i hi
    have completed : (js.flatMap Journal.batches).length =
        ((js.map Journal.result).map Result.iterations).sum := by
      rw [List.length_flatMap, List.map_map]
      exact congrArg List.sum (List.map_congr_left fun j _ => j.iterations_result.symm)
    have place := SquareTable.place_lt hi hi
    rw [a.trails.read_of_lt place, sequel.iterations.diagonal hi place, completed, trails]
    exact congrArg (fun x => Except.ok (_^[_] x)) (Vector.getElem_replicate _)

/-- The distances between the same two cities, where it costs something to stay. -/
def costlyStays : Distances 2 :=
  .ofValidRows [[5.0, 1.0], [1.0, 7.0]] (Distances.defect?_eq_none_iff.mp rfl)

/-- A cancelled run and a complete one are the same with the costly stays and without them. -/
theorem twoCities_ignores_stays :
    create twoCities.distances twoCities.config = .ok twoCities ∧
    create costlyStays twoCities.config = .ok { twoCities with distances := costlyStays } ∧
    twoCities.distances.SameEdges costlyStays ∧ ∃ results a a' t,
      runs [fun done _ => done == 1, fun _ _ => false] twoCities (⟨#[6, 28], 0⟩ : Script) =
        .ok ((results, a), t) ∧
      runs [fun done _ => done == 1, fun _ _ => false] { twoCities with distances := costlyStays }
        (⟨#[6, 28], 0⟩ : Script) = .ok ((results, a'), t) ∧ a.trails = a'.trails ∧
      ∀ i < 2, a.trails.read i i =
        .ok ((Trails.fade 0.5)^[(results.map Result.iterations).sum] 1.0) := by
  have created : create twoCities.distances twoCities.config = .ok twoCities := by rfl
  have created' : create costlyStays twoCities.config =
      .ok { twoCities with distances := costlyStays } := by rfl
  have same : twoCities.distances.SameEdges costlyStays := by
    intro i j hi hj apart
    rcases (show i = 0 ∧ j = 1 ∨ i = 1 ∧ j = 0 by omega) with ⟨rfl, rfl⟩ | ⟨rfl, rfl⟩
    · rfl
    · rfl
  have fits : twoCities.config.Fits := ⟨by decide, by decide⟩
  rcases runs_ignore_diagonal created created' same
    [fun done _ => done == 1, fun _ _ => false] (⟨#[6, 28], 0⟩ : Script) with refused |
    ⟨results, a, a', t, ran, ran', -, trails, diagonal⟩
  · exact absurd fits refused.1
  · exact ⟨created, created', same, results, a, a', t, ran, ran', trails, diagonal⟩

end Colony

end Metaheuristics

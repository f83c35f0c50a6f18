import Metaheuristics.Proofs.Colony.Consecutive
import Metaheuristics.Proofs.Trails

/-!
# Trails stay strong enough

The trails of a colony are positive as long as it exists, whatever is evaporated and deposited. An
iteration takes care of that alone (`Iterated.atLeast`): the tours have positive lengths, so nothing
negative is deposited, and evaporation leaves no trail below the smallest normal double. It follows for
any number of iterations (`Iterations.atLeast`) and of runs (`runs_keep_trails_positive`).
-/

namespace Metaheuristics.Colony

open Binary64

variable {n : Nat} {σ : Type} [WordSource σ]

/-- After an iteration no trail is below the smallest normal double, whatever it was before. -/
theorem Iterated.atLeast {c : Colony n} {trips : List Trip} {trails : Trails n}
    (iterated : Iterated σ c trips trails) : trails.AtLeast minNormal := by
  obtain ⟨finite, positive⟩ := c.valid.q
  refine Trails.atLeast_of_reinforce finite (le_of_lt positive) ?_ iterated.reinforced
  intro tour member
  obtain ⟨trip, sent, rfl⟩ := List.mem_map.mp member
  exact (iterated.valid trip sent).positive

/-- Iterations leave a colony as it is, if there are none, or with trails that are strong enough. -/
theorem Iterations.atLeast {c c' : Colony n} {batches : List (List Trip)}
    (through : Iterations σ c batches c') :
    (batches = [] ∧ c' = c) ∨ c'.trails.AtLeast minNormal := by
  induction through with
  | none => exact .inl ⟨rfl, rfl⟩
  | more iterated rest ih =>
      rcases ih with ⟨-, rfl⟩ | strong
      · exact .inr iterated.atLeast
      · exact .inr strong

/-- A new colony has the parameters and the distances that it was created with, and equally strong
trails everywhere. -/
theorem parts_of_created {d : Distances n} {config : Config} {c : Colony n}
    (created : create d config = .ok c) :
    c.config = config ∧ c.distances = d ∧ c.trails = .uniform n config.initialTrail ∧
      c.power = Float.pow := by
  cases found : config.defect? with
  | none =>
      rw [create_of_valid d (Config.defect?_eq_none_iff.mp found)] at created
      cases created
      exact ⟨rfl, rfl, rfl, rfl⟩
  | some defect =>
      rw [create_of_defect d found] at created
      cases created

theorem trails_of_created {d : Distances n} {config : Config} {c : Colony n}
    (created : create d config = .ok c) : c.trails = .uniform n c.config.initialTrail := by
  obtain ⟨rfl, -, trails, -⟩ := parts_of_created created
  exact trails

/-- However often a new colony is run and however the runs are stopped, its trails are positive numbers,
and none is below the smallest normal double once an iteration is complete. -/
theorem runs_keep_trails_positive {d : Distances n} {config : Config} {c : Colony n}
    (created : create d config = .ok c) (stops : List (Nat → σ → Bool)) (s : σ) :
    (¬c.config.Fits ∧ stops ≠ [] ∧ ∃ count bytes, runs stops c s = .error (.noRoom count bytes)) ∨
      ∃ results c' t, runs stops c s = .ok ((results, c'), t) ∧
        results.length = stops.length ∧
        (∀ x ∈ c'.trails.toList, 0.0 < x ∧ ¬x.isNaN) ∧ 0.0 < c'.trails.weakest ∧
        ((∃ r ∈ results, 0 < r.iterations) →
          (∀ x ∈ c'.trails.toList, minNormal ≤ x) ∧ minNormal ≤ c'.trails.weakest) := by
  rcases c.runs_cases stops s with refused | ⟨js, c', t, -, ran, count, sequel⟩
  · exact .inl refused
  · refine .inr ⟨js.map Journal.result, c', t, ran, by rw [List.length_map, count], ?_⟩
    -- a positive level bounds the trails from below, the initial one or the smallest normal double
    rcases sequel.iterations.atLeast with ⟨none, same⟩ | bounded
    · obtain ⟨finite, positive⟩ := c.valid.initialTrail
      have initial : c'.trails.AtLeast c.config.initialTrail := by
        rw [same, trails_of_created created]
        exact Trails.uniform_atLeast (not_isNaN_of_isFinite finite)
      obtain ⟨each, least⟩ := initial.positive positive
      refine ⟨each, least, ?_⟩
      rintro ⟨r, member, completed⟩
      obtain ⟨j, told, rfl⟩ := List.mem_map.mp member
      rw [j.iterations_result, List.flatMap_eq_nil_iff.mp none j told] at completed
      exact absurd completed (Nat.lt_irrefl 0)
    · obtain ⟨each, least⟩ := bounded.positive (by decide)
      exact ⟨each, least, fun _ => ⟨bounded, bounded.le_weakest (by decide)⟩⟩

/-- A colony whose trails begin at the smallest positive double. It keeps almost nothing of them and
deposits almost nothing. -/
def faint : Colony 2 where
  config := {
    ants := 1
    iterations := 1
    evaporation := Float.ofBits 0x3fefffffffffffff
    q := Float.ofBits 1
    initialTrail := Float.ofBits 1 }
  distances := .ofValidRows [[0.0, 3.0], [5.0, 0.0]] (Distances.defect?_eq_none_iff.mp rfl)
  trails := .uniform 2 (Float.ofBits 1)
  valid := Config.defect?_eq_none_iff.mp rfl

/-- Nothing becomes of its trails in a cancelled run, and in a complete one they recover. -/
theorem faint_keeps_trails_positive :
    create faint.distances faint.config = .ok faint ∧ ∃ results c' t,
      runs [fun _ _ => true, fun _ _ => false] faint (⟨#[6, 28], 0⟩ : Script) =
        .ok ((results, c'), t) ∧
      results.length = 2 ∧ (∀ x ∈ c'.trails.toList, 0.0 < x ∧ ¬x.isNaN) ∧
      0.0 < c'.trails.weakest ∧
      ((∃ r ∈ results, 0 < r.iterations) →
        (∀ x ∈ c'.trails.toList, minNormal ≤ x) ∧ minNormal ≤ c'.trails.weakest) := by
  have created : create faint.distances faint.config = .ok faint := by rfl
  have fits : faint.config.Fits := ⟨by decide, by decide⟩
  rcases runs_keep_trails_positive created [fun _ _ => true, fun _ _ => false]
    (⟨#[6, 28], 0⟩ : Script) with refused | kept
  · exact absurd fits refused.1
  · exact ⟨created, kept⟩

end Metaheuristics.Colony

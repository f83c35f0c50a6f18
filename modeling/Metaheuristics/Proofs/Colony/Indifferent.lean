import Metaheuristics.Proofs.Colony.Composition
import Metaheuristics.Proofs.Colony.Lockstep

/-!
# Ants that are indifferent to trails

Where the exponent of the trail is zero, every trail counts as one, be it strong or weak, vanishing or
infinite (`desirability_of_zero`). Two colonies of such ants may have different trails and may treat them
differently; the trails drift apart, and the ants do not notice. They run in lockstep
(`lockstep_indifferent`), so they find the same (`runs_ignore_trails`).

That a zeroth power is one is not a property of this library but of the platform that raises numbers to
powers, so it is an assumption here (`ZerothPower`).
-/

namespace Metaheuristics.Colony

variable {n : Nat} {σ : Type} [WordSource σ]

/-- The zeroth power of every double is one, also of infinities and of NaNs, and whichever sign the zero
has. -/
def ZerothPower (power : Float → Float → Float) : Prop :=
  ∀ x, power x 0.0 = 1.0 ∧ power x (-0.0) = 1.0

/-- Two colonies between the same cities whose ants give trails no weight. They send out as many ants in
as many iterations, and give costs the same weight. -/
structure Indifferent (c c' : Colony n) : Prop where
  distances : c.distances = c'.distances
  ants : c.config.ants = c'.config.ants
  iterations : c.config.iterations = c'.config.iterations
  beta : c.config.beta = c'.config.beta
  alpha : c.config.alpha = 0.0 ∨ c.config.alpha = -0.0
  alpha' : c'.config.alpha = 0.0 ∨ c'.config.alpha = -0.0
  power : c.power = c'.power
  zeroth : ZerothPower c.power

/-- Without an exponent, no trail makes an edge more desirable than another trail does. -/
theorem desirability_of_zero {config : Config} {power : Float → Float → Float}
    (zeroth : ZerothPower power) (alpha : config.alpha = 0.0 ∨ config.alpha = -0.0)
    (trail cost : Float) :
    config.desirability power trail cost = 1.0 * power (1.0 / cost) config.beta := by
  unfold Config.desirability
  rcases alpha with zero | zero
  · rw [zero, (zeroth trail).1]
  · rw [zero, (zeroth trail).2]

namespace Indifferent

variable {c c' : Colony n}

theorem weighAlike (same : Indifferent c c') : WeighAlike c c' := by
  intro current left here known away
  unfold options
  refine mapM_congr fun city member => ?_
  have place := SquareTable.place_lt here (known city member)
  -- both trails can be read, and then neither of them counts
  rw [c.trails.read_of_lt place, c'.trails.read_of_lt place, same.distances]
  show (c'.distances.read current city >>= fun cost =>
      pure (city, c.config.desirability c.power c.trails.cells[current * n + city] cost)) =
    c'.distances.read current city >>= fun cost =>
      pure (city, c'.config.desirability c'.power c'.trails.cells[current * n + city] cost)
  refine bind_congr fun cost => ?_
  have zeroth' : ZerothPower c'.power := same.power ▸ same.zeroth
  rw [desirability_of_zero same.zeroth same.alpha, desirability_of_zero zeroth' same.alpha',
    same.power, same.beta]

end Indifferent

/-- Whatever becomes of the trails, the ants of such colonies make the same trips. -/
theorem lockstep_indifferent : Lockstep σ (Indifferent (n := n)) where
  ants same := same.ants
  iterations same := same.iterations
  trip same := trip_congr same.weighAlike fun _ => by rw [same.distances]
  reinforced same _ _ := { same with }

/-- However often two colonies of indifferent ants are run and however the runs are stopped, they find
the same and leave the same source behind. Neither the trails that they start with nor what they do to
them makes a difference. -/
theorem runs_ignore_trails {c c' : Colony n} (same : Indifferent c c')
    (stops : List (Nat → σ → Bool)) (s : σ) :
    (¬c.config.Fits ∧ stops ≠ [] ∧ ∃ count bytes, runs stops c s = .error (.noRoom count bytes) ∧
        runs stops c' s = .error (.noRoom count bytes)) ∨
      ∃ results a a' t, runs stops c s = .ok ((results, a), t) ∧
        runs stops c' s = .ok ((results, a'), t) ∧ results.length = stops.length := by
  rcases lockstep_indifferent.runs_alike same stops s with refused |
    ⟨js, a, a', t, ran, ran', length, -, -⟩
  · exact .inl refused
  · exact .inr ⟨_, a, a', t, ran, ran', by rw [List.length_map, length]⟩

/-- Powers with the exponents zero and one. -/
def plainPower (x exponent : Float) : Float := if exponent == 0.0 then 1.0 else x

/-- A colony between two cities whose ants look at costs alone. -/
def costBound : Colony 2 where
  config := { iterations := 2, alpha := 0.0, beta := 1.0 }
  distances := twoCities.distances
  trails := .uniform 2 1.0
  valid := Config.defect?_eq_none_iff.mp rfl
  power := plainPower

/-- Such a colony whose trails overflow in its first iteration. -/
def overflowing : Colony 2 where
  config := {
    iterations := 2
    alpha := -0.0
    beta := 1.0
    evaporation := 0.125
    q := Float.ofBits 0x7fefffffffffffff
    initialTrail := Float.ofBits 0x7fefffffffffffff }
  distances := twoCities.distances
  trails := .uniform 2 (Float.ofBits 0x7fefffffffffffff)
  valid := Config.defect?_eq_none_iff.mp rfl
  power := plainPower

/-- The overflow makes no difference to a complete run and a cancelled one after it. -/
theorem overflowing_finds_same :
    Indifferent costBound overflowing ∧ ∃ results a a' t,
      runs [fun _ _ => false, fun done _ => done == 1] costBound (⟨#[6, 28], 0⟩ : Script) =
        .ok ((results, a), t) ∧
      runs [fun _ _ => false, fun done _ => done == 1] overflowing (⟨#[6, 28], 0⟩ : Script) =
        .ok ((results, a'), t) ∧ results.length = 2 := by
  have zeroth : ZerothPower plainPower := fun x => ⟨if_pos (by decide), if_pos (by decide)⟩
  have same : Indifferent costBound overflowing :=
    ⟨rfl, rfl, rfl, rfl, .inl rfl, .inr rfl, rfl, zeroth⟩
  have fits : costBound.config.Fits := ⟨by decide, by decide⟩
  rcases runs_ignore_trails same [fun _ _ => false, fun done _ => done == 1]
    (⟨#[6, 28], 0⟩ : Script) with refused | found
  · exact absurd fits refused.1
  · exact ⟨same, found⟩

end Metaheuristics.Colony

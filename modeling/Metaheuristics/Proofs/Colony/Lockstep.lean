import Metaheuristics.Proofs.Colony.Consecutive
import Metaheuristics.Proofs.Random.Alike

/-!
# Two colonies in lockstep

Two colonies can differ in something that makes no difference to their ants, such as the price of
staying in a city. If a relation between colonies says that their ants make the same trips, and if it
outlasts the reinforcement of the trails by these trips (`Lockstep`), then it outlasts iterations and
runs, and related colonies find the same (`iterate_matches`, `proceed_matches`, `run_matches`,
`runs_matches`, `runs_alike`).
-/

namespace Metaheuristics.Colony

variable {n : Nat} {σ : Type} [WordSource σ]

variable {c c' : Colony n}

variable (σ) in
/-- A relation between colonies that run alike: they send out as many ants in as many iterations, the
ants make the same trips, and the trails that these trips reinforce leave the colonies related. -/
structure Lockstep (R : Colony n → Colony n → Prop) : Prop where
  ants : ∀ {c c'}, R c c' → c.config.ants = c'.config.ants
  iterations : ∀ {c c'}, R c c' → c.config.iterations = c'.config.iterations
  trip : ∀ {c c'}, R c c' → (c.trip : Draw σ Trip) = c'.trip
  reinforced : ∀ {c c' trips trails trails'}, R c c' → Iterated σ c trips trails →
    Iterated σ c' trips trails' → R { c with trails } { c' with trails := trails' }

/-- What an iteration reports are the trips that its ants have made. -/
theorem trips_of_iterate {s t : σ} {outcome : List Trip × Colony n}
    (done : c.iterate s = .ok (outcome, t)) :
    c.trips c.config.ants.toNat s = .ok (outcome.1, t) := by
  obtain ⟨trips, u, sent, done⟩ := Draw.bind_eq_ok_iff.mp done
  obtain ⟨trails, v, reinforced, done⟩ := Draw.bind_eq_ok_iff.mp done
  cases h : c.trails.reinforce c.config.evaporation c.config.q
    (trips.map fun trip => (trip.tour, trip.length)) with
  | error fault =>
      rw [h] at reinforced
      cases reinforced
  | ok trails =>
      rw [h] at reinforced
      cases reinforced
      cases done
      exact sent

namespace Lockstep

variable {R : Colony n → Colony n → Prop} (lockstep : Lockstep σ R)
include lockstep

theorem iterate_matches (related : R c c') :
    Draw.Matches (· = ·) (fun o o' => o.1 = o'.1 ∧ R o.2 o'.2)
      (c.iterate : Draw σ (List Trip × Colony n)) c'.iterate := by
  rintro s _ rfl
  obtain ⟨⟨trips, _⟩, t, done, trails, iterated, rfl⟩ := c.iterate_yields s
  obtain ⟨⟨trips', _⟩, t', done', trails', iterated', rfl⟩ := c'.iterate_yields s
  have sent := trips_of_iterate done
  have sent' := trips_of_iterate done'
  rw [trips_congr (lockstep.trip related), lockstep.ants related, sent'] at sent
  cases sent
  rw [done, done']
  exact .ok ⟨⟨rfl, lockstep.reinforced related iterated iterated'⟩, rfl⟩

theorem proceed_matches (stop : Nat → σ → Bool) (limit : Nat) (related : R c c') (r : Result) :
    Draw.Matches (· = ·) (fun o o' => o.1 = o'.1 ∧ R o.2 o'.2)
      (proceed stop limit c r) (proceed stop limit c' r) := by
  induction limit generalizing c c' r with
  | zero => exact .pure ⟨rfl, related⟩
  | succ limit ih =>
      unfold proceed
      refine .get_bind fun s t same => ?_
      subst same
      split
      · exact .pure ⟨rfl, related⟩
      · refine (lockstep.iterate_matches related).bind fun outcome outcome' both => ?_
        obtain ⟨trips, d⟩ := outcome
        obtain ⟨_, d'⟩ := outcome'
        obtain ⟨rfl, still⟩ := both
        exact ih still (r.record trips)

theorem run_matches (stop : Nat → σ → Bool) (related : R c c') :
    Draw.Matches (· = ·) (fun o o' => o.1 = o'.1 ∧ R o.2 o'.2) (c.run stop) (c'.run stop) := by
  have reserve : c.config.reserve = c'.config.reserve := by
    rw [Config.reserve, Config.reserve, lockstep.ants related, lockstep.iterations related]
  rw [run, run, reserve, lockstep.iterations related]
  refine (Draw.Matches.lift (.refl _)).bind_same fun _ => ?_
  exact lockstep.proceed_matches stop _ related .empty

/-- However often they are run and however the runs are stopped, the two colonies find the same and
leave the same source behind. -/
theorem runs_matches (stops : List (Nat → σ → Bool)) (related : R c c') :
    Draw.Matches (· = ·) (fun o o' => o.1 = o'.1 ∧ R o.2 o'.2) (runs stops c) (runs stops c') := by
  induction stops generalizing c c' with
  | nil => exact .pure ⟨rfl, related⟩
  | cons stop stops ih =>
      unfold runs
      refine (lockstep.run_matches stop related).bind fun outcome outcome' both => ?_
      obtain ⟨r, d⟩ := outcome
      obtain ⟨_, d'⟩ := outcome'
      obtain ⟨rfl, still⟩ := both
      refine (ih still).bind fun rest rest' both => ?_
      obtain ⟨rs, e⟩ := rest
      obtain ⟨_, e'⟩ := rest'
      obtain ⟨rfl, finally_related⟩ := both
      exact .pure ⟨rfl, finally_related⟩

/-- Either both colonies find no room for their runs, or both end them with the same results. -/
theorem runs_alike (related : R c c') (stops : List (Nat → σ → Bool)) (s : σ) :
    (¬c.config.Fits ∧ stops ≠ [] ∧ ∃ count bytes, runs stops c s = .error (.noRoom count bytes) ∧
        runs stops c' s = .error (.noRoom count bytes)) ∨
      ∃ js d d' t, runs stops c s = .ok ((js.map Journal.result, d), t) ∧
        runs stops c' s = .ok ((js.map Journal.result, d'), t) ∧ js.length = stops.length ∧
        Sequel σ c js d ∧ R d d' := by
  have alike := (lockstep.runs_matches stops related).cases s
  rcases c.runs_cases stops s with ⟨unfit, some_run, count, bytes, failed⟩ |
    ⟨js, d, t, -, ran, length, sequel⟩
  · rw [failed] at alike
    obtain ⟨fault, same, failed'⟩ | ⟨_, _, _, ran, -⟩ := alike
    · cases same
      exact .inl ⟨unfit, some_run, count, bytes, failed, failed'⟩
    · cases ran
  · rw [ran] at alike
    obtain ⟨_, failed, -⟩ | ⟨_, ⟨_, d'⟩, _, same, ran', both⟩ := alike
    · cases failed
    · cases same
      obtain ⟨rfl, still⟩ := both
      exact .inr ⟨js, d, d', t, ran, ran', length, sequel, still⟩

end Lockstep

end Metaheuristics.Colony

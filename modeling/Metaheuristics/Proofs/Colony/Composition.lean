import Metaheuristics.Proofs.Binary64.Order
import Metaheuristics.Proofs.Colony.Journal

/-!
# Runs one after another

A run of a colony can be cut between any two iterations. Collected here:

* iterations that nothing stops (`advance`), and what they leave as it is (`advance_yields`);
* a run is not stopped before its first `k` checks show the flag raised, and from there it goes on as
  a run of its own (`proceed_add_of_quiet`);
* a change of the parameters that no ant notices makes no difference to any of them, and the number of
  iterations that a run was to have is such a change (`advance_changed`, `advance_lasting`);
* what two runs find, one after the other, is what one run finds (`Result.followedBy`,
  `advance_followedBy`).
-/

namespace Metaheuristics.Colony

variable {n : Nat} {σ : Type} [WordSource σ]

/-- Goes on with a run for `k` iterations that nothing stops. -/
def advance (k : Nat) (c : Colony n) (r : Result) : Draw σ (Result × Colony n) :=
  proceed (fun _ _ => false) k c r

theorem advance_zero (c : Colony n) (r : Result) :
    (advance 0 c r : Draw σ (Result × Colony n)) = pure (r, c) := rfl

theorem advance_succ (k : Nat) (c : Colony n) (r : Result) :
    (advance (k + 1) c r : Draw σ (Result × Colony n)) =
      c.iterate >>= fun outcome => advance k outcome.2 (r.record outcome.1) := rfl

/-! ## Changes that no ant notices -/

/-- A change of the parameters that leaves alone what ants and trails depend on. -/
structure Config.Unnoticed (change : Config → Config) : Prop where
  ants : ∀ c, (change c).ants = c.ants
  alpha : ∀ c, (change c).alpha = c.alpha
  beta : ∀ c, (change c).beta = c.beta
  evaporation : ∀ c, (change c).evaporation = c.evaporation
  q : ∀ c, (change c).q = c.q
  valid : ∀ c, c.Valid → (change c).Valid

/-- The same colony after such a change. -/
def changed (c : Colony n) {change : Config → Config} (h : Config.Unnoticed change) : Colony n :=
  { c with
    config := change c.config
    valid := h.valid c.config c.valid }

section

variable {change : Config → Config} (h : Config.Unnoticed change)
include h

/-- The ants weigh their moves as before the change. -/
theorem weighAlike_changed (c : Colony n) : WeighAlike (c.changed h) c := by
  intro current left _ _ _
  have same : (change c.config).desirability = c.config.desirability := by
    funext power trail cost
    rw [Config.desirability, Config.desirability, h.alpha, h.beta]
  unfold options changed
  rw [same]

theorem trip_changed (c : Colony n) : ((c.changed h).trip : Draw σ Trip) = c.trip :=
  trip_congr (c.weighAlike_changed h) fun _ => rfl

/-- An iteration is the same after the change. -/
theorem iterate_changed (c : Colony n) :
    ((c.changed h).iterate : Draw σ (List Trip × Colony n)) =
      (fun outcome => (outcome.1, outcome.2.changed h)) <$> c.iterate := by
  have ants : (c.changed h).config.ants = c.config.ants := h.ants c.config
  have evaporation : (c.changed h).config.evaporation = c.config.evaporation :=
    h.evaporation c.config
  have q : (c.changed h).config.q = c.config.q := h.q c.config
  unfold iterate
  rw [map_bind, trips_congr (trip_changed h c), ants, evaporation, q]
  refine bind_congr fun trips => ?_
  rw [map_bind]
  rfl

/-- And so is any number of them. -/
theorem advance_changed (c : Colony n) (limit : Nat) (r : Result) :
    (advance limit (c.changed h) r : Draw σ (Result × Colony n)) =
      (fun q => (q.1, q.2.changed h)) <$> advance limit c r := by
  induction limit generalizing c r with
  | zero =>
      rw [advance_zero, advance_zero, map_pure]
  | succ limit ih =>
      rw [advance_succ, advance_succ, iterate_changed, bind_map_left, map_bind]
      exact bind_congr fun outcome => ih outcome.2 (r.record outcome.1)

end

/-- The same colony with another number of iterations to a run. -/
def lasting (c : Colony n) (k : UInt64) (positive : k ≠ 0) : Colony n :=
  { c with
    config := { c.config with iterations := k }
    valid := { c.valid with iterations := positive } }

theorem lasting_lasting (c : Colony n) (k m : UInt64) (hk : k ≠ 0) (hm : m ≠ 0) :
    (c.lasting k hk).lasting m hm = c.lasting m hm := rfl

theorem Config.unnoticed_iterations {k : UInt64} (hk : k ≠ 0) :
    Config.Unnoticed fun c => { c with iterations := k } :=
  ⟨fun _ => rfl, fun _ => rfl, fun _ => rfl, fun _ => rfl, fun _ => rfl,
    fun _ valid => { valid with iterations := hk }⟩

/-- How long a run is to last makes no difference to its iterations. -/
theorem advance_lasting (c : Colony n) (k : UInt64) (hk : k ≠ 0) (limit : Nat) (r : Result) :
    (advance limit (c.lasting k hk) r : Draw σ (Result × Colony n)) =
      (fun q => (q.1, q.2.lasting k hk)) <$> advance limit c r :=
  advance_changed (Config.unnoticed_iterations hk) c limit r

/-! ## Cutting a run -/

namespace Result

theorem number_note (r : Result) (trip : Trip) (number : ¬r.bestLength.isNaN) :
    ¬(r.note trip).bestLength.isNaN := by
  unfold note
  split
  · rename_i shorter
    exact Binary64.not_isNaN_of_lt shorter
  · exact number

/-- The best length is always a number. -/
theorem number_record (r : Result) (trips : List Trip) (number : ¬r.bestLength.isNaN) :
    ¬(r.record trips).bestLength.isNaN := by
  show ¬(trips.foldl note r).bestLength.isNaN
  induction trips generalizing r with
  | nil => exact number
  | cons trip trips ih => exact ih (r.note trip) (r.number_note trip number)

end Result

/-- Iterations that nothing stops are completed, and change nothing but the trails. -/
theorem advance_yields (k : Nat) (c : Colony n) (r : Result) :
    Draw.Yields (advance k c r : Draw σ (Result × Colony n)) fun q =>
      q.1.iterations = r.iterations + k ∧ q.1.cancelled = r.cancelled ∧
        (¬r.bestLength.isNaN → ¬q.1.bestLength.isNaN) ∧
        q.2 = { c with trails := q.2.trails } := by
  induction k generalizing c r with
  | zero => exact .pure ⟨rfl, rfl, id, rfl⟩
  | succ k ih =>
      rw [advance_succ]
      refine c.iterate_yields.bind fun ⟨trips, _⟩ ⟨trails, _, changed⟩ => ?_
      subst changed
      refine (ih { c with trails } (r.record trips)).imp fun q => ?_
      rintro ⟨iterations, cancelled, number, colony⟩
      rw [Result.iterations_record] at iterations
      rw [Result.cancelled_record] at cancelled
      exact ⟨by omega, cancelled, fun h => number (r.number_record trips h), colony⟩

/-- A run whose first `k` checks do not show the flag raised completes `k` iterations, and then goes
on with what is left of it. -/
theorem proceed_add_of_quiet (stop : Nat → σ → Bool) {k : Nat} (m : Nat) {c : Colony n}
    {r : Result} {s : σ}
    (quiet : ∀ i < k, ∀ q t, advance i c r s = .ok (q, t) → stop (r.iterations + i) t = false) :
    proceed stop (k + m) c r s = (advance k c r >>= fun q => proceed stop m q.2 q.1) s := by
  induction k generalizing c r s with
  | zero =>
      rw [Nat.zero_add]
      rfl
  | succ k ih =>
      have now : stop r.iterations s = false := quiet 0 (Nat.succ_pos k) (r, c) s rfl
      obtain ⟨outcome, t, done, -⟩ := c.iterate_yields s
      -- the check is passed, and the other checks are those of the run after this iteration
      have unstopped : proceed stop (k + 1 + m) c r s =
          (c.iterate >>= fun outcome => proceed stop (k + m) outcome.2 (r.record outcome.1)) s := by
        rw [Nat.add_right_comm]
        show (if stop r.iterations s = true then _ else _ : Draw σ (Result × Colony n)) s = _
        rw [if_neg (Bool.eq_false_iff.mp now)]
      rw [unstopped, advance_succ, bind_assoc, Draw.bind_of_ok _ done, Draw.bind_of_ok _ done]
      refine ih fun i below q u advanced => ?_
      rw [Result.iterations_record, Nat.add_right_comm]
      refine quiet (i + 1) (Nat.succ_lt_succ below) q u ?_
      rw [advance_succ, Draw.bind_of_ok _ done]
      exact advanced

/-- Iterations follow one another. -/
theorem advance_add (k m : Nat) (c : Colony n) (r : Result) (s : σ) :
    advance (k + m) c r s = (advance k c r >>= fun q => advance m q.2 q.1) s :=
  proceed_add_of_quiet (fun _ _ => false) m fun _ _ _ _ _ => rfl

/-! ## Two runs and one -/

namespace Result

/-- What two runs have found, one after the other. The second one knows nothing of the first. -/
def followedBy (r x : Result) : Result where
  bestTour := if x.bestLength < r.bestLength then x.bestTour else r.bestTour
  bestLength := if x.bestLength < r.bestLength then x.bestLength else r.bestLength
  iterations := r.iterations + x.iterations
  bestIteration :=
    if x.bestLength < r.bestLength then r.iterations + x.bestIteration else r.bestIteration
  cancelled := x.cancelled
  lengthHistory :=
    r.lengthHistory ++ x.lengthHistory.map fun h => if h < r.bestLength then h else r.bestLength

theorem followedBy_empty {r : Result} (going : r.cancelled = false) : r.followedBy .empty = r := by
  have longer : ¬empty.bestLength < r.bestLength := Binary64.not_infinity_lt r.bestLength
  cases r
  cases going
  simp only [followedBy, if_neg longer]
  simp [empty]

variable {r x : Result}

/-- Of equally short tours the earlier one is kept, wherever the two runs are cut. -/
theorem followedBy_note (number_r : ¬r.bestLength.isNaN) (number_x : ¬x.bestLength.isNaN)
    (trip : Trip) : (r.followedBy x).note trip = r.followedBy (x.note trip) := by
  -- the trip is compared with the better of the two runs on the left, and with the second run alone
  -- on the right
  by_cases better : x.bestLength < r.bestLength
  · by_cases shorter : trip.length < x.bestLength
    · have shortest : trip.length < r.bestLength :=
        Binary64.lt_of_lt_of_le shorter (Binary64.le_of_lt better)
      simp [followedBy, note, better, shorter, shortest]
    · simp [followedBy, note, better, shorter]
  · by_cases shorter : trip.length < r.bestLength
    · have shortest : trip.length < x.bestLength :=
        Binary64.lt_of_lt_of_le shorter (Binary64.le_of_not_lt number_x number_r better)
      simp [followedBy, note, better, shorter, shortest]
    · by_cases noted : trip.length < x.bestLength
      · simp [followedBy, note, better, shorter, noted]
      · simp [followedBy, note, better, shorter, noted]

theorem followedBy_foldl_note (number_r : ¬r.bestLength.isNaN) (number_x : ¬x.bestLength.isNaN)
    (trips : List Trip) : trips.foldl note (r.followedBy x) = r.followedBy (trips.foldl note x) := by
  induction trips generalizing x with
  | nil => rfl
  | cons trip trips ih =>
      rw [List.foldl_cons, List.foldl_cons, followedBy_note number_r number_x]
      exact ih (x.number_note trip number_x)

theorem followedBy_record (number_r : ¬r.bestLength.isNaN) (number_x : ¬x.bestLength.isNaN)
    (trips : List Trip) : (r.followedBy x).record trips = r.followedBy (x.record trips) := by
  unfold record
  rw [followedBy_foldl_note number_r number_x]
  simp [followedBy, Nat.add_assoc]

end Result

/-- Iterations after a run add to its result what they find on their own. -/
theorem advance_followedBy {r x : Result} (number_r : ¬r.bestLength.isNaN)
    (number_x : ¬x.bestLength.isNaN) (k : Nat) (c : Colony n) :
    (advance k c (r.followedBy x) : Draw σ (Result × Colony n)) =
      (fun q => (r.followedBy q.1, q.2)) <$> advance k c x := by
  induction k generalizing c x with
  | zero =>
      rw [advance_zero, advance_zero, map_pure]
  | succ k ih =>
      rw [advance_succ, advance_succ, map_bind]
      refine bind_congr fun outcome => ?_
      rw [Result.followedBy_record number_r number_x]
      exact ih (x.number_record outcome.1 number_x) outcome.2

/-- A run for which there is room completes all its iterations unless it is stopped. -/
theorem solve_of_fits {c : Colony n} (fits : c.config.Fits) :
    (c.solve : Draw σ (Result × Colony n)) = advance c.config.iterations.toNat c .empty :=
  run_of_fits fits _

/-- A run that is to last for `k` iterations completes them. -/
theorem solve_lasting {c c' : Colony n} {k : UInt64} (hk : k ≠ 0) (fits : c.config.Fits)
    (within : k.toNat ≤ c.config.iterations.toNat) {r : Result} {s t : σ}
    (advanced : advance k.toNat c .empty s = .ok ((r, c'), t)) :
    (c.lasting k hk).solve s = .ok ((r, c'.lasting k hk), t) := by
  have fewer : (c.lasting k hk).config.Fits := ⟨fits.lengths.of_le within, fits.tours⟩
  rw [solve_of_fits fewer]
  show advance k.toNat (c.lasting k hk) .empty s = _
  rw [advance_lasting]
  exact Draw.map_eq_ok _ advanced

/-- A run and another one after it leave the trails and the source as one run leaves them that is as
long as both, and find what it finds. -/
theorem solve_composes (c : Colony n) (s : σ) {k m : UInt64} (hk : k ≠ 0) (hm : m ≠ 0)
    (total : c.config.iterations.toNat = k.toNat + m.toNat) :
    (¬c.config.Fits ∧ ∃ count bytes, c.solve s = .error (.noRoom count bytes)) ∨
      ∃ r₁ c₁ s₁ r₂ c₂ s₂ r c',
        (c.lasting k hk).solve s = .ok ((r₁, c₁), s₁) ∧
        (c₁.lasting m hm).solve s₁ = .ok ((r₂, c₂), s₂) ∧
        c.solve s = .ok ((r, c'), s₂) ∧ c'.trails = c₂.trails ∧
        r.lengthHistory = r₁.lengthHistory ++
          r₂.lengthHistory.map (fun h => if h < r₁.bestLength then h else r₁.bestLength) ∧
        (r.bestTour, r.bestLength, r.bestIteration) =
          if r₂.bestLength < r₁.bestLength then
            (r₂.bestTour, r₂.bestLength, k.toNat + r₂.bestIteration)
          else
            (r₁.bestTour, r₁.bestLength, r₁.bestIteration) := by
  by_cases fits : c.config.Fits
  · obtain ⟨⟨r₁, c₁⟩, s₁, first, count, going, number, same⟩ := advance_yields k.toNat c .empty s
    obtain ⟨⟨r₂, c₂⟩, s₂, second, -⟩ := advance_yields m.toNat c₁ .empty s₁
    have config : c₁.config = c.config := (congrArg Colony.config same :)
    have fits₁ : c₁.config.Fits := config ▸ fits
    have within₁ : m.toNat ≤ c₁.config.iterations.toNat := by
      rw [config]
      omega
    have number₁ : ¬r₁.bestLength.isNaN := number Binary64.not_isNaN_infinity
    have whole : c.solve s = .ok ((r₁.followedBy r₂, c₂), s₂) := by
      have later := advance_followedBy (σ := σ) number₁ (x := .empty)
        Binary64.not_isNaN_infinity m.toNat c₁
      rw [Result.followedBy_empty going] at later
      rw [solve_of_fits fits, total, advance_add, Draw.bind_of_ok _ first, later,
        Draw.map_eq_ok _ second]
    refine .inr ⟨r₁, c₁.lasting k hk, s₁, r₂, c₂.lasting m hm, s₂, r₁.followedBy r₂, c₂,
      ?_, ?_, whole, rfl, rfl, ?_⟩
    · exact solve_lasting hk fits (by omega) first
    · rw [lasting_lasting]
      exact solve_lasting hm fits₁ within₁ second
    · have iterations : r₁.iterations = k.toNat := count.trans (Nat.zero_add _)
      rw [← iterations]
      unfold Result.followedBy
      by_cases better : r₂.bestLength < r₁.bestLength
      · simp only [if_pos better]
      · simp only [if_neg better]
  · exact .inl ⟨fits, run_refused fits _ s⟩

/-- A colony between two cities, with two iterations to a run. -/
def twoCities : Colony 2 where
  config := { iterations := 2 }
  distances := .ofValidRows [[0.0, 1.0], [1.0, 0.0]] (Distances.defect?_eq_none_iff.mp rfl)
  trails := .uniform 2 1.0
  valid := Config.defect?_eq_none_iff.mp rfl

/-- Two runs of one iteration, one after the other, are one run of two. -/
theorem twoCities_solve_composes :
    ∃ r₁ c₁ s₁ r₂ c₂ s₂ r c',
      (twoCities.lasting 1 (by decide)).solve (⟨#[6, 28], 0⟩ : Script) = .ok ((r₁, c₁), s₁) ∧
      (c₁.lasting 1 (by decide)).solve s₁ = .ok ((r₂, c₂), s₂) ∧
      twoCities.solve (⟨#[6, 28], 0⟩ : Script) = .ok ((r, c'), s₂) ∧ c'.trails = c₂.trails ∧
      r.lengthHistory = r₁.lengthHistory ++
        r₂.lengthHistory.map (fun h => if h < r₁.bestLength then h else r₁.bestLength) ∧
      (r.bestTour, r.bestLength, r.bestIteration) =
        if r₂.bestLength < r₁.bestLength then
          (r₂.bestTour, r₂.bestLength, 1 + r₂.bestIteration)
        else
          (r₁.bestTour, r₁.bestLength, r₁.bestIteration) := by
  have fits : twoCities.config.Fits := ⟨by decide, by decide⟩
  rcases solve_composes twoCities (⟨#[6, 28], 0⟩ : Script) (k := 1) (m := 1) (by decide) (by decide)
    rfl with refused | composed
  · exact absurd fits refused.1
  · exact composed

end Metaheuristics.Colony

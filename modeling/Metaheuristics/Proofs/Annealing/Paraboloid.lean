import Metaheuristics.Proofs.Annealing.Window
import Metaheuristics.Proofs.Annealing.Words

/-!
# The values of the default objective

The default objective divides one by one and two squares. What is known of its value is at most one and
never negative, but the squares may overflow, and then the value is zero. Collected here:

* the value of a point whose coordinates are numbers (`inverseParaboloid_mem`), and how far out its
  denominator is finite (`isFinite_paraboloid`);
* after a number of trials the coordinates are bounded by the range of the start and as many temperatures
  (`Journal.Faithful.farthest`);
* so everything that a run tells is between zero and one, and it is positive unless the run leads out to
  where denominators overflow (`default_objective_stays_in_unit`), as it may (`outlying_reaches_zero`).
-/

namespace Metaheuristics.Annealing

open Binary64

/-! ## The value at a point -/

variable {x y : Float} {e k m : Nat}

/-- What the default objective divides one by. -/
def paraboloid (x y : Float) : Float := 1.0 + x * x + y * y

theorem one_le_paraboloid (hx : ¬x.isNaN) (hy : ¬y.isNaN) : 1.0 ≤ paraboloid x y := by
  have first := (le_add (x := 1.0) (by decide) (zero_le_square hx)).1
  have second := (le_add (le_trans (by decide) first) (zero_le_square hy)).1
  exact le_trans first second

/-- The default objective is between zero and one, and zero where its denominator overflows. -/
theorem inverseParaboloid_mem (hx : ¬x.isNaN) (hy : ¬y.isNaN) :
    0.0 ≤ inverseParaboloid x y ∧ inverseParaboloid x y ≤ 1.0 ∧
      (0.0 < inverseParaboloid x y ↔ (paraboloid x y).isFinite) := by
  have large := one_le_paraboloid hx hy
  have positive : 0.0 < paraboloid x y := lt_of_lt_of_le (by decide) large
  show 0.0 ≤ 1.0 / paraboloid x y ∧ 1.0 / paraboloid x y ≤ 1.0 ∧
    (0.0 < 1.0 / paraboloid x y ↔ (paraboloid x y).isFinite)
  rcases isFinite_or_eq_infinity (le_of_lt positive) with finite | infinite
  · exact ⟨zero_le_div (by decide) (by decide) positive, div_le_one (by decide) large positive finite,
      iff_of_true (zero_lt_one_div positive finite) finite⟩
  · rw [infinite]
    decide

/-- The square of 2 to the 511th. -/
def largeSquare : Float := Float.ofBits 0x7fd0000000000000

theorem toRat_largeSquare : toRat largeSquare = 2 ^ 1022 := by
  have unpacked : largeSquare.toModel.unpack = .finite .positive (2 ^ 52) 970 (by norm_num) := by rfl
  rw [toRat, unpacked]
  show ((2 ^ 52 : ℕ) : ℚ) * 2 ^ (970 : ℤ) = _
  rw [Nat.cast_pow, Nat.cast_two, ← zpow_natCast, ← zpow_add₀ (by norm_num)]
  rfl

theorem square_le (h : Bounded e k x) (bits : k < 2 ^ 53) (small : e ≤ 458) : x * x ≤ largeSquare := by
  obtain ⟨finite, size⟩ := h
  refine mul_le_of_toRat_le finite finite (by decide) ?_
  have far : |toRat x| ≤ 2 ^ 511 :=
    calc |toRat x| ≤ k * 2 ^ e := size
      _ ≤ 2 ^ 53 * 2 ^ 458 := by
          gcongr
          · exact_mod_cast bits.le
          · norm_num
      _ = 2 ^ 511 := by rw [← pow_add]
  calc toRat x * toRat x = |toRat x| * |toRat x| := (abs_mul_abs_self _).symm
    _ ≤ 2 ^ 511 * 2 ^ 511 := by gcongr
    _ = toRat largeSquare := by rw [toRat_largeSquare, ← pow_add]

/-- The denominator does not overflow up to coordinates of 2 to the 511th. -/
theorem isFinite_paraboloid (hx : Bounded e k x) (hy : Bounded e k y) (bits : k < 2 ^ 53)
    (small : e ≤ 458) : (paraboloid x y).isFinite := by
  have number_x := not_isNaN_of_isFinite hx.1
  have number_y := not_isNaN_of_isFinite hy.1
  have nonneg_x := zero_le_square number_x
  have first : 1.0 + x * x ≤ 1.0 + largeSquare :=
    add_mono (by decide) nonneg_x (by decide) (square_le hx bits small)
  have nonneg : 0.0 ≤ 1.0 + x * x := le_trans nonneg_x (le_add (by decide) nonneg_x).2
  have both : paraboloid x y ≤ 1.0 + largeSquare + largeSquare :=
    add_mono nonneg (zero_le_square number_y) first (square_le hy bits small)
  have large := one_le_paraboloid number_x number_y
  exact isFinite_of_le (le_trans (by decide) large) both (by decide +kernel)

/-! ## Where a run leads -/

/-- A point that is at most `m` units from both axes, and `k` more for each of `i` trials, as long as
these are few enough to be counted by doubles. -/
def Reached (e m k i : Nat) (p : Point) : Prop :=
  m + k * i < 2 ^ 53 → Bounded e (m + k * i) p.x ∧ Bounded e (m + k * i) p.y

theorem Reached.longer {i l : Nat} {p : Point} (le : i ≤ l) (h : Reached e m k i p) :
    Reached e m k l p := by
  intro fits
  have farther : m + k * i ≤ m + k * l := Nat.add_le_add_left (Nat.mul_le_mul_left k le) m
  obtain ⟨hx, hy⟩ := h (farther.trans_lt fits)
  exact ⟨hx.mono farther, hy.mono farther⟩

namespace Journal.Faithful

variable {a : Annealing} {steps : Nat} {j : Journal}

/-- No temperature of a run is above the first. -/
theorem temperature_le (faithful : j.Faithful a steps) (schedule : a.config.Schedule steps) :
    ∀ stage ∈ j.stages, stage.temperature ≤ a.config.initialTemperature := by
  intro stage member
  obtain ⟨i, hi, rfl⟩ := List.getElem_of_mem member
  have before : i < steps := Nat.lt_of_lt_of_le hi faithful.length_le
  rw [faithful.counts.2 i hi]
  rcases Nat.eq_zero_or_pos i with rfl | later
  · exact le_refl (not_isNaN_of_isFinite a.valid.initialTemperature.1)
  · have lower : a.config.temperature i < a.config.temperature 0 :=
      schedule.temperature_lt a.valid later before.le
    exact le_of_lt lower

/-- A trial leads no farther out than the first temperature allows. -/
theorem farthest (faithful : j.Faithful a steps) (schedule : a.config.Schedule steps)
    (located : j.Located a.config) (range : Bounded e m a.config.initialRange)
    (temperature : Bounded e k a.config.initialTemperature) (inner : e ≤ 971) :
    ∀ p ∈ j.points, Reached e m k j.trials.length p := by
  refine faithful.reaches (P := Reached e m k) Reached.longer ?_ ?_
  · intro stage completed trial tried i held fits
    obtain ⟨finite, above⟩ := faithful.temperature schedule stage completed
    have nonneg := a.valid.zero_le above
    have cooler := temperature.of_le nonneg (faithful.temperature_le schedule stage completed)
    rw [Nat.mul_succ, ← Nat.add_assoc] at fits ⊢
    have near := located.near stage completed trial tried
    refine near.both nonneg finite (held (by omega)) fun u d hu lower upper => ?_
    exact hu.add (cooler.of_mem lower upper) fits inner
  · intro _
    rw [Nat.mul_zero, Nat.add_zero]
    exact ⟨range.of_mem located.start.x.1 located.start.x.2,
      range.of_mem located.start.y.1 located.start.y.2⟩

end Journal.Faithful

/-! ## What a run tells -/

/-- A point with the value that the default objective has there, be its denominator finite or not. -/
structure Point.InUnit (p : Point) : Prop where
  on : p.On inverseParaboloid
  numbers : ¬p.x.isNaN ∧ ¬p.y.isNaN
  zero_le : 0.0 ≤ p.value
  le_one : p.value ≤ 1.0
  zero_lt_iff : 0.0 < p.value ↔ (paraboloid p.x p.y).isFinite

theorem Point.On.inUnit {p : Point} (on : p.On inverseParaboloid)
    (numbers : ¬p.x.isNaN ∧ ¬p.y.isNaN) : p.InUnit := by
  have value : p.value = inverseParaboloid p.x p.y := congrArg Point.value on
  obtain ⟨zero_le, le_one, zero_lt_iff⟩ := inverseParaboloid_mem numbers.1 numbers.2
  rw [← value] at zero_le le_one zero_lt_iff
  exact ⟨on, numbers, zero_le, le_one, zero_lt_iff⟩

variable {σ : Type} [WordSource σ]

/-- However a run is stopped, the values of the default objective that it tells are between zero and one.
They are positive, except where the denominator has overflowed. It has not if the range of the start and
as many temperatures as there were moves come to fewer units than 2 to the 53rd, where a unit is a power of
two up to the 458th. -/
theorem default_objective_stays_in_unit (a : Annealing) (default : a.objective = inverseParaboloid)
    (stop : Nat → σ → Bool) (s : σ) :
    (¬Sampleable (-a.config.initialRange) a.config.initialRange ∧ a.run stop s =
        .error (.unsampleableRange (-a.config.initialRange) a.config.initialRange)) ∨
      Sampleable (-a.config.initialRange) a.config.initialRange ∧ ∃ steps j t,
        a.config.levels = .ok steps ∧
        a.journal stop s = .ok (j, t) ∧ a.run stop s = .ok (j.result a.config, t) ∧
        (j.result a.config).iterations ≤ steps * a.config.movesPerLevel.toNat ∧
        (j.result a.config).Tells (fun p => p ∈ j.points ∧ p.InUnit) ∧
        ∀ e m k : Nat, e ≤ 458 → Bounded e m a.config.initialRange →
          Bounded e k a.config.initialTemperature →
          m + k * (j.result a.config).iterations < 2 ^ 53 →
          (j.result a.config).Tells fun p => 0.0 < p.value ∧ p.value ≤ 1.0 := by
  obtain ⟨steps, schedule⟩ := a.valid.exists_schedule
  rcases a.run_cases schedule stop s with refused | ⟨sampleable, j, t, told, ran, faithful⟩
  · exact .inl refused
  · have located := (journal_located sampleable stop).of_ok told
    have numbers := faithful.numbers schedule located
    have inUnit (p : Point) (member : p ∈ j.points) : p.InUnit :=
      Point.On.inUnit (default ▸ faithful.measured p member) (numbers p member)
    have iterations := faithful.counts.1.iterations
    have trials : j.trials.length = (j.result a.config).iterations :=
      faithful.stages.length_trials.trans iterations.symm
    refine .inr ⟨sampleable, steps, j, t, schedule.levels_eq a.valid, told, ran, ?_, ?_, ?_⟩
    · rw [iterations]
      exact Nat.mul_le_mul_right _ faithful.length_le
    · exact j.tells a.config fun p member => ⟨member, inUnit p member⟩
    · intro e m k small range temperature bits
      rw [← trials] at bits
      refine j.tells a.config fun p member => ⟨(inUnit p member).zero_lt_iff.mpr ?_,
        (inUnit p member).le_one⟩
      obtain ⟨hx, hy⟩ := faithful.farthest schedule located range temperature (by omega) p member bits
      exact isFinite_paraboloid hx hy bits small

/-- A short search that starts at the default range. -/
def mild : Annealing where
  objective := inverseParaboloid
  config := { initialTemperature := 20.0, coolingRate := 0.9, movesPerLevel := 20 }
  valid := Config.defect?_eq_none_iff.mp rfl

/-- It does not lead far enough out for an overflow. -/
theorem mild_stays_positive : ∃ r t,
    mild.run (fun _ _ => false) (⟨#[0], 0⟩ : Script) = .ok (r, t) ∧
      r.Tells fun p => 0.0 < p.value ∧ p.value ≤ 1.0 := by
  have sampleable : Sampleable (-mild.config.initialRange) mild.config.initialRange := by decide
  have whole : mild.config.levelsFrom mild.config.levelBound 0 20.0 = 94 := by decide +kernel
  have levels : mild.config.levels = .ok (mild.config.levelsFrom mild.config.levelBound 0 20.0) := by
    rfl
  rcases default_objective_stays_in_unit mild rfl (fun _ _ => false) (⟨#[0], 0⟩ : Script) with
    ⟨unsampleable, -⟩ | ⟨-, steps, j, t, counted, -, ran, most, -, positive⟩
  · exact absurd sampleable unsampleable
  · obtain rfl : steps = 94 := (Except.ok.inj (counted.symm.trans levels)).trans whole
    have moves : mild.config.movesPerLevel.toNat = 20 := rfl
    have range : toRat 5.0 = 5 := by
      show ((5 * 2 ^ 50 : ℕ) : ℚ) * 2 ^ (-50 : ℤ) = 5
      norm_num
    have temperature : toRat 20.0 = 20 := by
      show ((5 * 2 ^ 50 : ℕ) : ℚ) * 2 ^ (-48 : ℤ) = 20
      norm_num
    refine ⟨_, t, ran, positive 0 5 20 (Nat.zero_le _) ⟨by decide, ?_⟩ ⟨by decide, ?_⟩ (by omega)⟩
    · show |toRat 5.0| ≤ _
      norm_num [range]
    · show |toRat 20.0| ≤ _
      norm_num [temperature]

/-- A search whose start may lie so far out that squares overflow. -/
def outlying : Annealing where
  objective := inverseParaboloid
  config := {
    initialTemperature := Float.ofBits 0x5ff0000000000000
    coolingRate := 0.5
    movesPerLevel := 1
    minTemperature := Float.ofBits 0x5fe0000000000000
    initialRange := Float.ofBits 0x5ff0000000000000 }
  valid := Config.defect?_eq_none_iff.mp rfl

/-- The corner where it starts if its words are zero. -/
def corner : Point :=
  outlying.objective.at (Float.ofBits 0xdff0000000000000) (Float.ofBits 0xdff0000000000000)

/-- The point that is proposed from there. -/
def beyond : Point :=
  outlying.objective.at (Float.ofBits 0xe000000000000000) (Float.ofBits 0xe000000000000000)

/-- Everything that it then tells is zero. -/
theorem outlying_reaches_zero : ∃ r t,
    outlying.run (fun _ _ => false) (⟨#[0], 0⟩ : Script) = .ok (r, t) ∧
      r.Tells fun p => p.value = 0.0 := by
  have told : outlying.journal (fun _ _ => false) (⟨#[0], 0⟩ : Script) =
      .ok (⟨corner, [⟨outlying.config.initialTemperature, [⟨corner, beyond, 0.0⟩]⟩], false⟩,
        ⟨#[0], 0⟩) := by rfl
  have ran := Draw.map_eq_ok (Journal.result outlying.config) told
  rw [← run_eq_journal] at ran
  have zero : corner.value = 0.0 ∧ beyond.value = 0.0 := by decide +kernel
  refine ⟨_, _, ran, Journal.tells _ _ ?_⟩
  exact List.forall_mem_cons.mpr ⟨zero.1, List.forall_mem_cons.mpr ⟨zero.2, nofun⟩⟩

end Metaheuristics.Annealing

import Metaheuristics.Annealing.Config
import Metaheuristics.Proofs.Binary64.Arithmetic

/-!
# The cooling schedule

A valid schedule comes to an end, however close to one its rate is and however far the temperature
has to fall. Collected here:

* a temperature above the minimum falls by at least one double when it is multiplied by the rate
  (`Valid.rank_cooled_lt`);
* so the temperatures of a schedule (`temperature`) have ranks that fall from level to level
  (`Valid.rank_temperature_le`);
* hence there is a first temperature that is not above the minimum (`Schedule`,
  `Valid.exists_schedule`), and the levels before it are those that are counted
  (`Schedule.levelsFrom_eq`).
-/

namespace Metaheuristics.Annealing.Config

open Binary64

variable {c : Config} {t : Float}

/-! ## Cooling down once -/

theorem rank_minNormal : rank minNormal = 2 ^ 52 := by decide

theorem toRat_minNormal : toRat minNormal = 2 ^ (-1022 : ℤ) := by
  show ((2 ^ 52 : ℕ) : ℚ) * 2 ^ (-1074 : ℤ) = _
  rw [Nat.cast_pow, Nat.cast_two, ← zpow_natCast, ← zpow_add₀ (by norm_num)]
  norm_num

theorem toRat_maxCoolingRate : toRat maxCoolingRate = 1 - 2 ^ (-52 : ℤ) := by
  have unpacked : maxCoolingRate.toModel.unpack =
      .finite .positive (2 ^ 53 - 2) (-53) (by norm_num) := by rfl
  rw [toRat, unpacked]
  show ((2 ^ 53 - 2 : ℕ) : ℚ) * 2 ^ (-53 : ℤ) = _
  norm_num

namespace Valid

theorem isFinite_coolingRate (valid : c.Valid) : c.coolingRate.isFinite := by
  obtain ⟨positive, admissible⟩ := valid.coolingRate
  have above : 0 < rank c.coolingRate := (lt_iff.mp positive).2.2
  have below : rank c.coolingRate ≤ rank maxCoolingRate := (le_iff.mp admissible).2.2
  have top : rank maxCoolingRate < 2047 * 2 ^ 52 := by decide
  exact isFinite_of_rank_lt (le_iff.mp admissible).1 above.le (by omega)

theorem toRat_coolingRate_le (valid : c.Valid) : toRat c.coolingRate ≤ 1 - 2 ^ (-52 : ℤ) := by
  rw [← toRat_maxCoolingRate]
  exact toRat_le_of_le valid.isFinite_coolingRate (by decide) valid.coolingRate.2

/-- A temperature above the minimum is beyond the smallest normal double. -/
theorem lt_rank (valid : c.Valid) (above : c.minTemperature < t) : 2 ^ 52 < rank t := by
  rw [← rank_minNormal]
  exact (le_iff.mp valid.minTemperature.2).2.2.trans_lt (lt_iff.mp above).2.2

theorem zero_lt (valid : c.Valid) (above : c.minTemperature < t) : 0.0 < t := by
  refine zero_lt_iff.mpr ?_
  have := valid.lt_rank above
  omega

theorem zero_le (valid : c.Valid) (above : c.minTemperature < t) : 0.0 ≤ t :=
  le_of_lt (valid.zero_lt above)

/-- Cooling down takes a temperature at least to the double before it, and not below zero. -/
theorem rank_cooled_lt (valid : c.Valid) (finite : t.isFinite) (above : c.minTemperature < t) :
    0 ≤ rank (t * c.coolingRate) ∧ rank (t * c.coolingRate) < rank t := by
  have lands := rounds_mul finite valid.isFinite_coolingRate
  have number := toRat_nonneg finite (valid.zero_le above)
  have factor := toRat_nonneg valid.isFinite_coolingRate (le_of_lt valid.coolingRate.1)
  obtain ⟨v, canonical, finite_v, before, lower⟩ :=
    exists_before (canonical_unpack t.toModel) finite (valid.lt_rank above)
  constructor
  · exact lands.nonneg (mul_nonneg number factor)
  · have product : toRat t * toRat c.coolingRate ≤ value v := by
      calc toRat t * toRat c.coolingRate ≤ toRat t * (1 - 2 ^ (-52 : ℤ)) :=
            mul_le_mul_of_nonneg_left valid.toRat_coolingRate_le number
        _ ≤ value v := lower
    have below : rank (t * c.coolingRate) ≤ place v := lands.below v canonical finite_v product
    have same : place v = rank t - 1 := before
    omega

theorem isFinite_cooled (valid : c.Valid) (finite : t.isFinite) (above : c.minTemperature < t) :
    (t * c.coolingRate).isFinite := by
  obtain ⟨nonneg, below⟩ := valid.rank_cooled_lt finite above
  have top := rank_lt_of_isFinite finite
  exact isFinite_of_rank_lt (not_isNaN_mul finite valid.isFinite_coolingRate) nonneg (by omega)

/-- Cooling down lowers every temperature above the minimum but infinity. -/
theorem cooled_lt_iff (valid : c.Valid) (above : c.minTemperature < t) :
    t * c.coolingRate < t ↔ t.isFinite := by
  constructor
  · intro lower
    refine Decidable.by_contra fun infinite => ?_
    have top : t = infinity := by
      refine eq_infinity_of_not_lt (lt_iff.mp above).2.1 fun below => infinite ?_
      exact isFinite_of_lt_infinity (valid.zero_le above) below
    rw [top, infinity_mul valid.coolingRate.1 valid.isFinite_coolingRate] at lower
    exact lt_irrefl infinity lower
  · intro finite
    exact lt_iff.mpr ⟨not_isNaN_of_isFinite (valid.isFinite_cooled finite above),
      not_isNaN_of_isFinite finite, (valid.rank_cooled_lt finite above).2⟩

end Valid

/-! ## The temperatures of a schedule -/

/-- The temperature after a number of levels. -/
def temperature (c : Config) : Nat → Float
  | 0 => c.initialTemperature
  | levels + 1 => c.temperature levels * c.coolingRate

/-- A schedule of `steps` levels: so many temperatures are above the minimum, and the next one is
not. -/
structure Schedule (c : Config) (steps : Nat) : Prop where
  above : ∀ i < steps, c.minTemperature < c.temperature i
  reached : c.temperature steps ≤ c.minTemperature

/-- As long as the temperatures are above the minimum, they are finite and their ranks fall. -/
theorem Valid.rank_temperature_le (valid : c.Valid) {levels : Nat}
    (above : ∀ i < levels, c.minTemperature < c.temperature i) :
    (c.temperature levels).isFinite ∧ 0 ≤ rank (c.temperature levels) ∧
      rank (c.temperature levels) + levels ≤ rank c.initialTemperature := by
  induction levels with
  | zero =>
      have positive := valid.lt_rank valid.temperatureOrder
      refine ⟨valid.initialTemperature.1, ?_, ?_⟩ <;> simp only [temperature] <;> omega
  | succ levels ih =>
      obtain ⟨finite, -, bound⟩ := ih fun i before => above i (Nat.lt_succ_of_lt before)
      have last := above levels (Nat.lt_succ_self levels)
      obtain ⟨nonneg, lower⟩ := valid.rank_cooled_lt finite last
      refine ⟨valid.isFinite_cooled finite last, nonneg, ?_⟩
      simp only [temperature]
      omega

theorem Valid.rank_eq_levelBound (valid : c.Valid) : rank c.initialTemperature = c.levelBound := by
  refine rank_eq_toBits ?_
  have := valid.lt_rank valid.temperatureOrder
  omega

theorem Valid.levelBound_lt (valid : c.Valid) : c.levelBound < 2 ^ 63 := by
  have := valid.rank_eq_levelBound
  have := rank_lt_of_isFinite valid.initialTemperature.1
  omega

/-- A valid schedule ends. -/
theorem Valid.exists_schedule (valid : c.Valid) : ∃ steps, c.Schedule steps := by
  classical
  have ends : ∃ levels, ¬c.minTemperature < c.temperature levels := by
    by_contra endless
    simp only [not_exists, not_not] at endless
    -- after so many levels the temperature would be zero
    have bound :=
      (valid.rank_temperature_le fun i (_ : i < c.levelBound) => endless i).2.2
    have large := valid.lt_rank (endless c.levelBound)
    have := valid.rank_eq_levelBound
    omega
  have above (i : Nat) (before : i < Nat.find ends) : c.minTemperature < c.temperature i :=
    not_not.mp (Nat.find_min ends before)
  obtain ⟨finite, -⟩ := valid.rank_temperature_le above
  exact ⟨Nat.find ends, above, le_of_not_lt (not_isNaN_of_isFinite valid.minTemperature.1)
    (not_isNaN_of_isFinite finite) (Nat.find_spec ends)⟩

namespace Schedule

variable {steps : Nat}

theorem isFinite_temperature (schedule : c.Schedule steps) (valid : c.Valid) {levels : Nat}
    (within : levels ≤ steps) : (c.temperature levels).isFinite :=
  (valid.rank_temperature_le fun i before => schedule.above i (by omega)).1

/-- Every temperature of a schedule is below those before it. -/
theorem temperature_lt (schedule : c.Schedule steps) (valid : c.Valid) {i j : Nat} (earlier : i < j)
    (within : j ≤ steps) : c.temperature j < c.temperature i := by
  induction j with
  | zero => exact absurd earlier (Nat.not_lt_zero i)
  | succ j ih =>
      have finite : (c.temperature j).isFinite := schedule.isFinite_temperature valid (by omega)
      have lower : c.temperature (j + 1) < c.temperature j :=
        (valid.cooled_lt_iff (schedule.above j within)).mpr finite
      rcases Nat.lt_succ_iff_lt_or_eq.mp earlier with before | rfl
      · exact lt_of_lt_of_le lower (le_of_lt (ih before (by omega)))
      · exact lower

/-- A schedule has no more levels than there are doubles up to its first temperature. -/
theorem le_levelBound (schedule : c.Schedule steps) (valid : c.Valid) : steps ≤ c.levelBound := by
  obtain ⟨-, nonneg, bound⟩ := valid.rank_temperature_le schedule.above
  have := valid.rank_eq_levelBound
  omega

/-- The temperature is above the minimum until the last level is complete. -/
theorem above_iff (schedule : c.Schedule steps) {levels : Nat} (within : levels ≤ steps) :
    c.minTemperature < c.temperature levels ↔ levels < steps := by
  constructor
  · intro above
    refine Nat.lt_of_le_of_ne within ?_
    rintro rfl
    exact lt_irrefl _ (lt_of_lt_of_le above schedule.reached)
  · exact schedule.above levels

/-- From any level on, those that are left are counted, for every limit that leaves room for
them. -/
theorem levelsFrom_eq (schedule : c.Schedule steps) {levels limit : Nat} (within : levels ≤ steps)
    (enough : steps ≤ levels + limit) :
    c.levelsFrom limit levels (c.temperature levels) = steps := by
  induction limit generalizing levels with
  | zero =>
      show levels = steps
      omega
  | succ limit ih =>
      rw [levelsFrom]
      by_cases going : levels < steps
      · rw [if_pos ((schedule.above_iff within).mpr going)]
        exact ih going (by omega)
      · rw [if_neg (mt (schedule.above_iff within).mp going)]
        omega

theorem levels_eq (schedule : c.Schedule steps) (valid : c.Valid) : c.levels = .ok steps := by
  have counted : c.levelsFrom c.levelBound 0 c.initialTemperature = steps := by
    refine schedule.levelsFrom_eq (Nat.zero_le steps) ?_
    rw [Nat.zero_add]
    exact schedule.le_levelBound valid
  unfold levels
  split
  · rw [counted]
  · rename_i defect found
    rw [defect?_eq_none_iff.mpr valid] at found
    cases found

end Schedule

end Metaheuristics.Annealing.Config

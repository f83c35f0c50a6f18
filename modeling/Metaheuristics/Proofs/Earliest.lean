import Metaheuristics.Restart
import Metaheuristics.Proofs.Binary64.Order

/-!
# The earliest of the lowest

Restarts keep the first of their results with the lowest score. A NaN is no score, but it is below no
number and no number is below it, so it matters whether the first score is one. Collected here:

* the first candidate with the lowest number for a score (`Earliest`), of which there is no second
  (`Earliest.unique`), and how it changes when further candidates follow (`Earliest.push`,
  `Earliest.append`);
* that is what is kept if the first score is a number (`earliest_firstLowest`), and otherwise it is the
  first candidate (`firstLowest_of_isNaN`);
* so restarts from seeds keep the result of the earliest of the best seeds, list by list and in any
  order (`KeepsEarliest`).
-/

namespace Metaheuristics.Restart

open Binary64

variable {α β : Type} {score : α → Float} {x y : α} {xs ys : List α}

/-- The first candidate with the lowest number for a score. A NaN does not count. -/
structure Earliest (score : α → Float) (candidates : List α) (best : α) : Prop where
  number : ¬(score best).isNaN
  first : ∃ before after, candidates = before ++ best :: after ∧
    ∀ x ∈ before, ¬(score x).isNaN → score best < score x
  lower : ∀ x ∈ candidates, ¬(score x).isNaN → score best ≤ score x

namespace Earliest

theorem mem (h : Earliest score xs x) : x ∈ xs := by
  obtain ⟨before, after, rfl, -⟩ := h.first
  exact List.mem_append_right before List.mem_cons_self

theorem single (number : ¬(score x).isNaN) : Earliest score [x] x where
  number := number
  first := ⟨[], [], rfl, nofun⟩
  lower := by
    intro y member _
    rw [List.mem_singleton.mp member]
    exact le_refl number

/-- The best of some candidates stays the best if all that follow are no better. -/
theorem append_of_not_lt (h : Earliest score xs x) (above : ∀ y ∈ ys, ¬score y < score x) :
    Earliest score (xs ++ ys) x := by
  obtain ⟨before, after, order, strict⟩ := h.first
  refine ⟨h.number, ⟨before, after ++ ys, ?_, strict⟩, fun z member counted => ?_⟩
  · rw [order, List.append_assoc, List.cons_append]
  · rcases List.mem_append.mp member with earlier | later
    · exact h.lower z earlier counted
    · -- only of numbers it is true that one is at most the other if it is not above
      exact le_of_not_lt counted h.number (above z later)

/-- The best of those that follow is the best of all if it is better than the best before. -/
theorem append_of_lt (h : Earliest score xs x) (k : Earliest score ys y)
    (below : score y < score x) : Earliest score (xs ++ ys) y := by
  obtain ⟨before, after, order, strict⟩ := k.first
  have lowest : ∀ z ∈ xs, ¬(score z).isNaN → score y < score z :=
    fun z member counted => lt_of_lt_of_le below (h.lower z member counted)
  refine ⟨k.number, ⟨xs ++ before, after, ?_, ?_⟩, fun z member counted => ?_⟩
  · rw [order, List.append_assoc]
  · exact List.forall_mem_append.mpr ⟨lowest, strict⟩
  · rcases List.mem_append.mp member with earlier | later
    · exact le_of_lt (lowest z earlier counted)
    · exact k.lower z later counted

theorem append (h : Earliest score xs x) (k : Earliest score ys y) :
    Earliest score (xs ++ ys) (if score y < score x then y else x) := by
  by_cases below : score y < score x
  · rw [if_pos below]
    exact h.append_of_lt k below
  · rw [if_neg below]
    refine h.append_of_not_lt fun z member lower => ?_
    exact below (lt_of_le_of_lt (k.lower z member (not_isNaN_of_lt lower)) lower)

/-- One more candidate is preferred if it is better, and a NaN never is. -/
theorem push (h : Earliest score xs x) (y : α) :
    Earliest score (xs ++ [y]) (if score y < score x then y else x) := by
  by_cases below : score y < score x
  · rw [if_pos below]
    exact h.append_of_lt (.single (not_isNaN_of_lt below)) below
  · rw [if_neg below]
    exact h.append_of_not_lt (List.forall_mem_singleton.mpr below)

/-- No candidate but the best one stands first among the best. -/
theorem unique (h : Earliest score xs x) (k : Earliest score xs y) : x = y := by
  obtain ⟨before, after, order, strict⟩ := h.first
  obtain ⟨before', after', order', strict'⟩ := k.first
  -- neither stands before the other, where everything is worse than that
  have late : x ∉ before' := by
    intro earlier
    exact lt_irrefl _ (lt_of_lt_of_le (strict' x earlier h.number) (h.lower y k.mem k.number))
  have late' : y ∉ before := by
    intro earlier
    exact lt_irrefl _ (lt_of_lt_of_le (strict y earlier k.number) (k.lower x h.mem h.number))
  rcases List.append_eq_append_iff.mp (order.symm.trans order') with
    ⟨between, split, rest⟩ | ⟨between, split, rest⟩
  · cases between with
    | nil => exact (List.cons.inj rest).1
    | cons z between =>
        obtain rfl := (List.cons.inj rest).1
        exact absurd (split ▸ List.mem_append_right before List.mem_cons_self) late
  · cases between with
    | nil => exact (List.cons.inj rest).1.symm
    | cons z between =>
        obtain rfl := (List.cons.inj rest).1
        exact absurd (split ▸ List.mem_append_right before' List.mem_cons_self) late'

/-- In every order of the candidates the best score is the same. -/
theorem beq_of_perm (h : Earliest score xs x) (k : Earliest score ys y) (same : xs.Perm ys) :
    (score x == score y) = true := by
  have below := le_iff.mp (h.lower y (same.mem_iff.mpr k.mem) k.number)
  have above := le_iff.mp (k.lower x (same.mem_iff.mp h.mem) h.number)
  exact beq_iff.mpr ⟨h.number, k.number, Int.le_antisymm below.2.2 above.2.2⟩

end Earliest

/-! ## Keeping the lowest score -/

/-- What is kept is the earliest of the lowest, if that is what was held at first. -/
theorem Earliest.firstLowest (h : Earliest score xs x) (rest : List α) :
    Earliest score (xs ++ rest) (firstLowest score x rest) := by
  induction rest generalizing xs x with
  | nil =>
      rw [List.append_nil]
      exact h
  | cons y rest ih =>
      rw [List.append_cons]
      exact ih (h.push y)

theorem earliest_firstLowest (score : α → Float) {x : α} (number : ¬(score x).isNaN)
    (rest : List α) : Earliest score (x :: rest) (firstLowest score x rest) :=
  (Earliest.single number).firstLowest rest

/-- Nothing is below a NaN, so one that comes first is kept. -/
theorem firstLowest_of_isNaN (score : α → Float) {x : α} (nan : (score x).isNaN) (rest : List α) :
    firstLowest score x rest = x := by
  induction rest with
  | nil => rfl
  | cons y rest ih =>
      have above : ¬score y < score x := fun below => (lt_iff.mp below).2.1 nan
      rw [firstLowest, if_neg above]
      exact ih

theorem firstLowest_map {score : β → Float} (f : α → β) (x : α) (rest : List α) :
    firstLowest score (f x) (rest.map f) = f (firstLowest (fun y => score (f y)) x rest) := by
  induction rest generalizing x with
  | nil => rfl
  | cons y rest ih => rw [List.map_cons, firstLowest, firstLowest, ← apply_ite f, ih]

/-- A search that always ends with a result is repeated from every seed, and what is kept is its result
from one of them. -/
theorem best_eq_ok {search : UInt64 → Except Fault α} {run : UInt64 → α}
    (searched : ∀ seed, search seed = .ok (run seed)) (seed : UInt64) (seeds : List UInt64) :
    best score search seed seeds =
      .ok (run (firstLowest (fun seed => score (run seed)) seed seeds)) := by
  have others : seeds.mapM search = .ok (seeds.map run) := by
    rw [show search = fun seed => .ok (run seed) from funext searched]
    exact List.mapM_pure
  rw [best, searched, others]
  exact congrArg Except.ok (firstLowest_map run seed seeds)

/-! ## Restarts -/

/-- Restarts that ask for a seed first and then create what is to be repeated. They are refused for want
of a seed, whatever else is wrong, and otherwise if nothing can be created. -/
theorem eq_error_iff {created : Except InputError α} {repeated : α → UInt64 → List UInt64 → β}
    {multi : List UInt64 → Except InputError β} (nothing : multi [] = .error noSeeds)
    (something : ∀ seed seeds,
      multi (seed :: seeds) = created >>= fun a => pure (repeated a seed seeds))
    {seeds : List UInt64} {e : InputError} : multi seeds = .error e ↔
      (seeds = [] ∧ e = noSeeds) ∨ seeds ≠ [] ∧ created = .error e := by
  cases seeds with
  | nil => simp [nothing, eq_comm]
  | cons seed seeds =>
      rw [something]
      cases created with
      | ok a => simp [bind, Except.bind, pure, Except.pure]
      | error refusal => simp [bind, Except.bind]

/-- Restarts that keep the earliest of the best results. The scores of all runs are numbers. -/
structure KeepsEarliest (score : α → Float) (run : UInt64 → α)
    (multi : List UInt64 → Except InputError (Except Fault α)) : Prop where
  number : ∀ seed, ¬(score (run seed)).isNaN
  /-- The result is that of the first of the seeds whose runs have the lowest score. -/
  earliest : ∀ seeds, seeds ≠ [] → ∃ seed, multi seeds = .ok (.ok (run seed)) ∧
    ∃ before after, seeds = before ++ seed :: after ∧
      (∀ x ∈ before, score (run seed) < score (run x)) ∧
      ∀ x ∈ seeds, score (run seed) ≤ score (run x)
  /-- The result for two lists is that of the second one if it is better. -/
  append : ∀ xs ys, xs ≠ [] → ys ≠ [] → ∃ r r', multi xs = .ok (.ok r) ∧ multi ys = .ok (.ok r') ∧
    multi (xs ++ ys) = .ok (.ok (if score r' < score r then r' else r))
  /-- In every order of the seeds the score is the same, but for the sign of a zero. -/
  perm : ∀ xs ys, xs.Perm ys → xs ≠ [] → ∃ r r', multi xs = .ok (.ok r) ∧ multi ys = .ok (.ok r') ∧
    (score r == score r') = true ∧
    (score r = score r' ∨ (score r == 0.0) = true ∧ (score r' == 0.0) = true)

theorem keepsEarliest {run : UInt64 → α} {multi : List UInt64 → Except InputError (Except Fault α)}
    {search : UInt64 → Except Fault α} (number : ∀ seed, ¬(score (run seed)).isNaN)
    (searched : ∀ seed, search seed = .ok (run seed))
    (repeated : ∀ seed seeds, multi (seed :: seeds) = .ok (best score search seed seeds)) :
    KeepsEarliest score run multi := by
  -- that the kept seed is the earliest of the best says all that is claimed, since there is only one
  have chosen (seeds : List UInt64) (some_seed : seeds ≠ []) : ∃ seed,
      multi seeds = .ok (.ok (run seed)) ∧ Earliest (fun x => score (run x)) seeds seed := by
    obtain ⟨seed, seeds, rfl⟩ := List.exists_cons_of_ne_nil some_seed
    refine ⟨_, ?_, earliest_firstLowest (fun x => score (run x)) (number seed) seeds⟩
    rw [repeated, best_eq_ok searched]
  refine ⟨number, ?_, ?_, ?_⟩
  · intro seeds some_seed
    obtain ⟨seed, result, earliest⟩ := chosen seeds some_seed
    obtain ⟨before, after, order, strict⟩ := earliest.first
    refine ⟨seed, result, before, after, order, ?_, ?_⟩
    · intro x member
      exact strict x member (number x)
    · intro x member
      exact earliest.lower x member (number x)
  · intro xs ys some_x some_y
    obtain ⟨x, result_x, earliest_x⟩ := chosen xs some_x
    obtain ⟨y, result_y, earliest_y⟩ := chosen ys some_y
    obtain ⟨z, result_z, earliest_z⟩ := chosen (xs ++ ys) (List.append_ne_nil_of_left_ne_nil some_x ys)
    refine ⟨run x, run y, result_x, result_y, ?_⟩
    rw [result_z, earliest_z.unique (earliest_x.append earliest_y), apply_ite run]
  · intro xs ys same some_x
    have some_y : ys ≠ [] := fun none => some_x (none ▸ same).eq_nil
    obtain ⟨x, result_x, earliest_x⟩ := chosen xs some_x
    obtain ⟨y, result_y, earliest_y⟩ := chosen ys some_y
    have equal := earliest_x.beq_of_perm earliest_y same
    exact ⟨run x, run y, result_x, result_y, equal, eq_or_zero_of_beq equal⟩

end Metaheuristics.Restart

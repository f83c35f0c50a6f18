import Metaheuristics.Proofs.Binary64.Monotone
import Metaheuristics.Proofs.Trails

/-!
# How strong trails become

What is deposited on a trail adds up (`pile`), and it is known for every cell how often a tour
strengthens it (`deposit_cell`): a tour through all cities passes every edge once in each direction at
most, so no cell is strengthened more than twice (`count_touched_le`). Sums and products of doubles that
are not negative grow with their operands. So trails that are bounded before an iteration are bounded
after it (`Within.reinforce`), and a trail that has overflowed stays infinite (`reinforce_infinity`).
-/

namespace Metaheuristics

namespace Trails

open Binary64

variable {n : Nat} {t t' : Trails n} {level amount share rate : Float}

/-! ## Deposits on one trail -/

/-- The strength of a trail after some equal deposits, one after another. -/
def pile (amount : Float) : Nat → Float → Float
  | 0, level => level
  | times + 1, level => pile amount times (level + amount)

theorem pile_add (amount : Float) (k m : Nat) (level : Float) :
    pile amount (k + m) level = pile amount m (pile amount k level) := by
  induction k generalizing level with
  | zero => rw [Nat.zero_add, pile]
  | succ k ih => rw [Nat.add_right_comm, pile, pile, ih]

theorem pile_infinity (nonneg : 0.0 ≤ amount) (times : Nat) :
    pile amount times infinity = infinity := by
  induction times with
  | zero => rfl
  | succ times ih => rw [pile, infinity_add nonneg, ih]

theorem zero_le_add {x y : Float} (nonneg_x : 0.0 ≤ x) (nonneg_y : 0.0 ≤ y) : 0.0 ≤ x + y :=
  le_trans nonneg_x (le_add nonneg_x nonneg_y).1

theorem le_pile (nonneg : 0.0 ≤ amount) (nonneg_level : 0.0 ≤ level) (times : Nat) :
    level ≤ pile amount times level := by
  induction times generalizing level with
  | zero =>
      rw [pile]
      exact le_refl (le_iff.mp nonneg_level).2.1
  | succ times ih =>
      rw [pile]
      exact le_trans (le_add nonneg_level nonneg).1 (ih (zero_le_add nonneg_level nonneg))

/-- More and larger deposits on a stronger trail leave a stronger one. -/
theorem pile_mono {k m : Nat} {x y : Float} (times : k ≤ m) (nonneg : 0.0 ≤ amount)
    (larger : amount ≤ share) (nonneg_x : 0.0 ≤ x) (stronger : x ≤ y) :
    pile amount k x ≤ pile share m y := by
  have nonneg_share := le_trans nonneg larger
  induction k generalizing m x y with
  | zero =>
      rw [pile]
      exact le_trans stronger (le_pile nonneg_share (le_trans nonneg_x stronger) m)
  | succ k ih =>
      obtain ⟨m, rfl⟩ := Nat.exists_eq_succ_of_ne_zero (show m ≠ 0 by omega)
      rw [pile, pile]
      refine ih (by omega) (zero_le_add nonneg_x nonneg) ?_
      exact add_mono nonneg_x nonneg stronger larger

/-! ## Evaporation of one trail -/

/-- No more is kept of a trail than all of it. -/
theorem kept_le_one (some_loss : 0.0 < rate) (some_rest : rate < 1.0) : 1.0 - rate ≤ 1.0 := by
  have one : (1.0 : Float).isFinite := by decide
  exact sub_le one (isFinite_of_le (le_of_lt some_loss) (le_of_lt some_rest) one) (le_of_lt some_loss)

/-- What is kept of a trail is a positive fraction. -/
theorem kept_pos (some_loss : 0.0 < rate) (some_rest : rate < 1.0) :
    0.0 < 1.0 - rate ∧ (1.0 - rate).isFinite := by
  have one : (1.0 : Float).isFinite := by decide
  have finite : rate.isFinite := isFinite_of_le (le_of_lt some_loss) (le_of_lt some_rest) one
  have positive : 0.0 < 1.0 - rate := zero_lt_sub finite one some_rest
  exact ⟨positive, isFinite_of_le (le_of_lt positive) (kept_le_one some_loss some_rest) one⟩

/-- Evaporation leaves a stronger trail the stronger one. -/
theorem fade_mono {x y : Float} (some_loss : 0.0 < rate) (some_rest : rate < 1.0)
    (nonneg : 0.0 ≤ x) (stronger : x ≤ y) (finite : y.isFinite) : fade rate x ≤ fade rate y := by
  obtain ⟨positive, finite_kept⟩ := kept_pos some_loss some_rest
  have product := mul_mono nonneg stronger finite (le_of_lt positive) finite_kept
  unfold fade
  rcases larger_cases (x * (1.0 - rate)) minNormal with same | same
  · rw [same]
    exact le_trans product (le_larger_left (le_iff.mp product).2.1)
  · rw [same]
    exact le_larger (by decide)

theorem fade_infinity (some_loss : 0.0 < rate) (some_rest : rate < 1.0) :
    fade rate infinity = infinity := by
  obtain ⟨positive, finite_kept⟩ := kept_pos some_loss some_rest
  rw [fade, infinity_mul positive finite_kept]
  rfl

theorem minNormal_le_fade (rate level : Float) : minNormal ≤ fade rate level :=
  le_larger (by decide)

/-! ## Deposits of a tour -/

/-- The places of the cells that a tour strengthens, in the order of time. -/
def touched (n : Nat) (tour : Tour) : List Nat :=
  tour.edges.flatMap fun edge => [edge.1 * n + edge.2, edge.2 * n + edge.1]

theorem strengthen_cell {i j : Nat} (done : t.strengthen amount i j = .ok t') {c : Nat}
    (h : c < n * n) : t'.cells[c] = pile amount ([i * n + j].count c) t.cells[c] := by
  unfold strengthen at done
  split at done
  · cases done
    rw [Vector.getElem_set, List.count_singleton]
    by_cases here : i * n + j = c
    · subst here
      simp [pile]
    · simp [here, pile]
  · cases done

/-- A tour strengthens every cell as often as it touches it, and no other one. -/
theorem deposit_cell {tour : Tour} (done : t.deposit tour amount = .ok t') {c : Nat}
    (h : c < n * n) : t'.cells[c] = pile amount ((touched n tour).count c) t.cells[c] := by
  unfold deposit at done
  unfold touched
  -- by induction on the edges that are left, whether or not they make up a tour
  generalize tour.edges = edges at done ⊢
  induction edges generalizing t with
  | nil =>
      cases done
      rfl
  | cons edge edges ih =>
      rw [List.foldlM_cons] at done
      obtain ⟨next, both, later⟩ := exists_of_bind_eq_ok done
      obtain ⟨halfway, once, twice⟩ := exists_of_bind_eq_ok both
      have ways : [edge.1 * n + edge.2, edge.2 * n + edge.1].count c =
          [edge.1 * n + edge.2].count c + [edge.2 * n + edge.1].count c := by
        rw [← List.count_append, List.singleton_append]
      rw [ih later, strengthen_cell twice h, strengthen_cell once h, ← pile_add, ← pile_add,
        List.flatMap_cons, List.count_append, ways, Nat.add_assoc]

/-- A place of the table tells its row. -/
theorem place_div {i j : Nat} (hj : j < n) : (i * n + j) / n = i := by
  rw [Nat.mul_comm, Nat.mul_add_div (by omega), Nat.div_eq_of_lt hj, Nat.add_zero]

/-- A place of the table tells its row and its column. -/
theorem place_inj {i j k l : Nat} (hj : j < n) (hl : l < n) (same : i * n + j = k * n + l) :
    i = k ∧ j = l := by
  have rows : i = k := by rw [← place_div (i := i) hj, same, place_div hl]
  subst rows
  exact ⟨rfl, Nat.add_left_cancel same⟩

/-- Where no row is repeated, no place of the table is. -/
theorem nodup_places {pairs : List (Nat × Nat)} (once : (pairs.map Prod.fst).Nodup)
    (known : ∀ pair ∈ pairs, pair.2 < n) :
    (pairs.map fun pair => pair.1 * n + pair.2).Nodup := by
  -- the row of a place is its quotient by the width
  refine List.Nodup.of_map (· / n) ?_
  have rows : (pairs.map fun pair => pair.1 * n + pair.2).map (· / n) = pairs.map Prod.fst := by
    rw [List.map_map]
    exact List.map_congr_left fun pair member => place_div (known pair member)
  rw [rows]
  exact once

/-- Up to their order in time, the places that a tour touches are those of its edges in one direction
and those of its edges in the other. -/
theorem touched_perm (n : Nat) (tour : Tour) :
    (touched n tour).Perm ((tour.edges ++ tour.edges.map Prod.swap).map fun edge =>
      edge.1 * n + edge.2) := by
  have ways := (List.map_append_flatMap_perm tour.edges (fun edge => edge.1 * n + edge.2)
    fun edge => [edge.2 * n + edge.1]).symm
  rw [← List.map_eq_flatMap] at ways
  rw [List.map_append, List.map_map]
  exact ways

/-- A tour through all cities strengthens no cell more than twice, once on the way there and once on
the way back. -/
theorem count_touched_le {tour : Tour} (visits : tour.Perm (List.range n)) (c : Nat) :
    (touched n tour).count c ≤ 2 := by
  have once : tour.Nodup := Tour.nodup_of_visits visits
  have known := Tour.lt_of_visits visits
  have there : (tour.edges.map fun edge => edge.1 * n + edge.2).Nodup := by
    refine nodup_places ?_ fun edge member => known _ (Tour.mem_of_mem_edges member).2
    rw [tour.map_fst_edges]
    exact once
  have back : ((tour.edges.map Prod.swap).map fun edge => edge.1 * n + edge.2).Nodup := by
    refine nodup_places ?_ fun edge member => ?_
    · rw [List.map_map]
      exact tour.map_snd_edges_perm.nodup_iff.mpr once
    · obtain ⟨turned, left, rfl⟩ := List.mem_map.mp member
      exact known _ (Tour.mem_of_mem_edges left).1
  rw [(touched_perm n tour).count_eq, List.map_append, List.count_append]
  exact Nat.add_le_add (List.nodup_iff_count_le_one.mp there c) (List.nodup_iff_count_le_one.mp back c)

/-! ## Bounds -/

/-- All trails are numbers from zero up to a level. -/
def Within (t : Trails n) (level : Float) : Prop := ∀ x ∈ t.toList, 0.0 ≤ x ∧ x ≤ level

theorem getElem_mem_toList (t : Trails n) {c : Nat} (h : c < n * n) : t.cells[c] ∈ t.toList :=
  Vector.mem_toList_iff.mpr (Vector.getElem_mem h)

theorem exists_getElem_of_mem {x : Float} (member : x ∈ t.toList) :
    ∃ (c : Nat) (h : c < n * n), t.cells[c] = x :=
  Vector.getElem_of_mem (Vector.mem_toList_iff.mp member)

namespace Within

theorem evaporate (h : t.Within level) (some_loss : 0.0 < rate) (some_rest : rate < 1.0)
    (finite : level.isFinite) : (t.evaporate rate).Within (fade rate level) := by
  intro x member
  rw [toList_evaporate] at member
  obtain ⟨old, before, rfl⟩ := List.mem_map.mp member
  obtain ⟨nonneg, bound⟩ := h old before
  refine ⟨le_trans (by decide) (minNormal_le_fade rate old), ?_⟩
  exact fade_mono some_loss some_rest nonneg bound finite

theorem deposit (h : t.Within level) {tour : Tour} (visits : tour.Perm (List.range n))
    (nonneg : 0.0 ≤ amount) (bound : amount ≤ share) (done : t.deposit tour amount = .ok t') :
    t'.Within (pile share 2 level) := by
  intro x member
  obtain ⟨c, below, rfl⟩ := exists_getElem_of_mem member
  obtain ⟨old_nonneg, old_bound⟩ := h _ (t.getElem_mem_toList below)
  rw [deposit_cell done below]
  refine ⟨le_trans old_nonneg (le_pile nonneg old_nonneg _), ?_⟩
  exact pile_mono (count_touched_le visits c) nonneg bound old_nonneg old_bound

/-- If no tour deposits more than a share, an iteration adds at most two shares for every tour to what
is left of a trail. -/
theorem reinforce (h : t.Within level) (some_loss : 0.0 < rate) (some_rest : rate < 1.0)
    (finite : level.isFinite) {q : Float} {tours : List (Tour × Float)}
    (shares : ∀ tour ∈ tours, tour.1.Perm (List.range n) ∧ 0.0 ≤ q / tour.2 ∧ q / tour.2 ≤ share)
    (done : t.reinforce rate q tours = .ok t') :
    t'.Within (pile share (2 * tours.length) (fade rate level)) := by
  have start := h.evaporate some_loss some_rest finite
  unfold Trails.reinforce at done
  -- any trails within any bound, since both change from tour to tour
  generalize t.evaporate rate = left at start done
  generalize fade rate level = faded at start ⊢
  induction tours generalizing left faded with
  | nil =>
      cases done
      exact start
  | cons tour tours ih =>
      obtain ⟨⟨visits, nonneg, bound⟩, others⟩ := List.forall_mem_cons.mp shares
      rw [List.foldlM_cons] at done
      obtain ⟨next, deposited, later⟩ := exists_of_bind_eq_ok done
      rw [List.length_cons, Nat.mul_add, Nat.mul_one, Nat.add_comm, pile_add]
      exact ih others next later _ (start.deposit visits nonneg bound deposited)

end Within

/-- A trail that has overflowed stays infinite, since what evaporates of it leaves infinity. -/
theorem reinforce_infinity (some_loss : 0.0 < rate) (some_rest : rate < 1.0) {q : Float}
    {tours : List (Tour × Float)} (shares : ∀ tour ∈ tours, 0.0 ≤ q / tour.2)
    (done : t.reinforce rate q tours = .ok t') {c : Nat} (h : c < n * n)
    (overflow : t.cells[c] = infinity) : t'.cells[c] = infinity := by
  refine foldlM_keeps (P := fun t => t.cells[c] = infinity)
    (fun tour member before after kept deposited => ?_) ?_ done
  · rw [deposit_cell deposited h, kept, pile_infinity (shares tour member)]
  · show (t.cells.map (fade rate))[c] = infinity
    rw [Vector.getElem_map, overflow, fade_infinity some_loss some_rest]

end Trails

end Metaheuristics

import Metaheuristics.Proofs.Colony.Strength
import Metaheuristics.Proofs.Passes

/-!
# Trails lead both ways

A tour strengthens every edge in both directions, and evaporation treats all trails alike. So the trail
from one city to another is always the same double as the trail back, although sums of doubles depend on
their order. Collected here:

* a tour touches two opposite cells equally often, also if it repeats cities or stays in one
  (`count_touched_opposite`), so that equal deposits are piled up on both;
* hence whatever is done to trails that are alike in both directions leaves them so
  (`Symmetric.evaporate`, `Symmetric.deposit`, `Symmetric.reinforce`), and so do all changes to new
  trails, one after another (`changed_symmetric`), and all iterations of a colony
  (`Iterations.symmetric`).
-/

namespace Metaheuristics

variable {n : Nat}

namespace Trails

variable {t t' : Trails n} {rate q amount : Float}

/-- The trail from one city to another is the same double as the trail back. -/
def Symmetric (t : Trails n) : Prop :=
  ∀ i j, i < n → j < n → ∃ x, t.read i j = .ok x ∧ t.read j i = .ok x

theorem symmetric_iff : t.Symmetric ↔ ∀ i j, i < n → j < n →
    ∀ (there : i * n + j < n * n) (back : j * n + i < n * n),
      t.cells[i * n + j] = t.cells[j * n + i] := by
  constructor
  · intro symmetric i j hi hj there back
    obtain ⟨x, one, other⟩ := symmetric i j hi hj
    rw [t.read_of_lt there] at one
    rw [t.read_of_lt back] at other
    exact (Except.ok.inj one).trans (Except.ok.inj other).symm
  · intro same i j hi hj
    have there := SquareTable.place_lt hi hj
    have back := SquareTable.place_lt hj hi
    refine ⟨t.cells[i * n + j], t.read_of_lt there, ?_⟩
    rw [same i j hi hj there back]
    exact t.read_of_lt back

theorem uniform_symmetric (n : Nat) (level : Float) : (uniform n level).Symmetric := by
  refine symmetric_iff.mpr fun i j hi hj there back => ?_
  show (Vector.replicate (n * n) level)[i * n + j] = (Vector.replicate (n * n) level)[j * n + i]
  rw [Vector.getElem_replicate, Vector.getElem_replicate]

/-- A tour touches the cells of both directions equally often. -/
theorem count_touched_opposite {tour : Tour} (known : ∀ city ∈ tour, city < n) {i j : Nat}
    (hi : i < n) (hj : j < n) :
    (touched n tour).count (i * n + j) = (touched n tour).count (j * n + i) := by
  rw [count_touched known hj, count_touched known hi, Tour.deposits, Tour.deposits, Nat.add_comm]

namespace Symmetric

theorem evaporate (h : t.Symmetric) (rate : Float) : (t.evaporate rate).Symmetric := by
  refine symmetric_iff.mpr fun i j hi hj there back => ?_
  show (t.cells.map (fade rate))[i * n + j] = (t.cells.map (fade rate))[j * n + i]
  rw [Vector.getElem_map, Vector.getElem_map, symmetric_iff.mp h i j hi hj there back]

theorem deposit (h : t.Symmetric) {tour : Tour} (known : ∀ city ∈ tour, city < n)
    (done : t.deposit tour amount = .ok t') : t'.Symmetric := by
  refine symmetric_iff.mpr fun i j hi hj there back => ?_
  rw [deposit_cell done there, deposit_cell done back, count_touched_opposite known hi hj,
    symmetric_iff.mp h i j hi hj there back]

theorem reinforce (h : t.Symmetric) {tours : List (Tour × Float)}
    (known : ∀ tour ∈ tours, ∀ city ∈ tour.1, city < n)
    (done : t.reinforce rate q tours = .ok t') : t'.Symmetric :=
  foldlM_keeps (P := Symmetric)
    (fun tour member _ _ kept deposited => kept.deposit (known tour member) deposited)
    (h.evaporate rate) done

end Symmetric

/-! ## Any changes -/

/-- What can be done to trails. -/
inductive Change where
  | evaporate (rate : Float)
  | deposit (tour : Tour) (amount : Float)
  | reinforce (rate q : Float) (tours : List (Tour × Float))

/-- All cities of the tours are below a number. -/
def Change.Known (n : Nat) : Change → Prop
  | .evaporate _ => True
  | .deposit tour _ => ∀ city ∈ tour, city < n
  | .reinforce _ _ tours => ∀ tour ∈ tours, ∀ city ∈ tour.1, city < n

instance (n : Nat) : ∀ change : Change, Decidable (change.Known n)
  | .evaporate _ => inferInstanceAs (Decidable True)
  | .deposit tour _ => inferInstanceAs (Decidable (∀ city ∈ tour, city < n))
  | .reinforce _ _ tours => inferInstanceAs (Decidable (∀ tour ∈ tours, ∀ city ∈ tour.1, city < n))

/-- Changes trails. -/
def Change.apply (t : Trails n) : Change → Except Fault (Trails n)
  | .evaporate rate => .ok (t.evaporate rate)
  | .deposit tour amount => t.deposit tour amount
  | .reinforce rate q tours => t.reinforce rate q tours

/-- Changes trails again and again. -/
def changed (t : Trails n) (changes : List Change) : Except Fault (Trails n) :=
  changes.foldlM Change.apply t

theorem Change.apply_symmetric {change : Change} (known : change.Known n) (h : t.Symmetric) :
    ∃ t', change.apply t = .ok t' ∧ t'.Symmetric := by
  cases change with
  | evaporate rate => exact ⟨_, rfl, h.evaporate rate⟩
  | deposit tour amount =>
      obtain ⟨t', done⟩ := t.deposit_ok amount known
      exact ⟨t', done, h.deposit known done⟩
  | reinforce rate q tours =>
      obtain ⟨t', done⟩ := t.reinforce_ok rate q known
      exact ⟨t', done, h.reinforce known done⟩

theorem changed_symmetric (h : t.Symmetric) {changes : List Change}
    (known : ∀ change ∈ changes, change.Known n) :
    ∃ t', t.changed changes = .ok t' ∧ t'.Symmetric :=
  foldlM_ok (fun change member _ kept => change.apply_symmetric (known change member) kept) h

end Trails

/-! ## Colonies -/

namespace Colony

variable {σ : Type} [WordSource σ]

/-- Iterations leave trails that are alike in both directions so, whatever the distances are. -/
theorem Iterations.symmetric {c c' : Colony n} {batches : List (List Trip)}
    (through : Iterations σ c batches c') (h : c.trails.Symmetric) : c'.trails.Symmetric := by
  induction through with
  | none => exact h
  | more iterated rest ih =>
      refine ih (h.reinforce (fun tour member => ?_) iterated.reinforced)
      obtain ⟨trip, sent, rfl⟩ := List.mem_map.mp member
      exact Tour.lt_of_visits (iterated.valid trip sent).visits

/-- Evaporation, deposits and iterations never make a difference between the two directions of an edge,
be the rates and the amounts what they may. New trails keep this through any changes by tours of known
cities, and a new colony keeps it through any runs, however they are stopped. -/
theorem trails_stay_symmetric :
    (∀ (n : Nat) (level : Float) (changes : List Trails.Change),
      (∀ change ∈ changes, change.Known n) →
        ∃ t, (Trails.uniform n level).changed changes = .ok t ∧ t.Symmetric) ∧
    ∀ (n : Nat) (d : Distances n) (config : Config) (c : Colony n), create d config = .ok c →
      ∀ (stops : List (Nat → σ → Bool)) (s : σ),
        (¬config.Fits ∧ stops ≠ [] ∧
          ∃ count bytes, runs stops c s = .error (.noRoom count bytes)) ∨
        ∃ results c' t, runs stops c s = .ok ((results, c'), t) ∧
          results.length = stops.length ∧ c'.trails.Symmetric := by
  constructor
  · intro n level changes known
    exact Trails.changed_symmetric (Trails.uniform_symmetric n level) known
  · intro n d config c created stops s
    obtain ⟨rfl, -, trails, -⟩ := parts_of_created created
    rcases c.runs_cases stops s with refused | ⟨js, c', t, -, ran, count, sequel⟩
    · exact .inl refused
    · refine .inr ⟨js.map Journal.result, c', t, ran, by rw [List.length_map, count], ?_⟩
      refine sequel.iterations.symmetric ?_
      rw [trails]
      exact Trails.uniform_symmetric n _

/-- Changes between three cities. Their tours go back and forth, stay in a city and repeat edges, and
what they deposit is infinite once and once a NaN. -/
def detours : List Trails.Change :=
  [.deposit [0, 1, 1, 2, 1] 0.1, .evaporate 1.5, .reinforce 0.3 1.0 [([2, 2, 0], 3.0), ([0, 1], 0.0)],
    .deposit [2] (0.0 / 0.0)]

/-- The trails stay alike in both directions, and so do those of a colony to which the distances are not
alike, in a cancelled run and a complete one. -/
theorem detours_stay_symmetric :
    (∀ change ∈ detours, change.Known 3) ∧
    (∃ t, (Trails.uniform 3 0.7).changed detours = .ok t ∧ t.Symmetric) ∧
    create faint.distances faint.config = .ok faint ∧ faint.distances.read 0 1 = .ok 3.0 ∧
    faint.distances.read 1 0 = .ok 5.0 ∧ ∃ results c' t,
      runs [fun _ _ => true, fun _ _ => false] faint (⟨#[6, 28], 0⟩ : Script) =
        .ok ((results, c'), t) ∧ results.length = 2 ∧ c'.trails.Symmetric := by
  have known : ∀ change ∈ detours, change.Known 3 := by decide
  have created : create faint.distances faint.config = .ok faint := by rfl
  have fits : faint.config.Fits := ⟨by decide, by decide⟩
  obtain ⟨changes, colonies⟩ := trails_stay_symmetric (σ := Script)
  refine ⟨known, changes 3 0.7 detours known, created, rfl, rfl, ?_⟩
  rcases colonies 2 _ _ faint created [fun _ _ => true, fun _ _ => false] ⟨#[6, 28], 0⟩ with
    refused | symmetric
  · exact absurd fits refused.1
  · exact symmetric

end Colony

end Metaheuristics

import Metaheuristics.Binary64
import Metaheuristics.Room
import Metaheuristics.SquareTable
import Metaheuristics.Tour

/-!
# Trails

The pheromone that ants leave on the edges between cities. Evaporation lowers every trail, but not
below the smallest normal double; a tour strengthens its edges in both directions.
-/

namespace Metaheuristics

/-- The pheromone on every edge between `n` cities. -/
structure Trails (n : Nat) extends SquareTable n

namespace Trails

variable {n : Nat}

/-- Trails that are equally strong everywhere. -/
def uniform (n : Nat) (level : Float) : Trails n := ⟨SquareTable.uniform n level⟩

/-- New trails between `n` cities, equally strong everywhere, if there is room for them. -/
def create (n : Nat) (level : Float) : Except Fault (Trails n) := do
  Room.reserve (n * n) Room.doubleBytes
  return uniform n level

theorem create_of_holds {level : Float} (h : Room.Holds (n * n) Room.doubleBytes) :
    create n level = .ok (uniform n level) := by
  rw [create, Room.reserve_of_holds h]; rfl

/-- The weakest trail; positive infinity if there are none. -/
def weakest (t : Trails n) : Float := t.toList.foldl Binary64.smaller Binary64.infinity

/-- Lowers a single trail by the fraction `rate`, but not below the smallest normal double. -/
def fade (rate level : Float) : Float :=
  Binary64.larger (level * (1.0 - rate)) Binary64.minNormal

/-- Lowers every trail by the fraction `rate`. -/
def evaporate (t : Trails n) (rate : Float) : Trails n := ⟨⟨t.cells.map (fade rate)⟩⟩

theorem toList_evaporate (t : Trails n) (rate : Float) :
    (t.evaporate rate).toList = t.toList.map (fade rate) :=
  Vector.toList_map

/-- Strengthens the trail from city `i` to city `j`. -/
def strengthen (t : Trails n) (amount : Float) (i j : Nat) : Except Fault (Trails n) :=
  if h : i * n + j < n * n then
    .ok ⟨⟨t.cells.set (i * n + j) (t.cells[i * n + j] + amount)⟩⟩
  else
    .error (.outOfBounds (i * n + j) (n * n))

/-- Strengthens both directions of every edge of a closed tour. -/
def deposit (t : Trails n) (tour : Tour) (amount : Float) : Except Fault (Trails n) :=
  tour.edges.foldlM
    (fun t edge => do
      let t ← t.strengthen amount edge.1 edge.2
      t.strengthen amount edge.2 edge.1)
    t

/-- Evaporates once and then lets every tour deposit `q` over its length. -/
def reinforce (t : Trails n) (rate q : Float) (tours : List (Tour × Float)) :
    Except Fault (Trails n) :=
  tours.foldlM (fun t tour => t.deposit tour.1 (q / tour.2)) (t.evaporate rate)

end Trails

end Metaheuristics

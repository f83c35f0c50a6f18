/-!
# Points and objectives

The search space is the plane. An objective gives every point a value, and lower is better.
-/

namespace Metaheuristics.Annealing

/-- A function of the two coordinates of a point. -/
abbrev Objective : Type := Float → Float → Float

/-- A point of the plane with the value of an objective there. -/
structure Point where
  /-- The first coordinate. -/
  x : Float
  /-- The second coordinate. -/
  y : Float
  /-- The value of the objective. -/
  value : Float

/-- The point at the given coordinates. -/
def Objective.at (f : Objective) (x y : Float) : Point := ⟨x, y, f x y⟩

/-- The inverse of a paraboloid. It is 1 at the origin and falls towards 0 in every direction. -/
def inverseParaboloid : Objective := fun x y => 1.0 / (1.0 + x * x + y * y)

end Metaheuristics.Annealing

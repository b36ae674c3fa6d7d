import Octagon.Links

/-!
The walk back along links with a mark for every vertex, and with no limit to its length. A turn
marks the vertex where the walk is and goes back by its link. The walk is over where a vertex is
marked already, and where one has no link.
-/

namespace Octagon

/-- The state between two turns. -/
structure MarkedWalk (n : Nat) where
  visited : VertexMap n Bool
  current : Fin n

namespace MarkedWalk

variable {n : Nat}

/-- Nothing is marked. -/
def start (last : Fin n) : MarkedWalk n := ⟨.const n false, last⟩

/-- One turn, unless the vertex is marked already or has no link. -/
def step (links : Links n) (s : MarkedWalk n) : Option (MarkedWalk n) :=
  if s.visited s.current then none
  else (links s.current).map fun u => ⟨s.visited.set s.current true, u⟩

/-- The cycle that a walk back from `last` shows where it is over. -/
def cycle (links : Links n) (last : Fin n) (s : MarkedWalk n) : Except LinkError (List (Fin n)) :=
  if s.visited s.current then links.trace s.current s.current
  else .error (.acyclic last s.current)

end MarkedWalk

end Octagon

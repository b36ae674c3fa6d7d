import Octagon.VertexMap

/-!
Directed graphs on the vertices `Fin n`, given by the successors of each vertex. A vertex may be its
own successor, or be listed more than once.
-/

namespace Octagon

/-- A directed graph on `n` vertices. -/
structure Digraph (n : Nat) where
  /-- For each vertex the targets of the arcs that leave it, in order. -/
  next : VertexMap n (List (Fin n))

end Octagon

import Octagon.Digraph.Basic
import Octagon.Links

/-!
Paths of fewest arcs, found layer by layer from the source. A vertex is linked to the vertex that it
was first reached from; within a layer, vertices are taken in the order in which they were reached
and their successors in order.
-/

namespace Octagon

/-- A layer under construction: the links made so far, and the vertices that they reached new. -/
structure Layer (n : Nat) where
  parents : VertexMap n (Option (Fin n))
  reached : List (Fin n)

namespace Layer

variable {n : Nat}

/-- Links `v` to `u` unless it was reached before. -/
def reach (source u : Fin n) (layer : Layer n) (v : Fin n) : Layer n :=
  if v = source ∨ (layer.parents v).isSome then layer
  else ⟨layer.parents.set v (some u), layer.reached ++ [v]⟩

/-- Reaches the successors of `u`. -/
def expand (g : Digraph n) (source : Fin n) (layer : Layer n) (u : Fin n) : Layer n :=
  (g.next u).foldl (reach source u) layer

end Layer

namespace Digraph

variable {n : Nat}

/-- Adds that many layers, the first of them from the vertices of `frontier`. -/
def grow (g : Digraph n) (source : Fin n) :
    Nat → List (Fin n) → VertexMap n (Option (Fin n)) → VertexMap n (Option (Fin n))
  | 0, _, parents => parents
  | _ + 1, [], parents => parents
  | layers + 1, frontier, parents =>
    let layer := frontier.foldl (Layer.expand g source) ⟨parents, []⟩
    g.grow source layers layer.reached layer.parents

/-- For each vertex that can be reached from `source` the vertex it was first reached from. -/
def breadthFirst (g : Digraph n) (source : Fin n) : VertexMap n (Option (Fin n)) :=
  g.grow source n [source] (.const n none)

/-- A path of fewest arcs between two different vertices. -/
def path (g : Digraph n) (source target : Fin n) : Except LinkError (List (Fin n)) :=
  if source = target then .error .sameEnds
  else (Links.ofMap (g.breadthFirst source)).trace source target

end Digraph

end Octagon

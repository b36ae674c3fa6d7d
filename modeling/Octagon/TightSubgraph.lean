import Octagon.Digraph.Basic
import Octagon.ShortestPath

/-!
The tight arcs of a network under shortest distances: those whose weight is the difference between
the distances of their ends. Only tight arcs lie on a cycle of weight 0. The vertices that take part
are numbered anew, in the order in which the arcs mention them. Arcs that leave the root are left
out: nothing leads into the root, so they lie on no cycle.

Paths under which arcs are tight have an entry for each vertex of the network, and no others: both
have the number of vertices in their type. There is no network whose tight arcs are asked for under
paths of another size, so nothing here refuses one.
-/

namespace Octagon

/-- Some of the arcs between `n` vertices, with the `size` vertices at their ends renumbered. -/
structure TightSubgraph (w : Width) (ρ : Type) (n : Nat) where
  size : Nat
  /-- The vertex that a number stands for. -/
  members : VertexMap size (Fin n)
  /-- The number of a vertex that takes part. -/
  number : VertexMap n (Option (Fin size))
  /-- The arcs, in order. -/
  arcs : List (Arc w ρ size)

/-- Whether the distances of the ends of `a` differ by its weight. -/
def Arc.isTight {w : Width} {ρ : Type} {n : Nat} (a : Arc w ρ n) (paths : Paths w n) : Bool :=
  (paths.distance a.target).sub? (paths.distance a.source) == some a.weight

namespace TightSubgraph

variable {w : Width} {ρ : Type} {n : Nat}

/-- The arc with its ends renumbered, where both have a number. -/
def renumber {size : Nat} (number : VertexMap n (Option (Fin size))) (a : Arc w ρ n) :
    Option (Arc w ρ size) := do
  return ⟨← number a.source, ← number a.target, a.weight, a.reason⟩

/-- The subgraph of all the given arcs. -/
def ofArcs (arcs : List (Arc w ρ n)) : TightSubgraph w ρ n :=
  let members := (arcs.flatMap fun a => [a.source, a.target]).eraseDups
  let number := VertexMap.ofFn fun v => members.finIdxOf? v
  ⟨members.length, .ofFn members.get, number, arcs.filterMap (renumber number)⟩

/-- The successors along the arcs. -/
def digraph (sub : TightSubgraph w ρ n) : Digraph sub.size :=
  ⟨.ofFn fun v => (sub.arcs.filter (·.source == v)).map Arc.target⟩

end TightSubgraph

/-- The tight subgraph under shortest paths. -/
def Network.tightSubgraph {w : Width} {ρ : Type} {n : Nat} (net : Network w ρ n)
    (paths : Paths w (n + 1)) : TightSubgraph w ρ (n + 1) :=
  .ofArcs (net.arcs.filter fun a => a.source != Network.root n && a.isTight paths)

end Octagon

import Octagon.Graph.Basic

/-!
Networks: what a search needs of a graph, with every vertex known to exist. The vertices of a
network are `Fin (n + 1)`, where vertex 0 is the root. Beside its arcs a network lists the variables
that have a vertex for each of their two occurrences.
-/

namespace Octagon

/-- An edge between two of `n` vertices. -/
structure Arc (w : Width) (ρ : Type) (n : Nat) where
  source : Fin n
  target : Fin n
  weight : Weight w
  reason : Option ρ

/-- The reasons of the arcs along a walk, in order. -/
def Arc.reasonsAlong {w : Width} {ρ : Type} {n : Nat} (arcs : List (Arc w ρ n))
    (walk : List (Fin n)) : List ρ :=
  (walk.zip walk.tail).flatMap fun (source, target) =>
    ((arcs.find? fun a => a.source == source && a.target == target).bind Arc.reason).toList

/-- A variable with the vertices of its two occurrences. -/
structure Split (n : Nat) where
  var : Variable
  positive : Fin n
  negative : Fin n

/-- The arcs between a root and `n` further vertices, and the variables split among these. -/
structure Network (w : Width) (ρ : Type) (n : Nat) where
  /-- In the order of the edges. -/
  arcs : List (Arc w ρ (n + 1))
  /-- By ascending vertex of the positive occurrence. -/
  splits : List (Split (n + 1))

/-- The vertex that all paths start from. -/
def Network.root (n : Nat) : Fin (n + 1) := ⟨Octagon.root, Nat.succ_pos n⟩

namespace Graph

variable {w : Width} {ρ : Type}

/-- The vertex as one that is known to exist. -/
def existing (g : Graph w ρ) (v : Vertex) : Except IndexError (Fin (g.occurrences.size + 1)) :=
  if h : v < g.occurrences.size + 1 then .ok ⟨v, h⟩ else .error ⟨g.numVertices, v⟩

/-- The edge as an arc between vertices that are known to exist. -/
def arc (g : Graph w ρ) (e : Edge w ρ) : Except IndexError (Arc w ρ (g.occurrences.size + 1)) := do
  return ⟨← g.existing e.source, ← g.existing e.target, e.weight, e.reason⟩

/-- The vertices of positive occurrences in order, each with its variable and the vertex of the
negated occurrence; left out where that is not registered. -/
def opposites (g : Graph w ρ) : List (Variable × Fin (g.occurrences.size + 1) × Vertex) :=
  (List.finRange g.occurrences.size).filterMap fun i => do
    let o ← g.occurrences[i.val]?
    match o.polarity with
    | .positive => return (o.var, i.succ, ← g.vertex? o.negate)
    | .negative => none

/-- The variable as one split between vertices that are known to exist. -/
def split (g : Graph w ρ) : Variable × Fin (g.occurrences.size + 1) × Vertex →
    Except IndexError (Split (g.occurrences.size + 1))
  | (x, positive, v) => do return ⟨x, positive, ← g.existing v⟩

/-- The network of the graph. -/
def network (g : Graph w ρ) : Except IndexError (Network w ρ g.occurrences.size) := do
  let arcs ← g.edges.toList.mapM g.arc
  let splits ← g.opposites.mapM g.split
  return ⟨arcs, splits⟩

end Graph

end Octagon

import Octagon.Digraph.Basic

/-!
Strongly connected components, found by one depth-first search. Vertices are numbered as they are
reached and stay active until their component is closed. A visit returns the lowest number of an
active vertex that it met; where that is the number of the visited vertex itself, the vertices that
became active since then and still are form a component. Components are labelled from 0 on in the
order in which they are closed, so no arc leads to a higher label.
-/

namespace Octagon

/-- How far the search has come with a vertex. -/
inductive Mark where
  | fresh
  | active (number : Nat)
  | closed (label : Nat)
  deriving DecidableEq

/-- The state of the search. -/
structure DepthFirst (n : Nat) where
  marks : VertexMap n Mark
  /-- The active vertices, the last one reached first. -/
  active : List (Fin n)
  /-- The number of vertices reached. -/
  reached : Nat
  /-- The number of components closed. -/
  closed : Nat

/-- The partition of `n` vertices into labelled components. -/
structure Components (n : Nat) where
  labels : VertexMap n Nat
  count : Nat

namespace DepthFirst

variable {n : Nat}

/-- Nothing is reached yet. -/
def start (n : Nat) : DepthFirst n := ⟨.const n .fresh, [], 0, 0⟩

/-- Numbers `v` and makes it active. -/
def enter (s : DepthFirst n) (v : Fin n) : DepthFirst n :=
  { s with
    marks := s.marks.set v (.active s.reached)
    active := v :: s.active
    reached := s.reached + 1 }

/-- Closes the component of the active vertices down to `v`. -/
def close (s : DepthFirst n) (v : Fin n) : DepthFirst n :=
  let members := s.active.takeWhile (· != v) ++ [v]
  { s with
    marks := members.foldl (fun marks u => marks.set u (.closed s.closed)) s.marks
    active := (s.active.dropWhile (· != v)).tail
    closed := s.closed + 1 }

/-- Looks at the successor `u` of a vertex, and visits it if it is fresh; `low` is the lowest number
met so far. -/
def look (visit : Fin n → DepthFirst n → Nat × DepthFirst n) :
    Nat × DepthFirst n → Fin n → Nat × DepthFirst n
  | (low, s), u => match s.marks u with
    | .fresh =>
      let (found, s) := visit u s
      (min low found, s)
    | .active found => (min low found, s)
    | .closed _ => (low, s)

/-- Visits `v` and what is reached from it first. Every nested visit enters a fresh vertex, so `n`
levels are enough. -/
def visit (g : Digraph n) : Nat → Fin n → DepthFirst n → Nat × DepthFirst n
  | 0, _, s => (s.reached, s)
  | levels + 1, v, s =>
    let number := s.reached
    let (low, s) := (g.next v).foldl (look (visit g levels)) (number, s.enter v)
    if low = number then (low, s.close v) else (low, s)

/-- Visits `v` unless it was reached before. -/
def cover (g : Digraph n) (s : DepthFirst n) (v : Fin n) : DepthFirst n :=
  match s.marks v with
  | .fresh => (visit g n v s).2
  | _ => s

end DepthFirst

/-- The label of a vertex that the search is done with. -/
def Mark.label : Mark → Nat
  | .closed label => label
  | _ => 0

/-- The strongly connected components. -/
def Digraph.components {n : Nat} (g : Digraph n) : Components n :=
  let s := (List.finRange n).foldl (DepthFirst.cover g) (DepthFirst.start n)
  ⟨s.marks.map Mark.label, s.closed⟩

namespace Components

variable {n : Nat}

/-- Whether two vertices are in one component. -/
def same (c : Components n) (u v : Fin n) : Bool := c.labels u == c.labels v

/-- Whether every component is a single vertex, so that no cycle passes through two. -/
def allSingle (c : Components n) : Bool := c.count == n

end Components

end Octagon

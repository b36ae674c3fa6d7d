import Octagon.Digraph.BreadthFirst

/-!
The search for a path with one queue in place of layers, and no further than to its target. A turn
takes the first vertex out of the queue and looks at its successors in order. One that was not
discovered before is marked, linked to the vertex, and put at the end of the queue; the target ends
the search at once, even if the vertex has further successors. So every vertex is in the queue once
at most, and what is discovered depends on the target.
-/

namespace Octagon

/-- The state between two turns. -/
structure QueueSearch (n : Nat) where
  parents : VertexMap n (Option (Fin n))
  discovered : VertexMap n Bool
  /-- The vertices whose successors are yet to be looked at. -/
  queue : List (Fin n)
  /-- Whether the target was discovered. -/
  found : Bool

namespace QueueSearch

variable {n : Nat}

/-- Only the source is discovered. -/
def start (source : Fin n) : QueueSearch n :=
  ⟨.const n none, (VertexMap.const n false).set source true, [source], false⟩

/-- Marks `v` and links it to `u`. -/
def discover (s : QueueSearch n) (u v : Fin n) : QueueSearch n :=
  { s with
    parents := s.parents.set v (some u)
    discovered := s.discovered.set v true }

/-- Looks at successors of `u` in order, until one is the target. -/
def scan (target u : Fin n) : List (Fin n) → QueueSearch n → QueueSearch n
  | [], s => s
  | v :: vs, s =>
    if s.discovered v then scan target u vs s
    else if v = target then { s.discover u v with found := true }
    else scan target u vs { s.discover u v with queue := s.queue ++ [v] }

/-- One turn, unless the target was discovered or the queue is empty. -/
def step (g : Digraph n) (target : Fin n) (s : QueueSearch n) : Option (QueueSearch n) :=
  match s.found, s.queue with
  | true, _ => none
  | false, [] => none
  | false, u :: queue => some ({ s with queue }.scan target u (g.next u))

/-- The path to the target that the links of a search show. -/
def path (s : QueueSearch n) (source target : Fin n) : Except LinkError (List (Fin n)) :=
  if source = target then .error .sameEnds else (Links.ofMap s.parents).trace source target

end QueueSearch

end Octagon

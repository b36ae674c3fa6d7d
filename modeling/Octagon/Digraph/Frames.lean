import Octagon.Digraph.Component

/-!
The search for components one turn at a time, with a stack of frames in place of nested visits. A
frame is a vertex and the number of its successors that were looked at; the lowest number met from
each vertex is kept until its frame is left, and then handed to the frame below. So the depth of the
search is limited by the stack alone, and a turn looks at one successor at most.
-/

namespace Octagon

/-- A vertex that the search has not left yet, and how many of its successors were looked at. -/
structure Frame (n : Nat) where
  vertex : Fin n
  cursor : Nat

/-- The state between two turns. -/
structure FrameSearch (n : Nat) where
  search : DepthFirst n
  /-- The lowest number met from each vertex that was reached. -/
  low : VertexMap n Nat
  /-- The frames, the last one pushed first. -/
  frames : List (Frame n)
  /-- The vertices that the search is yet to start from, unless it comes to them before. -/
  waiting : List (Fin n)

namespace FrameSearch

variable {n : Nat}

/-- Nothing is reached, and any vertex may be a start. -/
def start (n : Nat) : FrameSearch n := ⟨.start n, .const n 0, [], List.finRange n⟩

/-- Reaches `v` and pushes a frame for it. -/
def push (s : FrameSearch n) (v : Fin n) : FrameSearch n :=
  { s with
    search := s.search.enter v
    low := s.low.set v s.search.reached
    frames := ⟨v, 0⟩ :: s.frames }

/-- Notes that `found` was met from `v`. -/
def lower (s : FrameSearch n) (v : Fin n) (found : Nat) : FrameSearch n :=
  { s with low := s.low.set v (min (s.low v) found) }

/-- Looks at the successor `u` of `v`. -/
def look (s : FrameSearch n) (v u : Fin n) : FrameSearch n :=
  match s.search.marks u with
  | .fresh => s.push u
  | .active found => s.lower v found
  | .closed _ => s

/-- Hands `found` to the frame on top, if there is one. -/
def hand (s : FrameSearch n) (found : Nat) : FrameSearch n :=
  match s.frames with
  | [] => s
  | frame :: _ => s.lower frame.vertex found

/-- Closes the component of `v` if nothing lower than `v` was met. -/
def settle (s : FrameSearch n) (v : Fin n) : FrameSearch n :=
  if s.search.marks v = .active (s.low v) then { s with search := s.search.close v } else s

/-- One turn: looks at the next successor of the vertex on top, leaves the vertex after its last
successor, and starts from a waiting vertex when there are no frames. -/
def step (g : Digraph n) (s : FrameSearch n) : Option (FrameSearch n) :=
  match s.frames, s.waiting with
  | [], [] => none
  | [], v :: waiting =>
    let s := { s with waiting }
    some (if s.search.marks v = .fresh then s.push v else s)
  | ⟨v, cursor⟩ :: frames, _ => match (g.next v)[cursor]? with
    | some u => some ({ s with frames := ⟨v, cursor + 1⟩ :: frames }.look v u)
    | none => some (({ s with frames }.hand (s.low v)).settle v)

/-- The components found by a search that is over. -/
def components (s : FrameSearch n) : Components n := ⟨s.search.marks.map Mark.label, s.search.closed⟩

end FrameSearch

end Octagon

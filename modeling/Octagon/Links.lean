import Octagon.VertexMap

/-!
Links: each of `n` vertices names at most one vertex that it was reached from. Followed backwards,
the links from a vertex either come to a vertex without one, or run into a cycle. The walks below
write a path in forward order, from where it starts to where it ends, although they follow it
backwards.
-/

namespace Octagon

/-- For each vertex the one it was reached from, if any. -/
abbrev Links (n : Nat) := Fin n → Option (Fin n)

/-- Why a walk along links gives no path. Vertices are given by their positions. -/
inductive LinkError where
  /-- The walk back from `last` to `first` comes to `stop`, which has no link. -/
  | exhausted (first last stop : Nat)
  /-- The walk back from `last` comes to `stop`, which has no link, before a vertex repeats. -/
  | acyclic (last stop : Nat)
  /-- The walk back from `last` does not meet `first` within the number of steps. -/
  | unclosed (first last steps : Nat)
  /-- A path between different vertices was asked for, and they are the same. -/
  | sameEnds
  deriving DecidableEq

/-- The fault in words, where `detail` describes a vertex. -/
def LinkError.message (detail : Nat → String) : LinkError → String
  | exhausted first last stop =>
    s!"the walk from {detail last} back to {detail first} ran out of predecessors at {detail stop}"
  | acyclic last stop =>
    s!"the predecessors of {detail last} reach {detail stop} without closing a cycle"
  | unclosed first last steps =>
    s!"no path from {detail first} to {detail last} closed within {steps} steps"
  | sameEnds => "a tree path needs distinct endpoints"

namespace Links

variable {n : Nat}

/-- The links that a map holds. -/
def ofMap (links : VertexMap n (Option (Fin n))) : Links n := links.get

/-- The vertex that many links back from `v`. -/
def back (links : Links n) : Nat → Fin n → Option (Fin n)
  | 0, v => some v
  | k + 1, v => (links v).bind (back links k)

/-- Whether the links from `v` run into a cycle. Among `n` links back some vertex comes twice. -/
def leadsIntoCycle (links : Links n) (v : Fin n) : Bool := (links.back n v).isSome

/-- Goes back from `v` to `first`, within the number of steps, and puts what it meets before
`path`. -/
def traceFrom (links : Links n) (first last : Fin n) :
    Nat → Fin n → List (Fin n) → Except LinkError (List (Fin n))
  | 0, _, _ => .error (.unclosed first last n)
  | steps + 1, v, path => match links v with
    | none => .error (.exhausted first last v)
    | some u =>
      if u = first then .ok (u :: path) else links.traceFrom first last steps u (u :: path)

/-- The path from `first` to `last` along the links, of at least one and at most `n` of them. From
a vertex to itself this is a closed cycle. -/
def trace (links : Links n) (first last : Fin n) : Except LinkError (List (Fin n)) :=
  links.traceFrom first last n last [last]

/-- Goes back from `v` until it meets one of the vertices in `seen`. After `n` new vertices there
is no other left. -/
def repeatFrom (links : Links n) (last : Fin n) :
    Nat → List (Fin n) → Fin n → Except LinkError (Fin n)
  | 0, _, v => .ok v
  | steps + 1, seen, v =>
    if v ∈ seen then .ok v
    else match links v with
      | none => .error (.acyclic last v)
      | some u => links.repeatFrom last steps (v :: seen) u

/-- The first vertex to come twice on the way back from `last`. -/
def firstRepeat (links : Links n) (last : Fin n) : Except LinkError (Fin n) :=
  links.repeatFrom last n [] last

/-- The cycle that the links from `last` run into: closed, and from its first vertex that comes
twice on the way back. -/
def cycle (links : Links n) (last : Fin n) : Except LinkError (List (Fin n)) := do
  let v ← links.firstRepeat last
  links.trace v v

end Links

end Octagon

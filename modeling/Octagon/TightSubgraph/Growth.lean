import Octagon.TightSubgraph
import Std.Data.HashMap

/-!
Tight subgraphs in the making. One pass over the arcs enters the ends of each tight one, so that a
vertex gets the next free number when it is first met, and then puts the arc into tables that go by
these numbers: the successors of a vertex with their weights, and the reasons between two of them.
-/

namespace Octagon

/-- The tables of a tight subgraph while it grows. -/
structure Growth (w : Width) (ρ : Type) (n : Nat) where
  /-- The vertex of each number. -/
  members : Array (Fin n) := #[]
  /-- The number of each vertex that was met. -/
  number : VertexMap n (Option Nat) := .const n none
  /-- For each number the successors, with the weights of the arcs to them, in order. -/
  successors : Array (Array (Nat × Weight w)) := #[]
  reasons : Std.HashMap (Nat × Nat) (List ρ) := {}
  /-- How many arcs there are. -/
  numArcs : Nat := 0

namespace Growth

variable {w : Width} {ρ : Type} {n : Nat}

/-- Gives a vertex the next number, unless it has one; returns its number. -/
def enter (s : Growth w ρ n) (v : Fin n) : Nat × Growth w ρ n :=
  match s.number v with
  | some i => (i, s)
  | none => (s.members.size, { s with
      members := s.members.push v
      number := s.number.set v (some s.members.size)
      successors := s.successors.push #[] })

/-- Puts an arc between two numbers. -/
def join (s : Growth w ρ n) (i j : Nat) (weight : Weight w) (reasons : List ρ) : Growth w ρ n :=
  { s with
    successors := s.successors.modify i (·.push (j, weight))
    reasons := s.reasons.insert (i, j) reasons
    numArcs := s.numArcs + 1 }

/-- Enters the ends of an arc and puts it between their numbers, with the reasons read by its
ends. -/
def insert (reasonsOf : Fin n → Fin n → List ρ) (s : Growth w ρ n) (a : Arc w ρ n) :
    Growth w ρ n :=
  let (i, s) := s.enter a.source
  let (j, s) := s.enter a.target
  s.join i j a.weight (reasonsOf a.source a.target)

/-- The reasons along a walk, given by its numbers. -/
def reasonsAlong (s : Growth w ρ n) (walk : List Nat) : List ρ :=
  (walk.zip walk.tail).flatMap fun ends => s.reasons.getD ends []

end Growth

/-- Looks at every arc in turn, and inserts those that are tight and do not leave the root. -/
def Network.growth {w : Width} {ρ : Type} {n : Nat} (net : Network w ρ n)
    (reasonsOf : Fin (n + 1) → Fin (n + 1) → List ρ) (paths : Paths w (n + 1)) :
    Growth w ρ (n + 1) :=
  net.arcs.foldl (fun s a =>
    if a.source == root n then s
    else if a.isTight paths then s.insert reasonsOf a
    else s) {}

end Octagon

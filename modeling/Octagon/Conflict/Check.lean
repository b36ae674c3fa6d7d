import Octagon.Conflict.Basic

/-!
The check of a conflict against a graph. It trusts the graph alone and reads every edge along the
cycle again, so it judges any conflict, wherever it comes from. The cycle has to be a closed walk
along edges of the graph that avoids the root, and the reasons have to be those of its edges, in
order. A negative cycle has a negative weight. A tightening cycle has weight 0 and visits both
occurrences of its variable, with an odd weight on the way from `x+` to `x-`.
-/

namespace Octagon

/-- Why a conflict proves nothing about a graph. -/
inductive CheckError (w : Width) where
  | openCycle
  | throughRoot
  | missingEdge (source target : Vertex)
  | weightOverflow
  | nonNegative (total : Weight w)
  | nonZero (total : Weight w)
  | missingOccurrence (x : Variable)
  | evenParity (x : Variable) (half : Weight w)
  | reasonMismatch
  /-- The negative and the positive part of a cycle are weights, but their sum is not. -/
  | unrepresentable
  deriving DecidableEq

namespace CheckError

variable {w : Width}

/-- The refusal in words. -/
def message : CheckError w → String
  | openCycle => "the cycle does not start and end at the same vertex"
  | throughRoot => "the cycle passes through the root"
  | missingEdge source target =>
    s!"the graph has no edge from {vertexName source} to {vertexName target}"
  | weightOverflow => "the total weight of the cycle overflows"
  | nonNegative total =>
    s!"a negative cycle was reported, but the cycle has weight {total.text}"
  | nonZero total => s!"a tightening cycle must have weight 0, but it has weight {total.text}"
  | missingOccurrence x => s!"the cycle does not visit both occurrences of {x.text}"
  | evenParity x half =>
    s!"the path from {x.positive.text} to {x.negative.text} has even weight {half.text}"
  | reasonMismatch => "the reasons do not match the edges along the cycle"
  | unrepresentable => "attempt to add with overflow"

end CheckError

/-- The sum of the weights, from left to right. -/
def checkedTotal {w : Width} (weights : List (Weight w)) : Except (CheckError w) (Weight w) :=
  match Weight.sum? weights with
  | some total => .ok total
  | none => .error .weightOverflow

/-- Refuses a cycle whose weight is not negative. The negative part may be too small for a weight:
then it outweighs every positive part that is one. -/
def checkNegative {w : Width} (weights : List (Weight w)) : Except (CheckError w) Unit := do
  let positive ← checkedTotal (weights.filter (0 ≤ ·))
  match Weight.sum? (weights.filter (· < 0)) with
  | none => return ()
  | some negative => match negative.add? positive with
    | none => throw .unrepresentable
    | some total => if 0 ≤ total then throw (.nonNegative total)

/-- The entries from position `i` on until position `j`, around the end where `j` comes first. -/
def segment {α : Type} (xs : List α) (i j : Nat) : List α :=
  if i ≤ j then (xs.take j).drop i else xs.drop i ++ xs.take j

namespace Graph

variable {w : Width} {ρ : Type}

/-- The weights of the edges along a walk. -/
def weightsAlong (g : Graph w ρ) (walk : List Vertex) : Except (CheckError w) (List (Weight w)) :=
  (walk.zip walk.tail).mapM fun (source, target) =>
    match g.edgeBetween source target with
    | some edge => .ok edge.weight
    | none => .error (.missingEdge source target)

/-- Where the walk first meets an occurrence of `x`. -/
def firstVisit (g : Graph w ρ) (x : Variable) (o : Occurrence) (walk : List Vertex) :
    Except (CheckError w) Nat :=
  match (g.vertex? o).bind walk.idxOf? with
  | some i => .ok i
  | none => .error (.missingOccurrence x)

/-- Refuses a cycle that does not have weight 0 with an odd weight from `x+` to `x-`. -/
def checkTightening (g : Graph w ρ) (x : Variable) (cycle : List Vertex)
    (weights : List (Weight w)) : Except (CheckError w) Unit := do
  let total ← checkedTotal weights
  if total ≠ 0 then throw (.nonZero total)
  let positive ← g.firstVisit x x.positive cycle.dropLast
  let negative ← g.firstVisit x x.negative cycle.dropLast
  let half ← checkedTotal (segment weights positive negative)
  if !half.isOdd then throw (.evenParity x half)

/-- Refuses a conflict whose cycle does not contradict itself. -/
def checkCycle (g : Graph w ρ) (c : Conflict ρ) : Except (CheckError w) Unit := do
  if c.cycle.length < 2 ∨ c.cycle.head? ≠ c.cycle.getLast? then throw .openCycle
  if root ∈ c.cycle then throw .throughRoot
  let weights ← g.weightsAlong c.cycle
  match c.kind with
  | .negativeCycle => checkNegative weights
  | .tightening x => g.checkTightening x c.cycle weights

/-- Refuses a conflict that does not prove the graph to be without integer solution. Of the equality
of reasons no law is asked. -/
def check [BEq ρ] (g : Graph w ρ) (c : Conflict ρ) : Except (CheckError w) Unit := do
  g.checkCycle c
  if g.reasonsAlong c.cycle != c.reasons then throw .reasonMismatch

end Graph

end Octagon

import Octagon.Digraph.BreadthFirst
import Octagon.Digraph.Component
import Octagon.TightSubgraph

/-!
Tightening. Where a cycle of tight arcs passes through both occurrences of `x`, and their distances
differ by an odd number, the arcs from one to the other say `2x ≥ k` for an odd `k`, and the arcs
back say `2x ≤ k`. A rational `x` can satisfy both, an integer cannot.
-/

namespace Octagon

/-- A variable that tightening refutes, with the vertices of its occurrences. -/
structure Violation (n : Nat) where
  var : Variable
  positive : Fin n
  negative : Fin n

/-- The closed cycle from the positive occurrence to the negative one and back. -/
def Violation.cycle {n : Nat} (x : Violation n) (g : Digraph n) :
    Except LinkError (List (Fin n)) := do
  let there ← g.path x.positive x.negative
  let back ← g.path x.negative x.positive
  return there ++ back.tail

namespace TightSubgraph

variable {w : Width} {ρ : Type} {n : Nat}

/-- The violation of a variable, if both its occurrences are in one component and their distances
differ oddly. -/
def violation? (sub : TightSubgraph w ρ n) (components : Components sub.size) (paths : Paths w n)
    (x : Split n) : Option (Violation sub.size) := do
  let positive ← sub.number x.positive
  let negative ← sub.number x.negative
  if components.same positive negative
      && (paths.distance x.positive).differsOddly (paths.distance x.negative) then
    some ⟨x.var, positive, negative⟩
  else none

/-- The variables among `splits` that tightening refutes, in order. -/
def violations (sub : TightSubgraph w ρ n) (components : Components sub.size) (paths : Paths w n)
    (splits : List (Split n)) : List (Violation sub.size) :=
  splits.filterMap (sub.violation? components paths)

end TightSubgraph

end Octagon

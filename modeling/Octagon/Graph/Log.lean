import Octagon.Graph.Basic
import Octagon.Log

/-!
The records of assertions: one for each edge whose weight they replace.
-/

namespace Octagon.Graph

variable {w : Width} {ρ : Type}

/-- The weight that asserting `d` would replace, if any. -/
def replaced? (g : Graph w ρ) (d : Difference w) : Option (Weight w) := do
  let source ← g.vertex? d.source
  let target ← g.vertex? d.target
  let edge ← g.edgeBetween source target
  if d.weight < edge.weight then some edge.weight else none

/-- The records of asserting `d`. -/
def addEdgeLog (g : Graph w ρ) (d : Difference w) : List Record :=
  (g.replaced? d).toList.map fun old => ⟨.trace,
    s!"Tightening {d.source.text} -> {d.target.text} from {old.text} to {d.weight.text}"⟩

/-- The records of asserting differences in order. -/
def addEdgesLog (g : Graph w ρ) (reason : ρ) : List (Difference w) → List Record
  | [] => []
  | d :: ds => g.addEdgeLog d ++ match g.addEdge d reason with
    | .ok (_, g) => g.addEdgesLog reason ds
    | .error _ => []

/-- The records of asserting `c`; a refused constraint leaves none. -/
def addConstraintLog (g : Graph w ρ) (c : Constraint w) (reason : ρ) : List Record :=
  match g.addConstraint c reason, c.differences with
  | .ok _, .ok ds => g.addEdgesLog reason ds
  | _, _ => []

end Octagon.Graph

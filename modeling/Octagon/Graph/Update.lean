import Octagon.Graph.Basic

/-!
Assertions that change a graph in place. A refusal says why, and leaves the graph as it is by then:
the differences of a constraint are inserted one after the other, and those inserted before a
refusal stay. Nothing here takes anything back, so a constraint is looked at before it is inserted.
-/

namespace Octagon.Graph

variable {w : Width} {ρ : Type}

/-- Inserts a difference; returns the position of its edge. -/
def insert (g : Graph w ρ) (d : Difference w) (reason : ρ) : Except GraphError Nat × Graph w ρ :=
  match g.vertex? d.source with
  | none => (.error (.unregistered d.source), g)
  | some source => match g.vertex? d.target with
    | none => (.error (.unregistered d.target), g)
    | some target =>
      let (e, g) := g.connect source target d.weight reason
      (.ok e, g)

/-- Inserts differences in order, up to the first one that is refused. -/
def insertAll (g : Graph w ρ) (reason : ρ) :
    List (Difference w) → Except GraphError Unit × Graph w ρ
  | [] => (.ok (), g)
  | d :: ds => match g.insert d reason with
    | (.error e, g) => (.error e, g)
    | (.ok _, g) => g.insertAll reason ds

/-- Inserts the differences of a constraint, once all of their occurrences are found registered. -/
def insertConstraint (g : Graph w ρ) (c : Constraint w) (reason : ρ) :
    Except GraphError Unit × Graph w ρ :=
  match c.differences with
  | .error e => (.error e, g)
  | .ok ds => match g.missing? ds with
    | some o => (.error (.unregistered o), g)
    | none => g.insertAll reason ds

end Octagon.Graph

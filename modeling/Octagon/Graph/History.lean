import Octagon.Meaning

/-!
Histories: the graphs that calls build from the empty one, and what these calls assert. A refused
call leaves the graph as it was and asserts nothing.
-/

namespace Octagon

/-- A request to a graph. -/
inductive Call (w : Width) (ρ : Type) where
  | newVariable
  | newNamedVariable (name : String)
  | registerVariable (x : Variable)
  | registerOccurrence (o : Occurrence)
  | addEdge (d : Difference w) (reason : ρ)
  | addConstraint (c : Constraint w) (reason : ρ)

/-- Whether a call only registers variables or occurrences. -/
def Call.registers {w : Width} {ρ : Type} : Call w ρ → Bool
  | newVariable | newNamedVariable _ | registerVariable _ | registerOccurrence _ => true
  | addEdge .. | addConstraint .. => false

/-- What a call asserts. -/
inductive Assertion (w : Width) where
  | difference (d : Difference w)
  | constraint (c : Constraint w)
  deriving DecidableEq

variable {w : Width} {ρ : Type}

/-- The assertion holds of the values. -/
def Assertion.Holds (σ : Assignment) : Assertion w → Prop
  | difference d => d.Holds σ
  | constraint c => c.Holds σ

instance (σ : Assignment) : (x : Assertion w) → Decidable (x.Holds σ)
  | .difference d => inferInstanceAs (Decidable (d.Holds σ))
  | .constraint c => inferInstanceAs (Decidable (c.Holds σ))

namespace Graph

/-- The graph after a call. -/
def perform (g : Graph w ρ) : Call w ρ → Graph w ρ
  | .newVariable => g.newVariable.2
  | .newNamedVariable name => (g.newNamedVariable name).2
  | .registerVariable x => g.registerVariable x
  | .registerOccurrence o => (g.registerOccurrence o).2
  | .addEdge d reason => match g.addEdge d reason with
    | .ok (_, after) => after
    | .error _ => g
  | .addConstraint c reason => match g.addConstraint c reason with
    | .ok after => after
    | .error _ => g

/-- The graph after calls in order. -/
def run (g : Graph w ρ) (calls : List (Call w ρ)) : Graph w ρ := calls.foldl perform g

/-- The graph that calls build. -/
def ofCalls (calls : List (Call w ρ)) : Graph w ρ := empty.run calls

/-- What a call asserts, with its reason, if `g` accepts it. -/
def accepted? (g : Graph w ρ) : Call w ρ → Option (Assertion w × ρ)
  | .addEdge d reason => (g.addEdge d reason).toOption.map fun _ => (.difference d, reason)
  | .addConstraint c reason =>
    (g.addConstraint c reason).toOption.map fun _ => (.constraint c, reason)
  | _ => none

/-- What calls in order assert from `g` on, with their reasons. -/
def assertions (g : Graph w ρ) : List (Call w ρ) → List (Assertion w × ρ)
  | [] => []
  | call :: calls => (g.accepted? call).toList ++ (g.perform call).assertions calls

end Graph

end Octagon

import Octagon.ShortestPath

/-!
The choices that a solver leaves to its user. They decide how the answer is found and which conflict
is reported, not whether there is one.
-/

namespace Octagon

/-- Which conflict to report where tightening refutes several variables. -/
inductive Selection where
  /-- That of the variable whose positive occurrence has the lowest vertex. -/
  | firstViolation
  /-- One with the fewest reasons, and of several the one with the lowest vertex. -/
  | smallest
  deriving DecidableEq

/-- How the options write the selection. -/
def Selection.name : Selection → String
  | firstViolation => "FirstViolation"
  | smallest => "Smallest"

/-- What a solver is asked to do. -/
structure Options where
  relaxation : Strategy := .earlyExit
  explanation : Selection := .firstViolation
  deriving DecidableEq

/-- The options by name. -/
def Options.text (o : Options) : String :=
  s!"SatisfiabilityOptions \x7b relaxation: {o.relaxation.name}, " ++
    s!"explanation: {o.explanation.name} \x7d"

end Octagon

import Octagon.Occurrence
import Octagon.Weight

/-!
Constraints with at most two variables of unit coefficient, `±x ± y ≤ c` and `±x ≤ c`, and the
differences between occurrences that they amount to. With `x+` for the value of `x` and `x-` for its
negation, `a + b ≤ c` says that `a` exceeds the negation of `b` by at most `c`, and in the same way
`b` the negation of `a`; `a ≤ c` says that `a` exceeds its own negation by at most `2c`.
-/

namespace Octagon

/-- Why a graph refuses a constraint or a difference. -/
inductive GraphError where
  /-- The occurrence has no vertex. -/
  | unregistered (occurrence : Occurrence)
  /-- The bound has no representation in the form that is needed. -/
  | boundOverflow
  deriving DecidableEq

/-- The refusal in words. -/
def GraphError.message : GraphError → String
  | unregistered o => s!"the occurrence {o.text} has not been registered with the graph"
  | boundOverflow => "doubling the bound of a single-variable constraint overflows the weight type"

/-- `target ≤ source + weight`. -/
structure Difference (w : Width) where
  source : Occurrence
  target : Occurrence
  weight : Weight w
  deriving DecidableEq

/-- `first + second ≤ bound`, or `first ≤ bound` without a second term. The term `x+` adds `x` and
the term `x-` subtracts it. -/
structure Constraint (w : Width) where
  first : Occurrence
  second : Option Occurrence
  bound : Weight w
  deriving DecidableEq

namespace Constraint

variable {w : Width}

/-- `x - y ≤ bound` -/
def difference (x y : Variable) (bound : Weight w) : Constraint w :=
  ⟨x.positive, some y.negative, bound⟩

/-- `x + y ≤ bound` -/
def sum (x y : Variable) (bound : Weight w) : Constraint w :=
  ⟨x.positive, some y.positive, bound⟩

/-- `x ≤ bound` -/
def upperBound (x : Variable) (bound : Weight w) : Constraint w := ⟨x.positive, none, bound⟩

/-- `x ≥ bound`, written `-x ≤ -bound`. -/
def lowerBound (x : Variable) (bound : Weight w) : Except GraphError (Constraint w) :=
  match bound.neg? with
  | some negated => .ok ⟨x.negative, none, negated⟩
  | none => .error .boundOverflow

/-- The terms, in order. -/
def terms (c : Constraint w) : List Occurrence := c.first :: c.second.toList

/-- The differences that together say what the constraint says. -/
def differences (c : Constraint w) : Except GraphError (List (Difference w)) :=
  match c.second with
  | some second => .ok [⟨second.negate, c.first, c.bound⟩, ⟨c.first.negate, second, c.bound⟩]
  | none => match c.bound.double? with
    | some doubled => .ok [⟨c.first.negate, c.first, doubled⟩]
    | none => .error .boundOverflow

/-- The first term in writing: a minus sign where it subtracts. -/
def leadingText (o : Occurrence) : String :=
  match o.polarity with
  | .positive => o.var.text
  | .negative => "-" ++ o.var.text

/-- The second term in writing, with the operator before it. -/
def trailingText (o : Occurrence) : String :=
  match o.polarity with
  | .positive => " + " ++ o.var.text
  | .negative => " - " ++ o.var.text

/-- The constraint as a formula, such as `x0 - x1 <= 3`. -/
def text (c : Constraint w) : String :=
  leadingText c.first ++ (c.second.map trailingText).getD "" ++ " <= " ++ c.bound.text

/-- A term with its parts named. -/
def termDetail (o : Occurrence) : String :=
  s!"Term \x7b sign: {o.polarity.name}, variable: {o.var.text} \x7d"

/-- The constraint with its parts named. -/
def detail (c : Constraint w) : String :=
  let second := match c.second with
    | some o => s!"Some({termDetail o})"
    | none => "None"
  s!"UtvpiConstraint \x7b first: {termDetail c.first}, second: {second}, bound: {c.bound.text} \x7d"

end Constraint

end Octagon

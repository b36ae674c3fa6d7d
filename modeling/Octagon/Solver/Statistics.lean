import Octagon.Solver.Basic

/-!
Solvers: options, and counters over all decisions made with them. A decision that ends in a fault
counts as a call, with its rounds and tight arcs, and as nothing else.
-/

namespace Octagon

/-- Counters over decisions. -/
structure Statistics where
  /-- The number of decisions asked for. -/
  calls : Nat := 0
  /-- The number of graphs found satisfiable. -/
  satisfiable : Nat := 0
  /-- The number of conflicts that were negative cycles. -/
  negativeCycles : Nat := 0
  /-- The number of conflicts that tightening found. -/
  tightenings : Nat := 0
  /-- The number of decisions where no two tight vertices shared a component. -/
  singletonPartitions : Nat := 0
  /-- The number of rounds begun in search of shortest paths. -/
  rounds : Nat := 0
  /-- The number of tight arcs found. -/
  tightArcs : Nat := 0
  /-- The number of reasons in all conflicts. -/
  reasons : Nat := 0
  deriving DecidableEq

namespace Statistics

/-- The counters with one more conflict. -/
def addConflict {ρ : Type} (s : Statistics) (c : Conflict ρ) : Statistics :=
  let s := { s with reasons := s.reasons + c.reasons.length }
  match c.kind with
  | .negativeCycle => { s with negativeCycles := s.negativeCycles + 1 }
  | .tightening _ => { s with tightenings := s.tightenings + 1 }

/-- The counters with one more decision. -/
def add {ρ : Type} (s : Statistics) (r : Report ρ) : Statistics :=
  let s := { s with
    calls := s.calls + 1
    singletonPartitions := s.singletonPartitions + if r.allSingle then 1 else 0
    rounds := s.rounds + r.rounds
    tightArcs := s.tightArcs + r.tightArcs }
  match r.answer with
  | .error _ => s
  | .ok .satisfiable => { s with satisfiable := s.satisfiable + 1 }
  | .ok (.unsatisfiable c) => s.addConflict c

/-- The counters by name, in the order in which they are reported. -/
def entries (s : Statistics) : List (String × Nat) :=
  [("num_calls", s.calls), ("num_satisfiable", s.satisfiable),
    ("num_negative_cycle_conflicts", s.negativeCycles), ("num_tightening_conflicts", s.tightenings),
    ("num_singleton_partitions", s.singletonPartitions), ("num_relaxation_rounds", s.rounds),
    ("num_tight_edges", s.tightArcs), ("num_reasons_reported", s.reasons)]

end Statistics

/-- Decides graphs with the same options and counts its decisions. -/
structure Solver where
  options : Options := {}
  statistics : Statistics := {}

/-- Decides a graph and counts the decision. -/
def Solver.solve {w : Width} {ρ : Type} (s : Solver) (g : Graph w ρ)
    (overflow : Overflow := .checked) : Report ρ × Solver :=
  let report := g.solve s.options overflow
  (report, { s with statistics := s.statistics.add report })

end Octagon

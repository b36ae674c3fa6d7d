import Octagon.Solver.Statistics
import Octagon.Text.WordCase

/-!
Statistics in writing, each as a line with its name and value. They are written only once a sink is
configured, which can be done once. A logger gathers the name of a statistic part by part. It writes
one line for each piece in which a value is handed to it, and a negative number comes in two pieces,
its sign and its digits.
-/

namespace Octagon

/-- Where lines go. -/
inductive Destination where
  | standardOutput
  | writer
  deriving DecidableEq

/-- How and where statistics are written. -/
structure Sink where
  /-- What every line begins with. -/
  label : String
  /-- How names are written; as they are if not given. -/
  style : Option WordCase
  destination : Destination
  deriving DecidableEq

namespace Sink

/-- The line of one statistic. -/
def line (sink : Sink) (name value : String) : String :=
  let name := match sink.style with
    | some style => style.apply name
    | none => name
  s!"{sink.label} {name}={value}\n"

/-- Configures the sink unless it is configured already. -/
def configure (current : Option Sink) (sink : Sink) : Option Sink := some (current.getD sink)

end Sink

/-- The value of a statistic. -/
inductive Datum where
  | text (s : String)
  | number (n : Int)
  deriving DecidableEq

/-- The pieces in which the value is handed over. -/
def Datum.pieces : Datum → List String
  | text s => [s]
  | number n => if n < 0 then ["-", toString n.natAbs] else [toString n.natAbs]

/-- Writes statistics under a name. -/
structure StatisticLogger where
  name : String
  deriving DecidableEq

namespace StatisticLogger

/-- The logger for a part of what this one stands for. -/
def attach (logger : StatisticLogger) (part : String) : StatisticLogger :=
  ⟨logger.name ++ "_" ++ part⟩

/-- What the logger writes of a value. -/
def write (logger : StatisticLogger) (sink : Sink) (datum : Datum) : String :=
  String.join (datum.pieces.map (sink.line logger.name))

end StatisticLogger

/-- What a solver writes of its counters. -/
def Statistics.write (s : Statistics) (sink : Sink) : String :=
  String.join (s.entries.map fun (name, count) =>
    ((StatisticLogger.mk "utvpi").attach name).write sink (.number count))

end Octagon

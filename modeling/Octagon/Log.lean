/-!
Records of what an operation did, for whoever follows it.
-/

namespace Octagon

/-- How much a record matters: `trace` is for single steps, `debug` for results. -/
inductive Level where
  | trace | debug
  deriving DecidableEq

/-- How records write the level. -/
def Level.name : Level → String
  | trace => "TRACE"
  | debug => "DEBUG"

/-- One thing that an operation did. -/
structure Record where
  level : Level
  message : String
  deriving DecidableEq

/-- The record as one line. -/
def Record.text (r : Record) : String := r.level.name ++ " " ++ r.message

end Octagon

import Octagon.ShortestPath

/-!
The search for shortest paths one arc at a time. A moment of a search is what is known between two
arcs, together with what is left to do: the arcs of the current round, and the rounds after it. The
round that looks for a negative cycle is the last one; it remembers what it improved where the
others count. An underflow leaves its link behind and ends the search, and so does a count that
overflows.
-/

namespace Octagon

/-- The state between two arcs. -/
structure Moment (w : Width) (ρ : Type) (n : Nat) where
  paths : Paths w n
  /-- The count of improvements in the current round. -/
  count : Int32 := 0
  /-- The target improved last in the last round. -/
  last : Option (Fin n) := none
  /-- The arcs that the current round is yet to relax. -/
  waiting : List (Arc w ρ n)
  /-- The number of rounds after the current one. -/
  rounds : Nat
  /-- The vertex that a path underflowed into. -/
  underflow : Option (Fin n) := none
  /-- Whether the count overflowed. -/
  overflowed : Bool := false

namespace Moment

variable {w : Width} {ρ : Type} {n : Nat}

/-- Notes an improvement of `target`. -/
def note (overflow : Overflow) (s : Moment w ρ n) (target : Fin n) : Moment w ρ n :=
  if s.rounds = 0 then { s with last := some target }
  else match overflow.next? s.count with
    | some count => { s with count }
    | none => { s with overflowed := true }

/-- Relaxes an arc. -/
def relax (overflow : Overflow) (s : Moment w ρ n) (a : Arc w ρ n) : Moment w ρ n :=
  match s.paths.relax a with
  | (.unchanged, paths) => { s with paths }
  | (.improved, paths) => { s with paths }.note overflow a.target
  | (.underflow, paths) => { s with paths, underflow := some a.target }

/-- Relaxes the next arc, or begins the next round where no arc is left. There is none after an
underflow or an overflow, after the last round, and after one that improved nothing, by its count,
if the strategy says so. -/
def step (overflow : Overflow) (strategy : Strategy) (arcs : List (Arc w ρ n))
    (s : Moment w ρ n) : Option (Moment w ρ n) :=
  match s.underflow, s.overflowed, s.waiting, s.rounds with
  | some _, _, _, _ => none
  | none, true, _, _ => none
  | none, false, a :: waiting, _ => some ({ s with waiting }.relax overflow a)
  | none, false, [], 0 => none
  | none, false, [], rounds + 1 =>
    if strategy = .earlyExit ∧ s.count = 0 then none
    else some { paths := s.paths, waiting := arcs, rounds }

/-- How a search ends that is over at this moment. -/
def ending (s : Moment w ρ n) : Ending w n :=
  match s.underflow, s.overflowed, s.last with
  | some target, _, _ => .underflowed s.paths target
  | none, true, _ => .overflowed
  | none, false, none => .settled s.paths
  | none, false, some last => .improvable s.paths last

end Moment

/-- The moment before the first arc. -/
def Network.firstMoment {w : Width} {ρ : Type} {n : Nat} (net : Network w ρ n) :
    Moment w ρ (n + 1) :=
  { paths := .initial w n, waiting := net.arcs, rounds := n }

end Octagon

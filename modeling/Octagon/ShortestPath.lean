import Octagon.Links
import Octagon.Network

/-!
Shortest paths from the root. A round relaxes every arc once, in order: where the path to the source
of an arc, prolonged by the arc, is shorter than the shortest one known to its target, it takes that
one's place. With `n` vertices beside the root, `n` rounds settle all distances unless some cycle is
negative; then one more round still improves a distance.

A length below the smallest weight ends the search at once. It comes from a negative cycle if the
links lead back into one; otherwise a shortest path has no representable length.

A round counts its improvements in 32 bits, and the count decides whether another round follows.
What a count does that leaves its range depends on how the program was built.
-/

namespace Octagon

/-- The shortest distances from the root known so far, and where each was last improved from. -/
structure Paths (w : Width) (n : Nat) where
  distance : VertexMap n (Weight w)
  predecessor : VertexMap n (Option (Fin n))

/-- What relaxing an arc does. -/
inductive Effect where
  | unchanged
  | improved
  /-- The path is shorter than the smallest weight. -/
  | underflow
  deriving DecidableEq

/-- What a program does where a count leaves the range of its integers. -/
inductive Overflow where
  /-- It stops: additions are checked. -/
  | checked
  /-- It counts on from the other end of the range. -/
  | wrapping
  deriving DecidableEq

/-- One more than a count. -/
def Overflow.next? (overflow : Overflow) (count : Int32) : Option Int32 :=
  match overflow with
  | checked => if count = .maxValue then none else some (count + 1)
  | wrapping => some (count + 1)

/-- What relaxing arcs in order comes to, where improvements are noted in `α`. -/
inductive Sweep (w : Width) (n : Nat) (α : Type) where
  /-- All were relaxed. -/
  | completed (paths : Paths w n) (noted : α)
  /-- The path into `target` underflowed. -/
  | underflowed (paths : Paths w n) (target : Fin n)
  /-- There was no way to note an improvement. -/
  | overflowed

namespace Paths

variable {w : Width} {ρ : Type} {n : Nat}

/-- Only the root is reached; the largest weight stands for no path. -/
def initial (w : Width) (n : Nat) : Paths w (n + 1) where
  distance := (VertexMap.const (n + 1) .max).set (Network.root n) 0
  predecessor := .const (n + 1) none

/-- The links along which the paths run back to the root. -/
def links (paths : Paths w n) : Links n := .ofMap paths.predecessor

/-- Records that the path to the target of `a` comes along `a`. -/
def link (paths : Paths w n) (a : Arc w ρ n) : Paths w n :=
  { paths with predecessor := paths.predecessor.set a.target (some a.source) }

/-- Records that the path to `v` has the given length. -/
def shorten (paths : Paths w n) (v : Fin n) (length : Weight w) : Paths w n :=
  { paths with distance := paths.distance.set v length }

/-- Relaxes one arc. An underflow is recorded as a link only: the distance stays as it was. -/
def relax (paths : Paths w n) (a : Arc w ρ n) : Effect × Paths w n :=
  match (paths.distance a.source).combine a.weight with
  | none => (.underflow, paths.link a)
  | some length =>
    if length < paths.distance a.target then (.improved, (paths.link a).shorten a.target length)
    else (.unchanged, paths)

/-- Relaxes arcs in order, until one underflows. What is `noted` of the improvements so far goes on
with the target of each further one, where that can be. -/
def sweepFrom {α : Type} (note : α → Fin n → Option α) (paths : Paths w n) (noted : α) :
    List (Arc w ρ n) → Sweep w n α
  | [] => .completed paths noted
  | a :: arcs => match paths.relax a with
    | (.unchanged, paths) => paths.sweepFrom note noted arcs
    | (.improved, paths) => match note noted a.target with
      | some noted => paths.sweepFrom note noted arcs
      | none => .overflowed
    | (.underflow, paths) => .underflowed paths a.target

/-- Relaxes arcs in order and counts the improvements. -/
def round (overflow : Overflow) (paths : Paths w n) (arcs : List (Arc w ρ n)) :
    Sweep w n Int32 := paths.sweepFrom (fun count _ => overflow.next? count) 0 arcs

/-- Relaxes arcs in order and remembers the target improved last. -/
def lookAgain (paths : Paths w n) (arcs : List (Arc w ρ n)) : Sweep w n (Option (Fin n)) :=
  paths.sweepFrom (fun _ target => some (some target)) none arcs

end Paths

/-- How many rounds to run. -/
inductive Strategy where
  /-- All of them. -/
  | full
  /-- Until a round improves nothing, by its count: the distances are settled then. -/
  | earlyExit
  deriving DecidableEq

/-- How the options write the strategy. -/
def Strategy.name : Strategy → String
  | full => "Full"
  | earlyExit => "EarlyExit"

/-- How the rounds end. -/
inductive Ending (w : Width) (n : Nat) where
  /-- No distance can be improved. -/
  | settled (paths : Paths w n)
  /-- After all rounds `target` was still improved, after any others. -/
  | improvable (paths : Paths w n) (target : Fin n)
  /-- The path into `target` underflowed. -/
  | underflowed (paths : Paths w n) (target : Fin n)
  /-- A round had more improvements than it can count. -/
  | overflowed

/-- What is known of the shortest paths. -/
inductive Outcome (w : Width) (n : Nat) where
  | distances (paths : Paths w n)
  /-- The links from `entry` run into a negative cycle. -/
  | negativeCycle (paths : Paths w n) (entry : Fin n)
  /-- A shortest path into `target` is below the smallest weight. -/
  | tooShort (target : Fin n)
  /-- A round had more improvements than it can count. -/
  | miscounted

/-- The outcome that an ending stands for. -/
def Ending.outcome {w : Width} {n : Nat} : Ending w n → Outcome w n
  | settled paths => .distances paths
  | improvable paths target => .negativeCycle paths target
  | underflowed paths target =>
    if paths.links.leadsIntoCycle target then .negativeCycle paths target else .tooShort target
  | overflowed => .miscounted

/-- A search for shortest paths. -/
structure Search (w : Width) (n : Nat) where
  /-- The number of rounds begun; the one that looks for a negative cycle does not count. -/
  rounds : Nat
  /-- The count of improvements in each round that was completed. -/
  improvements : List Int32
  ending : Ending w n

namespace Paths

variable {w : Width} {ρ : Type} {n : Nat}

/-- Looks for a distance that can still be improved, once all rounds are over. -/
def detect (paths : Paths w n) (arcs : List (Arc w ρ n)) : Ending w n :=
  match paths.lookAgain arcs with
  | .completed paths none => .settled paths
  | .completed paths (some last) => .improvable paths last
  | .underflowed paths target => .underflowed paths target
  | .overflowed => .overflowed

/-- Runs the rounds that are left. -/
def explore (overflow : Overflow) (strategy : Strategy) (arcs : List (Arc w ρ n)) :
    Nat → Paths w n → Search w n
  | 0, paths => ⟨0, [], paths.detect arcs⟩
  | rounds + 1, paths => match paths.round overflow arcs with
    | .underflowed paths target => ⟨1, [], .underflowed paths target⟩
    | .overflowed => ⟨1, [], .overflowed⟩
    | .completed paths count =>
      if strategy = .earlyExit ∧ count = 0 then ⟨1, [count], .settled paths⟩
      else
        let rest := explore overflow strategy arcs rounds paths
        ⟨rest.rounds + 1, count :: rest.improvements, rest.ending⟩

end Paths

/-- Searches the shortest paths from the root. -/
def Network.shortestPaths {w : Width} {ρ : Type} {n : Nat} (net : Network w ρ n)
    (overflow : Overflow) (strategy : Strategy) : Search w (n + 1) :=
  (Paths.initial w n).explore overflow strategy net.arcs n

end Octagon

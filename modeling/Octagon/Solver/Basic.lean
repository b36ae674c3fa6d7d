import Octagon.Conflict.Basic
import Octagon.Log
import Octagon.Solver.Options
import Octagon.Tightening

/-!
The decision whether integers satisfy all edges of a graph. First come the shortest paths from the
root: a negative cycle is a conflict. Then come the tight arcs under the distances, and their
components: a variable that tightening refutes gives a conflict, and without one the graph is
satisfiable. If no two tight vertices share a component there is nothing to look for.
-/

namespace Octagon

/-- The answer to the question whether a graph is satisfiable. -/
inductive Answer (ρ : Type) where
  | satisfiable
  | unsatisfiable (conflict : Conflict ρ)
  deriving DecidableEq

/-- The reasons that together have no solution; none for a satisfiable graph. -/
def Answer.reasons {ρ : Type} : Answer ρ → List ρ
  | satisfiable => []
  | unsatisfiable c => c.reasons

/-- Why there is no answer. The numbers of vertices of a network, of its paths and of its tight
subgraph are in their types, so no fault says that these differ, or that a vertex is not of the
network it is looked up in. -/
inductive Fault where
  /-- A shortest path into the vertex is below the smallest weight of the width. -/
  | tooShort (width : Width) (v : Vertex)
  /-- The graph refers to what it does not have. -/
  | outOfRange (e : IndexError)
  /-- The links that shortest paths leave give no cycle. -/
  | noCycle (e : LinkError)
  /-- The tight arcs give no path between two vertices of one component. -/
  | noPath (e : LinkError)
  /-- The edges of a conflict have no reasons. -/
  | noReasons
  /-- A round had more improvements than it can count. -/
  | overflow
  deriving DecidableEq

/-- How messages call a vertex of a tight subgraph. -/
def inducedDetail (v : Nat) : String := s!"InducedVertex \x7b id: {v} \x7d"

/-- The fault in words. -/
def Fault.message : Fault → String
  | tooShort width v =>
    s!"a path to {vertexDetail v} is shorter than the minimum of {width.name}; " ++
      "use a wider weight type"
  | outOfRange e => e.message
  | noCycle e => e.message vertexDetail
  | noPath e => e.message inducedDetail
  | noReasons => "a conflict was found but it has no reasons"
  | overflow => "attempt to add with overflow"

/-! ### Conflicts -/

/-- A conflict with the fewest reasons, the first one of several. -/
def Conflict.fewestReasons? {ρ : Type} : List (Conflict ρ) → Option (Conflict ρ)
  | [] => none
  | c :: cs => some (cs.foldl (fun best d =>
      if d.reasons.length < best.reasons.length then d else best) c)

/-- The conflict of a variable that tightening refutes. -/
def TightSubgraph.conflict {w : Width} {ρ : Type} {n : Nat} (sub : TightSubgraph w ρ n)
    (x : Violation sub.size) : Except Fault (Conflict ρ) :=
  match x.cycle sub.digraph with
  | .ok walk => .ok
    ⟨.tightening x.var, walk.map fun v => (sub.members v).val, Arc.reasonsAlong sub.arcs walk⟩
  | .error e => .error (.noPath e)

/-- The conflict to report among those of several variables. -/
def TightSubgraph.select {w : Width} {ρ : Type} {n : Nat} (sub : TightSubgraph w ρ n)
    (selection : Selection) (xs : List (Violation sub.size)) :
    Except Fault (Option (Conflict ρ)) :=
  match selection with
  | .firstViolation => xs.head?.mapM sub.conflict
  | .smallest => do return Conflict.fewestReasons? (← xs.mapM sub.conflict)

/-- What the tight arcs of a network tell. -/
structure Tightened (ρ : Type) where
  /-- The number of vertices on tight arcs. -/
  vertices : Nat
  /-- The number of tight arcs. -/
  arcs : Nat
  /-- The number of their components. -/
  components : Nat
  conflict : Except Fault (Option (Conflict ρ))

/-- Whether each component is a single vertex. -/
def Tightened.allSingle {ρ : Type} (t : Tightened ρ) : Bool := t.components == t.vertices

namespace Network

variable {w : Width} {ρ : Type} {n : Nat}

/-- The conflict of the negative cycle that the links from `entry` run into. -/
def negativeCycle (net : Network w ρ n) (paths : Paths w (n + 1)) (entry : Fin (n + 1)) :
    Except Fault (Conflict ρ) :=
  match paths.links.cycle entry with
  | .ok walk => .ok ⟨.negativeCycle, walk.map Fin.val, Arc.reasonsAlong net.arcs walk⟩
  | .error e => .error (.noCycle e)

/-- Looks for a variable that tightening refutes. -/
def tighten (net : Network w ρ n) (selection : Selection) (paths : Paths w (n + 1)) :
    Tightened ρ :=
  let sub := net.tightSubgraph paths
  let components := sub.digraph.components
  ⟨sub.size, sub.arcs.length, components.count,
    if components.allSingle then .ok none
    else sub.select selection (sub.violations components paths net.splits)⟩

end Network

/-! ### Decisions -/

/-- A decision and how it came about. -/
structure Report (ρ : Type) where
  answer : Except Fault (Answer ρ)
  /-- The number of rounds begun in search of shortest paths. -/
  rounds : Nat := 0
  /-- The number of tight arcs found. -/
  tightArcs : Nat := 0
  /-- Whether the answer follows from each component being a single vertex. -/
  allSingle : Bool := false
  log : List Record := []

/-- The records of a search for shortest paths. -/
def Search.log {w : Width} {n : Nat} (search : Search w n) : List Record :=
  let rounds := search.improvements.zipIdx.map fun (k, i) =>
    ⟨.trace, s!"Relaxation round {i + 1}: {k} improvements"⟩
  match search.ending, search.ending.outcome with
  | .underflowed _ target, .negativeCycle _ _ => rounds ++
    [⟨.debug, s!"A distance underflowed on a negative cycle through {vertexDetail target}"⟩]
  | _, _ => rounds

/-- The records of looking at tight arcs. -/
def Tightened.log {ρ : Type} (t : Tightened ρ) : List Record :=
  [⟨.trace, s!"Tight subgraph has {t.vertices} vertices and {t.arcs} edges"⟩,
    ⟨.trace,
      s!"{t.components} strongly connected components over {t.vertices} tight vertices"⟩]

/-- The record of finding no conflict. -/
def Tightened.verdict {ρ : Type} (t : Tightened ρ) : Record :=
  if t.allSingle then ⟨.debug, "The tight subgraph has no cycles, the graph is satisfiable"⟩
  else
    ⟨.debug, "No variable violates the tightening condition, the graph is satisfiable"⟩

namespace Graph

variable {w : Width} {ρ : Type}

/-- The answer that a conflict stands for, with its record. -/
def refute (g : Graph w ρ) (c : Conflict ρ) : Except Fault (Answer ρ) × List Record :=
  match c.text g with
  | .error e => (.error (.outOfRange e), [])
  | .ok text => (if c.reasons.isEmpty then .error .noReasons else .ok (.unsatisfiable c),
    [⟨.debug, "Found " ++ text⟩])

/-- Decides whether integers satisfy all edges of the graph. -/
def solve (g : Graph w ρ) (options : Options) (overflow : Overflow := .checked) : Report ρ :=
  match g.network with
  | .error e => { answer := .error (.outOfRange e) }
  | .ok net =>
    let search := net.shortestPaths overflow options.relaxation
    match search.ending.outcome with
    | .miscounted =>
      { answer := .error .overflow, rounds := search.rounds, log := search.log }
    | .tooShort v =>
      { answer := .error (.tooShort w v), rounds := search.rounds, log := search.log }
    | .negativeCycle paths entry =>
      let (answer, found) := match net.negativeCycle paths entry with
        | .ok c => g.refute c
        | .error fault => (.error fault, [])
      { answer, rounds := search.rounds, log := search.log ++ found }
    | .distances paths =>
      let t := net.tighten options.explanation paths
      let (answer, found) := match t.conflict with
        | .ok none => (.ok .satisfiable, [t.verdict])
        | .ok (some c) => g.refute c
        | .error fault => (.error fault, [])
      { answer, rounds := search.rounds, tightArcs := t.arcs, allSingle := t.allSingle,
        log := search.log ++ t.log ++ found }

end Graph

end Octagon

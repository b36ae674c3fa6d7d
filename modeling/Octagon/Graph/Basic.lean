import Octagon.Constraint
import Octagon.Table
import Std.Data.TreeMap

/-!
Difference graphs. Every registered occurrence has a vertex, and an edge `source → target` of weight
`k` says `target ≤ source + k`. Vertex 0 is the root: it stands for no occurrence, nothing leads
into it, and one edge of weight 0 leads from it to every other vertex, so that all of them can be
reached from one place.

A pair of vertices has at most one edge. A further difference between the same occurrences keeps the
smaller weight, and on equal weights what was there first. Edges stay in the order in which their
pairs were first connected; searches depend on that order.
-/

namespace Octagon

/-- A vertex, by its position. -/
abbrev Vertex := Nat

/-- The vertex that stands for no occurrence. -/
def root : Vertex := 0

/-- `target ≤ source + weight`. Only the edges that leave the root have no reason. -/
structure Edge (w : Width) (ρ : Type) where
  source : Vertex
  target : Vertex
  weight : Weight w
  reason : Option ρ

/-- A difference graph with weights of width `w` and reasons in `ρ`. -/
structure Graph (w : Width) (ρ : Type) where
  /-- The occurrences of the vertices after the root, in order. -/
  occurrences : Array Occurrence := #[]
  /-- The vertex of each occurrence, by the rank of the occurrence. -/
  vertices : Std.TreeMap Nat Vertex := {}
  edges : Array (Edge w ρ) := #[]
  /-- For each vertex the positions of the edges that leave it, in order. -/
  outgoing : Array (Array Nat) := #[#[]]
  /-- Numbers the variables. -/
  counter : KeyCounter Variable := {}
  /-- The names given to variables, by their numbers. -/
  names : Std.TreeMap Nat String := {}

namespace Graph

variable {w : Width} {ρ : Type}

/-- The graph of the root alone. -/
def empty : Graph w ρ := {}

/-- The number of vertices, with the root. -/
def numVertices (g : Graph w ρ) : Nat := g.occurrences.size + 1

/-- The number of edges, with those that leave the root. -/
def numEdges (g : Graph w ρ) : Nat := g.edges.size

/-- One more than the largest number of a variable seen so far. -/
def numVariables (g : Graph w ρ) : Nat := g.counter.count

/-! ### Reading -/

/-- The vertex of an occurrence, if it is registered. -/
def vertex? (g : Graph w ρ) (o : Occurrence) : Option Vertex := g.vertices[o.rank]?

/-- The occurrence of a vertex; the root has none. -/
def occurrence (g : Graph w ρ) : Vertex → Except IndexError (Option Occurrence)
  | 0 => .ok none
  | i + 1 => match g.occurrences[i]? with
    | some o => .ok (some o)
    | none => .error ⟨g.numVertices, i + 1⟩

/-- The edge at a position. -/
def edge (g : Graph w ρ) (e : Nat) : Except IndexError (Edge w ρ) := entryAt g.edges e

/-- The position of the edge `source → target`, if the two are connected. -/
def edgeId? (g : Graph w ρ) (source target : Vertex) : Option Nat :=
  (g.outgoing.getD source #[]).find? fun e => g.edges[e]?.any (·.target == target)

/-- The edge `source → target`, if the two are connected. -/
def edgeBetween (g : Graph w ρ) (source target : Vertex) : Option (Edge w ρ) :=
  (g.edgeId? source target).bind (g.edges[·]?)

/-- The edges that leave a vertex, in order. -/
def outgoingEdges (g : Graph w ρ) (v : Vertex) : Except IndexError (List (Edge w ρ)) := do
  let ids ← entryAt g.outgoing v
  return ids.toList.filterMap (g.edges[·]?)

/-- The reasons of the edge `source → target`: none where the two are not connected. -/
def reasons (g : Graph w ρ) (source target : Vertex) : List ρ :=
  ((g.edgeBetween source target).bind Edge.reason).toList

/-- The reasons of the edges along a walk, in order. -/
def reasonsAlong (g : Graph w ρ) (walk : List Vertex) : List ρ :=
  (walk.zip walk.tail).flatMap fun (source, target) => g.reasons source target

/-- The name of a variable, if it was given one. -/
def name? (g : Graph w ρ) (x : Variable) : Option String := g.names[x.id.toNat]?

/-- An occurrence, with the name of its variable where there is one. -/
def occurrenceText (g : Graph w ρ) (o : Occurrence) : String :=
  (g.name? o.var).getD o.var.text ++ o.polarity.sign

/-! ### Registering -/

/-- Gives `o` a vertex with an edge from the root, unless it has one; returns the vertex of `o`. -/
def registerOccurrence (g : Graph w ρ) (o : Occurrence) : Vertex × Graph w ρ :=
  match g.vertex? o with
  | some v => (v, g)
  | none => (g.numVertices, { g with
      occurrences := g.occurrences.push o
      vertices := g.vertices.insert o.rank g.numVertices
      edges := g.edges.push ⟨root, g.numVertices, 0, none⟩
      outgoing := (g.outgoing.modify root (·.push g.edges.size)).push #[]
      counter := g.counter.skipPast o.var })

/-- Registers both occurrences of `x`, the positive one first. -/
def registerVariable (g : Graph w ρ) (x : Variable) : Graph w ρ :=
  ((g.registerOccurrence x.positive).2.registerOccurrence x.negative).2

/-- A new variable, with both occurrences registered. -/
def newVariable (g : Graph w ρ) : Variable × Graph w ρ :=
  let (x, counter) := g.counter.next
  (x, { g with counter }.registerVariable x)

/-- A new variable with a name; the name replaces an earlier one of the same variable. -/
def newNamedVariable (g : Graph w ρ) (name : String) : Variable × Graph w ρ :=
  let (x, g) := g.newVariable
  (x, { g with names := g.names.insert x.id.toNat name })

/-- That many new variables. -/
def newVariables (g : Graph w ρ) : Nat → List Variable × Graph w ρ
  | 0 => ([], g)
  | count + 1 =>
    let (x, g) := g.newVariable
    let (xs, g) := g.newVariables count
    (x :: xs, g)

/-! ### Asserting -/

/-- Whether weight `k` would replace the weight of the edge at position `e`. -/
def improves (g : Graph w ρ) (e : Nat) (k : Weight w) : Bool := g.edges[e]?.any (k < ·.weight)

/-- Gives the edge at position `e` another weight and reason. -/
def reweigh (g : Graph w ρ) (e : Nat) (k : Weight w) (reason : ρ) : Graph w ρ :=
  { g with edges := g.edges.modify e fun edge => { edge with weight := k, reason := some reason } }

/-- Connects `source → target` with weight `k`, or tightens the edge that is there; returns the
position of the edge. -/
def connect (g : Graph w ρ) (source target : Vertex) (k : Weight w) (reason : ρ) :
    Nat × Graph w ρ :=
  match g.edgeId? source target with
  | some e => (e, if g.improves e k then g.reweigh e k reason else g)
  | none => (g.edges.size, { g with
      edges := g.edges.push ⟨source, target, k, some reason⟩
      outgoing := g.outgoing.modify source (·.push g.edges.size) })

/-- Asserts a difference for a reason; returns the position of its edge. -/
def addEdge (g : Graph w ρ) (d : Difference w) (reason : ρ) : Except GraphError (Nat × Graph w ρ) :=
  match g.vertex? d.source with
  | none => .error (.unregistered d.source)
  | some source => match g.vertex? d.target with
    | none => .error (.unregistered d.target)
    | some target => .ok (g.connect source target d.weight reason)

/-- Asserts differences in order, all for one reason. -/
def addEdges (g : Graph w ρ) (ds : List (Difference w)) (reason : ρ) :
    Except GraphError (Graph w ρ) :=
  ds.foldlM (fun g d => (g.addEdge d reason).map Prod.snd) g

/-- The first occurrence in `ds` without a vertex, the source of a difference before its target. -/
def missing? (g : Graph w ρ) (ds : List (Difference w)) : Option Occurrence :=
  (ds.flatMap fun d => [d.source, d.target]).find? fun o => (g.vertex? o).isNone

/-- Asserts a constraint for a reason: all of its differences, or none where it is refused. -/
def addConstraint (g : Graph w ρ) (c : Constraint w) (reason : ρ) :
    Except GraphError (Graph w ρ) := do
  let ds ← c.differences
  match g.missing? ds with
  | some o => .error (.unregistered o)
  | none => g.addEdges ds reason

end Graph

end Octagon

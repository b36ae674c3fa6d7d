import Octagon.Graph.History
import Std.Data.HashMap

/-!
Difference graphs as tables. A vertex is stored with its occurrence and the positions of the edges
that leave it, an edge with its ends and its weight. Three more tables look things up: the position
of an edge by its ends, its reasons by its ends, and a vertex by its occurrence. Nothing ties the
tables together but that each call writes to all of them that it has to. A position that a table
does not have is refused.
-/

namespace Octagon

instance : Hashable Occurrence := ⟨fun o => hash o.rank⟩

/-- A vertex as it is stored; the root has no occurrence. -/
structure StoredVertex where
  occurrence : Option Occurrence := none
  /-- The positions of the edges that leave the vertex, in order. -/
  outgoing : Array Nat := #[]

/-- The vertex with one more edge that leaves it. -/
def StoredVertex.leave (x : StoredVertex) (e : Nat) : StoredVertex :=
  { x with outgoing := x.outgoing.push e }

/-- An edge as it is stored, its reasons apart. -/
structure StoredEdge (w : Width) where
  source : Vertex
  target : Vertex
  weight : Weight w

/-- The tables of a graph with weights of width `w` and reasons in `ρ`. -/
structure Tables (w : Width) (ρ : Type) where
  /-- The vertices, the root first. -/
  vertices : Array StoredVertex := #[{}]
  edges : Array (StoredEdge w) := #[]
  edgeByEnds : Std.HashMap (Vertex × Vertex) Nat := {}
  reasons : Std.HashMap (Vertex × Vertex) (List ρ) := {}
  vertexByOccurrence : Std.HashMap Occurrence Vertex := {}
  counter : KeyCounter Variable := {}
  names : Std.TreeMap Nat String := {}

/-- The entries with the one at a position changed. -/
def alterAt {α : Type} (entries : Array α) (index : Nat) (f : α → α) :
    Except IndexError (Array α) :=
  if index < entries.size then .ok (entries.modify index f) else .error ⟨entries.size, index⟩

namespace Tables

variable {w : Width} {ρ : Type}

/-! ### Reading -/

/-- The vertex of an occurrence, if it is registered. -/
def vertex? (t : Tables w ρ) (o : Occurrence) : Option Vertex := t.vertexByOccurrence[o]?

/-- The occurrence of a vertex; the root has none. -/
def occurrence (t : Tables w ρ) (v : Vertex) : Except IndexError (Option Occurrence) :=
  (entryAt t.vertices v).map StoredVertex.occurrence

/-- The edge `source → target`, if the two are connected. -/
def edgeBetween (t : Tables w ρ) (source target : Vertex) :
    Except IndexError (Option (StoredEdge w)) :=
  match t.edgeByEnds[(source, target)]? with
  | some e => (entryAt t.edges e).map some
  | none => .ok none

/-- The edges that leave a vertex, in order. -/
def outgoingEdges (t : Tables w ρ) (v : Vertex) : Except IndexError (List (StoredEdge w)) := do
  let x ← entryAt t.vertices v
  x.outgoing.toList.mapM (entryAt t.edges)

/-- The reasons of the edge `source → target`: none where the two are not connected. -/
def reasonsBetween (t : Tables w ρ) (source target : Vertex) : List ρ :=
  t.reasons.getD (source, target) []

/-! ### Registering -/

/-- Gives `o` a vertex with an edge from the root, unless it has one; returns the vertex of `o`. -/
def registerOccurrence (t : Tables w ρ) (o : Occurrence) :
    Except IndexError (Vertex × Tables w ρ) :=
  match t.vertex? o with
  | some v => .ok (v, t)
  | none => do
    let v := t.vertices.size
    let e := t.edges.size
    let vertices ← alterAt (t.vertices.push { occurrence := some o }) root (·.leave e)
    return (v, { t with
      vertices
      edges := t.edges.push ⟨root, v, 0⟩
      edgeByEnds := t.edgeByEnds.insert (root, v) e
      vertexByOccurrence := t.vertexByOccurrence.insert o v
      counter := t.counter.skipPast o.var })

/-- Registers both occurrences of `x`, the positive one first. -/
def registerVariable (t : Tables w ρ) (x : Variable) : Except IndexError (Tables w ρ) := do
  let (_, t) ← t.registerOccurrence x.positive
  let (_, t) ← t.registerOccurrence x.negative
  return t

/-- A new variable, with both occurrences registered. -/
def newVariable (t : Tables w ρ) : Except IndexError (Variable × Tables w ρ) := do
  let (x, counter) := t.counter.next
  return (x, ← { t with counter }.registerVariable x)

/-- A new variable with a name; the name replaces an earlier one of the same variable. -/
def newNamedVariable (t : Tables w ρ) (name : String) :
    Except IndexError (Variable × Tables w ρ) := do
  let (x, t) ← t.newVariable
  return (x, { t with names := t.names.insert x.id.toNat name })

/-! ### Asserting -/

/-- Connects `source → target` with weight `k`, or tightens the edge that is there; returns the
position of the edge. -/
def connect (t : Tables w ρ) (source target : Vertex) (k : Weight w) (reason : ρ) :
    Except IndexError (Nat × Tables w ρ) :=
  match t.edgeByEnds[(source, target)]? with
  | some e => do
    let edge ← entryAt t.edges e
    if k < edge.weight then
      let edges ← alterAt t.edges e fun edge => { edge with weight := k }
      return (e, { t with edges, reasons := t.reasons.insert (source, target) [reason] })
    else return (e, t)
  | none => do
    let e := t.edges.size
    let vertices ← alterAt t.vertices source (·.leave e)
    return (e, { t with
      vertices
      edges := t.edges.push ⟨source, target, k⟩
      edgeByEnds := t.edgeByEnds.insert (source, target) e
      reasons := t.reasons.insert (source, target) [reason] })

/-- Inserts a difference; returns the position of its edge. -/
def insert (t : Tables w ρ) (d : Difference w) (reason : ρ) :
    Except IndexError (Except GraphError Nat × Tables w ρ) :=
  match t.vertex? d.source with
  | none => .ok (.error (.unregistered d.source), t)
  | some source => match t.vertex? d.target with
    | none => .ok (.error (.unregistered d.target), t)
    | some target => do
      let (e, t) ← t.connect source target d.weight reason
      return (.ok e, t)

/-- Inserts differences in order, up to the first one that is refused. -/
def insertAll (t : Tables w ρ) (reason : ρ) :
    List (Difference w) → Except IndexError (Except GraphError Unit × Tables w ρ)
  | [] => .ok (.ok (), t)
  | d :: ds => do
    match ← t.insert d reason with
    | (.error e, t) => return (.error e, t)
    | (.ok _, t) => t.insertAll reason ds

/-- The first occurrence in `ds` without a vertex, the source of a difference before its target. -/
def missing? (t : Tables w ρ) (ds : List (Difference w)) : Option Occurrence :=
  (ds.flatMap fun d => [d.source, d.target]).find? fun o => (t.vertex? o).isNone

/-- Inserts the differences of a constraint, once all of their occurrences are found registered. -/
def insertConstraint (t : Tables w ρ) (c : Constraint w) (reason : ρ) :
    Except IndexError (Except GraphError Unit × Tables w ρ) :=
  match c.differences with
  | .error e => .ok (.error e, t)
  | .ok ds => match t.missing? ds with
    | some o => .ok (.error (.unregistered o), t)
    | none => t.insertAll reason ds

/-! ### Calls -/

/-- The tables after a call. -/
def perform (t : Tables w ρ) : Call w ρ → Except IndexError (Tables w ρ)
  | .newVariable => t.newVariable.map Prod.snd
  | .newNamedVariable name => (t.newNamedVariable name).map Prod.snd
  | .registerVariable x => t.registerVariable x
  | .registerOccurrence o => (t.registerOccurrence o).map Prod.snd
  | .addEdge d reason => (t.insert d reason).map Prod.snd
  | .addConstraint c reason => (t.insertConstraint c reason).map Prod.snd

/-- The tables after calls in order. -/
def run (t : Tables w ρ) (calls : List (Call w ρ)) : Except IndexError (Tables w ρ) :=
  calls.foldlM perform t

/-- The tables that calls fill. -/
def ofCalls (calls : List (Call w ρ)) : Except IndexError (Tables w ρ) := run {} calls

end Tables

end Octagon

import Octagon.Graph.Tables
import Octagon.Proofs.Graph.Fresh

/-!
Tables kept in step. What the tables of a graph hold is what is read from the graph itself: each
call refers to positions that the tables have, and writes to them what makes them show the graph
after the call. So however many calls there were, accepted or refused, the tables agree with each
other as the graph is consistent.
-/

namespace Octagon

/-! ### Arrays -/

section arrays

variable {α β : Type}

theorem alterAt_eq_ok {xs : Array α} {i : Nat} {f : α → α} (h : i < xs.size) :
    alterAt xs i f = .ok (xs.modify i f) := if_pos h

/-- What is read of each entry changes with the entry. -/
theorem map_modify {f : α → β} {g : α → α} {k : β → β} (h : ∀ a, f (g a) = k (f a)) (xs : Array α)
    (i : Nat) : (xs.modify i g).map f = (xs.map f).modify i k := by
  refine Array.ext_getElem? fun j => ?_
  simp only [Array.getElem?_map, Array.getElem?_modify]
  split
  · simp only [Option.map_map, Function.comp_def, h]
  · rfl

theorem map_modify_of_eq {f : α → β} {g : α → α} (h : ∀ a, f (g a) = f a) (xs : Array α)
    (i : Nat) : (xs.modify i g).map f = xs.map f := by
  refine Array.ext_getElem? fun j => ?_
  simp only [Array.getElem?_map, Array.getElem?_modify]
  split
  · simp only [Option.map_map, Function.comp_def, h]
  · rfl

theorem push_modify {xs : Array α} {i : Nat} (h : i < xs.size) (a : α) (f : α → α) :
    (xs.push a).modify i f = (xs.modify i f).push a := by
  refine Array.ext_getElem? fun j => ?_
  simp only [Array.getElem?_modify, Array.getElem?_push, Array.size_modify]
  by_cases hj : j = xs.size
  · rw [if_neg (by omega), if_pos hj, if_pos hj]
  · rw [if_neg hj, if_neg hj]

theorem entryAt_map (f : α → β) (xs : Array α) (i : Nat) :
    entryAt (xs.map f) i = (entryAt xs i).map f := by
  unfold entryAt
  rw [Array.getElem?_map, Array.size_map]
  cases xs[i]? <;> rfl

theorem mapM_entryAt {xs : Array α} : ∀ {is : List Nat}, (∀ i ∈ is, i < xs.size) →
    is.mapM (entryAt xs) = .ok (is.filterMap (xs[·]?))
  | [], _ => rfl
  | i :: is, h => by
      obtain ⟨hi, hrest⟩ := List.forall_mem_cons.1 h
      have hget : xs[i]? = some xs[i] := Array.getElem?_eq_getElem hi
      rw [List.mapM_cons, mapM_entryAt hrest, List.filterMap_cons, entryAt, hget]
      rfl

end arrays

/-- An edge that leaves a vertex is no matter to the occurrences. -/
theorem map_occurrence_leave (xs : Array StoredVertex) (i e : Nat) :
    (xs.modify i (·.leave e)).map StoredVertex.occurrence = xs.map StoredVertex.occurrence :=
  map_modify_of_eq (f := StoredVertex.occurrence) (g := (·.leave e)) (fun _ => rfl) xs i

theorem map_outgoing_leave (xs : Array StoredVertex) (i e : Nat) :
    (xs.modify i (·.leave e)).map StoredVertex.outgoing =
      (xs.map StoredVertex.outgoing).modify i (·.push e) :=
  map_modify (f := StoredVertex.outgoing) (g := (·.leave e)) (k := (·.push e)) (fun _ => rfl) xs i

variable {w : Width} {ρ : Type}

/-! ### Edges found by their ends -/

namespace Graph

variable {g g' : Graph w ρ} {s t s' t' : Vertex} {k : Weight w} {r : ρ}

theorem Valid.edgeId?_eq_of_ends (h : g.Valid) (h' : g'.Valid) (hends : g'.ends = g.ends)
    (s t : Vertex) : g'.edgeId? s t = g.edgeId? s t := by
  refine Option.ext fun i => ?_
  rw [h.edgeId?_eq_some_iff, h'.edgeId?_eq_some_iff, hends]

/-- One more edge is found by its ends, and the others as before. -/
theorem Valid.edgeId?_of_ends_concat (h : g.Valid) (h' : g'.Valid) {p : Vertex × Vertex}
    (hends : g'.ends = g.ends ++ [p]) (s t : Vertex) :
    g'.edgeId? s t = if p = (s, t) then some g.edges.size else g.edgeId? s t := by
  split
  · rename_i hp
    rw [h'.edgeId?_eq_some_iff, hends, hp, ← length_ends, List.getElem?_concat_length]
  · rename_i hp
    refine Option.ext fun i => ?_
    rw [h.edgeId?_eq_some_iff, h'.edgeId?_eq_some_iff, hends, List.getElem?_append]
    split
    · rfl
    · rename_i hi
      rw [List.getElem?_eq_none (not_lt.1 hi)]
      refine iff_of_false (fun hmem => hp ?_) nofun
      exact (List.mem_singleton.1 (List.mem_of_getElem? hmem)).symm

section connect

variable (h : g.Valid) (hs : s ≠ root ∧ s < g.numVertices) (ht : t ≠ root ∧ t < g.numVertices)

include h hs ht

/-- To connect two vertices leaves the reasons of all other pairs as they are. -/
theorem Valid.reasons_connect_of_ne (hne : (s', t') ≠ (s, t)) :
    (g.connect s t k r).2.reasons s' t' = g.reasons s' t' := by
  have hvalid := h.connect hs ht (k := k) (r := r)
  have hsame : (g.connect s t k r).2.edgeBetween s' t' = g.edgeBetween s' t' := by
    refine Option.ext fun e => ?_
    rw [h.edgeBetween_eq_some_iff, hvalid.edgeBetween_eq_some_iff]
    refine and_congr_left fun ⟨hs', ht'⟩ => h.mem_edges_connect ?_
    rwa [hs', ht']
  rw [reasons, reasons, hsame]

/-- An edge that is new, or lighter than the one that was there, has the given reason alone. -/
theorem Valid.reasons_connect (hnew : ∀ e, g.edgeBetween s t = some e → k < e.weight) :
    (g.connect s t k r).2.reasons s t = [r] := by
  rw [reasons, h.edgeBetween_connect hs ht]
  cases he : g.edgeBetween s t with
  | none => rfl
  | some e => simp only [if_pos (hnew e he)]; rfl

end connect

end Graph

/-! ### What tables show -/

/-- The edge without its reason. -/
def Edge.stored (e : Edge w ρ) : StoredEdge w := ⟨e.source, e.target, e.weight⟩

/-- The tables hold what is read from the graph. -/
structure Tables.Shows (t : Tables w ρ) (g : Graph w ρ) : Prop where
  occurrences_eq : t.vertices.map StoredVertex.occurrence = #[none] ++ g.occurrences.map some
  outgoing_eq : t.vertices.map StoredVertex.outgoing = g.outgoing
  edges_eq : t.edges = g.edges.map Edge.stored
  edgeByEnds_eq : ∀ u v, t.edgeByEnds[(u, v)]? = g.edgeId? u v
  reasonsBetween_eq : ∀ u v, t.reasonsBetween u v = g.reasons u v
  vertex?_eq : ∀ o, t.vertex? o = g.vertex? o
  counter_eq : t.counter = g.counter
  names_eq : t.names = g.names

namespace Tables

theorem shows_empty : ({} : Tables w ρ).Shows .empty := by
  constructor
  case occurrences_eq => simp [Graph.empty]
  case outgoing_eq => simp [Graph.empty]
  case edges_eq => simp [Graph.empty]
  case edgeByEnds_eq => simp [Graph.edgeId?, Graph.empty]
  case reasonsBetween_eq =>
    simp [reasonsBetween, Graph.reasons, Graph.edgeBetween, Graph.edgeId?, Graph.empty]
  case vertex?_eq => simp [vertex?, Graph.vertex?, Graph.empty]
  case counter_eq => rfl
  case names_eq => rfl

namespace Shows

variable {t : Tables w ρ} {g : Graph w ρ} (h : t.Shows g)

include h

theorem size_vertices : t.vertices.size = g.numVertices := by
  have hsize := congrArg Array.size h.occurrences_eq
  simpa [Graph.numVertices, Nat.add_comm] using hsize

theorem size_edges : t.edges.size = g.edges.size := by
  rw [h.edges_eq, Array.size_map]

/-! ### Registering -/

theorem relabel (counter : KeyCounter Variable) (names : Std.TreeMap Nat String) :
    Shows { t with counter, names } { g with counter, names } := by
  obtain ⟨_, _, _, _, _, _, _, _⟩ := h
  constructor <;> first | assumption | rfl

theorem registerOccurrence (hg : g.Valid) (o : Occurrence) : ∃ t',
    t.registerOccurrence o = .ok ((g.registerOccurrence o).1, t') ∧
      t'.Shows (g.registerOccurrence o).2 := by
  cases ho : g.vertex? o with
  | some v =>
    have hsame : g.registerOccurrence o = (v, g) := by simp [Graph.registerOccurrence, ho]
    refine ⟨t, ?_, hsame ▸ h⟩
    simp only [Tables.registerOccurrence, h.vertex?_eq, ho, hsame]
  | none =>
    have hvalid := hg.register ho
    have hroot : root < (t.vertices.push { occurrence := some o }).size := by
      rw [Array.size_push]
      exact Nat.succ_pos _
    have hid := hg.edgeId?_of_ends_concat hvalid (Graph.ends_registerOccurrence ho)
    have hget : (g.registerOccurrence o).1 = t.vertices.size := by
      simp [Graph.registerOccurrence, ho, h.size_vertices]
    refine ⟨{ t with
      vertices := (t.vertices.push { occurrence := some o }).modify root (·.leave t.edges.size)
      edges := t.edges.push ⟨root, t.vertices.size, 0⟩
      edgeByEnds := t.edgeByEnds.insert (root, t.vertices.size) t.edges.size
      vertexByOccurrence := t.vertexByOccurrence.insert o t.vertices.size
      counter := t.counter.skipPast o.var }, ?_, ?_⟩
    · simp only [Tables.registerOccurrence, h.vertex?_eq, ho, alterAt_eq_ok hroot, hget]
      rfl
    constructor
    case occurrences_eq =>
      rw [map_occurrence_leave, Array.map_push, h.occurrences_eq,
        Graph.occurrences_registerOccurrence ho, Array.map_push, Array.append_push]
    case outgoing_eq =>
      have hlt : root < g.outgoing.size := hg.size_outgoing ▸ Nat.succ_pos _
      rw [map_outgoing_leave, Array.map_push, h.outgoing_eq, push_modify hlt, h.size_edges]
      simp [Graph.registerOccurrence, ho]
    case edges_eq =>
      simp [Graph.registerOccurrence, ho, h.edges_eq, h.size_vertices, Edge.stored]
    case edgeByEnds_eq =>
      intro u v
      rw [hid, Std.HashMap.getElem?_insert, h.edgeByEnds_eq, h.size_vertices, h.size_edges]
      simp only [beq_iff_eq]
    case reasonsBetween_eq =>
      intro u v
      exact (h.reasonsBetween_eq u v).trans (hg.reasons_registerOccurrence ho u v).symm
    case vertex?_eq =>
      intro p
      rw [Graph.vertex?_registerOccurrence ho, vertex?, Std.HashMap.getElem?_insert,
        h.size_vertices]
      simp only [beq_iff_eq]
      exact if_congr Iff.rfl rfl (h.vertex?_eq p)
    case counter_eq => simp [Graph.registerOccurrence, ho, h.counter_eq]
    case names_eq => simp [Graph.registerOccurrence, ho, h.names_eq]

theorem registerVariable (hg : g.Valid) (x : Variable) : ∃ t',
    t.registerVariable x = .ok t' ∧ t'.Shows (g.registerVariable x) := by
  obtain ⟨t₁, hpos, h₁⟩ := h.registerOccurrence hg x.positive
  have hg₁ := (hg.extends_registerOccurrence x.positive).1
  obtain ⟨t₂, hneg, h₂⟩ := h₁.registerOccurrence hg₁ x.negative
  refine ⟨t₂, ?_, h₂⟩
  simp only [Tables.registerVariable, hpos, hneg, bind, Except.bind]
  rfl

theorem newVariable (hg : g.Valid) : ∃ t',
    t.newVariable = .ok (g.newVariable.1, t') ∧ t'.Shows g.newVariable.2 := by
  have hnext := h.relabel g.counter.next.2 g.names
  have hg' := (hg.extends_relabel g.counter.next.2 g.names).1
  obtain ⟨t', hreg, h'⟩ := hnext.registerVariable hg' g.counter.next.1
  refine ⟨t', ?_, h'⟩
  simp only [Tables.newVariable, h.counter_eq]
  rw [← h.names_eq] at hreg
  simp only [hreg, bind, Except.bind]
  rfl

theorem newNamedVariable (hg : g.Valid) (name : String) : ∃ t',
    t.newNamedVariable name = .ok ((g.newNamedVariable name).1, t') ∧
      t'.Shows (g.newNamedVariable name).2 := by
  obtain ⟨t', hnew, h'⟩ := h.newVariable hg
  refine ⟨{ t' with names := t'.names.insert g.newVariable.1.id.toNat name }, ?_, ?_⟩
  · simp only [Tables.newNamedVariable, hnew, bind, Except.bind]
    rfl
  · have hnamed := h'.relabel g.newVariable.2.counter
      (g.newVariable.2.names.insert g.newVariable.1.id.toNat name)
    simpa only [Graph.newNamedVariable, h'.counter_eq, h'.names_eq] using hnamed

/-! ### Asserting -/

section connect

variable {u v : Vertex} {k : Weight w} {r : ρ} (hg : g.Valid) (hu : u ≠ root ∧ u < g.numVertices)
  (hv : v ≠ root ∧ v < g.numVertices)

include hg hu hv

/-- What is written for the reasons of a pair is all that changes of the reasons. -/
theorem getD_insert_reasons (hnew : ∀ e, g.edgeBetween u v = some e → k < e.weight)
    (u' v' : Vertex) : (t.reasons.insert (u, v) [r]).getD (u', v') [] =
      (g.connect u v k r).2.reasons u' v' := by
  rw [Std.HashMap.getD_insert]
  simp only [beq_iff_eq]
  split
  · rename_i heq
    obtain ⟨rfl, rfl⟩ := Prod.mk.inj heq
    exact (hg.reasons_connect hu hv hnew).symm
  · rename_i hne
    rw [hg.reasons_connect_of_ne hu hv (Ne.symm hne)]
    exact h.reasonsBetween_eq u' v'

omit hv in
/-- Another weight is written to the edge, and its reason to the reasons. -/
theorem reweigh {i : Nat} (hi : g.ends[i]? = some (u, v))
    (hreasons : ∀ u' v', (t.reasons.insert (u, v) [r]).getD (u', v') [] =
      (g.reweigh i k r).reasons u' v') :
    Shows { t with
      edges := t.edges.modify i fun edge => { edge with weight := k }
      reasons := t.reasons.insert (u, v) [r] } (g.reweigh i k r) := by
  have hvalid := hg.reweigh (k := k) (r := r) hi hu.1
  constructor
  case edges_eq =>
    rw [h.edges_eq]
    refine (map_modify (f := Edge.stored) (k := fun edge => { edge with weight := k })
      (g := fun edge => { edge with weight := k, reason := some r }) ?_ g.edges i).symm
    exact fun _ => rfl
  case edgeByEnds_eq =>
    intro u' v'
    rw [hg.edgeId?_eq_of_ends hvalid (Graph.ends_reweigh g i k r)]
    exact h.edgeByEnds_eq u' v'
  case reasonsBetween_eq => exact hreasons
  all_goals obtain ⟨_, _, _, _, _, _, _, _⟩ := h; assumption

/-- An edge that is there is tightened in place, or left. -/
theorem connect_of_some {i : Nat} (hid : g.edgeId? u v = some i) : ∃ t',
    t.connect u v k r = .ok ((g.connect u v k r).1, t') ∧ t'.Shows (g.connect u v k r).2 := by
  obtain ⟨e, he, hends⟩ := (hg.edgeId?_iff u v i).1 hid
  have hbetween : g.edgeBetween u v = some e := by
    rw [Graph.edgeBetween, hid, Option.bind_some, he]
  have hget : entryAt t.edges i = .ok e.stored := by
    rw [entryAt, h.edges_eq, Array.getElem?_map, he]
    rfl
  have himproves : g.improves i k = decide (k < e.weight) := by
    rw [Graph.improves, he, Option.any_some]
  by_cases hlt : k < e.weight
  · have hconn : g.connect u v k r = (i, g.reweigh i k r) := by
      simp only [Graph.connect, hid, himproves, decide_eq_true hlt, if_true]
    have hsize : i < t.edges.size := by
      rw [h.size_edges]
      exact (Array.getElem?_eq_some_iff.1 he).1
    have hreasons := h.getD_insert_reasons (r := r) hg hu hv (by simpa [hbetween] using hlt)
    rw [hconn] at hreasons ⊢
    refine ⟨_, ?_, h.reweigh hg hu (hg.edgeId?_eq_some_iff.1 hid) hreasons⟩
    simp only [Tables.connect, h.edgeByEnds_eq, hid, hget, alterAt_eq_ok hsize, bind, Except.bind]
    exact if_pos hlt
  · have hconn : g.connect u v k r = (i, g) := by
      simp [Graph.connect, hid, himproves, hlt]
    rw [hconn]
    refine ⟨t, ?_, h⟩
    simp only [Tables.connect, h.edgeByEnds_eq, hid, hget, bind, Except.bind]
    exact if_neg hlt

/-- Vertices that are not connected get an edge in every table. -/
theorem connect_of_none (hid : g.edgeId? u v = none) : ∃ t',
    t.connect u v k r = .ok ((g.connect u v k r).1, t') ∧ t'.Shows (g.connect u v k r).2 := by
  have hnone : g.edgeBetween u v = none := by rw [Graph.edgeBetween, hid, Option.bind_none]
  have hreasons := h.getD_insert_reasons (k := k) (r := r) hg hu hv (by simp [hnone])
  have hvalid := hg.connect hu hv (k := k) (r := r)
  have hends : (g.connect u v k r).2.ends = g.ends ++ [(u, v)] := by
    simp [Graph.ends, (Graph.connect_of_none hid).1]
  have hids := hg.edgeId?_of_ends_concat hvalid hends
  have hsize : u < t.vertices.size := by
    rw [h.size_vertices]
    exact hu.2
  refine ⟨{ t with
    vertices := t.vertices.modify u (·.leave t.edges.size)
    edges := t.edges.push ⟨u, v, k⟩
    edgeByEnds := t.edgeByEnds.insert (u, v) t.edges.size
    reasons := t.reasons.insert (u, v) [r] }, ?_, ?_⟩
  · simp only [Tables.connect, h.edgeByEnds_eq, hid, alterAt_eq_ok hsize, bind, Except.bind,
      Graph.connect, h.size_edges]
    rfl
  constructor
  case occurrences_eq =>
    rw [map_occurrence_leave, h.occurrences_eq, (Graph.connect_of_none hid).2.2.1]
  case outgoing_eq =>
    rw [map_outgoing_leave, h.outgoing_eq, (Graph.connect_of_none hid).2.1, h.size_edges]
  case edges_eq => simp [Graph.connect, hid, h.edges_eq, Edge.stored]
  case edgeByEnds_eq =>
    intro u' v'
    rw [hids, Std.HashMap.getElem?_insert, h.edgeByEnds_eq, h.size_edges]
    simp only [beq_iff_eq]
  case reasonsBetween_eq => exact hreasons
  case vertex?_eq => exact fun o => (h.vertex?_eq o).trans (g.vertex?_connect u v k r o).symm
  case counter_eq => exact h.counter_eq.trans (g.counter_connect u v k r).symm
  case names_eq => simp [Graph.connect, hid, h.names_eq]

theorem connect : ∃ t',
    t.connect u v k r = .ok ((g.connect u v k r).1, t') ∧ t'.Shows (g.connect u v k r).2 := by
  cases hid : g.edgeId? u v with
  | some i => exact h.connect_of_some hg hu hv hid
  | none => exact h.connect_of_none hg hu hv hid

end connect

theorem insert (hg : g.Valid) (d : Difference w) (r : ρ) : ∃ t',
    t.insert d r = .ok ((g.insert d r).1, t') ∧ t'.Shows (g.insert d r).2 := by
  unfold Tables.insert Graph.insert
  rw [h.vertex?_eq, h.vertex?_eq]
  cases hs : g.vertex? d.source with
  | none => exact ⟨t, rfl, h⟩
  | some u =>
    cases ht : g.vertex? d.target with
    | none => exact ⟨t, rfl, h⟩
    | some v =>
      obtain ⟨t', hconn, h'⟩ := h.connect (k := d.weight) (r := r) hg (hg.vertex?_lt hs)
        (hg.vertex?_lt ht)
      refine ⟨t', ?_, h'⟩
      simp only [hconn, bind, Except.bind]
      rfl

omit h in
theorem insertAll (r : ρ) : ∀ (ds : List (Difference w)) {t : Tables w ρ} {g : Graph w ρ},
    t.Shows g → g.Valid → ∃ t',
      t.insertAll r ds = .ok ((g.insertAll r ds).1, t') ∧ t'.Shows (g.insertAll r ds).2
  | [], t, _, h, _ => ⟨t, rfl, h⟩
  | d :: ds, t, g, h, hg => by
      obtain ⟨t₁, hins, h₁⟩ := h.insert hg d r
      have hg₁ := hg.insert d r
      unfold Tables.insertAll Graph.insertAll
      cases hd : g.insert d r with
      | mk outcome next =>
        rw [hd] at hins h₁ hg₁
        simp only [hins, bind, Except.bind]
        cases outcome with
        | error e => exact ⟨t₁, rfl, h₁⟩
        | ok i => exact insertAll r ds h₁ hg₁

theorem missing?_eq (ds : List (Difference w)) : t.missing? ds = g.missing? ds := by
  simp only [Tables.missing?, Graph.missing?, h.vertex?_eq]

theorem insertConstraint (hg : g.Valid) (c : Constraint w) (r : ρ) : ∃ t',
    t.insertConstraint c r = .ok ((g.insertConstraint c r).1, t') ∧
      t'.Shows (g.insertConstraint c r).2 := by
  unfold Tables.insertConstraint Graph.insertConstraint
  cases c.differences with
  | error e => exact ⟨t, rfl, h⟩
  | ok ds =>
    simp only [h.missing?_eq]
    cases g.missing? ds with
    | some o => exact ⟨t, rfl, h⟩
    | none => exact insertAll r ds h hg

/-! ### Calls -/

/-- A call finds every position it refers to, and the tables show the graph after it. -/
theorem perform (hg : g.Valid) (call : Call w ρ) : ∃ t',
    t.perform call = .ok t' ∧ t'.Shows (g.perform call) := by
  cases call with
  | newVariable =>
    obtain ⟨t', hcall, h'⟩ := h.newVariable hg
    exact ⟨t', by rw [Tables.perform, hcall]; rfl, h'⟩
  | newNamedVariable name =>
    obtain ⟨t', hcall, h'⟩ := h.newNamedVariable hg name
    exact ⟨t', by rw [Tables.perform, hcall]; rfl, h'⟩
  | registerVariable x => exact h.registerVariable hg x
  | registerOccurrence o =>
    obtain ⟨t', hcall, h'⟩ := h.registerOccurrence hg o
    exact ⟨t', by rw [Tables.perform, hcall]; rfl, h'⟩
  | addEdge d r =>
    obtain ⟨t', hcall, h'⟩ := h.insert hg d r
    refine ⟨t', by rw [Tables.perform, hcall]; rfl, ?_⟩
    rwa [Graph.perform_addEdge]
  | addConstraint c r =>
    obtain ⟨t', hcall, h'⟩ := h.insertConstraint hg c r
    refine ⟨t', by rw [Tables.perform, hcall]; rfl, ?_⟩
    rwa [Graph.perform_addConstraint]

omit h in
theorem run : ∀ (calls : List (Call w ρ)) {t : Tables w ρ} {g : Graph w ρ}, t.Shows g → g.Valid →
    ∃ t', t.run calls = .ok t' ∧ t'.Shows (g.run calls)
  | [], t, _, h, _ => ⟨t, rfl, h⟩
  | call :: calls, t, g, h, hg => by
      obtain ⟨t₁, hcall, h₁⟩ := h.perform hg call
      obtain ⟨t₂, hrun, h₂⟩ := run calls h₁ (hg.perform call).1
      refine ⟨t₂, ?_, h₂⟩
      rw [Tables.run, List.foldlM_cons, hcall]
      exact hrun

end Shows

/-- However many calls there were, the tables show the graph that the calls build. -/
theorem shows_ofCalls (calls : List (Call w ρ)) : ∃ t : Tables w ρ,
    ofCalls calls = .ok t ∧ t.Shows (Graph.ofCalls calls) :=
  shows_empty.run calls Graph.valid_empty

/-! ### What is read of tables -/

namespace Shows

variable {t : Tables w ρ} {g : Graph w ρ} (h : t.Shows g)

include h

theorem occurrence_eq (v : Vertex) : t.occurrence v = g.occurrence v := by
  rw [Tables.occurrence, ← entryAt_map, h.occurrences_eq, entryAt, Array.size_append,
    Array.size_map, Array.getElem?_append]
  cases v with
  | zero => rfl
  | succ i =>
    simp only [List.size_toArray, List.length_singleton, Nat.not_lt.2 (Nat.le_add_left 1 i),
      if_false, Nat.succ_eq_add_one, Nat.add_sub_cancel, Array.getElem?_map, Graph.occurrence,
      Graph.numVertices, Nat.add_comm 1]
    cases g.occurrences[i]? <;> rfl

theorem getElem?_edges (i : Nat) : t.edges[i]? = g.edges[i]?.map Edge.stored := by
  rw [h.edges_eq, Array.getElem?_map]

theorem mem_edges_iff {x : StoredEdge w} :
    x ∈ t.edges.toList ↔ ∃ e ∈ g.edges.toList, e.stored = x := by
  rw [h.edges_eq, Array.toList_map, List.mem_map]

theorem edgeBetween_eq (hg : g.Valid) (u v : Vertex) :
    t.edgeBetween u v = .ok ((g.edgeBetween u v).map Edge.stored) := by
  rw [Tables.edgeBetween, h.edgeByEnds_eq, Graph.edgeBetween]
  cases hid : g.edgeId? u v with
  | none => rfl
  | some i =>
    obtain ⟨e, he, -⟩ := (hg.edgeId?_iff u v i).1 hid
    simp only [entryAt, h.getElem?_edges, he, Option.map_some, Option.bind_some]
    rfl

/-- A vertex holds the positions of the edges that leave it. -/
theorem outgoing_toList (hg : g.Valid) {v : Vertex} {x : StoredVertex}
    (hx : t.vertices[v]? = some x) : x.outgoing.toList =
      (List.range t.edges.size).filter fun e => t.edges[e]?.any (·.source == v) := by
  have hout : g.outgoing[v]? = some x.outgoing := by
    rw [← h.outgoing_eq, Array.getElem?_map, hx, Option.map_some]
  have hids := hg.outgoing_eq v
  rw [Array.getD_eq_getD_getElem?, hout, Option.getD_some] at hids
  rw [hids, Graph.positions, Graph.length_ends, h.size_edges]
  simp only [Graph.getElem?_ends, h.getElem?_edges, Option.any_map]
  rfl

theorem outgoingEdges_eq (hg : g.Valid) {v : Vertex} (hv : v < t.vertices.size) :
    t.outgoingEdges v = .ok (t.edges.toList.filter (·.source == v)) := by
  have hget : entryAt t.vertices v = .ok t.vertices[v] := by
    simp only [entryAt, Array.getElem?_eq_getElem hv]
  have hids := h.outgoing_toList hg (Array.getElem?_eq_getElem hv)
  have hlt : ∀ e ∈ t.vertices[v].outgoing.toList, e < t.edges.size := by
    rw [hids]
    exact fun e he => List.mem_range.1 (List.mem_of_mem_filter he)
  have hedges := filterMap_positions (fun e => e.source == v) t.edges.toList
  simp only [Array.length_toList, Array.getElem?_toList] at hedges
  rw [Tables.outgoingEdges, hget]
  exact (mapM_entryAt hlt).trans (congrArg Except.ok (hids ▸ hedges))

end Shows

/-- The tables agree with each other, and no position that one of them holds is missing from the
table it refers to. -/
structure Consistent (t : Tables w ρ) : Prop where
  /-- A registered occurrence and its vertex give each other. -/
  vertex?_iff_occurrence : ∀ o v, t.vertex? o = some v ↔ t.occurrence v = .ok (some o)
  /-- Of all vertices the root alone stands for no occurrence. -/
  occurrence_eq_none_iff : ∀ v, t.occurrence v = .ok none ↔ v = root
  exists_occurrence_iff : ∀ v, (∃ o, t.occurrence v = .ok o) ↔ v < t.vertices.size
  ends_lt : ∀ e ∈ t.edges.toList, e.source < t.vertices.size ∧ e.target < t.vertices.size
  target_ne_root : ∀ e ∈ t.edges.toList, e.target ≠ root
  /-- At most one edge has the given ends, and its position is stored for them. -/
  edgeByEnds_iff : ∀ u v i, t.edgeByEnds[(u, v)]? = some i ↔
    ∃ e : StoredEdge w, t.edges[i]? = some e ∧ e.source = u ∧ e.target = v
  exists_edgeBetween : ∀ u v, ∃ e, t.edgeBetween u v = .ok e
  edgeBetween_iff : ∀ u v e, t.edgeBetween u v = .ok (some e) ↔
    e ∈ t.edges.toList ∧ e.source = u ∧ e.target = v
  /-- A vertex holds the positions of the edges that leave it, each once and in order. -/
  outgoing_toList : ∀ v x, t.vertices[v]? = some x → x.outgoing.toList =
    (List.range t.edges.size).filter fun e => t.edges[e]?.any (·.source == v)
  outgoingEdges_eq : ∀ v, v < t.vertices.size →
    t.outgoingEdges v = .ok (t.edges.toList.filter (·.source == v))
  /-- The edge from the root comes before every other edge at its target. -/
  exists_root_edge : ∀ v, v ≠ root → v < t.vertices.size → ∃ i,
    t.edges[i]? = some (⟨root, v, 0⟩ : StoredEdge w) ∧ t.reasonsBetween root v = [] ∧
      ∀ (j : Nat) (e : StoredEdge w), t.edges[j]? = some e → e.source = v ∨ e.target = v →
        j ≠ i → i < j
  /-- Every other edge has one reason. -/
  exists_reason : ∀ e ∈ t.edges.toList, e.source ≠ root →
    ∃ r, t.reasonsBetween e.source e.target = [r]
  reasons_eq_nil : ∀ u v, t.edgeBetween u v = .ok none → t.reasonsBetween u v = []

theorem Shows.consistent {t : Tables w ρ} {g : Graph w ρ} (h : t.Shows g) (hg : g.Valid)
    (hread : g.Consistent) : t.Consistent := by
  have hsize := h.size_vertices
  constructor
  case vertex?_iff_occurrence =>
    intro o v
    rw [h.vertex?_eq, h.occurrence_eq]
    exact hread.vertex?_iff_occurrence o v
  case occurrence_eq_none_iff =>
    intro v
    rw [h.occurrence_eq]
    exact hread.occurrence_eq_none_iff v
  case exists_occurrence_iff =>
    intro v
    rw [h.occurrence_eq, hsize]
    exact hread.exists_occurrence_iff v
  case ends_lt =>
    intro x hx
    obtain ⟨e, he, rfl⟩ := h.mem_edges_iff.1 hx
    rw [hsize]
    exact hread.ends_lt e he
  case target_ne_root =>
    intro x hx
    obtain ⟨e, he, rfl⟩ := h.mem_edges_iff.1 hx
    exact hread.target_ne_root e he
  case edgeByEnds_iff =>
    intro u v i
    rw [h.edgeByEnds_eq, h.getElem?_edges, hread.edgeId?_iff]
    simp only [Option.map_eq_some_iff, exists_exists_and_eq_and]
    rfl
  case exists_edgeBetween => exact fun u v => ⟨_, h.edgeBetween_eq hg u v⟩
  case edgeBetween_iff =>
    intro u v x
    rw [h.edgeBetween_eq hg, Except.ok.injEq, Option.map_eq_some_iff, h.mem_edges_iff]
    constructor
    · rintro ⟨e, he, rfl⟩
      obtain ⟨hmem, hends⟩ := (hread.edgeBetween_iff u v e).1 he
      exact ⟨⟨e, hmem, rfl⟩, hends⟩
    · rintro ⟨⟨e, hmem, rfl⟩, hends⟩
      exact ⟨e, (hread.edgeBetween_iff u v e).2 ⟨hmem, hends⟩, rfl⟩
  case outgoing_toList => exact fun v x hx => h.outgoing_toList hg hx
  case outgoingEdges_eq => exact fun v hv => h.outgoingEdges_eq hg hv
  case exists_root_edge =>
    intro v hv hlt
    obtain ⟨i, hi, hreasons, hfirst⟩ := hread.exists_root_edge v hv (hsize ▸ hlt)
    refine ⟨i, ?_, ?_, fun j x hx htouch hne => ?_⟩
    · rw [h.getElem?_edges, hi]
      rfl
    · rw [h.reasonsBetween_eq, hreasons]
    · rw [h.getElem?_edges] at hx
      obtain ⟨e, he, rfl⟩ := Option.map_eq_some_iff.1 hx
      exact hfirst j e he htouch hne
  case exists_reason =>
    intro x hx hs
    obtain ⟨e, he, rfl⟩ := h.mem_edges_iff.1 hx
    obtain ⟨r, hr⟩ := hread.exists_reason e he hs
    exact ⟨r, (h.reasonsBetween_eq _ _).trans hr⟩
  case reasons_eq_nil =>
    intro u v hnone
    rw [h.edgeBetween_eq hg, Except.ok.injEq, Option.map_eq_none_iff] at hnone
    rw [h.reasonsBetween_eq, hread.reasons_eq_nil u v hnone]

/-- Whatever calls fill the tables, refused ones among them, no call misses a position, and the
tables are consistent after it. -/
theorem consistent_tables (calls : List (Call w ρ)) : ∃ t : Tables w ρ,
    ofCalls calls = .ok t ∧ t.Consistent := by
  obtain ⟨t, hrun, h⟩ := shows_ofCalls calls
  exact ⟨t, hrun, h.consistent (Graph.valid_ofCalls calls) (Graph.consistent_ofCalls calls)⟩

end Tables

end Octagon

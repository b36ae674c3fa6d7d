import Octagon.Proofs.Except
import Octagon.Proofs.Graph.History

/-!
What the tables of a graph represent. Registered occurrences and the vertices after the root stand
for each other, an edge is found by its ends and no other has them, a vertex lists the edges that
leave it in the order in which they were made, and every vertex but the root hangs on the root by an
edge made before all others at the vertex. Whatever calls build a graph, refused ones among them,
reading it shows this.
-/

namespace Octagon

/-- The entries at those positions of a list whose entries pass a test are the entries that pass. -/
theorem filterMap_positions {α : Type} (p : α → Bool) : ∀ xs : List α,
    ((List.range xs.length).filter fun i => xs[i]?.any p).filterMap (xs[·]?) = xs.filter p
  | [] => rfl
  | x :: xs => by
      have hrest := filterMap_positions p xs
      rw [List.length_cons, List.range_succ_eq_map, List.filter_cons, List.filter_map]
      simp only [Function.comp_def, List.getElem?_cons_zero, Option.any_some,
        List.getElem?_cons_succ]
      cases hx : p x
      · simp [List.filterMap_map, hrest, hx]
      · simp [List.filterMap_map, hrest, hx]

namespace Graph

variable {w : Width} {ρ : Type}

/-- What is read from a graph fits together. -/
structure Consistent (g : Graph w ρ) : Prop where
  /-- A registered occurrence and its vertex give each other. -/
  vertex?_iff_occurrence : ∀ o v, g.vertex? o = some v ↔ g.occurrence v = .ok (some o)
  /-- Of all vertices the root alone stands for no occurrence. -/
  occurrence_eq_none_iff : ∀ v, g.occurrence v = .ok none ↔ v = root
  exists_occurrence_iff : ∀ v, (∃ o, g.occurrence v = .ok o) ↔ v < g.numVertices
  ends_lt : ∀ e ∈ g.edges.toList, e.source < g.numVertices ∧ e.target < g.numVertices
  target_ne_root : ∀ e ∈ g.edges.toList, e.target ≠ root
  /-- At most one edge has the given ends, and it is found by them. -/
  edgeId?_iff : ∀ s t i, g.edgeId? s t = some i ↔
    ∃ e : Edge w ρ, g.edges[i]? = some e ∧ e.source = s ∧ e.target = t
  edgeBetween_iff : ∀ s t e, g.edgeBetween s t = some e ↔
    e ∈ g.edges.toList ∧ e.source = s ∧ e.target = t
  /-- Each edge that leaves a vertex is listed there once, in the order of all edges. -/
  outgoingEdges_eq : ∀ v, v < g.numVertices →
    g.outgoingEdges v = .ok (g.edges.toList.filter (·.source == v))
  /-- The edge from the root comes before every other edge at its target. -/
  exists_root_edge : ∀ v, v ≠ root → v < g.numVertices → ∃ i,
    g.edges[i]? = some (⟨root, v, 0, none⟩ : Edge w ρ) ∧ g.reasons root v = [] ∧
      ∀ (j : Nat) (e : Edge w ρ), g.edges[j]? = some e → e.source = v ∨ e.target = v →
        j ≠ i → i < j
  /-- Every other edge has one reason. -/
  exists_reason : ∀ e ∈ g.edges.toList, e.source ≠ root →
    ∃ r, g.reasons e.source e.target = [r]
  reasons_eq_nil : ∀ s t, g.edgeBetween s t = none → g.reasons s t = []

/-! ### Vertices -/

theorem occurrence_eq_none_iff (g : Graph w ρ) (v : Vertex) :
    g.occurrence v = .ok none ↔ v = root := by
  cases v with
  | zero => simp [occurrence, root]
  | succ i => cases hi : g.occurrences[i]? <;> simp [occurrence, hi, root]

theorem exists_occurrence_iff (g : Graph w ρ) (v : Vertex) :
    (∃ o, g.occurrence v = .ok o) ↔ v < g.numVertices := by
  cases v with
  | zero => simp [occurrence, numVertices]
  | succ i =>
    rw [numVertices, Nat.succ_lt_succ_iff]
    cases hi : g.occurrences[i]? with
    | none => simpa [occurrence, hi] using Array.getElem?_eq_none_iff.1 hi
    | some o => simpa [occurrence, hi] using (Array.getElem?_eq_some_iff.1 hi).1

namespace Valid

variable {g : Graph w ρ} (h : g.Valid)

include h

theorem vertex?_iff_occurrence (o : Occurrence) (v : Vertex) :
    g.vertex? o = some v ↔ g.occurrence v = .ok (some o) := by
  rw [h.vertex?_eq_some_iff]
  cases v with
  | zero => simp [occurrence]
  | succ i => cases hi : g.occurrences[i]? <;> simp [occurrence, hi]

/-! ### Edges -/

theorem edgeId?_iff (s t : Vertex) (i : Nat) : g.edgeId? s t = some i ↔
    ∃ e : Edge w ρ, g.edges[i]? = some e ∧ e.source = s ∧ e.target = t := by
  rw [h.edgeId?_eq_some_iff, getElem?_ends, Option.map_eq_some_iff]
  simp only [Prod.mk.injEq]

theorem outgoingEdges_eq {v : Vertex} (hv : v < g.numVertices) :
    g.outgoingEdges v = .ok (g.edges.toList.filter (·.source == v)) := by
  have hlt : v < g.outgoing.size := h.size_outgoing ▸ hv
  have hget : entryAt g.outgoing v = .ok g.outgoing[v] := by
    simp only [entryAt, Array.getElem?_eq_getElem hlt]
  have hids : g.outgoing[v].toList = positions g.ends v := by
    rw [← h.outgoing_eq v, Array.getD_eq_getD_getElem?, Array.getElem?_eq_getElem hlt,
      Option.getD_some]
  have hedges : (positions g.ends v).filterMap (g.edges.toList[·]?) =
      g.edges.toList.filter (·.source == v) := by
    rw [← filterMap_positions, positions, length_ends, Array.length_toList]
    simp only [getElem?_ends, Option.any_map, Array.getElem?_toList]
  rw [outgoingEdges, hget]
  refine congrArg Except.ok ?_
  rw [hids, ← hedges]
  simp only [Array.getElem?_toList]

/-- The reasons between the ends of an edge are those of the edge. -/
theorem reasons_eq {e : Edge w ρ} (he : e ∈ g.edges.toList) :
    g.reasons e.source e.target = e.reason.toList := by
  rw [reasons, h.edgeBetween_eq_some_iff.2 ⟨he, rfl, rfl⟩, Option.bind_some]

/-- The edge that a vertex hangs on the root by is older than any other at the vertex. -/
theorem exists_root_edge {v : Vertex} (hv : v ≠ root) (hlt : v < g.numVertices) : ∃ i,
    g.edges[i]? = some (⟨root, v, 0, none⟩ : Edge w ρ) ∧ g.reasons root v = [] ∧
      ∀ (j : Nat) (e : Edge w ρ), g.edges[j]? = some e → e.source = v ∨ e.target = v →
        j ≠ i → i < j := by
  obtain ⟨i, hi⟩ := List.mem_iff_getElem?.1 (h.root_mem_ends v hv hlt)
  have hends := hi
  rw [getElem?_ends] at hends
  obtain ⟨e, he, heq⟩ := Option.map_eq_some_iff.1 hends
  have hmem : e ∈ g.edges.toList :=
    List.mem_iff_getElem?.2 ⟨i, by rwa [Array.getElem?_toList]⟩
  obtain ⟨hs, ht⟩ := Prod.mk.inj heq
  have hweight := h.weight_eq_zero e hmem hs
  have hreason := (h.reason_eq_none e hmem).2 hs
  refine ⟨i, ?_, ?_, fun j e' hj htouch hne => ?_⟩
  · rw [he, ← hs, ← ht, ← hweight, ← hreason]
  · rw [← hs, ← ht, h.reasons_eq hmem, hreason, Option.toList_none]
  · by_contra hle
    have hji : j < i := by omega
    have hj' : g.ends[j]? = some (e'.source, e'.target) := by
      rw [getElem?_ends, hj, Option.map_some]
    obtain ⟨hjlt, hjeq⟩ := List.getElem?_eq_some_iff.1 hj'
    obtain ⟨hilt, hieq⟩ := List.getElem?_eq_some_iff.1 hi
    have hord := List.pairwise_iff_getElem.1 h.ordered j i hjlt hilt hji
    rw [hjeq, hieq] at hord
    obtain ⟨hsource, htarget⟩ := hord rfl
    rcases htouch with heq | heq
    · exact hsource heq.symm
    · exact htarget heq.symm

theorem exists_reason_eq_some {e : Edge w ρ} (he : e ∈ g.edges.toList) (hs : e.source ≠ root) :
    ∃ r, e.reason = some r :=
  Option.ne_none_iff_exists'.1 fun hn => hs ((h.reason_eq_none e he).1 hn)

theorem exists_reason {e : Edge w ρ} (he : e ∈ g.edges.toList) (hs : e.source ≠ root) :
    ∃ r, g.reasons e.source e.target = [r] := by
  obtain ⟨r, hr⟩ := h.exists_reason_eq_some he hs
  exact ⟨r, by rw [h.reasons_eq he, hr, Option.toList_some]⟩

end Valid

/-- Every graph that calls build is read consistently. -/
theorem consistent_ofCalls (calls : List (Call w ρ)) : (ofCalls calls).Consistent := by
  have h := valid_ofCalls calls
  constructor
  case vertex?_iff_occurrence => exact h.vertex?_iff_occurrence
  case occurrence_eq_none_iff => exact occurrence_eq_none_iff _
  case exists_occurrence_iff => exact exists_occurrence_iff _
  case ends_lt => exact fun e he => h.ends_lt _ (mem_ends.2 ⟨e, he, rfl, rfl⟩)
  case target_ne_root => exact fun e he => h.target_ne_root _ (mem_ends.2 ⟨e, he, rfl, rfl⟩)
  case edgeId?_iff => exact h.edgeId?_iff
  case edgeBetween_iff => exact fun _ _ _ => h.edgeBetween_eq_some_iff
  case outgoingEdges_eq => exact fun _ hv => h.outgoingEdges_eq hv
  case exists_root_edge => exact fun _ hv hlt => h.exists_root_edge hv hlt
  case exists_reason => exact fun _ he hs => h.exists_reason he hs
  case reasons_eq_nil =>
    intro s t hnone
    rw [reasons, hnone, Option.bind_none, Option.toList_none]

end Graph

end Octagon

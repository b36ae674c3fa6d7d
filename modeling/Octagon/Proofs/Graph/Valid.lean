import Mathlib
import Octagon.Graph.Basic

/-!
Valid graphs: the tables of a graph agree with each other. Occurrences and the vertices after the
root stand for each other, every vertex lists the edges that leave it, two vertices have one edge at
most, and the edge from the root to a vertex precedes every other edge at the vertex. To register an
occurrence and to connect two vertices keeps a graph valid.
-/

namespace Octagon.Graph

variable {w : Width} {ρ : Type}

/-- The ends of the edges, in order. -/
def ends (g : Graph w ρ) : List (Vertex × Vertex) :=
  g.edges.toList.map fun e => (e.source, e.target)

/-- The positions of the pairs that start with `v`. -/
def positions (pairs : List (Vertex × Vertex)) (v : Vertex) : List Nat :=
  (List.range pairs.length).filter fun i => pairs[i]?.any (·.1 == v)

/-- The tables of the graph agree. -/
structure Valid (g : Graph w ρ) : Prop where
  vertex?_eq_some_iff : ∀ o v, g.vertex? o = some v ↔ ∃ i, g.occurrences[i]? = some o ∧ v = i + 1
  ends_lt : ∀ p ∈ g.ends, p.1 < g.numVertices ∧ p.2 < g.numVertices
  target_ne_root : ∀ p ∈ g.ends, p.2 ≠ root
  root_mem_ends : ∀ v, v ≠ root → v < g.numVertices → (root, v) ∈ g.ends
  ordered : g.ends.Pairwise fun p q => q.1 = root → q.2 ≠ p.1 ∧ q.2 ≠ p.2
  distinct : g.ends.Nodup
  weight_eq_zero : ∀ e ∈ g.edges.toList, e.source = root → e.weight = 0
  reason_eq_none : ∀ e ∈ g.edges.toList, e.reason = none ↔ e.source = root
  size_outgoing : g.outgoing.size = g.numVertices
  outgoing_eq : ∀ v, (g.outgoing.getD v #[]).toList = positions g.ends v

theorem mem_ends {g : Graph w ρ} {s t : Vertex} :
    (s, t) ∈ g.ends ↔ ∃ e ∈ g.edges.toList, e.source = s ∧ e.target = t := by
  simp [ends]

theorem length_ends (g : Graph w ρ) : g.ends.length = g.edges.size := by simp [ends]

theorem getElem?_ends (g : Graph w ρ) (i : Nat) :
    g.ends[i]? = g.edges[i]?.map fun e => (e.source, e.target) := by
  simp [ends]

theorem valid_empty : (empty : Graph w ρ).Valid := by
  constructor <;> simp [empty, ends, positions, vertex?, numVertices, root]

namespace Valid

variable {g : Graph w ρ} (h : g.Valid)

include h

/-! ### Reading -/

theorem vertex?_lt {o : Occurrence} {v : Vertex} (hv : g.vertex? o = some v) :
    v ≠ root ∧ v < g.numVertices := by
  obtain ⟨i, hi, rfl⟩ := (h.vertex?_eq_some_iff o v).1 hv
  have := (Array.getElem?_eq_some_iff.1 hi).1
  exact ⟨Nat.succ_ne_zero i, Nat.succ_lt_succ this⟩

/-- No two occurrences have the same vertex. -/
theorem vertex?_inj {o p : Occurrence} {v : Vertex} (ho : g.vertex? o = some v)
    (hp : g.vertex? p = some v) : o = p := by
  obtain ⟨i, hi, rfl⟩ := (h.vertex?_eq_some_iff o v).1 ho
  obtain ⟨j, hj, hij⟩ := (h.vertex?_eq_some_iff p _).1 hp
  obtain rfl : i = j := Nat.succ.inj hij
  exact Option.some.inj (hi.symm.trans hj)

/-- Every vertex but the root has an occurrence. -/
theorem exists_occurrence {v : Vertex} (hv : v ≠ root) (hlt : v < g.numVertices) :
    ∃ o, g.vertex? o = some v := by
  obtain ⟨i, rfl⟩ := Nat.exists_eq_succ_of_ne_zero hv
  have hi : i < g.occurrences.size := Nat.lt_of_succ_lt_succ hlt
  exact ⟨g.occurrences[i], (h.vertex?_eq_some_iff _ _).2 ⟨i, Array.getElem?_eq_getElem hi, rfl⟩⟩

/-- The position of an edge is found by its ends. -/
theorem edgeId?_eq_some_iff {s t : Vertex} {i : Nat} :
    g.edgeId? s t = some i ↔ g.ends[i]? = some (s, t) := by
  have hsearch : g.edgeId? s t =
      (List.range g.ends.length).find? fun j => decide (g.ends[j]? = some (s, t)) := by
    unfold edgeId?
    rw [← Array.find?_toList, h.outgoing_eq, positions, List.find?_filter]
    congr 1
    funext j
    rw [getElem?_ends, decide_eq_decide]
    cases g.edges[j]? <;> simp
  rw [hsearch, List.find?_range_eq_some]
  simp only [decide_eq_true_eq, List.mem_range, Bool.not_eq_true', decide_eq_false_iff_not]
  refine ⟨fun hi => hi.1, fun hi => ?_⟩
  have hlt : i < g.ends.length := (List.getElem?_eq_some_iff.1 hi).1
  refine ⟨hi, hlt, fun j hj hjt => ?_⟩
  -- the ends of an edge stand at one position only
  have := (List.getElem?_inj hlt h.distinct).1 (hi.trans hjt.symm)
  omega

theorem edgeId?_eq_none_iff {s t : Vertex} : g.edgeId? s t = none ↔ (s, t) ∉ g.ends := by
  rw [Option.eq_none_iff_forall_ne_some, List.mem_iff_getElem?, not_exists]
  exact forall_congr' fun i => not_congr h.edgeId?_eq_some_iff

/-- The edge between two vertices is the one that has these ends. -/
theorem edgeBetween_eq_some_iff {s t : Vertex} {e : Edge w ρ} :
    g.edgeBetween s t = some e ↔ e ∈ g.edges.toList ∧ e.source = s ∧ e.target = t := by
  simp only [edgeBetween, Option.bind_eq_some_iff, h.edgeId?_eq_some_iff, getElem?_ends,
    Option.map_eq_some_iff, Prod.mk.injEq, List.mem_iff_getElem?, Array.getElem?_toList]
  constructor
  · rintro ⟨i, ⟨e', he', hs, ht⟩, he⟩
    obtain rfl : e' = e := Option.some.inj (he'.symm.trans he)
    exact ⟨⟨i, he⟩, hs, ht⟩
  · rintro ⟨⟨i, he⟩, hs, ht⟩
    exact ⟨i, ⟨e, he, hs, ht⟩, he⟩

end Valid

/-! ### Registering -/

theorem positions_concat (pairs : List (Vertex × Vertex)) (p : Vertex × Vertex) (v : Vertex) :
    positions (pairs ++ [p]) v =
      positions pairs v ++ if p.1 = v then [pairs.length] else [] := by
  have hold : (List.range pairs.length).filter (fun i => (pairs ++ [p])[i]?.any (·.1 == v)) =
      positions pairs v := by
    refine List.filter_congr fun i hi => ?_
    rw [List.getElem?_append_left (List.mem_range.1 hi)]
  rw [positions, List.length_append, List.length_singleton, List.range_succ, List.filter_append,
    hold]
  by_cases hv : p.1 = v <;> simp [hv]

/-- A list put at the end of `outgoing` for a new vertex starts empty. -/
theorem getD_push_empty (outgoing : Array (Array Nat)) (v : Nat) :
    (outgoing.push #[]).getD v #[] = outgoing.getD v #[] := by
  rw [Array.getD_eq_getD_getElem?, Array.getD_eq_getD_getElem?, Array.getElem?_push]
  split
  · rename_i hv
    simp [hv]
  · rfl

theorem getD_modify_push (outgoing : Array (Array Nat)) (s i v : Nat) (hs : s < outgoing.size) :
    ((outgoing.modify s (·.push i)).getD v #[]).toList =
      (outgoing.getD v #[]).toList ++ if s = v then [i] else [] := by
  rw [Array.getD_eq_getD_getElem?, Array.getD_eq_getD_getElem?, Array.getElem?_modify]
  split
  · rename_i hv
    subst hv
    simp [Array.getElem?_eq_getElem hs]
  · simp

section register

variable {g : Graph w ρ} {o : Occurrence} (ho : g.vertex? o = none)

include ho

theorem occurrences_registerOccurrence :
    (g.registerOccurrence o).2.occurrences = g.occurrences.push o := by
  simp [registerOccurrence, ho]

theorem numVertices_registerOccurrence :
    (g.registerOccurrence o).2.numVertices = g.numVertices + 1 := by
  simp [numVertices, occurrences_registerOccurrence ho]

theorem edges_registerOccurrence : (g.registerOccurrence o).2.edges.toList =
    g.edges.toList ++ [⟨root, g.numVertices, 0, none⟩] := by
  simp [registerOccurrence, ho]

theorem ends_registerOccurrence :
    (g.registerOccurrence o).2.ends = g.ends ++ [(root, g.numVertices)] := by
  simp [ends, edges_registerOccurrence ho]

theorem vertex?_registerOccurrence (p : Occurrence) :
    (g.registerOccurrence o).2.vertex? p =
      if o = p then some g.numVertices else g.vertex? p := by
  simp only [registerOccurrence, ho]
  simp only [vertex?, Std.TreeMap.getElem?_insert, compare_eq_iff_eq, Occurrence.rank_inj]

/-- The new occurrence and the new vertex stand for each other. -/
theorem Valid.vertex?_registerOccurrence_eq_some_iff (h : g.Valid) (p : Occurrence) (v : Vertex) :
    (g.registerOccurrence o).2.vertex? p = some v ↔
      ∃ i, (g.registerOccurrence o).2.occurrences[i]? = some p ∧ v = i + 1 := by
  rw [vertex?_registerOccurrence ho, occurrences_registerOccurrence ho]
  by_cases hp : o = p
  · subst hp
    simp only [if_true, Option.some.injEq, Array.getElem?_push]
    refine ⟨?_, ?_⟩
    · rintro rfl
      exact ⟨g.occurrences.size, by simp, rfl⟩
    · rintro ⟨i, hi, rfl⟩
      split at hi
      · rename_i hsize
        rw [hsize, numVertices]
      · have := (h.vertex?_eq_some_iff o (i + 1)).2 ⟨i, hi, rfl⟩
        rw [ho] at this
        cases this
  · rw [if_neg hp, h.vertex?_eq_some_iff]
    refine exists_congr fun i => and_congr_left fun _ => ?_
    rw [Array.getElem?_push]
    split
    · rename_i hi
      simp [hi, hp]
    · rfl

/-- A new occurrence keeps the graph valid. -/
theorem Valid.register (h : g.Valid) : (g.registerOccurrence o).2.Valid := by
  have hnum := numVertices_registerOccurrence ho
  have hedges := edges_registerOccurrence ho
  have hends := ends_registerOccurrence ho
  constructor
  case vertex?_eq_some_iff => exact h.vertex?_registerOccurrence_eq_some_iff ho
  case ends_lt =>
    rw [hends, hnum, List.forall_mem_append, List.forall_mem_singleton]
    refine ⟨fun p hp => ?_, Nat.succ_pos _, Nat.lt_succ_self _⟩
    exact ⟨Nat.lt_succ_of_lt (h.ends_lt p hp).1, Nat.lt_succ_of_lt (h.ends_lt p hp).2⟩
  case target_ne_root =>
    rw [hends, List.forall_mem_append, List.forall_mem_singleton]
    exact ⟨h.target_ne_root, Nat.succ_ne_zero _⟩
  case root_mem_ends =>
    intro v hv hlt
    rw [hends]
    rw [hnum] at hlt
    rcases Nat.lt_succ_iff_lt_or_eq.1 hlt with hlt | rfl
    · exact List.mem_append_left _ (h.root_mem_ends v hv hlt)
    · simp
  case ordered =>
    rw [hends]
    refine List.pairwise_append.2 ⟨h.ordered, List.pairwise_singleton .., ?_⟩
    intro p hp q hq _
    obtain rfl : q = (root, g.numVertices) := by simpa using hq
    exact ⟨(h.ends_lt p hp).1.ne', (h.ends_lt p hp).2.ne'⟩
  case distinct =>
    rw [hends, ← List.concat_eq_append]
    refine h.distinct.concat fun hmem => ?_
    have := (h.ends_lt _ hmem).2
    exact lt_irrefl _ this
  case weight_eq_zero =>
    rw [hedges, List.forall_mem_append, List.forall_mem_singleton]
    exact ⟨h.weight_eq_zero, fun _ => rfl⟩
  case reason_eq_none =>
    rw [hedges, List.forall_mem_append, List.forall_mem_singleton]
    exact ⟨h.reason_eq_none, iff_of_true rfl rfl⟩
  case size_outgoing =>
    rw [hnum, ← h.size_outgoing]
    simp [registerOccurrence, ho]
  case outgoing_eq =>
    intro v
    have hroot : root < g.outgoing.size := by
      rw [h.size_outgoing]
      exact Nat.succ_pos _
    have hout : (g.registerOccurrence o).2.outgoing =
        (g.outgoing.modify root (·.push g.edges.size)).push #[] := by simp [registerOccurrence, ho]
    rw [hout, getD_push_empty, getD_modify_push _ _ _ _ hroot, h.outgoing_eq, hends,
      positions_concat, length_ends]

end register

/-! ### Connecting -/

variable {g : Graph w ρ} {s t : Vertex} {k : Weight w} {r : ρ}

theorem edges_reweigh (g : Graph w ρ) (i j : Nat) (k : Weight w) (r : ρ) :
    (g.reweigh i k r).edges[j]? =
      if i = j then g.edges[j]?.map fun e => { e with weight := k, reason := some r }
      else g.edges[j]? :=
  Array.getElem?_modify

/-- Another weight leaves the ends of all edges as they are. -/
theorem ends_reweigh (g : Graph w ρ) (i : Nat) (k : Weight w) (r : ρ) :
    (g.reweigh i k r).ends = g.ends := by
  apply List.ext_getElem?
  intro j
  rw [getElem?_ends, getElem?_ends, edges_reweigh]
  split
  · cases g.edges[j]? <;> rfl
  · rfl

/-- After another weight is given, an edge is an old one or the one at that position. -/
theorem mem_edges_reweigh {i : Nat} {e : Edge w ρ} (hi : g.ends[i]? = some (s, t)) :
    e ∈ (g.reweigh i k r).edges.toList → e ∈ g.edges.toList ∨ e = ⟨s, t, k, some r⟩ := by
  intro he
  obtain ⟨j, hj⟩ := List.mem_iff_getElem?.1 he
  rw [Array.getElem?_toList, edges_reweigh] at hj
  split at hj
  · rename_i hij
    rw [getElem?_ends, hij] at hi
    obtain ⟨e₀, he₀, hends⟩ := Option.map_eq_some_iff.1 hi
    rw [he₀, Option.map_some, Option.some.injEq] at hj
    right
    rw [← hj, ← (Prod.mk.inj hends).1, ← (Prod.mk.inj hends).2]
  · exact .inl (List.mem_iff_getElem?.2 ⟨j, by rwa [Array.getElem?_toList]⟩)

theorem Valid.reweigh {i : Nat} (h : g.Valid) (hi : g.ends[i]? = some (s, t)) (hs : s ≠ root) :
    (g.reweigh i k r).Valid := by
  have hends := ends_reweigh g i k r
  constructor
  case vertex?_eq_some_iff => exact h.vertex?_eq_some_iff
  case ends_lt => exact hends ▸ h.ends_lt
  case target_ne_root => exact hends ▸ h.target_ne_root
  case root_mem_ends => exact hends ▸ h.root_mem_ends
  case ordered => exact hends ▸ h.ordered
  case distinct => exact hends ▸ h.distinct
  case weight_eq_zero =>
    intro e he hroot
    rcases mem_edges_reweigh hi he with he | rfl
    · exact h.weight_eq_zero e he hroot
    · exact absurd hroot hs
  case reason_eq_none =>
    intro e he
    rcases mem_edges_reweigh hi he with he | rfl
    · exact h.reason_eq_none e he
    · simpa using hs
  case size_outgoing => exact h.size_outgoing
  case outgoing_eq => exact hends ▸ h.outgoing_eq

theorem connect_of_none (hid : g.edgeId? s t = none) :
    (g.connect s t k r).2.edges.toList = g.edges.toList ++ [⟨s, t, k, some r⟩] ∧
      (g.connect s t k r).2.outgoing = g.outgoing.modify s (·.push g.edges.size) ∧
      (g.connect s t k r).2.occurrences = g.occurrences ∧
      (g.connect s t k r).2.vertices = g.vertices := by
  simp [connect, hid]

/-- To connect two vertices keeps the graph valid. -/
theorem Valid.connect (h : g.Valid) (hs : s ≠ root ∧ s < g.numVertices)
    (ht : t ≠ root ∧ t < g.numVertices) : (g.connect s t k r).2.Valid := by
  cases hid : g.edgeId? s t with
  | some i =>
    simp only [Graph.connect, hid]
    split
    · exact h.reweigh (h.edgeId?_eq_some_iff.1 hid) hs.1
    · exact h
  | none =>
    obtain ⟨hedges, hout, hocc, hver⟩ := connect_of_none (k := k) (r := r) hid
    have hends : (g.connect s t k r).2.ends = g.ends ++ [(s, t)] := by simp [ends, hedges]
    have hnum : (g.connect s t k r).2.numVertices = g.numVertices := by simp [numVertices, hocc]
    constructor
    case vertex?_eq_some_iff =>
      intro o v
      rw [hocc, ← h.vertex?_eq_some_iff, vertex?, vertex?, hver]
    case ends_lt =>
      rw [hends, hnum, List.forall_mem_append, List.forall_mem_singleton]
      exact ⟨h.ends_lt, hs.2, ht.2⟩
    case target_ne_root =>
      rw [hends, List.forall_mem_append, List.forall_mem_singleton]
      exact ⟨h.target_ne_root, ht.1⟩
    case root_mem_ends =>
      intro v hv hlt
      rw [hends]
      rw [hnum] at hlt
      exact List.mem_append_left _ (h.root_mem_ends v hv hlt)
    case ordered =>
      rw [hends]
      refine List.pairwise_append.2 ⟨h.ordered, List.pairwise_singleton .., ?_⟩
      intro p hp q hq hroot
      obtain rfl : q = (s, t) := by simpa using hq
      exact absurd hroot hs.1
    case distinct =>
      rw [hends, ← List.concat_eq_append]
      exact h.distinct.concat (h.edgeId?_eq_none_iff.1 hid)
    case weight_eq_zero =>
      rw [hedges, List.forall_mem_append, List.forall_mem_singleton]
      exact ⟨h.weight_eq_zero, fun hroot => absurd hroot hs.1⟩
    case reason_eq_none =>
      rw [hedges, List.forall_mem_append, List.forall_mem_singleton]
      exact ⟨h.reason_eq_none, iff_of_false (Option.some_ne_none r) hs.1⟩
    case size_outgoing => rw [hout, hnum, ← h.size_outgoing, Array.size_modify]
    case outgoing_eq =>
      intro v
      have hlt : s < g.outgoing.size := by
        rw [h.size_outgoing]
        exact hs.2
      rw [hout, getD_modify_push _ _ _ _ hlt, h.outgoing_eq, hends, positions_concat, length_ends]

end Octagon.Graph

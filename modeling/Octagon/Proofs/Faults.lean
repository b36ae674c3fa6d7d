import Octagon.Proofs.Check

/-!
Conflicts are found where there are any. The links from the vertex where a negative cycle shows run
into a cycle, both occurrences of a variable that tightening refutes can be reached from each other,
and a conflict is about vertices that the graph has, along edges that have reasons. So no solver
gives up over a conflict.
-/

namespace Octagon

variable {w : Width} {ρ : Type} {n : Nat}

/-! ### Conflicts are found -/

theorem Network.exists_negativeCycle_eq_ok {net : Network w ρ n} {paths : Paths w (n + 1)}
    {entry : Fin (n + 1)} (h : paths.links.leadsIntoCycle entry = true) :
    ∃ c, net.negativeCycle paths entry = .ok c := by
  obtain ⟨walk, hwalk⟩ := Links.exists_cycle_eq_ok h
  rw [negativeCycle, hwalk]
  exact ⟨_, rfl⟩

namespace TightSubgraph

/-- A violation has a cycle: its ends are different, for their distances are, and in one
component. -/
theorem exists_conflict_eq_ok {arcs : List (Arc w ρ n)} {paths : Paths w n}
    {splits : List (Split n)} {x : Violation (ofArcs arcs).size}
    (h : x ∈ (ofArcs arcs).violations (ofArcs arcs).digraph.components paths splits) :
    ∃ c, (ofArcs arcs).conflict x = .ok c := by
  obtain ⟨s, -, -, hpos, hneg, hsame, hodd⟩ := mem_violations_iff.1 h
  have hne : x.positive ≠ x.negative := by
    intro heq
    have hs : s.positive = s.negative := by
      rw [← number_eq_some_iff.1 hpos, heq, number_eq_some_iff.1 hneg]
    rw [Weight.differsOddly_iff, hs] at hodd
    omega
  obtain ⟨hreach, hreturn⟩ := Digraph.same_components_iff.1 hsame
  obtain ⟨there, hthere⟩ := hreach.exists_path hne
  obtain ⟨back, hback⟩ := hreturn.exists_path hne.symm
  have hcycle : x.cycle (ofArcs arcs).digraph = .ok (there ++ back.tail) := by
    simp only [Violation.cycle, bind_eq_ok_iff, pure_eq_ok_iff]
    exact ⟨there, hthere, back, hback, rfl⟩
  rw [conflict, hcycle]
  exact ⟨_, rfl⟩

/-- Where each violation has a conflict, one of them is selected. -/
theorem exists_select_eq_ok {sub : TightSubgraph w ρ n} (selection : Selection)
    {xs : List (Violation sub.size)} (h : ∀ x ∈ xs, ∃ c, sub.conflict x = .ok c) :
    ∃ found, sub.select selection xs = .ok found := by
  cases selection with
  | firstViolation =>
    cases xs with
    | nil => exact ⟨none, rfl⟩
    | cons x xs =>
      obtain ⟨c, hc⟩ := h x (List.mem_cons_self ..)
      refine ⟨some c, ?_⟩
      have hx : (some <$> sub.conflict x) = .ok (some c) := by rw [hc]; rfl
      exact hx
  | smallest =>
    obtain ⟨cs, hcs⟩ := exists_mapM_ok h
    exact ⟨_, bind_eq_ok_iff.2 ⟨cs, hcs, rfl⟩⟩

end TightSubgraph

theorem Network.exists_tighten_eq_ok (net : Network w ρ n) (selection : Selection)
    (paths : Paths w (n + 1)) : ∃ found, (net.tighten selection paths).conflict = .ok found := by
  simp only [tighten]
  split
  · exact ⟨none, rfl⟩
  · exact TightSubgraph.exists_select_eq_ok selection fun x hx =>
      TightSubgraph.exists_conflict_eq_ok hx

namespace Graph

variable {g : Graph w ρ} {net : Network w ρ g.occurrences.size}

/-! ### Conflicts are reported -/

theorem exists_vertexText_eq_ok {v : Vertex} (h : v < g.numVertices) :
    ∃ text, g.vertexText v = .ok text := by
  cases v with
  | zero => exact ⟨_, rfl⟩
  | succ i =>
    have hi : i < g.occurrences.size := Nat.lt_of_succ_lt_succ h
    have ho : g.occurrence (i + 1) = .ok (some g.occurrences[i]) := by
      simp only [occurrence, Array.getElem?_eq_getElem hi]
    exact ⟨g.occurrenceText g.occurrences[i], bind_eq_ok_iff.2 ⟨_, ho, rfl⟩⟩

theorem exists_text_eq_ok {c : Conflict ρ} (h : ∀ v ∈ c.cycle, v < g.numVertices) :
    ∃ text, c.text g = .ok text := by
  obtain ⟨stops, hstops⟩ := exists_mapM_ok fun v hv => g.exists_vertexText_eq_ok (h v hv)
  rw [Conflict.text, hstops]
  cases stops with
  | nil => exact ⟨_, rfl⟩
  | cons stop stops => exact ⟨_, rfl⟩

/-- A conflict that refutes the network of a graph is reported: its cycle is one of vertices of the
graph, and its edges have reasons. -/
theorem IsNetwork.refute_eq_ok (h : g.IsNetwork net) {c : Conflict ρ} (hc : net.Refutes c) :
    (g.refute c).1 = .ok (.unsatisfiable c) := by
  obtain ⟨v, l, hl, hne, hofWalk, -⟩ := hc.exists_walk
  have hcycle : ∀ v ∈ c.cycle, v < g.numVertices := by
    intro u hu
    rw [hofWalk] at hu
    obtain ⟨x, -, rfl⟩ := List.mem_map.1 hu
    exact x.isLt
  have hreasons : c.reasons.isEmpty = false := by
    rw [hofWalk, List.isEmpty_eq_false_iff]
    exact reasons_ofWalk_ne_nil c.kind h.rooted hl hne
  obtain ⟨text, htext⟩ := exists_text_eq_ok hcycle
  simp only [refute, htext, hreasons]
  rfl

end Graph

end Octagon

import Octagon.Proofs.Embedding
import Octagon.Proofs.Graph.History
import Octagon.Proofs.Graph.Network

/-!
Embedded graphs. A graph may grow by vertices without edges but those from the root, and its weights
may become wider. Its network is then embedded in that of the larger graph. Calls that only register
assert nothing: what is built by them embeds what was there before.
-/

namespace Octagon

variable {w w' w'' : Width} {ρ : Type}

/-- The edge with its weight among those of a width that is no narrower. -/
def Edge.widen (h : w.bits ≤ w'.bits) (e : Edge w ρ) : Edge w' ρ :=
  ⟨e.source, e.target, e.weight.widen h, e.reason⟩

theorem Arc.edge_injective {n : Nat} : Function.Injective (Arc.edge : Arc w ρ n → Edge w ρ) := by
  rintro ⟨s, t, k, r⟩ ⟨s', t', k', r'⟩ h
  simpa [Arc.edge, Fin.val_inj] using h

/-- The first variable has its positive vertex before the second. -/
def Split.Before {n : Nat} (s t : Split n) : Prop := s.positive < t.positive

instance {n : Nat} : Std.Irrefl (Split.Before (n := n)) := ⟨fun s => lt_irrefl s.positive⟩

instance {n : Nat} : Std.Antisymm (Split.Before (n := n)) :=
  ⟨fun _ _ h h' => absurd h (lt_asymm h')⟩

namespace Graph

/-- The edges that do not leave the root. -/
def innerEdges (g : Graph w ρ) : List (Edge w ρ) := g.edges.toList.filter (·.source != root)

/-- The second graph has the vertices of the first, and between these and all others no inner edges
but those of the first. -/
structure Embeds (g : Graph w ρ) (g' : Graph w' ρ) : Prop where
  bits_le : w.bits ≤ w'.bits
  numVertices_le : g.numVertices ≤ g'.numVertices
  vertex?_iff : ∀ o v, v < g.numVertices → (g'.vertex? o = some v ↔ g.vertex? o = some v)
  innerEdges_eq : g'.innerEdges = g.innerEdges.map (Edge.widen bits_le)

/-! ### Networks -/

theorem pairwise_filterMap_finRange {α : Type} {n : Nat} {f : Fin n → Option α}
    {k : α → Fin (n + 1)} (h : ∀ i x, f i = some x → k x = i.succ) :
    ((List.finRange n).filterMap f).Pairwise fun x y => k x < k y := by
  refine List.pairwise_filterMap.2 ((List.pairwise_lt_finRange n).imp ?_)
  intro i j hij x hx y hy
  rw [h i x hx, h j y hy]
  exact Fin.succ_lt_succ_iff.2 hij

theorem opposites_pairwise (g : Graph w ρ) :
    g.opposites.Pairwise fun x y => x.2.1 < y.2.1 := by
  unfold opposites
  refine pairwise_filterMap_finRange fun i x hx => ?_
  obtain ⟨o, -, ho⟩ := Option.bind_eq_some_iff.1 hx
  split at ho
  · obtain ⟨v, -, hv⟩ := Option.bind_eq_some_iff.1 ho
    cases hv
    rfl
  · cases ho

section networks

variable {g : Graph w ρ} {net : Network w ρ g.occurrences.size} (h : g.IsNetwork net)

include h

theorem IsNetwork.map_edge_inner : net.inner.map Arc.edge = g.innerEdges := by
  rw [innerEdges, ← h.map_edge, List.filter_map]
  refine congrArg (List.map _) (List.filter_congr fun a _ => ?_)
  rw [Bool.eq_iff_iff]
  simp [eq_root_iff, Arc.edge]

/-- Split variables are listed by their positive vertices. -/
theorem IsNetwork.splits_pairwise : net.splits.Pairwise Split.Before := by
  have hnet := h.network_eq
  simp only [network, bind_eq_ok_iff, pure_eq_ok_iff] at hnet
  obtain ⟨arcs, -, splits, hsplits, rfl⟩ := hnet
  have hmap : splits.map (fun s => (s.var, s.positive, s.negative.val)) = g.opposites :=
    (mapM_eq_ok_iff_map fun _ _ => split_eq_ok_iff).1 hsplits
  have hordered := g.opposites_pairwise
  rwa [← hmap, List.pairwise_map] at hordered

end networks

namespace Embeds

variable {g : Graph w ρ} {g' : Graph w' ρ} {net : Network w ρ g.occurrences.size}
  {net' : Network w' ρ g'.occurrences.size} (h : g.Embeds g') (hg : g.IsNetwork net)
  (hg' : g'.IsNetwork net')

include h

theorem size_le : g.occurrences.size + 1 ≤ g'.occurrences.size + 1 := h.numVertices_le

include hg hg'

/-- The splits between vertices of the smaller graph are those of its network. -/
theorem splits_eq : net'.splits.filter (fun s => decide
    (s.positive.val < g.occurrences.size + 1 ∧ s.negative.val < g.occurrences.size + 1)) =
      net.splits.map (Split.embed h.size_le) := by
  have hordered : (net.splits.map (Split.embed h.size_le)).Pairwise Split.Before :=
    List.pairwise_map.2 hg.splits_pairwise
  refine (hg'.splits_pairwise.filter _).eq_of_mem_iff hordered fun s => ?_
  obtain ⟨x, p, q⟩ := s
  rw [List.mem_filter, hg'.mem_splits_iff, List.mem_map, decide_eq_true_eq]
  constructor
  · rintro ⟨⟨hp, hq⟩, hplt, hqlt⟩
    refine ⟨⟨x, ⟨p, hplt⟩, ⟨q, hqlt⟩⟩, (hg.mem_splits_iff ..).2 ?_, rfl⟩
    exact ⟨(h.vertex?_iff _ _ hplt).1 hp, (h.vertex?_iff _ _ hqlt).1 hq⟩
  · rintro ⟨⟨y, u, v⟩, hs, heq⟩
    cases heq
    obtain ⟨hu, hv⟩ := (hg.mem_splits_iff ..).1 hs
    exact ⟨⟨(h.vertex?_iff _ _ u.isLt).2 hu, (h.vertex?_iff _ _ v.isLt).2 hv⟩, u.isLt, v.isLt⟩

/-- The networks of embedded graphs are embedded. -/
theorem network : net.Embeds net' where
  bits_le := h.bits_le
  le := h.size_le
  inner_eq := by
    refine List.map_injective_iff.2 Arc.edge_injective ?_
    rw [hg'.map_edge_inner, h.innerEdges_eq, ← hg.map_edge_inner, List.map_map, List.map_map]
    rfl
  splits_eq := h.splits_eq hg hg'

end Embeds

namespace Embeds

variable {g : Graph w ρ} {g' : Graph w' ρ} {g'' : Graph w'' ρ}

theorem refl (g : Graph w ρ) : g.Embeds g where
  bits_le := le_rfl
  numVertices_le := le_rfl
  vertex?_iff _ _ _ := Iff.rfl
  innerEdges_eq := (List.map_id _).symm

theorem trans (h : g.Embeds g') (h' : g'.Embeds g'') : g.Embeds g'' where
  bits_le := h.bits_le.trans h'.bits_le
  numVertices_le := h.numVertices_le.trans h'.numVertices_le
  vertex?_iff o v hv :=
    (h'.vertex?_iff o v (hv.trans_le h.numVertices_le)).trans (h.vertex?_iff o v hv)
  innerEdges_eq := by
    rw [h'.innerEdges_eq, h.innerEdges_eq, List.map_map]
    rfl

end Embeds

/-! ### Registering embeds -/

/-- What numbering and naming keep, and what registering one occurrence keeps, all calls keep that
only register. -/
theorem perform_induction {P : Graph w ρ → Prop}
    (hrelabel : ∀ g counter names, P g → P { g with counter, names })
    (hregister : ∀ g o, P g → P (g.registerOccurrence o).2) {g : Graph w ρ} (hg : P g)
    {call : Call w ρ} (hcall : call.registers) : P (g.perform call) := by
  have hvariable : ∀ g x, P g → P (g.registerVariable x) := fun g x hg =>
    hregister _ x.negative (hregister g x.positive hg)
  have hnew : ∀ g, P g → P g.newVariable.2 := fun g hg =>
    hvariable _ _ (hrelabel g _ g.names hg)
  cases call with
  | newVariable => exact hnew g hg
  | newNamedVariable name => exact hrelabel _ _ _ (hnew g hg)
  | registerVariable x => exact hvariable g x hg
  | registerOccurrence o => exact hregister g o hg
  | addEdge d r => cases hcall
  | addConstraint c r => cases hcall

/-- An occurrence that is registered takes no place in what was there before. -/
theorem embeds_registerOccurrence (g : Graph w ρ) (o : Occurrence) :
    g.Embeds (g.registerOccurrence o).2 := by
  cases ho : g.vertex? o with
  | some v =>
    have hsame : (g.registerOccurrence o).2 = g := by simp [registerOccurrence, ho]
    rw [hsame]
    exact .refl g
  | none =>
    refine ⟨le_rfl, ?_, fun p v hv => ?_, ?_⟩
    · rw [numVertices_registerOccurrence ho]
      exact Nat.le_succ _
    · rw [vertex?_registerOccurrence ho]
      split
      · rename_i hp
        subst hp
        simp [ho, hv.ne']
      · rfl
    · refine Eq.trans ?_ (Embeds.refl g).innerEdges_eq
      simp [innerEdges, edges_registerOccurrence ho]

theorem embeds_relabel (g : Graph w ρ) (counter : KeyCounter Variable)
    (names : Std.TreeMap Nat String) : g.Embeds { g with counter, names } :=
  ⟨le_rfl, le_rfl, fun _ _ _ => Iff.rfl, (Embeds.refl g).innerEdges_eq⟩

/-- A graph embeds in every graph built from it by registering. -/
theorem Valid.embeds_run {g : Graph w ρ} (h : g.Valid) {calls : List (Call w ρ)}
    (hcalls : ∀ call ∈ calls, call.registers) : g.Embeds (g.run calls) := by
  induction calls generalizing g with
  | nil => exact .refl g
  | cons call calls ih =>
    obtain ⟨hv, hembeds⟩ : (g.perform call).Valid ∧ g.Embeds (g.perform call) := by
      refine perform_induction (P := fun g' => g'.Valid ∧ g.Embeds g') ?_ ?_ ⟨h, .refl g⟩
        (hcalls call (List.mem_cons_self ..))
      · exact fun g' counter names ⟨hv, he⟩ =>
          ⟨(hv.extends_relabel counter names).1, he.trans (g'.embeds_relabel counter names)⟩
      · exact fun g' o ⟨hv, he⟩ =>
          ⟨(hv.extends_registerOccurrence o).1, he.trans (g'.embeds_registerOccurrence o)⟩
    exact hembeds.trans (ih hv fun c hc => hcalls c (List.mem_cons_of_mem call hc))

theorem ofCalls_append (calls more : List (Call w ρ)) :
    ofCalls (calls ++ more) = (ofCalls calls).run more := List.foldl_append

theorem registers_of_mem_replicate {n : Nat} {call : Call w ρ}
    (h : call ∈ List.replicate n .newVariable) : call.registers := by
  rw [List.eq_of_mem_replicate h]
  rfl

theorem embeds_newVariables (calls : List (Call w ρ)) (n : Nat) :
    (ofCalls calls).Embeds (ofCalls (calls ++ List.replicate n .newVariable)) := by
  rw [ofCalls_append]
  exact (valid_ofCalls calls).embeds_run fun _ => registers_of_mem_replicate

end Graph

end Octagon

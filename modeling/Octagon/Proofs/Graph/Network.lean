import Octagon.Network
import Octagon.Proofs.Except
import Octagon.Proofs.Graph.Bound
import Octagon.Proofs.Rooted

/-!
Networks of valid graphs. A valid graph has a network: its arcs are the edges in order, and it
splits the variables that have a vertex for both occurrences. The network is rooted.
-/

namespace Octagon

/-- The edge that an arc stands for. -/
def Arc.edge {w : Width} {ρ : Type} {n : Nat} (a : Arc w ρ n) : Edge w ρ :=
  ⟨a.source.val, a.target.val, a.weight, a.reason⟩

namespace Graph

variable {w : Width} {ρ : Type} {g : Graph w ρ}

/-! ### Arcs and splits -/

theorem existing_eq_ok_iff {v : Vertex} {u : Fin (g.occurrences.size + 1)} :
    g.existing v = .ok u ↔ u.val = v := by
  unfold existing
  split
  · rw [Except.ok.injEq, Fin.ext_iff, eq_comm]
  · rename_i hv
    refine iff_of_false (by simp) fun h => hv (h ▸ u.isLt)

theorem arc_eq_ok_iff {e : Edge w ρ} {a : Arc w ρ (g.occurrences.size + 1)} :
    g.arc e = .ok a ↔ a.edge = e := by
  obtain ⟨s, t, k, r⟩ := e
  obtain ⟨u, v, k', r'⟩ := a
  simp only [arc, bind_eq_ok_iff, pure_eq_ok_iff, existing_eq_ok_iff, Arc.edge, Arc.mk.injEq,
    Edge.mk.injEq]
  constructor
  · rintro ⟨_, rfl, _, rfl, rfl, rfl, rfl, rfl⟩
    exact ⟨rfl, rfl, rfl, rfl⟩
  · rintro ⟨rfl, rfl, rfl, rfl⟩
    exact ⟨_, rfl, _, rfl, rfl, rfl, rfl, rfl⟩

theorem split_eq_ok_iff {x : Variable × Fin (g.occurrences.size + 1) × Vertex}
    {s : Split (g.occurrences.size + 1)} :
    g.split x = .ok s ↔ (s.var, s.positive, s.negative.val) = x := by
  obtain ⟨x, p, v⟩ := x
  obtain ⟨y, q, u⟩ := s
  simp only [split, bind_eq_ok_iff, pure_eq_ok_iff, existing_eq_ok_iff, Split.mk.injEq,
    Prod.mk.injEq]
  constructor
  · rintro ⟨_, rfl, rfl, rfl, rfl⟩
    exact ⟨rfl, rfl, rfl⟩
  · rintro ⟨rfl, rfl, rfl⟩
    exact ⟨_, rfl, rfl, rfl, rfl⟩

/-- The opposite of a vertex is the vertex of the negated occurrence. -/
theorem Valid.mem_opposites_iff (h : g.Valid) {x : Variable} {p : Fin (g.occurrences.size + 1)}
    {v : Vertex} : (x, p, v) ∈ g.opposites ↔
      g.vertex? x.positive = some p.val ∧ g.vertex? x.negative = some v := by
  simp only [opposites, List.mem_filterMap, List.mem_finRange, true_and, h.vertex?_eq_some_iff]
  simp only [Option.bind_eq_bind, Option.bind_eq_some_iff]
  constructor
  · rintro ⟨i, ⟨y, polarity⟩, ho, hv⟩
    cases polarity with
    | negative => cases hv
    | positive =>
      obtain ⟨u, hu, heq⟩ := Option.bind_eq_some_iff.1 hv
      cases heq
      exact ⟨⟨i, ho, rfl⟩, (h.vertex?_eq_some_iff _ _).1 hu⟩
  · rintro ⟨⟨i, hi, hp⟩, hv⟩
    have hlt : i < g.occurrences.size := (Array.getElem?_eq_some_iff.1 hi).1
    obtain rfl : p = Fin.succ ⟨i, hlt⟩ := Fin.ext hp
    refine ⟨⟨i, hlt⟩, x.positive, hi, ?_⟩
    have hnegate : g.vertex? x.positive.negate = some v := (h.vertex?_eq_some_iff _ _).2 hv
    exact Option.bind_eq_some_iff.2 ⟨v, hnegate, rfl⟩

/-! ### Networks -/

theorem length_arcs_of_network {net : Network w ρ g.occurrences.size} (h : g.network = .ok net) :
    net.arcs.length = g.numEdges := by
  simp only [network, bind_eq_ok_iff, pure_eq_ok_iff] at h
  obtain ⟨arcs, harcs, _, -, rfl⟩ := h
  rw [← (mapM_eq_ok_iff.1 harcs).length_eq, Array.length_toList]
  rfl

/-- The network of a valid graph: its arcs are the edges, and it splits the variables that have two
vertices. -/
structure IsNetwork (g : Graph w ρ) (net : Network w ρ g.occurrences.size) : Prop where
  valid : g.Valid
  network_eq : g.network = .ok net
  map_edge : net.arcs.map Arc.edge = g.edges.toList
  mem_splits_iff : ∀ x p q, (⟨x, p, q⟩ : Split _) ∈ net.splits ↔
    g.vertex? x.positive = some p.val ∧ g.vertex? x.negative = some q.val

/-- A valid graph has a network. -/
theorem Valid.exists_isNetwork (h : g.Valid) : ∃ net, g.IsNetwork net := by
  obtain ⟨arcs, harcs⟩ : ∃ arcs, g.edges.toList.mapM g.arc = .ok arcs := by
    refine exists_mapM_ok fun e he => ?_
    have hends := h.ends_lt _ (mem_ends.2 ⟨e, he, rfl, rfl⟩)
    exact ⟨⟨⟨_, hends.1⟩, ⟨_, hends.2⟩, e.weight, e.reason⟩, arc_eq_ok_iff.2 rfl⟩
  obtain ⟨splits, hsplits⟩ : ∃ splits, g.opposites.mapM g.split = .ok splits := by
    refine exists_mapM_ok fun y hy => ?_
    have hv := (h.vertex?_lt (h.mem_opposites_iff.1 hy).2).2
    exact ⟨⟨y.1, y.2.1, ⟨y.2.2, hv⟩⟩, by simp [split_eq_ok_iff]⟩
  refine ⟨⟨arcs, splits⟩, h, ?_, (mapM_eq_ok_iff_map fun _ _ => arc_eq_ok_iff).1 harcs, ?_⟩
  · simp only [network, bind_eq_ok_iff, pure_eq_ok_iff]
    exact ⟨arcs, harcs, splits, hsplits, rfl⟩
  · intro x p q
    have hmap : splits.map (fun s => (s.var, s.positive, s.negative.val)) = g.opposites :=
      (mapM_eq_ok_iff_map fun _ _ => split_eq_ok_iff).1 hsplits
    rw [← h.mem_opposites_iff, ← hmap, List.mem_map]
    constructor
    · exact fun hs => ⟨_, hs, rfl⟩
    · rintro ⟨⟨y, p', q'⟩, hs, heq⟩
      simp only [Prod.mk.injEq, Fin.val_inj] at heq
      obtain ⟨rfl, rfl, rfl⟩ := heq
      exact hs

/-- The root of a network is the root of its graph. -/
theorem eq_root_iff {n : Nat} {v : Fin (n + 1)} : v = Network.root n ↔ v.val = root := Fin.ext_iff

namespace IsNetwork

variable {net : Network w ρ g.occurrences.size} (h : g.IsNetwork net)

include h

theorem mem_edges_iff {e : Edge w ρ} : e ∈ g.edges.toList ↔ ∃ a ∈ net.arcs, a.edge = e := by
  rw [← h.map_edge, List.mem_map]

theorem edge_mem {a : Arc w ρ (g.occurrences.size + 1)} (ha : a ∈ net.arcs) :
    a.edge ∈ g.edges.toList := h.mem_edges_iff.2 ⟨a, ha, rfl⟩

theorem length_arcs : net.arcs.length = g.numEdges := length_arcs_of_network h.network_eq

theorem ends_eq_map : g.ends = net.arcs.map fun a => (a.source.val, a.target.val) := by
  rw [ends, ← h.map_edge, List.map_map]
  rfl

/-- The network of a valid graph is rooted. -/
theorem rooted : net.Rooted := by
  constructor
  case target_ne_root =>
    intro a ha htarget
    exact h.valid.target_ne_root _ (mem_ends.2 ⟨_, h.edge_mem ha, rfl, rfl⟩) (eq_root_iff.1 htarget)
  case weight_eq_zero =>
    intro a ha hsource
    exact h.valid.weight_eq_zero _ (h.edge_mem ha) (eq_root_iff.1 hsource)
  case reason_eq_none =>
    intro a ha
    rw [eq_root_iff]
    exact h.valid.reason_eq_none _ (h.edge_mem ha)
  case exists_root_arc =>
    intro v hv
    have hmem := h.valid.root_mem_ends v.val (fun hroot => hv (eq_root_iff.2 hroot)) v.isLt
    rw [h.ends_eq_map] at hmem
    obtain ⟨a, ha, heq⟩ := List.mem_map.1 hmem
    obtain ⟨hs, ht⟩ := Prod.mk.inj heq
    exact ⟨a, ha, eq_root_iff.2 hs, Fin.ext ht⟩
  case ordered =>
    have hord := h.valid.ordered
    rw [h.ends_eq_map, List.pairwise_map] at hord
    refine hord.imp fun hab hroot => ?_
    obtain ⟨hs, ht⟩ := hab (eq_root_iff.1 hroot)
    exact ⟨fun heq => hs (congrArg Fin.val heq), fun heq => ht (congrArg Fin.val heq)⟩
  case distinct =>
    have hdist := h.valid.distinct
    rw [h.ends_eq_map] at hdist
    refine List.Nodup.of_map (Prod.map Fin.val Fin.val) ?_
    rwa [List.map_map]

/-- The vertices of a split variable are those of its occurrences. -/
theorem vertex?_split {s : Split (g.occurrences.size + 1)} (hs : s ∈ net.splits) :
    g.vertex? s.var.positive = some s.positive.val ∧
      g.vertex? s.var.negative = some s.negative.val :=
  (h.mem_splits_iff s.var s.positive s.negative).1 hs

/-- A bound is what an arc that does not leave the root says. -/
theorem exists_arc_of_bound? {a b : Occurrence} {k : Weight w} {r : ρ}
    (hab : g.bound? a b = some (k, r)) : ∃ arc ∈ net.arcs,
      g.vertex? a = some arc.source.val ∧ g.vertex? b = some arc.target.val ∧
        arc.weight = k ∧ arc.source ≠ Network.root _ := by
  obtain ⟨e, he, ha, hb, rfl, -⟩ := h.valid.bound?_eq_some_iff.1 hab
  obtain ⟨arc, harc, rfl⟩ := h.mem_edges_iff.1 he
  exact ⟨arc, harc, ha, hb, rfl, fun hroot => (h.valid.vertex?_lt ha).1 (eq_root_iff.1 hroot)⟩

/-- An arc that does not leave the root is a bound between the occurrences of its ends. -/
theorem exists_bound?_of_arc {a : Arc w ρ (g.occurrences.size + 1)} (ha : a ∈ net.arcs)
    (hroot : a.source ≠ Network.root _) : ∃ p q r, g.vertex? p = some a.source.val ∧
      g.vertex? q = some a.target.val ∧ a.reason = some r ∧ g.bound? p q = some (a.weight, r) :=
  h.valid.exists_bound? (h.edge_mem ha) fun hs => hroot (eq_root_iff.2 hs)

end IsNetwork

end Graph

end Octagon

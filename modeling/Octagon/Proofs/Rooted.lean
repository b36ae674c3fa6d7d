import Octagon.Proofs.Walk

/-!
Rooted networks: every vertex hangs on the root by an arc of weight 0 that comes before all other
arcs at the vertex, nothing leads into the root, and two vertices are joined by one arc at most. The
networks of graphs are rooted; a search for shortest paths relies on it.
-/

namespace Octagon.Network

variable {w : Width} {ρ : Type} {n : Nat}

/-- What the networks of graphs have in common. -/
structure Rooted (net : Network w ρ n) : Prop where
  target_ne_root : ∀ a ∈ net.arcs, a.target ≠ root n
  weight_eq_zero : ∀ a ∈ net.arcs, a.source = root n → a.weight = 0
  reason_eq_none : ∀ a ∈ net.arcs, a.reason = none ↔ a.source = root n
  exists_root_arc : ∀ v, v ≠ root n → ∃ a ∈ net.arcs, a.source = root n ∧ a.target = v
  ordered : net.arcs.Pairwise fun a b =>
    b.source = root n → b.target ≠ a.source ∧ b.target ≠ a.target
  distinct : (net.arcs.map fun a => (a.source, a.target)).Nodup

variable {net : Network w ρ n}

/-- An arc is known by its ends. -/
theorem Rooted.eq_of_ends (h : net.Rooted) {a b : Arc w ρ (n + 1)} (ha : a ∈ net.arcs)
    (hb : b ∈ net.arcs) (hs : a.source = b.source) (ht : a.target = b.target) : a = b :=
  List.inj_on_of_nodup_map h.distinct ha hb (Prod.ext hs ht)

/-- The arc by which a vertex hangs on the root precedes every arc that leaves the vertex. -/
theorem Rooted.exists_root_arc_before (h : net.Rooted) {seen rest : List (Arc w ρ (n + 1))}
    {a : Arc w ρ (n + 1)} (harcs : net.arcs = seen ++ a :: rest) (ha : a.source ≠ root n) :
    ∃ b ∈ seen, b.source = root n ∧ b.target = a.source := by
  obtain ⟨b, hb, hs, ht⟩ := h.exists_root_arc a.source ha
  have hord := h.ordered
  rw [harcs] at hb hord
  rcases List.mem_append.1 hb with hb | hb
  · exact ⟨b, hb, hs, ht⟩
  rcases List.mem_cons.1 hb with rfl | hb
  · exact absurd hs ha
  · have hafter := (List.pairwise_append.1 hord).2.1
    exact absurd ht ((List.pairwise_cons.1 hafter).1 b hb hs).1

/-- A walk that ends at the root is empty. -/
theorem Rooted.walk_root (h : net.Rooted) {u : Fin (n + 1)} {l : List (Arc w ρ (n + 1))}
    (hl : Walk net.arcs u (root n) l) : l = [] := by
  rcases List.eq_nil_or_concat l with rfl | ⟨l, a, rfl⟩
  · rfl
  · rw [List.concat_eq_append, walk_append_iff] at hl
    obtain ⟨_, _, ha, _, ht⟩ := hl
    exact absurd ht (h.target_ne_root a ha)

/-- A closed walk does not pass through the root. -/
theorem Rooted.source_ne_root (h : net.Rooted) {v : Fin (n + 1)} {l : List (Arc w ρ (n + 1))}
    (hl : Walk net.arcs v v l) : ∀ a ∈ l, a.source ≠ root n := by
  intro a ha hs
  obtain ⟨p, q, rfl⟩ := List.append_of_mem ha
  obtain ⟨x, hp, hq⟩ := walk_append_iff.1 hl
  obtain rfl : root n = x := by rw [← hs, hq.2.1]
  obtain rfl : p = [] := h.walk_root hp
  cases hp
  have hempty := h.walk_root hl
  simp at hempty

/-- A closed walk along some arc does not meet the root, not even at its ends. -/
theorem Rooted.root_notMem_visited (h : net.Rooted) {v : Fin (n + 1)} {l : List (Arc w ρ (n + 1))}
    (hl : Walk net.arcs v v l) (hne : l ≠ []) : root n ∉ visited v l := by
  intro hmem
  rcases List.mem_cons.1 hmem with rfl | hmem
  · exact hne (h.walk_root hl)
  · obtain ⟨a, ha, ht⟩ := List.mem_map.1 hmem
    exact h.target_ne_root a (hl.mem a ha) ht

end Octagon.Network

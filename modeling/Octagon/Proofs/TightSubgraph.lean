import Octagon.Proofs.ShortestPath
import Octagon.TightSubgraph

/-!
Tight subgraphs are exact. Under exact distances an arc is tight if its weight is the difference of
the distances of its ends; the subgraph has these arcs, less those that leave the root, in order and
under other numbers for their ends. Its walks are walks of the network with the same reasons, and
each weighs what its ends differ by.
-/

namespace Octagon

variable {w : Width} {ρ : Type} {n : Nat}

/-! ### Reasons along walks -/

/-- Where arcs are known by their ends, the reasons along a walk are those of its arcs. -/
theorem Walk.reasonsAlong_visited {arcs : List (Arc w ρ n)}
    (hd : (arcs.map fun a => (a.source, a.target)).Nodup) {u v : Fin n} {l : List (Arc w ρ n)}
    (hl : Walk arcs u v l) :
    Arc.reasonsAlong arcs (visited u l) = l.flatMap fun a => a.reason.toList := by
  rw [Arc.reasonsAlong, hl.zip_visited, List.flatMap_map]
  refine List.flatMap_congr fun a ha => ?_
  have hfind : arcs.find? (fun b => b.source == a.source && b.target == a.target) = some a := by
    obtain ⟨b, hb⟩ : ∃ b, arcs.find? (fun b => b.source == a.source && b.target == a.target) =
        some b := Option.isSome_iff_exists.1 (List.find?_isSome.2 ⟨a, hl.mem a ha, by simp⟩)
    have hends : b.source = a.source ∧ b.target = a.target := by simpa using List.find?_some hb
    rw [hb, List.inj_on_of_nodup_map hd (List.mem_of_find?_eq_some hb) (hl.mem a ha)
      (Prod.ext hends.1 hends.2)]
  simp [hfind]

theorem nodup_eraseDups {α : Type} [DecidableEq α] (xs : List α) : xs.eraseDups.Nodup := by
  induction hk : xs.length using Nat.strong_induction_on generalizing xs with
  | _ k ih =>
    cases xs with
    | nil => simp
    | cons x xs =>
      rw [List.eraseDups_cons, List.nodup_cons]
      refine ⟨by simp, ih _ ?_ _ rfl⟩
      exact hk ▸ Nat.lt_succ_of_le (List.length_filter_le ..)

theorem finIdxOf?_eq_some_iff {α : Type} [DecidableEq α] {xs : List α} (h : xs.Nodup) {x : α}
    {i : Fin xs.length} : xs.finIdxOf? x = some i ↔ xs.get i = x := by
  rw [List.finIdxOf?_eq_some_iff]
  refine ⟨fun hi => hi.1, fun hi => ⟨hi, fun j hj heq => ?_⟩⟩
  have hij : j = i := List.nodup_iff_injective_get.1 h (heq.trans hi.symm)
  exact absurd hj (hij ▸ lt_irrefl _)

namespace TightSubgraph

variable {arcs : List (Arc w ρ n)}

/-- The arc between the vertices that the numbers at its ends stand for. -/
def original (sub : TightSubgraph w ρ n) (a : Arc w ρ sub.size) : Arc w ρ n :=
  ⟨sub.members a.source, sub.members a.target, a.weight, a.reason⟩

/-- The ends of the arcs, in the order in which these mention them. -/
def endsOf (arcs : List (Arc w ρ n)) : List (Fin n) :=
  (arcs.flatMap fun a => [a.source, a.target]).eraseDups

theorem mem_endsOf {v : Fin n} : v ∈ endsOf arcs ↔ ∃ a ∈ arcs, a.source = v ∨ a.target = v := by
  simp [endsOf, eq_comm]

theorem members_eq (i : Fin (endsOf arcs).length) :
    (ofArcs arcs).members i = (endsOf arcs).get i := VertexMap.get_ofFn ..

theorem number_eq (v : Fin n) : (ofArcs arcs).number v = (endsOf arcs).finIdxOf? v :=
  VertexMap.get_ofFn ..

/-- Members and numbers are inverse to each other. -/
theorem number_eq_some_iff {v : Fin n} {i : Fin (ofArcs arcs).size} :
    (ofArcs arcs).number v = some i ↔ (ofArcs arcs).members i = v := by
  have hiff : (endsOf arcs).finIdxOf? v = some i ↔ (endsOf arcs).get i = v :=
    finIdxOf?_eq_some_iff (nodup_eraseDups _)
  exact ⟨fun h => (members_eq i).trans (hiff.1 ((number_eq v).symm.trans h)),
    fun h => (number_eq v).trans (hiff.2 ((members_eq i).symm.trans h))⟩

theorem members_injective : Function.Injective (ofArcs arcs).members.get := by
  intro i j h
  have hi := number_eq_some_iff.2 h
  have hj := number_eq_some_iff.2 (rfl : (ofArcs arcs).members j = _)
  exact Option.some.inj (hi.symm.trans hj)

/-- The vertices with a number are the ends of the arcs. -/
theorem exists_number_iff {v : Fin n} :
    (∃ i, (ofArcs arcs).number v = some i) ↔ ∃ a ∈ arcs, a.source = v ∨ a.target = v := by
  rw [← mem_endsOf, List.mem_iff_get]
  refine exists_congr fun i => number_eq_some_iff.trans ?_
  exact ⟨fun h => (members_eq i).symm.trans h, fun h => (members_eq i).trans h⟩

/-- The arcs of the subgraph are the given ones, in order. -/
theorem map_original (arcs : List (Arc w ρ n)) :
    (ofArcs arcs).arcs.map (ofArcs arcs).original = arcs := by
  have hrenumber : ∀ a ∈ arcs, (renumber (ofArcs arcs).number a).map (ofArcs arcs).original =
      some a := by
    intro a ha
    obtain ⟨i, hi⟩ := exists_number_iff.2 ⟨a, ha, .inl rfl⟩
    obtain ⟨j, hj⟩ := exists_number_iff.2 ⟨a, ha, .inr rfl⟩
    simp [renumber, hi, hj, original, number_eq_some_iff.1 hi, number_eq_some_iff.1 hj]
  calc (ofArcs arcs).arcs.map (ofArcs arcs).original
      = arcs.filterMap fun a => (renumber (ofArcs arcs).number a).map (ofArcs arcs).original :=
        List.map_filterMap
    _ = arcs.filterMap some := List.filterMap_congr hrenumber
    _ = arcs := List.filterMap_some

theorem mem_of_mem_arcs {a : Arc w ρ (ofArcs arcs).size} (ha : a ∈ (ofArcs arcs).arcs) :
    (ofArcs arcs).original a ∈ arcs := by
  have hmem := List.mem_map_of_mem (f := (ofArcs arcs).original) ha
  rwa [map_original] at hmem

/-- Arcs known by their ends stay so. -/
theorem distinct_ofArcs (hd : (arcs.map fun a => (a.source, a.target)).Nodup) :
    ((ofArcs arcs).arcs.map fun a => (a.source, a.target)).Nodup := by
  rw [← map_original arcs, List.map_map] at hd
  refine List.Nodup.of_map (Prod.map (ofArcs arcs).members.get (ofArcs arcs).members.get) ?_
  rwa [List.map_map]

/-! ### Walks in the subgraph -/

variable {sub : TightSubgraph w ρ n}

theorem mem_next_iff {u v : Fin sub.size} :
    v ∈ sub.digraph.next u ↔ ∃ a ∈ sub.arcs, a.source = u ∧ a.target = v := by
  simp [digraph, and_assoc]

/-- Each arc leads to a successor. -/
theorem exists_next {a : Arc w ρ n} (ha : a ∈ arcs) : ∃ i j,
    (ofArcs arcs).number a.source = some i ∧ (ofArcs arcs).number a.target = some j ∧
      j ∈ (ofArcs arcs).digraph.next i := by
  rw [← map_original arcs] at ha
  obtain ⟨b, hb, rfl⟩ := List.mem_map.1 ha
  exact ⟨b.source, b.target, number_eq_some_iff.2 rfl, number_eq_some_iff.2 rfl,
    mem_next_iff.2 ⟨b, hb, rfl, rfl⟩⟩

theorem visited_map_original (u : Fin sub.size) (l : List (Arc w ρ sub.size)) :
    visited (sub.members u) (l.map sub.original) = (visited u l).map sub.members.get := by
  simp [visited, original]

/-- A walk in the subgraph is a walk along the arcs it was made of. -/
theorem walk_map_original : ∀ {u v : Fin (ofArcs arcs).size}
    {l : List (Arc w ρ (ofArcs arcs).size)}, Walk (ofArcs arcs).arcs u v l →
      Walk arcs ((ofArcs arcs).members u) ((ofArcs arcs).members v) (l.map (ofArcs arcs).original)
  | _, _, [], h => congrArg (ofArcs arcs).members.get h
  | _, _, _ :: _, ⟨ha, hs, hl⟩ =>
      ⟨mem_of_mem_arcs ha, congrArg (ofArcs arcs).members.get hs, walk_map_original hl⟩

end TightSubgraph

/-! ### Tight arcs -/

theorem Arc.isTight_iff {a : Arc w ρ n} {paths : Paths w n} :
    a.isTight paths = true ↔ paths.dist a.target = paths.dist a.source + a.weight.val := by
  rw [Arc.isTight, beq_iff_eq, Weight.sub?_eq_some_iff, Paths.dist, Paths.dist]
  omega

namespace Network

variable {net : Network w ρ n} {paths : Paths w (n + 1)}

/-- The tight arcs that do not leave the root. -/
def tightArcs (net : Network w ρ n) (paths : Paths w (n + 1)) : List (Arc w ρ (n + 1)) :=
  net.arcs.filter fun a => a.source != root n && a.isTight paths

theorem mem_tightArcs_iff {a : Arc w ρ (n + 1)} : a ∈ net.tightArcs paths ↔
    a ∈ net.arcs ∧ a.source ≠ root n ∧
      paths.dist a.target = paths.dist a.source + a.weight.val := by
  simp [tightArcs, Arc.isTight_iff]

theorem Rooted.distinct_tightArcs (h : net.Rooted) :
    ((net.tightArcs paths).map fun a => (a.source, a.target)).Nodup :=
  h.distinct.sublist (List.filter_sublist.map _)

theorem walk_of_tightArcs {u v : Fin (n + 1)} {l : List (Arc w ρ (n + 1))}
    (hl : Walk (net.tightArcs paths) u v l) : Walk net.arcs u v l :=
  hl.mono fun a ha => (mem_tightArcs_iff.1 (hl.mem a ha)).1

/-- A walk along tight arcs weighs what the distances of its ends differ by. -/
theorem exactWeight_of_tight {u v : Fin (n + 1)} {l : List (Arc w ρ (n + 1))}
    (hl : Walk (net.tightArcs paths) u v l) : exactWeight l = paths.dist v - paths.dist u := by
  have htight := fun a (ha : a ∈ net.tightArcs paths) => (mem_tightArcs_iff.1 ha).2.2
  have hle := hl.le_add fun a ha => (htight a ha).le
  have hge := hl.add_le fun a ha => (htight a ha).ge
  omega

end Network

end Octagon

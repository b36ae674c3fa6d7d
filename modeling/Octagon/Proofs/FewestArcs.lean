import Octagon.Proofs.BreadthFirst

/-!
Breadth-first paths have the fewest arcs. The layer that reaches a vertex first is its depth: so
many arcs lead to it, and fewer do not. A link goes back from one layer to the layer before it, so a
path along links has as many arcs as its target is deep.
-/

namespace Octagon

variable {n : Nat} {g : Digraph n} {source : Fin n}

namespace Digraph

/-- So many arcs in a row lead from one vertex to the other. -/
def Leads (g : Digraph n) : Nat → Fin n → Fin n → Prop
  | 0, u, v => u = v
  | k + 1, u, v => ∃ x, g.Leads k u x ∧ v ∈ g.next x

/-- A way may begin with a further arc as well as end with one. -/
theorem Leads.head {u v x : Fin n} {k : Nat} (hv : v ∈ g.next u) (h : g.Leads k v x) :
    g.Leads (k + 1) u x := by
  induction k generalizing x with
  | zero =>
    obtain rfl : v = x := h
    exact ⟨u, rfl, hv⟩
  | succ k ih =>
    obtain ⟨y, hy, hx⟩ := h
    exact ⟨y, ih hy, hx⟩

theorem Leads.reaches {u v : Fin n} {k : Nat} (h : g.Leads k u v) : g.Reaches u v := by
  induction k generalizing v with
  | zero =>
    obtain rfl : u = v := h
    exact .refl
  | succ k ih =>
    obtain ⟨x, hx, hv⟩ := h
    exact (ih hx).tail hv

/-- So many arcs lead from `source` to `v`, and fewer do not. -/
structure Depth (g : Digraph n) (source : Fin n) (k : Nat) (v : Fin n) : Prop where
  leads : g.Leads k source v
  not_leads : ∀ j < k, ¬g.Leads j source v

theorem Depth.le {j k : Nat} {v : Fin n} (h : g.Depth source k v) (hj : g.Leads j source v) :
    k ≤ j :=
  Nat.not_lt.1 fun hlt => h.not_leads j hlt hj

theorem Depth.eq {j k : Nat} {v : Fin n} (h : g.Depth source k v) (h' : g.Depth source j v) :
    k = j :=
  le_antisymm (h.le h'.leads) (h'.le h.leads)

theorem depth_source : g.Depth source 0 source := ⟨rfl, fun _ hj => absurd hj (Nat.not_lt_zero _)⟩

theorem depth_zero_iff {v : Fin n} : g.Depth source 0 v ↔ v = source := by
  constructor
  · rintro ⟨h, -⟩
    exact Eq.symm h
  · rintro rfl
    exact depth_source

end Digraph

namespace Layer

/-- The links of a layer are those there were before it, and links from new vertices to ones among
`us`. -/
def LinksTo (before : VertexMap n (Option (Fin n))) (us : List (Fin n)) (layer : Layer n) : Prop :=
  ∀ u v, layer.parents v = some u → before v = some u ∨ u ∈ us ∧ v ∈ layer.reached

variable {before : VertexMap n (Option (Fin n))} {us : List (Fin n)} {layer : Layer n} {u : Fin n}

theorem LinksTo.reach (h : LinksTo before us layer) (hu : u ∈ us) (v : Fin n) :
    LinksTo before us (layer.reach source u v) := by
  by_cases hv : Known source layer.parents v
  · rwa [reach_known hv]
  rw [reach_unknown hv]
  intro x y hxy
  dsimp only at hxy ⊢
  rw [VertexMap.get_set] at hxy
  split at hxy
  · rename_i heq
    obtain rfl : u = x := Option.some.inj hxy
    exact .inr ⟨hu, by simp [heq]⟩
  · rcases h x y hxy with hold | ⟨hx, hy⟩
    · exact .inl hold
    · exact .inr ⟨hx, List.mem_append_left _ hy⟩

theorem LinksTo.foldl_reach (hu : u ∈ us) {vs : List (Fin n)} {layer : Layer n}
    (h : LinksTo before us layer) :
    LinksTo before us (vs.foldl (Layer.reach source u) layer) := by
  induction vs generalizing layer with
  | nil => exact h
  | cons v vs ih => exact ih (h.reach hu v)

theorem LinksTo.foldl_expand {xs : List (Fin n)} (hxs : xs ⊆ us) {layer : Layer n}
    (h : LinksTo before us layer) :
    LinksTo before us (xs.foldl (expand g source) layer) := by
  induction xs generalizing layer with
  | nil => exact h
  | cons x xs ih =>
    obtain ⟨hx, hrest⟩ := List.cons_subset.1 hxs
    exact ih hrest (h.foldl_reach hx)

end Layer

namespace Digraph

open Layer

/-- What holds of the links when the vertices of `frontier` were reached last, by that many
layers. -/
structure Layered (g : Digraph n) (source : Fin n) (depth : Nat) (frontier : List (Fin n))
    (parents : VertexMap n (Option (Fin n))) : Prop where
  known_iff : ∀ v, Known source parents v ↔ ∃ k ≤ depth, g.Leads k source v
  mem_frontier_iff : ∀ v, v ∈ frontier ↔ g.Depth source depth v
  depth_link : ∀ u v, parents v = some u → ∃ k, g.Depth source k u ∧ g.Depth source (k + 1) v

variable {frontier : List (Fin n)} {parents : VertexMap n (Option (Fin n))} {depth : Nat}

/-- What was known within `depth` arcs or is a successor of the frontier is what is known within one
arc more. -/
theorem Layered.exists_leads_succ_iff (h : g.Layered source depth frontier parents) (v : Fin n) :
    (Known source parents v ∨ ∃ u ∈ frontier, v ∈ g.next u) ↔
      ∃ k ≤ depth + 1, g.Leads k source v := by
  constructor
  · rintro (hv | ⟨u, hu, hv⟩)
    · obtain ⟨k, hk, hlead⟩ := (h.known_iff v).1 hv
      exact ⟨k, Nat.le_succ_of_le hk, hlead⟩
    · exact ⟨depth + 1, le_rfl, u, ((h.mem_frontier_iff u).1 hu).leads, hv⟩
  · rintro ⟨k, hk, hlead⟩
    rcases Nat.lt_or_ge depth k with hlt | hle
    · obtain rfl : k = depth + 1 := le_antisymm hk hlt
      obtain ⟨x, hx, hv⟩ := hlead
      by_cases hsooner : ∃ j < depth, g.Leads j source x
      · obtain ⟨j, hj, hlead⟩ := hsooner
        exact .inl ((h.known_iff v).2 ⟨j + 1, hj, x, hlead, hv⟩)
      · push Not at hsooner
        exact .inr ⟨x, (h.mem_frontier_iff x).2 ⟨hx, hsooner⟩, hv⟩
    · exact .inl ((h.known_iff v).2 ⟨k, hle, hlead⟩)

theorem Layered.next (h : g.Layered source depth frontier parents)
    (hf : g.Frontier source frontier parents) :
    g.Layered source (depth + 1) (frontier.foldl (expand g source) ⟨parents, []⟩).reached
      (frontier.foldl (expand g source) ⟨parents, []⟩).parents := by
  have hext := hf.next.1
  have hknown : ∀ v, Known source (frontier.foldl (expand g source) ⟨parents, []⟩).parents v ↔
      ∃ k ≤ depth + 1, g.Leads k source v := by
    intro v
    have hstart : Extends source parents ⟨parents, []⟩ := ⟨by simp, by simp, hf.backed⟩
    rw [(hstart.foldl_expand frontier hf.known).2, h.exists_leads_succ_iff]
  have hreached : ∀ v, v ∈ (frontier.foldl (expand g source) ⟨parents, []⟩).reached ↔
      g.Depth source (depth + 1) v := by
    intro v
    constructor
    · intro hv
      obtain ⟨k, hk, hlead⟩ := (hknown v).1 ((hext.known_iff v).2 (.inr hv))
      have hnot : ∀ j < depth + 1, ¬g.Leads j source v := fun j hj hlead =>
        hext.new v hv ((h.known_iff v).2 ⟨j, Nat.le_of_lt_succ hj, hlead⟩)
      obtain rfl : k = depth + 1 := le_antisymm hk (Nat.not_lt.1 fun hlt => hnot k hlt hlead)
      exact ⟨hlead, hnot⟩
    · rintro ⟨hlead, hnot⟩
      refine ((hext.known_iff v).1 ((hknown v).2 ⟨_, le_rfl, hlead⟩)).resolve_left fun hv => ?_
      obtain ⟨k, hk, hlead⟩ := (h.known_iff v).1 hv
      exact hnot k (Nat.lt_succ_of_le hk) hlead
  refine ⟨hknown, hreached, fun u v huv => ?_⟩
  have hlinks : LinksTo parents frontier (frontier.foldl (expand g source) ⟨parents, []⟩) :=
    LinksTo.foldl_expand (List.Subset.refl _) fun _ _ hold => .inl hold
  rcases hlinks u v huv with hold | ⟨hu, hv⟩
  · exact h.depth_link u v hold
  · exact ⟨depth, (h.mem_frontier_iff u).1 hu, (hreached v).1 hv⟩

theorem Layered.grow {layers : Nat} (h : g.Layered source depth frontier parents)
    (hf : g.Frontier source frontier parents) {u v : Fin n}
    (hlink : g.grow source layers frontier parents v = some u) :
    ∃ k, g.Depth source k u ∧ g.Depth source (k + 1) v := by
  induction layers generalizing depth frontier parents with
  | zero => exact h.depth_link u v hlink
  | succ layers ih =>
    cases frontier with
    | nil => exact h.depth_link u v hlink
    | cons x xs => exact ih (h.next hf) hf.next.2 hlink

theorem layered_start (source : Fin n) : g.Layered source 0 [source] (.const n none) := by
  refine ⟨fun v => ?_, fun v => ?_, fun u v h => ?_⟩
  · constructor
    · rintro hv
      obtain rfl : v = source := by simpa [Known] using hv
      exact ⟨0, le_rfl, rfl⟩
    · rintro ⟨k, hk, hlead⟩
      obtain rfl : k = 0 := Nat.le_zero.1 hk
      exact .inl (Eq.symm hlead)
  · rw [List.mem_singleton, depth_zero_iff]
  · simp at h

/-- Every link goes back from one layer to the one before it. -/
theorem depth_of_breadthFirst {u v : Fin n} (h : g.breadthFirst source v = some u) :
    ∃ k, g.Depth source k u ∧ g.Depth source (k + 1) v :=
  (layered_start source).grow (frontier_start source) h

/-! ### Paths -/

/-- A list of vertices along links goes one layer deeper with each vertex. -/
theorem depth_getLast {vs : List (Fin n)} {u v : Fin n} {k : Nat}
    (h : Links.Linked (Links.ofMap (g.breadthFirst source)) (u :: vs)) (hu : g.Depth source k u)
    (hv : (u :: vs).getLast? = some v) : g.Depth source (k + vs.length) v := by
  induction vs generalizing u k with
  | nil =>
    obtain rfl := Option.some.inj hv
    exact hu
  | cons x vs ih =>
    obtain ⟨hlink, hrest⟩ := List.isChain_cons_cons.1 h
    obtain ⟨j, hj, hx⟩ := depth_of_breadthFirst hlink
    obtain rfl := hu.eq hj
    rw [List.getLast?_cons_cons] at hv
    have hlast := ih hrest hx hv
    rwa [List.length_cons, Nat.add_comm vs.length, ← Nat.add_assoc]

/-- A path found has as many arcs as its target is deep. -/
theorem depth_of_path {target : Fin n} {path : List (Fin n)}
    (h : g.path source target = .ok path) : g.Depth source (path.length - 1) target := by
  obtain ⟨-, -, -, hhead, hlast⟩ := path_eq_ok h
  obtain ⟨vs, rfl⟩ := List.head?_eq_some_iff.1 hhead
  unfold Digraph.path at h
  split at h
  · cases h
  obtain ⟨_, -, hlinked, -, -⟩ := Links.trace_eq_ok h
  have hdepth := depth_getLast hlinked depth_source hlast
  rwa [Nat.zero_add] at hdepth

/-- No way to the target is shorter than a path found. -/
theorem length_le_of_path {target : Fin n} {path : List (Fin n)} {k : Nat}
    (h : g.path source target = .ok path) (hk : g.Leads k source target) : path.length ≤ k + 1 :=
  Nat.sub_le_iff_le_add.1 ((depth_of_path h).le hk)

end Digraph

end Octagon

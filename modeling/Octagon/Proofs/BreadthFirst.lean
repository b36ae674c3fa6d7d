import Octagon.Digraph.BreadthFirst
import Octagon.Proofs.Component
import Octagon.Proofs.Links

/-!
Breadth-first paths are paths: every link that the search makes goes back along an arc, so what is
read off the links leads from the source to the target along arcs and repeats no vertex. And where
there is a way to the target the search finds one: whatever it has reached and left behind has only
successors that are reached, and each layer but the last reaches a new vertex.
-/

namespace Octagon

variable {n : Nat} {g : Digraph n}

/-- Every vertex that is linked is a successor of the one it is linked to. -/
def Digraph.Follows (g : Digraph n) (parents : VertexMap n (Option (Fin n))) : Prop :=
  ∀ u v, parents v = some u → v ∈ g.next u

namespace Layer

theorem follows_reach (source : Fin n) {u v : Fin n} {layer : Layer n} (h : g.Follows layer.parents)
    (hv : v ∈ g.next u) : g.Follows (layer.reach source u v).parents := by
  unfold reach
  split
  · exact h
  · intro x y hxy
    rw [VertexMap.get_set] at hxy
    split at hxy
    · rename_i heq
      rwa [← heq, ← Option.some.inj hxy]
    · exact h x y hxy

theorem follows_foldl_reach {source u : Fin n} {vs : List (Fin n)} {layer : Layer n}
    (h : g.Follows layer.parents) (hvs : ∀ v ∈ vs, v ∈ g.next u) :
    g.Follows (vs.foldl (reach source u) layer).parents := by
  induction vs generalizing layer with
  | nil => exact h
  | cons v vs ih =>
    have hv := follows_reach source h (hvs v (List.mem_cons_self ..))
    exact ih hv fun x hx => hvs x (List.mem_cons_of_mem v hx)

theorem follows_foldl_expand {source : Fin n} {us : List (Fin n)} {layer : Layer n}
    (h : g.Follows layer.parents) : g.Follows (us.foldl (expand g source) layer).parents := by
  induction us generalizing layer with
  | nil => exact h
  | cons u us ih => exact ih (follows_foldl_reach h fun _ hv => hv)

end Layer

namespace Digraph

theorem Follows.grow {source : Fin n} {layers : Nat} {frontier : List (Fin n)}
    {parents : VertexMap n (Option (Fin n))} (h : g.Follows parents) :
    g.Follows (g.grow source layers frontier parents) := by
  induction layers generalizing frontier parents with
  | zero => exact h
  | succ layers ih =>
    cases frontier with
    | nil => exact h
    | cons u us => exact ih (Layer.follows_foldl_expand h)

theorem follows_breadthFirst (source : Fin n) : g.Follows (g.breadthFirst source) :=
  Follows.grow fun u v h => by simp at h

/-- A path found leads from the source to the target along arcs and repeats no vertex. -/
theorem path_eq_ok {source target : Fin n} {path : List (Fin n)}
    (h : g.path source target = .ok path) : source ≠ target ∧
      path.IsChain (fun u v => v ∈ g.next u) ∧ path.Nodup ∧
      path.head? = some source ∧ path.getLast? = some target := by
  unfold Digraph.path at h
  split at h
  · cases h
  rename_i hne
  obtain ⟨l, rfl, hl, _, hhead⟩ := Links.trace_eq_ok h
  refine ⟨hne, hl.imp fun u v hlink => follows_breadthFirst source u v hlink,
    Links.nodup_of_trace h hne, ?_, by simp⟩
  simp [hhead]

end Digraph

/-! ### All that can be reached -/

namespace Layer

/-- The search from `source` has come to `v`. -/
def Known (source : Fin n) (parents : VertexMap n (Option (Fin n))) (v : Fin n) : Prop :=
  v = source ∨ (parents v).isSome = true

instance (source : Fin n) (parents : VertexMap n (Option (Fin n))) (v : Fin n) :
    Decidable (Known source parents v) := inferInstanceAs (Decidable (_ ∨ _))

/-- The links lead back to the source from wherever the search has come. -/
def Backed (source : Fin n) (parents : VertexMap n (Option (Fin n))) : Prop :=
  ∀ v, Known source parents v → ∃ k, (Links.ofMap parents).back k v = some source

/-- A layer adds to what was known before it the vertices that it reached. -/
structure Extends (source : Fin n) (before : VertexMap n (Option (Fin n))) (layer : Layer n) :
    Prop where
  known_iff : ∀ v, Known source layer.parents v ↔ Known source before v ∨ v ∈ layer.reached
  new : ∀ v ∈ layer.reached, ¬Known source before v
  backed : Backed source layer.parents

variable {source u : Fin n} {before : VertexMap n (Option (Fin n))} {layer : Layer n}

theorem reach_known {v : Fin n} (h : Known source layer.parents v) :
    layer.reach source u v = layer := if_pos h

theorem reach_unknown {v : Fin n} (h : ¬Known source layer.parents v) :
    layer.reach source u v = ⟨layer.parents.set v (some u), layer.reached ++ [v]⟩ := if_neg h

theorem known_set {parents : VertexMap n (Option (Fin n))} {v x : Fin n} :
    Known source (parents.set v (some u)) x ↔ Known source parents x ∨ x = v := by
  unfold Known
  rw [VertexMap.get_set]
  split
  · rename_i hv
    simp [hv]
  · rename_i hv
    simp [Ne.symm hv]

theorem known_reach (v x : Fin n) : Known source (layer.reach source u v).parents x ↔
    Known source layer.parents x ∨ x = v := by
  by_cases hv : Known source layer.parents v
  · rw [reach_known hv]
    refine ⟨.inl, ?_⟩
    rintro (hx | rfl)
    · exact hx
    · exact hv
  · rw [reach_unknown hv]
    exact known_set

/-- The source and whatever is linked lead back as before, and a new vertex by way of its link. -/
theorem Backed.set {parents : VertexMap n (Option (Fin n))} {v : Fin n} (h : Backed source parents)
    (hu : Known source parents u) (hv : ¬Known source parents v) :
    Backed source (parents.set v (some u)) := by
  have hkept : ∀ x y, Links.ofMap parents y = some x →
      Links.ofMap (parents.set v (some u)) y = some x := by
    intro x y hxy
    have hlink : parents y = some x := hxy
    have hne : v ≠ y := by
      rintro rfl
      exact hv (.inr (by rw [hlink, Option.isSome_some]))
    rw [Links.ofMap, VertexMap.get_set, if_neg hne]
    exact hlink
  intro x hx
  rcases known_set.1 hx with hx | rfl
  · obtain ⟨k, hk⟩ := h x hx
    exact ⟨k, Links.back_mono hkept hk⟩
  · obtain ⟨k, hk⟩ := h u hu
    refine ⟨k + 1, ?_⟩
    rw [Links.back, Links.ofMap, VertexMap.get_set, if_pos rfl, Option.bind_some]
    exact Links.back_mono hkept hk

theorem Extends.reach (h : Extends source before layer) (hu : Known source layer.parents u)
    (v : Fin n) : Extends source before (layer.reach source u v) := by
  by_cases hv : Known source layer.parents v
  · rwa [reach_known hv]
  rw [reach_unknown hv]
  refine ⟨fun x => ?_, fun x hx => ?_, h.backed.set hu hv⟩
  · rw [known_set, h.known_iff, or_assoc, List.mem_append, List.mem_singleton]
  · rcases List.mem_append.1 hx with hx | hx
    · exact h.new x hx
    · obtain rfl : x = v := List.mem_singleton.1 hx
      exact fun hx => hv ((h.known_iff x).2 (.inl hx))

/-- After a vertex is expanded its successors are known. -/
theorem Extends.foldl_reach : ∀ (vs : List (Fin n)) {layer : Layer n},
    Extends source before layer → Known source layer.parents u →
      Extends source before (vs.foldl (Layer.reach source u) layer) ∧
      ∀ x, Known source (vs.foldl (Layer.reach source u) layer).parents x ↔
        Known source layer.parents x ∨ x ∈ vs
  | [], _, h, _ => ⟨h, by simp⟩
  | v :: vs, layer, h, hu => by
      obtain ⟨hrest, hknown⟩ := (h.reach hu v).foldl_reach vs ((known_reach v u).2 (.inl hu))
      refine ⟨hrest, fun x => ?_⟩
      rw [List.foldl_cons, hknown, known_reach, or_assoc, List.mem_cons]

/-- After a whole frontier is expanded the successors of all of its vertices are known. -/
theorem Extends.foldl_expand : ∀ (us : List (Fin n)) {layer : Layer n},
    Extends source before layer → (∀ u ∈ us, Known source layer.parents u) →
      Extends source before (us.foldl (expand g source) layer) ∧
      ∀ x, Known source (us.foldl (expand g source) layer).parents x ↔
        Known source layer.parents x ∨ ∃ u ∈ us, x ∈ g.next u
  | [], _, h, _ => ⟨h, by simp⟩
  | u :: us, layer, h, hus => by
      obtain ⟨hstep, hstepKnown⟩ := h.foldl_reach (g.next u) (hus u (List.mem_cons_self ..))
      obtain ⟨hrest, hknown⟩ := hstep.foldl_expand us fun x hx =>
        (hstepKnown x).2 (.inl (hus x (List.mem_cons_of_mem u hx)))
      refine ⟨hrest, fun x => ?_⟩
      rw [List.foldl_cons, expand, hknown, hstepKnown, or_assoc]
      simp only [List.mem_cons, exists_eq_or_imp]

end Layer

namespace Digraph

open Layer

/-- What holds of the links before a layer is grown from `frontier`. -/
structure Frontier (g : Digraph n) (source : Fin n) (frontier : List (Fin n))
    (parents : VertexMap n (Option (Fin n))) : Prop where
  backed : Backed source parents
  known : ∀ u ∈ frontier, Known source parents u
  closed : ∀ u, Known source parents u → u ∉ frontier → ∀ v ∈ g.next u, Known source parents v

/-- The number of vertices that the search has not come to yet. -/
def numUnknown (source : Fin n) (parents : VertexMap n (Option (Fin n))) : Nat :=
  (Finset.univ.filter fun u => ¬Known source parents u).card

variable {source : Fin n} {frontier : List (Fin n)} {parents : VertexMap n (Option (Fin n))}

/-- A layer that reaches anything leaves less unknown. -/
theorem numUnknown_lt {layer : Layer n} (h : Extends source parents layer)
    (hne : layer.reached ≠ []) : numUnknown source layer.parents < numUnknown source parents := by
  obtain ⟨v, hv⟩ := List.exists_mem_of_ne_nil _ hne
  refine Finset.card_lt_card (Finset.ssubset_iff_of_subset ?_ |>.2 ⟨v, ?_, ?_⟩)
  · intro u hu
    simp only [Finset.mem_filter, Finset.mem_univ, true_and] at hu ⊢
    exact fun hknown => hu ((h.known_iff u).2 (.inl hknown))
  · simpa using h.new v hv
  · simpa using (h.known_iff v).2 (.inr hv)

/-- What was behind the frontier and the frontier itself are behind the next one. -/
theorem Frontier.next (h : g.Frontier source frontier parents) :
    Extends source parents (frontier.foldl (expand g source) ⟨parents, []⟩) ∧
      g.Frontier source (frontier.foldl (expand g source) ⟨parents, []⟩).reached
        (frontier.foldl (expand g source) ⟨parents, []⟩).parents := by
  have hstart : Extends source parents ⟨parents, []⟩ := ⟨by simp, by simp, h.backed⟩
  obtain ⟨hext, hknown⟩ := hstart.foldl_expand (g := g) frontier h.known
  refine ⟨hext, hext.backed, fun u hu => (hext.known_iff u).2 (.inr hu), ?_⟩
  intro u hu hreached v hv
  -- `u` was known before, so it was expanded just now or left behind earlier
  have hold := ((hext.known_iff u).1 hu).resolve_right hreached
  by_cases hmem : u ∈ frontier
  · exact (hknown v).2 (.inr ⟨u, hmem, hv⟩)
  · exact (hknown v).2 (.inl (h.closed u hold hmem v hv))

/-- With a layer for each unknown vertex nothing is left at the frontier. -/
theorem Frontier.grow : ∀ {layers : Nat} {frontier : List (Fin n)}
    {parents : VertexMap n (Option (Fin n))}, g.Frontier source frontier parents →
    (frontier ≠ [] → numUnknown source parents < layers) →
      g.Frontier source [] (g.grow source layers frontier parents)
  | 0, frontier, _, h, hfuel => by
      obtain rfl : frontier = [] := by
        by_contra hne
        exact Nat.not_lt_zero _ (hfuel hne)
      exact h
  | _ + 1, [], _, h, _ => h
  | layers + 1, u :: us, parents, h, hfuel => by
      obtain ⟨hext, hnext⟩ := h.next
      refine hnext.grow fun hne => ?_
      exact (numUnknown_lt hext hne).trans_le (Nat.le_of_lt_succ (hfuel (by simp)))

/-- At first the search has come to its source alone. -/
theorem frontier_start (source : Fin n) : g.Frontier source [source] (.const n none) := by
  refine ⟨?_, by simp [Known], ?_⟩
  · intro v hv
    obtain rfl : v = source := by simpa [Known] using hv
    exact ⟨0, rfl⟩
  · intro u hu hne
    simp [Known] at hu hne
    exact absurd hu hne

/-- There is one vertex less than all to come to: the source is known from the start. -/
theorem numUnknown_start_lt (source : Fin n) : numUnknown source (.const n none) < n := by
  have hsource : ∃ u ∈ Finset.univ, ¬¬Known source (.const n none) u :=
    ⟨source, Finset.mem_univ source, by simp [Known]⟩
  have hlt : numUnknown source (.const n none) < (Finset.univ : Finset (Fin n)).card :=
    Finset.card_lt_card (Finset.filter_ssubset.2 hsource)
  simpa using hlt

theorem frontier_breadthFirst (source : Fin n) :
    g.Frontier source [] (g.breadthFirst source) :=
  (frontier_start source).grow fun _ => numUnknown_start_lt source

/-- A path is found between different vertices if there is a way from the one to the other. -/
theorem Reaches.exists_path {source target : Fin n} (h : g.Reaches source target)
    (hne : source ≠ target) : ∃ path, g.path source target = .ok path := by
  have hend := g.frontier_breadthFirst source
  have hknown : Known source (g.breadthFirst source) target := by
    clear hne
    induction h with
    | refl => exact .inl rfl
    | tail _ hstep ih => exact hend.closed _ ih List.not_mem_nil _ hstep
  obtain ⟨k, hk⟩ := hend.backed target hknown
  cases k with
  | zero => exact absurd (Option.some.inj hk).symm hne
  | succ k =>
    rw [Digraph.path, if_neg hne]
    exact Links.exists_trace_eq_ok hk

end Digraph

end Octagon

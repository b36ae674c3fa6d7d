import Octagon.Proofs.Count
import Octagon.Proofs.Graph.Embedding
import Octagon.Proofs.Graph.Fresh

/-!
Graphs with more variables. Each new variable that nothing is said of adds two vertices, and for
each of these an edge from the root that comes after all edges so far. Before it gets to these
edges, the first round of a search does what it does without them; then it improves every one of the
new vertices, and no other.
-/

namespace Octagon

variable {w : Width} {ρ : Type} {n n' : Nat}

/-! ### Sweeps among more vertices -/

theorem exists_castLE_eq_or_le (h : n ≤ n') (v : Fin n') :
    (∃ u : Fin n, u.castLE h = v) ∨ n ≤ v.val := by
  rcases Nat.lt_or_ge v.val n with hlt | hge
  · exact .inl ⟨⟨v, hlt⟩, rfl⟩
  · exact .inr hge

namespace Paths

/-- The same paths among more vertices, which are not reached. -/
def embed (h : n ≤ n') (paths : Paths w n) : Paths w n' where
  distance := .ofFn fun v => if hv : v.val < n then paths.distance ⟨v, hv⟩ else .max
  predecessor := .ofFn fun v =>
    if hv : v.val < n then (paths.predecessor ⟨v, hv⟩).map (Fin.castLE h) else none

theorem ext {paths paths' : Paths w n} (hd : ∀ v, paths.distance v = paths'.distance v)
    (hp : ∀ v, paths.predecessor v = paths'.predecessor v) : paths = paths' := by
  obtain ⟨distance, predecessor⟩ := paths
  obtain ⟨distance', predecessor'⟩ := paths'
  obtain rfl : distance = distance' := VertexMap.ext hd
  obtain rfl : predecessor = predecessor' := VertexMap.ext hp
  rfl

section embed

variable (h : n ≤ n') (paths : Paths w n)

@[simp] theorem distance_embed_castLE (v : Fin n) :
    (paths.embed h).distance (v.castLE h) = paths.distance v :=
  (VertexMap.get_ofFn ..).trans (dif_pos v.isLt)

@[simp] theorem predecessor_embed_castLE (v : Fin n) :
    (paths.embed h).predecessor (v.castLE h) = (paths.predecessor v).map (Fin.castLE h) :=
  (VertexMap.get_ofFn ..).trans (dif_pos v.isLt)

theorem distance_embed_of_le {v : Fin n'} (hv : n ≤ v.val) : (paths.embed h).distance v = .max :=
  (VertexMap.get_ofFn ..).trans (dif_neg (not_lt.2 hv))

theorem predecessor_embed_of_le {v : Fin n'} (hv : n ≤ v.val) :
    (paths.embed h).predecessor v = none :=
  (VertexMap.get_ofFn ..).trans (dif_neg (not_lt.2 hv))

/-- The links among more vertices lead back as before. -/
theorem back_embed : ∀ (k : Nat) (v : Fin n),
    (paths.embed h).links.back k (v.castLE h) = (paths.links.back k v).map (Fin.castLE h)
  | 0, _ => rfl
  | k + 1, v => by
      have hlink : (paths.embed h).links (v.castLE h) = (paths.links v).map (Fin.castLE h) :=
        predecessor_embed_castLE ..
      rw [Links.back, Links.back, hlink]
      cases paths.links v with
      | none => rfl
      | some u => exact back_embed k u

theorem leadsIntoCycle_embed {v : Fin n} (hv : paths.links.leadsIntoCycle v = true) :
    (paths.embed h).links.leadsIntoCycle (v.castLE h) = true := by
  rw [Links.leadsIntoCycle, back_embed, Option.isSome_map]
  exact Links.isSome_back hv n'

theorem link_embed (a : Arc w ρ n) :
    (paths.link a).embed h = (paths.embed h).link (a.embed le_rfl h) := by
  refine ext (fun v => rfl) fun v => ?_
  rw [predecessor_link]
  rcases exists_castLE_eq_or_le h v with ⟨u, rfl⟩ | hv
  · have heq : (a.embed le_rfl h).target = u.castLE h ↔ a.target = u :=
      (Fin.castLE_injective h).eq_iff
    rw [predecessor_embed_castLE, predecessor_embed_castLE, predecessor_link, if_congr heq rfl rfl]
    exact apply_ite ..
  · rw [predecessor_embed_of_le h _ hv, predecessor_embed_of_le h _ hv, if_neg]
    rintro rfl
    exact not_le.2 a.target.isLt hv

theorem shorten_embed (u : Fin n) (length : Weight w) :
    (paths.shorten u length).embed h = (paths.embed h).shorten (u.castLE h) length := by
  refine ext (fun v => ?_) fun v => rfl
  rw [distance_shorten]
  rcases exists_castLE_eq_or_le h v with ⟨v, rfl⟩ | hv
  · have heq : u.castLE h = v.castLE h ↔ u = v := (Fin.castLE_injective h).eq_iff
    rw [distance_embed_castLE, distance_embed_castLE, distance_shorten, if_congr heq rfl rfl]
  · rw [distance_embed_of_le h _ hv, distance_embed_of_le h _ hv, if_neg]
    rintro rfl
    exact not_le.2 u.isLt hv

theorem relax_embed (a : Arc w ρ n) : (paths.embed h).relax (a.embed le_rfl h) =
    ((paths.relax a).1, (paths.relax a).2.embed h) := by
  have hsource : (paths.embed h).distance (a.embed le_rfl h).source = paths.distance a.source :=
    distance_embed_castLE ..
  have htarget : (paths.embed h).distance (a.embed le_rfl h).target = paths.distance a.target :=
    distance_embed_castLE ..
  have hweight : (a.embed le_rfl h).weight = a.weight := rfl
  unfold relax
  rw [hsource, htarget, hweight]
  cases (paths.distance a.source).combine a.weight with
  | none => exact congrArg _ (link_embed h paths a).symm
  | some length =>
    dsimp only
    split
    · rw [shorten_embed, link_embed]
      rfl
    · rfl

theorem initial_embed (h : n + 1 ≤ n' + 1) : (initial w n).embed h = initial w n' := by
  refine ext (fun v => ?_) fun v => ?_
  · rcases exists_castLE_eq_or_le h v with ⟨u, rfl⟩ | hv
    · have hroot : Network.root n' = u.castLE h ↔ Network.root n = u :=
        (Fin.castLE_injective h).eq_iff (a := Network.root n)
      rw [distance_embed_castLE, distance_initial, distance_initial, if_congr hroot rfl rfl]
    · rw [distance_embed_of_le h _ hv, distance_initial, if_neg]
      rintro rfl
      exact absurd hv (Nat.not_succ_le_zero n)
  · rw [predecessor_initial]
    rcases exists_castLE_eq_or_le h v with ⟨u, rfl⟩ | hv
    · rw [predecessor_embed_castLE, predecessor_initial, Option.map_none]
    · exact predecessor_embed_of_le h _ hv

end embed

end Paths

/-- The sweep among more vertices. -/
def Sweep.embed (h : n ≤ n') : Sweep w n (List (Fin n)) → Sweep w n' (List (Fin n'))
  | completed paths improved => completed (paths.embed h) (improved.map (Fin.castLE h))
  | underflowed paths target => underflowed (paths.embed h) (target.castLE h)
  | overflowed => overflowed

namespace Paths

theorem sweep_embed (h : n ≤ n') : ∀ (arcs : List (Arc w ρ n)) (paths : Paths w n)
    (improved : List (Fin n)),
      (paths.embed h).sweep (improved.map (Fin.castLE h)) (arcs.map (Arc.embed le_rfl h)) =
        (paths.sweep improved arcs).embed h
  | [], _, _ => rfl
  | a :: arcs, paths, improved => by
      have hrelax' := paths.relax_embed h a
      cases hrelax : paths.relax a with
      | mk effect after =>
        rw [hrelax] at hrelax'
        rw [List.map_cons]
        cases effect with
        | unchanged =>
          rw [sweep_unchanged hrelax', sweep_unchanged hrelax]
          exact sweep_embed h arcs after improved
        | improved =>
          rw [sweep_improved hrelax', sweep_improved hrelax]
          exact sweep_embed h arcs after (a.target :: improved)
        | underflow =>
          rw [sweep_underflow hrelax', sweep_underflow hrelax]
          rfl

/-- A sweep goes on where it has come to. -/
theorem sweep_append (more : List (Arc w ρ n)) : ∀ (arcs : List (Arc w ρ n)) (paths : Paths w n)
    (improved : List (Fin n)), paths.sweep improved (arcs ++ more) =
      match paths.sweep improved arcs with
      | .completed after out => after.sweep out more
      | .underflowed after target => .underflowed after target
      | .overflowed => .overflowed
  | [], _, _ => rfl
  | a :: arcs, paths, improved => by
      rw [List.cons_append]
      cases hrelax : paths.relax a with
      | mk effect after =>
        cases effect with
        | unchanged =>
          rw [sweep_unchanged hrelax, sweep_unchanged hrelax]
          exact sweep_append more arcs after improved
        | improved =>
          rw [sweep_improved hrelax, sweep_improved hrelax]
          exact sweep_append more arcs after (a.target :: improved)
        | underflow => rw [sweep_underflow hrelax, sweep_underflow hrelax]

/-- Arcs of weight 0 from the root improve vertices that are not reached, and no others. -/
theorem exists_sweep_of_unreached : ∀ (more : List (Arc w ρ (n + 1))) (paths : Paths w (n + 1))
    (improved : List (Fin (n + 1))), paths.dist (Network.root n) = 0 →
    (∀ a ∈ more, a.source = Network.root n ∧ a.weight = 0 ∧ a.target ≠ Network.root n ∧
      paths.distance a.target = .max) →
    (more.map Arc.target).Nodup → ∃ after,
      paths.sweep improved more = .completed after ((more.map Arc.target).reverse ++ improved) ∧
      ∀ v, v ∉ more.map Arc.target → after.dist v = paths.dist v
  | [], paths, improved, _, _, _ => ⟨paths, rfl, fun _ _ => rfl⟩
  | a :: more, paths, improved, hroot, hmore, hnodup => by
      obtain ⟨hsource, hweight, htarget, hmax⟩ := hmore a (List.mem_cons_self ..)
      obtain ⟨hnew, hnodup⟩ := List.nodup_cons.1 hnodup
      have hsum : paths.dist a.source + a.weight.val = 0 := by
        rw [hsource, hroot, hweight]
        rfl
      rcases paths.relax_cases a (by rw [hsource, hroot]) with
        ⟨-, hle⟩ | ⟨length, -, -, hrelax⟩ | ⟨hlt, -⟩
      · have := dist_max_pos hmax
        omega
      · have hroot' : ((paths.link a).shorten a.target length).dist (Network.root n) = 0 := by
          rwa [dist_shorten, if_neg htarget]
        have hmore' : ∀ b ∈ more, b.source = Network.root n ∧ b.weight = 0 ∧
            b.target ≠ Network.root n ∧
              ((paths.link a).shorten a.target length).distance b.target = .max := by
          intro b hb
          obtain ⟨hs, hw, ht, hm⟩ := hmore b (List.mem_cons_of_mem a hb)
          refine ⟨hs, hw, ht, ?_⟩
          rw [distance_shorten, if_neg fun heq => hnew (List.mem_map.2 ⟨b, hb, heq.symm⟩)]
          exact hm
        obtain ⟨after, hsweep, hkept⟩ :=
          exists_sweep_of_unreached more _ (a.target :: improved) hroot' hmore' hnodup
        refine ⟨after, ?_, fun v hv => ?_⟩
        · rw [sweep_improved hrelax, hsweep, List.map_cons, List.reverse_cons, List.append_assoc]
          rfl
        · rw [List.map_cons, List.mem_cons, not_or] at hv
          rw [hkept v hv.2, dist_shorten, if_neg (Ne.symm hv.1), dist_link]
      · have := w.min_neg
        omega

end Paths

/-! ### Graphs -/

namespace Graph

/-- The second graph has `k` vertices more than the first, and for each an edge from the root that
comes after the edges of the first. -/
structure Pads (g g' : Graph w ρ) (k : Nat) : Prop where
  numVertices_eq : g'.numVertices = g.numVertices + k
  edges_eq : g'.edges.toList = g.edges.toList ++
    (List.range k).map fun i => ⟨root, g.numVertices + i, 0, none⟩
  vertex?_mono : ∀ o v, g.vertex? o = some v → g'.vertex? o = some v
  reasons_eq : ∀ s t, g'.reasons s t = g.reasons s t

variable {g g' g'' : Graph w ρ} {k l : Nat}

theorem Pads.refl (g : Graph w ρ) : g.Pads g 0 := ⟨rfl, by simp, fun _ _ h => h, fun _ _ => rfl⟩

theorem Pads.trans (h : g.Pads g' k) (h' : g'.Pads g'' l) : g.Pads g'' (k + l) where
  numVertices_eq := by rw [h'.numVertices_eq, h.numVertices_eq, Nat.add_assoc]
  edges_eq := by
    rw [h'.edges_eq, h.edges_eq, h.numVertices_eq, List.range_add, List.map_append,
      List.append_assoc, List.map_map]
    simp only [Function.comp_def, Nat.add_assoc]
  vertex?_mono o v hv := h'.vertex?_mono o v (h.vertex?_mono o v hv)
  reasons_eq s t := (h'.reasons_eq s t).trans (h.reasons_eq s t)

theorem AddsVariable.pads {x : Variable} (h : g.AddsVariable x g') : g.Pads g' 2 where
  numVertices_eq := by rw [numVertices, h.occurrences_eq, Array.size_push, Array.size_push]; rfl
  edges_eq := by rw [h.edges_eq, Array.toList_push, Array.toList_push, List.append_assoc]; rfl
  vertex?_mono o v hv := by
    rw [h.vertex?_eq, if_neg, if_neg, hv]
    · rintro rfl
      cases h.negative_new.symm.trans hv
    · rintro rfl
      cases h.positive_new.symm.trans hv
  reasons_eq := h.reasons_eq

/-- New variables pad a graph as long as there are numbers for them. -/
theorem Counted.pads_run (h : g.Counted) (hvalid : g.Valid) {n : Nat}
    (hroom : g.numVariables + n ≤ UInt32.size) :
    g.Pads (g.run (List.replicate n .newVariable)) (2 * n) := by
  induction n generalizing g with
  | zero => exact .refl g
  | succ n ih =>
    obtain ⟨-, hadds, hnum⟩ := h.addsVariable hvalid (by omega)
    have hrest : g.newVariable.2.Pads (g.newVariable.2.run (List.replicate n .newVariable)) _ :=
      ih (h.newVariable hvalid) (hvalid.perform .newVariable).1 (by omega)
    have hall := hadds.pads.trans hrest
    rwa [show 2 + 2 * n = 2 * (n + 1) by omega] at hall

theorem pads_ofCalls (calls : List (Call w ρ)) {n : Nat}
    (hroom : (ofCalls calls).numVariables + n ≤ UInt32.size) :
    (ofCalls calls).Pads (ofCalls (calls ++ List.replicate n .newVariable)) (2 * n) := by
  rw [ofCalls_append]
  exact (counted_empty.run valid_empty calls).pads_run (valid_ofCalls calls) hroom

namespace Pads

variable (h : g.Pads g' k)

include h

theorem size_le : g.occurrences.size + 1 ≤ g'.occurrences.size + 1 :=
  (Nat.le_add_right _ k).trans_eq h.numVertices_eq.symm

section network

variable {net : Network w ρ g.occurrences.size} {net' : Network w ρ g'.occurrences.size}
  (hnet : g.IsNetwork net) (hnet' : g'.IsNetwork net')

include hnet hnet'

theorem exists_arcs : ∃ more, net'.arcs = net.arcs.map (Arc.embed le_rfl h.size_le) ++ more ∧
    more.map Arc.edge = (List.range k).map fun i => ⟨root, g.numVertices + i, 0, none⟩ := by
  have hedges := h.edges_eq
  rw [← hnet'.map_edge, ← hnet.map_edge] at hedges
  obtain ⟨old, more, harcs, hold, hmore⟩ := List.map_eq_append_iff.1 hedges
  refine ⟨more, ?_, hmore⟩
  rw [harcs, List.append_cancel_right_eq]
  refine List.map_injective_iff.2 Arc.edge_injective ?_
  rw [hold, List.map_map]
  rfl

/-- The first round improves what it does without the new vertices, and all of these. -/
theorem exists_sweep_eq_completed {after : Paths w (g.occurrences.size + 1)}
    {out : List (Fin (g.occurrences.size + 1))}
    (hround : (Paths.initial w _).sweep [] net.arcs = .completed after out) : ∃ after' out',
      (Paths.initial w _).sweep [] net'.arcs = .completed after' out' ∧
        out'.length = out.length + k ∧
        ∀ v : Fin (g.occurrences.size + 1), after'.dist (v.castLE h.size_le) = after.dist v := by
  obtain ⟨more, harcs, hmore⟩ := h.exists_arcs hnet hnet'
  have hroot := (Paths.Sound.of_visits hnet.rooted
    (Paths.sweep_completed hnet.rooted .start rfl hround).1).dist_root
  have hold : (Paths.initial w g'.occurrences.size).sweep []
      (net.arcs.map (Arc.embed le_rfl h.size_le)) =
        .completed (after.embed h.size_le) (out.map (Fin.castLE h.size_le)) := by
    have hembed := Paths.sweep_embed h.size_le net.arcs (Paths.initial w _) []
    rwa [hround, Paths.initial_embed] at hembed
  -- the ends of the new arcs are beyond the vertices that were there
  have htargets : (more.map Arc.target).map Fin.val =
      (List.range k).map fun i => g.numVertices + i := by
    have hvals := congrArg (List.map Edge.target) hmore
    rw [List.map_map, List.map_map] at hvals
    rw [List.map_map]
    exact hvals
  have hnew : ∀ v ∈ more.map Arc.target, g.occurrences.size + 1 ≤ v.val := by
    intro v hv
    have hval : v.val ∈ (more.map Arc.target).map Fin.val := List.mem_map_of_mem hv
    rw [htargets] at hval
    obtain ⟨i, -, hi⟩ := List.mem_map.1 hval
    exact hi ▸ Nat.le_add_right _ _
  have hnodup : (more.map Arc.target).Nodup := by
    refine List.Nodup.of_map Fin.val ?_
    rw [htargets]
    exact List.nodup_range.map fun i j hij => Nat.add_left_cancel hij
  have hlength : (more.map Arc.target).length = k := by
    simpa using congrArg List.length htargets
  have hroot' : (after.embed h.size_le).dist (Network.root _) = 0 :=
    (congrArg Weight.val (Paths.distance_embed_castLE h.size_le after _)).trans hroot
  have hmore' : ∀ a ∈ more, a.source = Network.root _ ∧ a.weight = 0 ∧
      a.target ≠ Network.root _ ∧ (after.embed h.size_le).distance a.target = .max := by
    intro a ha
    have hedge : a.edge ∈ more.map Arc.edge := List.mem_map_of_mem ha
    rw [hmore] at hedge
    obtain ⟨i, -, hi⟩ := List.mem_map.1 hedge
    have hbeyond := hnew _ (List.mem_map_of_mem ha)
    refine ⟨Fin.ext (congrArg Edge.source hi).symm, (congrArg Edge.weight hi).symm, fun heq => ?_,
      Paths.distance_embed_of_le _ _ hbeyond⟩
    rw [heq] at hbeyond
    exact absurd hbeyond (Nat.not_succ_le_zero _)
  obtain ⟨after', hsweep, hkept⟩ := Paths.exists_sweep_of_unreached more _
    (out.map (Fin.castLE h.size_le)) hroot' hmore' hnodup
  have hall : (Paths.initial w _).sweep [] net'.arcs = .completed after'
      ((more.map Arc.target).reverse ++ out.map (Fin.castLE h.size_le)) := by
    rw [harcs, Paths.sweep_append, hold]
    exact hsweep
  refine ⟨after', _, hall, ?_, fun v => ?_⟩
  · rw [List.length_append, List.length_reverse, hlength, List.length_map, Nat.add_comm]
  · rw [hkept _ fun hmem => not_le.2 v.isLt (hnew _ hmem)]
    exact congrArg Weight.val (Paths.distance_embed_castLE ..)

/-- The first round underflows as it does without the new vertices. -/
theorem sweep_eq_underflowed {after : Paths w (g.occurrences.size + 1)}
    {target : Fin (g.occurrences.size + 1)}
    (hround : (Paths.initial w _).sweep [] net.arcs = .underflowed after target) :
    (Paths.initial w _).sweep [] net'.arcs =
      .underflowed (after.embed h.size_le) (target.castLE h.size_le) := by
  obtain ⟨more, harcs, -⟩ := h.exists_arcs hnet hnet'
  have hembed := Paths.sweep_embed h.size_le net.arcs (Paths.initial w _) []
  rw [hround, Paths.initial_embed, List.map_nil] at hembed
  rw [harcs, Paths.sweep_append, hembed]
  rfl

end network

end Pads

end Graph

end Octagon

import Octagon.Proofs.Rooted
import Octagon.ShortestPath

/-!
What relaxing arcs keeps. Known distances are the weights of walks from the root; a link is an arc
along which the distance rises by at least the weight of the arc, and a cycle of links has a
negative weight. No distance is prolonged before it is known: the arc that a vertex hangs on the
root by comes first, so the lengths of paths are at most 0 and their sums are exact.
-/

namespace Octagon

variable {w : Width} {ρ : Type} {n : Nat}

namespace Paths

/-- The shortest distance known, as an unbounded integer. -/
def dist (paths : Paths w n) (v : Fin n) : Int := (paths.distance v).val

/-- The arcs that are links. -/
def linkArcs (paths : Paths w n) (arcs : List (Arc w ρ n)) : List (Arc w ρ n) :=
  arcs.filter fun a => paths.predecessor a.target = some a.source

theorem mem_linkArcs {paths : Paths w n} {arcs : List (Arc w ρ n)} {a : Arc w ρ n} :
    a ∈ paths.linkArcs arcs ↔ a ∈ arcs ∧ paths.predecessor a.target = some a.source := by
  simp [linkArcs]

@[simp] theorem dist_link (paths : Paths w n) (a : Arc w ρ n) (v : Fin n) :
    (paths.link a).dist v = paths.dist v := rfl

@[simp] theorem predecessor_link (paths : Paths w n) (a : Arc w ρ n) (v : Fin n) :
    (paths.link a).predecessor v = if a.target = v then some a.source else paths.predecessor v :=
  VertexMap.get_set ..

@[simp] theorem predecessor_shorten (paths : Paths w n) (u v : Fin n) (length : Weight w) :
    (paths.shorten u length).predecessor v = paths.predecessor v := rfl

@[simp] theorem distance_shorten (paths : Paths w n) (u v : Fin n) (length : Weight w) :
    (paths.shorten u length).distance v = if u = v then length else paths.distance v :=
  VertexMap.get_set ..

theorem dist_shorten (paths : Paths w n) (u v : Fin n) (length : Weight w) :
    (paths.shorten u length).dist v = if u = v then length.val else paths.dist v := by
  simp only [dist, distance_shorten, apply_ite Weight.val]

theorem dist_max_pos {paths : Paths w n} {v : Fin n} (h : paths.distance v = .max) :
    0 < paths.dist v := by
  rw [dist, h]
  exact w.max_pos

/-- All that relaxing an arc from a known distance can do. -/
theorem relax_cases (paths : Paths w n) (a : Arc w ρ n) (h : paths.dist a.source ≤ 0) :
    (paths.relax a = (.unchanged, paths) ∧
      paths.dist a.target ≤ paths.dist a.source + a.weight.val) ∨
    (∃ length : Weight w, length.val = paths.dist a.source + a.weight.val ∧
      length.val < paths.dist a.target ∧
      paths.relax a = (.improved, (paths.link a).shorten a.target length)) ∨
    (paths.dist a.source + a.weight.val < w.min ∧ paths.relax a = (.underflow, paths.link a)) := by
  unfold relax
  cases hc : (paths.distance a.source).combine a.weight with
  | none => exact .inr (.inr ⟨(Weight.combine_eq_none_iff h).1 hc, rfl⟩)
  | some length =>
    have hlen : length.val = paths.dist a.source + a.weight.val :=
      (Weight.combine_eq_some_iff h).1 hc
    by_cases hlt : length < paths.distance a.target
    · exact .inr (.inl ⟨length, hlen, hlt, by simp only [if_pos hlt]⟩)
    · refine .inl ⟨by simp only [if_neg hlt], ?_⟩
      rw [← hlen]
      exact Int.not_lt.1 hlt

end Paths

/-! ### Reachable states -/

/-- The states of a search between two arcs: `seen` are the arcs that the current round is done
with. -/
inductive Network.Visits (net : Network w ρ n) : List (Arc w ρ (n + 1)) → Paths w (n + 1) → Prop
  | start : net.Visits [] (.initial w n)
  | relax {seen rest : List (Arc w ρ (n + 1))} {a : Arc w ρ (n + 1)} {paths after : Paths w (n + 1)}
      {effect : Effect} : net.Visits seen paths → net.arcs = seen ++ a :: rest →
      paths.relax a = (effect, after) → effect ≠ .underflow → net.Visits (seen ++ [a]) after
  | again {paths : Paths w (n + 1)} : net.Visits net.arcs paths → net.Visits [] paths

/-- What holds of every state of a search after the arcs in `seen`. -/
structure Paths.Sound (net : Network w ρ n) (seen : List (Arc w ρ (n + 1)))
    (paths : Paths w (n + 1)) : Prop where
  dist_root : paths.dist (Network.root n) = 0
  link_root : paths.predecessor (Network.root n) = none
  reached : ∀ a ∈ seen, a.source = Network.root n → paths.dist a.target ≤ 0
  exists_arc : ∀ u v, paths.predecessor v = some u → ∃ a ∈ net.arcs, a.source = u ∧ a.target = v
  source_reached : ∀ u v, paths.predecessor v = some u → paths.dist u ≤ 0
  link_le : ∀ a ∈ paths.linkArcs net.arcs, paths.dist a.source + a.weight.val ≤ paths.dist a.target
  unlinked : ∀ v, paths.predecessor v = none → v = Network.root n ∨ paths.distance v = .max
  attained : ∀ v, paths.distance v = .max ∨
    ∃ l, Walk net.arcs (Network.root n) v l ∧ exactWeight l = paths.dist v
  cycle_neg : ∀ v l, Walk (paths.linkArcs net.arcs) v v l → l ≠ [] → exactWeight l < 0

namespace Paths

variable {net : Network w ρ n} {seen rest : List (Arc w ρ (n + 1))} {a : Arc w ρ (n + 1)}
  {paths : Paths w (n + 1)}

theorem predecessor_initial (v : Fin (n + 1)) : (initial w n).predecessor v = none :=
  VertexMap.get_const ..

theorem distance_initial (v : Fin (n + 1)) :
    (initial w n).distance v = if Network.root n = v then 0 else .max := by
  simp only [initial, VertexMap.get_set, VertexMap.get_const]

/-- A walk along links from before `a` became one is such a walk still, or else it passes through
`a` and weighs less than the distances of its ends account for. -/
theorem walk_link (hnet : net.Rooted) (h : paths.Sound net seen) (ha : a ∈ net.arcs)
    (hlt : paths.dist a.source + a.weight.val < paths.dist a.target) :
    ∀ {u v : Fin (n + 1)} {l : List (Arc w ρ (n + 1))},
      Walk ((paths.link a).linkArcs net.arcs) u v l → Walk (paths.linkArcs net.arcs) u v l ∨
        exactWeight l ≤ paths.dist v - paths.dist u +
          (paths.dist a.source + a.weight.val - paths.dist a.target)
  | u, v, [], hl => .inl hl
  | u, v, b :: l, ⟨hb, hs, hl⟩ => by
      have hb' := mem_linkArcs.1 hb
      rw [predecessor_link] at hb'
      have hrest := walk_link hnet h ha hlt hl
      rw [exactWeight_cons]
      by_cases ht : a.target = b.target
      · -- the new link: what is left of its weight is what it improved the target by
        rw [if_pos ht] at hb'
        obtain rfl : a = b := hnet.eq_of_ends ha hb'.1 (Option.some.inj hb'.2) ht
        rw [hs] at hlt hrest ⊢
        rcases hrest with hl | hle
        · have := hl.add_le h.link_le
          omega
        · omega
      · rw [if_neg ht] at hb'
        have hold : b ∈ paths.linkArcs net.arcs := mem_linkArcs.2 hb'
        rcases hrest with hl | hle
        · exact .inl ⟨hold, hs, hl⟩
        · have := h.link_le b hold
          rw [hs] at this
          omega

/-- A cycle of links has a negative weight also when the last link is one that improves on the
distance of its target, be it written or not. -/
theorem Sound.cycle_neg_link (hnet : net.Rooted) (h : paths.Sound net seen) (ha : a ∈ net.arcs)
    (hlt : paths.dist a.source + a.weight.val < paths.dist a.target) {v : Fin (n + 1)}
    {l : List (Arc w ρ (n + 1))} (hl : Walk ((paths.link a).linkArcs net.arcs) v v l)
    (hne : l ≠ []) : exactWeight l < 0 := by
  rcases walk_link hnet h ha hlt hl with hold | hle
  · exact h.cycle_neg v l hold hne
  · omega

/-- The source of the next arc is at a known distance. -/
theorem Sound.source_le_zero (hnet : net.Rooted) (h : paths.Sound net seen)
    (harcs : net.arcs = seen ++ a :: rest) : paths.dist a.source ≤ 0 := by
  by_cases hs : a.source = Network.root n
  · rw [hs, h.dist_root]
  · obtain ⟨b, hb, hroot, ht⟩ := hnet.exists_root_arc_before harcs hs
    rw [← ht]
    exact h.reached b hb hroot

/-- After an arc becomes a link, links are arcs still, and their sources are at known distances. -/
theorem Sound.link (hnet : net.Rooted) (h : paths.Sound net seen)
    (harcs : net.arcs = seen ++ a :: rest) {u v : Fin (n + 1)}
    (hv : (paths.link a).predecessor v = some u) :
    (∃ b ∈ net.arcs, b.source = u ∧ b.target = v) ∧ paths.dist u ≤ 0 := by
  rw [predecessor_link] at hv
  split at hv
  · rename_i ht
    obtain rfl : a.source = u := Option.some.inj hv
    exact ⟨⟨a, by simp [harcs], rfl, ht⟩, h.source_le_zero hnet harcs⟩
  · exact ⟨h.exists_arc u v hv, h.source_reached u v hv⟩

theorem sound_initial (net : Network w ρ n) : (initial w n).Sound net [] where
  dist_root := by simp [dist, distance_initial]
  link_root := predecessor_initial _
  reached := by simp
  exists_arc u v hv := by simp [predecessor_initial] at hv
  source_reached u v hv := by simp [predecessor_initial] at hv
  link_le a ha := by simp [mem_linkArcs, predecessor_initial] at ha
  unlinked v _ := by
    by_cases hv : Network.root n = v
    · exact .inl hv.symm
    · exact .inr (by rw [distance_initial, if_neg hv])
  attained v := by
    by_cases hv : Network.root n = v
    · exact .inr ⟨[], hv, by simp [dist, distance_initial, hv]⟩
    · exact .inl (by rw [distance_initial, if_neg hv])
  cycle_neg v l hl hne := by
    cases l with
    | nil => exact absurd rfl hne
    | cons b l =>
      have hb := hl.1
      simp [mem_linkArcs, predecessor_initial] at hb

/-- An improvement along `a` brings no distance up. -/
theorem dist_improve_le (paths : Paths w (n + 1)) {length : Weight w}
    (hlt : length.val < paths.dist a.target) (v : Fin (n + 1)) :
    ((paths.link a).shorten a.target length).dist v ≤ paths.dist v := by
  rw [dist_shorten, dist_link]
  split
  · rename_i hv
    rw [← hv]
    exact hlt.le
  · exact le_rfl

/-- An arc that improves nothing keeps the invariant. -/
theorem Sound.keep (hnet : net.Rooted) (h : paths.Sound net seen)
    (harcs : net.arcs = seen ++ a :: rest)
    (hle : paths.dist a.target ≤ paths.dist a.source + a.weight.val) :
    paths.Sound net (seen ++ [a]) := by
  refine { h with reached := ?_ }
  intro b hb hs
  rcases List.mem_append.1 hb with hb | hb
  · exact h.reached b hb hs
  · obtain rfl : b = a := by simpa using hb
    have hmem : b ∈ net.arcs := by simp [harcs]
    rw [hs, h.dist_root, hnet.weight_eq_zero b hmem hs] at hle
    exact hle

/-- An improvement keeps the invariant. -/
theorem Sound.improve (hnet : net.Rooted) (h : paths.Sound net seen)
    (harcs : net.arcs = seen ++ a :: rest) {length : Weight w}
    (hlen : length.val = paths.dist a.source + a.weight.val)
    (hlt : length.val < paths.dist a.target) :
    ((paths.link a).shorten a.target length).Sound net (seen ++ [a]) := by
  have ha : a ∈ net.arcs := by simp [harcs]
  have hsource : paths.dist a.source ≤ 0 := h.source_le_zero hnet harcs
  have hroot : a.target ≠ Network.root n := hnet.target_ne_root a ha
  have hle := dist_improve_le paths hlt
  constructor
  case dist_root => rw [dist_shorten, if_neg hroot, dist_link, h.dist_root]
  case link_root => rw [predecessor_shorten, predecessor_link, if_neg hroot, h.link_root]
  case reached =>
    intro b hb hs
    rcases List.mem_append.1 hb with hb | hb
    · exact (hle b.target).trans (h.reached b hb hs)
    · obtain rfl : b = a := by simpa using hb
      rw [dist_shorten, if_pos rfl, hlen, hs, h.dist_root, hnet.weight_eq_zero b ha hs]
      exact le_rfl
  case exists_arc => exact fun u v hv => (h.link hnet harcs hv).1
  case source_reached => exact fun u v hv => (hle u).trans (h.link hnet harcs hv).2
  case link_le =>
    intro b hb
    obtain ⟨hb, hv⟩ := mem_linkArcs.1 hb
    rw [predecessor_shorten, predecessor_link] at hv
    have hs := hle b.source
    by_cases ht : a.target = b.target
    · rw [if_pos ht] at hv
      obtain rfl : a = b := hnet.eq_of_ends ha hb (Option.some.inj hv) ht
      rw [dist_shorten (v := a.target), if_pos rfl]
      omega
    · rw [if_neg ht] at hv
      rw [dist_shorten (v := b.target), if_neg ht, dist_link]
      have := h.link_le b (mem_linkArcs.2 ⟨hb, hv⟩)
      omega
  case unlinked =>
    intro v hv
    rw [predecessor_shorten, predecessor_link] at hv
    split at hv
    · cases hv
    · rw [distance_shorten, if_neg (by assumption)]
      exact h.unlinked v hv
  case attained =>
    intro v
    by_cases hv : a.target = v
    · rcases h.attained a.source with hmax | ⟨l, hl, hw⟩
      · exact absurd (dist_max_pos hmax) (by omega)
      · refine .inr ⟨l ++ [a], hv ▸ hl.concat ha, ?_⟩
        rw [dist_shorten, if_pos hv, hlen, ← hw]
        simp
    · rw [distance_shorten, if_neg hv, dist_shorten, if_neg hv]
      exact h.attained v
  case cycle_neg =>
    intro v l hl hne
    exact h.cycle_neg_link hnet ha (hlen ▸ hlt) hl hne

/-- The invariant holds of every state of a search. -/
theorem Sound.of_visits (hnet : net.Rooted) (h : net.Visits seen paths) :
    paths.Sound net seen := by
  induction h with
  | start => exact sound_initial net
  | @relax seen rest a paths after effect _ harcs hrelax hne ih =>
    rcases relax_cases paths a (ih.source_le_zero hnet harcs) with
      ⟨heq, hle⟩ | ⟨length, hlen, hlt, heq⟩ | ⟨_, heq⟩
    · rw [heq] at hrelax
      cases hrelax
      exact ih.keep hnet harcs hle
    · rw [heq] at hrelax
      cases hrelax
      exact ih.improve hnet harcs hlen hlt
    · rw [heq] at hrelax
      cases hrelax
      exact absurd rfl hne
  | again _ ih => exact { ih with reached := by simp }

end Paths

end Octagon

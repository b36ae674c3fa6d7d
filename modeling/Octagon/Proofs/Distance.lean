import Octagon.Proofs.Links
import Octagon.Proofs.Rounds

/-!
Exact distances. Where a search settles, the distances it knows are those of shortest walks; where
it cannot settle, a cycle is negative or a walk without repetitions is shorter than the smallest
weight. The links that are left behind tell which: they run into a negative cycle or back to the
root.
-/

namespace Octagon

variable {w : Width} {ρ : Type} {n : Nat} {net : Network w ρ n}

/-- The weight of a lightest walk from the root to `v`. -/
def Network.IsDistance (net : Network w ρ n) (v : Fin (n + 1)) (d : Int) : Prop :=
  (∃ l, Walk net.arcs (Network.root n) v l ∧ exactWeight l = d) ∧
    ∀ l, Walk net.arcs (Network.root n) v l → d ≤ exactWeight l

/-- A walk is no lighter than if each of its arcs had the smallest weight. -/
theorem length_mul_min_le : ∀ l : List (Arc w ρ n), l.length * w.min ≤ exactWeight l
  | [] => by simp
  | a :: l => by
      have hrest := length_mul_min_le l
      have := a.weight.min_le
      rw [exactWeight_cons, List.length_cons, Nat.cast_succ, add_mul, one_mul]
      omega

/-- Without negative cycles there is a lightest walk to every vertex. -/
theorem Network.Rooted.exists_isDistance (hnet : net.Rooted) (hnn : NoNegativeCycle net.arcs)
    (v : Fin (n + 1)) : ∃ d, net.IsDistance v d := by
  have hbelow : ∃ b : Int, ∀ d : Int,
      (∃ l, Walk net.arcs (Network.root n) v l ∧ exactWeight l = d) → b ≤ d := by
    refine ⟨(n + 1) * w.min, ?_⟩
    rintro d ⟨l, hl, rfl⟩
    obtain ⟨m, hm, hn, hle⟩ := hl.exists_simple_le hnn
    have hlen : (m.length : Int) ≤ n + 1 := by
      have := length_lt_of_nodup hn
      omega
    calc (n + 1) * w.min ≤ m.length * w.min := mul_le_mul_of_nonpos_right hlen w.min_neg.le
      _ ≤ exactWeight m := length_mul_min_le m
      _ ≤ exactWeight l := hle
  have hsome : ∃ d : Int, ∃ l, Walk net.arcs (Network.root n) v l ∧ exactWeight l = d := by
    by_cases hv : v = Network.root n
    · exact ⟨0, [], hv.symm, rfl⟩
    · obtain ⟨a, ha, hs, rfl⟩ := hnet.exists_root_arc v hv
      exact ⟨_, [a], ⟨ha, hs, rfl⟩, rfl⟩
  obtain ⟨d, hd, hleast⟩ := Int.exists_least_of_bdd hbelow hsome
  exact ⟨d, hd, fun l hl => hleast _ ⟨l, hl, rfl⟩⟩

/-- Without negative cycles some potential grows along each arc by the weight at most. -/
theorem Network.Rooted.exists_potential (hnet : net.Rooted)
    (hnn : NoNegativeCycle net.arcs) :
    ∃ d : Fin (n + 1) → Int, ∀ a ∈ net.arcs, d a.target ≤ d a.source + a.weight.val := by
  choose d hd using hnet.exists_isDistance hnn
  refine ⟨d, fun a ha => ?_⟩
  obtain ⟨l, hl, hweight⟩ := (hd a.source).1
  have hle := (hd a.target).2 _ (hl.concat ha)
  rwa [exactWeight_append, exactWeight_cons, exactWeight_nil, add_zero, hweight] at hle

namespace Paths

variable {paths after : Paths w (n + 1)} {target : Fin (n + 1)}

/-! ### Settled distances -/

/-- After a round every distance is known. -/
theorem Sound.dist_le_zero (hnet : net.Rooted) (h : paths.Sound net net.arcs) (v : Fin (n + 1)) :
    paths.dist v ≤ 0 := by
  by_cases hv : v = Network.root n
  · rw [hv, h.dist_root]
  · obtain ⟨a, ha, hs, rfl⟩ := hnet.exists_root_arc v hv
    exact h.reached a ha hs

/-- Settled distances are exact. -/
theorem Sound.isDistance (hnet : net.Rooted) (h : paths.Sound net net.arcs)
    (hset : paths.Settled net) (v : Fin (n + 1)) : net.IsDistance v (paths.dist v) := by
  constructor
  · rcases h.attained v with hmax | hwalk
    · exact absurd (h.dist_le_zero hnet v) (not_le.2 (dist_max_pos hmax))
    · exact hwalk
  · intro l hl
    have := hl.le_add hset
    rwa [h.dist_root, zero_add] at this

/-- Under settled distances every link is tight. -/
theorem Sound.exists_tight_arc (hnet : net.Rooted) (h : paths.Sound net net.arcs)
    (hset : paths.Settled net) {v : Fin (n + 1)} (hv : v ≠ Network.root n) :
    ∃ a ∈ net.arcs, a.target = v ∧ paths.predecessor v = some a.source ∧
      paths.dist v = paths.dist a.source + a.weight.val := by
  cases hp : paths.predecessor v with
  | none =>
    rcases h.unlinked v hp with hroot | hmax
    · exact absurd hroot hv
    · exact absurd (h.dist_le_zero hnet v) (not_le.2 (dist_max_pos hmax))
  | some u =>
    obtain ⟨a, ha, rfl, rfl⟩ := h.exists_arc u v hp
    have hlink := h.link_le a (mem_linkArcs.2 ⟨ha, hp⟩)
    exact ⟨a, ha, rfl, rfl, le_antisymm (hset a ha) hlink⟩

/-! ### Links -/

/-- Links are arcs, and a cycle of links has a negative weight. -/
structure LinksSound (net : Network w ρ n) (paths : Paths w (n + 1)) : Prop where
  exists_arc : ∀ u v, paths.predecessor v = some u → ∃ a ∈ net.arcs, a.source = u ∧ a.target = v
  cycle_neg : ∀ v l, Walk (paths.linkArcs net.arcs) v v l → l ≠ [] → exactWeight l < 0

theorem Sound.linksSound {seen : List (Arc w ρ (n + 1))} (h : paths.Sound net seen) :
    paths.LinksSound net := ⟨h.exists_arc, h.cycle_neg⟩

theorem Underflowed.linksSound (hnet : net.Rooted) (h : after.Underflowed net target) :
    after.LinksSound net := by
  obtain ⟨seen, paths, a, rest, hv, harcs, _, rfl, hlt⟩ := h
  have hsound := Sound.of_visits hnet hv
  have ha : a ∈ net.arcs := by simp [harcs]
  refine ⟨fun u v hp => (hsound.link hnet harcs hp).1, fun v l hl hne => ?_⟩
  have hmin := (paths.distance a.target).min_le
  exact hsound.cycle_neg_link hnet ha (lt_of_lt_of_le hlt hmin) hl hne

/-- A linked list is what a walk along links visits. -/
theorem LinksSound.exists_walk (h : paths.LinksSound net) {u : Fin (n + 1)}
    {vs : List (Fin (n + 1))} (hl : paths.links.Linked (u :: vs)) :
    ∃ v l, Walk (paths.linkArcs net.arcs) u v l ∧ visited u l = u :: vs := by
  refine exists_walk_of_isChain (hl.imp fun p q hpq => ?_)
  obtain ⟨a, ha, rfl, rfl⟩ := h.exists_arc p q hpq
  exact ⟨a, mem_linkArcs.2 ⟨ha, hpq⟩, rfl, rfl⟩

theorem walk_of_linkArcs {u v : Fin (n + 1)} {l : List (Arc w ρ (n + 1))}
    (hl : Walk (paths.linkArcs net.arcs) u v l) : Walk net.arcs u v l :=
  hl.mono fun a ha => (mem_linkArcs.1 (hl.mem a ha)).1

/-- A cycle read off the links is what a negative closed walk visits; only its ends coincide. -/
theorem LinksSound.cycle_eq_ok (h : paths.LinksSound net) {entry : Fin (n + 1)}
    {path : List (Fin (n + 1))} (hc : paths.links.cycle entry = .ok path) :
    ∃ v l, Walk net.arcs v v l ∧ l ≠ [] ∧ path = visited v l ∧ exactWeight l < 0 ∧
      path.dropLast.Nodup := by
  obtain ⟨v, ht⟩ := Links.trace_of_cycle hc
  obtain ⟨m, rfl, hl, hn, hhead⟩ := Links.trace_eq_ok ht
  obtain ⟨vs, rfl⟩ := List.head?_eq_some_iff.1 hhead
  obtain ⟨x, l, hwalk, hvis⟩ := h.exists_walk hl
  have hlast : (v :: vs ++ [v]).getLast? = some x :=
    (congrArg List.getLast? hvis).symm.trans hwalk.getLast?_visited
  obtain rfl : v = x := by rwa [List.getLast?_concat, Option.some.injEq] at hlast
  have hne : l ≠ [] := by
    rintro rfl
    simp [visited] at hvis
  exact ⟨v, l, walk_of_linkArcs hwalk, hne, hvis.symm, h.cycle_neg v l hwalk hne,
    by rwa [List.dropLast_concat]⟩

/-- Links that do not run into a cycle come from a vertex without a link, along a walk that repeats
no vertex. -/
theorem LinksSound.exists_walk_of_not_leadsIntoCycle (h : paths.LinksSound net) {v : Fin (n + 1)}
    (hc : paths.links.leadsIntoCycle v = false) : ∃ r l, paths.predecessor r = none ∧
      Walk (paths.linkArcs net.arcs) r v l ∧ (visited r l).Nodup := by
  have hback : paths.links.back (n + 1) v = none := by simpa [Links.leadsIntoCycle] using hc
  obtain ⟨r, vs, hr, hl, hn, hhead, hlast⟩ := Links.exists_linked_of_back_eq_none hback
  obtain ⟨vs, rfl⟩ := List.head?_eq_some_iff.1 hhead
  obtain ⟨x, l, hwalk, hvis⟩ := h.exists_walk hl
  obtain rfl : v = x := by
    have := hwalk.getLast?_visited
    rw [hvis, hlast] at this
    exact Option.some.inj this
  exact ⟨r, l, hr, hwalk, hvis ▸ hn⟩

/-- Where links lead back to vertices at known distances only, a walk along links starts at one. -/
theorem distance_ne_max_of_walk
    (hknown : ∀ u v, paths.predecessor v = some u → paths.dist u ≤ 0) {u v : Fin (n + 1)}
    {a : Arc w ρ (n + 1)} {l : List (Arc w ρ (n + 1))}
    (hl : Walk (paths.linkArcs net.arcs) u v (a :: l)) : paths.distance u ≠ .max := by
  intro hmax
  have hle := hknown _ _ (mem_linkArcs.1 hl.1).2
  rw [hl.2.1] at hle
  exact absurd hle (not_le.2 (dist_max_pos hmax))

/-- Where a round after all others brings a vertex nearer, the links from the vertex run into a
cycle: a walk from the root that repeats no vertex was accounted for before. -/
theorem Sound.leadsIntoCycle (h : paths.Sound net net.arcs) {before : Paths w (n + 1)}
    (hbound : before.Bounded net n) (hlt : paths.dist target < before.dist target) :
    paths.links.leadsIntoCycle target = true := by
  by_contra hc
  obtain ⟨r, l, hr, hl, hn⟩ :=
    h.linksSound.exists_walk_of_not_leadsIntoCycle (Bool.eq_false_iff.2 hc)
  obtain rfl : r = Network.root n := by
    refine (h.unlinked r hr).resolve_right fun hmax => ?_
    cases l with
    | nil =>
      -- the vertex got nearer, so it is not one that no path leads to
      have hle : before.dist target ≤ w.max := (before.distance target).le_max
      cases hl
      rw [dist, hmax] at hlt
      exact absurd hle (not_le.2 hlt)
    | cons b l => exact distance_ne_max_of_walk h.source_reached hl hmax
  have hlight := hl.add_le h.link_le
  rw [h.dist_root, zero_add] at hlight
  have := hbound target l (walk_of_linkArcs hl) (Nat.le_of_lt_succ (length_lt_of_nodup hn))
  omega

/-- Links that run into a cycle show a negative one. -/
theorem LinksSound.not_noNegativeCycle (h : paths.LinksSound net) {entry : Fin (n + 1)}
    (hc : paths.links.leadsIntoCycle entry = true) : ¬NoNegativeCycle net.arcs := by
  intro hnn
  obtain ⟨path, hpath⟩ := Links.exists_cycle_eq_ok hc
  obtain ⟨v, l, hl, -, -, hneg, -⟩ := h.cycle_eq_ok hpath
  exact absurd (hnn v l hl) (not_le.2 hneg)

/-! ### Underflow -/

/-- An underflow comes from a walk that is lighter than the smallest weight. -/
theorem Underflowed.exists_walk (hnet : net.Rooted) (h : after.Underflowed net target) :
    ∃ l, Walk net.arcs (Network.root n) target l ∧ exactWeight l < w.min := by
  obtain ⟨seen, paths, a, rest, hv, harcs, rfl, rfl, hlt⟩ := h
  have hsound := Sound.of_visits hnet hv
  have ha : a ∈ net.arcs := by simp [harcs]
  rcases hsound.attained a.source with hmax | ⟨l, hl, hw⟩
  · exact absurd (hsound.source_le_zero hnet harcs) (not_le.2 (dist_max_pos hmax))
  · refine ⟨l ++ [a], hl.concat ha, ?_⟩
    simp only [exactWeight_append, exactWeight_cons, exactWeight_nil]
    omega

/-- A walk along links to the target of an underflow ends in the new link, and what comes before it
is as light as the distances say. -/
theorem Sound.exactWeight_lt_min {seen : List (Arc w ρ (n + 1))} {a : Arc w ρ (n + 1)}
    (hnet : net.Rooted) (h : paths.Sound net seen) (ha : a ∈ net.arcs)
    (hlt : paths.dist a.source + a.weight.val < w.min) {l : List (Arc w ρ (n + 1))}
    (hl : Walk ((paths.link a).linkArcs net.arcs) (Network.root n) a.target l) :
    exactWeight l < w.min := by
  rcases List.eq_nil_or_concat l with rfl | ⟨l, b, rfl⟩
  · exact absurd (Eq.symm hl) (hnet.target_ne_root a ha)
  rw [List.concat_eq_append] at hl ⊢
  obtain ⟨x, hbefore, hb, rfl, ht⟩ := walk_append_iff.1 hl
  obtain rfl : a = b := by
    obtain ⟨hb, hp⟩ := mem_linkArcs.1 hb
    rw [predecessor_link, if_pos (Eq.symm ht)] at hp
    exact hnet.eq_of_ends ha hb (Option.some.inj hp) (Eq.symm ht)
  have hmin : w.min ≤ paths.dist a.target := (paths.distance a.target).min_le
  have hlight : exactWeight l ≤ paths.dist a.source := by
    have hroot := h.dist_root
    rcases walk_link hnet h ha (by omega) hbefore with hold | hle
    · have := hold.add_le h.link_le
      omega
    · omega
  simp only [exactWeight_append, exactWeight_cons, exactWeight_nil]
  omega

/-- Where the links from an underflow do not run into a cycle, they lead back to the root along a
walk that repeats no vertex. -/
theorem Underflowed.exists_simple_walk (hnet : net.Rooted) (h : after.Underflowed net target)
    (hc : after.links.leadsIntoCycle target = false) :
    ∃ l, Walk net.arcs (Network.root n) target l ∧ (visited (Network.root n) l).Nodup ∧
      exactWeight l < w.min := by
  obtain ⟨r, l, hr, hl, hn⟩ := (h.linksSound hnet).exists_walk_of_not_leadsIntoCycle hc
  obtain ⟨seen, paths, a, rest, hv, harcs, rfl, rfl, hlt⟩ := h
  have hsound := Sound.of_visits hnet hv
  have ha : a ∈ net.arcs := by simp [harcs]
  rw [predecessor_link] at hr
  split at hr
  · cases hr
  rename_i hne
  obtain rfl : r = Network.root n := by
    refine (hsound.unlinked r hr).resolve_right fun hmax => ?_
    cases l with
    | nil => exact hne hl.symm
    | cons b l =>
      exact distance_ne_max_of_walk (fun _ _ hp => (hsound.link hnet harcs hp).2) hl hmax
  exact ⟨l, walk_of_linkArcs hl, hn, hsound.exactWeight_lt_min hnet ha hlt hl⟩

end Paths

end Octagon

import Octagon.Proofs.Certificate

/-!
Embedded networks. A network may stand in a larger one, with weights of a wider width and with
further vertices that hang on the root alone. Tightening sees no more of the larger one than of the
smaller: the tight arcs are the same, in order, the numbers of their ends are too, and a variable
split with the help of a further vertex is not refuted. So it reports the same.
-/

namespace Octagon

variable {w w' : Width} {ρ : Type} {n n' : Nat}

/-! ### Wider weights -/

theorem Width.min_le_min (h : w.bits ≤ w'.bits) : w'.min ≤ w.min := by
  revert h
  cases w <;> cases w' <;> decide

theorem Width.max_le_max (h : w.bits ≤ w'.bits) : w.max ≤ w'.max := by
  have := Width.min_le_min h
  rw [Width.max_eq, Width.max_eq]
  omega

/-- The weight of the same value among those of a width that is no narrower. -/
def Weight.widen (h : w.bits ≤ w'.bits) (a : Weight w) : Weight w' :=
  ⟨a.val, (Width.min_le_min h).trans a.min_le, a.le_max.trans (Width.max_le_max h)⟩

@[simp] theorem Weight.widen_val (h : w.bits ≤ w'.bits) (a : Weight w) : (a.widen h).val = a.val :=
  rfl

/-- The arc between the same vertices, among more vertices and with a wider weight. -/
def Arc.embed (hw : w.bits ≤ w'.bits) (hn : n ≤ n') (a : Arc w ρ n) : Arc w' ρ n' :=
  ⟨a.source.castLE hn, a.target.castLE hn, a.weight.widen hw, a.reason⟩

/-- The variable split between the same vertices, among more vertices. -/
def Split.embed (hn : n ≤ n') (s : Split n) : Split n' :=
  ⟨s.var, s.positive.castLE hn, s.negative.castLE hn⟩

theorem VertexMap.ext {α : Type} {m m' : VertexMap n α} (h : ∀ v, m v = m' v) : m = m' := by
  obtain ⟨values⟩ := m
  obtain ⟨values'⟩ := m'
  congr 1
  exact Vector.ext fun i hi => h ⟨i, hi⟩

/-! ### Subgraphs -/

/-- Equal entries stay equal where a list is read through an injective function. -/
theorem eraseDups_map {α β : Type} [DecidableEq α] [DecidableEq β] {f : α → β}
    (hf : Function.Injective f) (xs : List α) : (xs.map f).eraseDups = xs.eraseDups.map f := by
  induction hk : xs.length using Nat.strong_induction_on generalizing xs with
  | _ k ih =>
    cases xs with
    | nil => rfl
    | cons x xs =>
      have hfilter : (xs.map f).filter (fun y => !y == f x) =
          (xs.filter fun y => !y == x).map f := by
        rw [List.filter_map]
        congr 1
        refine List.filter_congr fun y _ => ?_
        simp [hf.eq_iff]
      rw [List.map_cons, List.eraseDups_cons, List.eraseDups_cons, List.map_cons, hfilter]
      refine congrArg (f x :: ·) (ih _ ?_ _ rfl)
      exact hk ▸ Nat.lt_succ_of_le (List.length_filter_le ..)

namespace TightSubgraph

/-- The subgraph of the same arcs, among more vertices and with wider weights. -/
def embed (hw : w.bits ≤ w'.bits) (hn : n ≤ n') (sub : TightSubgraph w ρ n) :
    TightSubgraph w' ρ n' where
  size := sub.size
  members := sub.members.map (Fin.castLE hn)
  number := .ofFn fun v => if h : v.val < n then sub.number ⟨v, h⟩ else none
  arcs := sub.arcs.map (Arc.embed hw le_rfl)

/-- Subgraphs of one size are compared entry by entry. -/
theorem eq_mk {sub : TightSubgraph w ρ n} {size : Nat} {members : VertexMap size (Fin n)}
    {number : VertexMap n (Option (Fin size))} {arcs : List (Arc w ρ size)}
    (hsize : size = sub.size) (hmembers : ∀ i, sub.members (i.castLE hsize.le) = members i)
    (hnumber : ∀ v, sub.number v = (number v).map (Fin.castLE hsize.le))
    (harcs : sub.arcs = arcs.map (Arc.embed le_rfl hsize.le)) :
    sub = ⟨size, members, number, arcs⟩ := by
  obtain ⟨size', members', number', arcs'⟩ := sub
  -- with the size a variable, no cast is left between the entries
  obtain rfl : size = size' := hsize
  have hid : (Arc.embed le_rfl le_rfl : Arc w ρ size → Arc w ρ size) = id := rfl
  obtain rfl : members' = members := VertexMap.ext hmembers
  obtain rfl : number' = number := VertexMap.ext fun v => by simpa using hnumber v
  obtain rfl : arcs' = arcs := by simpa [hid] using harcs
  rfl

variable (hw : w.bits ≤ w'.bits) (hn : n ≤ n')

theorem endsOf_map_embed (arcs : List (Arc w ρ n)) :
    endsOf (arcs.map (Arc.embed hw hn)) = (endsOf arcs).map (Fin.castLE hn) := by
  rw [endsOf, endsOf, ← eraseDups_map (Fin.castLE_injective hn), List.flatMap_map, List.map_flatMap]
  rfl

theorem original_injective {arcs : List (Arc w ρ n)} :
    Function.Injective (ofArcs arcs).original := by
  rintro ⟨s, t, k, r⟩ ⟨s', t', k', r'⟩ h
  obtain ⟨hs, ht, hk, hr⟩ := Arc.mk.inj h
  exact Arc.mk.injEq .. ▸ ⟨members_injective hs, members_injective ht, hk, hr⟩

theorem get_of_eq_map {α β : Type} {f : α → β} {xs : List α} {ys : List β} (h : ys = xs.map f)
    (hle : xs.length ≤ ys.length) (i : Fin xs.length) : ys.get (i.castLE hle) = f (xs.get i) := by
  subst h
  simp

variable (arcs : List (Arc w ρ n))

theorem size_ofArcs_map :
    (ofArcs arcs).size = (ofArcs (arcs.map (Arc.embed hw hn))).size := by
  have hlength := congrArg List.length (endsOf_map_embed hw hn arcs)
  rw [List.length_map] at hlength
  exact hlength.symm

theorem members_ofArcs_map (i : Fin (ofArcs arcs).size) :
    (ofArcs (arcs.map (Arc.embed hw hn))).members (i.castLE (size_ofArcs_map hw hn arcs).le) =
      ((ofArcs arcs).members i).castLE hn :=
  have hle := (size_ofArcs_map hw hn arcs).le
  calc _ = (endsOf (arcs.map (Arc.embed hw hn))).get (i.castLE hle) := members_eq _
    _ = ((endsOf arcs).get i).castLE hn := get_of_eq_map (endsOf_map_embed hw hn arcs) hle i
    _ = _ := congrArg (Fin.castLE hn) (members_eq i).symm

theorem number_ofArcs_map (v : Fin n') : (ofArcs (arcs.map (Arc.embed hw hn))).number v =
    (if h : v.val < n then (ofArcs arcs).number ⟨v, h⟩ else none).map
      (Fin.castLE (size_ofArcs_map hw hn arcs).le) := by
  refine Option.ext fun i => ?_
  obtain ⟨j, rfl⟩ : ∃ j : Fin (ofArcs arcs).size, j.castLE (size_ofArcs_map hw hn arcs).le = i :=
    ⟨i.castLE (size_ofArcs_map hw hn arcs).ge, rfl⟩
  rw [number_eq_some_iff, Option.map_eq_some_iff, members_ofArcs_map]
  constructor
  · rintro rfl
    exact ⟨j, (dif_pos ((ofArcs arcs).members j).isLt).trans (number_eq_some_iff.2 rfl), rfl⟩
  · rintro ⟨k, hk, heq⟩
    obtain rfl := Fin.castLE_injective _ heq
    split at hk
    · rw [number_eq_some_iff.1 hk]
      rfl
    · cases hk

theorem arcs_ofArcs_map : (ofArcs (arcs.map (Arc.embed hw hn))).arcs =
    (ofArcs arcs).arcs.map (Arc.embed hw (size_ofArcs_map hw hn arcs).le) := by
  have horiginal : ∀ a, (ofArcs (arcs.map (Arc.embed hw hn))).original
      (a.embed hw (size_ofArcs_map hw hn arcs).le) = ((ofArcs arcs).original a).embed hw hn := by
    intro a
    simp only [original, Arc.embed, members_ofArcs_map]
  -- both sides stand for the given arcs
  refine List.map_injective_iff.2 original_injective ?_
  calc _ = ((ofArcs arcs).arcs.map (ofArcs arcs).original).map (Arc.embed hw hn) := by
        rw [map_original, map_original]
    _ = _ := by simp only [List.map_map, Function.comp_def, horiginal]

/-- Embedded arcs make the embedded subgraph. -/
theorem ofArcs_map_embed :
    ofArcs (arcs.map (Arc.embed hw hn)) = (ofArcs arcs).embed hw hn := by
  refine eq_mk (size_ofArcs_map hw hn arcs) (fun i => ?_) (fun v => ?_) ?_
  · exact (members_ofArcs_map ..).trans (VertexMap.get_map ..).symm
  · rw [VertexMap.get_ofFn, number_ofArcs_map]
  · rw [arcs_ofArcs_map, List.map_map (f := Arc.embed hw le_rfl)]
    rfl

/-! ### What tightening finds -/

variable {sub : TightSubgraph w ρ n}

theorem digraph_embed : (sub.embed hw hn).digraph = sub.digraph := by
  have hnext : ∀ v : Fin sub.size,
      ((sub.arcs.map (Arc.embed hw le_rfl)).filter (·.source == v)).map Arc.target =
        (sub.arcs.filter (·.source == v)).map Arc.target := by
    intro v
    simp [List.filter_map, Function.comp_def, Arc.embed]
  exact congrArg (fun next => Digraph.mk (.ofFn next)) (funext hnext)

/-- Reasons do not depend on the width. -/
theorem reasonsAlong_map_embed (walk : List (Fin n)) :
    Arc.reasonsAlong (arcs.map (Arc.embed hw le_rfl)) walk = Arc.reasonsAlong arcs walk := by
  refine List.flatMap_congr fun step _ => congrArg Option.toList ?_
  rw [List.find?_map]
  simp [Function.comp_def, Arc.embed, Option.bind_map]

theorem conflict_embed (x : Violation sub.size) :
    (sub.embed hw hn).conflict x = sub.conflict x := by
  have hcycle : Violation.cycle (n := (sub.embed hw hn).size) x (sub.embed hw hn).digraph =
      x.cycle sub.digraph := congrArg x.cycle (digraph_embed hw hn)
  have hmembers : (fun v => ((sub.embed hw hn).members v).val) = fun v => (sub.members v).val :=
    funext fun v => congrArg Fin.val (VertexMap.get_map ..)
  have hreasons : Arc.reasonsAlong (sub.embed hw hn).arcs = Arc.reasonsAlong sub.arcs :=
    funext (reasonsAlong_map_embed hw sub.arcs)
  unfold conflict
  rw [hcycle, hmembers, hreasons]
  cases x.cycle sub.digraph <;> rfl

theorem select_embed (selection : Selection) (xs : List (Violation sub.size)) :
    (sub.embed hw hn).select selection xs = sub.select selection xs := by
  have hconflict : (sub.embed hw hn).conflict = sub.conflict := funext (conflict_embed hw hn)
  unfold select
  rw [hconflict]
  rfl

theorem number_embed (v : Fin n') : (sub.embed hw hn).number v =
    if h : v.val < n then sub.number ⟨v, h⟩ else none := VertexMap.get_ofFn ..

section violations

variable {components : Components sub.size} {paths : Paths w n} {paths' : Paths w' n'}

/-- A variable split with the help of a further vertex is not refuted. -/
theorem violation?_eq_none {s : Split n'} (hs : ¬(s.positive.val < n ∧ s.negative.val < n)) :
    (sub.embed hw hn).violation? components paths' s = none := by
  by_cases hp : s.positive.val < n
  · have hnegative : (sub.embed hw hn).number s.negative = none :=
      (number_embed ..).trans (dif_neg fun hlt => hs ⟨hp, hlt⟩)
    simp [violation?, hnegative]
  · have hpositive : (sub.embed hw hn).number s.positive = none :=
      (number_embed ..).trans (dif_neg hp)
    simp [violation?, hpositive]

variable (hdist : ∀ v, (paths'.distance (v.castLE hn)).val = (paths.distance v).val)

include hdist

theorem violation?_embed (s : Split n) :
    (sub.embed hw hn).violation? components paths' (s.embed hn) =
      sub.violation? components paths s := by
  have hnumber : ∀ v : Fin n, (sub.embed hw hn).number (v.castLE hn) = sub.number v := fun v =>
    (number_embed ..).trans (dif_pos v.isLt)
  have hodd : (paths'.distance (s.positive.castLE hn)).differsOddly
      (paths'.distance (s.negative.castLE hn)) =
        (paths.distance s.positive).differsOddly (paths.distance s.negative) := by
    simp only [Weight.differsOddly, Weight.isOdd, hdist]
  simp only [violation?, Split.embed, hnumber, hodd]
  rfl

theorem violations_embed {splits : List (Split n)} {splits' : List (Split n')}
    (hsplits : splits'.filter (fun s => decide (s.positive.val < n ∧ s.negative.val < n)) =
      splits.map (Split.embed hn)) :
    (sub.embed hw hn).violations components paths' splits' =
      sub.violations components paths splits := by
  have hkept : splits'.filterMap ((sub.embed hw hn).violation? components paths') =
      (splits'.filter fun s => decide (s.positive.val < n ∧ s.negative.val < n)).filterMap
        ((sub.embed hw hn).violation? components paths') := by
    rw [List.filterMap_filter]
    refine List.filterMap_congr fun s _ => ?_
    split
    · rfl
    · rename_i hs
      exact violation?_eq_none hw hn (by simpa using hs)
  rw [hsplits, List.filterMap_map] at hkept
  exact hkept.trans (List.filterMap_congr fun s _ => violation?_embed hw hn hdist s)

end violations

end TightSubgraph

/-! ### Distances -/

namespace Paths

/-- The distances, continued by 0 where there are more vertices. -/
def extended (paths : Paths w n) (v : Fin n') : Int :=
  if hv : v.val < n then paths.dist ⟨v, hv⟩ else 0

variable {paths : Paths w n}

theorem extended_castLE (hn : n ≤ n') (v : Fin n) : paths.extended (v.castLE hn) = paths.dist v :=
  dif_pos v.isLt

theorem min_le_extended (paths : Paths w n) (v : Fin n') : w.min ≤ paths.extended v := by
  unfold extended
  split
  · exact (paths.distance _).min_le
  · exact w.min_neg.le

variable {net : Network w ρ n} {paths : Paths w (n + 1)}

theorem extended_root : paths.extended (Network.root n') = paths.dist (Network.root n) :=
  dif_pos (Nat.succ_pos n)

theorem Exact.extended_le_zero (h : paths.Exact net) (hnet : net.Rooted) (v : Fin n') :
    paths.extended v ≤ 0 := by
  unfold extended
  split
  · exact h.dist_le_zero hnet _
  · exact le_rfl

/-- The root is at distance 0: only the empty walk ends there. -/
theorem Exact.dist_root (h : paths.Exact net) (hnet : net.Rooted) :
    paths.dist (Network.root n) = 0 := by
  obtain ⟨⟨l, hl, hweight⟩, -⟩ := h.isDistance (Network.root n)
  rw [Paths.dist, ← hweight, hnet.walk_root hl, exactWeight_nil]

end Paths

/-! ### Networks -/

namespace Network

open Paths

/-- The arcs that do not leave the root. -/
def inner (net : Network w ρ n) : List (Arc w ρ (n + 1)) := net.arcs.filter (·.source != root n)

/-- The second network has the inner arcs of the first and no others, and splits variables between
the vertices of the first as this does. -/
structure Embeds (net : Network w ρ n) (net' : Network w' ρ n') : Prop where
  bits_le : w.bits ≤ w'.bits
  le : n + 1 ≤ n' + 1
  inner_eq : net'.inner = net.inner.map (Arc.embed bits_le le)
  splits_eq :
    net'.splits.filter (fun s => decide (s.positive.val < n + 1 ∧ s.negative.val < n + 1)) =
      net.splits.map (Split.embed le)

namespace Embeds

variable {net : Network w ρ n} {net' : Network w' ρ n'} (h : net.Embeds net')
  {paths : Paths w (n + 1)} {paths' : Paths w' (n' + 1)}

include h

section tighten

variable (hdist : ∀ v : Fin (n + 1), paths'.dist (v.castLE h.le) = paths.dist v)

include hdist

theorem tightArcs_eq :
    net'.tightArcs paths' = (net.tightArcs paths).map (Arc.embed h.bits_le h.le) := by
  have htight : ∀ a : Arc w ρ (n + 1),
      (a.embed h.bits_le h.le).isTight paths' = a.isTight paths := by
    intro a
    rw [Bool.eq_iff_iff, Arc.isTight_iff, Arc.isTight_iff]
    simp only [Arc.embed, hdist, Weight.widen_val]
  have hsplit : ∀ {w : Width} {n : Nat} (net : Network w ρ n) (paths : Paths w (n + 1)),
      net.tightArcs paths = net.inner.filter (·.isTight paths) := by
    intro w n net paths
    rw [tightArcs, inner, List.filter_filter]
    exact List.filter_congr fun a _ => Bool.and_comm ..
  rw [hsplit, hsplit, h.inner_eq, List.filter_map]
  exact congrArg (List.map _) (List.filter_congr fun a _ => htight a)

/-- Tightening comes to the same. -/
theorem tighten_eq (selection : Selection) :
    net'.tighten selection paths' = net.tighten selection paths := by
  have hsub : net'.tightSubgraph paths' = (net.tightSubgraph paths).embed h.bits_le h.le :=
    (congrArg TightSubgraph.ofArcs (h.tightArcs_eq hdist)).trans
      (TightSubgraph.ofArcs_map_embed ..)
  unfold tighten
  rw [hsub]
  -- an embedded subgraph has the size of the subgraph by definition, so all that follows has one
  -- type on both sides
  generalize net.tightSubgraph paths = sub
  have hcomponents : (sub.embed h.bits_le h.le).digraph.components = sub.digraph.components :=
    congrArg Digraph.components (TightSubgraph.digraph_embed ..)
  have hviolations : (sub.embed h.bits_le h.le).violations sub.digraph.components paths'
      net'.splits = sub.violations sub.digraph.components paths net.splits :=
    TightSubgraph.violations_embed h.bits_le h.le hdist h.splits_eq
  have hselect := (TightSubgraph.select_embed h.bits_le h.le selection _).trans
    (congrArg (sub.select selection) hviolations)
  dsimp only
  rw [hcomponents]
  refine (Tightened.mk.injEq ..).mpr ⟨rfl, List.length_map _, rfl, ?_⟩
  exact if_congr Iff.rfl rfl hselect

end tighten

/-- An arc of the larger network leaves the root or is one of the smaller network. -/
theorem exists_arc_of_source_ne_root {a' : Arc w' ρ (n' + 1)} (ha' : a' ∈ net'.arcs)
    (hroot : a'.source ≠ root n') : ∃ a ∈ net.arcs, a.embed h.bits_le h.le = a' := by
  have hmem : a' ∈ net'.inner := List.mem_filter.2 ⟨ha', by simpa using hroot⟩
  rw [h.inner_eq] at hmem
  obtain ⟨a, ha, rfl⟩ := List.mem_map.1 hmem
  exact ⟨a, (List.mem_filter.1 ha).1, rfl⟩

/-- An arc of the smaller network has a counterpart in the larger one. -/
theorem exists_arc (hnet : net.Rooted) (hnet' : net'.Rooted) {a : Arc w ρ (n + 1)}
    (ha : a ∈ net.arcs) : ∃ a' ∈ net'.arcs, a'.source = a.source.castLE h.le ∧
      a'.target = a.target.castLE h.le ∧ a'.weight.val = a.weight.val := by
  by_cases hs : a.source = root n
  · have ht : a.target.castLE h.le ≠ root n' := fun ht =>
      hnet.target_ne_root a ha (Fin.castLE_injective h.le ht)
    obtain ⟨a', ha', hs', ht'⟩ := hnet'.exists_root_arc _ ht
    refine ⟨a', ha', hs'.trans (congrArg (Fin.castLE h.le) hs.symm), ht', ?_⟩
    rw [hnet.weight_eq_zero a ha hs, hnet'.weight_eq_zero a' ha' hs']
    rfl
  · have hmem : a ∈ net.inner := List.mem_filter.2 ⟨ha, by simpa using hs⟩
    have hmem' := List.mem_map_of_mem (f := Arc.embed h.bits_le h.le) hmem
    rw [← h.inner_eq] at hmem'
    exact ⟨_, (List.mem_filter.1 hmem').1, rfl, rfl, rfl⟩

section distances

variable (hnet : net.Rooted) (hnet' : net'.Rooted) (hexact : paths.Exact net)

include hnet hnet' hexact

/-- Distances of the smaller network, continued by 0, are no arc of the larger one too far. -/
theorem extended_le_add (hset : paths.Settled net) : ∀ a' ∈ net'.arcs,
    paths.extended a'.target ≤ paths.extended a'.source + a'.weight.val := by
  intro a' ha'
  by_cases hs : a'.source = root n'
  · rw [hs, hnet'.weight_eq_zero a' ha' hs, extended_root, hexact.dist_root hnet]
    exact hexact.extended_le_zero hnet _
  · obtain ⟨a, ha, rfl⟩ := h.exists_arc_of_source_ne_root ha' hs
    simpa only [Arc.embed, extended_castLE, Weight.widen_val] using hset a ha

theorem extended_le_exactWeight (hset : paths.Settled net) {v : Fin (n' + 1)}
    {l : List (Arc w' ρ (n' + 1))} (hl : Walk net'.arcs (root n') v l) :
    paths.extended v ≤ exactWeight l := by
  have hle := hl.le_add (h.extended_le_add hnet hnet' hexact hset)
  rwa [extended_root, hexact.dist_root hnet, zero_add] at hle

/-- No vertex is farther in the larger network. -/
theorem dist_castLE_le (hexact' : paths'.Exact net') (hset' : paths'.Settled net')
    (v : Fin (n + 1)) : paths'.dist (v.castLE h.le) ≤ paths.dist v := by
  have hrise : ∀ a ∈ net.arcs, paths'.dist (a.target.castLE h.le) ≤
      paths'.dist (a.source.castLE h.le) + a.weight.val := by
    intro a ha
    obtain ⟨a', ha', hs, ht, hk⟩ := h.exists_arc hnet hnet' ha
    rw [← hs, ← ht, ← hk]
    exact hset' a' ha'
  obtain ⟨⟨l, hl, hweight⟩, -⟩ := hexact.isDistance v
  have hle := hl.le_add (d := fun v => paths'.dist (v.castLE h.le)) hrise
  have hroot : paths'.dist ((root n).castLE h.le) = 0 := hexact'.dist_root hnet'
  rwa [hroot, zero_add, hweight] at hle

/-- A search in the larger network finds the distances of the smaller one, if its counts neither
overflow nor hide improvements. -/
theorem exists_distances (hset : paths.Settled net) {overflow : Overflow} {strategy : Strategy}
    (hcounts : (net'.shortestPaths overflow strategy).ending.outcome ≠ .miscounted)
    (hhides : overflow.NeverHides strategy net'.arcs.length) :
    ∃ paths', (net'.shortestPaths overflow strategy).ending.outcome = .distances paths' ∧
      ∀ v : Fin (n + 1), paths'.dist (v.castLE h.le) = paths.dist v := by
  have hexp := net'.outcome_explains hnet' overflow strategy
  cases hout : (net'.shortestPaths overflow strategy).ending.outcome with
  | negativeCycle paths' entry =>
    rw [hout] at hexp
    exact absurd (.of_potential (h.extended_le_add hnet hnet' hexact hset)) hexp.2
  | tooShort target =>
    rw [hout] at hexp
    obtain ⟨l, hl, -, hlt⟩ := hexp
    -- no walk is lighter than the narrow width allows, so none is too light for the wide one
    have hwalk := h.extended_le_exactWeight hnet hnet' hexact hset hl
    have hmin := paths.min_le_extended target
    have := Width.min_le_min h.bits_le
    omega
  | miscounted => exact absurd hout hcounts
  | distances paths' =>
    rw [hout] at hexp
    obtain ⟨hexact', hset'⟩ := hexp.2 hhides
    refine ⟨paths', rfl, fun v => le_antisymm ?_ ?_⟩
    · exact h.dist_castLE_le hnet hnet' hexact hexact' hset' v
    · obtain ⟨⟨l, hl, hweight⟩, -⟩ := hexact'.isDistance (v.castLE h.le)
      have hwalk := h.extended_le_exactWeight hnet hnet' hexact hset hl
      rwa [extended_castLE, hweight] at hwalk

end distances

end Embeds

end Network

end Octagon

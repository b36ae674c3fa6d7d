import Octagon.Proofs.Check
import Octagon.Proofs.TightSubgraph
import Octagon.TightSubgraph.Growth

/-!
The pass that makes a tight subgraph keeps its tables in step: after each arc the two numberings are
inverse to each other, the successors of a vertex are the targets of its arcs in order, and reasons
are stored for the ends of these arcs alone. So the tables end as those of the tight arcs, and what
is true of the arcs is true of them.
-/

namespace Octagon

variable {w : Width} {ρ : Type} {n : Nat}

/-- An entry that is repeated is dropped from the end. -/
theorem eraseDups_concat {α : Type} [DecidableEq α] (xs : List α) (x : α) :
    (xs ++ [x]).eraseDups = if x ∈ xs then xs.eraseDups else xs.eraseDups ++ [x] := by
  rw [List.eraseDups_append]
  by_cases hx : x ∈ xs
  · simp [List.removeAll, hx]
  · simp [List.removeAll, hx, List.eraseDups_cons]

namespace Growth

variable {reasonsOf : Fin n → Fin n → List ρ} {s : Growth w ρ n} {vs : List (Fin n)}
  {arcs : List (Arc w ρ n)} {v : Fin n} {i : Nat}

/-- The vertices `vs` have been entered, with repetitions, and the arcs inserted. -/
structure Tracks (reasonsOf : Fin n → Fin n → List ρ) (s : Growth w ρ n) (vs : List (Fin n))
    (arcs : List (Arc w ρ n)) : Prop where
  members_eq : s.members.toList = vs.eraseDups
  number_iff : ∀ v i, s.number v = some i ↔ s.members[i]? = some v
  size_successors : s.successors.size = s.members.size
  ends_mem : ∀ a ∈ arcs, a.source ∈ vs ∧ a.target ∈ vs
  successors_eq : ∀ v i, s.number v = some i → ∃ out, s.successors[i]? = some out ∧
    out.toList.map (Prod.map some id) =
      (arcs.filter (·.source == v)).map fun a => (s.number a.target, a.weight)
  reasons_iff : ∀ (p : Nat × Nat) rs, s.reasons[p]? = some rs ↔ ∃ a ∈ arcs, s.number a.source = some p.1 ∧
    s.number a.target = some p.2 ∧ rs = reasonsOf a.source a.target
  numArcs_eq : s.numArcs = arcs.length

theorem tracks_start (reasonsOf : Fin n → Fin n → List ρ) :
    ({} : Growth w ρ n).Tracks reasonsOf [] [] := by
  constructor <;> simp

/-! ### Entering -/

theorem Tracks.mem_iff (h : s.Tracks reasonsOf vs arcs) : v ∈ vs ↔ ∃ i, s.number v = some i := by
  rw [← List.mem_eraseDups, ← h.members_eq, List.mem_iff_getElem?]
  simp only [h.number_iff, Array.getElem?_toList]

/-- The vertex that is entered has the number returned. -/
theorem number_enter (s : Growth w ρ n) (v : Fin n) :
    (s.enter v).2.number v = some (s.enter v).1 := by
  cases hv : s.number v with
  | some i => simp [enter, hv]
  | none => simp [enter, hv]

/-- Numbers are kept. -/
theorem number_enter_of_some (hi : s.number v = some i) (u : Fin n) :
    (s.enter u).2.number v = some i := by
  cases hu : s.number u with
  | some j => simp [enter, hu, hi]
  | none =>
    have hne : u ≠ v := by
      rintro rfl
      rw [hu] at hi
      cases hi
    simp [enter, hu, VertexMap.get_set_of_ne _ hne, hi]

/-- To enter a vertex adds it to those entered, and changes nothing for the arcs. -/
theorem Tracks.enter (h : s.Tracks reasonsOf vs arcs) (v : Fin n) :
    (s.enter v).2.Tracks reasonsOf (vs ++ [v]) arcs := by
  cases hv : s.number v with
  | some i =>
    have hsame : (s.enter v).2 = s := by simp [Growth.enter, hv]
    have hmem : v ∈ vs := h.mem_iff.2 ⟨i, hv⟩
    rw [hsame]
    refine { h with members_eq := ?_, ends_mem := fun a ha => ?_ }
    · rw [eraseDups_concat, if_pos hmem, h.members_eq]
    · exact ⟨List.mem_append_left _ (h.ends_mem a ha).1, List.mem_append_left _ (h.ends_mem a ha).2⟩
  | none =>
    have hnot : v ∉ vs := by
      rw [h.mem_iff, hv]
      simp
    have hnew : (s.enter v).2 = { s with
        members := s.members.push v
        number := s.number.set v (some s.members.size)
        successors := s.successors.push #[] } := by simp [Growth.enter, hv]
    have hkeep : ∀ u ∈ vs, s.number.set v (some s.members.size) u = s.number u := by
      intro u hu
      refine VertexMap.get_set_of_ne _ ?_ _
      rintro rfl
      exact hnot hu
    rw [hnew]
    constructor
    case members_eq => simp [h.members_eq, eraseDups_concat, hnot]
    case number_iff =>
      intro u i
      simp only [VertexMap.get_set, Array.getElem?_push]
      by_cases huv : v = u
      · subst huv
        have hnone : ¬s.members[i]? = some v := by
          rw [← h.number_iff, hv]
          simp
        by_cases hi : i = s.members.size
        · simp [hi]
        · simp [hi, hnone, Ne.symm hi]
      · rw [if_neg huv, h.number_iff]
        by_cases hi : i = s.members.size
        · simp [hi, huv]
        · simp [hi]
    case size_successors => simp [h.size_successors]
    case ends_mem =>
      intro a ha
      exact ⟨List.mem_append_left _ (h.ends_mem a ha).1, List.mem_append_left _ (h.ends_mem a ha).2⟩
    case successors_eq =>
      intro u i hu
      rw [VertexMap.get_set] at hu
      split at hu
      · rename_i huv
        subst huv
        obtain rfl := Option.some.inj hu
        -- the ends of all arcs so far were entered, so none of them leaves the new vertex
        have hnone : arcs.filter (·.source == v) = [] := by
          rw [List.filter_eq_nil_iff]
          intro a ha hsource
          exact hnot (beq_iff_eq.1 hsource ▸ (h.ends_mem a ha).1)
        exact ⟨#[], by simp [← h.size_successors], by simp [hnone]⟩
      · obtain ⟨out, hout, heq⟩ := h.successors_eq u i hu
        refine ⟨out, ?_, heq.trans (List.map_congr_left fun a ha => ?_)⟩
        · have hlt := (Array.getElem?_eq_some_iff.1 hout).1
          rw [Array.getElem?_push, if_neg hlt.ne, hout]
        · rw [hkeep _ (h.ends_mem a (List.mem_filter.1 ha).1).2]
    case reasons_iff =>
      intro p rs
      rw [h.reasons_iff]
      refine exists_congr fun a => and_congr_right fun ha => ?_
      rw [hkeep _ (h.ends_mem a ha).1, hkeep _ (h.ends_mem a ha).2]
    case numArcs_eq => exact h.numArcs_eq

/-! ### Inserting -/

/-- An arc between vertices that were entered is put into the tables. -/
theorem Tracks.join (h : s.Tracks reasonsOf vs arcs) {a : Arc w ρ n} {j : Nat}
    (hi : s.number a.source = some i) (hj : s.number a.target = some j) :
    (s.join i j a.weight (reasonsOf a.source a.target)).Tracks reasonsOf vs (arcs ++ [a]) := by
  have hinj : ∀ {u v : Fin n} {k : Nat}, s.number u = some k → s.number v = some k → u = v :=
    fun hu hv => Option.some.inj (((h.number_iff _ _).1 hu).symm.trans ((h.number_iff _ _).1 hv))
  constructor
  case members_eq => exact h.members_eq
  case number_iff => exact h.number_iff
  case size_successors => simp [Growth.join, h.size_successors]
  case ends_mem =>
    rw [List.forall_mem_append, List.forall_mem_singleton]
    exact ⟨h.ends_mem, h.mem_iff.2 ⟨i, hi⟩, h.mem_iff.2 ⟨j, hj⟩⟩
  case successors_eq =>
    intro v k hk
    obtain ⟨out, hout, heq⟩ := h.successors_eq v k hk
    simp only [Growth.join, Array.getElem?_modify, List.filter_append, List.map_append]
    by_cases hv : a.source = v
    · subst hv
      obtain rfl := Option.some.inj (hi.symm.trans hk)
      exact ⟨out.push (j, a.weight), by simp [hout], by simp [heq, hj]⟩
    · have hne : i ≠ k := fun hik => hv (hinj hi (hik ▸ hk))
      exact ⟨out, by simp [hne, hout], by simp [heq, hv]⟩
  case reasons_iff =>
    intro p rs
    simp only [Growth.join, Std.HashMap.getElem?_insert, beq_iff_eq, List.mem_append,
      List.mem_singleton]
    by_cases hp : (i, j) = p
    · subst hp
      rw [if_pos rfl, Option.some.injEq]
      constructor
      · rintro rfl
        exact ⟨a, .inr rfl, hi, hj, rfl⟩
      · -- an arc that was there before with the same numbers has the same ends, so the same reasons
        rintro ⟨b, -, hs, ht, rfl⟩
        rw [hinj hi hs, hinj hj ht]
    · rw [if_neg hp, h.reasons_iff]
      refine exists_congr fun b => and_congr_left fun ⟨hs, ht, _⟩ => (or_iff_left ?_).symm
      rintro rfl
      exact hp (Prod.ext (Option.some.inj (hi.symm.trans hs)) (Option.some.inj (hj.symm.trans ht)))
  case numArcs_eq => simp [Growth.join, h.numArcs_eq]

theorem Tracks.insert (h : s.Tracks reasonsOf vs arcs) (a : Arc w ρ n) :
    (s.insert reasonsOf a).Tracks reasonsOf (vs ++ [a.source, a.target]) (arcs ++ [a]) := by
  have hboth := (h.enter a.source).enter a.target
  rw [List.append_assoc] at hboth
  exact hboth.join (number_enter_of_some (number_enter s a.source) _) (number_enter _ a.target)

/-- A pass over further arcs continues from what was inserted before. -/
theorem Tracks.foldl_insert {later : List (Arc w ρ n)}
    (h : s.Tracks reasonsOf (arcs.flatMap fun a => [a.source, a.target]) arcs) :
    (later.foldl (Growth.insert reasonsOf) s).Tracks reasonsOf
      ((arcs ++ later).flatMap fun a => [a.source, a.target]) (arcs ++ later) := by
  induction later generalizing s arcs with
  | nil => simpa using h
  | cons a later ih =>
    rw [List.foldl_cons, List.append_cons]
    refine ih ?_
    rw [List.flatMap_append, List.flatMap_singleton]
    exact h.insert a

/-- After a pass all ends have been entered and all arcs inserted. -/
theorem tracks_foldl_insert (arcs : List (Arc w ρ n)) :
    (arcs.foldl (Growth.insert reasonsOf) {}).Tracks reasonsOf
      (arcs.flatMap fun a => [a.source, a.target]) arcs := by
  have hstart : ({} : Growth w ρ n).Tracks reasonsOf
      (([] : List (Arc w ρ n)).flatMap fun a => [a.source, a.target]) [] := tracks_start reasonsOf
  exact hstart.foldl_insert

end Growth

/-! ### The subgraph -/

/-- The arcs of the subgraph that leave a number are the given ones that leave its vertex. -/
theorem TightSubgraph.map_original_filter {arcs : List (Arc w ρ n)}
    (i : Fin (ofArcs arcs).size) :
    ((ofArcs arcs).arcs.filter (·.source == i)).map (ofArcs arcs).original =
      arcs.filter (·.source == (ofArcs arcs).members i) := by
  have hsource : ∀ a : Arc w ρ (ofArcs arcs).size,
      (a.source == i) = (((ofArcs arcs).original a).source == (ofArcs arcs).members i) := by
    intro a
    rw [Bool.eq_iff_iff, beq_iff_eq, beq_iff_eq]
    exact members_injective.eq_iff.symm
  calc ((ofArcs arcs).arcs.filter (·.source == i)).map (ofArcs arcs).original
      = ((ofArcs arcs).arcs.map (ofArcs arcs).original).filter
          (·.source == (ofArcs arcs).members i) := by
        rw [List.filter_map]
        exact congrArg _ (List.filter_congr fun a _ => hsource a)
    _ = arcs.filter (·.source == (ofArcs arcs).members i) := by rw [map_original]

namespace Growth

/-- The tables are those of a subgraph. -/
structure Shows (s : Growth w ρ n) (sub : TightSubgraph w ρ n) : Prop where
  size_members : s.members.size = sub.size
  members_eq : ∀ i : Fin sub.size, s.members[i.val]? = some (sub.members i)
  number_eq : ∀ v, s.number v = (sub.number v).map Fin.val
  size_successors : s.successors.size = sub.size
  successors_eq : ∀ i : Fin sub.size, (s.successors[i.val]?).map Array.toList =
    some ((sub.arcs.filter (·.source == i)).map fun a => (a.target.val, a.weight))
  reasons_eq : ∀ i j : Fin sub.size,
    s.reasons.getD (i.val, j.val) [] = Arc.reasonsAlong sub.arcs [i, j]
  numArcs_eq : s.numArcs = sub.arcs.length

section shows

variable {reasonsOf : Fin n → Fin n → List ρ} {s : Growth w ρ n} {arcs : List (Arc w ρ n)}
  (h : s.Tracks reasonsOf (arcs.flatMap fun a => [a.source, a.target]) arcs)

include h

open TightSubgraph

theorem Tracks.members_ofArcs (i : Fin (ofArcs arcs).size) :
    s.members[i.val]? = some ((ofArcs arcs).members i) := by
  have hget : (ofArcs arcs).members i = (endsOf arcs).get i := TightSubgraph.members_eq i
  rw [← Array.getElem?_toList, h.members_eq, hget]
  exact List.getElem?_eq_getElem i.isLt

theorem Tracks.number_ofArcs (v : Fin n) : s.number v = ((ofArcs arcs).number v).map Fin.val := by
  refine Option.ext fun k => ?_
  rw [h.number_iff, Option.map_eq_some_iff]
  constructor
  · intro hk
    have hlt : k < (ofArcs arcs).size := by
      have hlength : s.members.size = (ofArcs arcs).size := congrArg List.length h.members_eq
      exact hlength ▸ (Array.getElem?_eq_some_iff.1 hk).1
    refine ⟨⟨k, hlt⟩, number_eq_some_iff.2 ?_, rfl⟩
    exact Option.some.inj ((h.members_ofArcs ⟨k, hlt⟩).symm.trans hk)
  · rintro ⟨i, hi, rfl⟩
    rw [h.members_ofArcs, number_eq_some_iff.1 hi]

theorem Tracks.number_members (i : Fin (ofArcs arcs).size) :
    s.number ((ofArcs arcs).members i) = some i.val := by
  rw [h.number_ofArcs, number_eq_some_iff.2 rfl, Option.map_some]

theorem Tracks.successors_ofArcs (i : Fin (ofArcs arcs).size) :
    (s.successors[i.val]?).map Array.toList =
      some (((ofArcs arcs).arcs.filter (·.source == i)).map fun a => (a.target.val, a.weight)) := by
  obtain ⟨out, hout, heq⟩ := h.successors_eq _ _ (h.number_members i)
  rw [hout, Option.map_some, Option.some.injEq]
  have hinjective : Function.Injective (Prod.map some id : Nat × Weight w → Option Nat × Weight w) :=
    (Option.some_injective Nat).prodMap Function.injective_id
  refine hinjective.list_map ?_
  rw [heq, ← map_original_filter, List.map_map, List.map_map]
  refine List.map_congr_left fun a _ => ?_
  simp only [Function.comp_apply, original, h.number_members, Prod.map, id]

/-- The reasons stored between two numbers are those of the arc between them. -/
theorem Tracks.reasons_ofArcs (hreasons : ∀ a ∈ arcs, reasonsOf a.source a.target = a.reason.toList)
    (i j : Fin (ofArcs arcs).size) :
    s.reasons.getD (i.val, j.val) [] = Arc.reasonsAlong (ofArcs arcs).arcs [i, j] := by
  have halong : Arc.reasonsAlong (ofArcs arcs).arcs [i, j] = (((ofArcs arcs).arcs.find?
      fun a => a.source == i && a.target == j).bind Arc.reason).toList := by
    simp [Arc.reasonsAlong]
  rw [halong, Std.HashMap.getD_eq_getD_getElem?]
  cases hfind : (ofArcs arcs).arcs.find? fun a => a.source == i && a.target == j with
  | some a =>
    have hmem := mem_of_mem_arcs (List.mem_of_find?_eq_some hfind)
    obtain ⟨rfl, rfl⟩ : a.source = i ∧ a.target = j := by simpa using List.find?_some hfind
    have hstored : s.reasons[(a.source.val, a.target.val)]? = some a.reason.toList :=
      (h.reasons_iff _ _).2 ⟨_, hmem, h.number_members _, h.number_members _, (hreasons _ hmem).symm⟩
    rw [hstored]
    rfl
  | none =>
    have hnone : s.reasons[(i.val, j.val)]? = none := by
      rw [Option.eq_none_iff_forall_ne_some]
      intro rs hstored
      obtain ⟨a, ha, hs, ht, -⟩ := (h.reasons_iff _ _).1 hstored
      rw [← map_original arcs] at ha
      obtain ⟨b, hb, rfl⟩ := List.mem_map.1 ha
      have hsource : b.source = i := Fin.ext (Option.some.inj ((h.number_members _).symm.trans hs))
      have htarget : b.target = j := Fin.ext (Option.some.inj ((h.number_members _).symm.trans ht))
      have hno := List.find?_eq_none.1 hfind b hb
      simp [hsource, htarget] at hno
    rw [hnone]
    rfl

/-- Once all arcs are inserted the tables are those of their subgraph. -/
theorem Tracks.shows (hreasons : ∀ a ∈ arcs, reasonsOf a.source a.target = a.reason.toList) :
    s.Shows (ofArcs arcs) := by
  have hsize : s.members.size = (ofArcs arcs).size := congrArg List.length h.members_eq
  constructor
  case size_members => exact hsize
  case members_eq => exact h.members_ofArcs
  case number_eq => exact h.number_ofArcs
  case size_successors => exact h.size_successors.trans hsize
  case successors_eq => exact h.successors_ofArcs
  case reasons_eq => exact h.reasons_ofArcs hreasons
  case numArcs_eq =>
    have hlength := congrArg List.length (map_original arcs)
    rw [List.length_map] at hlength
    exact h.numArcs_eq.trans hlength.symm

end shows

/-- The reasons along a walk are those that the subgraph has along it. -/
theorem Shows.reasonsAlong_eq {s : Growth w ρ n} {sub : TightSubgraph w ρ n} (h : s.Shows sub)
    (walk : List (Fin sub.size)) :
    s.reasonsAlong (walk.map Fin.val) = Arc.reasonsAlong sub.arcs walk := by
  unfold Growth.reasonsAlong Arc.reasonsAlong
  rw [← List.map_tail, List.zip_map, List.flatMap_map]
  refine List.flatMap_congr fun ends _ => ?_
  obtain ⟨i, j⟩ := ends
  refine (h.reasons_eq i j).trans ?_
  simp [Arc.reasonsAlong]

end Growth

/-- The pass over the arcs of a network ends with the tables of the tight subgraph. -/
theorem Network.growth_shows {net : Network w ρ n}
    {reasonsOf : Fin (n + 1) → Fin (n + 1) → List ρ}
    (hreasons : ∀ a ∈ net.arcs, reasonsOf a.source a.target = a.reason.toList)
    (paths : Paths w (n + 1)) : (net.growth reasonsOf paths).Shows (net.tightSubgraph paths) := by
  have hgrowth : net.growth reasonsOf paths =
      (net.tightArcs paths).foldl (Growth.insert reasonsOf) {} := by
    rw [tightArcs, List.foldl_filter, growth]
    congr 1
    funext s a
    by_cases hroot : a.source = root n
    · simp [hroot]
    · simp [hroot]
  rw [hgrowth]
  exact (Growth.tracks_foldl_insert _).shows fun a ha => hreasons a (List.mem_filter.1 ha).1

/-! ### Walks -/

namespace Graph

/-- The subgraph is that of the tight arcs off the root, under numbers for their ends: each such arc
once, at its source in the order of the edges, and each walk a walk of the network. -/
structure ExactSubgraph {g : Graph w ρ} (net : Network w ρ g.occurrences.size)
    (paths : Paths w (g.occurrences.size + 1)) (s : Growth w ρ (g.occurrences.size + 1))
    (sub : TightSubgraph w ρ (g.occurrences.size + 1)) : Prop where
  /-- The tables that the pass leaves are those of the subgraph. -/
  shows : s.Shows sub
  map_original : sub.arcs.map sub.original = net.arcs.filter fun a =>
    a.source ≠ Network.root _ ∧ paths.dist a.target = paths.dist a.source + a.weight.val
  distinct : (sub.arcs.map fun a => (a.source, a.target)).Nodup
  map_original_filter : ∀ i, (sub.arcs.filter (·.source == i)).map sub.original =
    (sub.arcs.map sub.original).filter (·.source == sub.members i)
  exists_number_iff : ∀ v, (∃ i, sub.number v = some i) ↔ ∃ a ∈ net.arcs,
    (a.source ≠ Network.root _ ∧ paths.dist a.target = paths.dist a.source + a.weight.val) ∧
      (a.source = v ∨ a.target = v)
  /-- The two numberings are inverse to each other. -/
  number_eq_some_iff : ∀ v i, sub.number v = some i ↔ sub.members i = v
  walk : ∀ u v l, Walk sub.arcs u v l →
    Walk net.arcs (sub.members u) (sub.members v) (l.map sub.original) ∧
    s.reasonsAlong ((visited u l).map Fin.val) =
      g.reasonsAlong ((visited u l).map fun x => (sub.members x).val) ∧
    exactWeight l = paths.dist (sub.members v) - paths.dist (sub.members u)
  exactWeight_closed : ∀ v l, Walk sub.arcs v v l → exactWeight l = 0

variable {g : Graph w ρ} {net : Network w ρ g.occurrences.size}

/-- The reasons of the graph between the ends of an arc are those of the arc. -/
theorem IsNetwork.reasons_eq (h : g.IsNetwork net) {a : Arc w ρ (g.occurrences.size + 1)}
    (ha : a ∈ net.arcs) : g.reasons a.source a.target = a.reason.toList := by
  simp only [reasons, h.edgeBetween_of_mem ha, Option.bind_some, Arc.edge]

/-- A walk of the subgraph has the reasons of the graph, and weighs what the distances differ by. -/
theorem IsNetwork.walk_tightSubgraph (h : g.IsNetwork net)
    {paths : Paths w (g.occurrences.size + 1)} {u v : Fin (net.tightSubgraph paths).size}
    {l : List (Arc w ρ (net.tightSubgraph paths).size)}
    (hl : Walk (net.tightSubgraph paths).arcs u v l) :
    Walk net.arcs ((net.tightSubgraph paths).members u) ((net.tightSubgraph paths).members v)
        (l.map (net.tightSubgraph paths).original) ∧
      Arc.reasonsAlong (net.tightSubgraph paths).arcs (visited u l) =
        g.reasonsAlong ((visited u l).map fun x => ((net.tightSubgraph paths).members x).val) ∧
      exactWeight l = paths.dist ((net.tightSubgraph paths).members v) -
        paths.dist ((net.tightSubgraph paths).members u) := by
  have htight : Walk (net.tightArcs paths) ((net.tightSubgraph paths).members u)
      ((net.tightSubgraph paths).members v) (l.map (net.tightSubgraph paths).original) :=
    TightSubgraph.walk_map_original hl
  have hwalk := Network.walk_of_tightArcs htight
  have hvisited := TightSubgraph.visited_map_original u l
  have hweight : exactWeight (l.map (net.tightSubgraph paths).original) = exactWeight l := by
    rw [exactWeight, exactWeight, List.map_map]
    rfl
  refine ⟨hwalk, ?_, hweight ▸ Network.exactWeight_of_tight htight⟩
  have halong := h.reasonsAlong_eq hwalk
  rw [hvisited, List.map_map, List.flatMap_map] at halong
  have hdistinct : ((net.tightSubgraph paths).arcs.map fun a => (a.source, a.target)).Nodup :=
    TightSubgraph.distinct_ofArcs h.rooted.distinct_tightArcs
  exact (hl.reasonsAlong_visited hdistinct).trans halong.symm

/-- Whatever the distances, the pass over the edges of a graph makes the exact subgraph of those
that are tight and do not leave the root. -/
theorem tightSubgraph_exact (calls : List (Call w ρ)) :
    ∃ net, (ofCalls calls).network = .ok net ∧
      net.arcs.map Arc.edge = (ofCalls calls).edges.toList ∧
      ∀ paths, ExactSubgraph net paths
        (net.growth (fun u v => (ofCalls calls).reasons u v) paths) (net.tightSubgraph paths) := by
  obtain ⟨net, hnet⟩ := (valid_ofCalls calls).exists_isNetwork
  refine ⟨net, hnet.network_eq, hnet.map_edge, fun paths => ?_⟩
  have hshows : (net.growth (fun u v => (ofCalls calls).reasons u v) paths).Shows
      (net.tightSubgraph paths) := Network.growth_shows (fun a ha => hnet.reasons_eq ha) paths
  have htight : net.tightArcs paths = net.arcs.filter fun a =>
      a.source ≠ Network.root _ ∧ paths.dist a.target = paths.dist a.source + a.weight.val := by
    refine List.filter_congr fun a _ => ?_
    rw [Bool.eq_iff_iff]
    simp [Arc.isTight_iff]
  constructor
  case shows => exact hshows
  case map_original => exact (TightSubgraph.map_original _).trans htight
  case distinct => exact TightSubgraph.distinct_ofArcs hnet.rooted.distinct_tightArcs
  case map_original_filter =>
    intro i
    refine (TightSubgraph.map_original_filter i).trans ?_
    exact congrArg _ (TightSubgraph.map_original (net.tightArcs paths)).symm
  case exists_number_iff =>
    intro v
    refine TightSubgraph.exists_number_iff.trans (exists_congr fun a => ?_)
    rw [← Network.tightArcs, Network.mem_tightArcs_iff, and_assoc]
  case number_eq_some_iff => exact fun v i => TightSubgraph.number_eq_some_iff
  case walk =>
    intro u v l hl
    rw [hshows.reasonsAlong_eq]
    exact hnet.walk_tightSubgraph hl
  case exactWeight_closed =>
    intro v l hl
    rw [(hnet.walk_tightSubgraph hl).2.2, sub_self]

/-- Under shortest distances eight arcs of `oddSquare` are tight. -/
theorem tightSubgraph_exact_oddSquare : ∃ net paths, (ofCalls oddSquare).network = .ok net ∧
    (net.shortestPaths .checked .earlyExit).ending.outcome = .distances paths ∧
    (net.growth (fun u v => (ofCalls oddSquare).reasons u v) paths).numArcs = 8 ∧
    ExactSubgraph net paths
      (net.growth (fun u v => (ofCalls oddSquare).reasons u v) paths) (net.tightSubgraph paths) := by
  have hcount : ((ofCalls oddSquare).network.toOption.bind fun net =>
      match (net.shortestPaths .checked .earlyExit).ending.outcome with
      | .distances paths => some (net.tightSubgraph paths).arcs.length
      | _ => none) = some 8 := by decide +kernel
  obtain ⟨net, hnet, -, hexact⟩ := tightSubgraph_exact oddSquare
  rw [hnet, Except.toOption, Option.bind_some] at hcount
  split at hcount
  · rename_i paths hout
    refine ⟨net, paths, hnet, hout, ?_, hexact paths⟩
    exact (hexact paths).shows.numArcs_eq.trans (Option.some.inj hcount)
  · cases hcount

end Graph

end Octagon

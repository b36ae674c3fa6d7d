import Octagon.Proofs.Graph.Embedding
import Octagon.Proofs.Graph.Lowering
import Octagon.Proofs.Graph.Refusal
import Octagon.Proofs.Least

/-!
Parallel edges merge. Whatever a graph accepts between two occurrences ends up in one edge, at the
position that the first insertion returned and every later one returns again. The edge has the
weight and the reason of the first least insertion. Edges never move, and after registration weights
do not depend on the order of the assertions.
-/

namespace Octagon

variable {w : Width} {ρ : Type}

/-- A difference that a graph accepted, its reason, and the position that was returned. -/
structure Insertion (w : Width) (ρ : Type) where
  difference : Difference w
  reason : ρ
  position : Nat
  deriving DecidableEq

/-- What was inserted, without the position. -/
def Insertion.entry (x : Insertion w ρ) : Difference w × ρ := (x.difference, x.reason)

/-- The insertion is one of a difference from `a` to `b`. -/
def Insertion.between (a b : Occurrence) (x : Insertion w ρ) : Bool :=
  a = x.difference.source ∧ b = x.difference.target

namespace Graph

/-- The insertions of differences in order, all for one reason, up to the first one refused. -/
def insertedAll (g : Graph w ρ) (r : ρ) : List (Difference w) → List (Insertion w ρ)
  | [] => []
  | d :: ds => match g.addEdge d r with
    | .ok (i, g') => ⟨d, r, i⟩ :: g'.insertedAll r ds
    | .error _ => []

/-- The insertions that a call makes. -/
def inserted (g : Graph w ρ) : Call w ρ → List (Insertion w ρ)
  | .addEdge d r => g.insertedAll r [d]
  | .addConstraint c r => match g.addConstraint c r, c.differences with
    | .ok _, .ok ds => g.insertedAll r ds
    | _, _ => []
  | _ => []

/-- The insertions that calls in order make from `g` on. -/
def insertions (g : Graph w ρ) : List (Call w ρ) → List (Insertion w ρ)
  | [] => []
  | call :: calls => g.inserted call ++ (g.perform call).insertions calls

variable {g g' g'' : Graph w ρ} {s t : Vertex} {k : Weight w} {r : ρ} {a b : Occurrence}

/-! ### Growing -/

/-- Two vertices are connected by the edge whose position is returned; other edges stay. -/
theorem Valid.ends_connect (h : g.Valid) (s t : Vertex) (k : Weight w) (r : ρ) :
    g.ends <+: (g.connect s t k r).2.ends ∧
      (g.connect s t k r).2.ends[(g.connect s t k r).1]? = some (s, t) := by
  cases hid : g.edgeId? s t with
  | some i =>
    have hi := h.edgeId?_eq_some_iff.1 hid
    have hsame : (g.connect s t k r).2.ends = g.ends := by
      simp only [Graph.connect, hid]
      split
      · exact ends_reweigh g i k r
      · rfl
    have hposition : (g.connect s t k r).1 = i := by simp only [Graph.connect, hid]
    rw [hsame, hposition]
    exact ⟨List.prefix_rfl, hi⟩
  | none =>
    have hends : (g.connect s t k r).2.ends = g.ends ++ [(s, t)] := by
      simp [ends, (connect_of_none (k := k) (r := r) hid).1]
    have hposition : (g.connect s t k r).1 = g.ends.length := by
      simp only [Graph.connect, hid, length_ends]
    rw [hends, hposition]
    exact ⟨List.prefix_append .., List.getElem?_concat_length⟩

/-- The edge of the insertion leads between the vertices of its ends. -/
def LiesIn (g : Graph w ρ) (x : Insertion w ρ) : Prop :=
  ∃ s t, g.vertex? x.difference.source = some s ∧ g.vertex? x.difference.target = some t ∧
    g.ends[x.position]? = some (s, t)

theorem LiesIn.mono {x : Insertion w ρ} (hx : g.LiesIn x) (h : g.Grows g') : g'.LiesIn x := by
  obtain ⟨s, t, hs, ht, hi⟩ := hx
  exact ⟨s, t, h.vertex?_mono _ _ hs, h.vertex?_mono _ _ ht, h.getElem?_ends hi⟩

/-! ### Insertions -/

/-- An accepted difference lies at the position returned. -/
theorem Valid.liesIn_addEdge (h : g.Valid) {d : Difference w} {i : Nat}
    (hadd : g.addEdge d r = .ok (i, g')) : g.Grows g' ∧ g'.LiesIn ⟨d, r, i⟩ := by
  have hvertex := vertex?_addEdge hadd
  obtain ⟨s, t, hs, ht, hconnect⟩ := addEdge_eq_ok_iff.1 hadd
  obtain ⟨hkept, hposition⟩ := h.ends_connect s t d.weight r
  rw [hconnect] at hkept hposition
  exact ⟨⟨hkept, fun o v hv => (hvertex o).trans hv⟩,
    s, t, (hvertex _).trans hs, (hvertex _).trans ht, hposition⟩

/-- Accepted differences are inserted, and lie where they were inserted. -/
theorem Valid.insertedAll : ∀ {ds : List (Difference w)} {g g' : Graph w ρ}, g.Valid →
    g.addEdges ds r = .ok g' → g.Grows g' ∧
      (g.insertedAll r ds).map Insertion.entry = ds.map (·, r) ∧
      ∀ x ∈ g.insertedAll r ds, g'.LiesIn x
  | [], g, g', _, hadd => by
      obtain rfl : g = g' := Except.ok.inj hadd
      exact ⟨.refl g, rfl, fun _ hx => absurd hx List.not_mem_nil⟩
  | d :: ds, g, g', h, hadd => by
      unfold Graph.addEdges at hadd
      rw [List.foldlM_cons] at hadd
      cases hd : g.addEdge d r with
      | error e => rw [hd] at hadd; cases hadd
      | ok x =>
        obtain ⟨i, next⟩ := x
        rw [hd] at hadd
        have hrest : next.addEdges ds r = .ok g' := hadd
        obtain ⟨hgrows, hlies⟩ := h.liesIn_addEdge hd
        obtain ⟨hgrows', hmap, hlies'⟩ := (h.addEdge hd).1.insertedAll hrest
        rw [Graph.insertedAll, hd]
        refine ⟨hgrows.trans hgrows', congrArg _ hmap, ?_⟩
        exact List.forall_mem_cons.2 ⟨hlies.mono hgrows', hlies'⟩

/-- A call inserts what it adds, where it returns, and leaves all edges in their places. -/
theorem Valid.inserted (h : g.Valid) (call : Call w ρ) : g.Grows (g.perform call) ∧
    (g.inserted call).map Insertion.entry = g.added call ∧
    ∀ x ∈ g.inserted call, (g.perform call).LiesIn x := by
  by_cases hcall : call.registers
  · have hgrows : g.Grows (g.perform call) := by
      refine perform_induction (P := g.Grows) ?_ ?_ (.refl g) hcall
      · exact fun g' _ _ hg => ⟨hg.ends_kept, hg.vertex?_mono⟩
      · exact fun g' o hg => hg.trans (g'.grows_registerOccurrence o)
    cases call with
    | addEdge d r => cases hcall
    | addConstraint c r => cases hcall
    | _ => exact ⟨hgrows, rfl, fun _ hx => absurd hx List.not_mem_nil⟩
  cases call with
  | addEdge d r =>
    simp only [Graph.perform, Graph.inserted, added]
    cases hadd : g.addEdge d r with
    | error e => simp [Graph.insertedAll, hadd, Grows.refl]
    | ok x =>
      have hall : g.addEdges [d] r = .ok x.2 := by simp [Graph.addEdges, hadd, Except.map]
      exact h.insertedAll hall
  | addConstraint c r =>
    simp only [Graph.perform, Graph.inserted, added]
    cases hadd : g.addConstraint c r with
    | error e => simp [Grows.refl]
    | ok g' =>
      obtain ⟨ds, hc, hds⟩ := addConstraint_eq_ok hadd
      rw [hc]
      exact h.insertedAll hds
  | _ => exact absurd rfl hcall

/-- Calls insert what they lower to, and what they inserted stays where it was. -/
theorem Valid.insertions (h : g.Valid) (calls : List (Call w ρ)) : g.Grows (g.run calls) ∧
    (g.insertions calls).map Insertion.entry = g.lowered calls ∧
    ∀ x ∈ g.insertions calls, (g.run calls).LiesIn x := by
  induction calls generalizing g with
  | nil => exact ⟨.refl g, rfl, fun _ hx => absurd hx List.not_mem_nil⟩
  | cons call calls ih =>
    obtain ⟨hgrows, hmap, hlies⟩ := h.inserted call
    obtain ⟨hgrows', hmap', hlies'⟩ := ih (h.perform call).1
    refine ⟨hgrows.trans hgrows', ?_, ?_⟩
    · rw [Graph.insertions, List.map_append, hmap, hmap', lowered]
    · rw [Graph.insertions, List.forall_mem_append]
      exact ⟨fun x hx => (hlies x hx).mono hgrows', hlies'⟩

/-- Insertions between two occurrences return the position of the one edge that joins them. -/
theorem Valid.position_eq (h : g.Valid) {x : Insertion w ρ} (hx : g.LiesIn x)
    (hbetween : x.between a b = true) {i : Nat} {e : Edge w ρ} (he : g.edges[i]? = some e)
    (hjoins : g.Joins e a b) : i = x.position := by
  obtain ⟨rfl, rfl⟩ := of_decide_eq_true hbetween
  obtain ⟨s, t, hs, ht, hi⟩ := hx
  have hends : g.ends[i]? = some (s, t) := by
    rw [getElem?_ends, he, Option.map_some, Option.some.inj (hs.symm.trans hjoins.1),
      Option.some.inj (ht.symm.trans hjoins.2)]
  have hlt : i < g.ends.length := (List.getElem?_eq_some_iff.1 hends).1
  exact (List.getElem?_inj hlt h.distinct).1 (hends.trans hi.symm)

/-! ### The first least insertion -/

/-- A bound tightened by insertions one after the other has the weight and the reason of the first
least of them. -/
theorem foldl_tighter (best : Insertion w ρ) (xs : List (Insertion w ρ)) :
    xs.foldl (fun bound x => tighter bound (x.difference.weight, x.reason))
        (some (best.difference.weight, best.reason)) =
      let least := xs.foldl (fun best x =>
        if x.difference.weight.val < best.difference.weight.val then x else best) best
      some (least.difference.weight, least.reason) := by
  induction xs generalizing best with
  | nil => rfl
  | cons x xs ih =>
    rw [List.foldl_cons, List.foldl_cons]
    simp only [tighter, Weight.lt_iff]
    split
    · exact ih x
    · exact ih best

/-- Only the insertions between two occurrences tighten their bound. -/
theorem bound?_eq_foldl_tighter (calls : List (Call w ρ)) (a b : Occurrence) :
    (ofCalls calls).bound? a b = ((empty.insertions calls).filter (·.between a b)).foldl
      (fun bound x => tighter bound (x.difference.weight, x.reason)) none := by
  rw [bound?_ofCalls, ← (valid_empty.insertions calls).2.1, List.foldl_map, List.foldl_filter]
  congr 1
  funext bound x
  by_cases hx : x.between a b = true
  · rw [if_pos hx]
    exact if_pos (of_decide_eq_true hx)
  · rw [if_neg hx]
    exact if_neg fun h => hx (decide_eq_true h)

/-- The bound between two occurrences is the first least insertion between them. -/
theorem exists_bound?_of_insertions {calls : List (Call w ρ)} {first : Insertion w ρ}
    {rest : List (Insertion w ρ)}
    (h : (empty.insertions calls).filter (·.between a b) = first :: rest) :
    ∃ best, FirstLeast (fun x => x.difference.weight.val) (first :: rest) best ∧
      (ofCalls calls).bound? a b = some (best.difference.weight, best.reason) := by
  refine ⟨_, firstLeast_foldl (fun x => x.difference.weight.val) first rest, ?_⟩
  rw [bound?_eq_foldl_tighter, h, List.foldl_cons]
  exact foldl_tighter first rest

/-! ### Orders of assertions -/

/-- Only which occurrences have vertices decides what a call adds. -/
theorem added_congr (h : ∀ o, g'.vertex? o = g.vertex? o) (call : Call w ρ) :
    g'.added call = g.added call := by
  have hregistered : ∀ o, g'.Registered o ↔ g.Registered o := by
    intro o
    simp only [Registered, h]
  cases call with
  | addEdge d r =>
    have hok : (∃ x, g'.addEdge d r = .ok x) ↔ ∃ x, g.addEdge d r = .ok x := by
      simp only [exists_addEdge_eq_ok_iff, hregistered]
    simp only [added]
    cases hadd : g.addEdge d r <;> cases hadd' : g'.addEdge d r <;> simp_all
  | addConstraint c r =>
    have hok : (∃ x, g'.addConstraint c r = .ok x) ↔ ∃ x, g.addConstraint c r = .ok x := by
      simp only [exists_addConstraint_eq_ok_iff, hregistered]
    simp only [added]
    cases hadd : g.addConstraint c r <;> cases hadd' : g'.addConstraint c r <;> simp_all
    cases c.differences <;> rfl
  | _ => rfl

/-- What assertions add does not depend on each other. -/
theorem lowered_eq_flatMap {calls : List (Call w ρ)} (hcalls : ∀ call ∈ calls, ¬call.registers) :
    g.lowered calls = calls.flatMap g.added := by
  induction calls generalizing g with
  | nil => rfl
  | cons call calls ih =>
    rw [List.forall_mem_cons] at hcalls
    rw [lowered, ih hcalls.2, List.flatMap_cons]
    exact congrArg _ (List.flatMap_congr fun c _ => added_congr (vertex?_perform hcalls.1) c)

theorem vertex?_run {calls : List (Call w ρ)} (hcalls : ∀ call ∈ calls, ¬call.registers)
    (o : Occurrence) : (g.run calls).vertex? o = g.vertex? o := by
  induction calls generalizing g with
  | nil => rfl
  | cons call calls ih =>
    rw [List.forall_mem_cons] at hcalls
    exact (ih hcalls.2).trans (vertex?_perform hcalls.1 o)

/-- Differences leave a bound that is no looser than what some of them leave. -/
theorem exists_foldl_tightenBy_of_subset {xs ys : List (Difference w × ρ)} (hsub : xs ⊆ ys)
    {bound : Option (Weight w × ρ)} {x : Weight w × ρ}
    (hx : xs.foldl (tightenBy a b) bound = some x) :
    ∃ y, ys.foldl (tightenBy a b) bound = some y ∧ y.1.val ≤ x.1.val := by
  obtain ⟨k, r⟩ := x
  refine exists_foldl_tightenBy_le ?_
  rcases foldl_tightenBy_eq_some hx with hbound | hmem
  · exact .inl ⟨_, hbound, le_rfl⟩
  · exact .inr ⟨_, hsub hmem, rfl⟩

/-- Of two graphs with the same vertices each has edges that are no heavier than those of the other
if its bounds are no looser. -/
theorem Valid.exists_edgeBetween_le (h : g.Valid) (h' : g'.Valid)
    (hvertex : ∀ o, g'.vertex? o = g.vertex? o)
    (hbound : ∀ a b x, g.bound? a b = some x → ∃ y, g'.bound? a b = some y ∧ y.1.val ≤ x.1.val)
    {e : Edge w ρ} (he : g.edgeBetween s t = some e) :
    ∃ e', g'.edgeBetween s t = some e' ∧ e'.weight.val ≤ e.weight.val := by
  obtain ⟨hmem, rfl, rfl⟩ := h.edgeBetween_eq_some_iff.1 he
  have hends : (e.source, e.target) ∈ g.ends := mem_ends.2 ⟨e, hmem, rfl, rfl⟩
  by_cases hs : e.source = root
  · -- no bound stands for an edge that leaves the root, but its target is a vertex in both graphs
    obtain ⟨o, ho⟩ := h.exists_occurrence (h.target_ne_root _ hends) (h.ends_lt _ hends).2
    rw [← hvertex] at ho
    obtain ⟨hne, hlt⟩ := h'.vertex?_lt ho
    obtain ⟨e', hmem', hs', ht'⟩ := mem_ends.1 (h'.root_mem_ends _ hne hlt)
    refine ⟨e', h'.edgeBetween_eq_some_iff.2 ⟨hmem', hs'.trans hs.symm, ht'⟩, ?_⟩
    rw [h.weight_eq_zero e hmem hs, h'.weight_eq_zero e' hmem' hs']
  · obtain ⟨a, b, r, ha, hb, -, hab⟩ := h.exists_bound? hmem hs
    obtain ⟨⟨k, r'⟩, hab', hle⟩ := hbound a b _ hab
    obtain ⟨e', hmem', ha', hb', rfl, -⟩ := h'.bound?_eq_some_iff.1 hab'
    rw [hvertex] at ha' hb'
    refine ⟨e', h'.edgeBetween_eq_some_iff.2 ⟨hmem', ?_, ?_⟩, hle⟩
    · exact Option.some.inj (ha'.symm.trans ha)
    · exact Option.some.inj (hb'.symm.trans hb)

/-- Assertions in whatever order leave edges of the same weights. -/
theorem Valid.map_weight_edgeBetween_perm (h : g.Valid) {more more' : List (Call w ρ)}
    (hmore : ∀ call ∈ more, ¬call.registers) (hperm : more.Perm more') (s t : Vertex) :
    ((g.run more).edgeBetween s t).map Edge.weight =
      ((g.run more').edgeBetween s t).map Edge.weight := by
  -- one side is shown for any two orders, so it can be used both ways
  have hle : ∀ {xs ys : List (Call w ρ)}, (∀ call ∈ xs, ¬call.registers) → xs.Perm ys → ∀ e,
      (g.run xs).edgeBetween s t = some e →
      ∃ e', (g.run ys).edgeBetween s t = some e' ∧ e'.weight.val ≤ e.weight.val := by
    intro xs ys hxs hxy e he
    have hys : ∀ call ∈ ys, ¬call.registers := fun call hc => hxs call (hxy.mem_iff.2 hc)
    obtain ⟨hv, hbound⟩ := h.run xs
    obtain ⟨hv', hbound'⟩ := h.run ys
    refine hv.exists_edgeBetween_le hv' (fun o => ?_) (fun a b x hx => ?_) he
    · rw [vertex?_run hxs, vertex?_run hys]
    · rw [hbound, lowered_eq_flatMap hxs] at hx
      rw [hbound', lowered_eq_flatMap hys]
      exact exists_foldl_tightenBy_of_subset (hxy.flatMap_right g.added).subset hx
  have hmore' : ∀ call ∈ more', ¬call.registers := fun call hc => hmore call (hperm.mem_iff.2 hc)
  cases he : (g.run more).edgeBetween s t with
  | none =>
    cases he' : (g.run more').edgeBetween s t with
    | none => rfl
    | some e' =>
      obtain ⟨e, hsome, -⟩ := hle hmore' hperm.symm e' he'
      rw [he] at hsome
      cases hsome
  | some e =>
    obtain ⟨e', he', hlower⟩ := hle hmore hperm e he
    obtain ⟨_, hsome, hupper⟩ := hle hmore' hperm.symm e' he'
    obtain rfl := Option.some.inj (he.symm.trans hsome)
    rw [he', Option.map_some, Option.map_some, Weight.ext (hupper.antisymm hlower)]

/-! ### Merged edges -/

/-- What the graph shows between `a` and `b` after insertions between them: no edge if there are
none, else one edge, at the position that all of them returned, with the weight and the reason of
the first least of them. -/
def MergedInto (g : Graph w ρ) (a b : Occurrence) : List (Insertion w ρ) → Prop
  | [] => ∀ e ∈ g.edges.toList, ¬g.Joins e a b
  | first :: rest => ∃ e best, g.edges[first.position]? = some e ∧ g.Joins e a b ∧
      (∀ i e', g.edges[i]? = some e' → g.Joins e' a b → i = first.position) ∧
      (∀ x ∈ rest, x.position = first.position) ∧
      FirstLeast (fun x => x.difference.weight.val) (first :: rest) best ∧
      e.weight = best.difference.weight ∧ g.reasons e.source e.target = [best.reason]

theorem mergedInto_ofCalls (calls : List (Call w ρ)) (a b : Occurrence) :
    (ofCalls calls).MergedInto a b ((empty.insertions calls).filter (·.between a b)) := by
  have h := valid_ofCalls calls
  have hlies : ∀ x ∈ (empty.insertions calls).filter (·.between a b),
      (ofCalls calls).LiesIn x ∧ x.between a b = true := by
    intro x hx
    obtain ⟨hmem, hbetween⟩ := List.mem_filter.1 hx
    exact ⟨(valid_empty.insertions calls).2.2 x hmem, hbetween⟩
  have hbound := bound?_eq_foldl_tighter calls a b
  cases hxs : (empty.insertions calls).filter (·.between a b) with
  | nil =>
    intro e he hjoins
    obtain ⟨r, hr⟩ := h.exists_reason_eq_some he (h.vertex?_lt hjoins.1).1
    rw [hxs, h.bound?_eq_some_iff.2 ⟨e, he, hjoins.1, hjoins.2, rfl, hr⟩] at hbound
    cases hbound
  | cons first rest =>
    rw [hxs, List.forall_mem_cons] at hlies
    obtain ⟨⟨hfirst, hbetween⟩, hrest⟩ := hlies
    obtain ⟨best, hbest, hbound⟩ := exists_bound?_of_insertions hxs
    obtain ⟨e, he, hjoins, hweight, hreasons⟩ := h.hasEdge_iff.2 ⟨_, rfl, hbound⟩
    obtain ⟨i, hi⟩ := List.mem_iff_getElem?.1 he
    rw [Array.getElem?_toList] at hi
    obtain rfl := h.position_eq hfirst hbetween hi hjoins
    refine ⟨e, best, hi, hjoins, ?_, ?_, hbest, hweight, hreasons⟩
    · exact fun j e' hj hjoins' => h.position_eq hfirst hbetween hj hjoins'
    · exact fun x hx => (h.position_eq (hrest x hx).1 (hrest x hx).2 hi hjoins).symm

/-- Whatever calls have built a graph, all that they inserted between two occurrences is merged into
one edge, the first least of it; no edge has moved since it was made; and further assertions in
another order would leave every edge its weight. -/
theorem parallel_edges_merge (calls : List (Call w ρ)) :
    (∀ a b, (ofCalls calls).MergedInto a b
      ((empty.insertions calls).filter (·.between a b))) ∧
    (∀ before after, calls = before ++ after → ∀ (i : Nat) (e : Edge w ρ),
      (ofCalls before).edges[i]? = some e → ∃ e', (ofCalls calls).edges[i]? = some e' ∧
        e'.source = e.source ∧ e'.target = e.target) ∧
    ∀ more more' : List (Call w ρ), (∀ call ∈ more, ¬call.registers) → more.Perm more' →
      ∀ s t, ((ofCalls (calls ++ more)).edgeBetween s t).map Edge.weight =
        ((ofCalls (calls ++ more')).edgeBetween s t).map Edge.weight := by
  refine ⟨mergedInto_ofCalls calls, ?_, ?_⟩
  · rintro before after rfl i e he
    obtain ⟨hgrows, -, -⟩ := (valid_ofCalls before).insertions after
    have hends : (ofCalls before).ends[i]? = some (e.source, e.target) := by
      rw [getElem?_ends, he, Option.map_some]
    have hlater := hgrows.getElem?_ends hends
    rw [getElem?_ends, ← ofCalls_append] at hlater
    obtain ⟨e', he', heq⟩ := Option.map_eq_some_iff.1 hlater
    exact ⟨e', he', Prod.mk.inj heq⟩
  · intro more more' hmore hperm s t
    rw [ofCalls_append, ofCalls_append]
    exact (valid_ofCalls calls).map_weight_edgeBetween_perm hmore hperm s t

/-- Four insertions from `x` to `y`, the second by way of `y - x ≤ 1`: it and the third are least,
the others have weight 2. -/
def tiedEdges : List (Call .bits8 Nat) :=
  [.addEdge ⟨⟨⟨0⟩, .positive⟩, ⟨⟨1⟩, .positive⟩, (Weight.ofInt? 2).getD 0⟩ 1,
    .addConstraint (.difference ⟨1⟩ ⟨0⟩ ((Weight.ofInt? 1).getD 0)) 2,
    .addEdge ⟨⟨⟨0⟩, .positive⟩, ⟨⟨1⟩, .positive⟩, (Weight.ofInt? 1).getD 0⟩ 3,
    .addEdge ⟨⟨⟨0⟩, .positive⟩, ⟨⟨1⟩, .positive⟩, (Weight.ofInt? 2).getD 0⟩ 4]

theorem parallel_edges_merge_tiedEdges :
    let calls : List (Call .bits8 Nat) := [.newVariable, .newVariable]
    let a : Occurrence := ⟨⟨0⟩, .positive⟩
    let b : Occurrence := ⟨⟨1⟩, .positive⟩
    ((empty.insertions (calls ++ tiedEdges)).filter (·.between a b)).map
      (fun x => (x.reason, x.position)) = [(1, 4), (2, 4), (3, 4), (4, 4)] ∧
    (ofCalls (calls ++ tiedEdges)).MergedInto a b
      ((empty.insertions (calls ++ tiedEdges)).filter (·.between a b)) ∧
    (ofCalls (calls ++ tiedEdges)).HasEdge a b ((Weight.ofInt? 1).getD 0) [2] ∧
    ∀ s t, ((ofCalls (calls ++ tiedEdges)).edgeBetween s t).map Edge.weight =
      ((ofCalls (calls ++ tiedEdges.reverse)).edgeBetween s t).map Edge.weight := by
  intro calls a b
  have hasserts : ∀ call ∈ tiedEdges, ¬call.registers := by decide
  refine ⟨by decide +kernel, (parallel_edges_merge _).1 a b, ?_, ?_⟩
  · exact (valid_ofCalls _).hasEdge_iff.2 ⟨2, rfl, by decide +kernel⟩
  · exact (parallel_edges_merge calls).2.2 _ _ hasserts tiedEdges.reverse_perm.symm

end Graph

end Octagon

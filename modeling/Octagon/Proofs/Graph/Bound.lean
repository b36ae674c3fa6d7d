import Octagon.Proofs.Graph.Valid

/-!
Bounds: what a graph knows about the difference of two occurrences, the weight and the reason of
their edge. To register an occurrence changes no bound; to connect two occurrences changes theirs
alone, and only to a smaller weight.
-/

namespace Octagon.Graph

variable {w : Width} {ρ : Type}

/-- The weight and the reason of the edge between two occurrences. -/
def bound? (g : Graph w ρ) (a b : Occurrence) : Option (Weight w × ρ) := do
  let source ← g.vertex? a
  let target ← g.vertex? b
  let e ← g.edgeBetween source target
  return (e.weight, ← e.reason)

/-- The bound with the smaller weight, the old one where the weights are equal. -/
def tighter : Option (Weight w × ρ) → Weight w × ρ → Option (Weight w × ρ)
  | none, new => some new
  | some old, new => if new.1 < old.1 then some new else some old

/-- The bound between `a` and `b` once a difference is asserted for a reason. -/
def tightenBy (a b : Occurrence) (bound : Option (Weight w × ρ)) (x : Difference w × ρ) :
    Option (Weight w × ρ) :=
  if a = x.1.source ∧ b = x.1.target then tighter bound (x.1.weight, x.2) else bound

variable {g : Graph w ρ} {s t : Vertex} {k : Weight w} {r : ρ} {a b : Occurrence}

/-- A bound is what an edge with a reason says. -/
theorem Valid.bound?_eq_some_iff (h : g.Valid) : g.bound? a b = some (k, r) ↔
    ∃ e ∈ g.edges.toList, g.vertex? a = some e.source ∧ g.vertex? b = some e.target ∧
      e.weight = k ∧ e.reason = some r := by
  simp only [bound?, Option.bind_eq_bind, Option.bind_eq_some_iff, h.edgeBetween_eq_some_iff,
    Option.pure_def, Option.some.injEq, Prod.mk.injEq]
  constructor
  · rintro ⟨s, hs, t, ht, e, ⟨he, rfl, rfl⟩, r', hr, hk, rfl⟩
    exact ⟨e, he, hs, ht, hk, hr⟩
  · rintro ⟨e, he, hs, ht, hk, hr⟩
    exact ⟨e.source, hs, e.target, ht, e, ⟨he, rfl, rfl⟩, r, hr, hk, rfl⟩

/-- Every edge that does not leave the root is a bound between two occurrences. -/
theorem Valid.exists_bound? (h : g.Valid) {e : Edge w ρ} (he : e ∈ g.edges.toList)
    (hs : e.source ≠ root) : ∃ a b r, g.vertex? a = some e.source ∧ g.vertex? b = some e.target ∧
      e.reason = some r ∧ g.bound? a b = some (e.weight, r) := by
  have hends : (e.source, e.target) ∈ g.ends := mem_ends.2 ⟨e, he, rfl, rfl⟩
  obtain ⟨a, ha⟩ := h.exists_occurrence hs (h.ends_lt _ hends).1
  obtain ⟨b, hb⟩ := h.exists_occurrence (h.target_ne_root _ hends) (h.ends_lt _ hends).2
  obtain ⟨r, hr⟩ := Option.ne_none_iff_exists'.1 fun hn => hs ((h.reason_eq_none e he).1 hn)
  exact ⟨a, b, r, ha, hb, hr, h.bound?_eq_some_iff.2 ⟨e, he, ha, hb, rfl, hr⟩⟩

/-- To register an occurrence changes no bound. -/
theorem Valid.bound?_register (h : g.Valid) {o : Occurrence} (ho : g.vertex? o = none) :
    (g.registerOccurrence o).2.bound? a b = g.bound? a b := by
  refine Option.ext fun x => ?_
  obtain ⟨k, r⟩ := x
  rw [h.bound?_eq_some_iff, (h.register ho).bound?_eq_some_iff]
  constructor
  · rintro ⟨e, he, ha, hb, hk, hr⟩
    rw [edges_registerOccurrence ho] at he
    rcases List.mem_append.1 he with he | he
    · have hends := h.ends_lt _ (mem_ends.2 ⟨e, he, rfl, rfl⟩)
      rw [vertex?_registerOccurrence ho] at ha hb
      refine ⟨e, he, ?_, ?_, hk, hr⟩
      · split at ha
        · exact absurd (Option.some.inj ha) hends.1.ne'
        · exact ha
      · split at hb
        · exact absurd (Option.some.inj hb) hends.2.ne'
        · exact hb
    · obtain rfl : e = ⟨root, g.numVertices, 0, none⟩ := by simpa using he
      cases hr
  · rintro ⟨e, he, ha, hb, hk, hr⟩
    have hne : ∀ {p : Occurrence} {v : Vertex}, g.vertex? p = some v → o ≠ p := by
      rintro p v hp rfl
      rw [ho] at hp
      cases hp
    refine ⟨e, ?_, ?_, ?_, hk, hr⟩
    · rw [edges_registerOccurrence ho]
      exact List.mem_append_left _ he
    · rw [vertex?_registerOccurrence ho, if_neg (hne ha), ha]
    · rw [vertex?_registerOccurrence ho, if_neg (hne hb), hb]

/-! ### Connecting -/

theorem vertex?_connect (g : Graph w ρ) (s t : Vertex) (k : Weight w) (r : ρ) (o : Occurrence) :
    (g.connect s t k r).2.vertex? o = g.vertex? o := by
  unfold connect
  split
  · split <;> rfl
  · rfl

/-- To connect two vertices changes no other edge. -/
theorem Valid.mem_edges_connect (h : g.Valid) {e : Edge w ρ}
    (hne : (e.source, e.target) ≠ (s, t)) :
    e ∈ (g.connect s t k r).2.edges.toList ↔ e ∈ g.edges.toList := by
  cases hid : g.edgeId? s t with
  | none =>
    rw [(connect_of_none hid).1, List.mem_append, List.mem_singleton]
    refine or_iff_left ?_
    rintro rfl
    exact hne rfl
  | some i =>
    have hi := h.edgeId?_eq_some_iff.1 hid
    simp only [Graph.connect, hid]
    split
    · constructor
      · intro he
        rcases mem_edges_reweigh hi he with he | rfl
        · exact he
        · exact absurd rfl hne
      · intro he
        obtain ⟨j, hj⟩ := List.mem_iff_getElem?.1 he
        rw [Array.getElem?_toList] at hj
        refine List.mem_iff_getElem?.2 ⟨j, ?_⟩
        rw [Array.getElem?_toList, edges_reweigh, if_neg, hj]
        rintro rfl
        rw [getElem?_ends, hj, Option.map_some, Option.some.injEq] at hi
        exact hne hi
    · rfl

/-- Two vertices that are connected have the edge with the smaller weight. -/
theorem Valid.edgeBetween_connect (h : g.Valid) (hs : s ≠ root ∧ s < g.numVertices)
    (ht : t ≠ root ∧ t < g.numVertices) : (g.connect s t k r).2.edgeBetween s t =
      match g.edgeBetween s t with
      | none => some ⟨s, t, k, some r⟩
      | some e => if k < e.weight then some ⟨s, t, k, some r⟩ else some e := by
  have hvalid := h.connect hs ht (k := k) (r := r)
  cases hid : g.edgeId? s t with
  | none =>
    have hnone : g.edgeBetween s t = none := by rw [edgeBetween, hid, Option.bind_none]
    rw [hnone, hvalid.edgeBetween_eq_some_iff, (connect_of_none hid).1]
    simp
  | some i =>
    have hi := h.edgeId?_eq_some_iff.1 hid
    rw [getElem?_ends] at hi
    obtain ⟨e, he, hends⟩ := Option.map_eq_some_iff.1 hi
    obtain ⟨rfl, rfl⟩ := Prod.mk.inj hends
    have hsome : g.edgeBetween e.source e.target = some e := by
      rw [edgeBetween, hid, Option.bind_some, he]
    have himproves : g.improves i k = decide (k < e.weight) := by rw [improves, he, Option.any_some]
    rw [hsome]
    dsimp only
    split
    · rename_i hlt
      rw [hvalid.edgeBetween_eq_some_iff]
      refine ⟨List.mem_iff_getElem?.2 ⟨i, ?_⟩, rfl, rfl⟩
      have hconn : (g.connect e.source e.target k r).2 = g.reweigh i k r := by
        simp [Graph.connect, hid, himproves, hlt]
      rw [hconn, Array.getElem?_toList, edges_reweigh, if_pos rfl, he, Option.map_some]
    · rename_i hlt
      have hconn : (g.connect e.source e.target k r).2 = g := by
        simp [Graph.connect, hid, himproves, hlt]
      rw [hconn, hsome]

/-- To connect the vertices of two occurrences tightens their bound and no other. -/
theorem Valid.bound?_connect (h : g.Valid) {p q : Occurrence} (hs : g.vertex? p = some s)
    (ht : g.vertex? q = some t) : (g.connect s t k r).2.bound? a b =
      if a = p ∧ b = q then tighter (g.bound? a b) (k, r) else g.bound? a b := by
  have hvalid := h.connect (h.vertex?_lt hs) (h.vertex?_lt ht) (k := k) (r := r)
  by_cases hab : a = p ∧ b = q
  · obtain ⟨rfl, rfl⟩ := hab
    have hself := h.edgeBetween_connect (h.vertex?_lt hs) (h.vertex?_lt ht) (k := k) (r := r)
    rw [if_pos ⟨rfl, rfl⟩]
    simp only [bound?, vertex?_connect, hs, ht, Option.bind_eq_bind, Option.bind_some, hself]
    cases he : g.edgeBetween s t with
    | none => rfl
    | some e =>
      obtain ⟨hmem, rfl, rfl⟩ := h.edgeBetween_eq_some_iff.1 he
      have hreason : e.reason ≠ none := fun hn =>
        (h.vertex?_lt hs).1 ((h.reason_eq_none e hmem).1 hn)
      obtain ⟨r', hr'⟩ := Option.ne_none_iff_exists'.1 hreason
      by_cases hlt : k < e.weight
      · simp [hlt, hr', tighter]
      · simp [hlt, hr', tighter]
  · rw [if_neg hab]
    refine Option.ext fun x => ?_
    obtain ⟨k', r'⟩ := x
    rw [h.bound?_eq_some_iff, hvalid.bound?_eq_some_iff]
    refine exists_congr fun e => ?_
    simp only [vertex?_connect]
    refine and_congr_left fun ⟨ha, hb, _⟩ => h.mem_edges_connect fun hends => hab ?_
    obtain ⟨rfl, rfl⟩ := Prod.mk.inj hends
    exact ⟨h.vertex?_inj ha hs, h.vertex?_inj hb ht⟩

/-! ### Asserting differences -/

/-- To assert a difference is to connect the vertices of its ends. -/
theorem addEdge_eq_ok_iff {d : Difference w} {x : Nat × Graph w ρ} : g.addEdge d r = .ok x ↔
    ∃ s t, g.vertex? d.source = some s ∧ g.vertex? d.target = some t ∧
      g.connect s t d.weight r = x := by
  unfold addEdge
  cases g.vertex? d.source with
  | none => simp
  | some s => cases g.vertex? d.target <;> simp

/-- An accepted difference tightens the bound between its ends, and no other. -/
theorem Valid.addEdge (h : g.Valid) {d : Difference w} {i : Nat} {g' : Graph w ρ}
    (hadd : g.addEdge d r = .ok (i, g')) : g'.Valid ∧ (∀ o, g'.vertex? o = g.vertex? o) ∧
      ∀ a b, g'.bound? a b = tightenBy a b (g.bound? a b) (d, r) := by
  obtain ⟨s, t, hs, ht, hconnect⟩ := addEdge_eq_ok_iff.1 hadd
  obtain rfl : (g.connect s t d.weight r).2 = g' := congrArg Prod.snd hconnect
  exact ⟨h.connect (h.vertex?_lt hs) (h.vertex?_lt ht), vertex?_connect g s t d.weight r,
    fun a b => h.bound?_connect hs ht⟩

/-- Accepted differences tighten the bounds between their ends one after the other. -/
theorem Valid.addEdges : ∀ {ds : List (Difference w)} {g g' : Graph w ρ}, g.Valid →
    g.addEdges ds r = .ok g' → g'.Valid ∧ (∀ o, g'.vertex? o = g.vertex? o) ∧
      ∀ a b, g'.bound? a b = (ds.map (·, r)).foldl (tightenBy a b) (g.bound? a b)
  | [], g, g', h, hadd => by
      obtain rfl : g = g' := Except.ok.inj hadd
      exact ⟨h, fun _ => rfl, fun _ _ => rfl⟩
  | d :: ds, g, g', h, hadd => by
      unfold Graph.addEdges at hadd
      rw [List.foldlM_cons] at hadd
      cases hd : g.addEdge d r with
      | error e => rw [hd] at hadd; cases hadd
      | ok x =>
        obtain ⟨i, next⟩ := x
        rw [hd] at hadd
        have hrest : next.addEdges ds r = .ok g' := hadd
        obtain ⟨hv, hvertex, hbound⟩ := h.addEdge hd
        obtain ⟨hv', hvertex', hbound'⟩ := hv.addEdges hrest
        refine ⟨hv', fun o => (hvertex' o).trans (hvertex o), fun a b => ?_⟩
        rw [hbound', hbound]
        rfl

end Octagon.Graph

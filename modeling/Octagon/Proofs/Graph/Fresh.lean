import Octagon.Proofs.Graph.Refusal
import Octagon.Proofs.Graph.Representation

/-!
New variables are new. The counter is ahead of every number that was registered, whoever chose it,
and no further ahead than it has to be: the number before it is in use. Numbers have 32 bits and the
counter has more, so this ends with the last of them. Until then a new variable gets the smallest
number above all others, and to register its two occurrences changes nothing that was there before.
-/

namespace Octagon.Graph

variable {w : Width} {ρ : Type}

/-- The counter is ahead of all registered numbers, by no more than it needs to be. -/
structure Counted (g : Graph w ρ) : Prop where
  id_lt : ∀ o v, g.vertex? o = some v → o.var.id.toNat < g.numVariables
  /-- Unless the numbers are used up, the last one that was passed is registered. -/
  exists_last : g.numVariables ≠ 0 → g.numVariables < UInt32.size →
    ∃ o v, g.vertex? o = some v ∧ g.numVariables = o.var.id.toNat + 1

/-- Of the variable `x` nothing was registered, and after that its two occurrences are, each with a
vertex and an edge from the root, and nothing else is changed. -/
structure AddsVariable (g : Graph w ρ) (x : Variable) (g' : Graph w ρ) : Prop where
  positive_new : g.vertex? x.positive = none
  negative_new : g.vertex? x.negative = none
  occurrences_eq : g'.occurrences = (g.occurrences.push x.positive).push x.negative
  edges_eq : g'.edges = (g.edges.push ⟨root, g.numVertices, 0, none⟩).push
    ⟨root, g.numVertices + 1, 0, none⟩
  vertex?_eq : ∀ o, g'.vertex? o = if o = x.positive then some g.numVertices
    else if o = x.negative then some (g.numVertices + 1) else g.vertex? o
  edgeId?_mono : ∀ s t i, g.edgeId? s t = some i → g'.edgeId? s t = some i
  reasons_eq : ∀ s t, g'.reasons s t = g.reasons s t
  name?_eq : ∀ y, g'.name? y = g.name? y

variable {g g' : Graph w ρ} {o : Occurrence}

/-! ### Registering -/

section register

variable (ho : g.vertex? o = none)

include ho

theorem numVariables_registerOccurrence : (g.registerOccurrence o).2.numVariables =
    max g.numVariables (o.var.id.toNat + 1) := by
  simp only [registerOccurrence, ho]
  rfl

theorem name?_registerOccurrence (y : Variable) :
    (g.registerOccurrence o).2.name? y = g.name? y := by
  simp only [registerOccurrence, ho]
  rfl

/-- The edge to a new vertex comes after all others and has no reason. -/
theorem Valid.reasons_registerOccurrence (h : g.Valid) (s t : Vertex) :
    (g.registerOccurrence o).2.reasons s t = g.reasons s t := by
  have hvalid := h.register ho
  cases he : g.edgeBetween s t with
  | some e =>
    obtain ⟨hmem, rfl, rfl⟩ := h.edgeBetween_eq_some_iff.1 he
    have hmem' : e ∈ (g.registerOccurrence o).2.edges.toList := by
      rw [edges_registerOccurrence ho]
      exact List.mem_append_left _ hmem
    rw [h.reasons_eq hmem, hvalid.reasons_eq hmem']
  | none =>
    have hnone : g.reasons s t = [] := by rw [reasons, he, Option.bind_none, Option.toList_none]
    rw [hnone]
    cases he' : (g.registerOccurrence o).2.edgeBetween s t with
    | none => rw [reasons, he', Option.bind_none, Option.toList_none]
    | some e =>
      obtain ⟨hmem, rfl, rfl⟩ := hvalid.edgeBetween_eq_some_iff.1 he'
      rw [hvalid.reasons_eq hmem]
      rw [edges_registerOccurrence ho] at hmem
      rcases List.mem_append.1 hmem with hold | hnew
      · cases he.symm.trans (h.edgeBetween_eq_some_iff.2 ⟨hold, rfl, rfl⟩)
      · rw [List.mem_singleton.1 hnew, Option.toList_none]

end register

theorem Counted.registerOccurrence (h : g.Counted) (o : Occurrence) :
    (g.registerOccurrence o).2.Counted := by
  cases ho : g.vertex? o with
  | some v =>
    have hsame : (g.registerOccurrence o).2 = g := by simp [Graph.registerOccurrence, ho]
    rwa [hsame]
  | none =>
    have hcount := numVariables_registerOccurrence ho
    constructor
    case id_lt =>
      intro p v hv
      rw [vertex?_registerOccurrence ho] at hv
      split at hv
      · rename_i hp
        subst hp
        omega
      · have := h.id_lt p v hv
        omega
    case exists_last =>
      intro hne hlt
      rcases Nat.lt_or_ge o.var.id.toNat g.numVariables with hbehind | hahead
      · obtain ⟨p, v, hv, hlast⟩ := h.exists_last (by omega) (by omega)
        refine ⟨p, v, ?_, by omega⟩
        rw [vertex?_registerOccurrence ho, if_neg, hv]
        rintro rfl
        cases ho.symm.trans hv
      · refine ⟨o, g.numVertices, ?_, by omega⟩
        rw [vertex?_registerOccurrence ho, if_pos rfl]

/-! ### New variables -/

section new

variable {x : Variable} (hpos : g.vertex? x.positive = none) (hneg : g.vertex? x.negative = none)

include hpos hneg

theorem vertex?_negative_registerOccurrence :
    (g.registerOccurrence x.positive).2.vertex? x.negative = none := by
  rw [vertex?_registerOccurrence hpos,
    if_neg (by simp [Variable.positive, Variable.negative]), hneg]

theorem numVariables_registerVariable :
    (g.registerVariable x).numVariables = max g.numVariables (x.id.toNat + 1) := by
  have hneg' := vertex?_negative_registerOccurrence hpos hneg
  rw [registerVariable, numVariables_registerOccurrence hneg', numVariables_registerOccurrence hpos]
  exact max_eq_left (le_max_right _ _)

/-- To register a variable of which nothing is registered adds it. -/
theorem Valid.addsVariable (h : g.Valid) : g.AddsVariable x (g.registerVariable x) := by
  have hneg' := vertex?_negative_registerOccurrence hpos hneg
  have hvalid := h.register hpos
  have hgrows := (g.grows_registerOccurrence x.positive).trans
    ((g.registerOccurrence x.positive).2.grows_registerOccurrence x.negative)
  constructor
  case positive_new => exact hpos
  case negative_new => exact hneg
  case occurrences_eq =>
    rw [registerVariable, occurrences_registerOccurrence hneg', occurrences_registerOccurrence hpos]
  case edges_eq =>
    refine Array.toList_inj.1 ?_
    rw [registerVariable, edges_registerOccurrence hneg', edges_registerOccurrence hpos,
      numVertices_registerOccurrence hpos, Array.toList_push, Array.toList_push]
  case vertex?_eq =>
    intro o
    rw [registerVariable, vertex?_registerOccurrence hneg', vertex?_registerOccurrence hpos,
      numVertices_registerOccurrence hpos]
    simp only [@eq_comm _ o]
    split_ifs with hn hp hp
    · cases hp.trans hn.symm
    · rfl
    · rfl
    · rfl
  case edgeId?_mono =>
    intro s t i hi
    exact (hvalid.register hneg').edgeId?_eq_some_iff.2
      (hgrows.getElem?_ends (h.edgeId?_eq_some_iff.1 hi))
  case reasons_eq =>
    intro s t
    rw [registerVariable, hvalid.reasons_registerOccurrence hneg',
      h.reasons_registerOccurrence hpos]
  case name?_eq =>
    intro y
    rw [registerVariable, name?_registerOccurrence hneg', name?_registerOccurrence hpos]

end new

/-- While numbers are left the next variable is new, and takes the counter one further. -/
theorem Counted.addsVariable (h : g.Counted) (hvalid : g.Valid)
    (hlt : g.numVariables < UInt32.size) : g.newVariable.1.id.toNat = g.numVariables ∧
      g.AddsVariable g.newVariable.1 g.newVariable.2 ∧
      g.newVariable.2.numVariables = g.numVariables + 1 := by
  have hid : g.newVariable.1.id.toNat = g.numVariables := UInt32.toNat_ofNat_of_lt hlt
  have hnone : ∀ o : Occurrence, o.var = g.newVariable.1 → g.vertex? o = none := by
    intro o ho
    refine Option.eq_none_iff_forall_ne_some.2 fun v hv => ?_
    have hbehind := h.id_lt o v hv
    rw [ho, hid] at hbehind
    exact lt_irrefl _ hbehind
  have hpos : g.vertex? g.newVariable.1.positive = none := hnone _ rfl
  have hneg : g.vertex? g.newVariable.1.negative = none := hnone _ rfl
  -- the counter moves first, which no other table shows
  let ahead := { g with counter := g.counter.next.2 }
  have hahead : ahead.Valid := (hvalid.extends_relabel g.counter.next.2 g.names).1
  have hadds : ahead.AddsVariable g.newVariable.1 g.newVariable.2 := hahead.addsVariable hpos hneg
  have hnum : g.newVariable.2.numVariables =
      max (g.numVariables + 1) (g.newVariable.1.id.toNat + 1) :=
    numVariables_registerVariable (g := ahead) hpos hneg
  obtain ⟨_, _, hocc, hedges, hvertex, hmono, hreasons, hname⟩ := hadds
  refine ⟨hid, ⟨hpos, hneg, hocc, hedges, hvertex, hmono, hreasons, hname⟩, ?_⟩
  rw [hnum, hid, max_self]

theorem numVariables_le_registerOccurrence (g : Graph w ρ) (o : Occurrence) :
    g.numVariables ≤ (g.registerOccurrence o).2.numVariables := by
  cases ho : g.vertex? o with
  | some v => simp [Graph.registerOccurrence, ho]
  | none =>
    rw [numVariables_registerOccurrence ho]
    exact le_max_left _ _

theorem Counted.newVariable (h : g.Counted) (hvalid : g.Valid) : g.newVariable.2.Counted := by
  rcases Nat.lt_or_ge g.numVariables UInt32.size with hlt | hge
  · obtain ⟨hid, hadds, hnum⟩ := h.addsVariable hvalid hlt
    constructor
    case id_lt =>
      intro o v hv
      rw [hadds.vertex?_eq] at hv
      split_ifs at hv with hp hn
      · rw [hp, hnum, ← hid]
        exact Nat.lt_succ_self _
      · rw [hn, hnum, ← hid]
        exact Nat.lt_succ_self _
      · rw [hnum]
        exact Nat.lt_succ_of_lt (h.id_lt o v hv)
    case exists_last =>
      intro _ _
      refine ⟨g.newVariable.1.positive, g.numVertices, ?_, by rw [hnum, ← hid]; rfl⟩
      rw [hadds.vertex?_eq, if_pos rfl]
  · -- numbers are used up, and all of them are behind the counter
    have hle : g.numVariables + 1 ≤ g.newVariable.2.numVariables :=
      (numVariables_le_registerOccurrence { g with counter := g.counter.next.2 } _).trans
        (numVariables_le_registerOccurrence _ _)
    constructor
    case id_lt =>
      intro o v _
      have := o.var.id.toNat_lt_size
      omega
    case exists_last =>
      intro _ hlt
      omega

/-! ### Asserting -/

/-- To connect two vertices moves no counter. -/
theorem counter_connect (g : Graph w ρ) (s t : Vertex) (k : Weight w) (r : ρ) :
    (g.connect s t k r).2.counter = g.counter := by
  unfold connect
  split
  · split <;> rfl
  · rfl

theorem counter_addEdge {d : Difference w} {r : ρ} {i : Nat} (h : g.addEdge d r = .ok (i, g')) :
    g'.counter = g.counter := by
  obtain ⟨s, t, -, -, hconnect⟩ := addEdge_eq_ok_iff.1 h
  obtain rfl : (g.connect s t d.weight r).2 = g' := congrArg Prod.snd hconnect
  exact counter_connect g s t d.weight r

theorem counter_addEdges {r : ρ} : ∀ {ds : List (Difference w)} {g g' : Graph w ρ},
    g.addEdges ds r = .ok g' → g'.counter = g.counter
  | [], g, g', h => by
      obtain rfl : g = g' := Except.ok.inj h
      rfl
  | d :: ds, g, g', h => by
      unfold addEdges at h
      rw [List.foldlM_cons] at h
      cases hd : g.addEdge d r with
      | error e => rw [hd] at h; cases h
      | ok x =>
        rw [hd] at h
        exact (counter_addEdges h).trans (counter_addEdge hd)

/-- A call that does not register leaves the counter where it is. -/
theorem counter_perform {call : Call w ρ} (hcall : ¬call.registers) :
    (g.perform call).counter = g.counter := by
  cases call with
  | addEdge d r =>
    simp only [perform]
    cases hadd : g.addEdge d r with
    | error e => rfl
    | ok x => exact counter_addEdge hadd
  | addConstraint c r =>
    simp only [perform]
    cases hadd : g.addConstraint c r with
    | error e => rfl
    | ok g' =>
      obtain ⟨ds, -, hds⟩ := addConstraint_eq_ok hadd
      exact counter_addEdges hds
  | _ => exact absurd rfl hcall

/-! ### Histories -/

theorem Counted.perform (h : g.Counted) (hvalid : g.Valid) (call : Call w ρ) :
    (g.perform call).Counted := by
  have hassert : ¬call.registers → (g.perform call).Counted := by
    intro hcall
    have hnum : (g.perform call).numVariables = g.numVariables :=
      congrArg KeyCounter.count (counter_perform hcall)
    constructor
    case id_lt =>
      intro o v hv
      rw [vertex?_perform hcall] at hv
      exact hnum ▸ h.id_lt o v hv
    case exists_last =>
      rw [hnum]
      simpa only [vertex?_perform hcall] using h.exists_last
  cases call with
  | newVariable => exact h.newVariable hvalid
  | newNamedVariable name =>
    obtain ⟨hid, hlast⟩ := h.newVariable hvalid
    exact ⟨hid, hlast⟩
  | registerVariable x => exact (h.registerOccurrence _).registerOccurrence _
  | registerOccurrence o => exact h.registerOccurrence o
  | addEdge d r => exact hassert nofun
  | addConstraint c r => exact hassert nofun

theorem Counted.run (h : g.Counted) (hvalid : g.Valid) (calls : List (Call w ρ)) :
    (g.run calls).Counted := by
  induction calls generalizing g with
  | nil => exact h
  | cons call calls ih => exact ih (h.perform hvalid call) (hvalid.perform call).1

theorem counted_empty : (empty : Graph w ρ).Counted :=
  ⟨fun o v hv => by simp [empty, vertex?] at hv, fun hne => absurd rfl hne⟩

/-- Whatever calls build a graph, its counter is ahead of every registered number. While numbers are
left it is one ahead of the largest, or at 0 where there is none; the next variable gets the number
it is at, nothing of this variable was registered, and it is added without a change to what is
there. -/
theorem newVariable_fresh (calls : List (Call w ρ)) :
    (∀ o v, (ofCalls calls).vertex? o = some v →
      o.var.id.toNat < (ofCalls calls).numVariables) ∧
    ((ofCalls calls).numVariables < UInt32.size →
      ((∀ o, (ofCalls calls).vertex? o = none) ∧ (ofCalls calls).numVariables = 0 ∨
        ∃ o v, (ofCalls calls).vertex? o = some v ∧
          (ofCalls calls).numVariables = o.var.id.toNat + 1) ∧
      (ofCalls calls).newVariable.1.id.toNat = (ofCalls calls).numVariables ∧
      (ofCalls calls).AddsVariable (ofCalls calls).newVariable.1
        (ofCalls calls).newVariable.2) := by
  have h := counted_empty.run valid_empty calls
  refine ⟨h.id_lt, fun hlt => ?_⟩
  obtain ⟨hid, hadds, -⟩ := h.addsVariable (valid_ofCalls calls) hlt
  refine ⟨?_, hid, hadds⟩
  by_cases hzero : (ofCalls calls).numVariables = 0
  · refine .inl ⟨fun o => Option.eq_none_iff_forall_ne_some.2 fun v hv => ?_, hzero⟩
    exact absurd (h.id_lt o v hv) (hzero ▸ Nat.not_lt_zero _)
  · exact .inr (h.exists_last hzero hlt)

/-- The negative occurrence of variable 4, and after it the positive one of variable 1. -/
def halfRegistered : List (Call .bits8 Nat) :=
  [.registerOccurrence ⟨⟨4⟩, .negative⟩, .registerOccurrence ⟨⟨1⟩, .positive⟩]

theorem newVariable_fresh_halfRegistered :
    (ofCalls halfRegistered).numVariables < UInt32.size ∧
    (ofCalls halfRegistered).AddsVariable ⟨5⟩ (ofCalls (halfRegistered ++ [.newVariable])) := by
  have hlt : (ofCalls halfRegistered).numVariables < UInt32.size := by decide +kernel
  obtain ⟨-, -, hadds⟩ := (newVariable_fresh halfRegistered).2 hlt
  have hnext : (ofCalls halfRegistered).newVariable.1 = ⟨5⟩ := by decide +kernel
  rw [hnext] at hadds
  exact ⟨hlt, hadds⟩

/-- After the last number the counter goes on, and numbers start again. -/
example : (ofCalls ([.registerVariable ⟨4294967295⟩] : List (Call .bits8 Nat))).numVariables =
      UInt32.size ∧
    (ofCalls ([.registerVariable ⟨4294967295⟩] : List (Call .bits8 Nat))).newVariable.1 = ⟨0⟩ := by
  decide +kernel

end Octagon.Graph

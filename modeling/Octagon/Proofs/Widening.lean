import Octagon.Proofs.Tightens

/-!
Wider weights change no answer. The same calls with the same weights build the same graph, whatever
the width, and a graph embeds in the one with wider weights. So an answer stays the answer unless it
is a negative cycle. That may have shown where a path got too short for the narrow width; the wider
one lets the search go on, to the same kind of conflict or to a path too short for the wider width.
-/

namespace Octagon

variable {w w' : Width} {ρ : Type}

/-! ### Calls -/

/-- The difference with a wider weight. -/
def Difference.widen (h : w.bits ≤ w'.bits) (d : Difference w) : Difference w' :=
  ⟨d.source, d.target, d.weight.widen h⟩

/-- The constraint with a wider bound. -/
def Constraint.widen (h : w.bits ≤ w'.bits) (c : Constraint w) : Constraint w' :=
  ⟨c.first, c.second, c.bound.widen h⟩

/-- The call with a wider weight. -/
def Call.widen (h : w.bits ≤ w'.bits) : Call w ρ → Call w' ρ
  | newVariable => newVariable
  | newNamedVariable name => newNamedVariable name
  | registerVariable x => registerVariable x
  | registerOccurrence o => registerOccurrence o
  | addEdge d reason => addEdge (d.widen h) reason
  | addConstraint c reason => addConstraint (c.widen h) reason

namespace Graph

/-- The graph with wider weights. -/
def widen (h : w.bits ≤ w'.bits) (g : Graph w ρ) : Graph w' ρ where
  occurrences := g.occurrences
  vertices := g.vertices
  edges := g.edges.map (Edge.widen h)
  outgoing := g.outgoing
  counter := g.counter
  names := g.names

section perform

variable (h : w.bits ≤ w'.bits) (g : Graph w ρ)

theorem registerOccurrence_widen (o : Occurrence) : (g.widen h).registerOccurrence o =
    ((g.registerOccurrence o).1, (g.registerOccurrence o).2.widen h) := by
  have hvertex : (g.widen h).vertex? o = g.vertex? o := rfl
  unfold registerOccurrence
  rw [hvertex]
  cases g.vertex? o with
  | some v => rfl
  | none =>
    simp [widen, Edge.widen, numVertices]
    rfl

theorem edgeId?_widen (s t : Vertex) : (g.widen h).edgeId? s t = g.edgeId? s t := by
  simp [edgeId?, widen, Option.any_map, Edge.widen]

theorem reweigh_widen (e : Nat) (k : Weight w) (r : ρ) :
    (g.widen h).reweigh e (k.widen h) r = (g.reweigh e k r).widen h := by
  simp only [reweigh, widen, Graph.mk.injEq, true_and, and_true]
  refine Array.ext_getElem? fun i => ?_
  simp only [Array.getElem?_modify, Array.getElem?_map]
  split
  · cases g.edges[i]? <;> rfl
  · rfl

theorem connect_widen (s t : Vertex) (k : Weight w) (r : ρ) :
    (g.widen h).connect s t (k.widen h) r =
      ((g.connect s t k r).1, (g.connect s t k r).2.widen h) := by
  unfold connect
  rw [edgeId?_widen]
  cases g.edgeId? s t with
  | some e =>
    have himproves : (g.widen h).improves e (k.widen h) = g.improves e k := by
      simp only [improves, widen, Array.getElem?_map]
      cases g.edges[e]? <;> rfl
    simp only [himproves, reweigh_widen]
    split <;> rfl
  | none => simp [widen, Edge.widen]

theorem addEdge_widen (d : Difference w) (r : ρ) : (g.widen h).addEdge (d.widen h) r =
    (g.addEdge d r).map fun x => (x.1, x.2.widen h) := by
  have hsource : (g.widen h).vertex? (d.widen h).source = g.vertex? d.source := rfl
  have htarget : (g.widen h).vertex? (d.widen h).target = g.vertex? d.target := rfl
  unfold addEdge
  rw [hsource, htarget]
  cases g.vertex? d.source with
  | none => rfl
  | some s =>
    cases g.vertex? d.target with
    | none => rfl
    | some t => exact congrArg Except.ok (connect_widen h g s t d.weight r)

theorem addEdges_widen (ds : List (Difference w)) (r : ρ) :
    (g.widen h).addEdges (ds.map (Difference.widen h)) r =
      (g.addEdges ds r).map (Graph.widen h) := by
  unfold addEdges
  induction ds generalizing g with
  | nil => rfl
  | cons d ds ih =>
    rw [List.map_cons, List.foldlM_cons, List.foldlM_cons, addEdge_widen]
    cases g.addEdge d r with
    | error e => rfl
    | ok x => exact ih x.2

theorem differences_widen {c : Constraint w} {ds : List (Difference w)}
    (hc : c.differences = .ok ds) :
    (c.widen h).differences = .ok (ds.map (Difference.widen h)) := by
  unfold Constraint.differences at hc
  split at hc
  · rename_i second hsecond
    cases hc
    simp only [Constraint.differences, Constraint.widen, hsecond]
    rfl
  · rename_i hsecond
    split at hc
    · rename_i doubled hdouble
      cases hc
      have hval : doubled.val = c.bound.val + c.bound.val := Weight.add?_eq_some_iff.1 hdouble
      have hwide : (c.bound.widen h).double? = some (doubled.widen h) :=
        Weight.add?_eq_some_iff.2 hval
      simp only [Constraint.differences, Constraint.widen, hsecond, hwide]
      rfl
    · cases hc

/-- A constraint whose differences are in the narrow range comes to the same in the wide one. -/
theorem addConstraint_widen {c : Constraint w} {ds : List (Difference w)}
    (hc : c.differences = .ok ds) (r : ρ) :
    (g.widen h).addConstraint (c.widen h) r = (g.addConstraint c r).map (Graph.widen h) := by
  have hmissing : (g.widen h).missing? (ds.map (Difference.widen h)) = g.missing? ds := by
    rw [missing?, missing?, List.flatMap_map]
    rfl
  unfold addConstraint
  rw [hc, differences_widen h hc]
  simp only [bind, Except.bind, hmissing]
  cases g.missing? ds with
  | some o => rfl
  | none => exact addEdges_widen h g ds r

theorem registerVariable_widen (x : Variable) :
    (g.widen h).registerVariable x = (g.registerVariable x).widen h := by
  simp only [registerVariable, registerOccurrence_widen]

theorem newVariable_widen : (g.widen h).newVariable =
    (g.newVariable.1, g.newVariable.2.widen h) :=
  congrArg (Prod.mk g.counter.next.1)
    (registerVariable_widen h { g with counter := g.counter.next.2 } g.counter.next.1)

/-- A call comes to the same whatever the width, unless the narrow one cannot express it. -/
theorem perform_widen {call : Call w ρ}
    (hcall : ∀ c r, call = .addConstraint c r → ∃ ds, c.differences = .ok ds) :
    (g.widen h).perform (call.widen h) = (g.perform call).widen h := by
  cases call with
  | newVariable => simp only [perform, Call.widen, newVariable_widen]
  | newNamedVariable name =>
    simp only [perform, Call.widen, newNamedVariable, newVariable_widen]
    rfl
  | registerVariable x => exact registerVariable_widen h g x
  | registerOccurrence o => simp only [perform, Call.widen, registerOccurrence_widen]
  | addEdge d r =>
    simp only [perform, Call.widen, addEdge_widen]
    cases g.addEdge d r <;> rfl
  | addConstraint c r =>
    obtain ⟨ds, hc⟩ := hcall c r rfl
    simp only [perform, Call.widen, addConstraint_widen h g hc]
    cases g.addConstraint c r <;> rfl

theorem run_widen {calls : List (Call w ρ)}
    (hcalls : ∀ c r, .addConstraint c r ∈ calls → ∃ ds, c.differences = .ok ds) :
    (g.widen h).run (calls.map (Call.widen h)) = (g.run calls).widen h := by
  induction calls generalizing g with
  | nil => rfl
  | cons call calls ih =>
    have hfirst : (g.widen h).perform (call.widen h) = (g.perform call).widen h :=
      perform_widen h g fun c r hc => hcalls c r (hc ▸ List.mem_cons_self ..)
    have hrest := ih (g.perform call) fun c r hc => hcalls c r (List.mem_cons_of_mem call hc)
    rwa [← hfirst] at hrest

end perform

/-- The same calls build the same graph. -/
theorem ofCalls_widen (h : w.bits ≤ w'.bits) {calls : List (Call w ρ)}
    (hcalls : ∀ c r, .addConstraint c r ∈ calls → ∃ ds, c.differences = .ok ds) :
    ofCalls (calls.map (Call.widen h)) = (ofCalls calls).widen h := by
  have hempty : (empty : Graph w ρ).widen h = empty := by simp [widen, empty]
  rw [ofCalls, ← hempty]
  exact run_widen h empty hcalls

/-- A graph embeds in the one with wider weights. -/
theorem embeds_widen (h : w.bits ≤ w'.bits) (g : Graph w ρ) : g.Embeds (g.widen h) where
  bits_le := h
  numVertices_le := le_rfl
  vertex?_iff _ _ _ := Iff.rfl
  innerEdges_eq := by
    rw [innerEdges, innerEdges, widen, Array.toList_map, List.filter_map]
    rfl

theorem numEdges_widen (h : w.bits ≤ w'.bits) (g : Graph w ρ) :
    (g.widen h).numEdges = g.numEdges := Array.size_map

/-! ### Answers -/

/-- The same calls on a wider width come to the same answer where that is not a negative cycle; and
where it is one, the wide search finds a negative cycle too or gives up on a path too short. Of
constraints this takes that the narrow width can express their differences, and of searches that
their rounds can count their improvements. -/
theorem answer_widen (h : w.bits ≤ w'.bits) (calls : List (Call w ρ))
    (hcalls : ∀ c r, .addConstraint c r ∈ calls → ∃ ds, c.differences = .ok ds) (o : Options)
    (overflow : Overflow) (hfaults : overflow.NeverFaults (ofCalls calls).numEdges)
    (hhides : overflow.NeverHides o.relaxation (ofCalls calls).numEdges) :
    let narrow := ((ofCalls calls).solve o overflow).answer
    let wide := ((ofCalls (calls.map (Call.widen h))).solve o overflow).answer
    (narrow = .ok .satisfiable → wide = .ok .satisfiable) ∧
    (∀ c x, narrow = .ok (.unsatisfiable c) → c.kind = .tightening x →
      wide = .ok (.unsatisfiable c)) ∧
    (∀ c, narrow = .ok (.unsatisfiable c) → c.kind = .negativeCycle →
      (∃ c', wide = .ok (.unsatisfiable c') ∧ c'.kind = .negativeCycle) ∨
        ∃ v, wide = .error (.tooShort w' v)) := by
  have hembeds := (ofCalls calls).embeds_widen h
  have hvalid := valid_ofCalls calls
  have hvalid' := valid_ofCalls (calls.map (Call.widen h))
  rw [ofCalls_widen h hcalls] at hvalid' ⊢
  obtain ⟨net, hnet⟩ := hvalid.exists_isNetwork
  obtain ⟨net', hnet'⟩ := hvalid'.exists_isNetwork
  rw [← numEdges_widen h] at hfaults
  have hcounts : (((ofCalls calls).widen h).solve o overflow).answer ≠ .error .overflow :=
    fun heq => nomatch hnet'.exists_eq_tooShort hfaults heq
  have hhides' := numEdges_widen h (ofCalls calls) ▸ hhides
  refine ⟨fun ha => hembeds.answer_eq hnet hnet' rfl hhides hcounts hhides' ha nofun,
    fun c x ha hkind => ?_, fun c ha hkind => ?_⟩
  · refine hembeds.answer_eq hnet hnet' rfl hhides hcounts hhides' ha fun d hd => ?_
    rw [← Answer.unsatisfiable.inj hd, hkind]
    nofun
  · cases hwide : (((ofCalls calls).widen h).solve o overflow).answer with
    | error fault =>
      obtain ⟨v, rfl⟩ := hnet'.exists_eq_tooShort hfaults hwide
      exact .inr ⟨v, rfl⟩
    | ok a' =>
      have htight := hembeds.tightens hvalid hvalid'
      obtain ⟨c', rfl, hneg⟩ := hnet.exists_conflict_of_tightens hnet' htight hhides' ha hwide
      exact .inl ⟨c', rfl, hneg hkind⟩

/-- `x- ≤ x+ + 1` and `x+ ≤ x- - 1`, so `2x` is -1. -/
def oddLoop : List (Call .bits8 Nat) :=
  [.newVariable, .addEdge ⟨⟨⟨0⟩, .positive⟩, ⟨⟨0⟩, .negative⟩, (Weight.ofInt? 1).getD 0⟩ 1,
    .addEdge ⟨⟨⟨0⟩, .negative⟩, ⟨⟨0⟩, .positive⟩, (Weight.ofInt? (-1)).getD 0⟩ 2]

theorem answer_widen_oddLoop :
    (∀ c r, .addConstraint c r ∈ oddLoop → ∃ ds, c.differences = .ok ds) ∧
    ∃ h : Width.bits8.bits ≤ Width.bits16.bits, ∃ c, c.kind = .tightening ⟨0⟩ ∧
      ((ofCalls oddLoop).solve {}).answer = .ok (.unsatisfiable c) ∧
      ((ofCalls (oddLoop.map (Call.widen h))).solve {}).answer = .ok (.unsatisfiable c) := by
  have hcalls : ∀ c r, .addConstraint c r ∈ oddLoop → ∃ ds, c.differences = .ok ds := by
    simp [oddLoop]
  have hnarrow : ((ofCalls oddLoop).solve {}).answer =
      .ok (.unsatisfiable ⟨.tightening ⟨0⟩, [1, 2, 1], [1, 2]⟩) := by decide +kernel
  have h : Width.bits8.bits ≤ Width.bits16.bits := by decide
  exact ⟨hcalls, h, _, rfl, hnarrow, (answer_widen h oddLoop hcalls {} .checked
    (fun _ => by decide +kernel) nofun).2.1 _ ⟨0⟩ hnarrow rfl⟩

/-- `x- ≤ x+ - 100` and `x+ ≤ x- - 100`: 8 bits are too few for one round of this. -/
def steepLoop : List (Call .bits8 Nat) :=
  [.newVariable, .addEdge ⟨⟨⟨0⟩, .positive⟩, ⟨⟨0⟩, .negative⟩, (Weight.ofInt? (-100)).getD 0⟩ 1,
    .addEdge ⟨⟨⟨0⟩, .negative⟩, ⟨⟨0⟩, .positive⟩, (Weight.ofInt? (-100)).getD 0⟩ 2]

/-- Beside a steep loop so many variables that a first round, if not cut short, improves 2³²
times. -/
def hiddenSteepLoop : List (Call .bits8 Nat) :=
  steepLoop ++ List.replicate (2 ^ 31 - 2) .newVariable

/-- Where a count wraps, the wide search misses a negative cycle that stops the narrow one short. -/
theorem satisfiable_widen_hiddenSteepLoop :
    ∃ h : Width.bits8.bits ≤ Width.bits16.bits,
      (∃ c, ((ofCalls hiddenSteepLoop).solve {} .wrapping).answer = .ok (.unsatisfiable c) ∧
        c.kind = .negativeCycle) ∧
      ((ofCalls (hiddenSteepLoop.map (Call.widen h))).solve {} .wrapping).answer =
        .ok .satisfiable := by
  refine ⟨by decide, ?_, ?_⟩
  · have hround : (ofCalls steepLoop).firstRound .firstViolation = some (.underflowed true) := by
      decide +kernel
    obtain ⟨net, hnet, paths, entry, hout⟩ :=
      exists_negativeCycle_of_firstRound steepLoop (n := 2 ^ 31 - 2) (by decide +kernel) hround
        (by decide)
    exact hnet.answer_of_negativeCycle (o := {}) (hout .earlyExit)
  · have hround : (ofCalls (steepLoop.map
        (Call.widen (show Width.bits8.bits ≤ Width.bits16.bits by decide)))).firstRound
          .firstViolation = some (.completed 4 (.ok none)) := by decide +kernel
    rw [hiddenSteepLoop, List.map_append, List.map_replicate]
    exact answer_of_firstRound _ (by decide +kernel) hround (by decide) (by decide)

end Graph

end Octagon

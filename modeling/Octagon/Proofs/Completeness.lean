import Octagon.Proofs.Accepted
import Octagon.Proofs.Outcome
import Octagon.Proofs.Rounding

/-!
A solver misses no conflict. Settled distances leave no closed walk of negative weight, and make
each arc of a closed walk of weight 0 tight. So where a walk leads from `x+` to `x-` and back and
weighs nothing, the two are in one component of the tight arcs; and if the way there is odd, so is
the difference of their distances, and tightening refutes `x`.
-/

namespace Octagon

variable {w : Width} {ρ : Type} {n : Nat} {net : Network w ρ n} {paths : Paths w (n + 1)}

namespace Network

/-- Labels do not rise along walks of tight arcs. -/
theorem label_le_of_walk : ∀ {u v : Fin (n + 1)} {l : List (Arc w ρ (n + 1))},
    Walk (net.tightArcs paths) u v l → net.label paths v ≤ net.label paths u
  | _, _, [], h => by
      cases h
      exact le_rfl
  | _, _, a :: l, ⟨ha, hs, hl⟩ => by
      have hfirst := label_target_le ha
      rw [hs] at hfirst
      exact (label_le_of_walk hl).trans hfirst

/-- A closed walk of weight 0 consists of tight arcs. -/
theorem walk_tightArcs (hnet : net.Rooted) (hset : paths.Settled net) {v : Fin (n + 1)}
    {l : List (Arc w ρ (n + 1))} (hl : Walk net.arcs v v l) (hzero : exactWeight l = 0) :
    Walk (net.tightArcs paths) v v l := by
  refine hl.mono fun a ha => mem_tightArcs_iff.2 ?_
  exact ⟨hl.mem a ha, hnet.source_ne_root hl a ha, hl.eq_add hset (by omega) a ha⟩

theorem exists_source_eq {arcs : List (Arc w ρ (n + 1))} {u v : Fin (n + 1)}
    {l : List (Arc w ρ (n + 1))} (hl : Walk arcs u v l) (hne : l ≠ []) :
    ∃ a ∈ arcs, a.source = u := by
  cases l with
  | nil => exact absurd rfl hne
  | cons a l => exact ⟨a, hl.1, hl.2.1⟩

/-- Tight arcs that lead from one vertex to another and back, oddly, leave both. -/
theorem exists_sources_of_odd {u v : Fin (n + 1)} {there back : List (Arc w ρ (n + 1))}
    (hthere : Walk (net.tightArcs paths) u v there) (hback : Walk (net.tightArcs paths) v u back)
    (hodd : exactWeight there % 2 = 1) :
    (∃ a ∈ net.tightArcs paths, a.source = u) ∧ ∃ a ∈ net.tightArcs paths, a.source = v := by
  have hgo := exactWeight_of_tight hthere
  have hreturn := exactWeight_of_tight hback
  constructor
  · refine exists_source_eq hthere ?_
    rintro rfl
    simp at hodd
  · refine exists_source_eq hback ?_
    rintro rfl
    rw [exactWeight_nil] at hreturn
    omega

/-- Where distances are settled and tightening finds no conflict, no arcs contradict each other. -/
theorem not_contradicts_of_tighten (hnet : net.Rooted) (hset : paths.Settled net)
    {selection : Selection} (hnone : (net.tighten selection paths).conflict = .ok none)
    (kind : ConflictKind) (l : List (Arc w ρ (n + 1))) : ¬net.Contradicts kind l := by
  intro hcontra
  cases hcontra with
  | @negativeCycle v _ hl hneg => exact absurd (hset.noNegativeCycle v l hl) (not_le.2 hneg)
  | @tightening x _ there back hx hthere hback _ hzero hodd =>
    have htight := walk_tightArcs hnet hset (hthere.append hback)
      (by rw [exactWeight_append, hzero])
    have hgo := hthere.mono fun a ha => htight.mem a (List.mem_append_left _ ha)
    have hreturn := hback.mono fun a ha => htight.mem a (List.mem_append_right _ ha)
    obtain ⟨⟨a, ha, hasource⟩, b, hb, hbsource⟩ := exists_sources_of_odd hgo hreturn hodd
    rw [exactWeight_of_tight hgo] at hodd
    refine label_ne_of_tighten hnone hx hodd ⟨a, ha, .inl hasource⟩ ⟨b, hb, .inl hbsource⟩ ?_
    exact le_antisymm (label_le_of_walk hreturn) (label_le_of_walk hgo)

end Network

namespace Graph

/-- What proves nothing about the network does not pass. -/
theorem IsNetwork.check_eq_error [BEq ρ] {g : Graph w ρ}
    {net : Network w ρ g.occurrences.size} (h : g.IsNetwork net) {c : Conflict ρ}
    (hc : ∀ l, ¬net.Contradicts c.kind l) : ∃ e, g.check c = .error e ∧ e ≠ .unrepresentable := by
  cases hcheck : g.check c with
  | error e => exact ⟨e, rfl, fun he => check_ne_unrepresentable g c (he ▸ hcheck)⟩
  | ok _ =>
    obtain ⟨hcycle, -⟩ := check_eq_ok_iff.1 hcheck
    obtain ⟨v, l, -, -, hcontra⟩ := h.exists_walk_of_checkCycle hcycle
    exact absurd hcontra (hc l)

/-- About a graph that a solver finds satisfiable every conflict is refused, and about one where it
reports a tightening cycle every negative cycle is, as long as no count hides improvements. -/
theorem check_refuses_of_solve [BEq ρ] (calls : List (Call w ρ)) (o : Options) (overflow : Overflow)
    (hhides : overflow.NeverHides o.relaxation (ofCalls calls).numEdges) (c : Conflict ρ) :
    (((ofCalls calls).solve o overflow).answer = .ok .satisfiable →
      ∃ e, (ofCalls calls).check c = .error e ∧ e ≠ .unrepresentable) ∧
    ∀ d x, ((ofCalls calls).solve o overflow).answer = .ok (.unsatisfiable d) →
      d.kind = .tightening x → c.kind = .negativeCycle →
        ∃ e, (ofCalls calls).check c = .error e ∧ e ≠ .unrepresentable := by
  obtain ⟨net, hnet⟩ := (valid_ofCalls calls).exists_isNetwork
  constructor
  · intro ha
    obtain ⟨paths, hset, hnone⟩ := hnet.answer_explains ha
    have hset := hset (hnet.length_arcs.symm ▸ hhides)
    exact hnet.check_eq_error (Network.not_contradicts_of_tighten hnet.rooted hset hnone c.kind)
  · intro d x ha hd hc
    obtain ⟨paths, -, hset, -⟩ := hnet.exists_paths hhides ha fun e he => by cases he; simp [hd]
    refine hnet.check_eq_error fun l hcontra => ?_
    rw [hc] at hcontra
    cases hcontra with
    | @negativeCycle v _ hl hneg => exact absurd (hset.noNegativeCycle v l hl) (not_le.2 hneg)

/-- Without its last constraint the graph of `oddSquare` is satisfiable. -/
theorem check_refuses_of_oddSquare :
    (((ofCalls oddSquare.dropLast).solve {} .wrapping).answer = .ok .satisfiable ∧
      ∃ e, (ofCalls oddSquare.dropLast).check oddCycle = .error e ∧ e ≠ .unrepresentable) ∧
    ((ofCalls oddSquare).solve {} .wrapping).answer = .ok (.unsatisfiable oddCycle) ∧
      ∃ e, (ofCalls oddSquare).check ⟨.negativeCycle, oddCycle.cycle, oddCycle.reasons⟩ = .error e ∧
        e ≠ .unrepresentable := by
  have hsat : ((ofCalls oddSquare.dropLast).solve {} .wrapping).answer = .ok .satisfiable := by
    decide +kernel
  have hsolve : ((ofCalls oddSquare).solve {} .wrapping).answer =
      .ok (.unsatisfiable oddCycle) := by
    decide +kernel
  have hedges : (ofCalls oddSquare.dropLast).numEdges < 2 ^ 32 := by decide +kernel
  have hedges' : (ofCalls oddSquare).numEdges < 2 ^ 32 := by decide +kernel
  obtain ⟨hrefused, -⟩ :=
    check_refuses_of_solve oddSquare.dropLast {} .wrapping (fun _ _ => hedges) oddCycle
  obtain ⟨-, hrefused'⟩ := check_refuses_of_solve oddSquare {} .wrapping (fun _ _ => hedges')
    ⟨.negativeCycle, oddCycle.cycle, oddCycle.reasons⟩
  exact ⟨⟨hsat, hrefused hsat⟩, hsolve, hrefused' oddCycle ⟨0⟩ hsolve rfl rfl⟩

/-- The check accepts the loop that a wrapped count hides. -/
theorem check_accepts_hiddenSelfLoop :
    ((ofCalls hiddenSelfLoop).solve {} .wrapping).answer = .ok .satisfiable ∧
      (ofCalls hiddenSelfLoop).check ⟨.negativeCycle, [2, 2], [1]⟩ = .ok () := by
  have hcheck : (ofCalls selfLoop).check ⟨.negativeCycle, [2, 2], [1]⟩ = .ok () := by
    decide +kernel
  have hpads := pads_ofCalls selfLoop (n := 2 ^ 31 - 2) (by decide +kernel)
  exact ⟨answer_hiddenSelfLoop, hpads.check_mono (valid_ofCalls _) (valid_ofCalls _) hcheck⟩

end Graph

end Octagon

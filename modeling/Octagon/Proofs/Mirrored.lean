import Octagon.Proofs.Decision
import Octagon.Proofs.Graph.Lowering

/-!
Differences that are asserted without their mirrors. Distances give a value to each occurrence, and
those satisfy every edge; but `x+` and `x-` need not get opposite values, and where a difference was
asserted alone, there may be no opposite ones that satisfy it. So a graph that a solver finds
satisfiable has a solution in integers where its bounds are mirrored, and may have none elsewhere.
-/

namespace Octagon.Graph

variable {w : Width} {ρ : Type}

/-- With each bound on two occurrences there is one on their negations that says no less. -/
def Mirrored (g : Graph w ρ) : Prop :=
  ∀ a b k r, g.bound? a b = some (k, r) →
    ∃ k' r', g.bound? b.negate a.negate = some (k', r') ∧ k' ≤ k

/-- Mirrored bounds have the same weight: each is at most the other. -/
theorem Mirrored.exists_bound? {g : Graph w ρ} (h : g.Mirrored) {a b : Occurrence} {k : Weight w}
    {r : ρ} (hab : g.bound? a b = some (k, r)) :
    ∃ r', g.bound? b.negate a.negate = some (k, r') := by
  obtain ⟨k', r', hba, hle⟩ := h a b k r hab
  obtain ⟨k'', r'', hback, hle'⟩ := h _ _ k' r' hba
  rw [Occurrence.negate_negate, Occurrence.negate_negate, hab] at hback
  cases hback
  obtain rfl : k' = k := Weight.ext (le_antisymm hle hle')
  exact ⟨r', hba⟩

/-- Bounds are mirrored where each difference was asserted along with its mirror, in whatever order
and for whatever reasons. -/
theorem mirrored_of_lowered {calls : List (Call w ρ)} (h : ∀ x ∈ empty.lowered calls,
    ∃ y ∈ empty.lowered calls, y.1 = x.1.mirror) : (ofCalls calls).Mirrored := by
  intro a b k r hab
  rw [bound?_ofCalls] at hab
  rcases foldl_tightenBy_eq_some hab with hnone | hmem
  · cases hnone
  · obtain ⟨⟨k', r'⟩, hba, hle⟩ := exists_foldl_tightenBy_le (.inr (h _ hmem))
    exact ⟨k', r', (bound?_ofCalls calls _ _).trans hba, hle⟩

/-- Where a graph is found satisfiable, some values for the occurrences satisfy all bounds, though
the two of a variable may not be opposite; unless the count of a round hid improvements. -/
theorem exists_values_of_satisfiable (calls : List (Call w ρ)) (o : Options) (overflow : Overflow)
    (hhides : overflow.NeverHides o.relaxation (ofCalls calls).numEdges)
    (h : ((ofCalls calls).solve o overflow).answer = .ok .satisfiable) :
    ∃ value : Occurrence → Int, ∀ a b k r, (ofCalls calls).bound? a b = some (k, r) →
      value b ≤ value a + k.val := by
  obtain ⟨net, hnet⟩ := (valid_ofCalls calls).exists_isNetwork
  obtain ⟨paths, hset, -⟩ := hnet.answer_explains h
  have hset := hset (hnet.length_arcs.symm ▸ hhides)
  refine ⟨fun a => ((ofCalls calls).vertex? a).elim 0 fun v =>
    if hv : v < (ofCalls calls).occurrences.size + 1 then paths.dist ⟨v, hv⟩ else 0, ?_⟩
  intro a b k r hab
  obtain ⟨e, he, ha, hb, rfl, -⟩ := hnet.exists_arc_of_bound? hab
  simp only [ha, hb, Option.elim_some, e.source.isLt, e.target.isLt, dif_pos]
  exact hset e he

/-- Where bounds are mirrored an answer is right about the edges, however they were asserted, as
long as no count hides improvements. -/
theorem satisfiable_iff_of_mirrored (calls : List (Call w ρ)) (hmirror : (ofCalls calls).Mirrored)
    (o : Options) (overflow : Overflow)
    (hhides : overflow.NeverHides o.relaxation (ofCalls calls).numEdges) (a : Answer ρ)
    (h : ((ofCalls calls).solve o overflow).answer = .ok a) :
    a = .satisfiable ↔ ∃ σ : Assignment, ∀ e ∈ (ofCalls calls).edges.toList,
      e.source ≠ root → (ofCalls calls).EdgeHolds σ e := by
  have hedges := fun σ => (valid_ofCalls calls).forall_bound?_iff (σ := σ)
  obtain ⟨net, hnet⟩ := (valid_ofCalls calls).exists_isNetwork
  have hexp := hnet.answer_explains h
  cases a with
  | satisfiable =>
    obtain ⟨paths, hset, hnone⟩ := hexp
    have hset := hset (hnet.length_arcs.symm ▸ hhides)
    refine iff_of_true rfl ⟨net.rounding paths, (hedges _).1 fun a b k r hab => ?_⟩
    obtain ⟨r', hba⟩ := hmirror.exists_bound? hab
    exact hnet.holds_rounding hset hnone hab hba
  | unsatisfiable c =>
    refine iff_of_false nofun ?_
    rintro ⟨σ, hσ⟩
    exact hnet.not_boundsHold hexp σ fun a b k r hab _ => (hedges σ).2 hσ a b k r hab

/-- `y ≤ x - 1` and `-y ≤ -x`, both without their mirrors. -/
def rawDescent : List (Call .bits8 Nat) :=
  [.newVariable, .newVariable,
    .addEdge ⟨⟨⟨0⟩, .positive⟩, ⟨⟨1⟩, .positive⟩, (Weight.ofInt? (-1)).getD 0⟩ 1,
    .addEdge ⟨⟨⟨0⟩, .negative⟩, ⟨⟨1⟩, .negative⟩, 0⟩ 2]

/-- The mirrors of these. -/
def mirroredDescent : List (Call .bits8 Nat) := rawDescent ++
  [.addEdge ⟨⟨⟨1⟩, .negative⟩, ⟨⟨0⟩, .negative⟩, (Weight.ofInt? (-1)).getD 0⟩ 3,
    .addEdge ⟨⟨⟨1⟩, .positive⟩, ⟨⟨0⟩, .positive⟩, 0⟩ 4]

theorem no_solution_of_mirroredDescent : (ofCalls mirroredDescent).Mirrored ∧
    (ofCalls mirroredDescent).numEdges < 2 ^ 32 ∧
    ((ofCalls mirroredDescent).solve {} .wrapping).answer =
      .ok (.unsatisfiable ⟨.negativeCycle, [1, 3, 1], [1, 4]⟩) ∧
    ¬∃ σ : Assignment, ∀ e ∈ (ofCalls mirroredDescent).edges.toList,
      e.source ≠ root → (ofCalls mirroredDescent).EdgeHolds σ e := by
  have hmirror : (ofCalls mirroredDescent).Mirrored := mirrored_of_lowered (by decide +kernel)
  have hedges : (ofCalls mirroredDescent).numEdges < 2 ^ 32 := by decide +kernel
  have hsolve : ((ofCalls mirroredDescent).solve {} .wrapping).answer =
      .ok (.unsatisfiable ⟨.negativeCycle, [1, 3, 1], [1, 4]⟩) := by decide +kernel
  refine ⟨hmirror, hedges, hsolve, fun hσ => ?_⟩
  cases (satisfiable_iff_of_mirrored mirroredDescent hmirror {} .wrapping (fun _ _ => hedges) _
    hsolve).2 hσ

/-- A graph may be found satisfiable that no integers satisfy. -/
theorem satisfiable_without_solution :
    ((ofCalls rawDescent).solve {}).answer = .ok .satisfiable ∧
      ¬∃ σ : Assignment, ∀ e ∈ (ofCalls rawDescent).edges.toList,
        e.source ≠ root → (ofCalls rawDescent).EdgeHolds σ e := by
  refine ⟨by decide +kernel, ?_⟩
  rintro ⟨σ, hσ⟩
  have hbounds := (valid_ofCalls rawDescent).forall_bound?_iff.2 hσ
  have hdown := hbounds ⟨⟨0⟩, .positive⟩ ⟨⟨1⟩, .positive⟩ ((Weight.ofInt? (-1)).getD 0) 1
    (by decide +kernel)
  have hup := hbounds ⟨⟨0⟩, .negative⟩ ⟨⟨1⟩, .negative⟩ 0 2 (by decide +kernel)
  have hdown' : σ ⟨1⟩ ≤ σ ⟨0⟩ + -1 := hdown
  have hup' : -σ ⟨1⟩ ≤ -σ ⟨0⟩ + 0 := hup
  omega

end Octagon.Graph

import Octagon.Proofs.Certificate
import Octagon.Proofs.Graph.History

/-!
Explanations are sound. The edges along the closed walk of a conflict have no solution in integers:
summed up they say that a value is below itself, or that twice the value of a variable is odd. Each
of these edges comes from an assertion that implies it and has its reason, so the assertions that
have the reasons of a conflict have no solution either.
-/

namespace Octagon.Graph

variable {w : Width} {ρ : Type} {g : Graph w ρ} {net : Network w ρ g.occurrences.size}

/-- The bounds with reasons in `rs` hold. -/
def BoundsHold (g : Graph w ρ) (rs : List ρ) (σ : Assignment) : Prop :=
  ∀ a b k r, g.bound? a b = some (k, r) → r ∈ rs → (Difference.mk a b k).Holds σ

/-- The edges along the walk of a conflict have no solution in integers. -/
theorem IsNetwork.not_boundsHold (h : g.IsNetwork net) {c : Conflict ρ} (hc : net.Refutes c)
    (σ : Assignment) : ¬g.BoundsHold c.reasons σ := by
  obtain ⟨v, l, hl, -, hofWalk, hcontra⟩ := hc.exists_walk
  refine fun hσ => h.not_forall_edgeHolds hcontra σ fun a ha p q hp hq => ?_
  obtain ⟨p', q', r, hp', hq', hr, hb⟩ :=
    h.exists_bound?_of_arc (hl.mem a ha) (h.rooted.source_ne_root hl a ha)
  obtain rfl : p = p' := h.valid.vertex?_inj hp hp'
  obtain rfl : q = q' := h.valid.vertex?_inj hq hq'
  have hreason : r ∈ c.reasons := by
    rw [hofWalk]
    exact List.mem_flatMap.2 ⟨a, ha, by simp [hr]⟩
  exact hσ p q a.weight r hb hreason

/-- The assertions that have the reasons of a reported conflict have no common solution in
integers. -/
theorem no_solution_of_reasons (calls : List (Call w ρ)) (o : Options) (overflow : Overflow)
    (c : Conflict ρ) (h : ((ofCalls calls).solve o overflow).answer = .ok (.unsatisfiable c)) :
    ¬∃ σ : Assignment, ∀ x ∈ empty.assertions calls, x.2 ∈ c.reasons → x.1.Holds σ := by
  rintro ⟨σ, hσ⟩
  obtain ⟨net, hnet⟩ := (valid_ofCalls calls).exists_isNetwork
  refine hnet.not_boundsHold (hnet.answer_explains h) σ fun a b k r hb hr => ?_
  obtain ⟨x, hx, rfl, hholds⟩ := exists_assertion_of_bound? hb
  exact hholds σ (hσ x hx hr)

/-- `x ≤ -1` and `-x ≤ 0`. -/
def contradictoryBounds : List (Call .bits8 Nat) :=
  [.newVariable, .addConstraint (.upperBound ⟨0⟩ ((Weight.ofInt? (-1)).getD 0)) 7,
    .addConstraint ⟨⟨⟨0⟩, .negative⟩, none, 0⟩ 8]

theorem no_solution_of_contradictoryBounds :
    ((ofCalls contradictoryBounds).solve {}).answer =
        .ok (.unsatisfiable ⟨.negativeCycle, [2, 1, 2], [7, 8]⟩) ∧
      ¬∃ σ : Assignment, ∀ x ∈ empty.assertions contradictoryBounds,
        x.2 ∈ [7, 8] → x.1.Holds σ :=
  ⟨rfl, no_solution_of_reasons contradictoryBounds {} .checked _ rfl⟩

end Octagon.Graph

import Octagon.Proofs.Outcome
import Octagon.Proofs.Rounding

/-!
The decision is exact. Where only constraints are asserted, and a solver answers at all, it answers
that a graph is satisfiable exactly if some integers satisfy all constraints that were accepted:
rounded distances do if there is no conflict, and a conflict excludes all integers.
-/

namespace Octagon.Graph

variable {w : Width} {ρ : Type}

/-- Where only constraints are asserted an answer is right, unless a count hides improvements. -/
theorem satisfiable_iff_exists_solution (calls : List (Call w ρ))
    (hraw : ∀ d r, Call.addEdge d r ∉ calls) (o : Options) (overflow : Overflow)
    (hhides : overflow.NeverHides o.relaxation (ofCalls calls).numEdges) (a : Answer ρ)
    (h : ((ofCalls calls).solve o overflow).answer = .ok a) :
    a = .satisfiable ↔ ∃ σ : Assignment, ∀ x ∈ empty.assertions calls, x.1.Holds σ := by
  obtain ⟨net, hnet⟩ := (valid_ofCalls calls).exists_isNetwork
  have hexp := hnet.answer_explains h
  cases a with
  | satisfiable =>
    obtain ⟨paths, hset, hnone⟩ := hexp
    refine iff_of_true rfl ⟨net.rounding paths, holds_of_bound? fun a b k r hab => ?_⟩
    have hset := hset (hnet.length_arcs.symm ▸ hhides)
    exact hnet.holds_rounding hset hnone hab ((bound?_mirror hraw a b).trans hab)
  | unsatisfiable c =>
    refine iff_of_false nofun ?_
    rintro ⟨σ, hσ⟩
    refine hnet.not_boundsHold hexp σ fun a b k r hab _ => ?_
    obtain ⟨x, hx, -, hholds⟩ := exists_assertion_of_bound? hab
    exact hholds σ (hσ x hx)

/-- `x + y ≤ -1` and `-x ≤ 1`: half the differences of the distances are not integers. -/
def oddSum : List (Call .bits8 Nat) :=
  [.newVariable, .newVariable, .addConstraint (.sum ⟨0⟩ ⟨1⟩ ((Weight.ofInt? (-1)).getD 0)) 5,
    .addConstraint ⟨⟨⟨0⟩, .negative⟩, none, (Weight.ofInt? 1).getD 0⟩ 6]

theorem satisfiable_oddSum : (∀ d r, Call.addEdge d r ∉ oddSum) ∧
    (ofCalls oddSum).numEdges < 2 ^ 32 ∧
    ((ofCalls oddSum).solve {} .wrapping).answer = .ok .satisfiable ∧
    ∃ σ : Assignment, ∀ x ∈ empty.assertions oddSum, x.1.Holds σ := by
  have hraw : ∀ d r, Call.addEdge d r ∉ oddSum := by simp [oddSum]
  have hedges : (ofCalls oddSum).numEdges < 2 ^ 32 := by decide +kernel
  exact ⟨hraw, hedges, rfl, (satisfiable_iff_exists_solution oddSum hraw {} .wrapping
    (fun _ _ => hedges) .satisfiable rfl).1 rfl⟩

/-- A count that wraps hides that no integer is smaller than itself. -/
theorem satisfiable_hiddenSelfLoop : (∀ d r, Call.addEdge d r ∉ hiddenSelfLoop) ∧
    ((ofCalls hiddenSelfLoop).solve {} .wrapping).answer = .ok .satisfiable ∧
      ¬∃ σ : Assignment, ∀ x ∈ empty.assertions hiddenSelfLoop, x.1.Holds σ := by
  refine ⟨fun d r hcall => ?_, answer_hiddenSelfLoop, ?_⟩
  · rcases List.mem_append.1 hcall with hcall | hcall
    · simp [selfLoop] at hcall
    · cases List.eq_of_mem_replicate hcall
  · rintro ⟨σ, hσ⟩
    have hmem : ∀ more : List (Call .bits8 Nat), (.constraint (.difference ⟨0⟩ ⟨0⟩
        ((Weight.ofInt? (-1)).getD 0)), 1) ∈ empty.assertions (selfLoop ++ more) := fun more =>
      List.mem_cons_self ..
    have hloop := hσ _ (hmem _)
    have hbound : ((Weight.ofInt? (-1)).getD 0 : Weight .bits8).val = -1 := by decide
    simp only [Assertion.Holds, Constraint.Holds, Constraint.value, Constraint.difference,
      hbound] at hloop
    have hvalue : (⟨0⟩ : Variable).negative.value σ = -(⟨0⟩ : Variable).positive.value σ :=
      (⟨0⟩ : Variable).positive.value_negate σ
    omega

end Octagon.Graph

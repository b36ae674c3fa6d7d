import Octagon.Proofs.Graph.Representation

/-!
Lowering keeps the meaning of constraints, however many edges merge on the way. Where a graph is
built from constraints alone, integers satisfy all that were accepted exactly if they satisfy all
edges that do not leave the root. And these edges mirror each other: with an edge from `a` to `b`
there is one from the negation of `b` to the negation of `a`, of the same weight and for the same
reason.
-/

namespace Octagon.Graph

variable {w : Width} {ρ : Type}

/-- The edge leads from the vertex of `a` to the vertex of `b`. -/
def Joins (g : Graph w ρ) (e : Edge w ρ) (a b : Occurrence) : Prop :=
  g.vertex? a = some e.source ∧ g.vertex? b = some e.target

/-- Some edge from `a` to `b` has the given weight and reasons. -/
def HasEdge (g : Graph w ρ) (a b : Occurrence) (k : Weight w) (rs : List ρ) : Prop :=
  ∃ e ∈ g.edges.toList, g.Joins e a b ∧ e.weight = k ∧ g.reasons e.source e.target = rs

namespace Valid

variable {g : Graph w ρ} (h : g.Valid)

include h

/-- Edges between occurrences are bounds. -/
theorem hasEdge_iff {a b : Occurrence} {k : Weight w} {rs : List ρ} :
    g.HasEdge a b k rs ↔ ∃ r, rs = [r] ∧ g.bound? a b = some (k, r) := by
  constructor
  · rintro ⟨e, he, ⟨ha, hb⟩, rfl, rfl⟩
    obtain ⟨r, hr⟩ := h.exists_reason_eq_some he (h.vertex?_lt ha).1
    refine ⟨r, ?_, h.bound?_eq_some_iff.2 ⟨e, he, ha, hb, rfl, hr⟩⟩
    rw [h.reasons_eq he, hr, Option.toList_some]
  · rintro ⟨r, rfl, hab⟩
    obtain ⟨e, he, ha, hb, rfl, hr⟩ := h.bound?_eq_some_iff.1 hab
    refine ⟨e, he, ⟨ha, hb⟩, rfl, ?_⟩
    rw [h.reasons_eq he, hr, Option.toList_some]

/-- Every edge that does not leave the root leads from one occurrence to another. -/
theorem exists_joins {e : Edge w ρ} (he : e ∈ g.edges.toList) (hs : e.source ≠ root) :
    ∃ a b, g.Joins e a b := by
  obtain ⟨a, b, _, ha, hb, -⟩ := h.exists_bound? he hs
  exact ⟨a, b, ha, hb⟩

/-- All bounds hold if all edges do that do not leave the root. -/
theorem forall_bound?_iff {σ : Assignment} :
    (∀ a b k r, g.bound? a b = some (k, r) → (Difference.mk a b k).Holds σ) ↔
      ∀ e ∈ g.edges.toList, e.source ≠ root → g.EdgeHolds σ e := by
  constructor
  · intro hbounds e he hs a b ha hb
    obtain ⟨a', b', r, ha', hb', -, hab⟩ := h.exists_bound? he hs
    obtain rfl := h.vertex?_inj ha ha'
    obtain rfl := h.vertex?_inj hb hb'
    exact hbounds a b e.weight r hab
  · intro hedges a b k r hab
    obtain ⟨e, he, ha, hb, rfl, -⟩ := h.bound?_eq_some_iff.1 hab
    exact hedges e he (h.vertex?_lt ha).1 a b ha hb

end Valid

/-- Integers satisfy all assertions if they satisfy all bounds, and only then. -/
theorem forall_assertions_iff {calls : List (Call w ρ)} {σ : Assignment} :
    (∀ x ∈ empty.assertions calls, x.1.Holds σ) ↔
      ∀ a b k r, (ofCalls calls).bound? a b = some (k, r) → (Difference.mk a b k).Holds σ := by
  refine ⟨fun hσ a b k r hab => ?_, holds_of_bound?⟩
  obtain ⟨x, hx, -, hholds⟩ := exists_assertion_of_bound? hab
  exact hholds σ (hσ x hx)

/-- Where only constraints are asserted, the edges say of integers what the accepted constraints
say, and they mirror each other. -/
theorem edges_eq_constraints (calls : List (Call w ρ)) (hraw : ∀ d r, Call.addEdge d r ∉ calls) :
    (∀ σ : Assignment, (∀ x ∈ empty.assertions calls, x.1.Holds σ) ↔
      ∀ e ∈ (ofCalls calls).edges.toList, e.source ≠ root → (ofCalls calls).EdgeHolds σ e) ∧
    (∀ e ∈ (ofCalls calls).edges.toList, e.source ≠ root → ∃ a b, (ofCalls calls).Joins e a b) ∧
    ∀ a b k rs, (ofCalls calls).HasEdge a b k rs ↔
      (ofCalls calls).HasEdge b.negate a.negate k rs := by
  have h := valid_ofCalls calls
  refine ⟨fun σ => forall_assertions_iff.trans h.forall_bound?_iff,
    fun e he hs => h.exists_joins he hs, fun a b k rs => ?_⟩
  rw [h.hasEdge_iff, h.hasEdge_iff, bound?_mirror hraw]

/-- `x + x ≤ 3` and `x - x ≤ 0`, then `x + y ≤ 5`, which `y + x ≤ 2` replaces, and a constraint on
a variable that is not registered. -/
def mergedSums : List (Call .bits8 Nat) :=
  [.newVariable, .newVariable, .addConstraint (.sum ⟨0⟩ ⟨0⟩ ((Weight.ofInt? 3).getD 0)) 1,
    .addConstraint (.difference ⟨0⟩ ⟨0⟩ 0) 2,
    .addConstraint (.sum ⟨0⟩ ⟨1⟩ ((Weight.ofInt? 5).getD 0)) 3,
    .addConstraint (.sum ⟨1⟩ ⟨0⟩ ((Weight.ofInt? 2).getD 0)) 4,
    .addConstraint (.upperBound ⟨7⟩ 0) 5]

theorem edges_eq_constraints_mergedSums :
    (∀ d r, Call.addEdge d r ∉ mergedSums) ∧
    ((∀ x ∈ empty.assertions mergedSums, x.1.Holds fun _ => 1) ∧
      ∀ e ∈ (ofCalls mergedSums).edges.toList, e.source ≠ root →
        (ofCalls mergedSums).EdgeHolds (fun _ => 1) e) ∧
    (ofCalls mergedSums).HasEdge ⟨⟨1⟩, .negative⟩ ⟨⟨0⟩, .positive⟩
      ((Weight.ofInt? 2).getD 0) [4] ∧
    (ofCalls mergedSums).HasEdge ⟨⟨0⟩, .negative⟩ ⟨⟨1⟩, .positive⟩
      ((Weight.ofInt? 2).getD 0) [4] := by
  have hraw : ∀ d r, Call.addEdge d r ∉ mergedSums := by simp [mergedSums]
  obtain ⟨hmeaning, -, hmirror⟩ := edges_eq_constraints mergedSums hraw
  have hholds : ∀ x ∈ empty.assertions mergedSums, x.1.Holds fun _ => 1 := by decide +kernel
  have hedge : (ofCalls mergedSums).HasEdge ⟨⟨1⟩, .negative⟩ ⟨⟨0⟩, .positive⟩
      ((Weight.ofInt? 2).getD 0) [4] :=
    (valid_ofCalls mergedSums).hasEdge_iff.2 ⟨4, rfl, by decide +kernel⟩
  exact ⟨hraw, ⟨hholds, (hmeaning _).1 hholds⟩, hedge, (hmirror _ _ _ _).1 hedge⟩

end Octagon.Graph

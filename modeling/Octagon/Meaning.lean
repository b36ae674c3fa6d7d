import Octagon.Graph.Basic

/-!
What constraints, differences and edges say of integers. An occurrence `x+` has the value of `x`, an
occurrence `x-` its negation, and the values are unbounded: only bounds and weights have a width.
-/

namespace Octagon

/-- An integer for each variable. -/
abbrev Assignment := Variable → Int

variable {w : Width} {ρ : Type}

/-- The value of an occurrence. -/
def Occurrence.value (σ : Assignment) (o : Occurrence) : Int :=
  match o.polarity with
  | .positive => σ o.var
  | .negative => -σ o.var

/-- `target ≤ source + weight` -/
def Difference.Holds (σ : Assignment) (d : Difference w) : Prop :=
  d.target.value σ ≤ d.source.value σ + d.weight.val

/-- The sum of the terms. -/
def Constraint.value (σ : Assignment) (c : Constraint w) : Int :=
  match c.second with
  | some second => c.first.value σ + second.value σ
  | none => c.first.value σ

/-- The terms have a sum of at most `bound`. -/
def Constraint.Holds (σ : Assignment) (c : Constraint w) : Prop := c.value σ ≤ c.bound.val

/-- The edge holds between the occurrences at its ends; one that leaves the root says nothing. -/
def Graph.EdgeHolds (g : Graph w ρ) (σ : Assignment) (e : Edge w ρ) : Prop :=
  ∀ source target, g.vertex? source = some e.source → g.vertex? target = some e.target →
    target.value σ ≤ source.value σ + e.weight.val

instance (σ : Assignment) (d : Difference w) : Decidable (d.Holds σ) :=
  inferInstanceAs (Decidable (_ ≤ _))

instance (σ : Assignment) (c : Constraint w) : Decidable (c.Holds σ) :=
  inferInstanceAs (Decidable (_ ≤ _))

/-- The two occurrences of a variable have opposite values. -/
@[simp] theorem Occurrence.value_negate (σ : Assignment) (o : Occurrence) :
    o.negate.value σ = -o.value σ := by
  obtain ⟨x, p⟩ := o
  cases p <;> simp [value, negate, Polarity.flip]

/-- The differences of a constraint say what the constraint says. -/
theorem Constraint.holds_iff_differences {σ : Assignment} {c : Constraint w}
    {ds : List (Difference w)} (h : c.differences = .ok ds) :
    c.Holds σ ↔ ∀ d ∈ ds, d.Holds σ := by
  obtain ⟨first, second, bound⟩ := c
  cases second with
  | some second =>
    cases h
    simp only [Holds, value, Difference.Holds, List.mem_cons, List.not_mem_nil, or_false,
      forall_eq_or_imp, forall_eq, Occurrence.value_negate]
    omega
  | none =>
    simp only [differences] at h
    split at h
    · rename_i doubled hd
      cases h
      have hv : doubled.val = bound.val + bound.val := Weight.ofInt?_eq_some_iff.1 hd
      simp only [Holds, value, Difference.Holds, List.mem_cons, List.not_mem_nil, or_false,
        forall_eq, Occurrence.value_negate]
      omega
    · cases h

/-- So does each of them alone. -/
theorem Constraint.holds_iff_of_mem_differences {σ : Assignment} {c : Constraint w}
    {ds : List (Difference w)} (h : c.differences = .ok ds) {d : Difference w} (hd : d ∈ ds) :
    c.Holds σ ↔ d.Holds σ := by
  rw [holds_iff_differences h]
  refine ⟨fun hall => hall d hd, fun hd' => ?_⟩
  obtain ⟨first, second, bound⟩ := c
  cases second with
  | some second =>
    cases h
    simp only [Difference.Holds, List.mem_cons, List.not_mem_nil, or_false, forall_eq_or_imp,
      forall_eq, Occurrence.value_negate] at hd hd' ⊢
    rcases hd with rfl | rfl <;> simp only [Occurrence.value_negate] at hd' <;> omega
  | none =>
    simp only [differences] at h
    split at h
    · cases h
      simpa [List.mem_singleton.1 hd] using hd'
    · cases h

end Octagon

import Octagon.Graph.History
import Octagon.Graph.Update
import Octagon.Proofs.Except
import Octagon.Proofs.Graph.Bound

/-!
What a graph refuses, and why. A difference is refused if its source or else its target has no
vertex, a constraint if its doubled bound is no weight or else if some end of its differences has no
vertex; the first such end is named. To insert a difference gives no occurrence a vertex and takes
none away, so once the ends of all differences are found registered none of them is refused, and a
refused constraint has inserted nothing.
-/

namespace Octagon

variable {w : Width} {ρ : Type}

/-- The doubled bound of a constraint with one term is no weight. -/
def Constraint.Overflows (c : Constraint w) : Prop :=
  c.second = none ∧ (2 * c.bound.val < w.min ∨ w.max < 2 * c.bound.val)

/-- The ends of differences in order, the source of each before its target. -/
def Difference.endsOf (ds : List (Difference w)) : List Occurrence :=
  ds.flatMap fun d => [d.source, d.target]

/-- A constraint has differences unless its doubled bound is no weight. -/
theorem Constraint.differences_eq_error_iff {c : Constraint w} {e : GraphError} :
    c.differences = .error e ↔ e = .boundOverflow ∧ c.Overflows := by
  obtain ⟨first, second, bound⟩ := c
  cases second with
  | some second => simp [differences, Overflows]
  | none =>
    cases hd : bound.double? with
    | some doubled =>
      have hval : doubled.val = bound.val + bound.val := Weight.add?_eq_some_iff.1 hd
      have hmin := doubled.min_le
      have hmax := doubled.le_max
      simp only [differences, Overflows, hd, reduceCtorEq, true_and, false_iff]
      omega
    | none =>
      have hout := Weight.ofInt?_eq_none_iff.1 hd
      simp only [differences, Overflows, hd, Except.error.injEq, true_and]
      rw [two_mul, and_iff_left hout, eq_comm]

theorem Constraint.exists_differences_iff {c : Constraint w} :
    (∃ ds, c.differences = .ok ds) ↔ ¬c.Overflows := by
  constructor
  · rintro ⟨ds, hds⟩ hover
    rw [differences_eq_error_iff.2 ⟨rfl, hover⟩] at hds
    cases hds
  · intro hover
    cases hc : c.differences with
    | ok ds => exact ⟨ds, rfl⟩
    | error e => exact absurd (differences_eq_error_iff.1 hc).2 hover

namespace Graph

variable {g g' : Graph w ρ} {d : Difference w} {ds : List (Difference w)} {c : Constraint w}
  {r : ρ} {o : Occurrence}

/-- The occurrence has a vertex. -/
def Registered (g : Graph w ρ) (o : Occurrence) : Prop := ∃ v, g.vertex? o = some v

/-- Of the occurrences `o` is the first without a vertex. -/
def FirstMissing (g : Graph w ρ) (os : List Occurrence) (o : Occurrence) : Prop :=
  ∃ before after, os = before ++ o :: after ∧ (∀ p ∈ before, g.Registered p) ∧ ¬g.Registered o

theorem not_registered_iff : ¬g.Registered o ↔ g.vertex? o = none := by
  rw [Registered, not_exists, Option.eq_none_iff_forall_ne_some]

/-! ### Missing occurrences -/

theorem missing?_eq_some_iff :
    g.missing? ds = some o ↔ g.FirstMissing (Difference.endsOf ds) o := by
  rw [missing?, List.find?_eq_some_iff_append, FirstMissing, and_comm]
  simp only [← exists_and_right, Difference.endsOf, not_registered_iff]
  refine exists_congr fun before => exists_congr fun after => ?_
  simp only [and_assoc, Option.isNone_iff_eq_none, Bool.not_eq_true',
    Option.isNone_eq_false_iff, Option.isSome_iff_exists, Registered]

theorem missing?_eq_none_iff :
    g.missing? ds = none ↔ ∀ d ∈ ds, g.Registered d.source ∧ g.Registered d.target := by
  simp [missing?, Registered, Option.ne_none_iff_exists']

/-- Only which occurrences have vertices decides what is missing. -/
theorem missing?_congr (h : ∀ o, g'.vertex? o = g.vertex? o) (ds : List (Difference w)) :
    g'.missing? ds = g.missing? ds := by
  simp only [missing?, h]

/-! ### Single differences -/

theorem addEdge_eq_error_iff {e : GraphError} : g.addEdge d r = .error e ↔
    ∃ o, e = .unregistered o ∧ g.FirstMissing [d.source, d.target] o := by
  have hmissing : ∀ o, g.FirstMissing [d.source, d.target] o ↔ g.missing? [d] = some o := by
    intro o
    rw [missing?_eq_some_iff]
    rfl
  simp only [hmissing, missing?]
  unfold addEdge
  cases hs : g.vertex? d.source with
  | none => simp [hs, eq_comm]
  | some s =>
    cases ht : g.vertex? d.target with
    | none => simp [hs, ht, eq_comm]
    | some t => simp [hs, ht]

theorem exists_addEdge_eq_ok_iff : (∃ x, g.addEdge d r = .ok x) ↔
    g.Registered d.source ∧ g.Registered d.target := by
  simp only [addEdge_eq_ok_iff, Registered]
  constructor
  · rintro ⟨_, s, t, hs, ht, -⟩
    exact ⟨⟨s, hs⟩, t, ht⟩
  · rintro ⟨⟨s, hs⟩, t, ht⟩
    exact ⟨_, s, t, hs, ht, rfl⟩

/-- To assert a difference leaves the vertices of all occurrences as they are. -/
theorem vertex?_addEdge {i : Nat} (h : g.addEdge d r = .ok (i, g')) (o : Occurrence) :
    g'.vertex? o = g.vertex? o := by
  obtain ⟨s, t, -, -, hconnect⟩ := addEdge_eq_ok_iff.1 h
  obtain rfl : (g.connect s t d.weight r).2 = g' := congrArg Prod.snd hconnect
  exact vertex?_connect g s t d.weight r o

/-! ### Constraints -/

/-- Differences are not refused where no end is missing. -/
theorem exists_addEdges_eq_ok : ∀ {ds : List (Difference w)} {g : Graph w ρ},
    g.missing? ds = none → ∃ g', g.addEdges ds r = .ok g' ∧ ∀ o, g'.vertex? o = g.vertex? o
  | [], g, _ => ⟨g, rfl, fun _ => rfl⟩
  | d :: ds, g, h => by
      rw [missing?_eq_none_iff, List.forall_mem_cons] at h
      obtain ⟨⟨i, next⟩, hd⟩ := exists_addEdge_eq_ok_iff.2 h.1
      have hvertex := vertex?_addEdge hd
      have hrest : next.missing? ds = none := by
        rw [missing?_congr hvertex, missing?_eq_none_iff]
        exact h.2
      obtain ⟨g', hg', hsame⟩ := exists_addEdges_eq_ok hrest
      refine ⟨g', ?_, fun o => (hsame o).trans (hvertex o)⟩
      unfold addEdges
      rw [List.foldlM_cons, hd]
      exact hg'

/-- Three things may come of a constraint. -/
theorem addConstraint_cases (g : Graph w ρ) (c : Constraint w) (r : ρ) :
    (c.Overflows ∧ g.addConstraint c r = .error .boundOverflow) ∨
    ∃ ds, c.differences = .ok ds ∧
      ((∃ o, g.missing? ds = some o ∧ g.addConstraint c r = .error (.unregistered o)) ∨
        g.missing? ds = none ∧ ∃ g', g.addEdges ds r = .ok g' ∧ g.addConstraint c r = .ok g' ∧
          ∀ o, g'.vertex? o = g.vertex? o) := by
  unfold addConstraint
  cases hc : c.differences with
  | error e =>
    obtain ⟨rfl, hover⟩ := Constraint.differences_eq_error_iff.1 hc
    exact .inl ⟨hover, rfl⟩
  | ok ds =>
    refine .inr ⟨ds, rfl, ?_⟩
    cases hm : g.missing? ds with
    | some o => exact .inl ⟨o, rfl, by simp [bind, Except.bind, hm]⟩
    | none =>
      obtain ⟨g', hg', hvertex⟩ := exists_addEdges_eq_ok (r := r) hm
      exact .inr ⟨rfl, g', hg', by simp [bind, Except.bind, hm, hg'], hvertex⟩

/-- A call that does not register leaves the vertices of all occurrences as they are. -/
theorem vertex?_perform {call : Call w ρ} (hcall : ¬call.registers) (o : Occurrence) :
    (g.perform call).vertex? o = g.vertex? o := by
  cases call with
  | addEdge d r =>
    simp only [perform]
    cases hadd : g.addEdge d r with
    | error e => rfl
    | ok x => exact vertex?_addEdge hadd o
  | addConstraint c r =>
    simp only [perform]
    rcases g.addConstraint_cases c r with ⟨-, hc⟩ | ⟨ds, -, ⟨p, -, hc⟩ | ⟨-, g', -, hc, hvertex⟩⟩
    · rw [hc]
    · rw [hc]
    · rw [hc]
      exact hvertex o
  | _ => exact absurd rfl hcall

/-! ### Changes in place -/

/-- To insert a difference is to assert it, and to keep the graph where it is refused. -/
theorem insert_eq (g : Graph w ρ) (d : Difference w) (r : ρ) : g.insert d r =
    match g.addEdge d r with
    | .ok (i, g') => (.ok i, g')
    | .error e => (.error e, g) := by
  unfold insert addEdge
  cases g.vertex? d.source with
  | none => rfl
  | some s => cases g.vertex? d.target <;> rfl

theorem Valid.insert (h : g.Valid) (d : Difference w) (r : ρ) : (g.insert d r).2.Valid := by
  unfold Graph.insert
  cases hs : g.vertex? d.source with
  | none => exact h
  | some s =>
    cases ht : g.vertex? d.target with
    | none => exact h
    | some t => exact h.connect (h.vertex?_lt hs) (h.vertex?_lt ht)

theorem perform_addEdge (g : Graph w ρ) (d : Difference w) (r : ρ) :
    g.perform (.addEdge d r) = (g.insert d r).2 := by
  rw [insert_eq, perform]
  cases g.addEdge d r <;> rfl

/-- Differences that are all accepted are all inserted. -/
theorem insertAll_eq_of_addEdges : ∀ {ds : List (Difference w)} {g : Graph w ρ},
    g.addEdges ds r = .ok g' → g.insertAll r ds = (.ok (), g')
  | [], g, h => by
      cases h
      rfl
  | d :: ds, g, h => by
      unfold addEdges at h
      rw [List.foldlM_cons] at h
      rw [insertAll, insert_eq]
      cases hd : g.addEdge d r with
      | error e =>
        rw [hd] at h
        cases h
      | ok x =>
        rw [hd] at h
        exact insertAll_eq_of_addEdges h

/-- To insert a constraint is to assert it, and to keep the graph where it is refused: no difference
is refused after another was inserted. -/
theorem insertConstraint_eq (g : Graph w ρ) (c : Constraint w) (r : ρ) : g.insertConstraint c r =
    match g.addConstraint c r with
    | .ok g' => (.ok (), g')
    | .error e => (.error e, g) := by
  unfold insertConstraint
  rcases g.addConstraint_cases c r with ⟨hover, hc⟩ | ⟨ds, hds, hrest⟩
  · rw [Constraint.differences_eq_error_iff.2 ⟨rfl, hover⟩, hc]
  rcases hrest with ⟨o, hm, hc⟩ | ⟨hm, g', hadd, hc, -⟩
  · simp only [hds, hm, hc]
  · simp only [hds, hm, hc]
    exact insertAll_eq_of_addEdges hadd

theorem perform_addConstraint (g : Graph w ρ) (c : Constraint w) (r : ρ) :
    g.perform (.addConstraint c r) = (g.insertConstraint c r).2 := by
  rw [insertConstraint_eq, perform]
  cases g.addConstraint c r <;> rfl

theorem addConstraint_eq_boundOverflow_iff :
    g.addConstraint c r = .error .boundOverflow ↔ c.Overflows := by
  rcases g.addConstraint_cases c r with ⟨hover, hc⟩ | ⟨ds, hds, hrest⟩
  · simp [hc, hover]
  have hover : ¬c.Overflows := Constraint.exists_differences_iff.1 ⟨ds, hds⟩
  rcases hrest with ⟨o, -, hc⟩ | ⟨-, g', -, hc, -⟩
  · simp [hc, hover]
  · simp [hc, hover]

theorem addConstraint_eq_unregistered_iff : g.addConstraint c r = .error (.unregistered o) ↔
    ∃ ds, c.differences = .ok ds ∧ g.FirstMissing (Difference.endsOf ds) o := by
  simp only [← missing?_eq_some_iff]
  rcases g.addConstraint_cases c r with ⟨hover, hc⟩ | ⟨ds, hds, hrest⟩
  · simp [hc, Constraint.differences_eq_error_iff.2 ⟨rfl, hover⟩]
  rcases hrest with ⟨o', hm, hc⟩ | ⟨hm, g', -, hc, -⟩
  · simp [hc, hds, hm]
  · simp [hc, hds, hm]

theorem exists_addConstraint_eq_ok_iff : (∃ g', g.addConstraint c r = .ok g') ↔
    ∃ ds, c.differences = .ok ds ∧ ∀ o ∈ Difference.endsOf ds, g.Registered o := by
  have hends : ∀ ds : List (Difference w),
      (∀ o ∈ Difference.endsOf ds, g.Registered o) ↔ g.missing? ds = none := by
    intro ds
    rw [missing?_eq_none_iff, Difference.endsOf, List.forall_mem_flatMap]
    exact forall₂_congr fun d _ => by simp
  simp only [hends]
  rcases g.addConstraint_cases c r with ⟨hover, hc⟩ | ⟨ds, hds, hrest⟩
  · simp [hc, Constraint.differences_eq_error_iff.2 ⟨rfl, hover⟩]
  rcases hrest with ⟨o, hm, hc⟩ | ⟨hm, g', -, hc, -⟩
  · simp [hc, hds, hm]
  · simp [hc, hds, hm]

/-! ### Refusals -/

/-- A constraint is refused just if its doubled bound is no weight, for that reason, or else if an
end of its differences has no vertex, for the first such end; a difference just if its source or
else its target has no vertex. A refusal leaves the whole graph as it was. -/
theorem refuses_before_inserting (g : Graph w ρ) (r : ρ) :
    (∀ c : Constraint w,
      ((g.insertConstraint c r).1 = .error .boundOverflow ↔ c.Overflows) ∧
      (¬c.Overflows ↔ ∃ ds, c.differences = .ok ds) ∧
      (∀ o, (g.insertConstraint c r).1 = .error (.unregistered o) ↔
        ∃ ds, c.differences = .ok ds ∧ g.FirstMissing (Difference.endsOf ds) o) ∧
      ((g.insertConstraint c r).1 = .ok () ↔
        ∃ ds, c.differences = .ok ds ∧ ∀ o ∈ Difference.endsOf ds, g.Registered o) ∧
      (∀ e, (g.insertConstraint c r).1 = .error e → (g.insertConstraint c r).2 = g) ∧
      (g.addConstraint c r).map (fun _ => ()) = (g.insertConstraint c r).1 ∧
      g.perform (.addConstraint c r) = (g.insertConstraint c r).2) ∧
    ∀ d : Difference w,
      (∀ e, (g.insert d r).1 = .error e ↔
        ∃ o, e = .unregistered o ∧ g.FirstMissing [d.source, d.target] o) ∧
      ((∃ i, (g.insert d r).1 = .ok i) ↔ g.Registered d.source ∧ g.Registered d.target) ∧
      (∀ e, (g.insert d r).1 = .error e → (g.insert d r).2 = g) ∧
      (g.addEdge d r).map Prod.fst = (g.insert d r).1 ∧
      g.perform (.addEdge d r) = (g.insert d r).2 := by
  constructor
  · intro c
    rw [insertConstraint_eq, ← addConstraint_eq_boundOverflow_iff (g := g) (r := r),
      ← exists_addConstraint_eq_ok_iff (r := r)]
    simp only [← addConstraint_eq_unregistered_iff (r := r), perform]
    refine ⟨?_, ?_, ?_⟩
    · cases g.addConstraint c r <;> simp
    · rw [addConstraint_eq_boundOverflow_iff, Constraint.exists_differences_iff]
    · cases g.addConstraint c r <;> simp [Except.map]
  · intro d
    rw [insert_eq]
    simp only [← addEdge_eq_error_iff (r := r), ← exists_addEdge_eq_ok_iff (r := r), perform]
    rcases g.addEdge d r with e | ⟨i, g'⟩ <;> simp [Except.map]

/-- Where `x` has its positive occurrence alone and `y` its negative one, of the two differences of
`x + y ≤ 0` only the second has an end without a vertex. Inserted one by one, they would leave the
first behind. -/
theorem refuses_before_inserting_half_registered :
    let g : Graph .bits8 Nat := ofCalls
      [.registerOccurrence ⟨⟨0⟩, .positive⟩, .registerOccurrence ⟨⟨1⟩, .negative⟩]
    let ds : List (Difference .bits8) := [⟨⟨⟨1⟩, .negative⟩, ⟨⟨0⟩, .positive⟩, 0⟩,
      ⟨⟨⟨0⟩, .negative⟩, ⟨⟨1⟩, .positive⟩, 0⟩]
    g.insertConstraint (.sum ⟨0⟩ ⟨1⟩ 0) 7 = (.error (.unregistered ⟨⟨0⟩, .negative⟩), g) ∧
      (g.insertAll 7 ds).2.numEdges = g.numEdges + 1 := by
  intro g ds
  refine ⟨?_, by decide +kernel⟩
  obtain ⟨-, -, hmissing, -, hsame, -, -⟩ := (g.refuses_before_inserting 7).1 (.sum ⟨0⟩ ⟨1⟩ 0)
  have hfirst : g.FirstMissing (Difference.endsOf ds) ⟨⟨0⟩, .negative⟩ :=
    missing?_eq_some_iff.1 (by decide +kernel)
  have herror := (hmissing _).2 ⟨ds, rfl, hfirst⟩
  exact Prod.ext herror (hsame _ herror)

end Graph

end Octagon

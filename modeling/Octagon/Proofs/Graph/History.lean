import Octagon.Graph.History
import Octagon.Proofs.Graph.Bound

/-!
What histories leave behind. The bound between two occurrences is the first of smallest weight among
the differences asserted for them. So every bound comes from an assertion that implies it and has
its reason, and every assertion is implied by the bounds. Where only constraints are asserted,
bounds come in pairs that mirror each other.
-/

namespace Octagon

variable {w : Width} {ρ : Type}

/-- The difference that says the same of the negated occurrences. -/
def Difference.mirror (d : Difference w) : Difference w :=
  ⟨d.target.negate, d.source.negate, d.weight⟩

@[simp] theorem Difference.mirror_mirror (d : Difference w) : d.mirror.mirror = d := by
  simp [mirror]

namespace Graph

/-- The differences that a call adds to the graph, each with its reason. -/
def added (g : Graph w ρ) : Call w ρ → List (Difference w × ρ)
  | .addEdge d reason => match g.addEdge d reason with
    | .ok _ => [(d, reason)]
    | .error _ => []
  | .addConstraint c reason => match g.addConstraint c reason, c.differences with
    | .ok _, .ok ds => ds.map (·, reason)
    | _, _ => []
  | _ => []

/-- The differences that calls in order add from `g` on, each with its reason. -/
def lowered (g : Graph w ρ) : List (Call w ρ) → List (Difference w × ρ)
  | [] => []
  | call :: calls => g.added call ++ (g.perform call).lowered calls

/-! ### Growing -/

section grows

variable {g g' g'' : Graph w ρ}

/-- Edges stay in their places, and occurrences keep their vertices. -/
structure Grows (g g' : Graph w ρ) : Prop where
  ends_kept : g.ends <+: g'.ends
  vertex?_mono : ∀ o v, g.vertex? o = some v → g'.vertex? o = some v

theorem Grows.refl (g : Graph w ρ) : g.Grows g := ⟨List.prefix_rfl, fun _ _ hv => hv⟩

theorem Grows.trans (h : g.Grows g') (h' : g'.Grows g'') : g.Grows g'' :=
  ⟨h.ends_kept.trans h'.ends_kept, fun o v hv => h'.vertex?_mono o v (h.vertex?_mono o v hv)⟩

theorem Grows.getElem?_ends (h : g.Grows g') {i : Nat} {p : Vertex × Vertex}
    (hp : g.ends[i]? = some p) : g'.ends[i]? = some p := by
  obtain ⟨later, heq⟩ := h.ends_kept
  rw [← heq, List.getElem?_append_left (List.getElem?_eq_some_iff.1 hp).1, hp]

theorem grows_registerOccurrence (g : Graph w ρ) (o : Occurrence) :
    g.Grows (g.registerOccurrence o).2 := by
  cases ho : g.vertex? o with
  | some v =>
    have hsame : (g.registerOccurrence o).2 = g := by simp [registerOccurrence, ho]
    rw [hsame]
    exact .refl g
  | none =>
    refine ⟨⟨_, (ends_registerOccurrence ho).symm⟩, fun p v hv => ?_⟩
    rw [vertex?_registerOccurrence ho, if_neg, hv]
    rintro rfl
    rw [ho] at hv
    cases hv

end grows

/-! ### Bounds after calls -/

/-- A graph is valid, and its bounds are those of another. -/
def Extends (g g' : Graph w ρ) : Prop := g'.Valid ∧ ∀ a b, g'.bound? a b = g.bound? a b

theorem Extends.trans {g g' g'' : Graph w ρ} (h : g.Extends g') (h' : g'.Extends g'') :
    g.Extends g'' := ⟨h'.1, fun a b => (h'.2 a b).trans (h.2 a b)⟩

namespace Valid

variable {g : Graph w ρ} (h : g.Valid)

include h

theorem extends_relabel (counter : KeyCounter Variable) (names : Std.TreeMap Nat String) :
    g.Extends { g with counter, names } := by
  refine ⟨?_, fun _ _ => rfl⟩
  obtain ⟨_, _, _, _, _, _, _, _, _, _⟩ := h
  constructor <;> assumption

theorem extends_registerOccurrence (o : Occurrence) : g.Extends (g.registerOccurrence o).2 := by
  cases ho : g.vertex? o with
  | none => exact ⟨h.register ho, fun _ _ => h.bound?_register ho⟩
  | some v =>
    have hsame : (g.registerOccurrence o).2 = g := by simp [registerOccurrence, ho]
    rw [hsame]
    exact ⟨h, fun _ _ => rfl⟩

theorem extends_registerVariable (x : Variable) : g.Extends (g.registerVariable x) :=
  have hpos := h.extends_registerOccurrence x.positive
  hpos.trans (hpos.1.extends_registerOccurrence x.negative)

theorem extends_newVariable : g.Extends g.newVariable.2 :=
  have hnext := h.extends_relabel g.counter.next.2 g.names
  hnext.trans (hnext.1.extends_registerVariable g.counter.next.1)

theorem extends_newNamedVariable (name : String) : g.Extends (g.newNamedVariable name).2 :=
  have hnew := h.extends_newVariable
  hnew.trans (hnew.1.extends_relabel _ _)

end Valid

theorem addConstraint_eq_ok {g g' : Graph w ρ} {c : Constraint w} {r : ρ}
    (hadd : g.addConstraint c r = .ok g') :
    ∃ ds, c.differences = .ok ds ∧ g.addEdges ds r = .ok g' := by
  unfold addConstraint at hadd
  cases hc : c.differences with
  | error e => rw [hc] at hadd; cases hadd
  | ok ds =>
    rw [hc] at hadd
    refine ⟨ds, rfl, ?_⟩
    cases hm : g.missing? ds with
    | some o => simp [bind, Except.bind, hm] at hadd
    | none => simpa [bind, Except.bind, hm] using hadd

/-- A call keeps the graph valid and tightens bounds by what it adds. -/
theorem Valid.perform {g : Graph w ρ} (h : g.Valid) (call : Call w ρ) : (g.perform call).Valid ∧
    ∀ a b, (g.perform call).bound? a b = (g.added call).foldl (tightenBy a b) (g.bound? a b) := by
  cases call with
  | newVariable => exact h.extends_newVariable
  | newNamedVariable name => exact h.extends_newNamedVariable name
  | registerVariable x => exact h.extends_registerVariable x
  | registerOccurrence o => exact h.extends_registerOccurrence o
  | addEdge d r =>
    simp only [Graph.perform, added]
    cases hadd : g.addEdge d r with
    | error e => exact ⟨h, fun _ _ => rfl⟩
    | ok x =>
      obtain ⟨i, g'⟩ := x
      obtain ⟨hv, _, hbound⟩ := h.addEdge hadd
      exact ⟨hv, hbound⟩
  | addConstraint c r =>
    simp only [Graph.perform, added]
    cases hadd : g.addConstraint c r with
    | error e => exact ⟨h, fun _ _ => rfl⟩
    | ok g' =>
      obtain ⟨ds, hc, hds⟩ := addConstraint_eq_ok hadd
      obtain ⟨hv, _, hbound⟩ := h.addEdges hds
      rw [hc]
      exact ⟨hv, hbound⟩

theorem Valid.run {g : Graph w ρ} (h : g.Valid) (calls : List (Call w ρ)) : (g.run calls).Valid ∧
    ∀ a b, (g.run calls).bound? a b = (g.lowered calls).foldl (tightenBy a b) (g.bound? a b) := by
  induction calls generalizing g with
  | nil => exact ⟨h, fun _ _ => rfl⟩
  | cons call calls ih =>
    obtain ⟨hv, hbound⟩ := h.perform call
    obtain ⟨hv', hbound'⟩ := ih hv
    refine ⟨hv', fun a b => ?_⟩
    rw [lowered, List.foldl_append, ← hbound, ← hbound']
    rfl

/-- Every graph that calls build is valid. -/
theorem valid_ofCalls (calls : List (Call w ρ)) : (ofCalls calls).Valid := (valid_empty.run calls).1

theorem bound?_ofCalls (calls : List (Call w ρ)) (a b : Occurrence) :
    (ofCalls calls).bound? a b = (empty.lowered calls).foldl (tightenBy a b) none :=
  (valid_empty.run calls).2 a b

/-! ### Bounds and differences -/

section differences

variable {a b : Occurrence} {xs : List (Difference w × ρ)}

/-- Tightening leaves the bound or takes the weight and the reason of a difference of these ends. -/
theorem tightenBy_eq_some {bound : Option (Weight w × ρ)} {x : Difference w × ρ} {k : Weight w}
    {r : ρ} (h : tightenBy a b bound x = some (k, r)) :
    bound = some (k, r) ∨ x = (⟨a, b, k⟩, r) := by
  obtain ⟨⟨s, t, k'⟩, r'⟩ := x
  unfold tightenBy at h
  split at h
  · rename_i hab
    obtain ⟨rfl, rfl⟩ := hab
    cases bound with
    | none =>
      cases h
      exact .inr rfl
    | some old =>
      simp only [tighter] at h
      split at h
      · cases h
        exact .inr rfl
      · exact .inl h
  · exact .inl h

/-- A bound that differences leave is the first or one of them. -/
theorem foldl_tightenBy_eq_some {k : Weight w} {r : ρ} : ∀ {xs : List (Difference w × ρ)}
    {bound : Option (Weight w × ρ)}, xs.foldl (tightenBy a b) bound = some (k, r) →
      bound = some (k, r) ∨ (⟨a, b, k⟩, r) ∈ xs
  | [], _, h => .inl h
  | x :: xs, bound, h => by
      rw [List.foldl_cons] at h
      rcases foldl_tightenBy_eq_some h with hx | hmem
      · rcases tightenBy_eq_some hx with hb | rfl
        · exact .inl hb
        · exact .inr (List.mem_cons_self ..)
      · exact .inr (List.mem_cons_of_mem x hmem)

/-- Tightening never loosens a bound. -/
theorem exists_tightenBy_le {k : Weight w} {bound : Option (Weight w × ρ)} (x : Difference w × ρ)
    (h : (∃ y, bound = some y ∧ y.1.val ≤ k.val) ∨ x.1 = ⟨a, b, k⟩) :
    ∃ y, tightenBy a b bound x = some y ∧ y.1.val ≤ k.val := by
  obtain ⟨⟨s, t, k'⟩, r'⟩ := x
  unfold tightenBy
  split
  · cases bound with
    | none =>
      rcases h with ⟨y, hy, _⟩ | heq
      · cases hy
      · cases heq
        exact ⟨_, rfl, le_rfl⟩
    | some old =>
      simp only [tighter, Weight.lt_iff]
      split
      · rename_i hlt
        refine ⟨_, rfl, ?_⟩
        rcases h with ⟨y, hy, hle⟩ | heq
        · cases hy
          exact hlt.le.trans hle
        · cases heq
          exact le_rfl
      · rename_i hlt
        refine ⟨_, rfl, ?_⟩
        rcases h with ⟨y, hy, hle⟩ | heq
        · cases hy
          exact hle
        · cases heq
          exact not_lt.1 hlt
  · rename_i hab
    refine h.resolve_right fun heq => hab ?_
    cases heq
    exact ⟨rfl, rfl⟩

/-- No bound is looser than a difference that was asserted for it. -/
theorem exists_foldl_tightenBy_le {k : Weight w} : ∀ {xs : List (Difference w × ρ)}
    {bound : Option (Weight w × ρ)},
    ((∃ y, bound = some y ∧ y.1.val ≤ k.val) ∨ ∃ x ∈ xs, x.1 = ⟨a, b, k⟩) →
      ∃ y, xs.foldl (tightenBy a b) bound = some y ∧ y.1.val ≤ k.val
  | [], _, h => by simpa using h
  | x :: xs, bound, h => by
      rw [List.foldl_cons]
      refine exists_foldl_tightenBy_le ?_
      rcases h with hb | ⟨y, hy, heq⟩
      · exact .inl (exists_tightenBy_le x (.inl hb))
      · rcases List.mem_cons.1 hy with rfl | hy
        · exact .inl (exists_tightenBy_le y (.inr heq))
        · exact .inr ⟨y, hy, heq⟩

end differences

/-! ### Bounds and assertions -/

/-- What a call adds says what it asserts, for the same reason, and so does each part of it. -/
theorem accepted?_eq_some {g : Graph w ρ} {call : Call w ρ} {x : Assertion w × ρ}
    (h : g.accepted? call = some x) : (∀ y ∈ g.added call, y.2 = x.2) ∧
      (∀ σ, x.1.Holds σ ↔ ∀ y ∈ g.added call, y.1.Holds σ) ∧
      ∀ y ∈ g.added call, ∀ σ, x.1.Holds σ ↔ y.1.Holds σ := by
  cases call with
  | addEdge d r =>
    simp only [accepted?, added] at h ⊢
    cases hadd : g.addEdge d r with
    | error e => rw [hadd] at h; cases h
    | ok after =>
      rw [hadd] at h
      cases h
      simp [Assertion.Holds]
  | addConstraint c r =>
    simp only [accepted?, added] at h ⊢
    cases hadd : g.addConstraint c r with
    | error e => rw [hadd] at h; cases h
    | ok after =>
      obtain ⟨ds, hc, _⟩ := addConstraint_eq_ok hadd
      rw [hadd] at h
      cases h
      rw [hc]
      refine ⟨by simp, by simp [Assertion.Holds, Constraint.holds_iff_differences hc], ?_⟩
      simp only [List.forall_mem_map]
      exact fun d hd σ => Constraint.holds_iff_of_mem_differences hc hd
  | newVariable => cases h
  | newNamedVariable name => cases h
  | registerVariable x => cases h
  | registerOccurrence o => cases h

theorem added_eq_nil {g : Graph w ρ} {call : Call w ρ} (h : g.accepted? call = none) :
    g.added call = [] := by
  cases call with
  | addEdge d r =>
    simp only [accepted?, added] at h ⊢
    cases hadd : g.addEdge d r with
    | error e => rfl
    | ok after => rw [hadd] at h; cases h
  | addConstraint c r =>
    simp only [accepted?, added] at h ⊢
    cases hadd : g.addConstraint c r with
    | error e => rfl
    | ok after => rw [hadd] at h; cases h
  | newVariable => rfl
  | newNamedVariable name => rfl
  | registerVariable x => rfl
  | registerOccurrence o => rfl

/-- Every difference added says what some assertion with its reason does. -/
theorem exists_assertion_of_mem_lowered : ∀ {calls : List (Call w ρ)} {g : Graph w ρ}
    {y : Difference w × ρ}, y ∈ g.lowered calls →
      ∃ x ∈ g.assertions calls, x.2 = y.2 ∧ ∀ σ, x.1.Holds σ ↔ y.1.Holds σ
  | [], _, _, h => by simp [lowered] at h
  | call :: calls, g, y, h => by
      rw [lowered] at h
      rw [assertions]
      rcases List.mem_append.1 h with h | h
      · cases hx : g.accepted? call with
        | none =>
          rw [added_eq_nil hx] at h
          cases h
        | some x =>
          obtain ⟨hreason, -, hholds⟩ := accepted?_eq_some hx
          exact ⟨x, by simp, (hreason y h).symm, hholds y h⟩
      · obtain ⟨x, hx, hreason, hholds⟩ := exists_assertion_of_mem_lowered h
        exact ⟨x, List.mem_append_right _ hx, hreason, hholds⟩

/-- The differences added together imply every assertion. -/
theorem holds_of_lowered {σ : Assignment} : ∀ {calls : List (Call w ρ)} {g : Graph w ρ},
    (∀ y ∈ g.lowered calls, y.1.Holds σ) → ∀ x ∈ g.assertions calls, x.1.Holds σ
  | [], _, _, x, hx => by simp [assertions] at hx
  | call :: calls, g, h, x, hx => by
      rw [lowered] at h
      rw [assertions] at hx
      rcases List.mem_append.1 hx with hx | hx
      · have hacc : g.accepted? call = some x := by simpa using hx
        exact ((accepted?_eq_some hacc).2.1 σ).2 fun y hy => h y (List.mem_append_left _ hy)
      · exact holds_of_lowered (fun y hy => h y (List.mem_append_right _ hy)) x hx

/-- A bound comes from an assertion that implies it and has its reason. -/
theorem exists_assertion_of_bound? {calls : List (Call w ρ)} {a b : Occurrence} {k : Weight w}
    {r : ρ} (h : (ofCalls calls).bound? a b = some (k, r)) :
    ∃ x ∈ empty.assertions calls, x.2 = r ∧ ∀ σ, x.1.Holds σ → (Difference.mk a b k).Holds σ := by
  rw [bound?_ofCalls] at h
  rcases foldl_tightenBy_eq_some h with hnone | hmem
  · cases hnone
  · obtain ⟨x, hx, hreason, hholds⟩ := exists_assertion_of_mem_lowered hmem
    exact ⟨x, hx, hreason, fun σ => (hholds σ).1⟩

/-- Integers that satisfy all bounds satisfy all assertions. -/
theorem holds_of_bound? {calls : List (Call w ρ)} {σ : Assignment}
    (h : ∀ a b k r, (ofCalls calls).bound? a b = some (k, r) → (Difference.mk a b k).Holds σ) :
    ∀ x ∈ empty.assertions calls, x.1.Holds σ := by
  refine holds_of_lowered fun y hy => ?_
  obtain ⟨⟨a, b, k⟩, r⟩ := y
  obtain ⟨⟨k', r'⟩, hb, hle⟩ := exists_foldl_tightenBy_le (a := a) (b := b) (k := k)
    (.inr ⟨_, hy, rfl⟩)
  rw [← bound?_ofCalls] at hb
  have hbound := h a b k' r' hb
  unfold Difference.Holds at hbound ⊢
  dsimp only at hbound hle ⊢
  omega

/-! ### Mirrored bounds -/

theorem negate_eq_iff {a b : Occurrence} : a.negate = b ↔ a = b.negate := by
  constructor <;> rintro rfl <;> simp

theorem tightenBy_mirror (a b : Occurrence) (bound : Option (Weight w × ρ)) (d : Difference w)
    (r : ρ) : tightenBy b.negate a.negate bound (d.mirror, r) = tightenBy a b bound (d, r) := by
  simp only [tightenBy, Difference.mirror, negate_eq_iff, Occurrence.negate_negate]
  simp only [and_comm]

/-- The differences of a constraint are a difference and its mirror, or one that is its own. -/
theorem differences_mirror {c : Constraint w} {ds : List (Difference w)}
    (h : c.differences = .ok ds) :
    (∃ d, ds = [d, d.mirror]) ∨ ∃ d : Difference w, d.mirror = d ∧ ds = [d] := by
  unfold Constraint.differences at h
  split at h
  · cases h
    rename_i second _
    exact .inl ⟨⟨second.negate, c.first, c.bound⟩, by simp [Difference.mirror]⟩
  · split at h
    · cases h
      exact .inr ⟨_, by simp [Difference.mirror], rfl⟩
    · cases h

/-- Differences of one weight and one reason tighten a bound in any order. -/
theorem tightenBy_comm {a b : Occurrence} (bound : Option (Weight w × ρ)) {c d : Difference w}
    (r : ρ) (h : c.weight = d.weight) : tightenBy a b (tightenBy a b bound (c, r)) (d, r) =
      tightenBy a b (tightenBy a b bound (d, r)) (c, r) := by
  unfold tightenBy
  rw [h]
  split_ifs <;> rfl

/-- Constraints tighten mirrored bounds alike. -/
theorem foldl_added_mirror {g : Graph w ρ} {call : Call w ρ} (hraw : ∀ d r, call ≠ .addEdge d r)
    (a b : Occurrence) (bound : Option (Weight w × ρ)) :
    (g.added call).foldl (tightenBy b.negate a.negate) bound =
      (g.added call).foldl (tightenBy a b) bound := by
  cases call with
  | addEdge d r => exact absurd rfl (hraw d r)
  | addConstraint c r =>
    simp only [added]
    split
    · rename_i ds _ hc
      rcases differences_mirror hc with ⟨d, rfl⟩ | ⟨d, hd, rfl⟩
      · have hback := fun bound => tightenBy_mirror a b bound d.mirror r
        simp only [Difference.mirror_mirror] at hback
        simp only [List.map_cons, List.map_nil, List.foldl_cons, List.foldl_nil]
        rw [hback, tightenBy_mirror]
        exact tightenBy_comm bound r rfl
      · have hself := tightenBy_mirror a b bound d r
        rw [hd] at hself
        exact hself
    · rfl
  | newVariable => rfl
  | newNamedVariable name => rfl
  | registerVariable x => rfl
  | registerOccurrence o => rfl

theorem foldl_lowered_mirror (a b : Occurrence) : ∀ {calls : List (Call w ρ)}
    (_ : ∀ d r, Call.addEdge d r ∉ calls) (g : Graph w ρ) (bound : Option (Weight w × ρ)),
    (g.lowered calls).foldl (tightenBy b.negate a.negate) bound =
      (g.lowered calls).foldl (tightenBy a b) bound
  | [], _, _, _ => rfl
  | call :: calls, hraw, g, bound => by
      rw [lowered, List.foldl_append, List.foldl_append]
      rw [foldl_added_mirror fun d r hcall => hraw d r (by simp [hcall])]
      exact foldl_lowered_mirror a b (fun d r hmem => hraw d r (List.mem_cons_of_mem call hmem)) _ _

/-- Where only constraints are asserted, an occurrence bounds another as its negation is bounded. -/
theorem bound?_mirror {calls : List (Call w ρ)} (hraw : ∀ d r, Call.addEdge d r ∉ calls)
    (a b : Occurrence) :
    (ofCalls calls).bound? b.negate a.negate = (ofCalls calls).bound? a b := by
  rw [bound?_ofCalls, bound?_ofCalls, foldl_lowered_mirror a b hraw]

end Graph

end Octagon

import Octagon.Proofs.Frames

/-!
What the partition into components says about cycles. All vertices of a closed walk are in one
component; two vertices of one component lie on a closed walk, and some two of them on one that
repeats no vertex. So every component is a single vertex exactly if no cycle passes through two.
-/

namespace Octagon

variable {n : Nat} {g : Digraph n}

namespace Digraph

/-- Successors lead along `vs`, by one arc at least, and back to where it starts. -/
structure ClosedWalk (g : Digraph n) (vs : List (Fin n)) : Prop where
  chain : vs.IsChain fun u v => v ∈ g.next u
  closed : vs.head? = vs.getLast?
  two_le : 2 ≤ vs.length

/-- A closed walk that repeats no vertex but the one that closes it. -/
structure SimpleCycle (g : Digraph n) (vs : List (Fin n)) : Prop extends g.ClosedWalk vs where
  nodup : vs.tail.Nodup

/-- Along a closed walk each vertex reaches each other one. -/
theorem ClosedWalk.reaches {vs : List (Fin n)} (h : g.ClosedWalk vs) {u v : Fin n} (hu : u ∈ vs)
    (hv : v ∈ vs) : g.Reaches u v := by
  have : IsTrans (Fin n) g.Reaches := ⟨fun _ _ _ => Relation.ReflTransGen.trans⟩
  have hpairs : vs.Pairwise g.Reaches :=
    (h.chain.imp fun _ _ hnext => Relation.ReflTransGen.single hnext).pairwise
  obtain ⟨x, hhead⟩ : ∃ x, vs.head? = some x := by
    cases vs with
    | nil => cases hu
    | cons x xs => exact ⟨x, rfl⟩
  obtain ⟨rest, rfl⟩ := List.head?_eq_some_iff.1 hhead
  obtain ⟨init, hlast⟩ := List.getLast?_eq_some_iff.1 (h.closed.symm.trans hhead)
  -- every vertex leads to the last one, and that is the first one again
  have hto : g.Reaches u x := by
    rw [hlast] at hu hpairs
    rcases List.mem_append.1 hu with hu | hu
    · exact (List.pairwise_append.1 hpairs).2.2 u hu x (List.mem_singleton_self x)
    · rw [List.mem_singleton.1 hu]
      exact .refl
  have hfrom : g.Reaches x v := by
    rcases List.mem_cons.1 hv with rfl | hv
    · exact .refl
    · exact (List.pairwise_cons.1 hpairs).1 v hv
  exact hto.trans hfrom

/-- The way to another vertex begins with an arc that is not a loop. -/
theorem Reaches.exists_next {u v : Fin n} (h : g.Reaches u v) (hne : u ≠ v) :
    ∃ x ∈ g.next u, u ≠ x ∧ g.Reaches x v := by
  induction h with
  | refl => exact absurd rfl hne
  | @tail y z _ hstep ih =>
    by_cases hy : u = y
    · subst hy
      exact ⟨z, hstep, hne, .refl⟩
    · obtain ⟨x, hx, hux, hreach⟩ := ih hy
      exact ⟨x, hx, hux, hreach.tail hstep⟩

/-- Where two vertices reach each other, some cycle passes through two vertices. -/
theorem exists_simpleCycle {u v : Fin n} (huv : g.Reaches u v) (hvu : g.Reaches v u) (hne : u ≠ v) :
    ∃ vs, g.SimpleCycle vs ∧ ∃ x ∈ vs, ∃ y ∈ vs, x ≠ y := by
  obtain ⟨x, hx, hux, hxv⟩ := huv.exists_next hne
  have hxu : g.Reaches x u := hxv.trans hvu
  obtain ⟨back, hback⟩ := hxu.exists_path hux.symm
  obtain ⟨-, hchain, hnodup, hhead, hlast⟩ := path_eq_ok hback
  obtain ⟨more, rfl⟩ := List.head?_eq_some_iff.1 hhead
  have hclosed : (u :: x :: more).head? = (u :: x :: more).getLast? := by
    rw [List.head?_cons, List.getLast?_cons_cons, hlast]
  have hwalk : g.ClosedWalk (u :: x :: more) :=
    ⟨List.isChain_cons_cons.2 ⟨hx, hchain⟩, hclosed, by simp⟩
  exact ⟨_, ⟨hwalk, hnodup⟩, u, List.mem_cons_self .., x, by simp, hux⟩

/-! ### Single vertices -/

/-- There is one component for each vertex exactly if no two are in one. -/
theorem allSingle_iff : g.components.allSingle = true ↔
    ∀ u v, g.components.same u v = true → u = v := by
  constructor
  · intro h u v huv
    exact eq_of_allSingle h (beq_iff_eq.1 huv)
  · intro h
    have hlt : ∀ v, g.components.labels v < g.components.count := fun v =>
      exists_label_iff.1 ⟨v, rfl⟩
    let label : Fin n → Fin g.components.count := fun v => ⟨g.components.labels v, hlt v⟩
    have hinj : Function.Injective label := fun u v huv =>
      h u v (beq_iff_eq.2 (congrArg Fin.val huv))
    have hsurj : Function.Surjective label := fun k => by
      obtain ⟨v, hv⟩ := exists_label_iff.2 k.isLt
      exact ⟨v, Fin.ext hv⟩
    have hcard := Fintype.card_of_bijective ⟨hinj, hsurj⟩
    rw [Fintype.card_fin, Fintype.card_fin] at hcard
    exact beq_iff_eq.2 hcard.symm

theorem ClosedWalk.eq_of_allSingle (h : g.components.allSingle = true) {vs : List (Fin n)}
    (hvs : g.ClosedWalk vs) {u v : Fin n} (hu : u ∈ vs) (hv : v ∈ vs) : u = v :=
  allSingle_iff.1 h u v (same_components_iff.2 ⟨hvs.reaches hu hv, hvs.reaches hv hu⟩)

theorem allSingle_of_simpleCycle (h : ∀ vs, g.SimpleCycle vs → ∀ u ∈ vs, ∀ v ∈ vs, u = v) :
    g.components.allSingle = true := by
  refine allSingle_iff.2 fun u v huv => ?_
  by_contra hne
  obtain ⟨hto, hfrom⟩ := same_components_iff.1 huv
  obtain ⟨vs, hvs, x, hx, y, hy, hxy⟩ := exists_simpleCycle hto hfrom hne
  exact hxy (h vs hvs x hx y hy)

/-- Every component is a single vertex exactly if no closed walk passes through two. -/
theorem allSingle_iff_closedWalk : g.components.allSingle = true ↔
    ∀ vs, g.ClosedWalk vs → ∀ u ∈ vs, ∀ v ∈ vs, u = v := by
  constructor
  · exact fun h vs hvs u hu v hv => hvs.eq_of_allSingle h hu hv
  · exact fun h => allSingle_of_simpleCycle fun vs hvs => h vs hvs.toClosedWalk

/-- To look at cycles that repeat no vertex is enough. -/
theorem allSingle_iff_simpleCycle : g.components.allSingle = true ↔
    ∀ vs, g.SimpleCycle vs → ∀ u ∈ vs, ∀ v ∈ vs, u = v := by
  constructor
  · exact fun h vs hvs u hu v hv => hvs.toClosedWalk.eq_of_allSingle h hu hv
  · exact allSingle_of_simpleCycle

end Digraph

/-- The search with a stack of its own is over after finitely many turns, and its partition is the
one that the solver uses. Two vertices are in one component exactly if they are the same or reach
each other. The labels are those below the count, and an arc between components leads to the lower
label. Every component is a single vertex exactly if no cycle passes through two, whether or not it
may repeat vertices. -/
theorem FrameSearch.partition (g : Digraph n) : ∃ t : FrameSearch n,
    StateTransition.Reaches (step g) (start n) t ∧ step g t = none ∧
    t.components = g.components ∧
    (∀ u v, t.components.same u v = true ↔ u = v ∨ g.Reaches u v ∧ g.Reaches v u) ∧
    (∀ k, (∃ v, t.components.labels v = k) ↔ k < t.components.count) ∧
    (∀ u, ∀ v ∈ g.next u, t.components.same u v = false →
      t.components.labels v < t.components.labels u) ∧
    (t.components.allSingle = true ↔
      ∀ vs, g.ClosedWalk vs → ∀ u ∈ vs, ∀ v ∈ vs, u = v) ∧
    (t.components.allSingle = true ↔
      ∀ vs, g.SimpleCycle vs → ∀ u ∈ vs, ∀ v ∈ vs, u = v) := by
  obtain ⟨t, hreach, hend, heq⟩ := exists_components g
  refine ⟨t, hreach, hend, heq, ?_⟩
  rw [heq]
  refine ⟨fun u v => ?_, fun k => Digraph.exists_label_iff, fun u v hv hne => ?_,
    Digraph.allSingle_iff_closedWalk, Digraph.allSingle_iff_simpleCycle⟩
  · rw [Digraph.same_components_iff]
    constructor
    · exact .inr
    · rintro (rfl | h)
      · exact ⟨.refl, .refl⟩
      · exact h
  · refine lt_of_le_of_ne (Digraph.label_le hv) fun hsame => ?_
    rw [Components.same, hsame, beq_self_eq_true] at hne
    cases hne

end Octagon

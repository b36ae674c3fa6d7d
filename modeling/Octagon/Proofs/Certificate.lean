import Octagon.Proofs.BreadthFirst
import Octagon.Proofs.Contradiction
import Octagon.Proofs.Least
import Octagon.Proofs.TightSubgraph
import Octagon.Solver.Basic

/-!
Conflicts are closed walks. A conflict that a solver reports visits what some closed walk of the
network does and has the reasons of its arcs: one of negative weight that repeats no vertex, or one
of tight arcs that passes both occurrences of a variable whose distances differ oddly.
-/

namespace Octagon

variable {w : Width} {ρ : Type} {n : Nat} {net : Network w ρ n}

/-- The conflict that a closed walk from `v` stands for. -/
def Conflict.ofWalk (kind : ConflictKind) (v : Fin n) (l : List (Arc w ρ n)) : Conflict ρ :=
  ⟨kind, (visited v l).map Fin.val, l.flatMap fun a => a.reason.toList⟩

/-- The conflicts that refute a network. -/
inductive Network.Refutes (net : Network w ρ n) : Conflict ρ → Prop
  | negativeCycle {v : Fin (n + 1)} {l : List (Arc w ρ (n + 1))} : Walk net.arcs v v l → l ≠ [] →
      exactWeight l < 0 → (visited v l).dropLast.Nodup →
      net.Refutes (.ofWalk .negativeCycle v l)
  | tightening {paths : Paths w (n + 1)} {x : Split (n + 1)} {there back : List (Arc w ρ (n + 1))} :
      (∀ v, paths.dist v ≤ 0) → x ∈ net.splits →
      Walk (net.tightArcs paths) x.positive x.negative there →
      Walk (net.tightArcs paths) x.negative x.positive back →
      (visited x.positive there).Nodup →
      (paths.dist x.negative - paths.dist x.positive) % 2 = 1 →
      net.Refutes (.ofWalk (.tightening x.var) x.positive (there ++ back))

/-- A conflict that refutes a network stands for a closed walk whose arcs contradict each other. -/
theorem Network.Refutes.exists_walk {c : Conflict ρ} (h : net.Refutes c) :
    ∃ v l, Walk net.arcs v v l ∧ l ≠ [] ∧ c = .ofWalk c.kind v l ∧ net.Contradicts c.kind l := by
  cases h with
  | @negativeCycle v l hl hne hneg hsimple => exact ⟨v, l, hl, hne, rfl, .negativeCycle hl hneg⟩
  | @tightening paths x there back hdist hx hthere hback hsimple hodd =>
    have hgo := exactWeight_of_tight hthere
    have hreturn := exactWeight_of_tight hback
    refine ⟨x.positive, there ++ back, walk_of_tightArcs (hthere.append hback), ?_, rfl,
      .tightening hx (walk_of_tightArcs hthere) (walk_of_tightArcs hback) (List.Subset.refl _)
        (by omega) (hgo ▸ hodd)⟩
    rintro hnil
    obtain ⟨rfl, -⟩ := List.append_eq_nil_iff.1 hnil
    rw [exactWeight_nil] at hgo
    omega

/-! ### Negative cycles -/

theorem Network.Rooted.refutes_of_negativeCycle (hnet : net.Rooted) {paths : Paths w (n + 1)}
    {entry : Fin (n + 1)} {c : Conflict ρ} (h : paths.LinksSound net)
    (hc : net.negativeCycle paths entry = .ok c) : net.Refutes c := by
  unfold Network.negativeCycle at hc
  cases hcycle : paths.links.cycle entry with
  | error e => rw [hcycle] at hc; cases hc
  | ok walk =>
    rw [hcycle] at hc
    cases hc
    obtain ⟨v, l, hl, hne, rfl, hneg, hsimple⟩ := h.cycle_eq_ok hcycle
    rw [hl.reasonsAlong_visited hnet.distinct]
    exact .negativeCycle hl hne hneg hsimple

/-! ### Tightening -/

/-- The conflict selected is the first of those with the fewest reasons. -/
theorem Conflict.firstLeast_of_fewestReasons? {c : Conflict ρ} {cs : List (Conflict ρ)}
    (h : fewestReasons? cs = some c) : FirstLeast (fun d => d.reasons.length) cs c := by
  cases cs with
  | nil => cases h
  | cons best cs =>
    obtain rfl := Option.some.inj h
    exact firstLeast_foldl (fun d => d.reasons.length) best cs

namespace TightSubgraph

/-- What a search finds in the subgraph is what a walk in it visits. -/
theorem exists_walk_of_path {sub : TightSubgraph w ρ n} {u v : Fin sub.size}
    {path : List (Fin sub.size)} (h : sub.digraph.path u v = .ok path) :
    ∃ l, Walk sub.arcs u v l ∧ visited u l = path ∧ path.Nodup := by
  obtain ⟨-, hchain, hn, hhead, hlast⟩ := Digraph.path_eq_ok h
  obtain ⟨vs, rfl⟩ := List.head?_eq_some_iff.1 hhead
  have hjoined := hchain.imp fun x y hxy => mem_next_iff.1 hxy
  obtain ⟨x, l, hl, hvis⟩ := exists_walk_of_isChain hjoined
  obtain rfl : v = x := by
    rw [← hvis, hl.getLast?_visited] at hlast
    exact (Option.some.inj hlast).symm
  exact ⟨l, hl, hvis, hn⟩

/-- The cycle of a violation goes there and back. -/
theorem exists_walks_of_cycle {sub : TightSubgraph w ρ n} {x : Violation sub.size}
    {walk : List (Fin sub.size)} (h : x.cycle sub.digraph = .ok walk) :
    ∃ there back, Walk sub.arcs x.positive x.negative there ∧
      Walk sub.arcs x.negative x.positive back ∧ (visited x.positive there).Nodup ∧
      walk = visited x.positive (there ++ back) := by
  simp only [Violation.cycle, bind_eq_ok_iff, pure_eq_ok_iff] at h
  obtain ⟨_, hthere, _, hback, rfl⟩ := h
  obtain ⟨there, hl, rfl, hn⟩ := exists_walk_of_path hthere
  obtain ⟨back, hm, rfl, -⟩ := exists_walk_of_path hback
  exact ⟨there, back, hl, hm, hn, by simp [visited]⟩

/-- A violation of a split variable is between vertices of one component whose distances differ
oddly. -/
theorem violation?_eq_some_iff {sub : TightSubgraph w ρ n} {components : Components sub.size}
    {paths : Paths w n} {s : Split n} {x : Violation sub.size} :
    sub.violation? components paths s = some x ↔ s.var = x.var ∧
      sub.number s.positive = some x.positive ∧ sub.number s.negative = some x.negative ∧
      components.same x.positive x.negative = true ∧
      (paths.distance s.positive).differsOddly (paths.distance s.negative) = true := by
  obtain ⟨x, positive, negative⟩ := x
  simp only [violation?, Option.bind_eq_bind, Option.bind_eq_some_iff,
    Option.ite_none_right_eq_some, Bool.and_eq_true, Option.some.injEq, Violation.mk.injEq]
  constructor
  · rintro ⟨_, hp, _, hn, ⟨hsame, hodd⟩, rfl, rfl, rfl⟩
    exact ⟨rfl, hp, hn, hsame, hodd⟩
  · rintro ⟨rfl, hp, hn, hsame, hodd⟩
    exact ⟨_, hp, _, hn, ⟨hsame, hodd⟩, rfl, rfl, rfl⟩

/-- The violations found are those of the split variables. -/
theorem mem_violations_iff {sub : TightSubgraph w ρ n} {components : Components sub.size}
    {paths : Paths w n} {splits : List (Split n)} {x : Violation sub.size} :
    x ∈ sub.violations components paths splits ↔ ∃ s ∈ splits, s.var = x.var ∧
      sub.number s.positive = some x.positive ∧ sub.number s.negative = some x.negative ∧
      components.same x.positive x.negative = true ∧
      (paths.distance s.positive).differsOddly (paths.distance s.negative) = true := by
  simp only [violations, List.mem_filterMap, violation?_eq_some_iff]

theorem exists_conflict_of_select {sub : TightSubgraph w ρ n} {selection : Selection}
    {xs : List (Violation sub.size)} {c : Conflict ρ}
    (h : sub.select selection xs = .ok (some c)) : ∃ x ∈ xs, sub.conflict x = .ok c := by
  cases selection with
  | firstViolation =>
    cases xs with
    | nil => cases h
    | cons x xs =>
      have hx : (some <$> sub.conflict x) = .ok (some c) := h
      cases hc : sub.conflict x with
      | error e => rw [hc] at hx; cases hx
      | ok d =>
        rw [hc] at hx
        cases hx
        exact ⟨x, List.mem_cons_self .., hc⟩
  | smallest =>
    simp only [select, bind_eq_ok_iff, pure_eq_ok_iff] at h
    obtain ⟨cs, hcs, hfewest⟩ := h
    exact exists_of_mem_mapM hcs (Conflict.firstLeast_of_fewestReasons? hfewest).mem

/-- No conflict is reported only where there is no violation. -/
theorem eq_nil_of_select {sub : TightSubgraph w ρ n} {selection : Selection}
    {xs : List (Violation sub.size)} (h : sub.select selection xs = .ok none) : xs = [] := by
  cases selection with
  | firstViolation =>
    cases xs with
    | nil => rfl
    | cons x xs =>
      have hx : (some <$> sub.conflict x) = .ok none := h
      cases hc : sub.conflict x <;> rw [hc] at hx <;> cases hx
  | smallest =>
    simp only [select, bind_eq_ok_iff, pure_eq_ok_iff] at h
    obtain ⟨cs, hcs, hfewest⟩ := h
    cases cs with
    | nil => exact List.forall₂_nil_right_iff.1 (mapM_eq_ok_iff.1 hcs)
    | cons c cs => cases hfewest

/-- The conflict of a violation is a closed walk along the arcs that the subgraph was made of. -/
theorem exists_walks_of_conflict {arcs : List (Arc w ρ n)}
    (hd : (arcs.map fun a => (a.source, a.target)).Nodup) {x : Violation (ofArcs arcs).size}
    {c : Conflict ρ} (h : (ofArcs arcs).conflict x = .ok c) :
    ∃ there back, Walk arcs ((ofArcs arcs).members x.positive) ((ofArcs arcs).members x.negative)
        there ∧
      Walk arcs ((ofArcs arcs).members x.negative) ((ofArcs arcs).members x.positive) back ∧
      (visited ((ofArcs arcs).members x.positive) there).Nodup ∧
      c = .ofWalk (.tightening x.var) ((ofArcs arcs).members x.positive) (there ++ back) := by
  unfold conflict at h
  cases hcycle : x.cycle (ofArcs arcs).digraph with
  | error e => rw [hcycle] at h; cases h
  | ok walk =>
    rw [hcycle] at h
    cases h
    obtain ⟨there, back, hthere, hback, hsimple, rfl⟩ := exists_walks_of_cycle hcycle
    refine ⟨_, _, walk_map_original hthere, walk_map_original hback, ?_, ?_⟩
    · rw [visited_map_original]
      exact hsimple.map members_injective
    · rw [(hthere.append hback).reasonsAlong_visited (distinct_ofArcs hd), Conflict.ofWalk,
        ← List.map_append, visited_map_original, List.map_map, List.flatMap_map]
      rfl

end TightSubgraph

/-- A conflict that tightening finds is a closed walk of tight arcs. -/
theorem Network.Rooted.refutes_of_tighten (hnet : net.Rooted) {paths : Paths w (n + 1)}
    {selection : Selection} {c : Conflict ρ} (h : ∀ v, paths.dist v ≤ 0)
    (hc : (net.tighten selection paths).conflict = .ok (some c)) : net.Refutes c := by
  simp only [Network.tighten] at hc
  split at hc
  · cases hc
  obtain ⟨x, hx, hconflict⟩ := TightSubgraph.exists_conflict_of_select hc
  obtain ⟨⟨y, p, q⟩, hs, rfl, hpos, hneg, -, hodd⟩ := TightSubgraph.mem_violations_iff.1 hx
  obtain rfl := TightSubgraph.number_eq_some_iff.1 hpos
  obtain rfl := TightSubgraph.number_eq_some_iff.1 hneg
  obtain ⟨there, back, hthere, hback, hsimple, rfl⟩ :=
    TightSubgraph.exists_walks_of_conflict hnet.distinct_tightArcs hconflict
  exact .tightening h hs hthere hback hsimple (Weight.differsOddly_iff.1 hodd)

/-! ### Answers -/

/-- What an answer says of the network. -/
def Answer.Explains (net : Network w ρ n) (o : Options) (overflow : Overflow) : Answer ρ → Prop
  | .satisfiable => ∃ paths : Paths w (n + 1),
      (overflow.NeverHides o.relaxation net.arcs.length → paths.Settled net) ∧
        (net.tighten o.explanation paths).conflict = .ok none
  | .unsatisfiable c => net.Refutes c

namespace Graph

variable {g : Graph w ρ}

theorem refute_eq {c : Conflict ρ} {a : Answer ρ} (h : (g.refute c).1 = .ok a) :
    a = .unsatisfiable c := by
  unfold refute at h
  split at h
  · cases h
  · dsimp only at h
    split at h
    · cases h
    · exact (Except.ok.inj h).symm

/-- Where a solver answers, a reported conflict refutes the network; without a conflict tightening
finds none, and the distances are settled unless the count of a round hid improvements. -/
theorem IsNetwork.answer_explains {net : Network w ρ g.occurrences.size} (h : g.IsNetwork net)
    {o : Options} {overflow : Overflow} {a : Answer ρ} (ha : (g.solve o overflow).answer = .ok a) :
    a.Explains net o overflow := by
  have hexp := net.outcome_explains h.rooted overflow o.relaxation
  simp only [solve, h.network_eq] at ha
  cases hout : (net.shortestPaths overflow o.relaxation).ending.outcome with
  | tooShort target => rw [hout] at ha; cases ha
  | miscounted => rw [hout] at ha; cases ha
  | negativeCycle paths entry =>
    rw [hout] at ha hexp
    cases hcycle : net.negativeCycle paths entry with
    | error e => simp only [hcycle] at ha; cases ha
    | ok c =>
      simp only [hcycle] at ha
      obtain rfl := refute_eq ha
      exact h.rooted.refutes_of_negativeCycle hexp.1 hcycle
  | distances paths =>
    rw [hout] at ha hexp
    cases hconflict : (net.tighten o.explanation paths).conflict with
    | error e => simp only [hconflict] at ha; cases ha
    | ok found =>
      cases found with
      | none =>
        simp only [hconflict] at ha
        cases ha
        exact ⟨paths, fun hhides => (hexp.2 hhides).2, hconflict⟩
      | some c =>
        simp only [hconflict] at ha
        obtain rfl := refute_eq ha
        exact h.rooted.refutes_of_tighten (hexp.1.dist_le_zero h.rooted) hconflict

end Graph

end Octagon

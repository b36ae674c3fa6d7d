import Octagon.Proofs.Completeness
import Octagon.Proofs.FewestArcs
import Octagon.Proofs.Graph.Embedding
import Octagon.Proofs.Outcome

/-!
Tightening finds exactly the odd circuits. A circuit that weighs nothing consists of tight arcs, so
`x+` and `x-` reach each other along them, and what the way from one to the other weighs is the
difference of their distances. The other way round, the cycle of a violation is a circuit there and
back. Where each component is a single vertex no circuit passes two, so nothing is missed there.
-/

namespace Octagon

variable {w : Width} {ρ : Type} {n : Nat}

/-- The variables that tightening refutes under `paths`, with their vertices among the tight
arcs. -/
def Network.violations (net : Network w ρ n) (paths : Paths w (n + 1)) :
    List (Violation (net.tightSubgraph paths).size) :=
  (net.tightSubgraph paths).violations (net.tightSubgraph paths).digraph.components paths net.splits

/-! ### Ways among tight arcs -/

/-- A walk along the arcs of a subgraph is a way of as many arcs between the numbers of its ends. -/
theorem TightSubgraph.leads_of_walk {arcs l : List (Arc w ρ n)} {p q : Fin n}
    {i j : Fin (ofArcs arcs).size} (hl : Walk arcs p q l) (hp : (ofArcs arcs).number p = some i)
    (hq : (ofArcs arcs).number q = some j) : (ofArcs arcs).digraph.Leads l.length i j := by
  induction l generalizing p i with
  | nil =>
    obtain rfl : p = q := hl
    exact Option.some.inj (hp.symm.trans hq)
  | cons a l ih =>
    obtain ⟨ha, rfl, hl⟩ := hl
    obtain ⟨i', j', hi', hj', hnext⟩ := exists_next ha
    obtain rfl : i = i' := Option.some.inj (hp.symm.trans hi')
    exact (ih hl hj').head hnext

namespace Network

variable {net : Network w ρ n} {paths : Paths w (n + 1)} {x : Split (n + 1)}

/-- Where tight arcs lead from `x+` to `x-` and back, oddly, tightening refutes `x`. -/
theorem mem_violations_of_walks (hx : x ∈ net.splits) {there back : List (Arc w ρ (n + 1))}
    (hthere : Walk (net.tightArcs paths) x.positive x.negative there)
    (hback : Walk (net.tightArcs paths) x.negative x.positive back)
    (hodd : exactWeight there % 2 = 1) : ∃ i j, ⟨x.var, i, j⟩ ∈ net.violations paths ∧
      (net.tightSubgraph paths).digraph.Leads there.length i j ∧
      (net.tightSubgraph paths).digraph.Leads back.length j i := by
  obtain ⟨⟨a, ha, hasource⟩, b, hb, hbsource⟩ := exists_sources_of_odd hthere hback hodd
  obtain ⟨i, hi⟩ := TightSubgraph.exists_number_iff.2 ⟨a, ha, .inl hasource⟩
  obtain ⟨j, hj⟩ := TightSubgraph.exists_number_iff.2 ⟨b, hb, .inl hbsource⟩
  have hgo := TightSubgraph.leads_of_walk hthere hi hj
  have hreturn := TightSubgraph.leads_of_walk hback hj hi
  refine ⟨i, j, ?_, hgo, hreturn⟩
  refine TightSubgraph.mem_violations_iff.2 ⟨x, hx, rfl, hi, hj, ?_, ?_⟩
  · exact Digraph.same_components_iff.2 ⟨hgo.reaches, hreturn.reaches⟩
  · exact Weight.differsOddly_iff.2 (exactWeight_of_tight hthere ▸ hodd)

/-- Under settled distances an odd circuit is a way there and back among tight arcs, of as many arcs
together, so tightening refutes its variable. -/
theorem OddCircuit.exists_violation (hnet : net.Rooted) (hset : paths.Settled net)
    (hx : x ∈ net.splits) {v : Fin (n + 1)} {l : List (Arc w ρ (n + 1))} {i j : Nat}
    (h : net.OddCircuit x v l i j) : ∃ p q, ⟨x.var, p, q⟩ ∈ net.violations paths ∧
      ∃ there back, there + back = l.length ∧
        (net.tightSubgraph paths).digraph.Leads there p q ∧
        (net.tightSubgraph paths).digraph.Leads back q p := by
  obtain ⟨there, back, hthere, hback, hperm, -, hodd⟩ := h.exists_walks
  have htight := walk_tightArcs hnet hset h.walk h.weight_eq
  have hmem : ∀ a ∈ there ++ back, a ∈ net.tightArcs paths := fun a ha =>
    htight.mem a (hperm.subset ha)
  obtain ⟨p, q, hviol, hgo, hreturn⟩ := mem_violations_of_walks hx
    (hthere.mono fun a ha => hmem a (List.mem_append_left _ ha))
    (hback.mono fun a ha => hmem a (List.mem_append_right _ ha)) hodd
  exact ⟨p, q, hviol, _, _, List.length_append.symm.trans hperm.length_eq, hgo, hreturn⟩

/-- The cycle of a violation is an odd circuit. -/
theorem Rooted.exists_oddCircuit (hnet : net.Rooted)
    {y : Violation (net.tightSubgraph paths).size} (hy : y ∈ net.violations paths) :
    ∃ x ∈ net.splits, x.var = y.var ∧ (net.tightSubgraph paths).members y.positive = x.positive ∧
      (net.tightSubgraph paths).members y.negative = x.negative ∧
      ∃ v l i j, net.OddCircuit x v l i j := by
  obtain ⟨⟨x, p, q⟩, hx, hvar, hpos, hneg, -, hodd⟩ := TightSubgraph.mem_violations_iff.1 hy
  obtain rfl := TightSubgraph.number_eq_some_iff.1 hpos
  obtain rfl := TightSubgraph.number_eq_some_iff.1 hneg
  obtain ⟨c, hc⟩ := TightSubgraph.exists_conflict_eq_ok hy
  obtain ⟨there, back, hthere, hback, -, -⟩ :=
    TightSubgraph.exists_walks_of_conflict hnet.distinct_tightArcs hc
  have hclosed := hthere.append hback
  refine ⟨_, hx, hvar, rfl, rfl, _, there ++ back, 0, there.length,
    ⟨walk_of_tightArcs hclosed, ?_, rfl, ?_, ?_⟩⟩
  · rw [exactWeight_of_tight hclosed, sub_self]
  · exact hthere.getElem?_visited_append back
  · have hsegment : segment (there ++ back) 0 there.length = there := by simp [segment]
    rw [hsegment, exactWeight_of_tight hthere]
    exact Weight.differsOddly_iff.1 hodd

/-- Under settled distances a split variable is refuted exactly if it has an odd circuit. -/
theorem Rooted.mem_violations_iff (hnet : net.Rooted) (hset : paths.Settled net) {y : Variable} :
    y ∈ (net.violations paths).map Violation.var ↔
      ∃ x ∈ net.splits, x.var = y ∧ ∃ v l i j, net.OddCircuit x v l i j := by
  constructor
  · intro hy
    obtain ⟨z, hz, rfl⟩ := List.mem_map.1 hy
    obtain ⟨x, hx, hvar, -, -, hodd⟩ := hnet.exists_oddCircuit hz
    exact ⟨x, hx, hvar, hodd⟩
  · rintro ⟨x, hx, rfl, v, l, i, j, hodd⟩
    obtain ⟨p, q, hviol, -⟩ := hodd.exists_violation hnet hset hx
    exact List.mem_map.2 ⟨_, hviol, rfl⟩

/-- Where each component is a single vertex nothing is refuted: the ends of a violation differ. -/
theorem violations_of_allSingle
    (h : (net.tightSubgraph paths).digraph.components.allSingle = true) :
    net.violations paths = [] := by
  refine List.eq_nil_iff_forall_not_mem.2 fun y hy => ?_
  obtain ⟨x, -, -, hpos, hneg, hsame, hodd⟩ := TightSubgraph.mem_violations_iff.1 hy
  have heq := Digraph.eq_of_allSingle h (beq_iff_eq.1 hsame)
  have hends : x.positive = x.negative := by
    rw [← TightSubgraph.number_eq_some_iff.1 hpos, heq, TightSubgraph.number_eq_some_iff.1 hneg]
  rw [Weight.differsOddly_iff, hends] at hodd
  omega

/-- So to look for violations first is not needed there, and what is found is the same. -/
theorem tighten_eq_select (net : Network w ρ n) (selection : Selection) (paths : Paths w (n + 1)) :
    (net.tighten selection paths).conflict =
      (net.tightSubgraph paths).select selection (net.violations paths) := by
  simp only [tighten]
  split
  · rename_i h
    rw [violations_of_allSingle h]
    cases selection <;> rfl
  · rfl

end Network

/-! ### Reports -/

namespace TightSubgraph

variable {sub : TightSubgraph w ρ n}

theorem kind_of_conflict {x : Violation sub.size} {c : Conflict ρ}
    (h : sub.conflict x = .ok c) : c.kind = .tightening x.var := by
  unfold conflict at h
  split at h
  · cases h
    rfl
  · cases h

/-- The first violation, if there is one, is the one that the conflict is about. -/
theorem kind_of_select {xs : List (Violation sub.size)} {found : Option (Conflict ρ)}
    (h : sub.select .firstViolation xs = .ok found) :
    found.map Conflict.kind = xs.head?.map fun x => .tightening x.var := by
  cases xs with
  | nil =>
    obtain rfl : none = found := Except.ok.inj h
    rfl
  | cons x xs =>
    have hx : (some <$> sub.conflict x) = .ok found := h
    cases hc : sub.conflict x with
    | error e => rw [hc] at hx; cases hx
    | ok c =>
      rw [hc] at hx
      obtain rfl : some c = found := Except.ok.inj hx
      rw [Option.map_some, kind_of_conflict hc]
      rfl

end TightSubgraph

namespace Graph

namespace IsNetwork

variable {g : Graph w ρ} {net : Network w ρ g.occurrences.size}
  {paths : Paths w (g.occurrences.size + 1)} (h : g.IsNetwork net)

include h

/-- An odd circuit avoids the root. -/
theorem root_notMem_oddCircuit {x : Split (g.occurrences.size + 1)}
    {v : Fin (g.occurrences.size + 1)} {l : List (Arc w ρ (g.occurrences.size + 1))} {i j : Nat}
    (hl : net.OddCircuit x v l i j) : Network.root _ ∉ visited v l := by
  have hne : l ≠ [] := by
    have hodd := hl.odd
    rintro rfl
    simp [segment] at hodd
  intro hmem
  exact root_notMem_visited h.rooted hl.walk hne (List.mem_map.2 ⟨_, hmem, rfl⟩)

/-- Violations are of variables of the graph, by the vertices of their occurrences. -/
theorem vertex?_violation {a : Violation (net.tightSubgraph paths).size}
    (ha : a ∈ net.violations paths) :
    g.vertex? a.var.positive = some ((net.tightSubgraph paths).members a.positive).val ∧
      g.vertex? a.var.negative = some ((net.tightSubgraph paths).members a.negative).val := by
  obtain ⟨x, hx, hvar, hpos, hneg, -⟩ := h.rooted.exists_oddCircuit ha
  rw [← hvar, hpos, hneg]
  exact h.vertex?_split hx

/-- Violations are found in the order of the vertices of the positive occurrences. -/
theorem violations_pairwise : (net.violations paths).Pairwise fun a b =>
    (net.tightSubgraph paths).members a.positive < (net.tightSubgraph paths).members b.positive := by
  refine h.splits_pairwise.filterMap _ fun s t hst a ha b hb => ?_
  obtain ⟨-, hs, -⟩ := TightSubgraph.violation?_eq_some_iff.1 ha
  obtain ⟨-, ht, -⟩ := TightSubgraph.violation?_eq_some_iff.1 hb
  have hs' : (net.tightSubgraph paths).members a.positive = s.positive :=
    TightSubgraph.number_eq_some_iff.1 hs
  have ht' : (net.tightSubgraph paths).members b.positive = t.positive :=
    TightSubgraph.number_eq_some_iff.1 ht
  rw [hs', ht']
  exact hst

/-- Each variable is found once. -/
theorem nodup_violations : ((net.violations paths).map Violation.var).Nodup := by
  refine List.pairwise_map.2 (h.violations_pairwise.imp_of_mem fun {a b} ha hb hlt heq => ?_)
  have hvertex := (h.vertex?_violation ha).1
  rw [heq, (h.vertex?_violation hb).1, Option.some.injEq] at hvertex
  exact lt_irrefl _ (Fin.ext hvertex ▸ hlt)

/-- A variable is refuted exactly if it has an odd circuit. -/
theorem mem_violations_iff (hset : paths.Settled net) {x : Variable} :
    x ∈ (net.violations paths).map Violation.var ↔
      ∃ p q, g.vertex? x.positive = some p.val ∧ g.vertex? x.negative = some q.val ∧
        ∃ v l i j, Network.root _ ∉ visited v l ∧ net.OddCircuit ⟨x, p, q⟩ v l i j := by
  rw [h.rooted.mem_violations_iff hset]
  constructor
  · rintro ⟨⟨x, p, q⟩, hx, rfl, v, l, i, j, hl⟩
    obtain ⟨hp, hq⟩ := h.vertex?_split hx
    exact ⟨p, q, hp, hq, v, l, i, j, h.root_notMem_oddCircuit hl, hl⟩
  · rintro ⟨p, q, hp, hq, v, l, i, j, -, hl⟩
    exact ⟨⟨x, p, q⟩, (h.mem_splits_iff x p q).2 ⟨hp, hq⟩, rfl, v, l, i, j, hl⟩

end IsNetwork

/-- Where the search finds distances, the variables that tightening refutes are those with an odd
circuit, a closed walk of weight 0 that avoids the root and passes `x+` and `x-`, oddly from the one
to the other, unless the count of a round hid improvements. Each is found once, by ascending
vertices of `x+`, and the first one is what a solver reports that looks for no smaller conflict.
Where every component is a single vertex there is none, so it makes no difference that a solver does
not look for them then. -/
theorem violations_of_distances (calls : List (Call w ρ)) (overflow : Overflow)
    (strategy : Strategy) :
    ∃ net, (ofCalls calls).network = .ok net ∧
      net.arcs.map Arc.edge = (ofCalls calls).edges.toList ∧
      ∀ paths, (net.shortestPaths overflow strategy).ending.outcome = .distances paths →
        (overflow.NeverHides strategy (ofCalls calls).numEdges → ∀ x,
          x ∈ (net.violations paths).map Violation.var ↔
            ∃ p q, (ofCalls calls).vertex? x.positive = some p.val ∧
              (ofCalls calls).vertex? x.negative = some q.val ∧
              ∃ v l i j, Network.root _ ∉ visited v l ∧ net.OddCircuit ⟨x, p, q⟩ v l i j) ∧
        ((net.violations paths).map Violation.var).Nodup ∧
        (net.violations paths).Pairwise (fun a b => (net.tightSubgraph paths).members a.positive <
          (net.tightSubgraph paths).members b.positive) ∧
        (∀ a ∈ net.violations paths, (ofCalls calls).vertex? a.var.positive =
          some ((net.tightSubgraph paths).members a.positive).val) ∧
        (∃ found : Option (Conflict ρ),
          ((ofCalls calls).solve ⟨strategy, .firstViolation⟩ overflow).answer =
            .ok (.ofFound found) ∧
          found.map Conflict.kind = (net.violations paths).head?.map fun a => .tightening a.var) ∧
        ((net.tightSubgraph paths).digraph.components.allSingle = true →
          net.violations paths = []) ∧
        ∀ selection, (net.tighten selection paths).conflict =
          (net.tightSubgraph paths).select selection (net.violations paths) := by
  obtain ⟨net, hnet⟩ := (valid_ofCalls calls).exists_isNetwork
  refine ⟨net, hnet.network_eq, hnet.map_edge, fun paths hout => ?_⟩
  have hexp := net.outcome_explains hnet.rooted overflow strategy
  rw [hout] at hexp
  obtain ⟨found, hfound, hanswer⟩ :=
    hnet.answer_of_distances (o := ⟨strategy, .firstViolation⟩) hout
  rw [net.tighten_eq_select] at hfound
  have hset := fun hhides => (hexp.2 (hnet.length_arcs.symm ▸ hhides)).2
  exact ⟨fun hhides x => hnet.mem_violations_iff (hset hhides), hnet.nodup_violations,
    hnet.violations_pairwise, fun a ha => (hnet.vertex?_violation ha).1,
    ⟨found, hanswer, TightSubgraph.kind_of_select hfound⟩, Network.violations_of_allSingle,
    fun selection => net.tighten_eq_select selection paths⟩

/-- The circuit behind the conflict that pins `2x` to 1. -/
theorem exists_oddCircuit_of_oddSquare : ∃ net paths, (ofCalls oddSquare).network = .ok net ∧
    (net.shortestPaths .checked .earlyExit).ending.outcome = .distances paths ∧
    (⟨0⟩ : Variable) ∈ (net.violations paths).map Violation.var ∧
    ∃ p q, (ofCalls oddSquare).vertex? ⟨⟨0⟩, .positive⟩ = some p.val ∧
      (ofCalls oddSquare).vertex? ⟨⟨0⟩, .negative⟩ = some q.val ∧
      ∃ v l i j, Network.root _ ∉ visited v l ∧ net.OddCircuit ⟨⟨0⟩, p, q⟩ v l i j := by
  have hsolve : ((ofCalls oddSquare).solve {}).answer = .ok (.unsatisfiable oddCycle) := by
    decide +kernel
  obtain ⟨net, hnet⟩ := (valid_ofCalls oddSquare).exists_isNetwork
  obtain ⟨paths, hout⟩ := hnet.exists_distances hsolve fun c hc => by cases hc; decide
  obtain ⟨net', hnet', -, h⟩ := violations_of_distances oddSquare .checked .earlyExit
  obtain rfl : net = net' := Except.ok.inj (hnet.network_eq.symm.trans hnet')
  obtain ⟨hiff, -, -, -, ⟨found, hanswer, hkind⟩, -⟩ := h paths hout
  have hmem : (⟨0⟩ : Variable) ∈ (net.violations paths).map Violation.var := by
    cases found with
    | none => cases hsolve.symm.trans hanswer
    | some c =>
      cases hsolve.symm.trans hanswer
      obtain ⟨a, ha, hvar⟩ := Option.map_eq_some_iff.1 hkind.symm
      exact List.mem_map.2 ⟨a, List.mem_of_mem_head? ha, ConflictKind.tightening.inj hvar⟩
  exact ⟨net, paths, hnet.network_eq, hout, hmem, (hiff nofun ⟨0⟩).1 hmem⟩

/-- `x+ ≤ x- - 1` and `x- ≤ x+ + 1`, where one round brings `x+` to -5 and `x-` to -9. -/
def lateLoop : List (Call .bits8 Nat) :=
  [.newVariable, .newVariable,
    .addEdge ⟨⟨⟨0⟩, .negative⟩, ⟨⟨0⟩, .positive⟩, (Weight.ofInt? (-1)).getD 0⟩ 1,
    .addEdge ⟨⟨⟨1⟩, .positive⟩, ⟨⟨0⟩, .positive⟩, (Weight.ofInt? (-5)).getD 0⟩ 2,
    .addEdge ⟨⟨⟨0⟩, .positive⟩, ⟨⟨0⟩, .negative⟩, (Weight.ofInt? 1).getD 0⟩ 3,
    .addEdge ⟨⟨⟨1⟩, .negative⟩, ⟨⟨0⟩, .negative⟩, (Weight.ofInt? (-9)).getD 0⟩ 4]

/-- The cycle of the loop, which weighs nothing. -/
def lateCycle : Conflict Nat := ⟨.tightening ⟨0⟩, [1, 2, 1], [3, 1]⟩

/-- Beside a late loop so many variables that the first round improves 2³² times. -/
def hiddenLateLoop : List (Call .bits8 Nat) :=
  lateLoop ++ List.replicate (2 ^ 31 - 4) .newVariable

/-- Where a count wraps, the distances of the first round are taken for settled, and the loop is not
tight under these. -/
theorem no_violations_hiddenLateLoop : ∃ net paths, (ofCalls hiddenLateLoop).network = .ok net ∧
    (net.shortestPaths .wrapping .earlyExit).ending.outcome = .distances paths ∧
    net.violations paths = [] ∧
    ∃ p q, (ofCalls hiddenLateLoop).vertex? ⟨⟨0⟩, .positive⟩ = some p.val ∧
      (ofCalls hiddenLateLoop).vertex? ⟨⟨0⟩, .negative⟩ = some q.val ∧
      ∃ v l i j, Network.root _ ∉ visited v l ∧ net.OddCircuit ⟨⟨0⟩, p, q⟩ v l i j := by
  unfold hiddenLateLoop
  have hround : (ofCalls lateLoop).firstRound .firstViolation = some (.completed 8 (.ok none)) := by
    decide +kernel
  have hcheck : (ofCalls lateLoop).check lateCycle = .ok () := by decide +kernel
  have hpads := pads_ofCalls lateLoop (n := 2 ^ 31 - 4) (by decide +kernel)
  obtain ⟨net, hnet, paths, hsearch, hnone⟩ :=
    exists_settled_of_firstRound lateLoop (n := 2 ^ 31 - 4) (by decide +kernel) hround (by decide)
      (by decide)
  obtain ⟨hcycle, -⟩ :=
    check_eq_ok_iff.1 (hpads.check_mono (valid_ofCalls _) (valid_ofCalls _) hcheck)
  obtain ⟨v, l, hl, hvis, hkind⟩ := hnet.exists_closed_of_checkCycle hcycle
  rw [← hvis] at hkind
  obtain ⟨⟨x, p, q⟩, hs, rfl, i, j, hodd⟩ := hnet.exists_oddCircuit_of_checkTightening hl hkind
  obtain ⟨hp, hq⟩ := hnet.vertex?_split hs
  refine ⟨net, paths, hnet.network_eq, by rw [hsearch]; rfl, ?_, p, q, hp, hq, v, l, i, j,
    hnet.root_notMem_oddCircuit hodd, hodd⟩
  rw [net.tighten_eq_select] at hnone
  have hkinds := TightSubgraph.kind_of_select hnone
  cases hviolations : net.violations paths with
  | nil => rfl
  | cons a rest =>
    rw [hviolations] at hkinds
    cases hkinds

end Graph

end Octagon

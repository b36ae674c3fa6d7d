import Octagon.Proofs.Outcome
import Octagon.Solver.Statistics

/-!
Counters account for every decision. A decision about a graph that calls build comes to one of four
verdicts: a fault, which comes up before any tight arc is looked for; satisfiable, the only one that
can follow from each component being a single vertex; or a conflict of one of two kinds, which has a
reason for every edge along its cycle. So the counters of the three answers leave out the faults and
nothing else, and a fault moves no counters but those of calls and rounds.
-/

namespace Octagon

/-- What a solver is asked: whether the graph that the calls build is satisfiable. -/
structure Query where
  {width : Width}
  {Reason : Type}
  calls : List (Call width Reason)

/-- The graph in question. -/
def Query.graph (q : Query) : Graph q.width q.Reason := .ofCalls q.calls

/-- The solver after it has been asked in order. -/
def Solver.run (s : Solver) (overflow : Overflow) (queries : List Query) : Solver :=
  queries.foldl (fun s q => (s.solve q.graph overflow).2) s

/-- What a decision comes to. -/
inductive Verdict where
  | satisfiable
  | negativeCycle
  | tightening
  | fault
  deriving DecidableEq

section report

variable {ρ : Type}

/-- What the decision came to. -/
def Report.verdict (r : Report ρ) : Verdict :=
  match r.answer with
  | .error _ => .fault
  | .ok .satisfiable => .satisfiable
  | .ok (.unsatisfiable c) => match c.kind with
    | .negativeCycle => .negativeCycle
    | .tightening _ => .tightening

/-- The number of edges along the cycle of the conflict; 0 without a conflict. -/
def Report.cycleEdges (r : Report ρ) : Nat :=
  match r.answer with
  | .ok (.unsatisfiable c) => c.cycle.length - 1
  | _ => 0

end report

/-- The number of queries that come to a verdict. -/
def Query.tally (o : Options) (overflow : Overflow) (queries : List Query) (v : Verdict) : Nat :=
  queries.countP fun q => (q.graph.solve o overflow).verdict = v

/-- Some distance underflows in the search for shortest paths. -/
def Graph.Underflows {w : Width} {ρ : Type} (g : Graph w ρ) (overflow : Overflow)
    (strategy : Strategy) : Prop :=
  ∃ net paths target, g.network = .ok net ∧
    (net.shortestPaths overflow strategy).ending = .underflowed paths target

/-- The counters after some queries. -/
structure Statistics.Accounts (o : Options) (overflow : Overflow) (queries : List Query)
    (t : Statistics) : Prop where
  calls_eq : t.calls = queries.length
  calls_eq_add : t.calls = t.satisfiable + t.negativeCycles + t.tightenings +
    Query.tally o overflow queries .fault
  satisfiable_eq : t.satisfiable = Query.tally o overflow queries .satisfiable
  negativeCycles_eq : t.negativeCycles = Query.tally o overflow queries .negativeCycle
  tightenings_eq : t.tightenings = Query.tally o overflow queries .tightening
  singletonPartitions_le : t.singletonPartitions ≤ t.satisfiable
  reasons_eq : t.reasons = (queries.map fun q => (q.graph.solve o overflow).cycleEdges).sum

/-- How the counters move with one more query. -/
structure Statistics.Advances (o : Options) (overflow : Overflow) (q : Query)
    (t after : Statistics) : Prop where
  rounds_mono : t.rounds ≤ after.rounds
  rounds_le : after.rounds ≤ t.rounds + (q.graph.numVertices - 1)
  rounds_eq : o.relaxation = .full → overflow.NeverFaults q.graph.numEdges →
    ¬q.graph.Underflows overflow .full → after.rounds = t.rounds + (q.graph.numVertices - 1)
  eq_of_fault : (q.graph.solve o overflow).verdict = .fault →
    after = { t with calls := t.calls + 1, rounds := after.rounds }

variable {w : Width} {ρ : Type} {n : Nat}

/-! ### Rounds -/

theorem Paths.explore_rounds_le (overflow : Overflow) (strategy : Strategy)
    (arcs : List (Arc w ρ n)) : ∀ (rounds : Nat) (paths : Paths w n),
      (explore overflow strategy arcs rounds paths).rounds ≤ rounds
  | 0, _ => le_rfl
  | rounds + 1, paths => by
      unfold explore
      split
      · exact Nat.succ_le_succ (Nat.zero_le rounds)
      · exact Nat.succ_le_succ (Nat.zero_le rounds)
      · split
        · exact Nat.succ_le_succ (Nat.zero_le rounds)
        · exact Nat.succ_le_succ (explore_rounds_le overflow strategy arcs rounds _)

/-- A full search runs all its rounds if it neither underflows nor loses count. -/
theorem Paths.explore_full_rounds {overflow : Overflow} {arcs : List (Arc w ρ n)} :
    ∀ {rounds : Nat} {paths : Paths w n},
      (explore overflow .full arcs rounds paths).ending ≠ .overflowed →
      (∀ after target,
        (explore overflow .full arcs rounds paths).ending ≠ .underflowed after target) →
      (explore overflow .full arcs rounds paths).rounds = rounds
  | 0, _, _, _ => rfl
  | rounds + 1, paths, hover, hunder => by
      cases hround : paths.round overflow arcs with
      | underflowed after target =>
        exact absurd (by simp only [explore, hround]) (hunder after target)
      | overflowed => exact absurd (by simp only [explore, hround]) hover
      | completed after count =>
        have hrest : explore overflow .full arcs (rounds + 1) paths =
            let rest := explore overflow .full arcs rounds after
            ⟨rest.rounds + 1, count :: rest.improvements, rest.ending⟩ := by
          simp only [explore, hround, reduceCtorEq, false_and, if_false]
        rw [hrest] at hover hunder ⊢
        exact congrArg (· + 1) (explore_full_rounds hover hunder)

/-! ### Reports -/

theorem Report.verdict_eq_fault_iff {r : Report ρ} :
    r.verdict = .fault ↔ ∃ e, r.answer = .error e := by
  cases ha : r.answer with
  | error e => simp [verdict, ha]
  | ok a =>
    cases a with
    | satisfiable => simp [verdict, ha]
    | unsatisfiable c => cases hkind : c.kind <;> simp [verdict, ha, hkind]

/-- What the counters rely on in a report. -/
structure Report.Regular (r : Report ρ) : Prop where
  satisfiable_of_allSingle : r.allSingle = true → r.answer = .ok .satisfiable
  length_reasons : ∀ c, r.answer = .ok (.unsatisfiable c) → c.reasons.length = c.cycle.length - 1
  tightArcs_of_fault : ∀ e, r.answer = .error e → r.tightArcs = 0

/-- Where each component is a single vertex tightening looks for no conflict. -/
theorem Network.conflict_of_allSingle {net : Network w ρ n} {selection : Selection}
    {paths : Paths w (n + 1)} (h : (net.tighten selection paths).allSingle = true) :
    (net.tighten selection paths).conflict = .ok none := by
  have hsingle : (net.tightSubgraph paths).digraph.components.allSingle = true := h
  simp only [tighten, hsingle, if_true]

namespace Graph

variable {g : Graph w ρ} {net : Network w ρ g.occurrences.size}

namespace IsNetwork

variable (h : g.IsNetwork net) (o : Options) (overflow : Overflow)

include h

theorem rounds_solve :
    (g.solve o overflow).rounds = (net.shortestPaths overflow o.relaxation).rounds := by
  simp only [solve, h.network_eq]
  split <;> rfl

theorem regular_solve : (g.solve o overflow).Regular := by
  constructor
  case satisfiable_of_allSingle =>
    intro hsingle
    cases hout : (net.shortestPaths overflow o.relaxation).ending.outcome with
    | tooShort v => simp [solve, h.network_eq, hout] at hsingle
    | miscounted => simp [solve, h.network_eq, hout] at hsingle
    | negativeCycle paths entry => simp [solve, h.network_eq, hout] at hsingle
    | distances paths =>
      simp only [solve, h.network_eq, hout] at hsingle ⊢
      simp only [Network.conflict_of_allSingle hsingle]
  case length_reasons =>
    intro c hc
    have hrefutes : net.Refutes c := h.answer_explains hc
    obtain ⟨v, l, hl, -, hofWalk, -⟩ := hrefutes.exists_walk
    have hlen := length_reasons_ofWalk c.kind h.rooted hl
    rw [← hofWalk] at hlen
    omega
  case tightArcs_of_fault =>
    intro e he
    cases hout : (net.shortestPaths overflow o.relaxation).ending.outcome with
    | tooShort v => simp only [solve, h.network_eq, hout]
    | miscounted => simp only [solve, h.network_eq, hout]
    | negativeCycle paths entry => simp only [solve, h.network_eq, hout]
    | distances paths =>
      -- with distances there is an answer
      obtain ⟨found, -, hanswer⟩ := h.answer_of_distances hout
      cases hanswer.symm.trans he

theorem rounds_solve_le : (g.solve o overflow).rounds ≤ g.numVertices - 1 := by
  rw [h.rounds_solve]
  exact Paths.explore_rounds_le overflow o.relaxation net.arcs g.occurrences.size _

theorem rounds_solve_full (hfull : o.relaxation = .full)
    (hfaults : overflow.NeverFaults g.numEdges) (hunder : ¬g.Underflows overflow .full) :
    (g.solve o overflow).rounds = g.numVertices - 1 := by
  have hexp := net.shortestPaths_explains h.rooted overflow .full
  rw [h.rounds_solve, hfull]
  refine Paths.explore_full_rounds (fun heq => ?_) fun paths target heq =>
    hunder ⟨net, paths, target, h.network_eq, heq⟩
  rw [Network.shortestPaths, heq] at hexp
  exact hexp (h.length_arcs.symm ▸ hfaults)

end IsNetwork

end Graph

/-! ### Counters -/

/-- The counters with one more decision: its rounds and tight arcs, its verdict, and the edges along
the cycle of its conflict. -/
theorem Report.Regular.add_eq {r : Report ρ} (h : r.Regular) (t : Statistics) : t.add r =
    { calls := t.calls + 1
      satisfiable := t.satisfiable + if r.verdict = .satisfiable then 1 else 0
      negativeCycles := t.negativeCycles + if r.verdict = .negativeCycle then 1 else 0
      tightenings := t.tightenings + if r.verdict = .tightening then 1 else 0
      singletonPartitions := t.singletonPartitions + if r.allSingle then 1 else 0
      rounds := t.rounds + r.rounds
      tightArcs := t.tightArcs + r.tightArcs
      reasons := t.reasons + r.cycleEdges } := by
  unfold Statistics.add verdict cycleEdges
  cases ha : r.answer with
  | error e => rfl
  | ok a =>
    cases a with
    | satisfiable => rfl
    | unsatisfiable c =>
      have hlen := h.length_reasons c ha
      obtain ⟨kind, cycle, reasons⟩ := c
      simp only [Statistics.addConflict, ← hlen]
      cases kind <;> rfl

namespace Query

variable (o : Options) (overflow : Overflow) (q : Query)

theorem regular : (q.graph.solve o overflow).Regular := by
  obtain ⟨net, hnet⟩ := (Graph.valid_ofCalls q.calls).exists_isNetwork
  exact hnet.regular_solve o overflow

/-- A fault counts as a call with its rounds. -/
theorem add_of_fault (t : Statistics) (hfault : (q.graph.solve o overflow).verdict = .fault) :
    t.add (q.graph.solve o overflow) =
      { t with calls := t.calls + 1, rounds := (t.add (q.graph.solve o overflow)).rounds } := by
  have hregular := q.regular o overflow
  obtain ⟨e, he⟩ := Report.verdict_eq_fault_iff.1 hfault
  have hsingle : (q.graph.solve o overflow).allSingle = false := by
    refine Bool.eq_false_iff.2 fun hall => ?_
    cases he.symm.trans (hregular.satisfiable_of_allSingle hall)
  have hedges : (q.graph.solve o overflow).cycleEdges = 0 := by simp only [Report.cycleEdges, he]
  simp only [hregular.add_eq, hfault, hsingle, hedges, hregular.tightArcs_of_fault e he,
    reduceCtorEq, if_false, add_zero]

theorem rounds_add (t : Statistics) : (t.add (q.graph.solve o overflow)).rounds =
    t.rounds + (q.graph.solve o overflow).rounds := by
  rw [(q.regular o overflow).add_eq]

theorem advances (t : Statistics) : t.Advances o overflow q (t.add (q.graph.solve o overflow)) := by
  obtain ⟨net, hnet⟩ := (Graph.valid_ofCalls q.calls).exists_isNetwork
  have hrounds := q.rounds_add o overflow t
  constructor
  case rounds_mono => exact hrounds ▸ Nat.le_add_right _ _
  case rounds_le => exact hrounds ▸ Nat.add_le_add_left (hnet.rounds_solve_le o overflow) _
  case rounds_eq =>
    intro hfull hfaults hunder
    rw [hrounds]
    exact congrArg (t.rounds + ·) (hnet.rounds_solve_full o overflow hfull hfaults hunder)
  case eq_of_fault => exact q.add_of_fault o overflow t

theorem tally_concat (queries : List Query) (v : Verdict) : tally o overflow (queries ++ [q]) v =
    tally o overflow queries v + if (q.graph.solve o overflow).verdict = v then 1 else 0 := by
  simp [tally, List.countP_append, List.countP_singleton]

end Query

namespace Statistics

variable {o : Options} {overflow : Overflow} {queries : List Query} {t : Statistics}

/-- One more decision is accounted for as well. -/
theorem Accounts.add (h : t.Accounts o overflow queries) (q : Query) :
    (t.add (q.graph.solve o overflow)).Accounts o overflow (queries ++ [q]) := by
  obtain ⟨hcalls, hsum, hsat, hneg, htight, hsingle, hreasons⟩ := h
  have hregular := q.regular o overflow
  rw [hregular.add_eq]
  constructor
  case calls_eq => simp [hcalls]
  case calls_eq_add =>
    rw [q.tally_concat]
    cases (q.graph.solve o overflow).verdict <;> simp <;> omega
  case satisfiable_eq => rw [q.tally_concat, hsat]
  case negativeCycles_eq => rw [q.tally_concat, hneg]
  case tightenings_eq => rw [q.tally_concat, htight]
  case singletonPartitions_le =>
    refine Nat.add_le_add hsingle ?_
    split
    · rename_i hall
      rw [Report.verdict, hregular.satisfiable_of_allSingle hall, if_pos rfl]
    · exact Nat.zero_le _
  case reasons_eq => simp [hreasons]

end Statistics

/-! ### Solvers -/

namespace Solver

variable (s : Solver) (overflow : Overflow) (queries : List Query)

theorem run_concat (q : Query) : s.run overflow (queries ++ [q]) =
    ((s.run overflow queries).solve q.graph overflow).2 := by
  simp [run, List.foldl_append]

/-- A solver keeps its options. -/
theorem options_run : (s.run overflow queries).options = s.options := by
  induction queries using List.reverseRecOn with
  | nil => rfl
  | append_singleton queries q ih => rw [run_concat, ← ih]; rfl

theorem statistics_run_concat (q : Query) : (s.run overflow (queries ++ [q])).statistics =
    (s.run overflow queries).statistics.add (q.graph.solve s.options overflow) := by
  rw [run_concat, ← s.options_run overflow queries]
  rfl

theorem accounts_run (o : Options) :
    ((Solver.mk o {}).run overflow queries).statistics.Accounts o overflow queries := by
  induction queries using List.reverseRecOn with
  | nil => exact ⟨rfl, rfl, rfl, rfl, rfl, le_rfl, rfl⟩
  | append_singleton queries q ih =>
    rw [statistics_run_concat]
    exact ih.add q

theorem rounds_run_singleton (o : Options) (q : Query) :
    ((Solver.mk o {}).run overflow [q]).statistics.rounds = (q.graph.solve o overflow).rounds :=
  (q.rounds_add o overflow {}).trans (Nat.zero_add _)

/-- Whatever a new solver was asked, its counters account for it, and one more query moves them as
its decision went. -/
theorem statistics_account (o : Options) (overflow : Overflow) (queries : List Query) :
    ((Solver.mk o {}).run overflow queries).statistics.Accounts o overflow queries ∧
      ∀ q, ((Solver.mk o {}).run overflow queries).statistics.Advances o overflow q
        ((Solver.mk o {}).run overflow (queries ++ [q])).statistics := by
  refine ⟨accounts_run overflow queries o, fun q => ?_⟩
  rw [statistics_run_concat]
  exact q.advances o overflow _

/-- With too many variables a full search is over in its first round, though no distance
underflows. -/
theorem rounds_manyVariables :
    ((Solver.mk ⟨.full, .firstViolation⟩ {}).run .checked
      [⟨Graph.manyVariables⟩]).statistics.rounds = 1 ∧
    (Graph.ofCalls Graph.manyVariables).numVertices - 1 = 2 ^ 31 ∧
    ¬(Graph.ofCalls Graph.manyVariables).Underflows .checked .full := by
  obtain ⟨net, hnet, hstopped⟩ := Graph.exists_overflowed_manyVariables
  refine ⟨?_, ?_, ?_⟩
  · have hrounds := hnet.rounds_solve ⟨.full, .firstViolation⟩ .checked
    rw [hstopped] at hrounds
    rw [rounds_run_singleton]
    exact hrounds
  · rw [Graph.numVertices_manyVariables, Nat.add_sub_cancel]
  · rintro ⟨net', paths, target, hnet', hend⟩
    obtain rfl : net = net' := Except.ok.inj (hnet.network_eq.symm.trans hnet')
    rw [hstopped] at hend
    cases hend

/-- A variable whose double would be odd, then a path too short for its weights, then nothing at
all. -/
example : ((Solver.mk {} {}).run .checked
      [⟨Graph.oddSquare⟩, ⟨Graph.longDescent⟩, ⟨([] : List (Call .bits8 Nat))⟩]).statistics =
    { calls := 3, satisfiable := 1, tightenings := 1, singletonPartitions := 1, rounds := 3,
      tightArcs := 8, reasons := 4 } := by
  decide +kernel

end Solver

end Octagon

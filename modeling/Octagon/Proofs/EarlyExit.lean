import Octagon.Proofs.Tightens
import Octagon.Solver.Statistics

/-!
Early exit changes no answer, as long as counts do not come back to 0. A round that improves nothing
leaves the paths as they are, so every round after it, that which looks for a negative cycle
included, would improve nothing either. To stop there is to come to the same end in fewer rounds.
-/

namespace Octagon

variable {w : Width} {ρ : Type} {n : Nat}

namespace Paths

variable {arcs : List (Arc w ρ n)} {paths after : Paths w n}

theorem relax_unchanged {a : Arc w ρ n} (h : paths.relax a = (.unchanged, after)) :
    after = paths := by
  unfold relax at h
  split at h
  · cases h
  · split at h
    · cases h
    · exact (Prod.mk.inj h).2.symm

/-- A sweep that improves nothing leaves the paths as they are. -/
theorem sweep_completed_nil : ∀ {arcs : List (Arc w ρ n)} {paths : Paths w n}
    {improved : List (Fin n)}, paths.sweep improved arcs = .completed after [] →
      improved = [] ∧ after = paths
  | [], _, _, h => by
      cases h
      exact ⟨rfl, rfl⟩
  | a :: arcs, paths, improved, h => by
      cases hrelax : paths.relax a with
      | mk effect next =>
        cases effect with
        | unchanged =>
          obtain ⟨himproved, rfl⟩ := sweep_completed_nil ((sweep_unchanged hrelax).symm.trans h)
          exact ⟨himproved, relax_unchanged hrelax⟩
        | improved => cases (sweep_completed_nil ((sweep_improved hrelax).symm.trans h)).1
        | underflow => cases (sweep_underflow hrelax).symm.trans h

theorem round_of_stable (overflow : Overflow) (h : paths.sweep [] arcs = .completed paths []) :
    paths.round overflow arcs = .completed paths 0 := by
  obtain ⟨k, -, hround, hlength⟩ := paths.round_eq overflow arcs
  obtain rfl : 0 = k := hlength paths [] h
  rw [hround, Overflow.count?_eq_zero_iff.2 (.inl rfl), h]
  rfl

/-- From where a round improves nothing, a full search runs all rounds that are left and settles. -/
theorem explore_full_of_stable (overflow : Overflow)
    (h : paths.sweep [] arcs = .completed paths []) : ∀ rounds : Nat,
    (explore overflow .full arcs rounds paths).ending = .settled paths ∧
      (explore overflow .full arcs rounds paths).rounds = rounds
  | 0 => by simp [explore, detect, lookAgain_eq, h, Sweep.map]
  | rounds + 1 => by
      obtain ⟨hending, hrounds⟩ := explore_full_of_stable overflow h rounds
      simp [explore, round_of_stable overflow h, hending, hrounds]

/-- A search that exits early ends as a full one does, in no more rounds. -/
theorem explore_earlyExit {overflow : Overflow} (h : overflow.NeverHides .earlyExit arcs.length) :
    ∀ (rounds : Nat) (paths : Paths w n),
      (explore overflow .earlyExit arcs rounds paths).ending =
        (explore overflow .full arcs rounds paths).ending ∧
      (explore overflow .earlyExit arcs rounds paths).rounds ≤
        (explore overflow .full arcs rounds paths).rounds
  | 0, _ => ⟨rfl, le_rfl⟩
  | rounds + 1, paths => by
      obtain ⟨k, hk, hround, hlength⟩ := paths.round_eq overflow arcs
      cases hcount : overflow.count? k with
      | none => simp [explore, hround, hcount]
      | some count =>
        cases hsweep : paths.sweep [] arcs with
        | underflowed after target => simp [explore, hround, hcount, hsweep, Sweep.map]
        | overflowed => exact absurd hsweep (sweep_ne_overflowed arcs paths [])
        | completed after improved =>
          by_cases hzero : count = 0
          · obtain rfl := h.eq_zero hk (hzero ▸ hcount)
            obtain rfl : improved = [] := List.length_eq_zero_iff.1 (hlength after improved hsweep)
            obtain ⟨-, rfl⟩ := sweep_completed_nil hsweep
            obtain ⟨hending, -⟩ := explore_full_of_stable overflow hsweep rounds
            simp [explore, round_of_stable overflow hsweep, hending]
          · obtain ⟨hending, hrounds⟩ := explore_earlyExit h rounds after
            simp [explore, hround, hcount, hsweep, Sweep.map, hzero, hending, hrounds]

end Paths

theorem Network.shortestPaths_earlyExit (net : Network w ρ n) {overflow : Overflow}
    (h : overflow.NeverHides .earlyExit net.arcs.length) :
    (net.shortestPaths overflow .earlyExit).ending = (net.shortestPaths overflow .full).ending ∧
      (net.shortestPaths overflow .earlyExit).rounds ≤
        (net.shortestPaths overflow .full).rounds :=
  Paths.explore_earlyExit h n (.initial w n)

/-! ### Reports and counters -/

/-- Two reports agree on everything that is counted but the rounds, of which the first has no
more. -/
structure Report.Faster (early full : Report ρ) : Prop where
  answer : early.answer = full.answer
  tightArcs : early.tightArcs = full.tightArcs
  allSingle : early.allSingle = full.allSingle
  rounds_le : early.rounds ≤ full.rounds

theorem Graph.solve_faster (g : Graph w ρ) (e : Selection) {overflow : Overflow}
    (h : overflow.NeverHides .earlyExit g.numEdges) :
    (g.solve ⟨.earlyExit, e⟩ overflow).Faster (g.solve ⟨.full, e⟩ overflow) := by
  unfold solve
  cases hnet : g.network with
  | error err => exact ⟨rfl, rfl, rfl, le_rfl⟩
  | ok net =>
    rw [← length_arcs_of_network hnet] at h
    obtain ⟨hending, hrounds⟩ := net.shortestPaths_earlyExit h
    simp only [hending]
    cases (net.shortestPaths overflow .full).ending.outcome with
    | tooShort v => exact ⟨rfl, rfl, rfl, hrounds⟩
    | miscounted => exact ⟨rfl, rfl, rfl, hrounds⟩
    | negativeCycle paths entry => exact ⟨rfl, rfl, rfl, hrounds⟩
    | distances paths => exact ⟨rfl, rfl, rfl, hrounds⟩

/-- Counters move alike for such reports, those of rounds apart. -/
theorem Report.Faster.add {early full : Report ρ} (h : early.Faster full) (s : Statistics) :
    { s.add early with rounds := (s.add full).rounds } = s.add full ∧
      (s.add early).rounds ≤ (s.add full).rounds := by
  obtain ⟨hanswer, htight, hsingle, hrounds⟩ := h
  simp only [Statistics.add, hanswer, htight, hsingle]
  cases full.answer with
  | error fault => exact ⟨rfl, Nat.add_le_add_left hrounds _⟩
  | ok answer =>
    cases answer with
    | satisfiable => exact ⟨rfl, Nat.add_le_add_left hrounds _⟩
    | unsatisfiable c =>
      simp only [Statistics.addConflict]
      cases c.kind with
      | negativeCycle => exact ⟨rfl, Nat.add_le_add_left hrounds _⟩
      | tightening x => exact ⟨rfl, Nat.add_le_add_left hrounds _⟩

/-- To stop as soon as a round improves nothing, by its count, changes neither the answer, nor the
fault, nor any counter but that of rounds, which grows by no more. Where counts wrap this takes that
there are fewer edges than counts. -/
theorem Solver.solve_earlyExit (g : Graph w ρ) (e : Selection) (s : Statistics)
    (overflow : Overflow) (h : overflow.NeverHides .earlyExit g.numEdges) :
    let early := (Solver.mk ⟨.earlyExit, e⟩ s).solve g overflow
    let full := (Solver.mk ⟨.full, e⟩ s).solve g overflow
    early.1.answer = full.1.answer ∧
      { early.2.statistics with rounds := full.2.statistics.rounds } = full.2.statistics ∧
      early.2.statistics.rounds ≤ full.2.statistics.rounds :=
  have hfaster := g.solve_faster e h
  ⟨hfaster.answer, hfaster.add s⟩

theorem Solver.solve_earlyExit_oddSquare : (Graph.ofCalls Graph.oddSquare).numEdges < 2 ^ 32 ∧
    let early := (Solver.mk ⟨.earlyExit, .firstViolation⟩ {}).solve
      (Graph.ofCalls Graph.oddSquare) .wrapping
    let full := (Solver.mk ⟨.full, .firstViolation⟩ {}).solve
      (Graph.ofCalls Graph.oddSquare) .wrapping
    early.1.answer = full.1.answer ∧ early.2.statistics.rounds ≤ full.2.statistics.rounds := by
  have hedges : (Graph.ofCalls Graph.oddSquare).numEdges < 2 ^ 32 := by decide +kernel
  obtain ⟨hanswer, -, hrounds⟩ := solve_earlyExit (Graph.ofCalls Graph.oddSquare) .firstViolation {}
    .wrapping fun _ _ => hedges
  exact ⟨hedges, hanswer, hrounds⟩

/-- Where a count wraps, early exit answers what full relaxation does not. -/
theorem Solver.earlyExit_differs_hiddenSelfLoop :
    ((Solver.mk ⟨.earlyExit, .firstViolation⟩ {}).solve
      (Graph.ofCalls Graph.hiddenSelfLoop) .wrapping).1.answer ≠
    ((Solver.mk ⟨.full, .firstViolation⟩ {}).solve
      (Graph.ofCalls Graph.hiddenSelfLoop) .wrapping).1.answer := by
  intro heq
  have hembeds := Graph.embeds_newVariables Graph.selfLoop (2 ^ 31 - 2)
  obtain ⟨net, hnet⟩ := (Graph.valid_ofCalls Graph.selfLoop).exists_isNetwork
  obtain ⟨net', hnet'⟩ := (Graph.valid_ofCalls Graph.hiddenSelfLoop).exists_isNetwork
  have hconflict : ((Graph.ofCalls Graph.selfLoop).solve {} .wrapping).answer =
      .ok (.unsatisfiable ⟨.negativeCycle, [2, 2], [1]⟩) := by decide +kernel
  have hfull : ((Graph.ofCalls Graph.hiddenSelfLoop).solve ⟨.full, .firstViolation⟩
      .wrapping).answer = .ok .satisfiable := heq.symm.trans Graph.answer_hiddenSelfLoop
  obtain ⟨c, hc, -⟩ := hnet.exists_conflict_of_tightens hnet'
    (hembeds.tightens hnet.valid hnet'.valid) (by nofun) hconflict hfull
  cases hc

end Octagon

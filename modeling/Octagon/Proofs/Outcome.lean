import Octagon.Proofs.Faults
import Octagon.Proofs.Miscount

/-!
From the outcome of a search to the answer. A search that gives up is a fault, and so is one that
cannot count; one that meets a negative cycle is a conflict of this kind, and distances leave the
answer to tightening. So whoever knows the kind of an answer knows how the search ended, and where
there is no answer it is because a path to some vertex is below the smallest weight, or because a
round improves more than it can count. Where counts wrap there is an answer even so, which may be
wrong.
-/

namespace Octagon

variable {w : Width} {ρ : Type}

/-- The answer where tightening has found a conflict or none. -/
def Answer.ofFound (found : Option (Conflict ρ)) : Answer ρ := found.elim satisfiable unsatisfiable

namespace Graph.IsNetwork

variable {g : Graph w ρ} {net : Network w ρ g.occurrences.size} (h : g.IsNetwork net) {o : Options}
  {overflow : Overflow}

include h

theorem answer_of_tooShort {v : Fin (g.occurrences.size + 1)}
    (hout : (net.shortestPaths overflow o.relaxation).ending.outcome = .tooShort v) :
    (g.solve o overflow).answer = .error (.tooShort w v.val) := by
  simp only [solve, h.network_eq, hout]

theorem answer_of_miscounted
    (hout : (net.shortestPaths overflow o.relaxation).ending.outcome = .miscounted) :
    (g.solve o overflow).answer = .error .overflow := by
  simp only [solve, h.network_eq, hout]

theorem answer_of_negativeCycle {paths : Paths w (g.occurrences.size + 1)}
    {entry : Fin (g.occurrences.size + 1)}
    (hout : (net.shortestPaths overflow o.relaxation).ending.outcome = .negativeCycle paths entry) :
    ∃ c, (g.solve o overflow).answer = .ok (.unsatisfiable c) ∧ c.kind = .negativeCycle := by
  have hexp := net.outcome_explains h.rooted overflow o.relaxation
  rw [hout] at hexp
  obtain ⟨c, hc⟩ := net.exists_negativeCycle_eq_ok (net.leadsIntoCycle_of_outcome h.rooted hout)
  have hrefutes := h.rooted.refutes_of_negativeCycle hexp.1 hc
  refine ⟨c, by simp only [solve, h.network_eq, hout, hc, h.refute_eq_ok hrefutes], ?_⟩
  unfold Network.negativeCycle at hc
  split at hc
  · exact (Except.ok.inj hc) ▸ rfl
  · cases hc

theorem answer_of_distances {paths : Paths w (g.occurrences.size + 1)}
    (hout : (net.shortestPaths overflow o.relaxation).ending.outcome = .distances paths) :
    ∃ found, (net.tighten o.explanation paths).conflict = .ok found ∧
      (g.solve o overflow).answer = .ok (.ofFound found) := by
  have hexp := net.outcome_explains h.rooted overflow o.relaxation
  rw [hout] at hexp
  obtain ⟨found, hfound⟩ := net.exists_tighten_eq_ok o.explanation paths
  refine ⟨found, hfound, ?_⟩
  cases found with
  | none => simp only [solve, h.network_eq, hout, hfound, Answer.ofFound, Option.elim_none]
  | some c =>
    have hrefutes := h.rooted.refutes_of_tighten (hexp.1.dist_le_zero h.rooted) hfound
    simp only [solve, h.network_eq, hout, hfound, h.refute_eq_ok hrefutes, Answer.ofFound,
      Option.elim_some]

/-- The only fault is a path too short for a weight, if rounds can count their improvements. -/
theorem exists_eq_tooShort (hfaults : overflow.NeverFaults g.numEdges) {fault : Fault}
    (hf : (g.solve o overflow).answer = .error fault) : ∃ v, fault = .tooShort w v := by
  have hexp := net.outcome_explains h.rooted overflow o.relaxation
  cases hout : (net.shortestPaths overflow o.relaxation).ending.outcome with
  | tooShort v =>
    rw [h.answer_of_tooShort hout] at hf
    exact ⟨v.val, (Except.error.inj hf).symm⟩
  | miscounted =>
    rw [hout] at hexp
    exact absurd (h.length_arcs.symm ▸ hfaults) hexp
  | negativeCycle paths entry =>
    obtain ⟨c, hc, -⟩ := h.answer_of_negativeCycle hout
    rw [hc] at hf
    cases hf
  | distances paths =>
    obtain ⟨found, -, hanswer⟩ := h.answer_of_distances hout
    rw [hanswer] at hf
    cases hf

/-- An answer other than a negative cycle follows from distances. -/
theorem exists_distances {a : Answer ρ} (ha : (g.solve o overflow).answer = .ok a)
    (hkind : ∀ c, a = .unsatisfiable c → c.kind ≠ .negativeCycle) :
    ∃ paths, (net.shortestPaths overflow o.relaxation).ending.outcome = .distances paths := by
  cases hout : (net.shortestPaths overflow o.relaxation).ending.outcome with
  | tooShort v =>
    rw [h.answer_of_tooShort hout] at ha
    cases ha
  | miscounted =>
    rw [h.answer_of_miscounted hout] at ha
    cases ha
  | negativeCycle paths entry =>
    obtain ⟨c, hc, hneg⟩ := h.answer_of_negativeCycle hout
    exact absurd hneg (hkind c (Except.ok.inj (ha.symm.trans hc)))
  | distances paths => exact ⟨paths, rfl⟩

/-- An answer other than a negative cycle is what tightening finds under exact distances, unless the
count of a round hid improvements. -/
theorem exists_paths (hhides : overflow.NeverHides o.relaxation g.numEdges) {a : Answer ρ}
    (ha : (g.solve o overflow).answer = .ok a)
    (hkind : ∀ c, a = .unsatisfiable c → c.kind ≠ .negativeCycle) :
    ∃ paths : Paths w (g.occurrences.size + 1), paths.Exact net ∧ paths.Settled net ∧
      ∃ found, (net.tighten o.explanation paths).conflict = .ok found ∧ a = .ofFound found := by
  obtain ⟨paths, hout⟩ := h.exists_distances ha hkind
  have hexp := net.outcome_explains h.rooted overflow o.relaxation
  rw [hout] at hexp
  obtain ⟨hexact, hset⟩ := hexp.2 (h.length_arcs.symm ▸ hhides)
  obtain ⟨found, hfound, hanswer⟩ := h.answer_of_distances hout
  exact ⟨paths, hexact, hset, found, hfound, Except.ok.inj (ha.symm.trans hanswer)⟩

end Graph.IsNetwork

namespace Graph

/-- A solver answers, unless it finds a path to some vertex too short for a weight, and then a walk
that repeats no vertex is one; or a round has too many improvements for a count that is checked, and
then there are as many edges. -/
theorem answer_or_fault (calls : List (Call w ρ)) (o : Options) (overflow : Overflow) :
    ∃ net, (ofCalls calls).network = .ok net ∧
      ((∃ a, ((ofCalls calls).solve o overflow).answer = .ok a) ∨
        (∃ v l, ((ofCalls calls).solve o overflow).answer = .error (.tooShort w v.val) ∧
          Walk net.arcs (Network.root _) v l ∧ (visited (Network.root _) l).Nodup ∧
            exactWeight l < w.min) ∨
        ((ofCalls calls).solve o overflow).answer = .error .overflow ∧
          overflow = .checked ∧ 2 ^ 31 ≤ (ofCalls calls).numEdges) := by
  obtain ⟨net, hnet⟩ := (valid_ofCalls calls).exists_isNetwork
  have hexp := net.outcome_explains hnet.rooted overflow o.relaxation
  refine ⟨net, hnet.network_eq, ?_⟩
  cases hout : (net.shortestPaths overflow o.relaxation).ending.outcome with
  | tooShort v =>
    rw [hout] at hexp
    obtain ⟨l, hl, hsimple, hlt⟩ := hexp
    exact .inr (.inl ⟨v, l, hnet.answer_of_tooShort hout, hl, hsimple, hlt⟩)
  | miscounted =>
    rw [hout] at hexp
    obtain ⟨hchecked, hmany⟩ := Overflow.not_neverFaults_iff.1 hexp
    exact .inr (.inr ⟨hnet.answer_of_miscounted hout, hchecked, hnet.length_arcs ▸ hmany⟩)
  | negativeCycle paths entry =>
    obtain ⟨c, hanswer, -⟩ := hnet.answer_of_negativeCycle hout
    exact .inl ⟨.unsatisfiable c, hanswer⟩
  | distances paths =>
    obtain ⟨found, -, hanswer⟩ := hnet.answer_of_distances hout
    exact .inl ⟨.ofFound found, hanswer⟩

/-- With too many variables there is neither an answer nor a path too short for a weight. -/
theorem overflow_manyVariables :
    ((ofCalls manyVariables).solve {} .checked).answer = .error .overflow := by
  obtain ⟨net, hnet, hstopped⟩ := exists_overflowed_manyVariables
  have hout : (net.shortestPaths .checked .earlyExit).ending.outcome = .miscounted := by
    rw [hstopped]
    rfl
  exact hnet.answer_of_miscounted (o := {}) hout

/-- `y ≤ x - 100` and `z ≤ y - 100`: the path to `z` is shorter than any weight of 8 bits. -/
def longDescent : List (Call .bits8 Nat) :=
  [.newVariable, .newVariable, .newVariable,
    .addEdge ⟨⟨⟨0⟩, .positive⟩, ⟨⟨1⟩, .positive⟩, (Weight.ofInt? (-100)).getD 0⟩ 1,
    .addEdge ⟨⟨⟨1⟩, .positive⟩, ⟨⟨2⟩, .positive⟩, (Weight.ofInt? (-100)).getD 0⟩ 2]

example : ((ofCalls longDescent).solve {}).answer = .error (.tooShort .bits8 5) := rfl

/-- With so many new variables that the first round improves 2³² times, the answer is what
tightening finds under the distances of that round, where a search exits early and counts wrap. -/
theorem answer_of_firstRound (calls : List (Call w ρ)) {n k : Nat}
    (hroom : (ofCalls calls).numVariables + n ≤ UInt32.size) {selection : Selection}
    {found : Option (Conflict ρ)}
    (hround : (ofCalls calls).firstRound selection = some (.completed k (.ok found))) (hn : 0 < n)
    (hmany : 2 ^ 32 ∣ k + 2 * n) :
    ((ofCalls (calls ++ List.replicate n .newVariable)).solve ⟨.earlyExit, selection⟩
      .wrapping).answer = .ok (.ofFound found) := by
  obtain ⟨net, hnet, paths, hsearch, hconflict⟩ :=
    exists_settled_of_firstRound calls hroom hround hn hmany
  have hout : (net.shortestPaths .wrapping .earlyExit).ending.outcome = .distances paths := by
    rw [hsearch]
    rfl
  obtain ⟨found', hfound', hanswer⟩ :=
    hnet.answer_of_distances (o := ⟨.earlyExit, selection⟩) hout
  rw [hanswer, Except.ok.inj (hfound'.symm.trans hconflict)]

/-- `x ≤ x - 1` -/
def selfLoop : List (Call .bits8 Nat) :=
  [.newVariable, .addConstraint (.difference ⟨0⟩ ⟨0⟩ ((Weight.ofInt? (-1)).getD 0)) 1]

/-- Beside `x ≤ x - 1` so many variables that the first round improves 2³² times. -/
def hiddenSelfLoop : List (Call .bits8 Nat) := selfLoop ++ List.replicate (2 ^ 31 - 2) .newVariable

theorem answer_hiddenSelfLoop :
    ((ofCalls hiddenSelfLoop).solve {} .wrapping).answer = .ok .satisfiable := by
  have hround : (ofCalls selfLoop).firstRound .firstViolation = some (.completed 4 (.ok none)) := by
    decide +kernel
  exact answer_of_firstRound selfLoop (by decide +kernel) hround (by decide) (by decide)

end Graph

end Octagon

import Octagon.Proofs.Tightens

/-!
Further calls never make a graph satisfiable again. Bounds only get tighter, so a conflict stays a
conflict and a negative cycle a negative cycle, even where the cycle that was reported is gone.
Calls that only register assert nothing: what is built after them embeds what was there before, and
the answers agree.
-/

namespace Octagon

variable {w : Width} {ρ : Type}

/-- The kind of the conflict, if there is one. -/
def Answer.kind? : Answer ρ → Option ConflictKind
  | satisfiable => none
  | unsatisfiable c => some c.kind

namespace Graph

/-! ### Bounds get tighter -/

theorem Valid.tightens_run {g : Graph w ρ} (h : g.Valid) (calls : List (Call w ρ)) :
    (g.run calls).Tightens g := by
  intro a b k r hab
  obtain ⟨⟨k', r'⟩, hy, hle⟩ : ∃ y, (g.lowered calls).foldl (tightenBy a b) (g.bound? a b) =
      some y ∧ y.1.val ≤ k.val := exists_foldl_tightenBy_le (.inl ⟨_, hab, le_rfl⟩)
  exact ⟨k', r', ((h.run calls).2 a b).trans hy, hle⟩

/-! ### Answers -/

/-- About a graph and one that embeds it the answers agree, as long as no count hides improvements:
on whether there is a conflict, on whether it is a negative cycle, and on its kind if conflicts are
selected alike. -/
theorem Embeds.answers_agree {w' : Width} {g : Graph w ρ} {g' : Graph w' ρ} (h : g.Embeds g')
    (hg : g.Valid) (hg' : g'.Valid) {o o' : Options} {overflow : Overflow}
    (hhides : overflow.NeverHides o.relaxation g.numEdges)
    (hhides' : overflow.NeverHides o'.relaxation g'.numEdges) {a a' : Answer ρ}
    (ha : (g.solve o overflow).answer = .ok a) (ha' : (g'.solve o' overflow).answer = .ok a') :
    (a = .satisfiable ↔ a' = .satisfiable) ∧
      (a.kind? = some .negativeCycle ↔ a'.kind? = some .negativeCycle) ∧
      (o.explanation = o'.explanation → a.kind? = a'.kind?) := by
  obtain ⟨net, hnet⟩ := hg.exists_isNetwork
  obtain ⟨net', hnet'⟩ := hg'.exists_isNetwork
  have hforth : ∀ c, a = .unsatisfiable c → ∃ c', a' = .unsatisfiable c' ∧
      (c.kind = .negativeCycle → c'.kind = .negativeCycle) := fun c hc =>
    hnet.exists_conflict_of_tightens hnet' (h.tightens hg hg') hhides' (hc ▸ ha) ha'
  have hback : ∀ c', a' = .unsatisfiable c' → ∃ c, a = .unsatisfiable c ∧
      (c'.kind = .negativeCycle → c.kind = .negativeCycle) := fun c' hc' =>
    hnet'.exists_conflict_of_tightens hnet (h.tightens_back hg hg') hhides (hc' ▸ ha') ha
  cases a with
  | satisfiable =>
    have hsat : a' = .satisfiable := by
      cases a' with
      | satisfiable => rfl
      | unsatisfiable c' =>
        obtain ⟨c, hc, -⟩ := hback c' rfl
        cases hc
    subst hsat
    exact ⟨Iff.rfl, Iff.rfl, fun _ => rfl⟩
  | unsatisfiable c =>
    obtain ⟨c', rfl, hneg⟩ := hforth c rfl
    obtain ⟨_, hc, hneg'⟩ := hback c' rfl
    cases hc
    simp only [Answer.kind?, Option.some.injEq]
    refine ⟨iff_of_false nofun nofun, ⟨hneg, hneg'⟩, fun ho => ?_⟩
    by_cases hkind : c.kind = .negativeCycle
    · rw [hkind, hneg hkind]
    · -- tightening comes to the same conflict in both
      have hsame := h.answer_eq hnet hnet' ho hhides (by rw [ha']; nofun) hhides' ha
        fun d hd => Answer.unsatisfiable.inj hd ▸ hkind
      rw [hsame] at ha'
      cases ha'
      rfl

/-- A graph with a conflict has one after any further calls, and a negative cycle if it had one.
Where the further calls only register, the answers agree: whatever the options on whether there is a
conflict and whether it is a negative cycle, and on the variable that tightening refutes too if both
select alike. This takes that no count hides improvements. -/
theorem unsatisfiable_mono (calls more : List (Call w ρ)) (o o' : Options) (overflow : Overflow)
    (hhides : overflow.NeverHides o.relaxation (ofCalls calls).numEdges)
    (hhides' : overflow.NeverHides o'.relaxation (ofCalls (calls ++ more)).numEdges)
    {a a' : Answer ρ} (ha : ((ofCalls calls).solve o overflow).answer = .ok a)
    (ha' : ((ofCalls (calls ++ more)).solve o' overflow).answer = .ok a') :
    (∀ c, a = .unsatisfiable c → ∃ c', a' = .unsatisfiable c' ∧
      (c.kind = .negativeCycle → c'.kind = .negativeCycle)) ∧
    ((∀ call ∈ more, call.registers) → (a = .satisfiable ↔ a' = .satisfiable) ∧
      (a.kind? = some .negativeCycle ↔ a'.kind? = some .negativeCycle) ∧
      (o.explanation = o'.explanation → a.kind? = a'.kind?)) := by
  have hvalid := valid_ofCalls calls
  obtain ⟨hvalid', -⟩ := hvalid.run more
  rw [ofCalls_append] at hhides' ha'
  constructor
  · rintro c rfl
    obtain ⟨net, hnet⟩ := hvalid.exists_isNetwork
    obtain ⟨net', hnet'⟩ := hvalid'.exists_isNetwork
    exact hnet.exists_conflict_of_tightens hnet' (hvalid.tightens_run more) hhides' ha ha'
  · exact fun hmore => (hvalid.embeds_run hmore).answers_agree hvalid hvalid' hhides hhides' ha ha'

/-- A third variable leaves the odd cycle of `oddSquare` as it is; with `x + y ≤ 0` there is a
negative one. -/
theorem unsatisfiable_mono_oddSquare :
    ((ofCalls oddSquare).solve {} .wrapping).answer = .ok (.unsatisfiable oddCycle) ∧
    (∃ a, ((ofCalls (oddSquare ++ [.newVariable])).solve ⟨.full, .firstViolation⟩
      .wrapping).answer = .ok a ∧ a.kind? = some (.tightening ⟨0⟩)) ∧
    ∃ c, ((ofCalls (oddSquare ++ [.addConstraint (.sum ⟨0⟩ ⟨1⟩ 0) 5])).solve {} .wrapping).answer =
      .ok (.unsatisfiable c) := by
  have hodd : ((ofCalls oddSquare).solve {} .wrapping).answer = .ok (.unsatisfiable oddCycle) := by
    decide +kernel
  have hmore : ((ofCalls (oddSquare ++ [.newVariable])).solve ⟨.full, .firstViolation⟩
      .wrapping).answer = .ok (.unsatisfiable oddCycle) := by decide +kernel
  have htight : ((ofCalls (oddSquare ++ [.addConstraint (.sum ⟨0⟩ ⟨1⟩ 0) 5])).solve {}
      .wrapping).answer = .ok (.unsatisfiable ⟨.negativeCycle, [4, 1, 4], [5, 2]⟩) := by
    decide +kernel
  have hregisters : ∀ call ∈ [(.newVariable : Call .bits8 Nat)], call.registers := by decide
  have hedges : (ofCalls oddSquare).numEdges < 2 ^ 32 := by decide +kernel
  have hedges' :
      (ofCalls (oddSquare ++ [.addConstraint (.sum ⟨0⟩ ⟨1⟩ 0) 5])).numEdges < 2 ^ 32 := by
    decide +kernel
  have hfull : Overflow.wrapping.NeverHides .full
      (ofCalls (oddSquare ++ [.newVariable])).numEdges := nofun
  obtain ⟨-, -, hkind⟩ := (unsatisfiable_mono oddSquare _ _ _ .wrapping (fun _ _ => hedges) hfull
    hodd hmore).2 hregisters
  obtain ⟨c, hc, -⟩ := (unsatisfiable_mono oddSquare _ _ _ .wrapping (fun _ _ => hedges)
    (fun _ _ => hedges') hodd htight).1 oddCycle rfl
  exact ⟨hodd, ⟨_, hmore, (hkind rfl).symm⟩, c, by rw [htight, hc]⟩

/-- A conflict is lost to further variables where a count wraps. -/
theorem unsatisfiable_lost_to_variables :
    ((ofCalls selfLoop).solve {} .wrapping).answer =
      .ok (.unsatisfiable ⟨.negativeCycle, [2, 2], [1]⟩) ∧
    ((ofCalls (selfLoop ++ List.replicate (2 ^ 31 - 2) .newVariable)).solve {} .wrapping).answer =
      .ok .satisfiable := ⟨by decide +kernel, answer_hiddenSelfLoop⟩

end Graph

end Octagon

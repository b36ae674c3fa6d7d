import Octagon.Proofs.Check
import Octagon.Proofs.Explanation
import Octagon.Proofs.Graph.Representation
import Octagon.Proofs.Solvability

/-!
Reasons that a conflict can spare. A conflict follows one closed walk, but each of its constraints
stands for two edges that mirror each other, and mirrors of edges on the walk may close a shorter
one. Then fewer reasons explain as much. This is the only way: without a reason the others have a
solution exactly if no contradictory chain is left of the differences along the cycle and their
mirrors. In particular they have one where nothing that is left closes, whatever the weights.
-/

namespace Octagon

variable {w : Width} {ρ : Type}

namespace Conflict

/-- The differences that the edges along the cycle stand for, with their reasons. -/
def differences (c : Conflict ρ) (g : Graph w ρ) : List (Difference w × ρ) :=
  ((c.cycle.zip c.cycle.tail).zip c.reasons).filterMap fun ((source, target), reason) =>
    match g.occurrence source, g.occurrence target, g.edgeBetween source target with
    | .ok (some p), .ok (some q), some e => some (⟨p, q, e.weight⟩, reason)
    | _, _, _ => none

variable (c : Conflict ρ) (g : Graph w ρ) (r : ρ)

/-- A difference along the cycle, or its mirror, that has another reason than `r`. -/
def LeftWithout (d : Difference w) : Prop :=
  ∃ x ∈ c.differences g, x.2 ≠ r ∧ (x.1 = d ∨ x.1 = d.mirror)

/-- What is left without `r` forms a contradictory chain. -/
def ContradictsWithout : Prop :=
  ∃ ds : List (Difference w), Difference.Contradictory ds ∧ ∀ d ∈ ds, c.LeftWithout g r d

/-- A difference that is left without `r` leads from `p` to `q`. -/
def StepsWithout (p q : Occurrence) : Prop :=
  ∃ d : Difference w, c.LeftWithout g r d ∧ d.source = p ∧ d.target = q

/-- What is left without `r` closes no chain. -/
def OpensWithout : Prop := ∀ p, ¬Relation.TransGen (c.StepsWithout g r) p p

/-! ### Cycles that open -/

variable {c g r}

theorem stepsWithout_of_chain {q : Occurrence} : ∀ {p : Occurrence} {ds : List (Difference w)},
    Difference.Chain p q ds → ds ≠ [] → (∀ d ∈ ds, c.LeftWithout g r d) →
      Relation.TransGen (c.StepsWithout g r) p q
  | _, [d], ⟨hp, hq⟩, _, hleft => .single ⟨d, hleft d (List.mem_singleton_self d), hp, hq⟩
  | _, d :: e :: ds, ⟨hp, hrest⟩, _, hleft => by
      obtain ⟨hd, hds⟩ := List.forall_mem_cons.1 hleft
      exact .head ⟨d, hd, hp, rfl⟩ (stepsWithout_of_chain hrest (List.cons_ne_nil e ds) hds)

/-- Only chains that close contradict. -/
theorem OpensWithout.not_contradictsWithout (h : c.OpensWithout g r) :
    ¬c.ContradictsWithout g r := by
  rintro ⟨_, hds, hleft⟩
  cases hds with
  | @negative p ds hchain hneg =>
    refine h p (stepsWithout_of_chain hchain ?_ hleft)
    rintro rfl
    exact absurd hneg (lt_irrefl 0)
  | @odd p there back hthere hback hzero hodd =>
    refine h p (stepsWithout_of_chain (hthere.append hback) ?_ hleft)
    intro hnil
    rw [(List.append_eq_nil_iff.1 hnil).1, Difference.total_nil] at hodd
    omega

/-- A list in which all differences that are left, and their mirrors, go from left to right opens
the cycle. -/
theorem opensWithout_of_order (order : List Occurrence) (h : ∀ x ∈ c.differences g, x.2 ≠ r →
    order.idxOf x.1.source < order.idxOf x.1.target ∧
      order.idxOf x.1.mirror.source < order.idxOf x.1.mirror.target) : c.OpensWithout g r := by
  have hstep : ∀ a b, c.StepsWithout g r a b → order.idxOf a < order.idxOf b := by
    rintro _ _ ⟨d, ⟨x, hx, hr, heq | heq⟩, rfl, rfl⟩
    · exact heq ▸ (h x hx hr).1
    · simpa [heq] using (h x hx hr).2
  have hrise : ∀ a b, Relation.TransGen (c.StepsWithout g r) a b →
      order.idxOf a < order.idxOf b := by
    intro a b hab
    induction hab with
    | single hab => exact hstep _ _ hab
    | tail _ hbc ih => exact ih.trans (hstep _ _ hbc)
  exact fun p hp => lt_irrefl _ (hrise p p hp)

theorem exists_solution_iff_not_contradictsWithout :
    (∃ σ : Assignment, ∀ x ∈ c.differences g, x.2 ≠ r → x.1.Holds σ) ↔
      ¬c.ContradictsWithout g r := by
  classical
  let left := ((c.differences g).filter fun x => x.2 ≠ r).map Prod.fst
  have hmem : ∀ d, d ∈ left ↔ ∃ x ∈ c.differences g, x.2 ≠ r ∧ x.1 = d := by
    intro d
    simp only [left, List.mem_map, List.mem_filter, decide_eq_true_eq, and_assoc]
  have hamong : ∀ d, Difference.LiesAmong left d ↔ c.LeftWithout g r d := by
    intro d
    rw [Difference.LiesAmong, hmem, hmem, LeftWithout]
    constructor
    · rintro (⟨x, hx, hr, heq⟩ | ⟨x, hx, hr, heq⟩)
      · exact ⟨x, hx, hr, .inl heq⟩
      · exact ⟨x, hx, hr, .inr heq⟩
    · rintro ⟨x, hx, hr, heq | heq⟩
      · exact .inl ⟨x, hx, hr, heq⟩
      · exact .inr ⟨x, hx, hr, heq⟩
  have hiff := Difference.exists_solution_iff left
  simp only [hamong] at hiff
  refine Iff.trans (exists_congr fun σ => ?_) hiff
  constructor
  · intro h d hd
    obtain ⟨x, hx, hr, rfl⟩ := (hmem d).1 hd
    exact h x hx hr
  · exact fun h x hx hr => h x.1 ((hmem x.1).2 ⟨x, hx, hr, rfl⟩)

end Conflict

namespace Graph

variable {g : Graph w ρ} {net : Network w ρ g.occurrences.size}

/-! ### Differences along a cycle -/

/-- The ends of the arcs along a closed walk pair up with the reasons. -/
theorem mem_zip_reasons_iff (hrooted : net.Rooted) {v : Fin (g.occurrences.size + 1)}
    {l : List (Arc w ρ (g.occurrences.size + 1))} (hl : Walk net.arcs v v l)
    {ends : Vertex × Vertex} {r : ρ} :
    (ends, r) ∈ (l.map fun a => (a.source.val, a.target.val)).zip
        (l.flatMap fun a => a.reason.toList) ↔
      ∃ a ∈ l, (a.source.val, a.target.val) = ends ∧ a.reason = some r := by
  have hzip : ((l.map fun a => (a.source.val, a.target.val)).zip
      (l.flatMap fun a => a.reason.toList)).map (Prod.map id some) =
        l.map fun a => ((a.source.val, a.target.val), a.reason) := by
    rw [← List.zip_map, List.map_id, map_some_reasons hrooted hl, List.zip_map']
  have hinj : Function.Injective (Prod.map (id : Vertex × Vertex → _) (some : ρ → _)) :=
    Function.injective_id.prodMap (Option.some_injective ρ)
  rw [← List.mem_map_of_injective hinj, hzip, List.mem_map]
  simp only [Prod.map_apply, id_eq, Prod.mk.injEq]

/-- The differences of a conflict are what the arcs of its walk stand for. -/
theorem IsNetwork.mem_differences_ofWalk (h : g.IsNetwork net) {kind : ConflictKind}
    {v : Fin (g.occurrences.size + 1)} {l : List (Arc w ρ (g.occurrences.size + 1))}
    (hl : Walk net.arcs v v l) {d : Difference w} {r : ρ} :
    (d, r) ∈ (Conflict.ofWalk kind v l).differences g ↔ ∃ a ∈ l, a.reason = some r ∧
      g.vertex? d.source = some a.source.val ∧ g.vertex? d.target = some a.target.val ∧
      a.weight = d.weight := by
  rw [Conflict.differences, Conflict.ofWalk, zip_map_val_visited hl, List.mem_filterMap]
  constructor
  · rintro ⟨⟨⟨s, t⟩, r'⟩, hx, heq⟩
    obtain ⟨a, ha, hends, hreason⟩ := (mem_zip_reasons_iff h.rooted hl).1 hx
    obtain ⟨rfl, rfl⟩ := Prod.mk.inj hends
    simp only [h.edgeBetween_of_mem (hl.mem a ha)] at heq
    split at heq
    · rename_i p q e hp hq he
      obtain rfl : a.edge = e := Option.some.inj he
      simp only [Option.some.injEq, Prod.mk.injEq] at heq
      obtain ⟨rfl, rfl⟩ := heq
      exact ⟨a, ha, hreason, (h.valid.vertex?_iff_occurrence _ _).2 hp,
        (h.valid.vertex?_iff_occurrence _ _).2 hq, rfl⟩
    · cases heq
  · rintro ⟨a, ha, hreason, hp, hq, hweight⟩
    refine ⟨_, (mem_zip_reasons_iff h.rooted hl).2 ⟨a, ha, rfl, hreason⟩, ?_⟩
    simp only [(h.valid.vertex?_iff_occurrence _ _).1 hp,
      (h.valid.vertex?_iff_occurrence _ _).1 hq, h.edgeBetween_of_mem (hl.mem a ha)]
    exact congrArg (fun k => some (Difference.mk d.source d.target k, r)) hweight

/-- A bound comes from an assertion that says the same for the same reason. -/
theorem exists_assertion_iff_of_bound? {calls : List (Call w ρ)} {a b : Occurrence} {k : Weight w}
    {r : ρ} (h : (ofCalls calls).bound? a b = some (k, r)) :
    ∃ x ∈ empty.assertions calls, x.2 = r ∧ ∀ σ, x.1.Holds σ ↔ (Difference.mk a b k).Holds σ := by
  rw [bound?_ofCalls] at h
  rcases foldl_tightenBy_eq_some h with hnone | hmem
  · cases hnone
  · exact exists_assertion_of_mem_lowered hmem

/-- Each arc of a closed walk has the reason of an assertion that says what the arc stands for. -/
theorem exists_assertion_of_arc {calls : List (Call w ρ)}
    {net : Network w ρ (ofCalls calls).occurrences.size} (hnet : (ofCalls calls).IsNetwork net)
    {v : Fin ((ofCalls calls).occurrences.size + 1)}
    {l : List (Arc w ρ ((ofCalls calls).occurrences.size + 1))} (hl : Walk net.arcs v v l)
    {a : Arc w ρ ((ofCalls calls).occurrences.size + 1)} (ha : a ∈ l) :
    ∃ p q, ∃ y ∈ empty.assertions calls, (ofCalls calls).vertex? p = some a.source.val ∧
      (ofCalls calls).vertex? q = some a.target.val ∧ a.reason = some y.2 ∧
      ∀ σ, y.1.Holds σ ↔ (Difference.mk p q a.weight).Holds σ := by
  obtain ⟨p, q, r, hp, hq, hr, hb⟩ :=
    hnet.exists_bound?_of_arc (hl.mem a ha) (hnet.rooted.source_ne_root hl a ha)
  obtain ⟨y, hy, rfl, hholds⟩ := exists_assertion_iff_of_bound? hb
  exact ⟨p, q, y, hy, hp, hq, hr, hholds⟩

/-- Where every assertion has a reason of its own, what is asserted for some of the reasons of a
conflict is what the differences with these reasons say. -/
theorem holds_without_iff {calls : List (Call w ρ)}
    (hdistinct : ((empty.assertions calls).map Prod.snd).Nodup) {o : Options} {overflow : Overflow}
    {c : Conflict ρ} (h : ((ofCalls calls).solve o overflow).answer = .ok (.unsatisfiable c))
    (r : ρ) (σ : Assignment) :
    (∀ x ∈ empty.assertions calls, x.2 ∈ c.reasons → x.2 ≠ r → x.1.Holds σ) ↔
      ∀ x ∈ c.differences (ofCalls calls), x.2 ≠ r → x.1.Holds σ := by
  obtain ⟨net, hnet⟩ := (valid_ofCalls calls).exists_isNetwork
  have hrefutes : net.Refutes c := hnet.answer_explains h
  obtain ⟨v, l, hl, -, hofWalk, -⟩ := hrefutes.exists_walk
  rw [hofWalk]
  constructor
  · rintro hσ ⟨d, r'⟩ hx hne
    obtain ⟨a, ha, hreason, hp, hq, hweight⟩ := (hnet.mem_differences_ofWalk hl).1 hx
    obtain ⟨p, q, y, hy, hp', hq', hy', hholds⟩ := exists_assertion_of_arc hnet hl ha
    obtain rfl : y.2 = r' := Option.some.inj (hy'.symm.trans hreason)
    obtain rfl : p = d.source := hnet.valid.vertex?_inj hp' hp
    obtain rfl : q = d.target := hnet.valid.vertex?_inj hq' hq
    rw [hweight] at hholds
    refine (hholds σ).1 (hσ y hy (List.mem_flatMap.2 ⟨a, ha, ?_⟩) hne)
    simp [hy']
  · intro hσ x hx hmem hne
    obtain ⟨a, ha, hreason⟩ := List.mem_flatMap.1 hmem
    obtain ⟨p, q, y, hy, hp, hq, hy', hholds⟩ := exists_assertion_of_arc hnet hl ha
    have hyx : y.2 = x.2 := by simpa [hy', eq_comm] using hreason
    obtain rfl : y = x := List.inj_on_of_nodup_map hdistinct hy hx hyx
    exact (hholds σ).2 (hσ _ ((hnet.mem_differences_ofWalk hl).2 ⟨a, ha, hy', hp, hq, rfl⟩) hne)

/-- Where every assertion has a reason of its own and a conflict opens without one of its reasons,
that reason cannot be spared, whatever the weights: what is asserted for the others has a solution
in integers. -/
theorem exists_solution_of_opensWithout (calls : List (Call w ρ))
    (hdistinct : ((empty.assertions calls).map Prod.snd).Nodup) (o : Options) (overflow : Overflow)
    (c : Conflict ρ) (h : ((ofCalls calls).solve o overflow).answer = .ok (.unsatisfiable c))
    (r : ρ) (hopens : c.OpensWithout (ofCalls calls) r) : ∃ σ : Assignment,
      ∀ x ∈ empty.assertions calls, x.2 ∈ c.reasons → x.2 ≠ r → x.1.Holds σ := by
  simp only [holds_without_iff hdistinct h]
  exact Conflict.exists_solution_iff_not_contradictsWithout.2 hopens.not_contradictsWithout

/-- Where every assertion has a reason of its own, a reason of a conflict can be spared exactly if
the differences along the cycle that have other reasons, with their mirrors, form a contradictory
chain. Otherwise what is asserted for the other reasons has a solution in integers. -/
theorem exists_solution_without_iff (calls : List (Call w ρ))
    (hdistinct : ((empty.assertions calls).map Prod.snd).Nodup) (o : Options) (overflow : Overflow)
    (c : Conflict ρ) (h : ((ofCalls calls).solve o overflow).answer = .ok (.unsatisfiable c))
    (r : ρ) : (∃ σ : Assignment,
        ∀ x ∈ empty.assertions calls, x.2 ∈ c.reasons → x.2 ≠ r → x.1.Holds σ) ↔
      ¬c.ContradictsWithout (ofCalls calls) r := by
  simp only [holds_without_iff hdistinct h]
  exact Conflict.exists_solution_iff_not_contradictsWithout

/-- `x + z ≤ -1`, `z ≥ 1`, `x ≥ 1`, `x + y ≤ 1` and `z - y ≤ -1`. -/
def spareSum : List (Call .bits8 Nat) :=
  [.newVariable, .newVariable, .newVariable,
    .addConstraint (.sum ⟨0⟩ ⟨2⟩ ((Weight.ofInt? (-1)).getD 0)) 1,
    .addConstraint ⟨⟨⟨2⟩, .negative⟩, none, (Weight.ofInt? (-1)).getD 0⟩ 2,
    .addConstraint ⟨⟨⟨0⟩, .negative⟩, none, (Weight.ofInt? (-1)).getD 0⟩ 3,
    .addConstraint (.sum ⟨0⟩ ⟨1⟩ ((Weight.ofInt? 1).getD 0)) 4,
    .addConstraint (.difference ⟨2⟩ ⟨1⟩ ((Weight.ofInt? (-1)).getD 0)) 5]

/-- The chain that three of these constraints close. -/
def spareTriangle : List (Difference .bits8) :=
  [⟨⟨⟨0⟩, .positive⟩, ⟨⟨0⟩, .negative⟩, (Weight.ofInt? (-2)).getD 0⟩,
    ⟨⟨⟨0⟩, .negative⟩, ⟨⟨2⟩, .positive⟩, (Weight.ofInt? (-1)).getD 0⟩,
    ⟨⟨⟨2⟩, .positive⟩, ⟨⟨2⟩, .negative⟩, (Weight.ofInt? (-2)).getD 0⟩,
    ⟨⟨⟨2⟩, .negative⟩, ⟨⟨0⟩, .positive⟩, (Weight.ofInt? (-1)).getD 0⟩]

/-- The second and third of these constraints are needed, and the fourth is not. -/
theorem needed_of_spareSum :
    ((ofCalls spareSum).solve {}).answer =
        .ok (.unsatisfiable ⟨.negativeCycle, [6, 1, 2, 3, 5, 6], [1, 3, 4, 5, 2]⟩) ∧
      ∀ r ∈ [2, 3, 4], (∃ σ : Assignment, ∀ x ∈ empty.assertions spareSum,
        x.2 ∈ [1, 3, 4, 5, 2] → x.2 ≠ r → x.1.Holds σ) ↔ r ≠ 4 := by
  have hsolve : ((ofCalls spareSum).solve {}).answer =
      .ok (.unsatisfiable ⟨.negativeCycle, [6, 1, 2, 3, 5, 6], [1, 3, 4, 5, 2]⟩) := by
    decide +kernel
  have hiff := exists_solution_without_iff spareSum (by decide +kernel) {} .checked _ hsolve
  refine ⟨hsolve, fun r hr => (hiff r).trans ?_⟩
  have hcases : r = 2 ∨ r = 3 ∨ r = 4 := by simpa using hr
  rcases hcases with rfl | rfl | rfl
  · refine iff_of_true (Conflict.OpensWithout.not_contradictsWithout ?_) (by decide)
    exact Conflict.opensWithout_of_order [⟨⟨2⟩, .negative⟩, ⟨⟨1⟩, .negative⟩, ⟨⟨0⟩, .positive⟩,
      ⟨⟨0⟩, .negative⟩, ⟨⟨1⟩, .positive⟩, ⟨⟨2⟩, .positive⟩] (by decide +kernel)
  · refine iff_of_true (Conflict.OpensWithout.not_contradictsWithout ?_) (by decide)
    exact Conflict.opensWithout_of_order [⟨⟨0⟩, .negative⟩, ⟨⟨1⟩, .positive⟩, ⟨⟨2⟩, .positive⟩,
      ⟨⟨2⟩, .negative⟩, ⟨⟨1⟩, .negative⟩, ⟨⟨0⟩, .positive⟩] (by decide +kernel)
  · refine iff_of_false (not_not_intro ⟨spareTriangle, ?_, ?_⟩) (by decide)
    · exact .negative (p := ⟨⟨0⟩, .positive⟩) ⟨rfl, rfl, rfl, rfl, rfl⟩ (by decide)
    · unfold Conflict.LeftWithout
      decide +kernel

/-- A conflict may have a reason to spare: the first three of these constraints contradict each
other, and so do the last four, but every solver reports all five. -/
theorem conflict_with_spare_reason :
    ((empty.assertions spareSum).map Prod.snd).Nodup ∧
    (∀ o, ((ofCalls spareSum).solve o).answer =
      .ok (.unsatisfiable ⟨.negativeCycle, [6, 1, 2, 3, 5, 6], [1, 3, 4, 5, 2]⟩)) ∧
    ¬∃ σ : Assignment, ∀ x ∈ empty.assertions spareSum,
      x.2 ∈ [1, 3, 4, 5, 2] → x.2 ≠ 1 → x.1.Holds σ := by
  refine ⟨by decide +kernel, ?_, ?_⟩
  · rintro ⟨relaxation, explanation⟩
    cases relaxation <;> cases explanation <;> decide +kernel
  · rintro ⟨σ, hσ⟩
    have hz := hσ (.constraint ⟨⟨⟨2⟩, .negative⟩, none, (Weight.ofInt? (-1)).getD 0⟩, 2)
      (by decide +kernel) (by decide) (by decide)
    have hx := hσ (.constraint ⟨⟨⟨0⟩, .negative⟩, none, (Weight.ofInt? (-1)).getD 0⟩, 3)
      (by decide +kernel) (by decide) (by decide)
    have hsum := hσ (.constraint (.sum ⟨0⟩ ⟨1⟩ ((Weight.ofInt? 1).getD 0)), 4)
      (by decide +kernel) (by decide) (by decide)
    have hdiff := hσ (.constraint (.difference ⟨2⟩ ⟨1⟩ ((Weight.ofInt? (-1)).getD 0)), 5)
      (by decide +kernel) (by decide) (by decide)
    change -σ ⟨2⟩ ≤ -1 at hz
    change -σ ⟨0⟩ ≤ -1 at hx
    change σ ⟨0⟩ + σ ⟨1⟩ ≤ 1 at hsum
    change σ ⟨2⟩ + -σ ⟨1⟩ ≤ -1 at hdiff
    omega

end Graph

end Octagon

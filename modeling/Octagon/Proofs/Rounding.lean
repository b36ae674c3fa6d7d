import Octagon.Proofs.Certificate
import Octagon.Proofs.Component
import Octagon.Proofs.Explanation

/-!
Rounding. Half the difference between the distances of `x+` and `x-` is a value for `x` that
satisfies every constraint, but not always an integer. Where the difference is odd, the component of
`x+` decides the way to round: towards `x-` if its label is the lower one. Labels do not rise along
tight arcs, so where a constraint leaves no room for rounding its two sides are rounded alike.
-/

namespace Octagon

variable {w : Width} {ρ : Type} {n : Nat} {net : Network w ρ n} {paths : Paths w (n + 1)}

/-! ### Labels of vertices -/

namespace Network

/-- The label of the component of `v` among the tight arcs; 0 if `v` is at none of them. -/
def label (net : Network w ρ n) (paths : Paths w (n + 1)) (v : Fin (n + 1)) : Nat :=
  ((net.tightSubgraph paths).number v).elim 0 (net.tightSubgraph paths).digraph.components.labels

/-- Labels do not rise along tight arcs. -/
theorem label_target_le {a : Arc w ρ (n + 1)} (ha : a ∈ net.tightArcs paths) :
    net.label paths a.target ≤ net.label paths a.source := by
  obtain ⟨i, j, hi, hj, hnext⟩ := TightSubgraph.exists_next ha
  have hsource : (net.tightSubgraph paths).number a.source = some i := hi
  have htarget : (net.tightSubgraph paths).number a.target = some j := hj
  rw [label, label, hsource, htarget]
  exact Digraph.label_le hnext

/-- Where tightening finds no conflict, the occurrences of a variable whose distances differ oddly
are in different components. -/
theorem label_ne_of_tighten {selection : Selection}
    (hc : (net.tighten selection paths).conflict = .ok none) {s : Split (n + 1)}
    (hs : s ∈ net.splits)
    (hodd : (paths.dist s.negative - paths.dist s.positive) % 2 = 1)
    (hpos : ∃ a ∈ net.tightArcs paths, a.source = s.positive ∨ a.target = s.positive)
    (hneg : ∃ a ∈ net.tightArcs paths, a.source = s.negative ∨ a.target = s.negative) :
    net.label paths s.positive ≠ net.label paths s.negative := by
  obtain ⟨i, hi⟩ := TightSubgraph.exists_number_iff.2 hpos
  obtain ⟨j, hj⟩ := TightSubgraph.exists_number_iff.2 hneg
  have hi' : (net.tightSubgraph paths).number s.positive = some i := hi
  have hj' : (net.tightSubgraph paths).number s.negative = some j := hj
  rw [label, label, hi', hj']
  intro heq
  simp only [tighten] at hc
  split at hc
  · rename_i hsingle
    have hij : i = j := Digraph.eq_of_allSingle hsingle heq
    have hends : s.positive = s.negative :=
      (TightSubgraph.number_eq_some_iff.1 (hij ▸ hi)).symm.trans
        (TightSubgraph.number_eq_some_iff.1 hj)
    rw [hends, sub_self] at hodd
    cases hodd
  · have hnil := TightSubgraph.eq_nil_of_select hc
    have hmem : ⟨s.var, i, j⟩ ∈ (net.tightSubgraph paths).violations
        (net.tightSubgraph paths).digraph.components paths net.splits :=
      TightSubgraph.mem_violations_iff.2
        ⟨s, hs, rfl, hi, hj, beq_iff_eq.2 heq, Weight.differsOddly_iff.2 hodd⟩
    rw [hnil] at hmem
    cases hmem

/-! ### Rounded values -/

/-- Half the difference between the distances of the occurrences, rounded as their labels say. -/
def rounded (net : Network w ρ n) (paths : Paths w (n + 1)) (s : Split (n + 1)) : Int :=
  let double := paths.dist s.positive - paths.dist s.negative
  if double % 2 = 0 then double / 2
  else if net.label paths s.positive < net.label paths s.negative then (double - 1) / 2
  else (double + 1) / 2

/-- The rounded value of each variable that is split; 0 for others. -/
def rounding (net : Network w ρ n) (paths : Paths w (n + 1)) : Assignment := fun x =>
  (net.splits.find? (·.var = x)).elim 0 (net.rounded paths)

/-- What is known of the value `x` of an occurrence with label `p` whose distance exceeds that of
its negation, with label `q`, by `double`. -/
structure Near (double x : Int) (p q : Nat) : Prop where
  even : double % 2 = 0 → 2 * x = double
  lower : double - 1 ≤ 2 * x
  upper : 2 * x ≤ double + 1
  down : double % 2 = 1 → p < q → 2 * x = double - 1
  up : double % 2 = 1 → q < p → 2 * x = double + 1

theorem Near.neg {double x : Int} {p q : Nat} (h : Near double x p q) :
    Near (-double) (-x) q p := by
  obtain ⟨heven, hlower, hupper, hdown, hup⟩ := h
  constructor <;> omega

theorem near_rounded (s : Split (n + 1)) :
    Near (paths.dist s.positive - paths.dist s.negative) (net.rounded paths s)
      (net.label paths s.positive) (net.label paths s.negative) := by
  unfold rounded
  dsimp only
  split
  · constructor <;> omega
  · split <;> constructor <;> omega

end Network

namespace Graph

variable {g : Graph w ρ} {net : Network w ρ g.occurrences.size}
  {paths : Paths w (g.occurrences.size + 1)}

namespace IsNetwork

variable (h : g.IsNetwork net)

include h

/-- A split variable gets its rounded value. -/
theorem rounding_eq {s : Split (g.occurrences.size + 1)} (hs : s ∈ net.splits) :
    net.rounding paths s.var = net.rounded paths s := by
  have hfind : net.splits.find? (·.var = s.var) = some s := by
    obtain ⟨t, ht⟩ : ∃ t, net.splits.find? (·.var = s.var) = some t :=
      Option.isSome_iff_exists.1 (List.find?_isSome.2 ⟨s, hs, by simp⟩)
    obtain ⟨y, p, q⟩ := t
    obtain ⟨x, p', q'⟩ := s
    obtain rfl : y = x := by simpa using List.find?_some ht
    obtain ⟨hp, hq⟩ := (h.mem_splits_iff y p q).1 (List.mem_of_find?_eq_some ht)
    obtain ⟨hp', hq'⟩ := (h.mem_splits_iff y p' q').1 hs
    obtain rfl : p = p' := Fin.ext (Option.some.inj (hp.symm.trans hp'))
    obtain rfl : q = q' := Fin.ext (Option.some.inj (hq.symm.trans hq'))
    exact ht
  rw [Network.rounding, hfind]
  rfl

/-- An occurrence whose negation has a vertex too gets about half of what their distances differ
by. -/
theorem near_value {o : Occurrence} {p q : Fin (g.occurrences.size + 1)}
    (hp : g.vertex? o = some p.val) (hq : g.vertex? o.negate = some q.val) :
    Network.Near (paths.dist p - paths.dist q) (o.value (net.rounding paths))
      (net.label paths p) (net.label paths q) := by
  obtain ⟨x, polarity⟩ := o
  cases polarity with
  | positive =>
    have hs := (h.mem_splits_iff x p q).2 ⟨hp, hq⟩
    have hvalue : Occurrence.value (net.rounding paths) ⟨x, .positive⟩ =
        net.rounded paths ⟨x, p, q⟩ := h.rounding_eq hs
    rw [hvalue]
    exact Network.near_rounded ⟨x, p, q⟩
  | negative =>
    have hs := (h.mem_splits_iff x q p).2 ⟨hq, hp⟩
    have hvalue : Occurrence.value (net.rounding paths) ⟨x, .negative⟩ =
        -net.rounded paths ⟨x, q, p⟩ := congrArg Neg.neg (h.rounding_eq hs)
    rw [hvalue, ← neg_sub]
    exact (Network.near_rounded ⟨x, q, p⟩).neg

/-- Where tightening finds no conflict, opposite vertices at tight arcs whose distances differ oddly
have different labels. -/
theorem label_ne {selection : Selection} (hc : (net.tighten selection paths).conflict = .ok none)
    {o : Occurrence} {p q : Fin (g.occurrences.size + 1)} (hp : g.vertex? o = some p.val)
    (hq : g.vertex? o.negate = some q.val) (hodd : (paths.dist p - paths.dist q) % 2 = 1)
    (hpa : ∃ a ∈ net.tightArcs paths, a.source = p ∨ a.target = p)
    (hqa : ∃ a ∈ net.tightArcs paths, a.source = q ∨ a.target = q) :
    net.label paths p ≠ net.label paths q := by
  obtain ⟨x, polarity⟩ := o
  cases polarity with
  | positive =>
    have hodd' : (paths.dist q - paths.dist p) % 2 = 1 := by omega
    exact Network.label_ne_of_tighten hc ((h.mem_splits_iff x p q).2 ⟨hp, hq⟩) hodd' hpa hqa
  | negative =>
    exact (Network.label_ne_of_tighten hc ((h.mem_splits_iff x q p).2 ⟨hq, hp⟩) hodd hqa hpa).symm

/-- Where tightening finds no conflict, rounded values satisfy a bound that is mirrored, whatever
the reasons are. -/
theorem holds_rounding (hset : paths.Settled net) {selection : Selection}
    (hc : (net.tighten selection paths).conflict = .ok none) {a b : Occurrence} {k : Weight w}
    {r r' : ρ} (hab : g.bound? a b = some (k, r))
    (hmirror : g.bound? b.negate a.negate = some (k, r')) :
    (Difference.mk a b k).Holds (net.rounding paths) := by
  obtain ⟨e, he, hea, heb, rfl, heroot⟩ := h.exists_arc_of_bound? hab
  obtain ⟨f, hf, hfb, hfa, hweight, hfroot⟩ := h.exists_arc_of_bound? hmirror
  have hnearA : Network.Near (paths.dist e.source - paths.dist f.target)
    (a.value (net.rounding paths)) _ _ := h.near_value hea hfa
  have hnearB : Network.Near (paths.dist e.target - paths.dist f.source)
    (b.value (net.rounding paths)) _ _ := h.near_value heb hfb
  have hle := hset e he
  have hle' := hset f hf
  rw [hweight] at hle'
  unfold Difference.Holds
  dsimp only
  by_cases htight : paths.dist e.target = paths.dist e.source + e.weight.val ∧
      paths.dist f.target = paths.dist f.source + e.weight.val ∧
      (paths.dist e.source - paths.dist f.target) % 2 = 1
  · obtain ⟨hte, htf, hodd⟩ := htight
    have hetight := Network.mem_tightArcs_iff.2 ⟨he, heroot, hte⟩
    have hftight := Network.mem_tightArcs_iff.2 ⟨hf, hfroot, hweight ▸ htf⟩
    have hlabel := Network.label_target_le hetight
    have hlabel' := Network.label_target_le hftight
    rcases lt_or_gt_of_ne (h.label_ne hc hea hfa hodd ⟨e, hetight, .inl rfl⟩
      ⟨f, hftight, .inr rfl⟩) with hlt | hlt
    · -- both sides are rounded down
      have hA := hnearA.down hodd hlt
      have hB := hnearB.down (by omega) (by omega)
      omega
    · have hA := hnearA.up hodd hlt
      have hB := hnearB.upper
      omega
  · obtain ⟨hevenA, hlowerA, -, -, -⟩ := hnearA
    obtain ⟨hevenB, -, hupperB, -, -⟩ := hnearB
    omega

end IsNetwork

end Graph

end Octagon

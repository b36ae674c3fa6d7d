import Octagon.Conflict.Check
import Octagon.Proofs.Certificate
import Octagon.Proofs.Graph.History
import Octagon.Proofs.Sum

/-!
Reported conflicts pass the check. What the check reads along the cycle of a conflict is what the
closed walk behind it has: its weights, its reasons, and no root. It can only refuse the conflict
because a sum leaves the range on its way, and then the weights that are not negative already have
a sum above the largest weight.
-/

namespace Octagon

variable {w : Width} {ρ : Type}

theorem exactWeight_eq_exactSum {n : Nat} (l : List (Arc w ρ n)) :
    exactWeight l = exactSum (l.map Arc.weight) := by
  simp [exactWeight, exactSum, Function.comp_def]

theorem checkedTotal_eq_ok_iff {ws : List (Weight w)} {total : Weight w} :
    checkedTotal ws = .ok total ↔ Weight.sum? ws = some total := by
  unfold checkedTotal
  cases Weight.sum? ws <;> simp

/-! ### Weights of a negative cycle -/

/-- All that can come of the check: the weights that are not negative have too large a sum, or the
sign of the sum of all is found. -/
theorem checkNegative_cases (ws : List (Weight w)) :
    (checkNegative ws = .error .weightOverflow ∧ w.max < exactSum (ws.filter (0 ≤ ·))) ∨
      (checkNegative ws = .ok () ∧ exactSum ws < 0) ∨
      ∃ total, checkNegative ws = .error (.nonNegative total) ∧ 0 ≤ exactSum ws := by
  have hnonneg : ∀ a ∈ ws.filter (0 ≤ ·), (0 : Int) ≤ a.val := by
    intro a ha
    exact of_decide_eq_true (List.mem_filter.1 ha).2
  have hnonpos : ∀ a ∈ ws.filter (· < 0), a.val ≤ 0 := by
    intro a ha
    exact (of_decide_eq_true (List.mem_filter.1 ha).2 : a.val < 0).le
  have hsum := Weight.exactSum_filter_add ws
  have hp := Weight.exactSum_nonneg hnonneg
  have hn := Weight.exactSum_nonpos hnonpos
  unfold checkNegative checkedTotal
  cases hpos : Weight.sum? (ws.filter (0 ≤ ·)) with
  | none =>
    refine .inl ⟨rfl, not_le.1 fun hle => ?_⟩
    exact Weight.sum?_eq_none_iff.1 hpos ((Weight.fits_iff_of_nonneg hnonneg).2 hle)
  | some positive =>
    have hpval := (Weight.sum?_eq_some_iff.1 hpos).1
    have hmax := positive.le_max
    cases hneg : Weight.sum? (ws.filter (· < 0)) with
    | none =>
      -- the negative part is below the smallest weight, and no positive part makes up for that
      have hmin : exactSum (ws.filter (· < 0)) < w.min := by
        refine not_le.1 fun hle => ?_
        exact Weight.sum?_eq_none_iff.1 hneg ((Weight.fits_iff_of_nonpos hnonpos).2 hle)
      have := w.max_eq
      exact .inr (.inl ⟨rfl, by omega⟩)
    | some negative =>
      have hnval := (Weight.sum?_eq_some_iff.1 hneg).1
      have hmin := negative.min_le
      cases htotal : negative.add? positive with
      | none =>
        have hrange := Weight.ofInt?_eq_none_iff.1 htotal
        omega
      | some total =>
        have ht := Weight.add?_eq_some_iff.1 htotal
        by_cases hle : (0 : Weight w) ≤ total
        · have hle' : (0 : Int) ≤ total.val := hle
          refine .inr (.inr ⟨total, ?_, by omega⟩)
          simp only [bind, Except.bind, htotal, if_pos hle]
          rfl
        · have hlt : total.val < 0 := not_le.1 hle
          refine .inr (.inl ⟨?_, by omega⟩)
          simp only [bind, Except.bind, htotal, if_neg hle]
          rfl

/-- Weights with a negative sum pass, unless those that are not negative have too large a sum. -/
theorem checkNegative_of_neg {ws : List (Weight w)} (h : exactSum ws < 0) :
    checkNegative ws = .ok () ∨
      checkNegative ws = .error .weightOverflow ∧ w.max < exactSum (ws.filter (0 ≤ ·)) := by
  rcases checkNegative_cases ws with hover | ⟨hok, -⟩ | ⟨_, -, hle⟩
  · exact .inr hover
  · exact .inl hok
  · exact absurd hle (not_le.2 h)

namespace Graph

variable {g : Graph w ρ} {net : Network w ρ g.occurrences.size}
  {u v : Fin (g.occurrences.size + 1)} {l : List (Arc w ρ (g.occurrences.size + 1))}

/-! ### Reading along a walk -/

theorem zip_map_val_visited (hl : Walk net.arcs u v l) :
    ((visited u l).map Fin.val).zip ((visited u l).map Fin.val).tail =
      l.map fun a => (a.source.val, a.target.val) := by
  rw [← List.map_tail, List.zip_map, hl.zip_visited, List.map_map]
  rfl

theorem IsNetwork.edgeBetween_of_mem (h : g.IsNetwork net)
    {a : Arc w ρ (g.occurrences.size + 1)} (ha : a ∈ net.arcs) :
    g.edgeBetween a.source.val a.target.val = some a.edge :=
  h.valid.edgeBetween_eq_some_iff.2 ⟨h.edge_mem ha, rfl, rfl⟩

/-- The weights read along a walk are those of its arcs. -/
theorem IsNetwork.weightsAlong_eq (h : g.IsNetwork net)
    (hl : Walk net.arcs u v l) :
    g.weightsAlong ((visited u l).map Fin.val) = .ok (l.map Arc.weight) := by
  rw [weightsAlong, zip_map_val_visited hl, mapM_eq_ok_iff, List.forall₂_map_left_iff,
    List.forall₂_map_right_iff, List.forall₂_same]
  intro a ha
  simp only [h.edgeBetween_of_mem (hl.mem a ha), Arc.edge]

/-- The reasons read along a walk are those of its arcs. -/
theorem IsNetwork.reasonsAlong_eq (h : g.IsNetwork net)
    (hl : Walk net.arcs u v l) :
    g.reasonsAlong ((visited u l).map Fin.val) = l.flatMap fun a => a.reason.toList := by
  rw [reasonsAlong, zip_map_val_visited hl, List.flatMap_map]
  refine List.flatMap_congr fun a ha => ?_
  simp only [reasons, h.edgeBetween_of_mem (hl.mem a ha), Option.bind_some, Arc.edge]

/-- A closed walk avoids the root. -/
theorem root_notMem_visited (hrooted : net.Rooted) (hl : Walk net.arcs v v l) (hne : l ≠ []) :
    root ∉ (visited v l).map Fin.val := by
  intro hmem
  obtain ⟨x, hx, hroot⟩ := List.mem_map.1 hmem
  obtain rfl : x = Network.root _ := eq_root_iff.2 hroot
  exact hrooted.root_notMem_visited hl hne hx

/-- Each arc of a closed walk has one reason. -/
theorem map_some_reasons (hrooted : net.Rooted) (hl : Walk net.arcs v v l) :
    (l.flatMap fun a => a.reason.toList).map some = l.map Arc.reason := by
  rw [List.map_flatMap, List.map_eq_flatMap]
  refine List.flatMap_congr fun a ha => ?_
  have hsome : a.reason ≠ none := fun hnone =>
    hrooted.source_ne_root hl a ha ((hrooted.reason_eq_none a (hl.mem a ha)).1 hnone)
  obtain ⟨r, hr⟩ := Option.ne_none_iff_exists'.1 hsome
  simp [hr]

theorem length_reasons_ofWalk (kind : ConflictKind) (hrooted : net.Rooted)
    (hl : Walk net.arcs v v l) : (Conflict.ofWalk kind v l).reasons.length + 1 =
      (Conflict.ofWalk kind v l).cycle.length := by
  have hlen := congrArg List.length (map_some_reasons hrooted hl)
  rw [List.length_map, List.length_map] at hlen
  simp [Conflict.ofWalk, visited, hlen]

theorem reasons_ofWalk_ne_nil (kind : ConflictKind) (hrooted : net.Rooted)
    (hl : Walk net.arcs v v l) (hne : l ≠ []) : (Conflict.ofWalk kind v l).reasons ≠ [] := by
  intro hnil
  have hlen := length_reasons_ofWalk kind hrooted hl
  rw [hnil] at hlen
  simp [Conflict.ofWalk, visited, hne] at hlen

theorem closed_ofWalk (kind : ConflictKind) (hl : Walk net.arcs v v l) :
    (Conflict.ofWalk kind v l).cycle.head? = (Conflict.ofWalk kind v l).cycle.getLast? := by
  rw [Conflict.ofWalk, List.getLast?_map, hl.getLast?_visited]
  rfl

/-- What the check looks at first holds of every closed walk; the weights are those of the arcs. -/
theorem IsNetwork.checkCycle_ofWalk (h : g.IsNetwork net)
    (hl : Walk net.arcs v v l) (hne : l ≠ []) (kind : ConflictKind) :
    g.checkCycle (.ofWalk kind v l) = match kind with
      | .negativeCycle => checkNegative (l.map Arc.weight)
      | .tightening x =>
        g.checkTightening x ((visited v l).map Fin.val) (l.map Arc.weight) := by
  have hlen : ¬((visited v l).map Fin.val).length < 2 := by
    have := List.length_pos_iff.2 hne
    simp only [visited, List.length_map, List.length_cons]
    omega
  have hclosed : ((visited v l).map Fin.val).head? = ((visited v l).map Fin.val).getLast? :=
    closed_ofWalk kind hl
  have hroot := root_notMem_visited h.rooted hl hne
  simp only [checkCycle, Conflict.ofWalk, hlen, hclosed, hroot, h.weightsAlong_eq hl,
    ne_eq, not_true_eq_false, or_self, if_false]
  rfl

/-- Where the reasons equal those along the cycle, the check judges the cycle alone. -/
theorem check_eq_checkCycle [BEq ρ] {c : Conflict ρ}
    (h : (g.reasonsAlong c.cycle == c.reasons) = true) : g.check c = g.checkCycle c := by
  simp only [check, bne, h, Bool.not_true, Bool.false_eq_true, if_false]
  cases g.checkCycle c <;> rfl

/-! ### Weights of a tightening cycle -/

section tightening

variable {paths : Paths w (g.occurrences.size + 1)}

/-- The first arcs of a walk of tight arcs weigh what the distances of two vertices differ by. -/
theorem exists_exactSum_eq (hl : Walk (net.tightArcs paths) u v l) {us : List (Weight w)}
    (hus : us <+: l.map Arc.weight) : ∃ x, exactSum us = paths.dist x - paths.dist u := by
  have htake : us = (l.take us.length).map Arc.weight := by
    rw [List.map_take]
    exact List.prefix_iff_eq_take.1 hus
  rw [← List.take_append_drop us.length l] at hl
  obtain ⟨x, hfirst, -⟩ := walk_append_iff.1 hl
  refine ⟨x, ?_⟩
  rw [htake, ← exactWeight_eq_exactSum, Network.exactWeight_of_tight hfirst]

/-- The sums along a walk of tight arcs can leave the range above only, and then the weights that
are not negative have too large a sum. -/
theorem fits_or_max_lt (hdist : ∀ x, paths.dist x ≤ 0) (hl : Walk (net.tightArcs paths) u v l) :
    Weight.Fits 0 (l.map Arc.weight) ∨
      w.max < exactSum ((l.map Arc.weight).filter (0 ≤ ·)) := by
  by_cases hmax : ∀ us, us <+: l.map Arc.weight → exactSum us ≤ w.max
  · refine .inl fun us hus => ?_
    obtain ⟨x, hx⟩ := exists_exactSum_eq hl hus
    have hmin : w.min ≤ paths.dist x := (paths.distance x).min_le
    have := hdist u
    have := hmax us hus
    omega
  · push Not at hmax
    obtain ⟨us, hus, hlt⟩ := hmax
    exact .inr (hlt.trans_le (Weight.exactSum_le_filter hus))

/-- A vertex is first met where the part before it ends. -/
theorem firstVisit_eq_ok {x : Variable} {o : Occurrence} {i : Vertex} {before after : List Vertex}
    (hi : g.vertex? o = some i) (hbefore : i ∉ before) :
    (g.firstVisit x o (before ++ i :: after) : Except (CheckError w) Nat) =
      .ok before.length := by
  have hfirst : (before ++ i :: after).idxOf? i = some before.length := by
    refine List.idxOf?_eq_some_iff.2 ⟨by simp, by simp, fun j hj heq => hbefore ?_⟩
    rw [List.getElem_append_left hj] at heq
    exact heq ▸ List.getElem_mem hj
  simp [firstVisit, hi, hfirst]

/-- What the check of a tightening cycle asks for. -/
theorem checkTightening_eq_ok_iff {x : Variable} {cycle : List Vertex} {ws : List (Weight w)} :
    g.checkTightening x cycle ws = .ok () ↔ Weight.sum? ws = some 0 ∧ ∃ i j half,
      (g.firstVisit x x.positive cycle.dropLast : Except (CheckError w) Nat) = .ok i ∧
      (g.firstVisit x x.negative cycle.dropLast : Except (CheckError w) Nat) = .ok j ∧
      Weight.sum? (segment ws i j) = some half ∧ half.isOdd = true := by
  simp only [checkTightening, bind_eq_ok_iff, refuse_eq_ok_iff, checkedTotal_eq_ok_iff, ne_eq,
    not_not]
  constructor
  · rintro ⟨_, htotal, rfl, i, hi, j, hj, half, hhalf, hodd⟩
    refine ⟨htotal, i, j, half, hi, hj, hhalf, ?_⟩
    cases hparity : half.isOdd
    · simp [hparity, throw, throwThe, MonadExceptOf.throw] at hodd
    · rfl
  · rintro ⟨htotal, i, j, half, hi, hj, hhalf, hodd⟩
    exact ⟨0, htotal, rfl, i, hi, j, hj, half, hhalf, by simp [hodd]; rfl⟩

theorem checkTightening_eq_overflow {x : Variable} {cycle : List Vertex} {ws : List (Weight w)}
    (htotal : Weight.sum? ws = none) :
    g.checkTightening x cycle ws = .error .weightOverflow := by
  simp [checkTightening, checkedTotal, htotal, bind, Except.bind]

/-- A walk there and back passes `x+` first, and `x-` once the way there is over. -/
theorem dropLast_map_visited {n : Nat} {arcs : List (Arc w ρ n)} {x y : Fin n}
    {there back : List (Arc w ρ n)} (hxy : x ≠ y)
    (hthere : Walk arcs x y there) (hback : Walk arcs y x back)
    (hsimple : (visited x there).Nodup) : ∃ before after : List Vertex,
      ((visited x (there ++ back)).map Fin.val).dropLast = x.val :: before ++ y.val :: after ∧
        y.val ∉ x.val :: before ∧ (x.val :: before).length = there.length := by
  rcases List.eq_nil_or_concat there with rfl | ⟨first, a, rfl⟩
  · exact absurd hthere hxy
  rw [List.concat_eq_append] at hthere hsimple ⊢
  obtain ⟨_, _, _, _, rfl⟩ := walk_append_iff.1 hthere
  have hne : back ≠ [] := by
    rintro rfl
    exact hxy (Eq.symm hback)
  have hback' : (back.map Arc.target).map Fin.val ≠ [] := by simpa using hne
  refine ⟨(first.map Arc.target).map Fin.val, ((back.map Arc.target).map Fin.val).dropLast,
    ?_, ?_, by simp⟩
  · have hsplit : (visited x (first ++ [a] ++ back)).map Fin.val =
        (x.val :: (first.map Arc.target).map Fin.val ++ [a.target.val]) ++
          (back.map Arc.target).map Fin.val := by simp [visited]
    rw [hsplit, List.dropLast_append_of_ne_nil hback', List.append_assoc, List.singleton_append]
  · intro hmem
    have hvals : ((visited x (first ++ [a])).map Fin.val).Nodup := hsimple.map Fin.val_injective
    have hsplit : (visited x (first ++ [a])).map Fin.val =
        (x.val :: (first.map Arc.target).map Fin.val) ++ [a.target.val] := by simp [visited]
    rw [hsplit] at hvals
    exact List.disjoint_of_nodup_append hvals hmem (List.mem_singleton_self _)

/-- The check finds `x+` at the start of a walk there and back, and `x-` at its turn. -/
theorem firstVisit_ofWalk {arcs : List (Arc w ρ (g.occurrences.size + 1))}
    {x : Split (g.occurrences.size + 1)} {there back : List (Arc w ρ (g.occurrences.size + 1))}
    (hpos : g.vertex? x.var.positive = some x.positive.val)
    (hneg : g.vertex? x.var.negative = some x.negative.val) (hxy : x.positive ≠ x.negative)
    (hthere : Walk arcs x.positive x.negative there) (hback : Walk arcs x.negative x.positive back)
    (hsimple : (visited x.positive there).Nodup) :
    (g.firstVisit x.var x.var.positive
        ((visited x.positive (there ++ back)).map Fin.val).dropLast :
          Except (CheckError w) Nat) = .ok 0 ∧
      (g.firstVisit x.var x.var.negative
        ((visited x.positive (there ++ back)).map Fin.val).dropLast :
          Except (CheckError w) Nat) = .ok there.length := by
  obtain ⟨before, after, hwalk, hmem, hlen⟩ := dropLast_map_visited hxy hthere hback hsimple
  rw [hwalk]
  constructor
  · exact @firstVisit_eq_ok _ _ _ _ _ _ [] _ hpos List.not_mem_nil
  · rw [← hlen]
    exact firstVisit_eq_ok hneg hmem

/-- A closed walk of tight arcs through both occurrences passes, unless the weights that are not
negative have too large a sum. -/
theorem checkTightening_ofWalk (hdist : ∀ x, paths.dist x ≤ 0)
    {x : Split (g.occurrences.size + 1)} {there back : List (Arc w ρ (g.occurrences.size + 1))}
    (hpos : g.vertex? x.var.positive = some x.positive.val)
    (hneg : g.vertex? x.var.negative = some x.negative.val)
    (hthere : Walk (net.tightArcs paths) x.positive x.negative there)
    (hback : Walk (net.tightArcs paths) x.negative x.positive back)
    (hsimple : (visited x.positive there).Nodup)
    (hodd : (paths.dist x.negative - paths.dist x.positive) % 2 = 1) :
    g.checkTightening x.var ((visited x.positive (there ++ back)).map Fin.val)
        ((there ++ back).map Arc.weight) = .ok () ∨
      g.checkTightening x.var ((visited x.positive (there ++ back)).map Fin.val)
        ((there ++ back).map Arc.weight) = .error .weightOverflow ∧
      w.max < exactSum (((there ++ back).map Arc.weight).filter (0 ≤ ·)) := by
  have hclosed := hthere.append hback
  cases htotal : Weight.sum? ((there ++ back).map Arc.weight) with
  | none =>
    refine .inr ⟨checkTightening_eq_overflow htotal, (fits_or_max_lt hdist hclosed).resolve_left ?_⟩
    exact Weight.sum?_eq_none_iff.1 htotal
  | some total =>
    refine .inl ?_
    obtain ⟨hsum, hfits⟩ := Weight.sum?_eq_some_iff.1 htotal
    have hzero : total = 0 := by
      refine Weight.ext ?_
      rw [hsum, ← exactWeight_eq_exactSum, Network.exactWeight_of_tight hclosed, sub_self]
      rfl
    have hxy : x.positive ≠ x.negative := by
      intro heq
      rw [heq, sub_self] at hodd
      cases hodd
    obtain ⟨hfirst, hsecond⟩ := firstVisit_ofWalk hpos hneg hxy hthere hback hsimple
    have hsegment : segment ((there ++ back).map Arc.weight) 0 there.length =
        there.map Arc.weight := by
      simp [segment]
    have hprefix : there.map Arc.weight <+: (there ++ back).map Arc.weight :=
      (List.prefix_append there back).map Arc.weight
    obtain ⟨half, hhalf⟩ : ∃ half, Weight.sum? (there.map Arc.weight) = some half := by
      refine Option.ne_none_iff_exists'.1 fun hnone => ?_
      exact Weight.sum?_eq_none_iff.1 hnone (hfits.of_prefix hprefix)
    have hval := (Weight.sum?_eq_some_iff.1 hhalf).1
    rw [← exactWeight_eq_exactSum, Network.exactWeight_of_tight hthere] at hval
    have hisOdd : half.isOdd = true := by rw [Weight.isOdd, hval, hodd]; rfl
    exact checkTightening_eq_ok_iff.2
      ⟨hzero ▸ htotal, 0, there.length, half, hfirst, hsecond, hsegment ▸ hhalf, hisOdd⟩

end tightening

/-! ### Reported conflicts -/

/-- A conflict that a solver reports passes the check, unless a sum leaves the range; then the
weights along its cycle that are not negative have too large a sum. It has the reason of each edge
of its cycle, and a negative cycle repeats no vertex but the one that closes it. -/
theorem check_of_solve [BEq ρ] [ReflBEq ρ] (calls : List (Call w ρ)) (o : Options)
    (overflow : Overflow) (c : Conflict ρ)
    (h : ((ofCalls calls).solve o overflow).answer = .ok (.unsatisfiable c)) :
    ((ofCalls calls).check c = .ok () ∨
      (ofCalls calls).check c = .error .weightOverflow ∧
        ∃ ws, (ofCalls calls).weightsAlong c.cycle = (.ok ws : Except (CheckError w) _) ∧
          w.max < ((ws.filter (0 ≤ ·)).map Weight.val).sum) ∧
      (ofCalls calls).reasonsAlong c.cycle = c.reasons ∧
      c.reasons.length + 1 = c.cycle.length ∧ c.reasons ≠ [] ∧
      (c.kind = .negativeCycle → c.cycle.head? = c.cycle.getLast? ∧ c.cycle.dropLast.Nodup) := by
  obtain ⟨net, hnet⟩ := (valid_ofCalls calls).exists_isNetwork
  have hrooted := hnet.rooted
  have hrefutes : net.Refutes c := hnet.answer_explains h
  cases hrefutes with
  | @negativeCycle v l hl hne hneg hsimple =>
    have hreasons := hnet.reasonsAlong_eq hl
    refine ⟨?_, hreasons, length_reasons_ofWalk _ hrooted hl,
      reasons_ofWalk_ne_nil _ hrooted hl hne, fun _ => ⟨closed_ofWalk _ hl, ?_⟩⟩
    · rw [check_eq_checkCycle (beq_of_eq hreasons), hnet.checkCycle_ofWalk hl hne]
      rw [exactWeight_eq_exactSum] at hneg
      exact (checkNegative_of_neg hneg).imp_right fun hover =>
        ⟨hover.1, _, hnet.weightsAlong_eq hl, hover.2⟩
    · rw [Conflict.ofWalk, ← List.map_dropLast]
      exact hsimple.map Fin.val_injective
  | @tightening paths x there back hdist hx hthere hback hsimple hodd =>
    obtain ⟨hpos, hneg⟩ := hnet.vertex?_split hx
    have hl : Walk net.arcs x.positive x.positive (there ++ back) :=
      Network.walk_of_tightArcs (hthere.append hback)
    have hne : there ++ back ≠ [] := by
      intro hnil
      obtain ⟨rfl, -⟩ := List.append_eq_nil_iff.1 hnil
      rw [show x.positive = x.negative from hthere, sub_self] at hodd
      cases hodd
    have hreasons := hnet.reasonsAlong_eq hl
    refine ⟨?_, hreasons, length_reasons_ofWalk _ hrooted hl,
      reasons_ofWalk_ne_nil _ hrooted hl hne, by rintro ⟨⟩⟩
    rw [check_eq_checkCycle (beq_of_eq hreasons), hnet.checkCycle_ofWalk hl hne]
    exact (checkTightening_ofWalk hdist hpos hneg hthere hback hsimple
      hodd).imp_right fun hover => ⟨hover.1, _, hnet.weightsAlong_eq hl, hover.2⟩

/-- `x + y = 1` and `x = y`, each as two constraints. -/
def oddSquare : List (Call .bits8 Nat) :=
  [.newVariable, .newVariable, .addConstraint (.sum ⟨0⟩ ⟨1⟩ ((Weight.ofInt? 1).getD 0)) 1,
    .addConstraint ⟨⟨⟨0⟩, .negative⟩, some ⟨⟨1⟩, .negative⟩, (Weight.ofInt? (-1)).getD 0⟩ 2,
    .addConstraint (.difference ⟨0⟩ ⟨1⟩ 0) 3, .addConstraint (.difference ⟨1⟩ ⟨0⟩ 0) 4]

/-- The cycle that pins `2x` to 1. -/
def oddCycle : Conflict Nat := ⟨.tightening ⟨0⟩, [1, 4, 2, 3, 1], [2, 4, 1, 3]⟩

theorem check_oddSquare : ((ofCalls oddSquare).solve {}).answer = .ok (.unsatisfiable oddCycle) ∧
    (ofCalls oddSquare).check oddCycle = .ok () ∧
    (ofCalls oddSquare).reasonsAlong oddCycle.cycle = oddCycle.reasons := by
  have hsolve : ((ofCalls oddSquare).solve {}).answer = .ok (.unsatisfiable oddCycle) := by
    decide +kernel
  exact ⟨hsolve, by decide +kernel, (check_of_solve oddSquare {} .checked oddCycle hsolve).2.1⟩

end Graph

end Octagon

import Octagon.Proofs.Check
import Octagon.Proofs.Graph.Padding

/-!
Accepted conflicts prove what they claim. A conflict that passes the check, wherever it comes from,
names a closed walk of the network, which may pass a vertex more than once. Its arcs contradict each
other: they have a negative weight together, or they weigh nothing and the way from `x+` to `x-`
that starts where the walk first meets `x+` has an odd weight.
-/

namespace Octagon

variable {w : Width} {ρ : Type}

/-! ### Segments of a closed walk -/

theorem map_segment {α β : Type} (f : α → β) (xs : List α) (i j : Nat) :
    segment (xs.map f) i j = (segment xs i j).map f := by
  unfold segment
  split <;> simp

/-- The entries from one place to another and those from there back are all entries. -/
theorem segment_append_perm {α : Type} (xs : List α) {i j : Nat} (hij : i ≠ j) :
    (segment xs i j ++ segment xs j i).Perm xs := by
  have hparts : ∀ {i j : Nat}, i < j → (segment xs i j ++ segment xs j i).Perm xs := by
    intro i j hlt
    have htake := List.take_append_drop i (xs.take j)
    rw [List.take_take, Nat.min_eq_left hlt.le] at htake
    rw [segment, if_pos hlt.le, segment, if_neg (not_le.2 hlt), ← List.append_assoc]
    refine List.perm_append_comm.trans ?_
    rw [← List.append_assoc, htake, List.take_append_drop]
  rcases Nat.lt_or_gt_of_ne hij with hlt | hlt
  · exact hparts hlt
  · exact List.perm_append_comm.trans (hparts hlt)

section walks

variable {n : Nat} {arcs l : List (Arc w ρ n)} {i j : Nat}

/-- Between two places of a closed walk lies a walk, around its end where need be. -/
theorem Walk.segment {v p q : Fin n} (hl : Walk arcs v v l) (hp : (visited v l)[i]? = some p)
    (hq : (visited v l)[j]? = some q) : Walk arcs p q (segment l i j) := by
  unfold Octagon.segment
  split
  · rename_i hij
    have htake : visited v (l.take j) = (visited v l).take (j + 1) := by simp [visited]
    refine ((hl.cut_at hq).1.cut_at ?_).2
    rw [htake, List.getElem?_take_of_lt (Nat.lt_succ_of_le hij), hp]
  · exact (hl.cut_at hp).2.append (hl.cut_at hq).1

/-- The way from one place to another and the way back make up all of a closed walk. -/
theorem exactWeight_segment_add (l : List (Arc w ρ n)) (hij : i ≠ j) :
    exactWeight (segment l i j) + exactWeight (segment l j i) = exactWeight l := by
  rw [← exactWeight_append]
  exact ((segment_append_perm l hij).map _).sum_eq

end walks

/-! ### Odd circuits -/

/-- A closed walk that weighs nothing and passes `x+` at one place and `x-` at another, where the
way from the one to the other weighs an odd number. -/
structure Network.OddCircuit {n : Nat} (net : Network w ρ n) (x : Split (n + 1)) (v : Fin (n + 1))
    (l : List (Arc w ρ (n + 1))) (i j : Nat) : Prop where
  walk : Walk net.arcs v v l
  weight_eq : exactWeight l = 0
  positive : (visited v l)[i]? = some x.positive
  negative : (visited v l)[j]? = some x.negative
  odd : exactWeight (segment l i j) % 2 = 1

namespace Network.OddCircuit

variable {n : Nat} {net : Network w ρ n} {x : Split (n + 1)} {v : Fin (n + 1)}
  {l : List (Arc w ρ (n + 1))} {i j : Nat}

theorem ne (h : net.OddCircuit x v l i j) : i ≠ j := by
  have hodd := h.odd
  rintro rfl
  simp [segment] at hodd

/-- An odd circuit goes from `x+` to `x-` and back. -/
theorem exists_walks (h : net.OddCircuit x v l i j) : ∃ there back,
    Walk net.arcs x.positive x.negative there ∧ Walk net.arcs x.negative x.positive back ∧
      (there ++ back).Perm l ∧ exactWeight there + exactWeight back = 0 ∧
      exactWeight there % 2 = 1 :=
  ⟨_, _, h.walk.segment h.positive h.negative, h.walk.segment h.negative h.positive,
    segment_append_perm l h.ne, (exactWeight_segment_add l h.ne).trans h.weight_eq, h.odd⟩

theorem contradicts (h : net.OddCircuit x v l i j) (hx : x ∈ net.splits) :
    net.Contradicts (.tightening x.var) l := by
  obtain ⟨there, back, hthere, hback, hperm, hzero, hodd⟩ := h.exists_walks
  exact .tightening hx hthere hback hperm.subset hzero hodd

end Network.OddCircuit

namespace Graph

variable {g : Graph w ρ} {net : Network w ρ g.occurrences.size}

/-! ### Closed walks behind accepted conflicts -/

theorem exists_of_firstVisit {x : Variable} {o : Occurrence} {walk : List Vertex} {i : Nat}
    (h : (g.firstVisit x o walk : Except (CheckError w) Nat) = .ok i) :
    ∃ v, g.vertex? o = some v ∧ walk[i]? = some v := by
  unfold firstVisit at h
  cases hv : g.vertex? o with
  | none => rw [hv] at h; cases h
  | some v =>
    rw [hv, Option.bind_some] at h
    cases hi : walk.idxOf? v with
    | none => rw [hi] at h; cases h
    | some k =>
      rw [hi] at h
      obtain rfl : k = i := Except.ok.inj h
      obtain ⟨hlt, heq, -⟩ := List.idxOf?_eq_some_iff.1 hi
      exact ⟨v, rfl, heq ▸ List.getElem?_eq_getElem hlt⟩

/-- Weights can be read along a walk of the network only. -/
theorem IsNetwork.exists_walk_of_weightsAlong (h : g.IsNetwork net) :
    ∀ {vs : List Vertex} {u : Fin (g.occurrences.size + 1)} {ws : List (Weight w)},
      g.weightsAlong (u.val :: vs) = .ok ws → ∃ v l, Walk net.arcs u v l ∧
        (visited u l).map Fin.val = u.val :: vs ∧ l.map Arc.weight = ws
  | [], u, ws, hws => by
      cases hws
      exact ⟨u, [], rfl, rfl, rfl⟩
  | x :: vs, u, ws, hws => by
      simp only [weightsAlong, List.tail_cons, List.zip_cons_cons, List.mapM_cons, bind_eq_ok_iff,
        pure_eq_ok_iff] at hws
      obtain ⟨k, hk, ks, hks, rfl⟩ := hws
      cases he : g.edgeBetween u.val x with
      | none => rw [he] at hk; cases hk
      | some e =>
        rw [he] at hk
        obtain rfl : e.weight = k := Except.ok.inj hk
        obtain ⟨hmem, hs, ht⟩ := h.valid.edgeBetween_eq_some_iff.1 he
        obtain ⟨a, ha, rfl⟩ := h.mem_edges_iff.1 hmem
        obtain rfl : a.target.val = x := ht
        obtain ⟨v, l, hl, hvis, hweights⟩ := h.exists_walk_of_weightsAlong (u := a.target) hks
        refine ⟨v, a :: l, ⟨ha, Fin.ext hs, hl⟩, ?_, ?_⟩
        · exact congrArg (u.val :: ·) hvis
        · exact congrArg (a.weight :: ·) hweights

theorem exists_fin_of_firstVisit (h : g.Valid) {x : Variable} {o : Occurrence} {walk : List Vertex}
    {i : Nat} (hi : (g.firstVisit x o walk : Except (CheckError w) Nat) = .ok i) :
    ∃ p : Fin (g.occurrences.size + 1), g.vertex? o = some p.val := by
  obtain ⟨p, hp, -⟩ := exists_of_firstVisit hi
  exact ⟨⟨p, (h.vertex?_lt hp).2⟩, hp⟩

/-- Where the check finds an occurrence, the walk passes its vertex. -/
theorem getElem?_visited_of_firstVisit {x : Variable} {o : Occurrence} {i : Nat}
    {v p : Fin (g.occurrences.size + 1)} {l : List (Arc w ρ (g.occurrences.size + 1))}
    (hi : (g.firstVisit x o ((visited v l).map Fin.val).dropLast : Except (CheckError w) Nat) =
      .ok i) (hp : g.vertex? o = some p.val) : (visited v l)[i]? = some p := by
  obtain ⟨q, hq, hwalk⟩ := exists_of_firstVisit hi
  obtain rfl : p.val = q := Option.some.inj (hp.symm.trans hq)
  rw [List.getElem?_dropLast] at hwalk
  split at hwalk
  · rw [List.getElem?_map, Option.map_eq_some_iff] at hwalk
    obtain ⟨r, hr, hval⟩ := hwalk
    rwa [← Fin.ext hval]
  · cases hwalk

/-- A tightening cycle that passes is a circuit that pins twice the variable to an odd number. -/
theorem IsNetwork.exists_oddCircuit_of_checkTightening (h : g.IsNetwork net) {x : Variable}
    {v : Fin (g.occurrences.size + 1)} {l : List (Arc w ρ (g.occurrences.size + 1))}
    (hl : Walk net.arcs v v l)
    (hc : g.checkTightening x ((visited v l).map Fin.val) (l.map Arc.weight) = .ok ()) :
    ∃ s ∈ net.splits, s.var = x ∧ ∃ i j, net.OddCircuit s v l i j := by
  obtain ⟨htotal, i, j, half, hi, hj, hhalf, hodd⟩ := checkTightening_eq_ok_iff.1 hc
  obtain ⟨p, hp⟩ := exists_fin_of_firstVisit h.valid hi
  obtain ⟨q, hq⟩ := exists_fin_of_firstVisit h.valid hj
  have hweight : half.val = exactWeight (segment l i j) := by
    rw [exactWeight_eq_exactSum, ← map_segment]
    exact (Weight.sum?_eq_some_iff.1 hhalf).1
  refine ⟨⟨x, p, q⟩, (h.mem_splits_iff x p q).2 ⟨hp, hq⟩, rfl, i, j, hl, ?_,
    getElem?_visited_of_firstVisit hi hp, getElem?_visited_of_firstVisit hj hq, ?_⟩
  · rw [exactWeight_eq_exactSum]
    exact (Weight.sum?_eq_some_iff.1 htotal).1.symm
  · rw [← hweight]
    exact beq_iff_eq.1 hodd

/-- A cycle that passes is what a closed walk visits, and the weights judged are those of its
arcs. -/
theorem IsNetwork.exists_closed_of_checkCycle (h : g.IsNetwork net) {c : Conflict ρ}
    (hc : g.checkCycle c = .ok ()) : ∃ v l, Walk net.arcs v v l ∧
      (visited v l).map Fin.val = c.cycle ∧
      (match c.kind with
      | .negativeCycle => checkNegative (l.map Arc.weight)
      | .tightening x => g.checkTightening x c.cycle (l.map Arc.weight)) = .ok () := by
  simp only [checkCycle, bind_eq_ok_iff, refuse_eq_ok_iff, not_or, not_not, not_lt] at hc
  obtain ⟨⟨hlen, hclosed⟩, -, ws, hws, hkind⟩ := hc
  obtain ⟨kind, cycle, reasons⟩ := c
  dsimp only at *
  obtain ⟨x, y, vs, rfl⟩ : ∃ x y vs, cycle = x :: y :: vs := by
    rcases cycle with _ | ⟨x, _ | ⟨y, vs⟩⟩
    · simp at hlen
    · simp at hlen
    · exact ⟨x, y, vs, rfl⟩
  have hx : x < g.occurrences.size + 1 := by
    simp only [weightsAlong, List.tail_cons, List.zip_cons_cons, List.mapM_cons,
      bind_eq_ok_iff] at hws
    obtain ⟨k, hk, -⟩ := hws
    cases he : g.edgeBetween x y with
    | none => rw [he] at hk; cases hk
    | some e =>
      obtain ⟨hmem, rfl, -⟩ := h.valid.edgeBetween_eq_some_iff.1 he
      exact (h.valid.ends_lt _ (mem_ends.2 ⟨e, hmem, rfl, rfl⟩)).1
  obtain ⟨v, l, hl, hvis, rfl⟩ := h.exists_walk_of_weightsAlong (u := ⟨x, hx⟩) hws
  obtain rfl : (⟨x, hx⟩ : Fin _) = v := by
    have hlast : ((visited ⟨x, hx⟩ l).map Fin.val).getLast? = some v.val := by
      rw [List.getLast?_map, hl.getLast?_visited, Option.map_some]
    rw [hvis, ← hclosed] at hlast
    exact Fin.ext (Option.some.inj hlast)
  exact ⟨_, l, hl, hvis, hkind⟩

/-- The cycle of a conflict that passes is a closed walk whose arcs contradict each other. -/
theorem IsNetwork.exists_walk_of_checkCycle (h : g.IsNetwork net) {c : Conflict ρ}
    (hc : g.checkCycle c = .ok ()) : ∃ v l, Walk net.arcs v v l ∧
      (visited v l).map Fin.val = c.cycle ∧ net.Contradicts c.kind l := by
  obtain ⟨v, l, hl, hvis, hkind⟩ := h.exists_closed_of_checkCycle hc
  refine ⟨v, l, hl, hvis, ?_⟩
  cases hc : c.kind with
  | negativeCycle =>
    rw [hc] at hkind
    rcases checkNegative_cases (l.map Arc.weight) with ⟨hover, -⟩ | ⟨-, hneg⟩ | ⟨_, hnon, -⟩
    · rw [hover] at hkind; cases hkind
    · exact .negativeCycle hl (by rwa [exactWeight_eq_exactSum])
    · rw [hnon] at hkind; cases hkind
  | tightening x =>
    rw [hc, ← hvis] at hkind
    obtain ⟨s, hs, rfl, i, j, hodd⟩ := h.exists_oddCircuit_of_checkTightening hl hkind
    exact hodd.contradicts hs

/-! ### What a check never does -/

/-- The sum of the two parts of a negative cycle is always a weight. -/
theorem check_ne_unrepresentable [BEq ρ] (g : Graph w ρ) (c : Conflict ρ) :
    g.check c ≠ .error .unrepresentable := by
  have htotal : ∀ {ws : List (Weight w)}, checkedTotal ws ≠ .error .unrepresentable := by
    intro ws
    unfold checkedTotal
    split <;> simp
  have hvisit : ∀ {x : Variable} {o : Occurrence} {walk : List Vertex},
      (g.firstVisit x o walk : Except (CheckError w) Nat) ≠ .error .unrepresentable := by
    intro x o walk
    unfold firstVisit
    split <;> simp
  intro hc
  rcases bind_eq_error_iff.1 hc with hcycle | ⟨_, -, hreasons⟩
  · simp only [checkCycle, refuse_eq_error_iff, bind_eq_error_iff, reduceCtorEq, and_false,
      false_or] at hcycle
    obtain ⟨-, -, hweights | ⟨ws, -, hkind⟩⟩ := hcycle
    · obtain ⟨⟨source, target⟩, -, hstep⟩ := exists_of_mapM_error hweights
      dsimp only at hstep
      split at hstep <;> cases hstep
    · split at hkind
      · rcases checkNegative_cases ws with ⟨hover, -⟩ | ⟨hok, -⟩ | ⟨_, hnon, -⟩
        · rw [hover] at hkind; cases hkind
        · rw [hok] at hkind; cases hkind
        · rw [hnon] at hkind; cases hkind
      · simp only [checkTightening, refuse_eq_error_iff, bind_eq_error_iff, htotal, hvisit,
          reduceCtorEq, and_false, false_or] at hkind
        obtain ⟨_, -, -, _, -, _, -, half, -, hodd⟩ := hkind
        split at hodd <;> cases hodd
  · split at hreasons <;> cases hreasons

/-- The check reads weights only at places that there are. -/
theorem firstVisit_lt {c : Conflict ρ} {ws : List (Weight w)} {x : Variable} {o : Occurrence}
    {i : Nat} (hws : g.weightsAlong c.cycle = (.ok ws : Except (CheckError w) _))
    (hi : (g.firstVisit x o c.cycle.dropLast : Except (CheckError w) Nat) = .ok i) :
    i < ws.length := by
  have hlen := (mapM_eq_ok_iff.1 hws).length_eq
  obtain ⟨v, -, hv⟩ := exists_of_firstVisit hi
  have hlt := (List.getElem?_eq_some_iff.1 hv).1
  simp only [List.length_zip, List.length_tail, List.length_dropLast] at hlen hlt
  omega

/-! ### Soundness of the check -/

/-- What passes has a cycle that passes, and reasons that equal those along it. -/
theorem check_eq_ok_iff [BEq ρ] {c : Conflict ρ} :
    g.check c = .ok () ↔ g.checkCycle c = .ok () ∧
      (g.reasonsAlong c.cycle == c.reasons) = true := by
  constructor
  · intro hc
    obtain ⟨_, hcycle, hreasons⟩ := bind_eq_ok_iff.1 hc
    refine ⟨hcycle, ?_⟩
    by_contra hne
    rw [if_pos (by rw [bne, eq_false_of_ne_true hne, Bool.not_false])] at hreasons
    cases hreasons
  · rintro ⟨hcycle, hreasons⟩
    rw [check_eq_checkCycle hreasons, hcycle]

/-! ### Graphs with more variables -/

namespace Pads

variable {g' : Graph w ρ} {k : Nat} (h : g.Pads g' k)

include h

theorem firstVisit_mono {x : Variable} {o : Occurrence} {walk : List Vertex} {i : Nat}
    (hi : (g.firstVisit x o walk : Except (CheckError w) Nat) = .ok i) :
    (g'.firstVisit x o walk : Except (CheckError w) Nat) = .ok i := by
  obtain ⟨v, hv, -⟩ := exists_of_firstVisit hi
  simp only [firstVisit, hv, h.vertex?_mono o v hv] at hi ⊢
  exact hi

theorem checkTightening_mono {x : Variable} {cycle : List Vertex} {ws : List (Weight w)}
    (hc : g.checkTightening x cycle ws = .ok ()) : g'.checkTightening x cycle ws = .ok () := by
  obtain ⟨htotal, i, j, half, hi, hj, hhalf⟩ := checkTightening_eq_ok_iff.1 hc
  exact checkTightening_eq_ok_iff.2
    ⟨htotal, i, j, half, h.firstVisit_mono hi, h.firstVisit_mono hj, hhalf⟩

variable (hg : g.Valid) (hg' : g'.Valid)

include hg hg'

theorem weightsAlong_mono {walk : List Vertex} {ws : List (Weight w)}
    (hws : g.weightsAlong walk = (.ok ws : Except (CheckError w) _)) :
    g'.weightsAlong walk = (.ok ws : Except (CheckError w) _) := by
  refine mapM_eq_ok_iff.2 ((mapM_eq_ok_iff.1 hws).imp fun ⟨source, target⟩ k hk => ?_)
  dsimp only at hk ⊢
  cases he : g.edgeBetween source target with
  | none => rw [he] at hk; cases hk
  | some e =>
    obtain ⟨hmem, hends⟩ := hg.edgeBetween_eq_some_iff.1 he
    have hmem' : e ∈ g'.edges.toList := by
      rw [h.edges_eq]
      exact List.mem_append_left _ hmem
    rw [hg'.edgeBetween_eq_some_iff.2 ⟨hmem', hends⟩]
    rwa [he] at hk

/-- What passes about a graph passes about one with more variables. -/
theorem check_mono [BEq ρ] {c : Conflict ρ} (hc : g.check c = .ok ()) : g'.check c = .ok () := by
  rw [check_eq_ok_iff] at hc ⊢
  obtain ⟨hcycle, hreasons⟩ := hc
  refine ⟨?_, ?_⟩
  · simp only [checkCycle, bind_eq_ok_iff, refuse_eq_ok_iff] at hcycle ⊢
    obtain ⟨hclosed, hroot, ws, hws, hkind⟩ := hcycle
    refine ⟨hclosed, hroot, ws, h.weightsAlong_mono hg hg' hws, ?_⟩
    cases hc : c.kind with
    | negativeCycle => rwa [hc] at hkind
    | tightening x =>
      rw [hc] at hkind
      exact h.checkTightening_mono hkind
  · have halong : g'.reasonsAlong c.cycle = g.reasonsAlong c.cycle :=
      congrArg (c.cycle.zip c.cycle.tail).flatMap (funext fun step => h.reasons_eq step.1 step.2)
    rwa [halong]

end Pads

/-! ### What a conflict that passes proves -/

/-- The edges along a conflict that passes have its reasons, and no integers satisfy them all. -/
theorem IsNetwork.exists_edges_of_check [BEq ρ] [LawfulBEq ρ] (h : g.IsNetwork net)
    {c : Conflict ρ} (hc : g.check c = .ok ()) : ∃ es : List (Edge w ρ),
      List.Forall₂ (fun step e => g.edgeBetween step.1 step.2 = some e)
        (c.cycle.zip c.cycle.tail) es ∧
      es.map Edge.reason = c.reasons.map some ∧
      ¬∃ σ : Assignment, ∀ e ∈ es, g.EdgeHolds σ e := by
  obtain ⟨hcycle, hreasons⟩ := check_eq_ok_iff.1 hc
  obtain ⟨v, l, hl, hvis, hcontra⟩ := h.exists_walk_of_checkCycle hcycle
  rw [beq_iff_eq] at hreasons
  refine ⟨l.map Arc.edge, ?_, ?_, ?_⟩
  · rw [← hvis, zip_map_val_visited hl, List.forall₂_map_left_iff, List.forall₂_map_right_iff,
      List.forall₂_same]
    exact fun a ha => h.edgeBetween_of_mem (hl.mem a ha)
  · rw [← hreasons, ← hvis, h.reasonsAlong_eq hl, List.map_map]
    exact (map_some_reasons h.rooted hl).symm
  · rintro ⟨σ, hσ⟩
    exact h.not_forall_edgeHolds hcontra σ fun a ha => hσ _ (List.mem_map_of_mem ha)

/-- The check never leaves the range of weights unnoticed nor reads beyond a cycle; and if a
conflict passes, its reasons are those of the edges along its cycle, and no integers satisfy all of
these edges. -/
theorem no_solution_of_check [BEq ρ] [LawfulBEq ρ] (calls : List (Call w ρ))
    (c : Conflict ρ) :
    (ofCalls calls).check c ≠ .error .unrepresentable ∧
    (∀ ws x o i, (ofCalls calls).weightsAlong c.cycle = (.ok ws : Except (CheckError w) _) →
      (ofCalls calls).firstVisit x o c.cycle.dropLast = (.ok i : Except (CheckError w) Nat) →
        i < ws.length) ∧
    ((ofCalls calls).check c = .ok () → ∃ es : List (Edge w ρ),
      List.Forall₂ (fun step e => (ofCalls calls).edgeBetween step.1 step.2 = some e)
        (c.cycle.zip c.cycle.tail) es ∧
      es.map Edge.reason = c.reasons.map some ∧
      ¬∃ σ : Assignment, ∀ e ∈ es, (ofCalls calls).EdgeHolds σ e) := by
  obtain ⟨net, hnet⟩ := (valid_ofCalls calls).exists_isNetwork
  exact ⟨check_ne_unrepresentable _ c, fun _ _ _ _ hws hi => firstVisit_lt hws hi,
    hnet.exists_edges_of_check⟩

/-- The cycle that pins `2x` to 1, twice round and from another vertex. -/
def oddCycleTwice : Conflict Nat :=
  ⟨.tightening ⟨0⟩, [3, 1, 4, 2, 3, 1, 4, 2, 3], [3, 2, 4, 1, 3, 2, 4, 1]⟩

theorem no_solution_of_oddCycleTwice : (ofCalls oddSquare).check oddCycleTwice = .ok () ∧
    ∃ es : List (Edge .bits8 Nat), es.map Edge.reason = oddCycleTwice.reasons.map some ∧
      ¬∃ σ : Assignment, ∀ e ∈ es, (ofCalls oddSquare).EdgeHolds σ e := by
  have hcheck : (ofCalls oddSquare).check oddCycleTwice = .ok () := by decide +kernel
  obtain ⟨es, -, hreasons, hnone⟩ := (no_solution_of_check oddSquare oddCycleTwice).2.2 hcheck
  exact ⟨hcheck, es, hreasons, hnone⟩

end Graph

end Octagon

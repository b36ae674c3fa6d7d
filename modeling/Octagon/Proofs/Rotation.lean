import Octagon.Proofs.Accepted
import Octagon.Proofs.Outcome

/-!
Tightening cycles may start anywhere. The check reads the way from the first place where a cycle
passes `x+` to the first where it passes `x-`, and a cycle that passes them more often may have
other first places from another start. Yet without negative cycles the distances from the root grow,
along a closed walk that weighs nothing, by the weight of each arc. So all ways along it from `x+`
to `x-` weigh the same, namely what the two distances differ by, whatever the start.
-/

namespace Octagon

/-- The vertices of a closed walk, from those that it leaves: the first one comes again at the
end. -/
def closeUp {α : Type} (steps : List α) : List α := steps ++ steps.head?.toList

/-- The same closed walk from the vertex `k` edges further on. -/
def Conflict.rotate {ρ : Type} (c : Conflict ρ) (k : Nat) : Conflict ρ :=
  ⟨c.kind, closeUp (c.cycle.dropLast.rotate k), c.reasons.rotate k⟩

variable {w : Width} {ρ : Type}

/-! ### Turning closed lists -/

@[simp] theorem dropLast_closeUp {α : Type} (steps : List α) :
    (closeUp steps).dropLast = steps := by
  cases steps with
  | nil => rfl
  | cons x xs => exact List.dropLast_concat

/-- A list that ends as it starts is closed up by its first entry. -/
theorem closeUp_dropLast {α : Type} {xs : List α} (hclosed : xs.head? = xs.getLast?)
    (hne : xs.dropLast ≠ []) : closeUp xs.dropLast = xs := by
  obtain ⟨init, last, rfl⟩ :=
    (List.eq_nil_or_concat' xs).resolve_left (by rintro rfl; exact hne rfl)
  rw [List.dropLast_concat] at hne ⊢
  obtain ⟨x, xs, rfl⟩ := List.exists_cons_of_ne_nil hne
  rw [List.getLast?_concat] at hclosed
  rw [closeUp, List.head?_cons, Option.toList_some, Option.some.inj hclosed]

/-- As many turns as there are edges come back to the start. -/
theorem Conflict.rotate_rotate {c : Conflict ρ} (hclosed : c.cycle.head? = c.cycle.getLast?)
    (hne : c.cycle.dropLast ≠ []) (hlen : c.reasons.length = c.cycle.length - 1) (k : Nat) :
    (c.rotate k).rotate (k * (c.reasons.length - 1)) = c := by
  have hsteps : c.cycle.dropLast.length = c.reasons.length := by rw [List.length_dropLast, hlen]
  have hround : k + k * (c.reasons.length - 1) = c.reasons.length * k := by
    obtain ⟨m, hm⟩ := Nat.exists_eq_succ_of_ne_zero
      (Nat.ne_of_gt (List.length_pos_iff.2 hne))
    rw [← hsteps, hm, Nat.succ_sub_one, Nat.succ_mul, Nat.mul_comm, Nat.add_comm]
  obtain ⟨kind, cycle, reasons⟩ := c
  dsimp only at hclosed hne hsteps hround
  have hcycle : cycle.dropLast.rotate (reasons.length * k) = cycle.dropLast := by
    rw [← hsteps, List.rotate_length_mul]
  simp only [rotate, dropLast_closeUp, List.rotate_rotate, hround, hcycle, List.rotate_length_mul,
    closeUp_dropLast hclosed hne]

/-! ### Turning closed walks -/

section walks

variable {n : Nat} {arcs : List (Arc w ρ n)}

/-- A closed walk can be cut anywhere and put together the other way round. -/
theorem Walk.rotate {v : Fin n} {l : List (Arc w ρ n)} (hl : Walk arcs v v l) (k : Nat) :
    ∃ u, Walk arcs u u (l.rotate k) := by
  rw [List.rotate_eq_drop_append_take_mod]
  rw [← List.take_append_drop (k % l.length) l] at hl
  obtain ⟨u, hbefore, hafter⟩ := walk_append_iff.1 hl
  exact ⟨u, hafter.append hbefore⟩

/-- A closed walk leaves every vertex that it visits. -/
theorem Walk.mem_sources {v x : Fin n} {l : List (Arc w ρ n)} (hl : Walk arcs v v l) (hne : l ≠ [])
    (hx : x ∈ visited v l) : x ∈ l.map Arc.source := by
  obtain ⟨a, m, rfl⟩ := List.exists_cons_of_ne_nil hne
  rw [hl.visited_eq, List.mem_append, List.mem_singleton, ← hl.2.1] at hx
  exact hx.elim id fun hstart => hstart ▸ List.mem_cons_self ..

theorem Walk.closeUp_eq {v : Fin n} {l : List (Arc w ρ n)} (hl : Walk arcs v v l) (hne : l ≠ []) :
    closeUp (l.map fun a => a.source.val) = (visited v l).map Fin.val := by
  obtain ⟨a, m, rfl⟩ := List.exists_cons_of_ne_nil hne
  rw [hl.visited_eq, ← hl.2.1, List.map_append, List.map_map]
  rfl

/-- A turned closed walk visits the turned cycle. -/
theorem Conflict.rotate_visited {u v : Fin n} {l : List (Arc w ρ n)} (hl : Walk arcs v v l)
    (hne : l ≠ []) {k : Nat} (hturned : Walk arcs u u (l.rotate k)) (kind : ConflictKind)
    (rs : List ρ) : (Conflict.mk kind ((visited v l).map Fin.val) rs).rotate k =
      ⟨kind, (visited u (l.rotate k)).map Fin.val, rs.rotate k⟩ := by
  have hne' : l.rotate k ≠ [] := mt List.rotate_eq_nil_iff.1 hne
  rw [rotate, ← hl.closeUp_eq hne, dropLast_closeUp, ← hturned.closeUp_eq hne', List.map_rotate]

end walks

theorem segment_subset {α : Type} (xs : List α) (i j : Nat) : segment xs i j ⊆ xs := by
  intro x hx
  unfold segment at hx
  split at hx
  · exact List.mem_of_mem_take (List.mem_of_mem_drop hx)
  · rcases List.mem_append.1 hx with hx | hx
    · exact List.mem_of_mem_drop hx
    · exact List.mem_of_mem_take hx

namespace Graph

variable {g : Graph w ρ} {net : Network w ρ g.occurrences.size}
  {v : Fin (g.occurrences.size + 1)} {l : List (Arc w ρ (g.occurrences.size + 1))}

/-! ### What the check asks of a closed walk -/

/-- The walk weighs nothing and leaves both vertices of `x`, which `d` puts an odd number apart. No
start is singled out. -/
def PinsOdd (net : Network w ρ g.occurrences.size) (d : Fin (g.occurrences.size + 1) → Int)
    (x : Variable) (l : List (Arc w ρ (g.occurrences.size + 1))) : Prop :=
  exactWeight l = 0 ∧ ∃ s ∈ net.splits, s.var = x ∧ s.positive ∈ l.map Arc.source ∧
    s.negative ∈ l.map Arc.source ∧ (d s.negative - d s.positive) % 2 = 1

theorem pinsOdd_rotate {d : Fin (g.occurrences.size + 1) → Int} {x : Variable} (k : Nat) :
    PinsOdd net d x (l.rotate k) ↔ PinsOdd net d x l := by
  have hweight : exactWeight (l.rotate k) = exactWeight l :=
    ((List.rotate_perm l k).map _).sum_eq
  simp only [PinsOdd, hweight, List.map_rotate, List.mem_rotate]

/-- Where a vertex is left, the check finds its occurrence. -/
theorem exists_firstVisit_eq_ok {x : Variable} {o : Occurrence} {p : Fin (g.occurrences.size + 1)}
    (hl : Walk net.arcs v v l) (ho : g.vertex? o = some p.val) (hp : p ∈ l.map Arc.source) :
    ∃ i, (g.firstVisit x o ((visited v l).map Fin.val).dropLast : Except (CheckError w) Nat) =
      .ok i := by
  have hmem : p.val ∈ ((visited v l).map Fin.val).dropLast := by
    rw [← List.map_dropLast, hl.visited_eq, List.dropLast_concat]
    exact List.mem_map_of_mem hp
  obtain ⟨before, after, heq, hnew⟩ := List.eq_append_cons_of_mem hmem
  rw [heq]
  exact ⟨before.length, firstVisit_eq_ok ho hnew⟩

theorem checkTightening_eq_overflow_of_segment {x : Variable} {cycle : List Vertex}
    {ws : List (Weight w)} {i j : Nat} (htotal : Weight.sum? ws = some 0)
    (hi : (g.firstVisit x x.positive cycle.dropLast : Except (CheckError w) Nat) = .ok i)
    (hj : (g.firstVisit x x.negative cycle.dropLast : Except (CheckError w) Nat) = .ok j)
    (hhalf : Weight.sum? (segment ws i j) = none) :
    g.checkTightening x cycle ws = .error .weightOverflow := by
  simp [checkTightening, checkedTotal, htotal, hi, hj, hhalf, bind, Except.bind]

/-- Unless a sum leaves the range, a tightening cycle passes exactly if it pins twice the variable
to an odd number. -/
theorem IsNetwork.checkTightening_iff (h : g.IsNetwork net)
    {d : Fin (g.occurrences.size + 1) → Int}
    (hd : ∀ a ∈ net.arcs, d a.target ≤ d a.source + a.weight.val) (hl : Walk net.arcs v v l)
    (hne : l ≠ []) {x : Variable} (hover : g.checkTightening x ((visited v l).map Fin.val)
      (l.map Arc.weight) ≠ .error .weightOverflow) :
    g.checkTightening x ((visited v l).map Fin.val) (l.map Arc.weight) = .ok () ↔
      PinsOdd net d x l := by
  constructor
  · intro hc
    obtain ⟨s, hs, rfl, i, j, hcircuit⟩ := h.exists_oddCircuit_of_checkTightening hl hc
    have hway := hl.weight_eq hd hcircuit.weight_eq
      (hl.segment hcircuit.positive hcircuit.negative) (segment_subset l i j)
    exact ⟨hcircuit.weight_eq, s, hs, rfl,
      hl.mem_sources hne (List.mem_of_getElem? hcircuit.positive),
      hl.mem_sources hne (List.mem_of_getElem? hcircuit.negative), hway ▸ hcircuit.odd⟩
  · rintro ⟨hzero, s, hs, rfl, hp, hq, hodd⟩
    obtain ⟨hpos, hneg⟩ := h.vertex?_split hs
    obtain ⟨i, hi⟩ := exists_firstVisit_eq_ok (x := s.var) hl hpos hp
    obtain ⟨j, hj⟩ := exists_firstVisit_eq_ok (x := s.var) hl hneg hq
    obtain ⟨total, htotal⟩ := Option.ne_none_iff_exists'.1 fun hnone =>
      hover (checkTightening_eq_overflow hnone)
    obtain rfl : total = 0 := by
      refine Weight.ext ?_
      rw [(Weight.sum?_eq_some_iff.1 htotal).1, ← exactWeight_eq_exactSum, hzero]
      rfl
    obtain ⟨half, hhalf⟩ := Option.ne_none_iff_exists'.1 fun hnone =>
      hover (checkTightening_eq_overflow_of_segment htotal hi hj hnone)
    have hway := hl.weight_eq hd hzero (hl.segment (getElem?_visited_of_firstVisit hi hpos)
      (getElem?_visited_of_firstVisit hj hneg)) (segment_subset l i j)
    have hval : half.val = d s.negative - d s.positive := by
      rw [← hway, exactWeight_eq_exactSum, ← map_segment]
      exact (Weight.sum?_eq_some_iff.1 hhalf).1
    have hisOdd : half.isOdd = true := by rw [Weight.isOdd, hval, hodd]; rfl
    exact checkTightening_eq_ok_iff.2 ⟨htotal, i, j, half, hi, hj, hhalf, hisOdd⟩

/-- The reasons along a turned closed walk are turned likewise. -/
theorem reasons_rotate (hrooted : net.Rooted) (hl : Walk net.arcs v v l) (k : Nat) :
    ((l.rotate k).flatMap fun a => a.reason.toList) =
      (l.flatMap fun a => a.reason.toList).rotate k := by
  obtain ⟨u, hturned⟩ := hl.rotate k
  refine List.map_injective_iff.2 (Option.some_injective ρ) ?_
  rw [map_some_reasons hrooted hturned, List.map_rotate, List.map_rotate,
    map_some_reasons hrooted hl]

/-- Equal reasons are equal when turned alike, whatever their equality is. -/
theorem rotate_beq_rotate {α : Type} [BEq α] {xs ys : List α} (h : (xs == ys) = true) (k : Nat) :
    (xs.rotate k == ys.rotate k) = true := by
  have hlen := List.length_eq_of_beq h
  rw [List.beq_eq_decide, dif_pos hlen, decide_eq_true_eq] at h
  rw [List.beq_eq_decide, dif_pos (by rw [List.length_rotate, List.length_rotate, hlen]),
    decide_eq_true_eq]
  intro i hi
  simp only [List.getElem_rotate, ← hlen]
  exact h _ (Nat.mod_lt _ (by rw [List.length_rotate] at hi; omega))

/-- What passes has an edge. -/
theorem dropLast_ne_nil_of_checkCycle {c : Conflict ρ} (hc : g.checkCycle c = .ok ()) :
    c.cycle.dropLast ≠ [] := by
  simp only [checkCycle, bind_eq_ok_iff, refuse_eq_ok_iff, not_or, not_lt] at hc
  obtain ⟨⟨hlen, -⟩, -⟩ := hc
  rw [← List.length_pos_iff, List.length_dropLast]
  omega

section check

variable [BEq ρ]

/-- Unless a sum leaves the range, a closed walk passes exactly if it pins twice the variable to an
odd number and the reasons are its own. -/
theorem IsNetwork.check_visited_iff (h : g.IsNetwork net) {d : Fin (g.occurrences.size + 1) → Int}
    (hd : ∀ a ∈ net.arcs, d a.target ≤ d a.source + a.weight.val) (hl : Walk net.arcs v v l)
    (hne : l ≠ []) {x : Variable} {rs : List ρ}
    (hover : g.check ⟨.tightening x, (visited v l).map Fin.val, rs⟩ ≠ .error .weightOverflow) :
    g.check ⟨.tightening x, (visited v l).map Fin.val, rs⟩ = .ok () ↔
      PinsOdd net d x l ∧ ((l.flatMap fun a => a.reason.toList) == rs) = true := by
  have hcycle : g.checkCycle ⟨.tightening x, (visited v l).map Fin.val, rs⟩ =
      g.checkTightening x ((visited v l).map Fin.val) (l.map Arc.weight) :=
    h.checkCycle_ofWalk hl hne (.tightening x)
  have hover' : g.checkTightening x ((visited v l).map Fin.val) (l.map Arc.weight) ≠
      .error .weightOverflow := by
    intro hc
    exact hover (bind_eq_error_iff.2 (.inl (hcycle.trans hc)))
  rw [check_eq_ok_iff, hcycle, h.checkTightening_iff hd hl hne hover', h.reasonsAlong_eq hl]

/-- A tightening conflict that passes does so from every other start. -/
theorem IsNetwork.check_rotate (h : g.IsNetwork net) (hnn : NoNegativeCycle net.arcs)
    {c : Conflict ρ} {x : Variable} (hkind : c.kind = .tightening x) (k : Nat)
    (hover : g.check (c.rotate k) ≠ .error .weightOverflow) (hc : g.check c = .ok ()) :
    g.check (c.rotate k) = .ok () := by
  obtain ⟨d, hd⟩ := h.rooted.exists_potential hnn
  obtain ⟨v, l, hl, hvis, -⟩ := h.exists_closed_of_checkCycle (check_eq_ok_iff.1 hc).1
  have hne : l ≠ [] := by
    rintro rfl
    exact dropLast_ne_nil_of_checkCycle (check_eq_ok_iff.1 hc).1 (by rw [← hvis]; rfl)
  obtain ⟨u, hturned⟩ := hl.rotate k
  have hne' : l.rotate k ≠ [] := mt List.rotate_eq_nil_iff.1 hne
  obtain ⟨kind, cycle, rs⟩ := c
  dsimp only at hkind hvis
  subst hkind hvis
  rw [Conflict.rotate_visited hl hne hturned] at hover ⊢
  obtain ⟨hodd, hreasons⟩ := (h.check_visited_iff hd hl hne (by rw [hc]; nofun)).1 hc
  refine (h.check_visited_iff hd hturned hne' hover).2 ⟨(pinsOdd_rotate k).2 hodd, ?_⟩
  rw [reasons_rotate h.rooted hl]
  exact rotate_beq_rotate hreasons k

/-- Without negative cycles a tightening conflict that is closed and has as many reasons as edges
passes from one start exactly if it does from any other, as long as no sum leaves the range. -/
theorem check_iff_check_rotate (calls : List (Call w ρ))
    (net : Network w ρ (ofCalls calls).occurrences.size)
    (hnet : (ofCalls calls).network = .ok net) (hnn : NoNegativeCycle net.arcs) (c : Conflict ρ)
    (x : Variable) (hkind : c.kind = .tightening x) (hclosed : c.cycle.head? = c.cycle.getLast?)
    (hlen : c.reasons.length = c.cycle.length - 1) (k : Nat)
    (hover : (ofCalls calls).check c ≠ .error .weightOverflow)
    (hover' : (ofCalls calls).check (c.rotate k) ≠ .error .weightOverflow) :
    (ofCalls calls).check c = .ok () ↔ (ofCalls calls).check (c.rotate k) = .ok () := by
  obtain ⟨net', h⟩ := (valid_ofCalls calls).exists_isNetwork
  obtain rfl : net' = net := Except.ok.inj (h.network_eq.symm.trans hnet)
  constructor
  · exact h.check_rotate hnn hkind k hover'
  · intro hc
    -- turn it on until it is back at its start
    have hne : c.cycle.dropLast ≠ [] := by
      have hturned := dropLast_ne_nil_of_checkCycle (check_eq_ok_iff.1 hc).1
      rw [Conflict.rotate, dropLast_closeUp] at hturned
      exact fun hnil => hturned (by rw [hnil, List.rotate_nil])
    have hback := Conflict.rotate_rotate hclosed hne hlen k
    have hcheck := h.check_rotate hnn (c := c.rotate k) hkind _ (by rwa [hback]) hc
    rwa [hback] at hcheck

end check

/-- Turned by two edges, `oddCycleTwice` passes `x-` before `x+`, and the way from the one to the
other goes around its end. -/
theorem check_oddCycleTwice_rotate : (ofCalls oddSquare).check oddCycleTwice = .ok () ∧
    (ofCalls oddSquare).check ⟨.tightening ⟨0⟩, [4, 2, 3, 1, 4, 2, 3, 1, 4],
      [4, 1, 3, 2, 4, 1, 3, 2]⟩ = .ok () := by
  have hsolve : ((ofCalls oddSquare).solve {}).answer = .ok (.unsatisfiable oddCycle) := by
    decide +kernel
  have hcheck : (ofCalls oddSquare).check oddCycleTwice = .ok () := by decide +kernel
  obtain ⟨net, h⟩ := (valid_ofCalls oddSquare).exists_isNetwork
  have hhides : Overflow.checked.NeverHides .earlyExit (ofCalls oddSquare).numEdges := nofun
  have hnn : NoNegativeCycle net.arcs := by
    obtain ⟨paths, -, hset, -⟩ := h.exists_paths hhides hsolve (by rintro _ ⟨⟩; nofun)
    exact .of_potential hset
  refine ⟨hcheck, ?_⟩
  exact (check_iff_check_rotate oddSquare net h.network_eq hnn oddCycleTwice ⟨0⟩ rfl rfl rfl 2
    (by rw [hcheck]; nofun) (by decide +kernel)).1 hcheck

end Graph

end Octagon

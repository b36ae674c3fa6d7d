import Mathlib
import Octagon.Links

/-!
Paths along links. A path that goes back to a given vertex, or to one without a link, repeats no
vertex before it gets there: from a repeated vertex on it would go around for ever. So what links
lead back to at all they lead back to in as many steps as there are vertices, and links that go on
for longer run into a cycle.
-/

namespace Octagon.Links

variable {n : Nat} {links : Links n}

/-- Each vertex is the one that the next was reached from. -/
def Linked (links : Links n) (vs : List (Fin n)) : Prop :=
  vs.IsChain fun p q => links q = some p

theorem Linked.left {l m : List (Fin n)} (h : links.Linked (l ++ m)) : links.Linked l :=
  (List.isChain_append.1 h).1

/-- A linked list goes on with any vertex that links to its last one. -/
theorem Linked.concat {l : List (Fin n)} {u v : Fin n} (h : links.Linked l)
    (hu : l.getLast? = some u) (hv : links v = some u) : links.Linked (l ++ [v]) := by
  refine List.isChain_append.2 ⟨h, List.isChain_singleton v, ?_⟩
  intro x hx y hy
  obtain rfl : u = x := Option.some.inj (hu.symm.trans hx)
  obtain rfl : v = y := by simpa using hy
  exact hv

/-- What precedes a vertex in a linked list is its link, so a vertex that links to the last one is
new, unless the list starts with it. -/
theorem Linked.not_mem {l : List (Fin n)} {u v : Fin n} (h : links.Linked l) (hn : l.Nodup)
    (hu : l.getLast? = some u) (hv : links v = some u) (hhead : l.head? ≠ some v) : v ∉ l := by
  intro hmem
  obtain ⟨p, q, rfl⟩ := List.append_of_mem hmem
  rcases List.eq_nil_or_concat p with rfl | ⟨p, x, rfl⟩
  · simp at hhead
  rw [List.concat_eq_append] at h hn hu
  have hx : links v = some x := (List.isChain_append.1 h).2.2 x (by simp) v (by simp)
  obtain rfl : u = x := Option.some.inj (hv.symm.trans hx)
  -- the last vertex is `u`, and `u` already stands before `v`
  have hlast : u ∈ v :: q := List.mem_of_getLast? (by rw [← hu, List.getLast?_append_cons])
  exact (List.disjoint_of_nodup_append hn) (by simp) hlast

/-- A linked list without repetitions stays one when a vertex that links to its last one is put
after it, unless that is the vertex it starts with. -/
theorem Linked.nodup_concat {l : List (Fin n)} {u v : Fin n} (h : links.Linked l) (hn : l.Nodup)
    (hu : l.getLast? = some u) (hv : links v = some u) (hhead : l.head? ≠ some v) :
    (l ++ [v]).Nodup := by
  rw [← List.concat_eq_append]
  exact hn.concat (h.not_mem hn hu hv hhead)

/-- What a linked list goes on with links to its last vertex. -/
theorem Linked.exists_getLast {l : List (Fin n)} {v : Fin n} (h : links.Linked (l ++ [v]))
    (hne : l ≠ []) : ∃ u, l.getLast? = some u ∧ links v = some u :=
  ⟨l.getLast hne, List.getLast?_eq_some_getLast hne,
    (List.isChain_append.1 h).2.2 _ (List.getLast?_eq_some_getLast hne) v (by simp)⟩

/-! ### Traced paths -/

theorem traceFrom_eq_ok {first last : Fin n} :
    ∀ {steps : Nat} {v : Fin n} {path out : List (Fin n)},
    links.traceFrom first last steps v path = .ok out →
      ∃ l, out = l ++ path ∧ links.Linked (l ++ [v]) ∧ l.Nodup ∧ l.head? = some first
  | 0, _, _, _, h => by simp [traceFrom] at h
  | steps + 1, v, path, out, h => by
      unfold traceFrom at h
      split at h
      · cases h
      rename_i u hu
      split at h
      · rename_i heq
        cases h
        exact ⟨[u], rfl, Linked.concat (List.isChain_singleton u) rfl hu, by simp, by simp [heq]⟩
      · rename_i hne
        obtain ⟨l, rfl, hl, hn, hhead⟩ := traceFrom_eq_ok h
        have hl0 : l ≠ [] := by rintro rfl; simp at hhead
        obtain ⟨x, hx, hux⟩ := hl.exists_getLast hl0
        refine ⟨l ++ [u], by simp, hl.concat (by simp) hu, ?_, by simp [hhead]⟩
        refine hl.left.nodup_concat hn hx hux ?_
        rw [hhead]
        exact fun e => hne (Option.some.inj e).symm

/-- A traced path is linked, starts with `first`, ends with `last` and repeats no vertex before it
ends. -/
theorem trace_eq_ok {first last : Fin n} {path : List (Fin n)}
    (h : links.trace first last = .ok path) :
    ∃ l, path = l ++ [last] ∧ links.Linked path ∧ l.Nodup ∧ l.head? = some first := by
  obtain ⟨l, rfl, hl, hn, hhead⟩ := traceFrom_eq_ok h
  exact ⟨l, rfl, hl, hn, hhead⟩

/-- Between different ends a traced path repeats no vertex at all. -/
theorem nodup_of_trace {first last : Fin n} {path : List (Fin n)}
    (h : links.trace first last = .ok path) (hne : first ≠ last) : path.Nodup := by
  obtain ⟨l, rfl, hl, hn, hhead⟩ := trace_eq_ok h
  have hl0 : l ≠ [] := by rintro rfl; simp at hhead
  obtain ⟨x, hx, hvx⟩ := hl.exists_getLast hl0
  refine hl.left.nodup_concat hn hx hvx ?_
  rw [hhead]
  exact fun e => hne (Option.some.inj e)

/-- A cycle found along links is traced from a vertex back to itself. -/
theorem trace_of_cycle {last : Fin n} {path : List (Fin n)} (h : links.cycle last = .ok path) :
    ∃ v, links.trace v v = .ok path := by
  unfold cycle at h
  cases hv : links.firstRepeat last with
  | error e => rw [hv] at h; cases h
  | ok v => rw [hv] at h; exact ⟨v, h⟩

/-! ### Walks back -/

/-- Where going back from `v` ends, a list without repetitions leads from a vertex without a link to
`v`. -/
theorem exists_linked_of_back_eq_none : ∀ {k : Nat} {v : Fin n}, links.back k v = none →
    ∃ r l, links r = none ∧ links.Linked l ∧ l.Nodup ∧ l.head? = some r ∧ l.getLast? = some v
  | 0, _, h => by simp [back] at h
  | k + 1, v, h => by
      cases hv : links v with
      | none => exact ⟨v, [v], hv, List.isChain_singleton v, by simp, rfl, rfl⟩
      | some u =>
        rw [back, hv, Option.bind_some] at h
        obtain ⟨r, l, hr, hl, hn, hhead, hlast⟩ := exists_linked_of_back_eq_none h
        refine ⟨r, l ++ [v], hr, hl.concat hlast hv, ?_, by simp [hhead], by simp⟩
        refine hl.nodup_concat hn hlast hv ?_
        rintro e
        rw [hhead, Option.some.injEq] at e
        rw [e, hv] at hr
        cases hr

/-! ### Walks that close -/

/-- To go back `j + k` links is to go back `j` and then `k`. -/
theorem back_add (j k : Nat) (v : Fin n) :
    links.back (j + k) v = (links.back j v).bind (links.back k) := by
  induction j generalizing v with
  | zero => simp [back]
  | succ j ih =>
    rw [Nat.succ_add, back, back, Option.bind_assoc]
    exact Option.bind_congr fun u _ => ih u

/-- Further links leave a way back as it is. -/
theorem back_mono {links' : Links n} (h : ∀ u v, links v = some u → links' v = some u) :
    ∀ {k : Nat} {v y : Fin n}, links.back k v = some y → links'.back k v = some y
  | 0, _, _, hv => hv
  | k + 1, v, y, hv => by
      obtain ⟨u, hu, hk⟩ := Option.bind_eq_some_iff.1 hv
      rw [back, h u v hu, Option.bind_some]
      exact back_mono h hk

/-- A way back can be stopped at any link. -/
theorem isSome_back_of_le {v : Fin n} {j k : Nat} (hjk : j ≤ k)
    (h : (links.back k v).isSome = true) : (links.back j v).isSome = true := by
  obtain ⟨m, rfl⟩ := Nat.exists_eq_add_of_le hjk
  rw [back_add] at h
  exact Option.isSome_of_isSome_bind h

/-- Two different numbers of links, neither above the number of vertices, lead to one vertex. -/
theorem exists_back_eq {v : Fin n} (h : links.leadsIntoCycle v = true) :
    ∃ i j, i < j ∧ j ≤ n ∧ links.back i v = links.back j v := by
  have hsome : ∀ i : Fin (n + 1), ∃ u, links.back i v = some u := fun i =>
    Option.isSome_iff_exists.1 (isSome_back_of_le (Nat.le_of_lt_succ i.isLt) h)
  choose f hf using hsome
  obtain ⟨i, j, hne, heq⟩ := Fintype.exists_ne_map_eq_of_card_lt f (by simp)
  have hback : links.back i v = links.back j v := by rw [hf i, hf j, heq]
  rcases lt_or_gt_of_ne hne with hlt | hlt
  · exact ⟨i, j, hlt, Nat.le_of_lt_succ j.isLt, hback⟩
  · exact ⟨j, i, hlt, Nat.le_of_lt_succ i.isLt, hback.symm⟩

/-- Where two numbers of links lead back to one vertex, the smaller can stand for the larger. -/
theorem back_cut {v : Fin n} {i j k : Nat} (h : links.back i v = links.back j v) (hjk : j ≤ k) :
    links.back (i + (k - j)) v = links.back k v := by
  rw [back_add, h, ← back_add, Nat.add_sub_cancel' hjk]

/-- A vertex met on the way back is met within as many links as there are vertices. -/
theorem exists_back_lt {v y : Fin n} {k : Nat} (h : links.back (k + 1) v = some y) :
    ∃ j < n, links.back (j + 1) v = some y := by
  induction k using Nat.strong_induction_on with
  | _ k ih =>
    by_cases hk : k < n
    · exact ⟨k, hk, h⟩
    obtain ⟨u, hu, hback⟩ := Option.bind_eq_some_iff.1 h
    -- among the vertices from `u` on one comes twice, and the way between can be left out
    obtain ⟨i, j, hij, hj, heq⟩ := exists_back_eq (v := u)
      (isSome_back_of_le (not_lt.1 hk) (Option.isSome_iff_exists.2 ⟨y, hback⟩))
    have hcut : links.back (i + (k - j)) u = some y := (back_cut heq (by omega)).trans hback
    refine ih (i + (k - j)) (by omega) ?_
    rw [back, hu, Option.bind_some, hcut]

/-- Links that run into a cycle never end. -/
theorem isSome_back {v : Fin n} (h : links.leadsIntoCycle v = true) (k : Nat) :
    (links.back k v).isSome = true := by
  induction k using Nat.strong_induction_on with
  | _ k ih =>
    by_cases hk : k ≤ n
    · exact isSome_back_of_le hk h
    · obtain ⟨i, j, hij, hj, heq⟩ := exists_back_eq h
      rw [← back_cut heq (by omega)]
      exact ih _ (by omega)

/-- A walk back that meets the vertex looked for in time gives a path. -/
theorem exists_traceFrom_eq_ok {first last : Fin n} : ∀ {steps k : Nat} {v : Fin n}
    {path : List (Fin n)}, links.back (k + 1) v = some first → k < steps →
      ∃ out, links.traceFrom first last steps v path = .ok out
  | steps + 1, k, v, path, h, hk => by
      obtain ⟨u, hu, hback⟩ := Option.bind_eq_some_iff.1 h
      simp only [traceFrom, hu]
      split
      · exact ⟨_, rfl⟩
      · rename_i hne
        cases k with
        | zero => exact absurd (Option.some.inj hback) hne
        | succ k => exact exists_traceFrom_eq_ok hback (Nat.lt_of_succ_lt_succ hk)

/-- There is a path between two vertices if links lead back from the one to the other. -/
theorem exists_trace_eq_ok {first last : Fin n} {k : Nat}
    (h : links.back (k + 1) last = some first) : ∃ path, links.trace first last = .ok path := by
  obtain ⟨j, hj, hback⟩ := exists_back_lt h
  exact exists_traceFrom_eq_ok hback hj

/-! ### Repeated vertices -/

/-- The way back from `last` comes to `v` for the second time, and to no other vertex twice
before. -/
def FirstRepeat (links : Links n) (last v : Fin n) : Prop :=
  ∃ vs, links.Linked (v :: vs) ∧ vs.getLast? = some last ∧ vs.Nodup ∧ v ∈ vs

/-- A linked list is a way back from its last vertex to its first one. -/
theorem Linked.back_eq {u : Fin n} {l : List (Fin n)} {v : Fin n} (h : links.Linked (u :: l))
    (hlast : (u :: l).getLast? = some v) : links.back l.length v = some u := by
  induction l using List.reverseRecOn generalizing v with
  | nil => exact hlast.symm
  | append_singleton l x ih =>
    rw [← List.cons_append] at h hlast
    obtain rfl : x = v := by rwa [List.getLast?_concat, Option.some.injEq] at hlast
    obtain ⟨y, hy, hlink⟩ := h.exists_getLast (List.cons_ne_nil u l)
    rw [List.length_append, List.length_singleton, back, hlink, Option.bind_some]
    exact ih h.left hy

/-- Links lead back to a vertex that comes twice, and from there to itself. -/
theorem FirstRepeat.exists_back {last v : Fin n} (h : links.FirstRepeat last v) :
    ∃ j k, links.back j last = some v ∧ links.back (k + 1) v = some v := by
  obtain ⟨vs, hl, hlast, -, hv⟩ := h
  obtain ⟨p, q, rfl⟩ := List.append_of_mem hv
  have hcycle : links.Linked (v :: (p ++ [v])) := by
    rw [List.append_cons, ← List.cons_append] at hl
    exact hl.left
  have htail : links.Linked (v :: q) := (List.isChain_append.1 hl.tail).2.1
  rw [List.getLast?_append_cons] at hlast
  refine ⟨q.length, p.length, htail.back_eq hlast, ?_⟩
  have hback := hcycle.back_eq (v := v) (by rw [← List.cons_append, List.getLast?_concat])
  rwa [List.length_append, List.length_singleton] at hback

/-- From a vertex that links lead back to itself the way never ends. -/
theorem leadsIntoCycle_of_back_self {v : Fin n} {k : Nat} (h : links.back (k + 1) v = some v) :
    links.leadsIntoCycle v = true := by
  have hround : ∀ m, links.back (m * (k + 1)) v = some v := by
    intro m
    induction m with
    | zero => rw [Nat.zero_mul, back]
    | succ m ih => rw [Nat.succ_mul, back_add, ih, Option.bind_some, h]
  exact isSome_back_of_le (Nat.le_mul_of_pos_right n k.succ_pos) (by rw [hround, Option.isSome_some])

theorem FirstRepeat.leadsIntoCycle {last v : Fin n} (h : links.FirstRepeat last v) :
    links.leadsIntoCycle last = true := by
  obtain ⟨j, k, hj, hk⟩ := h.exists_back
  have hback := leadsIntoCycle_of_back_self hk
  refine isSome_back_of_le (Nat.le_add_left n j) ?_
  rwa [back_add, hj, Option.bind_some]

/-- As many different vertices as there are leave out none. -/
theorem mem_of_le_length {seen : List (Fin n)} (hn : seen.Nodup) (hlen : n ≤ seen.length)
    (v : Fin n) : v ∈ seen := by
  by_contra hv
  have := (List.nodup_cons.2 ⟨hv, hn⟩).length_le_card
  simp only [List.length_cons, Fintype.card_fin] at this
  omega

/-- A walk back comes to the first vertex that repeats, or to one without a link. What was seen
leads on to `v`, and there are no more vertices than those seen and the steps left. -/
theorem repeatFrom_cases {last : Fin n} : ∀ {steps : Nat} {seen : List (Fin n)} {v : Fin n},
    links.Linked (v :: seen) → (v :: seen).getLast? = some last → seen.Nodup →
    n ≤ seen.length + steps →
      (∃ u, links.repeatFrom last steps seen v = .ok u ∧ links.FirstRepeat last u) ∨
      ∃ (stop : Fin n) (k : Nat), links.repeatFrom last steps seen v = .error (.acyclic last stop) ∧
        links.back k last = some stop ∧ links stop = none
  | steps, seen, v, hl, hlast, hn, hlen => by
      by_cases hv : v ∈ seen
      · -- the vertex is in the list, so the list has the same last vertex without it at its head
        have hrepeat : links.FirstRepeat last v := by
          refine ⟨seen, hl, ?_, hn, hv⟩
          rwa [List.getLast?_cons_of_ne_nil (List.ne_nil_of_mem hv)] at hlast
        cases steps with
        | zero => exact .inl ⟨v, rfl, hrepeat⟩
        | succ steps => exact .inl ⟨v, by rw [repeatFrom, if_pos hv], hrepeat⟩
      cases steps with
      | zero => exact absurd (mem_of_le_length hn hlen v) hv
      | succ steps =>
        cases hu : links v with
        | none =>
          refine .inr ⟨v, seen.length, ?_, hl.back_eq hlast, hu⟩
          simp only [repeatFrom, if_neg hv, hu]
        | some u =>
          simp only [repeatFrom, if_neg hv, hu]
          refine repeatFrom_cases (List.isChain_cons_cons.2 ⟨hu, hl⟩) ?_
            (List.nodup_cons.2 ⟨hv, hn⟩) ?_
          · rwa [List.getLast?_cons_cons]
          · rw [List.length_cons]
            omega

/-- To look for a repeated vertex is to find the first one, or to come to where the way back
ends. -/
theorem firstRepeat_cases (links : Links n) (last : Fin n) :
    (∃ u, links.firstRepeat last = .ok u ∧ links.FirstRepeat last u) ∨
      ∃ (stop : Fin n) (k : Nat), links.firstRepeat last = .error (.acyclic last stop) ∧
        links.back k last = some stop ∧ links stop = none :=
  repeatFrom_cases (List.isChain_singleton last) rfl List.nodup_nil (by simp)

/-- A cycle is found wherever links run into one. -/
theorem exists_cycle_eq_ok {last : Fin n} (h : links.leadsIntoCycle last = true) :
    ∃ path, links.cycle last = .ok path := by
  rcases links.firstRepeat_cases last with ⟨u, hu, hrepeat⟩ | ⟨stop, k, -, hback, hstop⟩
  · obtain ⟨_, k, -, hk⟩ := hrepeat.exists_back
    obtain ⟨path, hpath⟩ := exists_trace_eq_ok hk
    exact ⟨path, by rw [cycle, hu]; exact hpath⟩
  · have hnext := isSome_back h (k + 1)
    rw [back_add, hback, Option.bind_some, back, hstop] at hnext
    cases hnext

end Octagon.Links

import Mathlib
import Octagon.Digraph.Component

/-!
Components are what they claim to be: two vertices have one label exactly if successors lead from
each to the other, no arc leads to a higher label, and the labels are those below the count. A visit
leaves a vertex active only if it found a way from it to a lower active one; so what is still active
above a vertex that met nothing lower reaches that vertex, and the vertex reaches it.
-/

namespace Octagon

variable {n : Nat} {g : Digraph n}

/-- Successors lead from `u` to `v`. -/
def Digraph.Reaches (g : Digraph n) : Fin n → Fin n → Prop :=
  Relation.ReflTransGen fun u v => v ∈ g.next u

namespace DepthFirst

/-- What holds between any two steps of the search. -/
structure Valid (g : Digraph n) (s : DepthFirst n) : Prop where
  mem_active_iff : ∀ v, v ∈ s.active ↔ ∃ k, s.marks v = .active k
  number_lt : ∀ v k, s.marks v = .active k → k < s.reached
  decreasing : s.active.Pairwise fun u v =>
    ∀ k l, s.marks u = .active k → s.marks v = .active l → l < k
  label_lt : ∀ v k, s.marks v = .closed k → k < s.closed
  exists_label : ∀ k < s.closed, ∃ v, s.marks v = .closed k
  next_closed : ∀ u v k, s.marks u = .closed k → v ∈ g.next u → ∃ l ≤ k, s.marks v = .closed l
  reaches : ∀ u v k, s.marks u = .closed k → s.marks v = .closed k → g.Reaches u v

/-- The search is done with `v`, or `v` is active and has at least the number `low`. -/
def Met (s : DepthFirst n) (low : Nat) (v : Fin n) : Prop :=
  (∃ label, s.marks v = .closed label) ∨ ∃ k, low ≤ k ∧ s.marks v = .active k

/-- What is known of `u` if it became active, as number `k`, on the way from `v`. -/
structure Opened (g : Digraph n) (v : Fin n) (s : DepthFirst n) (low : Nat) (u : Fin n) (k : Nat) :
    Prop where
  reached : g.Reaches v u
  next_met : ∀ x ∈ g.next u, s.Met low x
  exists_lower : ∃ x l, s.marks x = .active l ∧ low ≤ l ∧ l < k ∧ g.Reaches u x

/-- How the search goes on from `s` to `t` when it follows successors of `v`, and none with a number
below `low`. -/
structure Advances (g : Digraph n) (v : Fin n) (s : DepthFirst n) (low : Nat) (t : DepthFirst n) :
    Prop where
  valid : t.Valid g
  kept : ∀ u, s.marks u ≠ .fresh → t.marks u = s.marks u
  reached_le : s.reached ≤ t.reached
  active_eq : ∃ new, t.active = new ++ s.active
  number_le : ∀ u k, s.marks u = .fresh → t.marks u = .active k → s.reached ≤ k
  opened : ∀ u k, s.marks u = .fresh → t.marks u = .active k → Opened g v t low u k

/-- What a visit to `v` comes to. -/
structure Visited (g : Digraph n) (v : Fin n) (s : DepthFirst n) (low : Nat) (t : DepthFirst n) :
    Prop where
  advances : Advances g v s low t
  met : t.Met low v
  closed_or_lower : low = s.reached ∧ t.active = s.active ∨
    low < s.reached ∧ ∃ x, t.marks x = .active low ∧ g.Reaches v x

/-- What holds while the successors of `v` are looked at, after those in `seen`. -/
structure Scanned (g : Digraph n) (v : Fin n) (s : DepthFirst n) (seen : List (Fin n)) (low : Nat)
    (t : DepthFirst n) : Prop where
  advances : Advances g v (s.enter v) low t
  low_le : low ≤ s.reached
  met : ∀ u ∈ seen, t.Met low u
  exists_low : ∃ x, t.marks x = .active low ∧ g.Reaches v x

variable {s t t' : DepthFirst n} {u v : Fin n} {low low' : Nat}

/-! ### Steps of the search -/

theorem Met.mono (h : s.Met low v) (hle : low' ≤ low) : s.Met low' v :=
  h.imp_right fun ⟨k, hk, hv⟩ => ⟨k, hle.trans hk, hv⟩

/-- What was met stays met. -/
theorem Met.kept (h : s.Met low v) (hkept : ∀ u, s.marks u ≠ .fresh → t.marks u = s.marks u) :
    t.Met low v := by
  rcases h with ⟨label, hv⟩ | ⟨k, hk, hv⟩
  · exact .inl ⟨label, by rw [hkept v (by simp [hv]), hv]⟩
  · exact .inr ⟨k, hk, by rw [hkept v (by simp [hv]), hv]⟩

theorem Opened.mono {k : Nat} (h : Opened g v s low u k) (hle : low' ≤ low) :
    Opened g v s low' u k := by
  obtain ⟨x, l, hx, hl, hlt, hreach⟩ := h.exists_lower
  exact ⟨h.reached, fun y hy => (h.next_met y hy).mono hle, x, l, hx, hle.trans hl, hlt, hreach⟩

theorem Opened.kept {k : Nat} (h : Opened g v s low u k)
    (hkept : ∀ u, s.marks u ≠ .fresh → t.marks u = s.marks u) : Opened g v t low u k := by
  obtain ⟨x, l, hx, hl, hlt, hreach⟩ := h.exists_lower
  exact ⟨h.reached, fun y hy => (h.next_met y hy).kept hkept, x, l,
    by rw [hkept x (by simp [hx]), hx], hl, hlt, hreach⟩

theorem Advances.refl (h : s.Valid g) : Advances g v s low s := by
  refine ⟨h, fun _ _ => rfl, le_rfl, ⟨[], rfl⟩, ?_, ?_⟩ <;>
  · intro u k hfresh hactive
    rw [hfresh] at hactive
    cases hactive

theorem Advances.mono (h : Advances g v s low t) (hle : low' ≤ low) : Advances g v s low' t :=
  { h with opened := fun u k hfresh hactive => (h.opened u k hfresh hactive).mono hle }

/-- To follow a successor after others is to go on from where these led. -/
theorem Advances.trans (h : Advances g v s low t) (hu : u ∈ g.next v)
    (h' : Advances g u t low' t') : Advances g v s (min low low') t' := by
  have hkept : ∀ x, s.marks x ≠ .fresh → t'.marks x = s.marks x := by
    intro x hx
    have heq := h.kept x hx
    rw [h'.kept x (heq ▸ hx), heq]
  refine ⟨h'.valid, hkept, h.reached_le.trans h'.reached_le, ?_, ?_, ?_⟩
  · obtain ⟨new, hnew⟩ := h.active_eq
    obtain ⟨new', hnew'⟩ := h'.active_eq
    exact ⟨new' ++ new, by rw [hnew', hnew, List.append_assoc]⟩
  · intro x k hfresh hactive
    by_cases hx : t.marks x = .fresh
    · exact h.reached_le.trans (h'.number_le x k hx hactive)
    · exact h.number_le x k hfresh ((h'.kept x hx).symm.trans hactive)
  · intro x k hfresh hactive
    by_cases hx : t.marks x = .fresh
    · have hopen := (h'.opened x k hx hactive).mono (min_le_right low low')
      exact { hopen with reached := .head hu hopen.reached }
    · have hopen := h.opened x k hfresh ((h'.kept x hx).symm.trans hactive)
      exact (hopen.mono (min_le_left low low')).kept h'.kept

/-! ### Entering and closing -/

theorem marks_enter (s : DepthFirst n) (u v : Fin n) :
    (s.enter v).marks u = if v = u then .active s.reached else s.marks u := VertexMap.get_set ..

theorem Valid.enter (h : s.Valid g) (hv : s.marks v = .fresh) : (s.enter v).Valid g := by
  have hclosed : ∀ u k, (s.enter v).marks u = .closed k ↔ s.marks u = .closed k := by
    intro u k
    rw [marks_enter]
    split
    · rename_i heq
      simp [← heq, hv]
    · rfl
  constructor
  case mem_active_iff =>
    intro u
    rw [marks_enter, DepthFirst.enter, List.mem_cons, h.mem_active_iff, @eq_comm _ u v]
    split <;> simp [*]
  case number_lt =>
    intro u k hu
    rw [marks_enter] at hu
    split at hu
    · cases hu
      exact Nat.lt_succ_self _
    · exact (h.number_lt u k hu).trans (Nat.lt_succ_self _)
  case decreasing =>
    have hne : ∀ u ∈ s.active, (s.enter v).marks u = s.marks u := by
      intro u hu
      obtain ⟨k, hk⟩ := (h.mem_active_iff u).1 hu
      rw [marks_enter, if_neg]
      rintro rfl
      simp [hv] at hk
    refine List.pairwise_cons.2 ⟨fun u hu k l hk hl => ?_, ?_⟩
    · rw [marks_enter, if_pos rfl, Mark.active.injEq] at hk
      rw [hne u hu] at hl
      exact hk ▸ h.number_lt u l hl
    · refine h.decreasing.imp_of_mem fun ha hb hab k l hk hl => ?_
      rw [hne _ ha] at hk
      rw [hne _ hb] at hl
      exact hab k l hk hl
  case label_lt => exact fun u k hu => h.label_lt u k ((hclosed u k).1 hu)
  case exists_label =>
    intro k hk
    obtain ⟨u, hu⟩ := h.exists_label k hk
    exact ⟨u, (hclosed u k).2 hu⟩
  case next_closed =>
    intro u x k hu hx
    obtain ⟨l, hl, hxl⟩ := h.next_closed u x k ((hclosed u k).1 hu) hx
    exact ⟨l, hl, (hclosed x l).2 hxl⟩
  case reaches =>
    exact fun u x k hu hx => h.reaches u x k ((hclosed u k).1 hu) ((hclosed x k).1 hx)

theorem get_foldl_set {α : Type} (a : α) (v : Fin n) : ∀ (us : List (Fin n)) (m : VertexMap n α),
    us.foldl (fun m u => m.set u a) m v = if v ∈ us then a else m v
  | [], m => by simp
  | u :: us, m => by
      rw [List.foldl_cons, get_foldl_set a v us, VertexMap.get_set]
      by_cases hus : v ∈ us
      · simp [hus]
      · simp [hus, @eq_comm _ u v]

/-- To close `v` labels it and what is above it. -/
theorem close_eq {new rest : List (Fin n)} (hactive : s.active = new ++ v :: rest)
    (hnew : v ∉ new) : (s.close v).active = rest ∧ (s.close v).closed = s.closed + 1 ∧
      (s.close v).reached = s.reached ∧
      ∀ u, (s.close v).marks u = if u ∈ new ∨ u = v then .closed s.closed else s.marks u := by
  have habove : ∀ u ∈ new, (u != v) = true := fun u hu => by
    simpa using ne_of_mem_of_not_mem hu hnew
  have htake : s.active.takeWhile (· != v) = new := by
    rw [hactive, List.takeWhile_append_of_pos habove]
    simp
  have hdrop : s.active.dropWhile (· != v) = v :: rest := by
    rw [hactive, List.dropWhile_append_of_pos habove]
    simp
  refine ⟨by simp [close, hdrop], rfl, rfl, fun u => ?_⟩
  simp only [close, htake, get_foldl_set, List.mem_append, List.mem_singleton]

/-! ### Finishing a visit -/

theorem Advances.marks_self (h : Advances g v (s.enter v) low t) :
    t.marks v = .active s.reached := by
  have hentered : (s.enter v).marks v = .active s.reached := by rw [marks_enter, if_pos rfl]
  rw [h.kept v (by simp [hentered]), hentered]

theorem Advances.marks_old (h : Advances g v (s.enter v) low t) (hv : s.marks v = .fresh)
    (hu : s.marks u ≠ .fresh) : t.marks u = s.marks u := by
  have hvu : v ≠ u := fun heq => hu (heq ▸ hv)
  have hmark : (s.enter v).marks u = s.marks u := by rw [marks_enter, if_neg hvu]
  rw [h.kept u (hmark ▸ hu), hmark]

/-- Numbers below that of `v` belong to vertices that were reached before it. -/
theorem Advances.old_of_lt (h : Advances g v (s.enter v) low t) {k : Nat}
    (hu : t.marks u = .active k) (hk : k < s.reached) : s.marks u ≠ .fresh := by
  intro hfresh
  by_cases hvu : v = u
  · obtain rfl : s.reached = k := Mark.active.inj (h.marks_self.symm.trans (hvu ▸ hu))
    exact lt_irrefl _ hk
  · have hentered : (s.enter v).marks u = .fresh := by rw [marks_enter, if_neg hvu, hfresh]
    exact absurd (h.number_le u k hentered hu) (Nat.not_le.2 (hk.trans (Nat.lt_succ_self _)))

section finish

variable (hs : s.Valid g) (hv : s.marks v = .fresh)

include hs hv

/-- Once `v` is entered, numbers from its own on belong to vertices that were fresh. -/
theorem Advances.fresh (h : Advances g v (s.enter v) low t) {k : Nat} (hu : t.marks u = .active k)
    (hk : s.reached ≤ k) : s.marks u = .fresh := by
  by_contra hne
  have hactive : s.marks u = .active k := (h.marks_old hv hne).symm.trans hu
  exact absurd (hs.number_lt u k hactive) (Nat.not_lt.2 hk)

/-- What was opened on the way from `v`, while nothing below `v` was met, leads back to `v`. -/
theorem Advances.reaches_back (h : Advances g v (s.enter v) s.reached t) {u : Fin n} {k : Nat}
    (hu : t.marks u = .active k) (hk : s.reached ≤ k) : g.Reaches u v := by
  induction k using Nat.strong_induction_on generalizing u with
  | _ k ih =>
    by_cases hvu : v = u
    · exact hvu ▸ .refl
    · have hfresh : (s.enter v).marks u = .fresh := by
        rw [marks_enter, if_neg hvu, h.fresh hs hv hu hk]
      obtain ⟨x, l, hx, hl, hlt, hreach⟩ := (h.opened u k hfresh hu).exists_lower
      exact hreach.trans (ih l hlt hx hl)

theorem Advances.reaches (h : Advances g v (s.enter v) low t) {k : Nat}
    (hu : t.marks u = .active k) (hk : s.reached ≤ k) : g.Reaches v u := by
  by_cases hvu : v = u
  · exact hvu ▸ .refl
  · have hfresh : (s.enter v).marks u = .fresh := by
      rw [marks_enter, if_neg hvu, h.fresh hs hv hu hk]
    exact (h.opened u k hfresh hu).reached

/-- To close `v` labels what has at least the number of `v`, and what was active before stays so. -/
theorem Advances.close_eq (h : Advances g v (s.enter v) low t) :
    (t.close v).active = s.active ∧ (t.close v).closed = t.closed + 1 ∧
      (t.close v).reached = t.reached ∧
      (∀ u k, t.marks u = .active k → s.reached ≤ k → (t.close v).marks u = .closed t.closed) ∧
      ∀ u, (∀ k, t.marks u = .active k → k < s.reached) → (t.close v).marks u = t.marks u := by
  obtain ⟨new, hactive⟩ := h.active_eq
  have hself := h.marks_self
  have hdec := h.valid.decreasing
  rw [hactive] at hdec
  have habove := (List.pairwise_append.1 hdec).2.2
  have hnew : v ∉ new := fun hmem =>
    lt_irrefl _ (habove v hmem v (List.mem_cons_self ..) _ _ hself hself)
  obtain ⟨hrest, hclosed, hreached, hmarks⟩ := DepthFirst.close_eq hactive hnew
  refine ⟨hrest, hclosed, hreached, fun u k hu hk => ?_, fun u hu => ?_⟩
  · rw [hmarks, if_pos]
    have hmem := (h.valid.mem_active_iff u).2 ⟨k, hu⟩
    rw [hactive] at hmem
    rcases List.mem_append.1 hmem with hmem | hmem
    · exact .inl hmem
    rcases List.mem_cons.1 hmem with rfl | hmem
    · exact .inr rfl
    · obtain ⟨l, hl⟩ := (hs.mem_active_iff u).1 hmem
      rw [h.fresh hs hv hu hk] at hl
      cases hl
  · rw [hmarks, if_neg]
    rintro (hmem | rfl)
    · obtain ⟨k, hk⟩ := (h.valid.mem_active_iff u).1 (by simp [hactive, hmem])
      have := habove u hmem v (List.mem_cons_self ..) _ _ hk hself
      exact absurd (hu k hk) (by omega)
    · exact lt_irrefl _ (hu _ hself)

/-- What is active after a vertex is closed was active before it, with a lower number. -/
theorem Advances.active_of_close (h : Advances g v (s.enter v) low t) {k : Nat}
    (hu : (t.close v).marks u = .active k) : t.marks u = .active k ∧ k < s.reached := by
  obtain ⟨-, -, -, hmember, hother⟩ := h.close_eq hs hv
  by_cases hk : ∃ l, t.marks u = .active l ∧ s.reached ≤ l
  · obtain ⟨l, hl, hle⟩ := hk
    rw [hmember u l hl hle] at hu
    cases hu
  · push Not at hk
    rw [hother u hk] at hu
    exact ⟨hu, hk k hu⟩

/-- What is closed after a vertex is closed was so before, or has the new label. -/
theorem Advances.closed_of_close (h : Advances g v (s.enter v) low t) {k : Nat}
    (hu : (t.close v).marks u = .closed k) : t.marks u = .closed k ∨
      k = t.closed ∧ ∃ l, t.marks u = .active l ∧ s.reached ≤ l := by
  obtain ⟨-, -, -, hmember, hother⟩ := h.close_eq hs hv
  by_cases hk : ∃ l, t.marks u = .active l ∧ s.reached ≤ l
  · obtain ⟨l, hl, hle⟩ := hk
    rw [hmember u l hl hle, Mark.closed.injEq] at hu
    exact .inr ⟨hu.symm, l, hl, hle⟩
  · push Not at hk
    exact .inl (hother u hk ▸ hu)

theorem Advances.close_closed (h : Advances g v (s.enter v) low t) {k : Nat}
    (hu : t.marks u = .closed k) : (t.close v).marks u = .closed k := by
  obtain ⟨-, -, -, -, hother⟩ := h.close_eq hs hv
  rw [hother u (by simp [hu]), hu]

/-- Closing a vertex that met nothing lower makes a component. -/
theorem Advances.valid_close (h : Advances g v (s.enter v) s.reached t)
    (hmet : ∀ u ∈ g.next v, t.Met s.reached u) : (t.close v).Valid g := by
  obtain ⟨hactive, hclosed, hreached, hmember, hother⟩ := h.close_eq hs hv
  constructor
  case mem_active_iff =>
    intro u
    rw [hactive, hs.mem_active_iff]
    constructor
    · rintro ⟨k, hk⟩
      have hold := h.marks_old hv (u := u) (by simp [hk])
      refine ⟨k, ?_⟩
      rw [hother u, hold, hk]
      intro l hl
      rw [hold] at hl
      exact hs.number_lt u l hl
    · rintro ⟨k, hk⟩
      obtain ⟨hu, hlt⟩ := h.active_of_close hs hv hk
      exact ⟨k, (h.marks_old hv (h.old_of_lt hu hlt)).symm.trans hu⟩
  case number_lt =>
    intro u k hu
    rw [hreached]
    exact h.valid.number_lt u k (h.active_of_close hs hv hu).1
  case decreasing =>
    rw [hactive]
    obtain ⟨new, hnew⟩ := h.active_eq
    have hdec := h.valid.decreasing
    rw [hnew] at hdec
    refine ((List.pairwise_append.1 hdec).2.1.sublist (List.sublist_cons_self ..)).imp ?_
    exact fun hab k l hk hl => hab k l (h.active_of_close hs hv hk).1 (h.active_of_close hs hv hl).1
  case label_lt =>
    intro u k hu
    rw [hclosed]
    rcases h.closed_of_close hs hv hu with hu | ⟨rfl, _⟩
    · exact (h.valid.label_lt u k hu).trans (Nat.lt_succ_self _)
    · exact Nat.lt_succ_self _
  case exists_label =>
    intro k hk
    rw [hclosed] at hk
    rcases Nat.lt_succ_iff_lt_or_eq.1 hk with hk | rfl
    · obtain ⟨u, hu⟩ := h.valid.exists_label k hk
      exact ⟨u, h.close_closed hs hv hu⟩
    · exact ⟨v, hmember v _ h.marks_self le_rfl⟩
  case next_closed =>
    intro u x k hu hx
    rcases h.closed_of_close hs hv hu with hu | ⟨rfl, m, hm, hle⟩
    · obtain ⟨l, hl, hxl⟩ := h.valid.next_closed u x k hu hx
      exact ⟨l, hl, h.close_closed hs hv hxl⟩
    · have hfound : t.Met s.reached x := by
        by_cases hvu : v = u
        · exact hmet x (hvu ▸ hx)
        · have hfresh : (s.enter v).marks u = .fresh := by
            rw [marks_enter, if_neg hvu, h.fresh hs hv hm hle]
          exact (h.opened u m hfresh hm).next_met x hx
      rcases hfound with ⟨l, hxl⟩ | ⟨l, hle, hxl⟩
      · exact ⟨l, (h.valid.label_lt x l hxl).le, h.close_closed hs hv hxl⟩
      · exact ⟨t.closed, le_rfl, hmember x l hxl hle⟩
  case reaches =>
    intro u x k hu hx
    rcases h.closed_of_close hs hv hu with hu | ⟨rfl, m, hm, hle⟩ <;>
      rcases h.closed_of_close hs hv hx with hx | ⟨heq, m', hm', hle'⟩
    · exact h.valid.reaches u x k hu hx
    · exact absurd (h.valid.label_lt u k hu) (by omega)
    · exact absurd (h.valid.label_lt x _ hx) (lt_irrefl _)
    · exact (h.reaches_back hs hv hm hle).trans (h.reaches hs hv hm' hle')

theorem Scanned.close (h : Scanned g v s (g.next v) s.reached t) :
    Visited g v s s.reached (t.close v) := by
  have hvalid := h.advances.valid_close hs hv h.met
  obtain ⟨hactive, -, hreached, hmember, hother⟩ := h.advances.close_eq hs hv
  have hnone : ∀ u k, s.marks u = .fresh → (t.close v).marks u ≠ .active k := by
    intro u k hfresh hu
    have hmem := (hvalid.mem_active_iff u).2 ⟨k, hu⟩
    rw [hactive, hs.mem_active_iff, hfresh] at hmem
    simp at hmem
  refine ⟨⟨hvalid, ?_, ?_, ⟨[], hactive⟩, ?_, ?_⟩, ?_, .inl ⟨rfl, hactive⟩⟩
  · intro u hu
    have hold := h.advances.marks_old hv hu
    rw [hother u, hold]
    intro k hk
    exact hs.number_lt u k (hold ▸ hk)
  · rw [hreached]
    exact (Nat.le_succ _).trans h.advances.reached_le
  · exact fun u k hfresh hu => absurd hu (hnone u k hfresh)
  · exact fun u k hfresh hu => absurd hu (hnone u k hfresh)
  · exact .inl ⟨_, hmember v _ h.advances.marks_self le_rfl⟩

end finish

theorem Scanned.keep (h : Scanned g v s (g.next v) low t) (hv : s.marks v = .fresh)
    (hlow : low < s.reached) : Visited g v s low t := by
  have hself := h.advances.marks_self
  obtain ⟨x, hx, hreach⟩ := h.exists_low
  refine ⟨⟨h.advances.valid, fun u hu => h.advances.marks_old hv hu, ?_, ?_, ?_, ?_⟩,
    .inr ⟨_, hlow.le, hself⟩, .inr ⟨hlow, x, hx, hreach⟩⟩
  · exact (Nat.le_succ _).trans h.advances.reached_le
  · obtain ⟨new, hnew⟩ := h.advances.active_eq
    exact ⟨new ++ [v], by rw [hnew, List.append_assoc]; rfl⟩
  · intro u k hfresh hu
    exact Nat.not_lt.1 fun hk => h.advances.old_of_lt hu hk hfresh
  · intro u k hfresh hu
    by_cases hvu : v = u
    · subst hvu
      obtain rfl : s.reached = k := Mark.active.inj (hself.symm.trans hu)
      exact ⟨.refl, h.met, x, low, hx, le_rfl, hlow, hreach⟩
    · have hentered : (s.enter v).marks u = .fresh := by rw [marks_enter, if_neg hvu, hfresh]
      exact h.advances.opened u k hentered hu

/-! ### Visits -/

/-- The number of vertices not reached yet. -/
def numFresh (s : DepthFirst n) : Nat := (Finset.univ.filter fun u => s.marks u = .fresh).card

theorem numFresh_le (h : ∀ u, s.marks u ≠ .fresh → t.marks u = s.marks u) :
    t.numFresh ≤ s.numFresh := by
  refine Finset.card_le_card fun u hu => ?_
  simp only [Finset.mem_filter, Finset.mem_univ, true_and] at hu ⊢
  by_contra hne
  exact hne ((h u hne).symm.trans hu)

theorem numFresh_enter_lt (hv : s.marks v = .fresh) : (s.enter v).numFresh < s.numFresh := by
  refine Finset.card_lt_card (Finset.ssubset_iff_of_subset ?_ |>.2 ⟨v, ?_, ?_⟩)
  · intro u hu
    simp only [Finset.mem_filter, Finset.mem_univ, true_and, marks_enter] at hu ⊢
    split at hu
    · cases hu
    · exact hu
  · simp [hv]
  · simp [marks_enter]

section look

variable {visit : Fin n → DepthFirst n → Nat × DepthFirst n}

theorem look_fresh (h : t.marks u = .fresh) :
    look visit (low, t) u = (min low (visit u t).1, (visit u t).2) := by
  simp only [look, h]

theorem look_active {found : Nat} (h : t.marks u = .active found) :
    look visit (low, t) u = (min low found, t) := by
  simp only [look, h]

theorem look_closed {label : Nat} (h : t.marks u = .closed label) :
    look visit (low, t) u = (low, t) := by
  simp only [look, h]

/-- The scan of successors goes on with one more. -/
theorem Scanned.look {seen : List (Fin n)}
    (h : Scanned g v s seen low t) (hu : u ∈ g.next v)
    (hvisit : t.marks u = .fresh → Visited g u t (visit u t).1 (visit u t).2) :
    Scanned g v s (seen ++ [u]) (DepthFirst.look visit (low, t) u).1
      (DepthFirst.look visit (low, t) u).2 := by
  obtain ⟨x, hx, hreach⟩ := h.exists_low
  have hall : ∀ found t', Met t' (min low found) u →
      (∀ y, t.marks y ≠ .fresh → t'.marks y = t.marks y) →
      ∀ y ∈ seen ++ [u], Met t' (min low found) y := by
    intro found t' hmet hkept y hy
    rcases List.mem_append.1 hy with hy | hy
    · exact ((h.met y hy).mono (min_le_left ..)).kept hkept
    · rw [List.mem_singleton.1 hy]
      exact hmet
  cases hmark : t.marks u with
  | fresh =>
    rw [look_fresh hmark]
    obtain ⟨hadv, hmet, hlower⟩ := hvisit hmark
    refine ⟨h.advances.trans hu hadv, (min_le_left ..).trans h.low_le,
      hall _ _ (hmet.mono (min_le_right ..)) hadv.kept, ?_⟩
    dsimp only
    rcases le_or_gt low (visit u t).1 with hle | hlt
    · exact ⟨x, by rw [min_eq_left hle, hadv.kept x (by simp [hx]), hx], hreach⟩
    · rcases hlower with ⟨heq, _⟩ | ⟨_, y, hy, hreach'⟩
      · have := h.low_le
        have : s.reached + 1 ≤ t.reached := h.advances.reached_le
        omega
      · exact ⟨y, by rw [min_eq_right hlt.le, hy], .head hu hreach'⟩
  | active found =>
    rw [look_active hmark]
    refine ⟨h.advances.mono (min_le_left ..), (min_le_left ..).trans h.low_le,
      hall _ _ (.inr ⟨found, min_le_right .., hmark⟩) fun _ _ => rfl, ?_⟩
    dsimp only
    rcases le_or_gt low found with hle | hlt
    · exact ⟨x, by rw [min_eq_left hle, hx], hreach⟩
    · exact ⟨u, by rw [min_eq_right hlt.le, hmark], .single hu⟩
  | closed label =>
    rw [look_closed hmark]
    refine ⟨h.advances, h.low_le, ?_, x, hx, hreach⟩
    have hmet := hall low t (.inl ⟨label, hmark⟩) fun _ _ => rfl
    rwa [min_self] at hmet

theorem Scanned.foldl (hvisit : ∀ u t, t.Valid g → t.marks u = .fresh →
      t.numFresh ≤ (s.enter v).numFresh → Visited g u t (visit u t).1 (visit u t).2) :
    ∀ {us seen : List (Fin n)} {low : Nat} {t : DepthFirst n}, Scanned g v s seen low t →
      (∀ u ∈ us, u ∈ g.next v) →
      Scanned g v s (seen ++ us) (us.foldl (DepthFirst.look visit) (low, t)).1
        (us.foldl (DepthFirst.look visit) (low, t)).2
  | [], seen, low, t, h, _ => by simpa using h
  | u :: us, seen, low, t, h, hus => by
      have hstep := h.look (hus u (List.mem_cons_self ..)) fun hfresh =>
        hvisit u t h.advances.valid hfresh (numFresh_le h.advances.kept)
      have hrest := Scanned.foldl hvisit hstep fun x hx => hus x (List.mem_cons_of_mem u hx)
      rwa [List.append_assoc] at hrest

end look

/-- Before the first successor is looked at, the lowest number met is that of the vertex itself. -/
theorem scanned_enter (hs : s.Valid g) (hv : s.marks v = .fresh) :
    Scanned g v s [] s.reached (s.enter v) :=
  ⟨.refl (hs.enter hv), le_rfl, by simp, v, by rw [marks_enter, if_pos rfl], .refl⟩

/-- A visit to a fresh vertex, with a level for each fresh vertex. -/
theorem visited_visit : ∀ {levels : Nat} {v : Fin n} {s : DepthFirst n}, s.Valid g →
    s.marks v = .fresh → s.numFresh ≤ levels →
      Visited g v s (visit g levels v s).1 (visit g levels v s).2
  | 0, v, s, _, hv, hlevels => by
      have := numFresh_enter_lt hv
      omega
  | levels + 1, v, s, hs, hv, hlevels => by
      have hlt := numFresh_enter_lt hv
      have hvisit : ∀ u t, t.Valid g → t.marks u = .fresh → t.numFresh ≤ (s.enter v).numFresh →
          Visited g u t (visit g levels u t).1 (visit g levels u t).2 := fun u t ht hu hle =>
        visited_visit ht hu (by omega)
      have hscan := Scanned.foldl hvisit (scanned_enter hs hv) fun u hu => hu
      rw [List.nil_append] at hscan
      unfold visit
      dsimp only
      split
      · rename_i heq
        rw [heq] at hscan ⊢
        exact hscan.close hs hv
      · rename_i hne
        exact hscan.keep hv (lt_of_le_of_ne hscan.low_le hne)

/-! ### The whole search -/

theorem valid_start : (start n).Valid g := by
  constructor <;> simp [start]

/-- What holds between visits from outside: nothing is active. -/
theorem cover_spec (hs : s.Valid g) (hactive : s.active = []) : (cover g s v).Valid g ∧
    (cover g s v).active = [] ∧ (cover g s v).marks v ≠ .fresh ∧
      ∀ u, s.marks u ≠ .fresh → (cover g s v).marks u ≠ .fresh := by
  unfold cover
  split
  · rename_i hv
    have hle : s.numFresh ≤ n := (Finset.card_le_univ _).trans (Fintype.card_fin n).le
    obtain ⟨hadv, hmet, hlower⟩ := visited_visit hs hv hle
    refine ⟨hadv.valid, ?_, ?_, fun u hu => (hadv.kept u hu).symm ▸ hu⟩
    · rcases hlower with ⟨_, heq⟩ | ⟨hlt, x, hx, _⟩
      · rw [heq, hactive]
      · -- a lower number would be that of a vertex that was active before
        by_cases hfresh : s.marks x = .fresh
        · exact absurd (hadv.number_le x _ hfresh hx) (Nat.not_le.2 hlt)
        · have hmem := (hs.mem_active_iff x).2 ⟨_, (hadv.kept x hfresh).symm.trans hx⟩
          simp [hactive] at hmem
    · rcases hmet with ⟨label, hl⟩ | ⟨k, _, hk⟩
      · simp [hl]
      · simp [hk]
  · rename_i hv
    exact ⟨hs, hactive, hv, fun _ h => h⟩

theorem foldl_cover_spec : ∀ {vs : List (Fin n)} {s : DepthFirst n}, s.Valid g → s.active = [] →
    (vs.foldl (cover g) s).Valid g ∧ (vs.foldl (cover g) s).active = [] ∧
      (∀ v ∈ vs, (vs.foldl (cover g) s).marks v ≠ .fresh) ∧
      ∀ u, s.marks u ≠ .fresh → (vs.foldl (cover g) s).marks u ≠ .fresh
  | [], s, hs, hactive => ⟨hs, hactive, by simp, fun _ h => h⟩
  | v :: vs, s, hs, hactive => by
      obtain ⟨hs', hactive', hv, hkept⟩ := cover_spec (v := v) hs hactive
      obtain ⟨hvalid, hnone, hall, hkept'⟩ := foldl_cover_spec hs' hactive'
      refine ⟨hvalid, hnone, ?_, fun u hu => hkept' u (hkept u hu)⟩
      intro u hu
      rcases List.mem_cons.1 hu with rfl | hu
      · exact hkept' u hv
      · exact hall u hu

/-- In the end every vertex is closed. -/
theorem exists_components (g : Digraph n) : ∃ s : DepthFirst n, s.Valid g ∧
    g.components.count = s.closed ∧ ∀ v, s.marks v = .closed (g.components.labels v) := by
  obtain ⟨hvalid, hnone, hall, -⟩ :=
    @foldl_cover_spec n g (List.finRange n) (start n) valid_start rfl
  refine ⟨_, hvalid, rfl, fun v => ?_⟩
  have hfresh := hall v (List.mem_finRange v)
  simp only [Digraph.components, VertexMap.get_map]
  cases hv : ((List.finRange n).foldl (cover g) (start n)).marks v with
  | fresh => exact absurd hv hfresh
  | active k =>
    have hmem := (hvalid.mem_active_iff v).2 ⟨k, hv⟩
    simp [hnone] at hmem
  | closed label => rfl

end DepthFirst

/-! ### Components -/

namespace Digraph

/-- No arc leads to a component with a higher label. -/
theorem label_le {u v : Fin n} (h : v ∈ g.next u) :
    g.components.labels v ≤ g.components.labels u := by
  obtain ⟨s, hs, -, hmarks⟩ := DepthFirst.exists_components g
  obtain ⟨l, hl, hv⟩ := hs.next_closed u v _ (hmarks u) h
  rw [hmarks v, Mark.closed.injEq] at hv
  rwa [hv]

theorem Reaches.label_le {u v : Fin n} (h : g.Reaches u v) :
    g.components.labels v ≤ g.components.labels u := by
  induction h with
  | refl => exact le_rfl
  | tail _ hstep ih => exact (Digraph.label_le hstep).trans ih

/-- Two vertices are in one component exactly if each can be reached from the other. -/
theorem same_components_iff {u v : Fin n} :
    g.components.same u v = true ↔ g.Reaches u v ∧ g.Reaches v u := by
  rw [Components.same, beq_iff_eq]
  constructor
  · intro heq
    obtain ⟨s, hs, -, hmarks⟩ := DepthFirst.exists_components g
    have hv := hmarks v
    rw [← heq] at hv
    exact ⟨hs.reaches u v _ (hmarks u) hv, hs.reaches v u _ hv (hmarks u)⟩
  · rintro ⟨huv, hvu⟩
    exact le_antisymm hvu.label_le huv.label_le

/-- The labels are those below the count. -/
theorem exists_label_iff {k : Nat} :
    (∃ v, g.components.labels v = k) ↔ k < g.components.count := by
  obtain ⟨s, hs, hcount, hmarks⟩ := DepthFirst.exists_components g
  rw [hcount]
  constructor
  · rintro ⟨v, rfl⟩
    exact hs.label_lt v _ (hmarks v)
  · intro hk
    obtain ⟨v, hv⟩ := hs.exists_label k hk
    exact ⟨v, Mark.closed.inj ((hmarks v).symm.trans hv)⟩

/-- Where each component is a single vertex, no two vertices are in one. -/
theorem eq_of_allSingle (h : g.components.allSingle = true) {u v : Fin n}
    (heq : g.components.labels u = g.components.labels v) : u = v := by
  have hcount : g.components.count = n := by simpa [Components.allSingle] using h
  have hlt : ∀ v, g.components.labels v < n := fun v =>
    (exists_label_iff.1 ⟨v, rfl⟩).trans_eq hcount
  let label : Fin n → Fin n := fun v => ⟨g.components.labels v, hlt v⟩
  have hsurj : Function.Surjective label := by
    intro k
    obtain ⟨v, hv⟩ := exists_label_iff.2 (k.isLt.trans_eq hcount.symm)
    exact ⟨v, Fin.ext hv⟩
  exact (Finite.injective_iff_surjective.2 hsurj) (Fin.ext heq)

end Digraph

end Octagon

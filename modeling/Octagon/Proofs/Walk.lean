import Mathlib
import Octagon.Network

/-!
Walks along arcs and their exact weights, which no width bounds. A walk that meets a vertex twice
contains a closed one; where no closed walk has a negative weight, cutting it out makes the walk no
heavier. So some walk that repeats no vertex is as light as any other with the same ends.
-/

namespace Octagon

variable {w : Width} {ρ : Type} {n : Nat}

/-- The arcs of the list lead from `u` to `v`, each from where the one before it ends. -/
def Walk (arcs : List (Arc w ρ n)) : Fin n → Fin n → List (Arc w ρ n) → Prop
  | u, v, [] => u = v
  | u, v, a :: l => a ∈ arcs ∧ a.source = u ∧ Walk arcs a.target v l

/-- The sum of the weights, as an unbounded integer. -/
def exactWeight (l : List (Arc w ρ n)) : Int := (l.map (·.weight.val)).sum

/-- The vertices that a walk from `u` meets, both ends included. -/
def visited (u : Fin n) (l : List (Arc w ρ n)) : List (Fin n) := u :: l.map Arc.target

/-- No closed walk has a negative weight. -/
def NoNegativeCycle (arcs : List (Arc w ρ n)) : Prop :=
  ∀ v l, Walk arcs v v l → 0 ≤ exactWeight l

@[simp] theorem exactWeight_nil : exactWeight ([] : List (Arc w ρ n)) = 0 := rfl

@[simp] theorem exactWeight_cons (a : Arc w ρ n) (l : List (Arc w ρ n)) :
    exactWeight (a :: l) = a.weight.val + exactWeight l := by simp [exactWeight]

@[simp] theorem exactWeight_append (l m : List (Arc w ρ n)) :
    exactWeight (l ++ m) = exactWeight l + exactWeight m := by simp [exactWeight]

variable {arcs : List (Arc w ρ n)}

/-- Two walks in a row are one walk, and every walk falls apart wherever it is cut. -/
theorem walk_append_iff : ∀ {u v : Fin n} {l m : List (Arc w ρ n)},
    Walk arcs u v (l ++ m) ↔ ∃ x, Walk arcs u x l ∧ Walk arcs x v m
  | u, v, [], m => by simp [Walk]
  | u, v, a :: l, m => by simp [Walk, walk_append_iff, and_assoc]

theorem Walk.append {u x v : Fin n} {l m : List (Arc w ρ n)} (hl : Walk arcs u x l)
    (hm : Walk arcs x v m) : Walk arcs u v (l ++ m) := walk_append_iff.2 ⟨x, hl, hm⟩

/-- An arc prolongs a walk that ends at its source. -/
theorem Walk.concat {u : Fin n} {l : List (Arc w ρ n)} {a : Arc w ρ n}
    (hl : Walk arcs u a.source l) (ha : a ∈ arcs) : Walk arcs u a.target (l ++ [a]) :=
  hl.append ⟨ha, rfl, rfl⟩

theorem Walk.mem : ∀ {u v : Fin n} {l : List (Arc w ρ n)}, Walk arcs u v l → ∀ a ∈ l, a ∈ arcs
  | _, _, [], _, _, h => by simp at h
  | _, _, b :: l, ⟨hb, _, hl⟩, a, h => by
      rcases List.mem_cons.1 h with rfl | h
      · exact hb
      · exact Walk.mem hl a h

/-- A walk along arcs that all belong to another list is a walk along that list. -/
theorem Walk.mono {arcs' : List (Arc w ρ n)} : ∀ {u v : Fin n} {l : List (Arc w ρ n)},
    Walk arcs u v l → (∀ a ∈ l, a ∈ arcs') → Walk arcs' u v l
  | _, _, [], h, _ => h
  | _, _, a :: l, ⟨_, hs, hl⟩, h =>
      ⟨h a (by simp), hs, hl.mono fun b hb => h b (List.mem_cons_of_mem a hb)⟩

/-! ### Potentials -/

/-- Where every arc bounds the rise of `d` by its weight, so does every walk. -/
theorem Walk.le_add {d : Fin n → Int} (hd : ∀ a ∈ arcs, d a.target ≤ d a.source + a.weight.val) :
    ∀ {u v : Fin n} {l : List (Arc w ρ n)}, Walk arcs u v l → d v ≤ d u + exactWeight l
  | u, v, [], h => by cases h; simp
  | u, v, a :: l, ⟨ha, hs, hl⟩ => by
      have hrest := Walk.le_add hd hl
      have hfirst := hd a ha
      rw [hs] at hfirst
      rw [exactWeight_cons]
      omega

/-- Where `d` rises along every arc by at least its weight, it does so along every walk. -/
theorem Walk.add_le {d : Fin n → Int} (hd : ∀ a ∈ arcs, d a.source + a.weight.val ≤ d a.target) :
    ∀ {u v : Fin n} {l : List (Arc w ρ n)}, Walk arcs u v l → d u + exactWeight l ≤ d v
  | u, v, [], h => by cases h; simp
  | u, v, a :: l, ⟨ha, hs, hl⟩ => by
      have hrest := Walk.add_le hd hl
      have hfirst := hd a ha
      rw [hs] at hfirst
      rw [exactWeight_cons]
      omega

/-- Where a walk makes `d` rise by all of its weight, so does each of its arcs. -/
theorem Walk.eq_add {d : Fin n → Int} (hd : ∀ a ∈ arcs, d a.target ≤ d a.source + a.weight.val)
    {u v : Fin n} {l : List (Arc w ρ n)} (hl : Walk arcs u v l) (hle : d u + exactWeight l ≤ d v) :
    ∀ a ∈ l, d a.target = d a.source + a.weight.val := by
  intro a ha
  obtain ⟨p, q, rfl⟩ := List.append_of_mem ha
  obtain ⟨x, hp, hmem, rfl, hq⟩ := walk_append_iff.1 hl
  have hbefore := hp.le_add hd
  have hafter := hq.le_add hd
  have harc := hd a hmem
  rw [exactWeight_append, exactWeight_cons] at hle
  omega

/-- Along a closed walk that weighs nothing a potential grows by what the way weighs. -/
theorem Walk.weight_eq {d : Fin n → Int} (hd : ∀ a ∈ arcs, d a.target ≤ d a.source + a.weight.val)
    {v p q : Fin n} {l m : List (Arc w ρ n)} (hl : Walk arcs v v l) (hzero : exactWeight l = 0)
    (hm : Walk arcs p q m) (hsub : m ⊆ l) : exactWeight m = d q - d p := by
  have hstep := hl.eq_add hd (by omega)
  have hm' : Walk l p q m := hm.mono hsub
  have hle := hm'.le_add fun a ha => (hstep a ha).le
  have hge := hm'.add_le fun a ha => (hstep a ha).ge
  omega

/-- A potential that every arc respects excludes negative cycles. -/
theorem NoNegativeCycle.of_potential {d : Fin n → Int}
    (hd : ∀ a ∈ arcs, d a.target ≤ d a.source + a.weight.val) : NoNegativeCycle arcs := by
  intro v l hl
  have := hl.le_add hd
  omega

/-! ### Cutting out closed walks -/

/-- A walk can be cut at any place. -/
theorem Walk.cut_at : ∀ {u v x : Fin n} {l : List (Arc w ρ n)} {i : Nat}, Walk arcs u v l →
    (visited u l)[i]? = some x → Walk arcs u x (l.take i) ∧ Walk arcs x v (l.drop i)
  | u, v, x, l, 0, h, hx => by
      obtain rfl : u = x := Option.some.inj hx
      exact ⟨rfl, h⟩
  | u, v, x, [], i + 1, _, hx => by simp [visited] at hx
  | u, v, x, a :: l, i + 1, ⟨ha, hs, hl⟩, hx => by
      obtain ⟨hbefore, hafter⟩ := hl.cut_at (i := i) hx
      exact ⟨⟨ha, hs, hbefore⟩, hafter⟩

/-- A walk can be cut at any vertex that it meets. -/
theorem Walk.split_at {u v x : Fin n} {l : List (Arc w ρ n)} (hl : Walk arcs u v l)
    (hx : x ∈ visited u l) : ∃ p q, l = p ++ q ∧ Walk arcs u x p ∧ Walk arcs x v q := by
  obtain ⟨i, hi⟩ := List.mem_iff_getElem?.1 hx
  exact ⟨_, _, (List.take_append_drop i l).symm, hl.cut_at hi⟩

/-- A walk that meets a vertex twice has a closed part. -/
theorem Walk.exists_closed : ∀ {u v : Fin n} {l : List (Arc w ρ n)}, Walk arcs u v l →
    ¬(visited u l).Nodup → ∃ p c q x, l = p ++ c ++ q ∧ c ≠ [] ∧
      Walk arcs u x p ∧ Walk arcs x x c ∧ Walk arcs x v q
  | u, v, [], _, hn => by simp [visited] at hn
  | u, v, a :: l, ⟨ha, hs, hl⟩, hn => by
      by_cases hu : u ∈ visited a.target l
      · obtain ⟨c, q, rfl, hc, hq⟩ := hl.split_at hu
        exact ⟨[], a :: c, q, u, rfl, by simp, rfl, ⟨ha, hs, hc⟩, hq⟩
      · have hrest : ¬(visited a.target l).Nodup := fun h => hn (List.nodup_cons.2 ⟨hu, h⟩)
        obtain ⟨p, c, q, x, rfl, hne, hp, hc, hq⟩ := hl.exists_closed hrest
        exact ⟨a :: p, c, q, x, rfl, hne, ⟨ha, hs, hp⟩, hc, hq⟩

/-- Without negative cycles some walk that repeats no vertex is as light as a given one. -/
theorem Walk.exists_simple_le (hnn : NoNegativeCycle arcs) {u v : Fin n} {l : List (Arc w ρ n)}
    (hl : Walk arcs u v l) :
    ∃ m, Walk arcs u v m ∧ (visited u m).Nodup ∧ exactWeight m ≤ exactWeight l := by
  induction hk : l.length using Nat.strong_induction_on generalizing l with
  | _ k ih =>
    by_cases hn : (visited u l).Nodup
    · exact ⟨l, hl, hn, le_rfl⟩
    obtain ⟨p, c, q, x, rfl, hne, hp, hc, hq⟩ := hl.exists_closed hn
    have hshort : (p ++ q).length < k := by
      have := List.length_pos_iff.2 hne
      simp only [List.length_append] at hk ⊢
      omega
    obtain ⟨m, hm, hmn, hle⟩ := ih _ hshort (hp.append hq) rfl
    refine ⟨m, hm, hmn, hle.trans ?_⟩
    have := hnn x c hc
    simp only [exactWeight_append]
    omega

/-- A walk that repeats no vertex has fewer arcs than there are vertices. -/
theorem length_lt_of_nodup {u : Fin n} {l : List (Arc w ρ n)} (h : (visited u l).Nodup) :
    l.length < n := by
  have := h.length_le_card
  simpa [visited] using this

/-! ### Walks as lists of vertices -/

/-- The arcs of a walk join each vertex on it to the next. -/
theorem Walk.zip_visited : ∀ {u v : Fin n} {l : List (Arc w ρ n)}, Walk arcs u v l →
    (visited u l).zip (visited u l).tail = l.map fun a => (a.source, a.target)
  | _, _, [], _ => rfl
  | _, _, a :: l, ⟨_, hs, hl⟩ => by
      have hrest := hl.zip_visited
      simp only [visited, List.map_cons, List.tail_cons, List.zip_cons_cons, hs] at hrest ⊢
      rw [hrest]

/-- A walk visits the vertices that it leaves, and the one where it ends. -/
theorem Walk.visited_eq : ∀ {u v : Fin n} {l : List (Arc w ρ n)}, Walk arcs u v l →
    visited u l = l.map Arc.source ++ [v]
  | _, _, [], h => by cases h; rfl
  | _, _, a :: l, ⟨_, hs, hl⟩ => by
      rw [List.map_cons, List.cons_append, ← hl.visited_eq, hs]
      rfl

theorem Walk.getLast?_visited {u v : Fin n} {l : List (Arc w ρ n)} (hl : Walk arcs u v l) :
    (visited u l).getLast? = some v := by
  rw [hl.visited_eq, List.getLast?_concat]

/-- A walk that goes on is at its old end after as many arcs as it had. -/
theorem Walk.getElem?_visited_append {u v : Fin n} {l : List (Arc w ρ n)} (hl : Walk arcs u v l)
    (m : List (Arc w ρ n)) : (visited u (l ++ m))[l.length]? = some v := by
  have hlen : (visited u l).length = l.length + 1 := by simp [visited]
  have hsplit : visited u (l ++ m) = visited u l ++ m.map Arc.target := by simp [visited]
  rw [hsplit, List.getElem?_append_left (by omega), ← hl.getLast?_visited,
    List.getLast?_eq_getElem?, hlen, Nat.add_sub_cancel]

/-- A list of vertices each joined to the next by an arc is what some walk visits. -/
theorem exists_walk_of_isChain : ∀ {u : Fin n} {vs : List (Fin n)},
    List.IsChain (fun p q => ∃ a ∈ arcs, a.source = p ∧ a.target = q) (u :: vs) →
      ∃ v l, Walk arcs u v l ∧ visited u l = u :: vs
  | u, [], _ => ⟨u, [], rfl, rfl⟩
  | u, x :: vs, h => by
      rw [List.isChain_cons_cons] at h
      obtain ⟨⟨a, ha, hs, rfl⟩, hrest⟩ := h
      obtain ⟨v, l, hl, hv⟩ := exists_walk_of_isChain hrest
      exact ⟨v, a :: l, ⟨ha, hs, hl⟩, by rw [← hv]; rfl⟩

end Octagon

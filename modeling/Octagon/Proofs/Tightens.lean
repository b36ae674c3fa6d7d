import Octagon.Proofs.Completeness
import Octagon.Proofs.Graph.Embedding
import Octagon.Proofs.Outcome

/-!
Tighter graphs. Where every bound of a graph holds in another one that may bound more, each walk of
the first has a walk of the second between the same occurrences that weighs no more. So what
contradicts itself in the first does so in the second: a negative cycle stays negative, and a cycle
of weight 0 keeps the weights of its parts, odd ones too, unless it becomes negative. Of a graph and
one that embeds it each bounds what the other does; so a solver answers the same about both, where
the answer is not a negative cycle, and negative cycles are never lost.
-/

namespace Octagon

variable {w w' : Width} {ρ : Type}

namespace Graph

/-- Every bound of `g` is one of `g'` too, or `g'` has a smaller one in its place. The widths of the
two may differ. -/
def Tightens (g' : Graph w' ρ) (g : Graph w ρ) : Prop :=
  ∀ a b k r, g.bound? a b = some (k, r) → ∃ k' r', g'.bound? a b = some (k', r') ∧ k'.val ≤ k.val

namespace IsNetwork

variable {g : Graph w ρ} {g' : Graph w' ρ} {net : Network w ρ g.occurrences.size}
  {net' : Network w' ρ g'.occurrences.size}

/-- An arc that does not leave the root has a counterpart in a tighter graph. -/
theorem exists_arc_le (h : g.IsNetwork net) (h' : g'.IsNetwork net') (ht : g'.Tightens g)
    {a : Arc w ρ (g.occurrences.size + 1)} (ha : a ∈ net.arcs) (hroot : a.source ≠ Network.root _) :
    ∃ p q, ∃ a' ∈ net'.arcs, g.vertex? p = some a.source.val ∧ g.vertex? q = some a.target.val ∧
      g'.vertex? p = some a'.source.val ∧ g'.vertex? q = some a'.target.val ∧
      a'.weight.val ≤ a.weight.val := by
  obtain ⟨p, q, r, hp, hq, -, hpq⟩ := h.exists_bound?_of_arc ha hroot
  obtain ⟨k', r', hpq', hle⟩ := ht p q _ r hpq
  obtain ⟨a', ha', hp', hq', rfl, -⟩ := h'.exists_arc_of_bound? hpq'
  exact ⟨p, q, a', ha', hp, hq, hp', hq', hle⟩

/-- A walk that avoids the root has a counterpart that weighs no more in a tighter graph. -/
theorem exists_walk_le (h : g.IsNetwork net) (h' : g'.IsNetwork net') (ht : g'.Tightens g) :
    ∀ {u v : Fin (g.occurrences.size + 1)} {l : List (Arc w ρ (g.occurrences.size + 1))},
      Walk net.arcs u v l → (∀ a ∈ l, a.source ≠ Network.root _) →
        ∀ {p q : Occurrence} {u' : Fin (g'.occurrences.size + 1)}, g.vertex? p = some u.val →
          g.vertex? q = some v.val → g'.vertex? p = some u'.val →
            ∃ v' l', g'.vertex? q = some v'.val ∧ Walk net'.arcs u' v' l' ∧
              exactWeight l' ≤ exactWeight l
  | u, v, [], hl, _, p, q, u', hp, hq, hp' => by
      cases hl
      obtain rfl := h.valid.vertex?_inj hp hq
      exact ⟨u', [], hp', rfl, le_rfl⟩
  | u, v, a :: l, ⟨ha, hs, hl⟩, hroot, p, q, u', hp, hq, hp' => by
      obtain ⟨p₁, x, a', ha', hp₁, hx, hp₁', hx', hle⟩ :=
        h.exists_arc_le h' ht ha (hroot a (List.mem_cons_self ..))
      obtain rfl : p = p₁ := h.valid.vertex?_inj hp (hs ▸ hp₁)
      have hs' : a'.source = u' := Fin.ext (Option.some.inj (hp₁'.symm.trans hp'))
      obtain ⟨v', l', hq', hl', hrest⟩ := h.exists_walk_le h' ht hl
        (fun b hb => hroot b (List.mem_cons_of_mem a hb)) hx hq hx'
      refine ⟨v', a' :: l', hq', ⟨ha', hs', hl'⟩, ?_⟩
      rw [exactWeight_cons, exactWeight_cons]
      omega

/-- From where a walk starts, a walk starts in a tighter graph. -/
theorem exists_start (h : g.IsNetwork net) (h' : g'.IsNetwork net') (ht : g'.Tightens g)
    {u v : Fin (g.occurrences.size + 1)} {l : List (Arc w ρ (g.occurrences.size + 1))}
    (hl : Walk net.arcs u v l) (hroot : ∀ a ∈ l, a.source ≠ Network.root _) (hne : l ≠ []) :
    ∃ p, ∃ u' : Fin (g'.occurrences.size + 1), g.vertex? p = some u.val ∧
      g'.vertex? p = some u'.val := by
  cases l with
  | nil => exact absurd rfl hne
  | cons a l =>
    obtain ⟨p, q, a', -, hp, -, hp', -⟩ :=
      h.exists_arc_le h' ht hl.1 (hroot a (List.mem_cons_self ..))
    exact ⟨p, a'.source, hl.2.1 ▸ hp, hp'⟩

/-- A contradiction stays one in a tighter graph, and only a tightening cycle may become of another
kind, a negative cycle. -/
theorem exists_contradicts (h : g.IsNetwork net) (h' : g'.IsNetwork net') (ht : g'.Tightens g)
    {kind : ConflictKind} {l : List (Arc w ρ (g.occurrences.size + 1))}
    (hc : net.Contradicts kind l) :
    ∃ kind' l', net'.Contradicts kind' l' ∧ (kind' = kind ∨ kind' = .negativeCycle) := by
  cases hc with
  | @negativeCycle v _ hl hneg =>
    have hne : l ≠ [] := by
      rintro rfl
      exact lt_irrefl 0 hneg
    have hroot := h.rooted.source_ne_root hl
    obtain ⟨p, v', hp, hp'⟩ := h.exists_start h' ht hl hroot hne
    obtain ⟨x', l', hx', hl', hle⟩ := h.exists_walk_le h' ht hl hroot hp hp hp'
    obtain rfl : v' = x' := Fin.ext (Option.some.inj (hp'.symm.trans hx'))
    exact ⟨_, l', .negativeCycle hl' (hle.trans_lt hneg), .inl rfl⟩
  | @tightening x _ there back hx hthere hback _ hzero hodd =>
    have hroot := h.rooted.source_ne_root (hthere.append hback)
    have hrootThere := fun a ha => hroot a (List.mem_append_left back ha)
    have hrootBack := fun a ha => hroot a (List.mem_append_right there ha)
    have hne : there ≠ [] := by
      rintro rfl
      simp at hodd
    obtain ⟨hpos, hneg⟩ := h.vertex?_split hx
    obtain ⟨p, u', hp, hp'⟩ := h.exists_start h' ht hthere hrootThere hne
    obtain rfl := h.valid.vertex?_inj hp hpos
    obtain ⟨v', there', hq', hthere', hle⟩ :=
      h.exists_walk_le h' ht hthere hrootThere hpos hneg hp'
    obtain ⟨x', back', hx', hback', hle'⟩ := h.exists_walk_le h' ht hback hrootBack hneg hpos hq'
    obtain rfl : u' = x' := Fin.ext (Option.some.inj (hp'.symm.trans hx'))
    by_cases hlt : exactWeight there' + exactWeight back' < 0
    · exact ⟨_, there' ++ back', .negativeCycle (hthere'.append hback')
        (by rwa [exactWeight_append]), .inr rfl⟩
    · -- neither part got lighter, so the way there is odd still
      have hsame : exactWeight there' = exactWeight there := by omega
      exact ⟨_, there' ++ back', .tightening ((h'.mem_splits_iff x.var u' v').2 ⟨hp', hq'⟩)
        hthere' hback' (List.Subset.refl _) (by omega) (hsame ▸ hodd), .inl rfl⟩

/-- Where arcs contradict each other, an answer is a conflict, and a negative cycle if theirs is, as
long as no count hides improvements. -/
theorem exists_conflict_of_contradicts (h : g.IsNetwork net) {kind : ConflictKind}
    {l : List (Arc w ρ (g.occurrences.size + 1))} (hc : net.Contradicts kind l) {o : Options}
    {overflow : Overflow} (hhides : overflow.NeverHides o.relaxation g.numEdges) {a : Answer ρ}
    (ha : (g.solve o overflow).answer = .ok a) :
    ∃ c, a = .unsatisfiable c ∧ (kind = .negativeCycle → c.kind = .negativeCycle) := by
  have hexp := h.answer_explains ha
  cases a with
  | satisfiable =>
    obtain ⟨paths, hset, hnone⟩ := hexp
    have hset := hset (h.length_arcs.symm ▸ hhides)
    exact absurd hc (Network.not_contradicts_of_tighten h.rooted hset hnone kind l)
  | unsatisfiable c =>
    refine ⟨c, rfl, fun hkind => ?_⟩
    subst hkind
    by_contra hne
    obtain ⟨paths, -, hset, -⟩ := h.exists_paths hhides ha fun d hd => by cases hd; exact hne
    cases hc with
    | @negativeCycle v _ hl hneg => exact absurd (hset.noNegativeCycle v l hl) (not_le.2 hneg)

/-- Where a graph has a conflict, an answer about a tighter one is a conflict too, and a negative
cycle if the first conflict is. -/
theorem exists_conflict_of_tightens (h : g.IsNetwork net) (h' : g'.IsNetwork net')
    (ht : g'.Tightens g) {o o' : Options} {overflow : Overflow}
    (hhides' : overflow.NeverHides o'.relaxation g'.numEdges) {c : Conflict ρ} {a : Answer ρ}
    (hc : (g.solve o overflow).answer = .ok (.unsatisfiable c))
    (ha : (g'.solve o' overflow).answer = .ok a) :
    ∃ c', a = .unsatisfiable c' ∧ (c.kind = .negativeCycle → c'.kind = .negativeCycle) := by
  have hrefutes : net.Refutes c := h.answer_explains hc
  obtain ⟨v, l, -, -, -, hcontra⟩ := hrefutes.exists_walk
  obtain ⟨kind, l', hcontra', hkind⟩ := h.exists_contradicts h' ht hcontra
  obtain ⟨c', rfl, hneg⟩ := h'.exists_conflict_of_contradicts hcontra' hhides' ha
  refine ⟨c', rfl, fun hc => hneg ?_⟩
  rcases hkind with rfl | rfl
  · exact hc
  · rfl

end IsNetwork

/-! ### Embedded graphs -/

theorem mem_innerEdges {g : Graph w ρ} {e : Edge w ρ} :
    e ∈ g.innerEdges ↔ e ∈ g.edges.toList ∧ e.source ≠ root := by
  simp [innerEdges]

/-- A bound is what an inner edge says. -/
theorem Valid.bound?_eq_some_iff_inner {g : Graph w ρ} (hg : g.Valid) {a b : Occurrence}
    {k : Weight w} {r : ρ} : g.bound? a b = some (k, r) ↔ ∃ e ∈ g.innerEdges,
      g.vertex? a = some e.source ∧ g.vertex? b = some e.target ∧ e.weight = k ∧
        e.reason = some r := by
  rw [hg.bound?_eq_some_iff]
  refine exists_congr fun e => ?_
  rw [mem_innerEdges]
  exact ⟨fun ⟨he, ha, hrest⟩ => ⟨⟨he, (hg.vertex?_lt ha).1⟩, ha, hrest⟩,
    fun ⟨⟨he, _⟩, hrest⟩ => ⟨he, hrest⟩⟩

namespace Embeds

variable {g : Graph w ρ} {g' : Graph w' ρ} (h : g.Embeds g')

section bounds

variable (hg : g.Valid) (hg' : g'.Valid)

include h hg hg'

/-- The larger graph keeps every bound. -/
theorem tightens : g'.Tightens g := by
  intro a b k r hab
  obtain ⟨e, he, ha, hb, rfl, hr⟩ := hg.bound?_eq_some_iff_inner.1 hab
  have he' : e.widen h.bits_le ∈ g'.innerEdges := by
    rw [h.innerEdges_eq]
    exact List.mem_map_of_mem he
  have ha' := (h.vertex?_iff a _ (hg.vertex?_lt ha).2).2 ha
  have hb' := (h.vertex?_iff b _ (hg.vertex?_lt hb).2).2 hb
  exact ⟨_, r, hg'.bound?_eq_some_iff_inner.2 ⟨_, he', ha', hb', rfl, hr⟩, le_rfl⟩

/-- The larger graph has no other bounds. -/
theorem tightens_back : g.Tightens g' := by
  intro a b k r hab
  obtain ⟨e', he', ha', hb', rfl, hr⟩ := hg'.bound?_eq_some_iff_inner.1 hab
  rw [h.innerEdges_eq] at he'
  obtain ⟨e, he, rfl⟩ := List.mem_map.1 he'
  have hends := hg.ends_lt _ (mem_ends.2 ⟨e, (mem_innerEdges.1 he).1, rfl, rfl⟩)
  have ha := (h.vertex?_iff a _ hends.1).1 ha'
  have hb := (h.vertex?_iff b _ hends.2).1 hb'
  exact ⟨_, r, hg.bound?_eq_some_iff_inner.2 ⟨e, he, ha, hb, rfl, hr⟩, le_rfl⟩

end bounds

variable {net : Network w ρ g.occurrences.size} {net' : Network w' ρ g'.occurrences.size}
  (hg : g.IsNetwork net) (hg' : g'.IsNetwork net')

include h hg hg'

/-- About the larger graph a solver answers what it does about the smaller, unless that is a
negative cycle or counts overflow or hide improvements: the relaxation strategy is of no matter. -/
theorem answer_eq {o o' : Options} {overflow : Overflow} (ho : o.explanation = o'.explanation)
    (hhides : overflow.NeverHides o.relaxation g.numEdges)
    (hcounts' : (g'.solve o' overflow).answer ≠ .error .overflow)
    (hhides' : overflow.NeverHides o'.relaxation g'.numEdges) {a : Answer ρ}
    (ha : (g.solve o overflow).answer = .ok a)
    (hkind : ∀ c, a = .unsatisfiable c → c.kind ≠ .negativeCycle) :
    (g'.solve o' overflow).answer = .ok a := by
  have hnet := h.network hg hg'
  rw [← hg'.length_arcs] at hhides'
  obtain ⟨paths, hexact, hset, found, hfound, rfl⟩ := hg.exists_paths hhides ha hkind
  obtain ⟨paths', hout, hdist⟩ := hnet.exists_distances hg.rooted hg'.rooted hexact hset
    (mt hg'.answer_of_miscounted hcounts') hhides'
  obtain ⟨found', hfound', hanswer⟩ := hg'.answer_of_distances hout
  rw [← ho, hnet.tighten_eq hdist, hfound] at hfound'
  rw [hanswer, Except.ok.inj hfound']

end Embeds

end Graph

end Octagon

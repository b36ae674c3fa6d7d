import Octagon.Proofs.Graph.History

/-!
Which differences have a common solution in integers. Each has a mirror that says the same. Along a
chain of them that comes back to its start the weights add up to a bound of 0, which must not be
negative. Nor may ways from `x+` to `x-` and back weigh nothing together with each of them odd, as
twice a value is even. Where there is neither, there is a solution: differences without a negative
chain have a potential, half the difference between the potentials of `x+` and `x-` is a value for
`x` but for rounding, and an order of the occurrences that goes up along tight differences tells
which way to round.
-/

namespace Octagon

variable {w : Width}

/-! ### Chains -/

namespace Difference

/-- The differences lead from `p` to `q`, each from where the one before it leads to. -/
def Chain : Occurrence → Occurrence → List (Difference w) → Prop
  | p, q, [] => p = q
  | p, q, d :: ds => d.source = p ∧ Chain d.target q ds

/-- The sum of the weights. -/
def total (ds : List (Difference w)) : Int := (ds.map (·.weight.val)).sum

/-- The differences form a closed chain that no integers satisfy. -/
inductive Contradictory : List (Difference w) → Prop
  | negative {p : Occurrence} {ds : List (Difference w)} : Chain p p ds → total ds < 0 →
      Contradictory ds
  | odd {p : Occurrence} {there back : List (Difference w)} : Chain p p.negate there →
      Chain p.negate p back → total there + total back = 0 → total there % 2 = 1 →
      Contradictory (there ++ back)

@[simp] theorem total_nil : total ([] : List (Difference w)) = 0 := rfl

@[simp] theorem total_cons (d : Difference w) (ds : List (Difference w)) :
    total (d :: ds) = d.weight.val + total ds := rfl

@[simp] theorem total_append (ds es : List (Difference w)) :
    total (ds ++ es) = total ds + total es := by
  simp [total]

variable {p q r : Occurrence} {ds es : List (Difference w)}

theorem Chain.append : ∀ {p : Occurrence} {ds : List (Difference w)}, Chain p q ds →
    Chain q r es → Chain p r (ds ++ es)
  | _, [], h, h' => by
      obtain rfl : _ = q := h
      exact h'
  | _, _ :: _, ⟨hp, h⟩, h' => ⟨hp, h.append h'⟩

theorem Chain.concat {d : Difference w} (h : Chain p d.source ds) : Chain p d.target (ds ++ [d]) :=
  h.append ⟨rfl, rfl⟩

/-- Numbers that satisfy each difference satisfy what a chain adds up to. -/
theorem Chain.le_add {f : Occurrence → Int} : ∀ {p : Occurrence} {ds : List (Difference w)},
    Chain p q ds → (∀ d ∈ ds, f d.target ≤ f d.source + d.weight.val) → f q ≤ f p + total ds
  | _, [], h, _ => by
      obtain rfl : _ = q := h
      simp
  | _, d :: ds, ⟨hp, h⟩, hf => by
      obtain ⟨hd, hds⟩ := List.forall_mem_cons.1 hf
      have hrest := h.le_add hds
      rw [hp] at hd
      rw [total_cons]
      omega

theorem mirror_holds_iff {σ : Assignment} {d : Difference w} : d.mirror.Holds σ ↔ d.Holds σ := by
  simp only [Holds, mirror, Occurrence.value_negate]
  omega

theorem Contradictory.not_forall_holds (h : Contradictory ds) (σ : Assignment) :
    ¬∀ d ∈ ds, d.Holds σ := by
  intro hσ
  cases h with
  | negative hchain hneg =>
    have hrise := hchain.le_add (f := fun o => o.value σ) hσ
    omega
  | @odd p there back hthere hback hzero hodd =>
    have hgo := hthere.le_add (f := fun o => o.value σ)
      fun d hd => hσ d (List.mem_append_left _ hd)
    have hreturn := hback.le_add (f := fun o => o.value σ)
      fun d hd => hσ d (List.mem_append_right _ hd)
    rw [p.value_negate] at hgo hreturn
    omega

/-! ### Potentials -/

/-- Where no closed chain is negative the differences have a solution over the occurrences, if each
may have a value of its own. -/
theorem exists_potential : ∀ ds : List (Difference w),
    (∀ p l, Chain p p l → l ⊆ ds → 0 ≤ total l) →
      ∃ f : Occurrence → Int, ∀ d ∈ ds, f d.target ≤ f d.source + d.weight.val
  | [], _ => ⟨fun _ => 0, fun _ hd => absurd hd List.not_mem_nil⟩
  | d :: ds, h => by
      obtain ⟨f, hf⟩ := exists_potential ds fun p l hl hsub =>
        h p l hl (List.Subset.trans hsub (List.subset_cons_self d ds))
      -- what `d` asks for is passed on along the chains that start where it leads to
      let Passed (q : Occurrence) (k : Int) : Prop :=
        ∃ l, l ⊆ ds ∧ Chain d.target q l ∧ k = f d.source + d.weight.val + total l
      have hleast : ∀ q, ∃ k, (k = f q ∨ Passed q k) ∧ ∀ k', k' = f q ∨ Passed q k' → k ≤ k' := by
        intro q
        refine Int.exists_least_of_bdd
          ⟨min (f q) (f d.source + d.weight.val + (f q - f d.target)), fun k hk => ?_⟩
          ⟨f q, .inl rfl⟩
        rcases hk with rfl | ⟨l, hsub, hl, rfl⟩
        · exact min_le_left _ _
        · have hrise := hl.le_add fun e he => hf e (hsub he)
          omega
      choose g hg hmin using hleast
      refine ⟨g, List.forall_mem_cons.2 ⟨?_, fun e he => ?_⟩⟩
      · have htarget : g d.target ≤ f d.source + d.weight.val :=
          hmin d.target _ (.inr ⟨[], List.nil_subset ds, rfl, by simp⟩)
        rcases hg d.source with hsame | ⟨l, hsub, hl, hpassed⟩
        · omega
        · have hclosed : 0 ≤ total (d :: l) := by
            refine h d.source _ ⟨rfl, hl⟩ (List.cons_subset.2 ⟨List.mem_cons_self .., ?_⟩)
            exact List.Subset.trans hsub (List.subset_cons_self d ds)
          rw [total_cons] at hclosed
          omega
      · rcases hg e.source with hsame | ⟨l, hsub, hl, hpassed⟩
        · have htarget := hmin e.target _ (.inl rfl)
          have hstep := hf e he
          omega
        · have htarget := hmin e.target _
            (.inr ⟨l ++ [e], List.append_subset.2 ⟨hsub, by simpa using he⟩, hl.concat, rfl⟩)
          rw [total_append, total_cons, total_nil] at htarget
          omega

/-- A tight difference leads from `p` to `q`. -/
def TightStep (ds : List (Difference w)) (f : Occurrence → Int) (p q : Occurrence) : Prop :=
  ∃ d ∈ ds, d.source = p ∧ d.target = q ∧ f q = f p + d.weight.val

theorem exists_tight_chain {f : Occurrence → Int}
    (h : Relation.ReflTransGen (TightStep ds f) p q) :
    ∃ l, l ⊆ ds ∧ Chain p q l ∧ total l = f q - f p := by
  induction h with
  | refl => exact ⟨[], List.nil_subset ds, rfl, by simp⟩
  | tail _ hstep ih =>
    obtain ⟨l, hsub, hl, htotal⟩ := ih
    obtain ⟨d, hd, rfl, rfl, htight⟩ := hstep
    refine ⟨l ++ [d], List.append_subset.2 ⟨hsub, by simpa using hd⟩, hl.concat, ?_⟩
    rw [total_append, total_cons, total_nil]
    omega

end Difference

/-! ### Rounding -/

/-- What a relation leads to comes later in some order, or at the same place if it leads back. -/
theorem exists_order {α : Type} (R : α → α → Prop) : ∃ (β : Type) (_ : LinearOrder β)
    (place : α → β), (∀ a b, R a b → place a ≤ place b) ∧
      ∀ a b, place a = place b → Relation.ReflTransGen R a b := by
  let _ : Preorder α :=
    { le := Relation.ReflTransGen R
      le_refl := fun _ => .refl
      le_trans := fun _ _ _ => .trans }
  refine ⟨LinearExtension (Antisymmetrization α (· ≤ ·)), inferInstance,
    fun a => toLinearExtension (toAntisymmetrization (· ≤ ·) a), fun a b hab => ?_,
    fun a b hab => ?_⟩
  · have hle : a ≤ b := Relation.ReflTransGen.single hab
    exact toLinearExtension.monotone hle
  · have hquot : toAntisymmetrization (α := α) (· ≤ ·) a = toAntisymmetrization (· ≤ ·) b := hab
    have hequiv : AntisymmRel (· ≤ ·) a b := Quotient.exact hquot
    exact hequiv.1

section rounding

variable {β : Type} [LinearOrder β] (f : Occurrence → Int) (place : Occurrence → β)

/-- What is added to make twice the value of `p` even: 1 if `p` comes before its negation. -/
def tilt (p : Occurrence) : Int :=
  if (f p - f p.negate) % 2 = 0 then 0 else if place p < place p.negate then 1 else -1

/-- Half the difference between the potentials of the two occurrences, rounded. -/
def halved : Assignment := fun x =>
  (f x.positive - f x.negative + tilt f place x.positive) / 2

/-- Where the difference is odd the two occurrences of a variable have different places. -/
def Parted : Prop := ∀ p : Occurrence, (f p - f p.negate) % 2 = 1 → place p ≠ place p.negate

theorem tilt_bounds (p : Occurrence) : -1 ≤ tilt f place p ∧ tilt f place p ≤ 1 ∧
    ((f p - f p.negate) % 2 = 0 → tilt f place p = 0) := by
  unfold tilt
  split_ifs <;> omega

variable {f place}

theorem tilt_negate (h : Parted f place) (p : Occurrence) :
    tilt f place p.negate = -tilt f place p := by
  have hne := h p
  unfold tilt
  rw [Occurrence.negate_negate]
  by_cases heven : (f p - f p.negate) % 2 = 0
  · rw [if_pos heven, if_pos (by omega), neg_zero]
  · rw [if_neg heven, if_neg (by omega)]
    rcases lt_or_gt_of_ne (hne (by omega)) with hlt | hgt
    · rw [if_pos hlt, if_neg hlt.not_gt]
    · rw [if_neg hgt.not_gt, if_pos hgt, neg_neg]

theorem two_mul_value_halved (h : Parted f place) (p : Occurrence) :
    2 * p.value (halved f place) = f p - f p.negate + tilt f place p := by
  have heven : ∀ o : Occurrence, (f o - f o.negate + tilt f place o) % 2 = 0 := by
    intro o
    unfold tilt
    split_ifs <;> omega
  have hpositive : ∀ x : Variable, 2 * halved f place x =
      f x.positive - f x.negative + tilt f place x.positive := by
    intro x
    have hx : (f x.positive - f x.negative + tilt f place x.positive) % 2 = 0 := heven x.positive
    unfold halved
    omega
  obtain ⟨x, polarity⟩ := p
  cases polarity with
  | positive => exact hpositive x
  | negative =>
    have hneg : tilt f place x.negative = -tilt f place x.positive := tilt_negate h x.positive
    have hvalue : 2 * -halved f place x =
        f x.negative - f x.positive + tilt f place x.negative := by
      have := hpositive x
      omega
    exact hvalue

/-- The later an occurrence comes and the sooner its negation, the less is added. -/
theorem tilt_le_tilt {p q : Occurrence} (hparity : (f q - f q.negate) % 2 = (f p - f p.negate) % 2)
    (hplace : place p ≤ place q) (hplace' : place q.negate ≤ place p.negate) :
    tilt f place q ≤ tilt f place p := by
  unfold tilt
  rw [hparity]
  by_cases heven : (f p - f p.negate) % 2 = 0
  · rw [if_pos heven, if_pos heven]
  · rw [if_neg heven, if_neg heven]
    by_cases hq : place q < place q.negate
    · have hp : place p < place p.negate := (hplace.trans_lt hq).trans_le hplace'
      rw [if_pos hq, if_pos hp]
    · rw [if_neg hq]
      split_ifs <;> omega

/-- Where a difference and its mirror leave no room, its ends are rounded by what the order of the
occurrences says; elsewhere rounding is no matter. -/
theorem holds_halved (h : Parted f place) {d : Difference w}
    (hd : f d.target ≤ f d.source + d.weight.val)
    (hmirror : f d.source.negate ≤ f d.target.negate + d.weight.val)
    (hplace : f d.target = f d.source + d.weight.val → place d.source ≤ place d.target)
    (hplace' : f d.source.negate = f d.target.negate + d.weight.val →
      place d.target.negate ≤ place d.source.negate) : d.Holds (halved f place) := by
  have hsource := two_mul_value_halved h d.source
  have htarget := two_mul_value_halved h d.target
  obtain ⟨hs, hs', hsEven⟩ := tilt_bounds f place d.source
  obtain ⟨ht, ht', htEven⟩ := tilt_bounds f place d.target
  by_cases htight : f d.target = f d.source + d.weight.val ∧
      f d.source.negate = f d.target.negate + d.weight.val
  · have hparity : (f d.target - f d.target.negate) % 2 = (f d.source - f d.source.negate) % 2 := by
      omega
    have halike := tilt_le_tilt hparity (hplace htight.1) (hplace' htight.2)
    unfold Difference.Holds
    omega
  · unfold Difference.Holds
    omega

end rounding

/-! ### Solutions -/

namespace Difference

/-- A difference is among `ds`, or its mirror is. -/
def LiesAmong (ds : List (Difference w)) (d : Difference w) : Prop := d ∈ ds ∨ d.mirror ∈ ds

/-- Differences have a common solution in integers exactly if no closed chain of them and their
mirrors is contradictory. -/
theorem exists_solution_iff (ds : List (Difference w)) : (∃ σ : Assignment, ∀ d ∈ ds, d.Holds σ) ↔
    ¬∃ l, Contradictory l ∧ ∀ d ∈ l, LiesAmong ds d := by
  constructor
  · rintro ⟨σ, hσ⟩ ⟨l, hl, hamong⟩
    refine hl.not_forall_holds σ fun d hd => ?_
    rcases hamong d hd with hmem | hmem
    · exact hσ d hmem
    · exact mirror_holds_iff.1 (hσ _ hmem)
  · intro hnone
    let all := ds ++ ds.map mirror
    have hall : ∀ d ∈ all, LiesAmong ds d := by
      intro d hd
      rcases List.mem_append.1 hd with hmem | hmem
      · exact .inl hmem
      · obtain ⟨e, he, rfl⟩ := List.mem_map.1 hmem
        exact .inr (e.mirror_mirror.symm ▸ he)
    obtain ⟨f, hf⟩ := exists_potential all fun p l hl hsub => by
      by_contra hneg
      exact hnone ⟨l, .negative hl (not_le.1 hneg), fun d hd => hall d (hsub hd)⟩
    obtain ⟨β, _, place, hplace, hback⟩ := exists_order (TightStep all f)
    have hparted : Parted f place := by
      intro p hodd hsame
      obtain ⟨there, hthere, hgo, htotal⟩ := exists_tight_chain (hback _ _ hsame)
      obtain ⟨back, hreturn, hcome, htotal'⟩ := exists_tight_chain (hback _ _ hsame.symm)
      refine hnone ⟨there ++ back, .odd hgo hcome (by omega) (by omega), fun d hd => ?_⟩
      rcases List.mem_append.1 hd with hmem | hmem
      · exact hall d (hthere hmem)
      · exact hall d (hreturn hmem)
    refine ⟨halved f place, fun d hd => ?_⟩
    have hmem : d ∈ all := List.mem_append_left _ hd
    have hmem' : d.mirror ∈ all := List.mem_append_right _ (List.mem_map_of_mem hd)
    exact holds_halved hparted (hf d hmem) (hf _ hmem')
      (fun htight => hplace _ _ ⟨d, hmem, rfl, rfl, htight⟩)
      fun htight => hplace _ _ ⟨_, hmem', rfl, rfl, htight⟩

end Difference

end Octagon

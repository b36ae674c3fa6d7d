import Mathlib
import Octagon.Weight

/-!
Checked sums. A sum from left to right is the exact one, and there is one exactly if no sum of first
weights leaves the range.
-/

namespace Octagon

variable {w : Width}

/-- The sum of the weights, as an unbounded integer. -/
def exactSum (ws : List (Weight w)) : Int := (ws.map Weight.val).sum

@[simp] theorem exactSum_nil : exactSum ([] : List (Weight w)) = 0 := rfl

@[simp] theorem exactSum_cons (a : Weight w) (ws : List (Weight w)) :
    exactSum (a :: ws) = a.val + exactSum ws := by simp [exactSum]

@[simp] theorem exactSum_append (ws us : List (Weight w)) :
    exactSum (ws ++ us) = exactSum ws + exactSum us := by simp [exactSum]

namespace Weight

/-- No sum of first weights leaves the range. -/
def Fits (a : Int) (ws : List (Weight w)) : Prop :=
  ∀ us, us <+: ws → w.min ≤ a + exactSum us ∧ a + exactSum us ≤ w.max

theorem Fits.left {a : Int} {ws : List (Weight w)} (h : Fits a ws) : w.min ≤ a ∧ a ≤ w.max := by
  simpa using h [] List.nil_prefix

theorem Fits.of_prefix {a : Int} {us ws : List (Weight w)} (h : Fits a ws) (hus : us <+: ws) :
    Fits a us := fun vs hvs => h vs (hvs.trans hus)

theorem fits_cons_iff {a : Int} {b : Weight w} {ws : List (Weight w)} :
    Fits a (b :: ws) ↔ (w.min ≤ a ∧ a ≤ w.max) ∧ Fits (a + b.val) ws := by
  constructor
  · refine fun h => ⟨h.left, fun us hus => ?_⟩
    have hcons := h (b :: us) (List.cons_prefix_cons.2 ⟨rfl, hus⟩)
    rwa [exactSum_cons, ← add_assoc] at hcons
  · rintro ⟨ha, h⟩ us hus
    cases us with
    | nil => simpa using ha
    | cons c us =>
      obtain ⟨rfl, hrest⟩ := List.cons_prefix_cons.1 hus
      rw [exactSum_cons, ← add_assoc]
      exact h us hrest

theorem foldlM_add?_eq_some_iff {t : Weight w} : ∀ {ws : List (Weight w)} {a : Weight w},
    ws.foldlM add? a = some t ↔ t.val = a.val + exactSum ws ∧ Fits a.val ws
  | [], a => by
      simp only [List.foldlM_nil, Option.pure_def, Option.some.injEq, exactSum_nil, add_zero, Fits,
        List.prefix_nil, forall_eq]
      exact ⟨fun h => ⟨congrArg val h.symm, a.min_le, a.le_max⟩, fun h => (Weight.ext h.1).symm⟩
  | b :: ws, a => by
      rw [List.foldlM_cons]
      simp only [Option.bind_eq_bind, Option.bind_eq_some_iff, foldlM_add?_eq_some_iff,
        add?_eq_some_iff, fits_cons_iff, exactSum_cons]
      constructor
      · rintro ⟨c, hc, ht, hfits⟩
        rw [hc] at ht hfits
        exact ⟨by omega, ⟨a.min_le, a.le_max⟩, hfits⟩
      · rintro ⟨ht, -, hfits⟩
        exact ⟨⟨_, hfits.left.1, hfits.left.2⟩, rfl, by dsimp only; omega, hfits⟩

/-- There is a sum exactly if no sum of first weights leaves the range; then it is the exact one. -/
theorem sum?_eq_some_iff {ws : List (Weight w)} {t : Weight w} :
    sum? ws = some t ↔ t.val = exactSum ws ∧ Fits 0 ws := by
  rw [sum?, foldlM_add?_eq_some_iff, zero_val, zero_add]

theorem sum?_eq_none_iff {ws : List (Weight w)} : sum? ws = none ↔ ¬Fits 0 ws := by
  constructor
  · intro h hfits
    have hws := hfits ws List.prefix_rfl
    rw [zero_add] at hws
    have hsome : sum? ws = some ⟨exactSum ws, hws.1, hws.2⟩ := sum?_eq_some_iff.2 ⟨rfl, hfits⟩
    rw [h] at hsome
    cases hsome
  · intro h
    by_contra hne
    obtain ⟨t, ht⟩ := Option.ne_none_iff_exists'.1 hne
    exact h (sum?_eq_some_iff.1 ht).2

/-! ### Sums of weights of one sign -/

theorem exactSum_nonneg {ws : List (Weight w)} (h : ∀ a ∈ ws, 0 ≤ a.val) : 0 ≤ exactSum ws := by
  refine List.sum_nonneg fun x hx => ?_
  obtain ⟨a, ha, rfl⟩ := List.mem_map.1 hx
  exact h a ha

theorem exactSum_nonpos : ∀ {ws : List (Weight w)}, (∀ a ∈ ws, a.val ≤ 0) → exactSum ws ≤ 0
  | [], _ => le_rfl
  | a :: ws, h => by
      have ha := h a (List.mem_cons_self ..)
      have hws := exactSum_nonpos fun b hb => h b (List.mem_cons_of_mem a hb)
      rw [exactSum_cons]
      omega

/-- Where no weight is negative, the whole sum is the largest of the sums of first weights. -/
theorem fits_iff_of_nonneg {ws : List (Weight w)} (h : ∀ a ∈ ws, 0 ≤ a.val) :
    Fits 0 ws ↔ exactSum ws ≤ w.max := by
  constructor
  · intro hfits
    simpa using (hfits ws List.prefix_rfl).2
  · rintro hmax us ⟨vs, rfl⟩
    rw [exactSum_append] at hmax
    have hus := exactSum_nonneg fun a ha => h a (List.mem_append_left vs ha)
    have hvs := exactSum_nonneg fun a ha => h a (List.mem_append_right us ha)
    have hmin := w.min_neg
    omega

/-- Where no weight is positive, the whole sum is the smallest of the sums of first weights. -/
theorem fits_iff_of_nonpos {ws : List (Weight w)} (h : ∀ a ∈ ws, a.val ≤ 0) :
    Fits 0 ws ↔ w.min ≤ exactSum ws := by
  constructor
  · intro hfits
    simpa using (hfits ws List.prefix_rfl).1
  · rintro hmin us ⟨vs, rfl⟩
    rw [exactSum_append] at hmin
    have hus := exactSum_nonpos fun a ha => h a (List.mem_append_left vs ha)
    have hvs := exactSum_nonpos fun a ha => h a (List.mem_append_right us ha)
    have hmax := w.max_pos
    omega

/-- A sum falls apart into its negative part and the rest. -/
theorem exactSum_filter_add (ws : List (Weight w)) :
    exactSum (ws.filter (· < 0)) + exactSum (ws.filter (0 ≤ ·)) = exactSum ws := by
  induction ws with
  | nil => simp
  | cons a ws ih =>
    by_cases ha : a.val < 0
    · have hneg : a < 0 := ha
      have hpos : ¬(0 : Weight w) ≤ a := not_le.2 ha
      rw [List.filter_cons_of_pos (by simpa using hneg),
        List.filter_cons_of_neg (by simpa using hpos), exactSum_cons, exactSum_cons]
      omega
    · have hneg : ¬a < 0 := ha
      have hpos : (0 : Weight w) ≤ a := not_lt.1 ha
      rw [List.filter_cons_of_neg (by simpa using hneg),
        List.filter_cons_of_pos (by simpa using hpos), exactSum_cons, exactSum_cons]
      omega

/-- The weights that are not negative add up to at least the sum of any first weights. -/
theorem exactSum_le_filter {us ws : List (Weight w)} (h : us <+: ws) :
    exactSum us ≤ exactSum (ws.filter (0 ≤ ·)) := by
  obtain ⟨vs, rfl⟩ := h
  have hus := exactSum_filter_add us
  have hneg : exactSum (us.filter (· < 0)) ≤ 0 := by
    refine exactSum_nonpos fun a ha => ?_
    exact (of_decide_eq_true (List.mem_filter.1 ha).2 : a.val < 0).le
  have hvs : 0 ≤ exactSum (vs.filter (0 ≤ ·)) :=
    exactSum_nonneg fun a ha => of_decide_eq_true (List.mem_filter.1 ha).2
  rw [List.filter_append, exactSum_append]
  omega

end Weight

end Octagon

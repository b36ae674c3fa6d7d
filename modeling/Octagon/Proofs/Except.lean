import Mathlib.Data.List.Forall2

/-!
Computations that may fail: what it means for a step after another, and for a step at each entry of
a list, to succeed.
-/

namespace Octagon

variable {α β ε : Type}

/-- One step and then another succeed if both do. -/
theorem bind_eq_ok_iff {x : Except ε α} {f : α → Except ε β} {b : β} :
    x >>= f = .ok b ↔ ∃ a, x = .ok a ∧ f a = .ok b := by
  cases x <;> simp [bind, Except.bind]

theorem pure_eq_ok_iff {a b : α} : (pure a : Except ε α) = .ok b ↔ a = b :=
  Except.ok.injEq a b ▸ Iff.rfl

/-- One step and then another fail as the first of them does that fails. -/
theorem bind_eq_error_iff {x : Except ε α} {f : α → Except ε β} {e : ε} :
    x >>= f = .error e ↔ x = .error e ∨ ∃ a, x = .ok a ∧ f a = .error e := by
  cases x <;> simp [bind, Except.bind]

/-- What follows a refusal is reached if there is no ground for it. -/
theorem refuse_eq_ok_iff {p : Prop} [Decidable p] {e : ε} {f : α → Except ε β} {x : Except ε β}
    {b : β} : (if p then throw e >>= f else x) = .ok b ↔ ¬p ∧ x = .ok b := by
  split <;> simp_all [bind, Except.bind, throw, throwThe, MonadExceptOf.throw]

theorem refuse_eq_error_iff {p : Prop} [Decidable p] {e e' : ε} {f : α → Except ε β}
    {x : Except ε β} : (if p then throw e >>= f else x) = .error e' ↔
      p ∧ e = e' ∨ ¬p ∧ x = .error e' := by
  split <;> simp_all [bind, Except.bind, throw, throwThe, MonadExceptOf.throw]

/-- A function that may fail maps a list to another if it maps each entry to the one that stands in
its place. -/
theorem mapM_eq_ok_iff {f : α → Except ε β} : ∀ {xs : List α} {ys : List β},
    xs.mapM f = .ok ys ↔ List.Forall₂ (fun x y => f x = .ok y) xs ys
  | [], ys => by rw [List.mapM_nil, List.forall₂_nil_left_iff, pure_eq_ok_iff, eq_comm]
  | x :: xs, ys => by
      rw [List.mapM_cons, List.forall₂_cons_left_iff]
      simp only [bind_eq_ok_iff, pure_eq_ok_iff, ← mapM_eq_ok_iff, exists_and_left, @eq_comm _ ys]

/-- Where a function that may fail finds what another is the inverse of, the other maps back. -/
theorem mapM_eq_ok_iff_map {f : α → Except ε β} {back : β → α}
    (hf : ∀ x y, f x = .ok y ↔ back y = x) {xs : List α} {ys : List β} :
    xs.mapM f = .ok ys ↔ ys.map back = xs := by
  have heq : List.Forall₂ (fun x y => f x = .ok y) xs ys ↔ List.Forall₂ Eq xs (ys.map back) := by
    simp only [List.forall₂_map_right_iff, hf, eq_comm]
  rw [mapM_eq_ok_iff, heq, List.forall₂_eq_eq_eq, eq_comm]

/-- A function that fails on no entry maps the list. -/
theorem exists_mapM_ok {f : α → Except ε β} : ∀ {xs : List α},
    (∀ x ∈ xs, ∃ y, f x = .ok y) → ∃ ys, xs.mapM f = .ok ys
  | [], _ => ⟨[], rfl⟩
  | x :: xs, h => by
      obtain ⟨y, hy⟩ := h x (List.mem_cons_self ..)
      obtain ⟨ys, hys⟩ := exists_mapM_ok fun z hz => h z (List.mem_cons_of_mem x hz)
      exact ⟨y :: ys, mapM_eq_ok_iff.2 (.cons hy (mapM_eq_ok_iff.1 hys))⟩

/-- A list fails to be mapped as one of its entries does. -/
theorem exists_of_mapM_error {f : α → Except ε β} {e : ε} : ∀ {xs : List α},
    xs.mapM f = .error e → ∃ x ∈ xs, f x = .error e
  | [], h => by cases h
  | x :: xs, h => by
      rw [List.mapM_cons, bind_eq_error_iff] at h
      rcases h with hx | ⟨y, -, hys⟩
      · exact ⟨x, List.mem_cons_self .., hx⟩
      · rcases bind_eq_error_iff.1 hys with hxs | ⟨ys, -, hpure⟩
        · obtain ⟨z, hz, hfz⟩ := exists_of_mapM_error hxs
          exact ⟨z, List.mem_cons_of_mem x hz, hfz⟩
        · cases hpure

/-- What a list is mapped to comes from its entries. -/
theorem exists_of_mem_mapM {f : α → Except ε β} {xs : List α} {ys : List β} {y : β}
    (h : xs.mapM f = .ok ys) (hy : y ∈ ys) : ∃ x ∈ xs, f x = .ok y := by
  rw [mapM_eq_ok_iff] at h
  induction h with
  | nil => cases hy
  | cons hxy _ ih =>
    rcases List.mem_cons.1 hy with rfl | hy
    · exact ⟨_, List.mem_cons_self .., hxy⟩
    · obtain ⟨x, hx, hfx⟩ := ih hy
      exact ⟨x, List.mem_cons_of_mem _ hx, hfx⟩

end Octagon

import Mathlib.Order.Lattice

/-!
The first least entry of a list. Whoever goes through a list and lets an entry replace the best one
so far only if it is strictly smaller ends with the first of the least entries.
-/

namespace Octagon

variable {α β : Type} [LinearOrder β] {f : α → β} {x y z : α} {xs : List α}

/-- The value of `x` is less than those before it, and no larger than those after it. -/
def FirstLeast (f : α → β) (xs : List α) (x : α) : Prop :=
  ∃ before after, xs = before ++ x :: after ∧ (∀ y ∈ before, f x < f y) ∧ ∀ y ∈ after, f x ≤ f y

namespace FirstLeast

theorem mem (h : FirstLeast f xs x) : x ∈ xs := by
  obtain ⟨before, after, rfl, -, -⟩ := h
  simp

theorem le (h : FirstLeast f xs x) (hy : y ∈ xs) : f x ≤ f y := by
  obtain ⟨before, after, rfl, hbefore, hafter⟩ := h
  rcases List.mem_append.1 hy with hy | hy
  · exact (hbefore y hy).le
  · rcases List.mem_cons.1 hy with rfl | hy
    · exact le_rfl
    · exact hafter y hy

/-- A larger entry in front changes nothing. -/
theorem cons_of_lt (h : FirstLeast f xs x) (hlt : f x < f y) : FirstLeast f (y :: xs) x := by
  obtain ⟨before, after, rfl, hbefore, hafter⟩ := h
  exact ⟨y :: before, after, rfl, List.forall_mem_cons.2 ⟨hlt, hbefore⟩, hafter⟩

/-- An entry that is no smaller than one before it changes nothing. -/
theorem cons_cons_of_le (h : FirstLeast f (y :: xs) x) (hle : f y ≤ f z) :
    FirstLeast f (y :: z :: xs) x := by
  obtain ⟨before, after, heq, hbefore, hafter⟩ := h
  cases before with
  | nil =>
    obtain ⟨rfl, rfl⟩ := List.cons.inj heq
    exact ⟨[], z :: xs, rfl, by simp, List.forall_mem_cons.2 ⟨hle, hafter⟩⟩
  | cons b before =>
    obtain ⟨rfl, rfl⟩ := List.cons.inj heq
    rw [List.forall_mem_cons] at hbefore
    refine ⟨y :: z :: before, after, rfl, ?_, hafter⟩
    exact List.forall_mem_cons.2 ⟨hbefore.1,
      List.forall_mem_cons.2 ⟨hbefore.1.trans_le hle, hbefore.2⟩⟩

end FirstLeast

/-- The best entry so far, replaced where an entry is strictly smaller, ends as the first least. -/
theorem firstLeast_foldl (f : α → β) (best : α) (xs : List α) :
    FirstLeast f (best :: xs) (xs.foldl (fun best y => if f y < f best then y else best) best) := by
  induction xs generalizing best with
  | nil => exact ⟨[], [], rfl, by simp, by simp⟩
  | cons y xs ih =>
    rw [List.foldl_cons]
    split
    · rename_i hlt
      exact (ih y).cons_of_lt (((ih y).le (List.mem_cons_self ..)).trans_lt hlt)
    · rename_i hle
      exact (ih best).cons_cons_of_le (not_lt.1 hle)

end Octagon

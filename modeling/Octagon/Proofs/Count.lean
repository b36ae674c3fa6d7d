import Mathlib
import Octagon.ShortestPath

/-!
Counting improvements. How a round notes its improvements is of no matter to the paths, as long as
it can note them all: it relaxes as a sweep does that writes down every target. The count tells how
many these are as long as they are fewer than the integers of 32 bits are. A round of 2³¹
improvements stops a program that checks its additions; after one of 2³² in a program that does not,
the count is 0 again, as if nothing had been improved.
-/

namespace Octagon

variable {w : Width} {ρ : Type} {n : Nat}

/-! ### Counts -/

namespace Overflow

/-- The count after `k` improvements, if a program comes so far. -/
def count? (overflow : Overflow) (k : Nat) : Option Int32 :=
  if overflow = .checked ∧ 2 ^ 31 ≤ k then none else some (.ofNat k)

theorem ofNat_eq_maxValue_iff {k : Nat} (h : k < 2 ^ 31) :
    Int32.ofNat k = .maxValue ↔ k + 1 = 2 ^ 31 := by
  rw [← Int32.toInt_inj, Int32.toInt_ofNat_of_lt h, Int32.toInt_maxValue]
  omega

theorem next?_count? (overflow : Overflow) (k : Nat) :
    (overflow.count? k).bind overflow.next? = overflow.count? (k + 1) := by
  cases overflow with
  | wrapping => simp [count?, next?, Int32.ofNat_add]
  | checked =>
    by_cases h : 2 ^ 31 ≤ k
    · simp only [count?, true_and, if_pos h, if_pos (h.trans (Nat.le_succ k)), Option.bind_none]
    · simp only [count?, true_and, if_neg h, Option.bind_some, next?,
        ofNat_eq_maxValue_iff (not_le.1 h), Int32.ofNat_add]
      exact if_congr (by omega) rfl rfl

theorem count?_eq_none_iff {overflow : Overflow} {k : Nat} :
    overflow.count? k = none ↔ overflow = .checked ∧ 2 ^ 31 ≤ k := by
  simp [count?]

/-- A count of 0 stands for no improvement or, where counts wrap, for a multiple of 2³². -/
theorem count?_eq_zero_iff {overflow : Overflow} {k : Nat} :
    overflow.count? k = some 0 ↔ k = 0 ∨ overflow = .wrapping ∧ 2 ^ 32 ∣ k := by
  have hzero : Int32.ofNat k = 0 ↔ 2 ^ 32 ∣ k := by
    rw [← Int32.toBitVec_inj, ← BitVec.toNat_inj, Nat.dvd_iff_mod_eq_zero]
    rfl
  cases overflow with
  | wrapping =>
    simp only [count?, reduceCtorEq, false_and, if_false, Option.some.injEq, hzero, true_and]
    refine ⟨.inr, ?_⟩
    rintro (rfl | hdvd)
    · exact dvd_zero _
    · exact hdvd
  | checked =>
    simp only [count?, true_and, reduceCtorEq, false_and, or_false]
    split
    · simp only [reduceCtorEq, false_iff]
      omega
    · rw [Option.some.injEq, hzero]
      refine ⟨fun hdvd => Nat.eq_zero_of_dvd_of_lt hdvd (by omega), ?_⟩
      rintro rfl
      exact dvd_zero _

/-- No round of so many arcs has more improvements than it can count. -/
def NeverFaults (overflow : Overflow) (arcs : Nat) : Prop := overflow = .checked → arcs < 2 ^ 31

/-- No round of so many arcs ends a search though it improved something, its count being 0. -/
def NeverHides (overflow : Overflow) (strategy : Strategy) (arcs : Nat) : Prop :=
  overflow = .wrapping → strategy = .earlyExit → arcs < 2 ^ 32

theorem not_neverFaults_iff {overflow : Overflow} {arcs : Nat} :
    ¬overflow.NeverFaults arcs ↔ overflow = .checked ∧ 2 ^ 31 ≤ arcs := by
  rw [NeverFaults, Classical.not_imp, not_lt]

theorem NeverFaults.count?_ne_none {overflow : Overflow} {k arcs : Nat}
    (h : overflow.NeverFaults arcs) (hk : k ≤ arcs) : overflow.count? k ≠ none := by
  rw [ne_eq, count?_eq_none_iff]
  rintro ⟨hchecked, hle⟩
  have := h hchecked
  omega

theorem NeverHides.eq_zero {overflow : Overflow} {k arcs : Nat}
    (h : overflow.NeverHides .earlyExit arcs) (hk : k ≤ arcs) (hzero : overflow.count? k = some 0) :
    k = 0 := by
  rcases count?_eq_zero_iff.1 hzero with rfl | ⟨hwrapping, hdvd⟩
  · rfl
  · exact Nat.eq_zero_of_dvd_of_lt hdvd (hk.trans_lt (h hwrapping rfl))

end Overflow

/-! ### Sweeps -/

/-- The sweep with `f` of what is noted in place of it. -/
def Sweep.map {α β : Type} (f : α → β) : Sweep w n α → Sweep w n β
  | completed paths noted => completed paths (f noted)
  | underflowed paths target => underflowed paths target
  | overflowed => overflowed

namespace Paths

/-- Relaxes arcs in order and writes down the improved targets, the last one first. -/
def sweep (paths : Paths w n) (improved : List (Fin n)) (arcs : List (Arc w ρ n)) :
    Sweep w n (List (Fin n)) :=
  paths.sweepFrom (fun improved v => some (v :: improved)) improved arcs

section equations

variable {paths after : Paths w n} {improved : List (Fin n)} {a : Arc w ρ n}
  {arcs : List (Arc w ρ n)}

theorem sweep_unchanged (h : paths.relax a = (.unchanged, after)) :
    paths.sweep improved (a :: arcs) = after.sweep improved arcs := by
  simp only [sweep, sweepFrom, h]

theorem sweep_improved (h : paths.relax a = (.improved, after)) :
    paths.sweep improved (a :: arcs) = after.sweep (a.target :: improved) arcs := by
  simp only [sweep, sweepFrom, h]

theorem sweep_underflow (h : paths.relax a = (.underflow, after)) :
    paths.sweep improved (a :: arcs) = .underflowed after a.target := by
  simp only [sweep, sweepFrom, h]

end equations

/-- There is always a way to write a target down. -/
theorem sweep_ne_overflowed : ∀ (arcs : List (Arc w ρ n)) (paths : Paths w n)
    (improved : List (Fin n)), paths.sweep improved arcs ≠ .overflowed
  | [], _, _ => nofun
  | a :: arcs, paths, improved => by
      cases h : paths.relax a with
      | mk effect after =>
        cases effect with
        | unchanged => exact sweep_unchanged h ▸ sweep_ne_overflowed arcs after improved
        | improved => exact sweep_improved h ▸ sweep_ne_overflowed arcs after _
        | underflow => exact sweep_underflow h ▸ nofun

/-- Whatever notes improvements notes those that a sweep writes down, until it cannot go on. -/
theorem sweepFrom_eq {α : Type} (note : α → Fin n → Option α) : ∀ (arcs : List (Arc w ρ n))
    (paths : Paths w n) (noted : α) (improved : List (Fin n)), ∃ targets : List (Fin n),
      targets.length ≤ arcs.length ∧
      paths.sweepFrom note noted arcs = (targets.foldlM note noted).elim .overflowed
        (fun out => (paths.sweep improved arcs).map fun _ => out) ∧
      ∀ after out, paths.sweep improved arcs = .completed after out →
        out = targets.reverse ++ improved
  | [], paths, noted, improved => by
      refine ⟨[], le_rfl, rfl, fun after out h => ?_⟩
      cases h
      rfl
  | a :: arcs, paths, noted, improved => by
      cases h : paths.relax a with
      | mk effect next =>
        cases effect with
        | unchanged =>
          obtain ⟨targets, hle, heq, hout⟩ := sweepFrom_eq note arcs next noted improved
          rw [sweep_unchanged h, sweepFrom, h]
          exact ⟨targets, hle.trans (Nat.le_succ _), heq, hout⟩
        | improved =>
          rw [sweep_improved h, sweepFrom, h]
          cases hnote : note noted a.target with
          | none =>
            obtain ⟨targets, hle, -, hout⟩ :=
              sweepFrom_eq note arcs next noted (a.target :: improved)
            refine ⟨a.target :: targets, Nat.succ_le_succ hle, ?_, fun after out hsweep => ?_⟩
            · simp [List.foldlM_cons, hnote]
            · simp [hout after out hsweep]
          | some more =>
            obtain ⟨targets, hle, heq, hout⟩ :=
              sweepFrom_eq note arcs next more (a.target :: improved)
            refine ⟨a.target :: targets, Nat.succ_le_succ hle, ?_, fun after out hsweep => ?_⟩
            · simpa [List.foldlM_cons, hnote] using heq
            · simp [hout after out hsweep]
        | underflow =>
          rw [sweep_underflow h, sweepFrom, h]
          exact ⟨[], Nat.zero_le _, rfl, nofun⟩

theorem foldlM_next? (overflow : Overflow) (targets : List (Fin n)) (k : Nat) {count : Int32}
    (h : overflow.count? k = some count) :
    targets.foldlM (fun count _ => overflow.next? count) count =
      overflow.count? (k + targets.length) := by
  induction targets generalizing k count with
  | nil => exact h.symm
  | cons target targets ih =>
    have hnext := overflow.next?_count? k
    rw [h, Option.bind_some] at hnext
    have hlength : k + (target :: targets).length = k + 1 + targets.length := by
      rw [List.length_cons]
      omega
    rw [List.foldlM_cons, hnext, hlength]
    cases hcount : overflow.count? (k + 1) with
    | none =>
      obtain ⟨hchecked, hle⟩ := Overflow.count?_eq_none_iff.1 hcount
      exact (Overflow.count?_eq_none_iff.2 ⟨hchecked, hle.trans (Nat.le_add_right ..)⟩).symm
    | some more => exact ih (k + 1) hcount

/-- A round is a sweep that counts, up to where there is no count. -/
theorem round_eq (overflow : Overflow) (paths : Paths w n) (arcs : List (Arc w ρ n)) :
    ∃ k ≤ arcs.length,
      paths.round overflow arcs = (overflow.count? k).elim .overflowed
        (fun count => (paths.sweep [] arcs).map fun _ => count) ∧
      ∀ after out, paths.sweep [] arcs = .completed after out → out.length = k := by
  obtain ⟨targets, hle, heq, hout⟩ :=
    sweepFrom_eq (fun count _ => overflow.next? count) arcs paths 0 []
  have hstart : overflow.count? 0 = some 0 := by cases overflow <;> rfl
  rw [foldlM_next? overflow targets 0 hstart, Nat.zero_add] at heq
  refine ⟨targets.length, hle, heq, fun after out hsweep => ?_⟩
  simp [hout after out hsweep]

/-- The last look is a sweep that keeps the target improved last. -/
theorem lookAgain_eq (paths : Paths w n) (arcs : List (Arc w ρ n)) :
    paths.lookAgain arcs = (paths.sweep [] arcs).map List.head? := by
  have hlast : ∀ (targets : List (Fin n)) (last : Option (Fin n)),
      targets.foldlM (fun _ target => some (some target)) last =
        some ((targets.reverse.head?).or last) := by
    intro targets
    induction targets with
    | nil => intro last; rfl
    | cons target targets ih =>
      intro last
      rw [List.foldlM_cons]
      refine (ih (some target)).trans ?_
      simp [List.head?_append]
  obtain ⟨targets, -, heq, hout⟩ :=
    sweepFrom_eq (fun _ target => some (some target)) arcs paths none []
  rw [hlast] at heq
  refine heq.trans ?_
  cases hsweep : paths.sweep [] arcs with
  | completed after out => simp [Sweep.map, hout after out hsweep]
  | underflowed after target => rfl
  | overflowed => rfl

end Paths

end Octagon

import Octagon.Proofs.Count
import Octagon.Proofs.Relaxation

/-!
Rounds of a search. A round that is completed brings every distance below that of any path prolonged
by one arc, so after `k` rounds no walk of at most `k` arcs is shorter than the distance known. A
count of 0 shows that a round improved nothing, as long as counts do not come back to 0.
-/

namespace Octagon

variable {w : Width} {ρ : Type} {n : Nat}

/-- No walk of at most `k` arcs is shorter than the distance known of its end. -/
def Paths.Bounded (net : Network w ρ n) (k : Nat) (paths : Paths w (n + 1)) : Prop :=
  ∀ v l, Walk net.arcs (Network.root n) v l → l.length ≤ k → paths.dist v ≤ exactWeight l

/-- The distances respect every arc. -/
def Paths.Settled (net : Network w ρ n) (paths : Paths w (n + 1)) : Prop :=
  ∀ a ∈ net.arcs, paths.dist a.target ≤ paths.dist a.source + a.weight.val

/-- Some walk that goes on with `a` underflows, and `a` became a link. -/
def Paths.Underflowed (net : Network w ρ n) (after : Paths w (n + 1)) (target : Fin (n + 1)) :
    Prop :=
  ∃ seen paths a rest, net.Visits seen paths ∧ net.arcs = seen ++ a :: rest ∧ a.target = target ∧
    after = paths.link a ∧ paths.dist a.source + a.weight.val < w.min

namespace Paths

variable {net : Network w ρ n} {seen rest : List (Arc w ρ (n + 1))} {paths after : Paths w (n + 1)}
  {improved out : List (Fin (n + 1))}

/-- What a completed round comes to: distances only fall, each to at most the length of a path
prolonged by one arc. None falls if no improvement was made, and that of the vertex improved last
does if any was. -/
theorem sweep_completed (hnet : net.Rooted) : ∀ {rest seen : List (Arc w ρ (n + 1))}
    {paths : Paths w (n + 1)} {improved : List (Fin (n + 1))}, net.Visits seen paths →
    net.arcs = seen ++ rest → paths.sweep improved rest = .completed after out →
      net.Visits net.arcs after ∧ (∀ v, after.dist v ≤ paths.dist v) ∧
      (∀ a ∈ rest, after.dist a.target ≤ paths.dist a.source + a.weight.val) ∧
      ((out = improved ∧ after = paths) ∨
        ∃ last others, out = last :: others ∧ after.dist last < paths.dist last)
  | [], seen, paths, improved, hv, harcs, h => by
      cases h
      rw [List.append_nil] at harcs
      exact ⟨harcs ▸ hv, fun _ => le_rfl, by simp, .inl ⟨rfl, rfl⟩⟩
  | a :: rest, seen, paths, improved, hv, harcs, h => by
      have hsound := Sound.of_visits hnet hv
      have harcs' : net.arcs = (seen ++ [a]) ++ rest := by simp [harcs]
      rcases relax_cases paths a (hsound.source_le_zero hnet harcs) with
        ⟨heq, hle⟩ | ⟨length, hlen, hlt, heq⟩ | ⟨_, heq⟩
      · rw [sweep_unchanged heq] at h
        obtain ⟨hv', hfall, hrest, hout⟩ := sweep_completed hnet
          (hv.relax harcs heq (by simp)) harcs' h
        refine ⟨hv', hfall, ?_, hout⟩
        intro b hb
        rcases List.mem_cons.1 hb with rfl | hb
        · exact (hfall b.target).trans hle
        · exact hrest b hb
      · rw [sweep_improved heq] at h
        obtain ⟨hv', hfall, hrest, hout⟩ := sweep_completed hnet
          (hv.relax harcs heq (by simp)) harcs' h
        have hstep := dist_improve_le paths hlt
        have htarget : after.dist a.target ≤ paths.dist a.source + a.weight.val := by
          have := hfall a.target
          rwa [dist_shorten, if_pos rfl, hlen] at this
        refine ⟨hv', fun v => (hfall v).trans (hstep v), ?_, .inr ?_⟩
        · intro b hb
          rcases List.mem_cons.1 hb with rfl | hb
          · exact htarget
          · have := hrest b hb
            have := hstep b.source
            omega
        · rcases hout with ⟨rfl, _⟩ | ⟨last, others, rfl, hnearer⟩
          · exact ⟨a.target, improved, rfl, by omega⟩
          · exact ⟨last, others, rfl, hnearer.trans_le (hstep last)⟩
      · rw [sweep_underflow heq] at h
        cases h

theorem sweep_underflowed (hnet : net.Rooted) {target : Fin (n + 1)} :
    ∀ {rest seen : List (Arc w ρ (n + 1))} {paths : Paths w (n + 1)}
      {improved : List (Fin (n + 1))}, net.Visits seen paths → net.arcs = seen ++ rest →
      paths.sweep improved rest = .underflowed after target → after.Underflowed net target
  | [], _, _, _, _, _, h => by cases h
  | a :: rest, seen, paths, improved, hv, harcs, h => by
      have hsound := Sound.of_visits hnet hv
      have harcs' : net.arcs = (seen ++ [a]) ++ rest := by simp [harcs]
      rcases relax_cases paths a (hsound.source_le_zero hnet harcs) with
        ⟨heq, _⟩ | ⟨length, _, _, heq⟩ | ⟨hlt, heq⟩
      · rw [sweep_unchanged heq] at h
        exact sweep_underflowed hnet (hv.relax harcs heq (by simp)) harcs' h
      · rw [sweep_improved heq] at h
        exact sweep_underflowed hnet (hv.relax harcs heq (by simp)) harcs' h
      · rw [sweep_underflow heq] at h
        cases h
        exact ⟨seen, paths, a, rest, hv, harcs, rfl, rfl, hlt⟩

theorem bounded_initial (net : Network w ρ n) : (initial w n).Bounded net 0 := by
  intro v l hl hlen
  obtain rfl : l = [] := List.length_eq_zero_iff.1 (Nat.le_zero.1 hlen)
  cases hl
  rw [(sound_initial net).dist_root]
  exact le_rfl

/-- A completed round settles the walks of one arc more. -/
theorem Bounded.succ {k : Nat} (h : paths.Bounded net k)
    (hfall : ∀ v, after.dist v ≤ paths.dist v)
    (hstep : ∀ a ∈ net.arcs, after.dist a.target ≤ paths.dist a.source + a.weight.val) :
    after.Bounded net (k + 1) := by
  intro v l hl hlen
  rcases List.eq_nil_or_concat l with rfl | ⟨l, a, rfl⟩
  · exact (hfall v).trans (h v [] hl (Nat.zero_le k))
  · rw [List.concat_eq_append] at hl hlen ⊢
    obtain ⟨x, hl', ha, hs, rfl⟩ := walk_append_iff.1 hl
    have hshort : l.length ≤ k := by simpa using hlen
    have hprev := h x l hl' hshort
    have := hstep a ha
    rw [hs] at this
    simp only [exactWeight_append, exactWeight_cons, exactWeight_nil]
    omega

end Paths

/-! ### How a search ends -/

/-- What the ways to end a search of `k` rounds say. -/
def Ending.Explains (net : Network w ρ n) (overflow : Overflow) (strategy : Strategy) (k : Nat) :
    Ending w (n + 1) → Prop
  | .settled paths => net.Visits net.arcs paths ∧
      (overflow.NeverHides strategy net.arcs.length → paths.Settled net)
  | .improvable paths target => net.Visits net.arcs paths ∧
      ∃ before : Paths w (n + 1), before.Bounded net k ∧ paths.dist target < before.dist target
  | .underflowed paths target => paths.Underflowed net target
  | .overflowed => ¬overflow.NeverFaults net.arcs.length

namespace Paths

variable {net : Network w ρ n}

theorem detect_explains (hnet : net.Rooted) (overflow : Overflow) (strategy : Strategy) {k : Nat}
    {paths : Paths w (n + 1)} (hv : net.Visits [] paths) (hk : paths.Bounded net k) :
    (paths.detect net.arcs).Explains net overflow strategy k := by
  unfold detect
  rw [lookAgain_eq]
  cases h : paths.sweep [] net.arcs with
  | underflowed after target => exact sweep_underflowed hnet hv rfl h
  | overflowed => exact absurd h (sweep_ne_overflowed net.arcs paths [])
  | completed after out =>
    obtain ⟨hv', _, hstep, hout⟩ := sweep_completed hnet hv rfl h
    rcases hout with ⟨rfl, rfl⟩ | ⟨last, others, rfl, hlt⟩
    · exact ⟨hv', fun _ => hstep⟩
    · exact ⟨hv', paths, hk, hlt⟩

/-- All rounds, those done and those left, count for the way a search ends. -/
theorem explore_explains (hnet : net.Rooted) (overflow : Overflow) (strategy : Strategy) :
    ∀ {rounds k : Nat} {paths : Paths w (n + 1)}, net.Visits [] paths → paths.Bounded net k →
      (explore overflow strategy net.arcs rounds paths).ending.Explains net overflow strategy
        (k + rounds)
  | 0, _, _, hv, hk => detect_explains hnet overflow strategy hv hk
  | rounds + 1, k, paths, hv, hk => by
      obtain ⟨m, hm, hround, hlength⟩ := paths.round_eq overflow net.arcs
      rw [explore, hround]
      cases hcount : overflow.count? m with
      | none => exact fun h => h.count?_ne_none hm hcount
      | some count =>
        cases h : paths.sweep [] net.arcs with
        | underflowed after target => exact sweep_underflowed hnet hv rfl h
        | overflowed => exact absurd h (sweep_ne_overflowed net.arcs paths [])
        | completed after out =>
          obtain ⟨hv', hfall, hstep, hout⟩ := sweep_completed hnet hv rfl h
          dsimp only [Option.elim_some, Sweep.map]
          split
          · rename_i hexit
            obtain ⟨rfl, rfl⟩ := hexit
            refine ⟨hv', fun hhides => ?_⟩
            -- the count is right, so there was no improvement
            obtain rfl := hhides.eq_zero hm hcount
            obtain rfl : out = [] := List.length_eq_zero_iff.1 (hlength after out h)
            rcases hout with ⟨-, rfl⟩ | ⟨last, others, hcons, -⟩
            · exact hstep
            · cases hcons
          · have hrest : Ending.Explains net overflow strategy (k + 1 + rounds) _ :=
              explore_explains hnet overflow strategy hv'.again (hk.succ hfall hstep)
            rwa [Nat.add_right_comm] at hrest

end Paths

theorem Network.shortestPaths_explains {net : Network w ρ n} (hnet : net.Rooted)
    (overflow : Overflow) (strategy : Strategy) :
    (net.shortestPaths overflow strategy).ending.Explains net overflow strategy n := by
  have h : Ending.Explains net overflow strategy (0 + n) _ :=
    Paths.explore_explains hnet overflow strategy .start (Paths.bounded_initial net)
  rwa [Nat.zero_add] at h

end Octagon

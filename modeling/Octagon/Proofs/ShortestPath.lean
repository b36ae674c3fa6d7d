import Octagon.Proofs.Distance

/-!
What the outcomes of a search for shortest paths say. Distances that it takes for settled are exact,
unless the count of a round hid improvements; where it tells of a negative cycle there is one, and
where it gives up a path that repeats no vertex has no representable length.
-/

namespace Octagon

variable {w : Width} {ρ : Type} {n : Nat} {net : Network w ρ n} {overflow : Overflow}
  {strategy : Strategy}

/-- The paths are lightest ones: their lengths are the exact distances, and each vertex but the root
is linked by a tight arc. -/
structure Paths.Exact (net : Network w ρ n) (paths : Paths w (n + 1)) : Prop where
  isDistance : ∀ v, net.IsDistance v (paths.distance v).val
  tight : ∀ v, v ≠ Network.root n → ∃ a ∈ net.arcs, a.target = v ∧
    paths.predecessor v = some a.source ∧
    (paths.distance v).val = (paths.distance a.source).val + a.weight.val

/-- What the outcomes of a search say. -/
def Outcome.Explains (net : Network w ρ n) (overflow : Overflow) (strategy : Strategy) :
    Outcome w (n + 1) → Prop
  | .distances paths => paths.Sound net net.arcs ∧
      (overflow.NeverHides strategy net.arcs.length → paths.Exact net ∧ paths.Settled net)
  | .negativeCycle paths _ => paths.LinksSound net ∧ ¬NoNegativeCycle net.arcs
  | .tooShort target => ∃ l, Walk net.arcs (Network.root n) target l ∧
      (visited (Network.root n) l).Nodup ∧ exactWeight l < w.min
  | .miscounted => ¬overflow.NeverFaults net.arcs.length

/-- The outcome says what the ending does. -/
theorem Ending.Explains.outcome (hnet : net.Rooted) : ∀ {ending : Ending w (n + 1)},
    ending.Explains net overflow strategy n → ending.outcome.Explains net overflow strategy
  | .settled paths, ⟨hv, hset⟩ =>
      have hsound := Paths.Sound.of_visits hnet hv
      ⟨hsound, fun h => ⟨⟨hsound.isDistance hnet (hset h),
        fun _ hv => hsound.exists_tight_arc hnet (hset h) hv⟩, hset h⟩⟩
  | .improvable paths _, ⟨hv, _, hbound, hlt⟩ =>
      have hsound := Paths.Sound.of_visits hnet hv
      ⟨hsound.linksSound,
        hsound.linksSound.not_noNegativeCycle (hsound.leadsIntoCycle hbound hlt)⟩
  | .underflowed paths target, hexp => by
      rw [Ending.outcome]
      split
      · rename_i hc
        have hlinks := Paths.Underflowed.linksSound hnet hexp
        exact ⟨hlinks, hlinks.not_noNegativeCycle hc⟩
      · rename_i hc
        exact Paths.Underflowed.exists_simple_walk hnet hexp (by simpa using hc)
  | .overflowed, hfaults => hfaults

theorem Network.outcome_explains (hnet : net.Rooted) (overflow : Overflow) (strategy : Strategy) :
    (net.shortestPaths overflow strategy).ending.outcome.Explains net overflow strategy :=
  (net.shortestPaths_explains hnet overflow strategy).outcome hnet

/-- From where a negative cycle is said to be near, the links run into a cycle. -/
theorem Network.leadsIntoCycle_of_outcome (hnet : net.Rooted) {paths : Paths w (n + 1)}
    {entry : Fin (n + 1)}
    (h : (net.shortestPaths overflow strategy).ending.outcome = .negativeCycle paths entry) :
    paths.links.leadsIntoCycle entry = true := by
  have hexp := net.shortestPaths_explains hnet overflow strategy
  cases hend : (net.shortestPaths overflow strategy).ending with
  | settled after => rw [hend] at h; cases h
  | improvable after target =>
    rw [hend] at h hexp
    cases h
    obtain ⟨hv, before, hbound, hlt⟩ := hexp
    exact (Paths.Sound.of_visits hnet hv).leadsIntoCycle hbound hlt
  | underflowed after target =>
    rw [hend, Ending.outcome] at h
    split at h
    · rename_i hc
      cases h
      exact hc
    · cases h
  | overflowed => rw [hend] at h; cases h

/-- Settled distances leave no negative cycle. -/
theorem Paths.Settled.noNegativeCycle {paths : Paths w (n + 1)} (h : paths.Settled net) :
    NoNegativeCycle net.arcs := .of_potential h

/-- Exact distances are weights, so none is below the smallest one. -/
theorem Paths.Exact.min_le {paths : Paths w (n + 1)} (h : paths.Exact net) {v : Fin (n + 1)}
    {d : Int} (hd : net.IsDistance v d) : w.min ≤ d := by
  obtain ⟨⟨l, hl, hw⟩, hleast⟩ := h.isDistance v
  obtain ⟨⟨m, hm, rfl⟩, -⟩ := hd
  exact (paths.distance v).min_le.trans (hleast m hm)

/-- The arcs from the root bound all distances. -/
theorem Paths.Exact.dist_le_zero {paths : Paths w (n + 1)} (h : paths.Exact net)
    (hnet : net.Rooted) (v : Fin (n + 1)) : paths.dist v ≤ 0 := by
  have hleast := (h.isDistance v).2
  by_cases hv : v = Network.root n
  · exact hleast [] hv.symm
  · obtain ⟨a, ha, hs, rfl⟩ := hnet.exists_root_arc v hv
    have hle := hleast [a] ⟨ha, hs, rfl⟩
    rwa [exactWeight_cons, hnet.weight_eq_zero a ha hs] at hle

end Octagon

import Octagon.Proofs.Graph.Padding

/-!
Rounds with too many improvements. Each new variable that nothing is said of adds two improvements
to the first round of a search, so there are graphs whose first round improves as often as one
likes. Where it improves 2³¹ times a count that is checked stops the search. Where it improves 2³²
times a count that is not is 0: a search that exits early ends there as if all distances were
settled, and what tightening finds is what it finds under the distances of the first round.
-/

namespace Octagon

variable {w : Width} {ρ : Type}

/-! ### Searches -/

namespace Paths

variable {n : Nat} {paths after : Paths w n} {arcs : List (Arc w ρ n)}

theorem round_of_completed (overflow : Overflow) {out : List (Fin n)}
    (h : paths.sweep [] arcs = .completed after out) :
    paths.round overflow arcs =
      (overflow.count? out.length).elim .overflowed (.completed after) := by
  obtain ⟨k, -, hround, hlength⟩ := paths.round_eq overflow arcs
  rw [hround, h, hlength after out h]
  rfl

theorem round_of_underflowed {target : Fin n}
    (h : paths.sweep [] arcs = .underflowed after target) : paths.round .wrapping arcs = .underflowed after target := by
  obtain ⟨k, -, hround, -⟩ := paths.round_eq .wrapping arcs
  rw [hround, h]
  rfl

end Paths

namespace Network

variable {n : Nat} {net : Network w ρ n} (hn : 0 < n) {after : Paths w (n + 1)}

include hn

/-- A checked count stops the search in a first round of 2³¹ improvements. -/
theorem shortestPaths_of_overflowed {out : List (Fin (n + 1))}
    (h : (Paths.initial w n).sweep [] net.arcs = .completed after out) (hmany : 2 ^ 31 ≤ out.length)
    (strategy : Strategy) : net.shortestPaths .checked strategy = ⟨1, [], .overflowed⟩ := by
  obtain ⟨n, rfl⟩ := Nat.exists_eq_succ_of_ne_zero hn.ne'
  rw [shortestPaths, Paths.explore, Paths.round_of_completed .checked h,
    Overflow.count?_eq_none_iff.2 ⟨rfl, hmany⟩]
  rfl

/-- A search that exits early takes 2³² improvements for none, where counts wrap. -/
theorem shortestPaths_of_hidden {out : List (Fin (n + 1))}
    (h : (Paths.initial w n).sweep [] net.arcs = .completed after out)
    (hmany : 2 ^ 32 ∣ out.length) : net.shortestPaths .wrapping .earlyExit = ⟨1, [0], .settled after⟩ := by
  obtain ⟨n, rfl⟩ := Nat.exists_eq_succ_of_ne_zero hn.ne'
  rw [shortestPaths, Paths.explore, Paths.round_of_completed .wrapping h,
    Overflow.count?_eq_zero_iff.2 (.inr ⟨rfl, hmany⟩)]
  rfl

theorem shortestPaths_of_underflowed {target : Fin (n + 1)}
    (h : (Paths.initial w n).sweep [] net.arcs = .underflowed after target) (strategy : Strategy) :
    net.shortestPaths .wrapping strategy = ⟨1, [], .underflowed after target⟩ := by
  obtain ⟨n, rfl⟩ := Nat.exists_eq_succ_of_ne_zero hn.ne'
  rw [shortestPaths, Paths.explore, Paths.round_of_underflowed h]

end Network

/-! ### First rounds -/

/-- What the first round of a search comes to. -/
inductive FirstRound (ρ : Type) where
  /-- It improves so often, and tightening finds the conflict under the distances it leaves. -/
  | completed (improvements : Nat) (conflict : Except Fault (Option (Conflict ρ)))
  /-- A path underflows, and the links may lead back into a cycle from there. -/
  | underflowed (cyclic : Bool)
  deriving DecidableEq

namespace Graph

/-- What the first round comes to among the vertices of a graph, if it has a network. -/
def firstRound (g : Graph w ρ) (selection : Selection) : Option (FirstRound ρ) :=
  match g.network with
  | .error _ => none
  | .ok net => match (Paths.initial w _).sweep [] net.arcs with
    | .completed after improved =>
      some (.completed improved.length (net.tighten selection after).conflict)
    | .underflowed after target => some (.underflowed (after.links.leadsIntoCycle target))
    | .overflowed => none

namespace IsNetwork

variable {g : Graph w ρ} {net : Network w ρ g.occurrences.size} (h : g.IsNetwork net)
  {selection : Selection}

include h

theorem exists_sweep_of_completed {k : Nat} {conflict : Except Fault (Option (Conflict ρ))}
    (hround : g.firstRound selection = some (.completed k conflict)) : ∃ after improved,
      (Paths.initial w _).sweep [] net.arcs = .completed after improved ∧ improved.length = k ∧
        (net.tighten selection after).conflict = conflict := by
  simp only [firstRound, h.network_eq] at hround
  split at hround
  · rename_i after improved hsweep
    cases hround
    exact ⟨after, improved, hsweep, rfl, rfl⟩
  · cases hround
  · cases hround

theorem exists_sweep_of_underflowed {cyclic : Bool}
    (hround : g.firstRound selection = some (.underflowed cyclic)) : ∃ after target,
      (Paths.initial w _).sweep [] net.arcs = .underflowed after target ∧
        after.links.leadsIntoCycle target = cyclic := by
  simp only [firstRound, h.network_eq] at hround
  split at hround
  · cases hround
  · rename_i after target hsweep
    cases hround
    exact ⟨after, target, hsweep, rfl⟩
  · cases hround

end IsNetwork

/-! ### Graphs with many variables -/

section many

variable (calls : List (Call w ρ)) {n : Nat}
  (hroom : (ofCalls calls).numVariables + n ≤ UInt32.size) {selection : Selection}

include hroom

/-- A first round improves two vertices more for each new variable; tightening finds the same. -/
theorem exists_sweep_of_firstRound {k : Nat} {conflict : Except Fault (Option (Conflict ρ))}
    (hround : (ofCalls calls).firstRound selection = some (.completed k conflict)) :
    ∃ net, (ofCalls (calls ++ List.replicate n .newVariable)).IsNetwork net ∧ ∃ after improved,
      (Paths.initial w _).sweep [] net.arcs = .completed after improved ∧
        improved.length = k + 2 * n ∧ (net.tighten selection after).conflict = conflict := by
  have hpads := pads_ofCalls calls hroom
  have hembeds := embeds_newVariables calls n
  obtain ⟨net, hnet⟩ := (valid_ofCalls calls).exists_isNetwork
  obtain ⟨net', hnet'⟩ :=
    (valid_ofCalls (calls ++ List.replicate n .newVariable)).exists_isNetwork
  obtain ⟨after, improved, hsweep, rfl, rfl⟩ := hnet.exists_sweep_of_completed hround
  obtain ⟨after', improved', hsweep', hlength, hdist⟩ :=
    hpads.exists_sweep_eq_completed hnet hnet' hsweep
  exact ⟨net', hnet', after', improved', hsweep', hlength,
    congrArg Tightened.conflict ((hembeds.network hnet hnet').tighten_eq hdist selection)⟩

theorem occurrences_pos (hn : 0 < n) :
    0 < (ofCalls (calls ++ List.replicate n .newVariable)).occurrences.size := by
  have hsize := (pads_ofCalls calls hroom).numVertices_eq
  simp only [numVertices] at hsize
  omega

/-- With so many new variables that the first round improves 2³¹ times, a checked count stops the
search. -/
theorem exists_overflowed_of_firstRound {k : Nat} {conflict : Except Fault (Option (Conflict ρ))}
    (hround : (ofCalls calls).firstRound selection = some (.completed k conflict)) (hn : 0 < n)
    (hmany : 2 ^ 31 ≤ k + 2 * n) :
    ∃ net, (ofCalls (calls ++ List.replicate n .newVariable)).IsNetwork net ∧ ∀ strategy,
      net.shortestPaths .checked strategy = ⟨1, [], .overflowed⟩ := by
  obtain ⟨net, hnet, after, improved, hsweep, hlength, -⟩ :=
    exists_sweep_of_firstRound calls hroom hround
  exact ⟨net, hnet, Network.shortestPaths_of_overflowed (occurrences_pos calls hroom hn) hsweep
    (hlength ▸ hmany)⟩

/-- With so many new variables that the first round improves 2³² times, a search that exits early
takes its distances for settled, where counts wrap. -/
theorem exists_settled_of_firstRound {k : Nat} {conflict : Except Fault (Option (Conflict ρ))}
    (hround : (ofCalls calls).firstRound selection = some (.completed k conflict)) (hn : 0 < n)
    (hmany : 2 ^ 32 ∣ k + 2 * n) :
    ∃ net, (ofCalls (calls ++ List.replicate n .newVariable)).IsNetwork net ∧ ∃ paths,
      net.shortestPaths .wrapping .earlyExit = ⟨1, [0], .settled paths⟩ ∧
        (net.tighten selection paths).conflict = conflict := by
  obtain ⟨net, hnet, after, improved, hsweep, hlength, hconflict⟩ :=
    exists_sweep_of_firstRound calls hroom hround
  exact ⟨net, hnet, after, Network.shortestPaths_of_hidden (occurrences_pos calls hroom hn) hsweep
    (hlength ▸ hmany), hconflict⟩

/-- New variables change nothing where the first round underflows before it gets to them. -/
theorem exists_negativeCycle_of_firstRound
    (hround : (ofCalls calls).firstRound selection = some (.underflowed true)) (hn : 0 < n) :
    ∃ net, (ofCalls (calls ++ List.replicate n .newVariable)).IsNetwork net ∧ ∃ paths entry,
      ∀ strategy, (net.shortestPaths .wrapping strategy).ending.outcome =
        .negativeCycle paths entry := by
  have hpads := pads_ofCalls calls hroom
  obtain ⟨net, hnet⟩ := (valid_ofCalls calls).exists_isNetwork
  obtain ⟨net', hnet'⟩ :=
    (valid_ofCalls (calls ++ List.replicate n .newVariable)).exists_isNetwork
  obtain ⟨after, target, hsweep, hcyclic⟩ := hnet.exists_sweep_of_underflowed hround
  refine ⟨net', hnet', after.embed hpads.size_le, target.castLE hpads.size_le,
    fun strategy => ?_⟩
  rw [Network.shortestPaths_of_underflowed (occurrences_pos calls hroom hn)
    (hpads.sweep_eq_underflowed hnet hnet' hsweep) strategy]
  exact if_pos (Paths.leadsIntoCycle_embed hpads.size_le after hcyclic)

end many

/-- Nothing but variables, so many that the first round improves 2³¹ vertices. -/
def manyVariables : List (Call .bits8 Nat) := List.replicate (2 ^ 30) .newVariable

theorem numVertices_manyVariables : (ofCalls manyVariables).numVertices = 2 ^ 31 + 1 := by
  have hpads := pads_ofCalls ([] : List (Call .bits8 Nat)) (n := 2 ^ 30) (by decide +kernel)
  rw [List.nil_append] at hpads
  exact hpads.numVertices_eq.trans (by decide +kernel)

theorem exists_overflowed_manyVariables : ∃ net, (ofCalls manyVariables).IsNetwork net ∧
    ∀ strategy, net.shortestPaths .checked strategy = ⟨1, [], .overflowed⟩ := by
  have hround : (ofCalls ([] : List (Call .bits8 Nat))).firstRound .firstViolation =
      some (.completed 0 (.ok none)) := by decide +kernel
  have hstopped := exists_overflowed_of_firstRound [] (n := 2 ^ 30) (by decide +kernel) hround
    (by decide) (by decide)
  rwa [List.nil_append] at hstopped

end Graph

end Octagon

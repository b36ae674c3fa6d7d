import Octagon.Proofs.Miscount

/-!
What a search for shortest paths comes to, as long as its rounds can count their improvements.
Without a negative cycle it finds the exact distances if all of them are weights, and gives up if
one is not. With a negative cycle it never claims to have found distances; it may give up only where
a path that repeats no vertex has no representable length. A round with too many improvements stops
a search that would find the distances.
-/

namespace Octagon.Graph

variable {w : Width} {ρ : Type}

/-- Without negative cycles a search finds exact distances if all of them are weights and gives up
if one is not; with a negative cycle it reports one, or gives up because some path that repeats no
vertex is too short for a weight. This takes rounds that can count their improvements. -/
theorem shortestPaths_trichotomy (calls : List (Call w ρ)) (overflow : Overflow)
    (strategy : Strategy) (hfaults : overflow.NeverFaults (ofCalls calls).numEdges)
    (hhides : overflow.NeverHides strategy (ofCalls calls).numEdges) :
    ∃ net, (ofCalls calls).network = .ok net ∧
      net.arcs.map Arc.edge = (ofCalls calls).edges.toList ∧
      ((NoNegativeCycle net.arcs ∧ ∀ v d, net.IsDistance v d → w.min ≤ d) →
        ∃ paths, (net.shortestPaths overflow strategy).ending.outcome = .distances paths ∧
          paths.Exact net) ∧
      ((NoNegativeCycle net.arcs ∧ ∃ v d, net.IsDistance v d ∧ d < w.min) →
        ∃ target, (net.shortestPaths overflow strategy).ending.outcome = .tooShort target ∧
          ∀ explanation, ((ofCalls calls).solve ⟨strategy, explanation⟩ overflow).answer =
            .error (.tooShort w target)) ∧
      (¬NoNegativeCycle net.arcs →
        (∃ paths entry, (net.shortestPaths overflow strategy).ending.outcome =
          .negativeCycle paths entry) ∨
        ∃ target, (net.shortestPaths overflow strategy).ending.outcome = .tooShort target ∧
          ∃ l, Walk net.arcs (Network.root _) target l ∧
            (visited (Network.root _) l).Nodup ∧ exactWeight l < w.min) := by
  have hvalid := valid_ofCalls calls
  obtain ⟨net, hnet⟩ := hvalid.exists_isNetwork
  rw [← hnet.length_arcs] at hfaults hhides
  have hexp := net.outcome_explains hnet.rooted overflow strategy
  refine ⟨net, hnet.network_eq, hnet.map_edge, ?_⟩
  cases hout : (net.shortestPaths overflow strategy).ending.outcome with
  | distances paths =>
    rw [hout] at hexp
    obtain ⟨hexact, hset⟩ := hexp.2 hhides
    refine ⟨fun _ => ⟨paths, rfl, hexact⟩, ?_, fun hneg => absurd hset.noNegativeCycle hneg⟩
    rintro ⟨_, v, d, hd, hlt⟩
    exact absurd (hexact.min_le hd) (not_le.2 hlt)
  | negativeCycle paths entry =>
    rw [hout] at hexp
    obtain ⟨_, hneg⟩ := hexp
    exact ⟨fun h => absurd h.1 hneg, fun h => absurd h.1 hneg, fun _ => .inl ⟨paths, entry, rfl⟩⟩
  | tooShort target =>
    rw [hout] at hexp
    obtain ⟨l, hl, hsimple, hlt⟩ := hexp
    refine ⟨?_, ?_, fun _ => .inr ⟨target, rfl, l, hl, hsimple, hlt⟩⟩
    · rintro ⟨hnn, hmin⟩
      obtain ⟨d, hd⟩ := hnet.rooted.exists_isDistance hnn target
      have hle := hmin target d hd
      have := hd.2 l hl
      omega
    · rintro -
      refine ⟨target, rfl, fun explanation => ?_⟩
      simp only [solve, hnet.network_eq, hout]
  | miscounted =>
    rw [hout] at hexp
    exact absurd hfaults hexp

/-- Values that start from 0 at the root and rise along no edge by more than its weight leave no
negative cycle and bound the distances. -/
theorem IsNetwork.le_of_potential {g : Graph w ρ} {net : Network w ρ g.occurrences.size}
    (h : g.IsNetwork net) {p : Vertex → Int} (hroot : p root = 0)
    (hp : ∀ e ∈ g.edges.toList, p e.target ≤ p e.source + e.weight.val) :
    NoNegativeCycle net.arcs ∧ ∀ v d, net.IsDistance v d → p v.val ≤ d := by
  have harcs : ∀ a ∈ net.arcs, p a.target.val ≤ p a.source.val + a.weight.val := fun a ha =>
    hp a.edge (h.edge_mem ha)
  refine ⟨.of_potential (d := fun v => p v.val) harcs, ?_⟩
  rintro v d ⟨⟨l, hl, rfl⟩, -⟩
  have hle := hl.le_add (d := fun v => p v.val) harcs
  have hstart : p (Network.root g.occurrences.size).val = 0 := hroot
  rwa [hstart, zero_add] at hle

/-- `y ≤ x - 100`, and nothing more. -/
def descent : List (Call .bits8 Nat) :=
  [.newVariable, .newVariable,
    .addEdge ⟨⟨⟨0⟩, .positive⟩, ⟨⟨1⟩, .positive⟩, (Weight.ofInt? (-100)).getD 0⟩ 1]

theorem exact_descent : (ofCalls descent).numEdges < 2 ^ 31 ∧
    ∃ net, (ofCalls descent).network = .ok net ∧ ∃ paths,
      (net.shortestPaths .checked .earlyExit).ending.outcome = .distances paths ∧
        paths.Exact net := by
  have hedges : (ofCalls descent).numEdges < 2 ^ 31 := by decide +kernel
  obtain ⟨net, hnet, -, hdistances, -⟩ :=
    shortestPaths_trichotomy descent .checked .earlyExit (fun _ => hedges) nofun
  obtain ⟨net', hnet'⟩ := (valid_ofCalls descent).exists_isNetwork
  obtain rfl : net' = net := Except.ok.inj (hnet'.network_eq.symm.trans hnet)
  obtain ⟨hnn, hleast⟩ := hnet'.le_of_potential (p := fun v => if v = 3 then -100 else 0) rfl
    (by decide +kernel)
  refine ⟨hedges, net', hnet, hdistances ⟨hnn, fun v d hd => ?_⟩⟩
  refine le_trans ?_ (hleast v d hd)
  split <;> decide

/-- With too many variables no search finds distances, though all of these are 0. -/
theorem not_distances_manyVariables : ∃ net, (ofCalls manyVariables).network = .ok net ∧
    NoNegativeCycle net.arcs ∧ (∀ v d, net.IsDistance v d → Width.bits8.min ≤ d) ∧
    ∀ strategy paths,
      (net.shortestPaths .checked strategy).ending.outcome ≠ .distances paths := by
  obtain ⟨net, hnet, hstopped⟩ := exists_overflowed_manyVariables
  have hpads := pads_ofCalls ([] : List (Call .bits8 Nat)) (n := 2 ^ 30) (by decide +kernel)
  rw [List.nil_append] at hpads
  have hzero : ∀ e ∈ (ofCalls manyVariables).edges.toList, (0 : Int) ≤ 0 + e.weight.val := by
    intro e he
    rw [manyVariables, hpads.edges_eq, List.mem_append, List.mem_map] at he
    obtain he | ⟨i, -, rfl⟩ := he
    · cases he
    · exact le_rfl
  obtain ⟨hnn, hleast⟩ := hnet.le_of_potential (p := fun _ => 0) rfl hzero
  refine ⟨net, hnet.network_eq, hnn, fun v d hd => le_trans (by decide) (hleast v d hd),
    fun strategy paths => ?_⟩
  rw [hstopped strategy]
  nofun

end Octagon.Graph

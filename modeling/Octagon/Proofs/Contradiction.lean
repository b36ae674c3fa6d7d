import Octagon.Conflict.Basic
import Octagon.Meaning
import Octagon.Proofs.Graph.Network

/-!
Closed walks that no integers satisfy. Along edges that hold, values rise by the weights at most. So
the edges of a closed walk of negative weight say that a value is below itself, and where ways from
`x+` to `x-` and back weigh nothing together, but each is odd, they say that `2x` is odd.
-/

namespace Octagon

variable {w : Width} {ρ : Type}

/-- The arcs among `l` contradict each other in the way that a kind of conflict claims. -/
inductive Network.Contradicts {n : Nat} (net : Network w ρ n) :
    ConflictKind → List (Arc w ρ (n + 1)) → Prop
  | negativeCycle {v : Fin (n + 1)} {l : List (Arc w ρ (n + 1))} : Walk net.arcs v v l →
      exactWeight l < 0 → net.Contradicts .negativeCycle l
  | tightening {x : Split (n + 1)} {l there back : List (Arc w ρ (n + 1))} : x ∈ net.splits →
      Walk net.arcs x.positive x.negative there → Walk net.arcs x.negative x.positive back →
      there ++ back ⊆ l → exactWeight there + exactWeight back = 0 →
      exactWeight there % 2 = 1 → net.Contradicts (.tightening x.var) l

namespace Graph

variable {g : Graph w ρ} {net : Network w ρ g.occurrences.size}

/-- The value of the occurrence of a vertex; 0 for the root. -/
def vertexValue (g : Graph w ρ) (σ : Assignment) : Vertex → Int
  | 0 => 0
  | i + 1 => (g.occurrences[i]?).elim 0 (·.value σ)

theorem Valid.vertexValue_eq (h : g.Valid) {σ : Assignment} {o : Occurrence} {v : Vertex}
    (hv : g.vertex? o = some v) : g.vertexValue σ v = o.value σ := by
  obtain ⟨i, hi, rfl⟩ := (h.vertex?_eq_some_iff o v).1 hv
  simp [vertexValue, hi]

namespace IsNetwork

variable (h : g.IsNetwork net)

include h

/-- Along edges that hold, values rise by the weights at most. -/
theorem value_le_add {σ : Assignment} {u v : Fin (g.occurrences.size + 1)}
    {l : List (Arc w ρ (g.occurrences.size + 1))} (hl : Walk net.arcs u v l)
    (hroot : ∀ a ∈ l, a.source ≠ Network.root _) (hσ : ∀ a ∈ l, g.EdgeHolds σ a.edge) :
    g.vertexValue σ v ≤ g.vertexValue σ u + exactWeight l := by
  have harc : ∀ a ∈ l,
      g.vertexValue σ a.target ≤ g.vertexValue σ a.source + a.weight.val := by
    intro a ha
    obtain ⟨p, q, r, hp, hq, -⟩ := h.exists_bound?_of_arc (hl.mem a ha) (hroot a ha)
    rw [h.valid.vertexValue_eq hp, h.valid.vertexValue_eq hq]
    exact hσ a ha p q hp hq
  exact (hl.mono fun a ha => ha).le_add (d := fun v => g.vertexValue σ v.val) harc

/-- Arcs that contradict each other do not all hold. -/
theorem not_forall_edgeHolds {kind : ConflictKind} {l : List (Arc w ρ (g.occurrences.size + 1))}
    (hl : net.Contradicts kind l) (σ : Assignment) : ¬∀ a ∈ l, g.EdgeHolds σ a.edge := by
  intro hσ
  cases hl with
  | @negativeCycle v _ hl hneg =>
    have hrise := h.value_le_add hl (h.rooted.source_ne_root hl) hσ
    omega
  | @tightening x _ there back hx hthere hback hsub hzero hodd =>
    have hroot := h.rooted.source_ne_root (hthere.append hback)
    have hgo := h.value_le_add hthere (fun a ha => hroot a (List.mem_append_left _ ha))
      fun a ha => hσ a (hsub (List.mem_append_left _ ha))
    have hreturn := h.value_le_add hback (fun a ha => hroot a (List.mem_append_right _ ha))
      fun a ha => hσ a (hsub (List.mem_append_right _ ha))
    obtain ⟨hpos, hneg⟩ := h.vertex?_split hx
    rw [h.valid.vertexValue_eq hpos, h.valid.vertexValue_eq hneg] at hgo hreturn
    -- the two ways pin twice the value of the variable to an odd number
    have hopposite : x.var.negative.value σ = -x.var.positive.value σ :=
      x.var.positive.value_negate σ
    omega

end IsNetwork

end Graph

end Octagon

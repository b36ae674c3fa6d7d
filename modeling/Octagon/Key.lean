import Octagon.Occurrence

/-!
Keys. What is stored at a position is named from outside by a key of its own type, so that the key
of an edge cannot be taken for that of a vertex. All keys but plain numbers have 32 bits, so a
position beyond them loses its high bits on the way to its key.
-/

namespace Octagon

/-- A type of keys that stand for positions. -/
class Key (κ : Type) where
  /-- The position that a key stands for. -/
  index : κ → Nat
  /-- The key of a position. -/
  ofIndex : Nat → κ

instance : Key Nat := ⟨id, id⟩
instance : Key UInt32 := ⟨UInt32.toNat, UInt32.ofNat⟩
instance : Key Variable := ⟨fun x => x.id.toNat, fun i => ⟨UInt32.ofNat i⟩⟩

/-- The key of a vertex. -/
structure VertexId where
  id : UInt32
  deriving DecidableEq

/-- The key of an edge. -/
structure EdgeId where
  id : UInt32
  deriving DecidableEq

instance : Key VertexId := ⟨fun v => v.id.toNat, fun i => ⟨UInt32.ofNat i⟩⟩
instance : Key EdgeId := ⟨fun e => e.id.toNat, fun i => ⟨UInt32.ofNat i⟩⟩

/-- How messages about a cycle call the vertex at a position. -/
def vertexName (v : Nat) : String := s!"v{v}"

/-- How messages about a search call the vertex at a position. -/
def vertexDetail (v : Nat) : String := s!"VertexId \x7b id: {v} \x7d"

/-- How messages call the edge at a position in full. -/
def edgeDetail (e : Nat) : String := s!"EdgeId \x7b id: {e} \x7d"

end Octagon

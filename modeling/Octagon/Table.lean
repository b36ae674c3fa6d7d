import Octagon.Key

/-!
Tables whose entries are addressed by keys, and counters that hand out keys. An entry is read at
the position of its key; a position that the table does not have is refused, and the refusal says
how long the table is.
-/

namespace Octagon

/-- A position that is not below the number of entries. -/
structure IndexError where
  size : Nat
  index : Nat
  deriving DecidableEq

/-- The refusal in words. -/
def IndexError.message (e : IndexError) : String :=
  s!"index out of bounds: the len is {e.size} but the index is {e.index}"

/-- The entry at a position. -/
def entryAt {α : Type} (entries : Array α) (index : Nat) : Except IndexError α :=
  match entries[index]? with
  | some a => .ok a
  | none => .error ⟨entries.size, index⟩

/-- Entries addressed by the keys of `κ`. -/
structure Table (κ α : Type) where
  entries : Array α := #[]

namespace Table

variable {κ α : Type} [Key κ]

/-- The number of entries. -/
def size (t : Table κ α) : Nat := t.entries.size

/-- The table with `a` at its end, and the key of `a`. -/
def push (t : Table κ α) (a : α) : κ × Table κ α := (Key.ofIndex t.size, ⟨t.entries.push a⟩)

/-- The entry with key `k`. -/
def get (t : Table κ α) (k : κ) : Except IndexError α := entryAt t.entries (Key.index k)

/-- The table with `a` in place of the entry with key `k`. -/
def set (t : Table κ α) (k : κ) (a : α) : Except IndexError (Table κ α) := do
  let _ ← t.get k
  return ⟨t.entries.setIfInBounds (Key.index k) a⟩

/-- The keys of all entries, in order. -/
def keys (t : Table κ α) : List κ := (List.range t.size).map Key.ofIndex

end Table

/-- Hands out keys from position 0 on. -/
structure KeyCounter (κ : Type) where
  /-- The number of keys handed out or passed over. -/
  count : Nat := 0

namespace KeyCounter

variable {κ : Type} [Key κ]

/-- The next key. -/
def next (c : KeyCounter κ) : κ × KeyCounter κ := (Key.ofIndex c.count, ⟨c.count + 1⟩)

/-- The counter moved on, where needed, so that `k` lies behind it. -/
def skipPast (c : KeyCounter κ) (k : κ) : KeyCounter κ := ⟨max c.count (Key.index k + 1)⟩

end KeyCounter

end Octagon

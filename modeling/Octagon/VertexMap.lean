/-!
Maps that give a value to each of `n` vertices. A map is read like a function; what `set`, `const`
and the other operations do is said by what is read afterwards.
-/

namespace Octagon

/-- A value for each of `n` vertices. -/
structure VertexMap (n : Nat) (α : Type) where
  values : Vector α n

namespace VertexMap

variable {n : Nat} {α β : Type}

/-- The value of `v`. -/
def get (m : VertexMap n α) (v : Fin n) : α := m.values.get v

instance : CoeFun (VertexMap n α) fun _ => Fin n → α := ⟨get⟩

/-- The same value everywhere. -/
def const (n : Nat) (a : α) : VertexMap n α := ⟨Vector.replicate n a⟩

/-- The values of a function. -/
def ofFn (f : Fin n → α) : VertexMap n α := ⟨Vector.ofFn f⟩

/-- The map with another value at `v`. -/
def set (m : VertexMap n α) (v : Fin n) (a : α) : VertexMap n α := ⟨m.values.set v.val a v.isLt⟩

/-- The map with `f` applied to every value. -/
def map (f : α → β) (m : VertexMap n α) : VertexMap n β := ⟨m.values.map f⟩

@[simp] theorem get_const (a : α) (v : Fin n) : const n a v = a :=
  Vector.getElem_replicate v.isLt

@[simp] theorem get_ofFn (f : Fin n → α) (v : Fin n) : ofFn f v = f v :=
  Vector.getElem_ofFn v.isLt

@[simp] theorem get_map (f : α → β) (m : VertexMap n α) (v : Fin n) : m.map f v = f (m v) :=
  Vector.getElem_map f v.isLt

/-- After a value is set at `u`, `u` has it and every other vertex has the value it had. -/
theorem get_set (m : VertexMap n α) (u v : Fin n) (a : α) :
    m.set u a v = if u = v then a else m v := by
  have h : m.set u a v = if u.val = v.val then a else m v := Vector.getElem_set u.isLt v.isLt
  rw [h, ite_cond_congr (propext Fin.val_inj)]

@[simp] theorem get_set_self (m : VertexMap n α) (v : Fin n) (a : α) : m.set v a v = a := by
  rw [get_set, if_pos rfl]

theorem get_set_of_ne (m : VertexMap n α) {u v : Fin n} (h : u ≠ v) (a : α) :
    m.set u a v = m v := by
  rw [get_set, if_neg h]

/-- To set a value that is there already changes nothing. -/
@[simp] theorem get_set_get (m : VertexMap n α) (u v : Fin n) : m.set u (m u) v = m v := by
  rw [get_set]
  split
  · rename_i h
    rw [h]
  · rfl

end VertexMap

end Octagon

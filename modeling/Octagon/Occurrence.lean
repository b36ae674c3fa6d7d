/-!
Variables and their two signed occurrences. The occurrence `x+` stands for the value of `x` and the
occurrence `x-` for its negation, so a constraint on a sum of variables becomes one on a difference
of occurrences.
-/

namespace Octagon

/-- A variable, known by its number. -/
structure Variable where
  id : UInt32
  deriving DecidableEq

/-- The sign of an occurrence. -/
inductive Polarity where
  | positive | negative
  deriving DecidableEq

/-- A variable with a sign. -/
structure Occurrence where
  var : Variable
  polarity : Polarity
  deriving DecidableEq

namespace Variable

/-- The occurrence that stands for the variable. -/
def positive (x : Variable) : Occurrence := ⟨x, .positive⟩

/-- The occurrence that stands for the negated variable. -/
def negative (x : Variable) : Occurrence := ⟨x, .negative⟩

/-- The variable as constraints write it. -/
def text (x : Variable) : String := s!"x{x.id.toNat}"

end Variable

namespace Polarity

/-- The other sign. -/
def flip : Polarity → Polarity
  | positive => negative
  | negative => positive

/-- The sign that follows a variable. -/
def sign : Polarity → String
  | positive => "+"
  | negative => "-"

/-- The sign in a word. -/
def name : Polarity → String
  | positive => "Positive"
  | negative => "Negative"

/-- Positive comes before negative. -/
def rank : Polarity → Nat
  | positive => 0
  | negative => 1

end Polarity

instance : Ord Variable := ⟨fun x y => compare x.id y.id⟩
instance : Ord Polarity := ⟨fun p q => compare p.rank q.rank⟩

namespace Occurrence

/-- The occurrence of the same variable with the other sign. -/
def negate (o : Occurrence) : Occurrence := ⟨o.var, o.polarity.flip⟩

/-- The place of the occurrence among all, by variable and then positive before negative. -/
def rank (o : Occurrence) : Nat := 2 * o.var.id.toNat + o.polarity.rank

instance : Ord Occurrence := ⟨fun a b => compare a.rank b.rank⟩

/-- The variable followed by the sign. -/
def text (o : Occurrence) : String := o.var.text ++ o.polarity.sign

/-- To negate twice changes nothing. -/
@[simp] theorem negate_negate (o : Occurrence) : o.negate.negate = o := by
  obtain ⟨x, p⟩ := o
  cases p <;> rfl

/-- No two occurrences share a place. -/
theorem rank_inj {a b : Occurrence} : a.rank = b.rank ↔ a = b := by
  refine ⟨fun h => ?_, congrArg rank⟩
  obtain ⟨⟨i⟩, p⟩ := a
  obtain ⟨⟨j⟩, q⟩ := b
  have hp : p.rank < 2 := by cases p <;> decide
  have hq : q.rank < 2 := by cases q <;> decide
  simp only [rank] at h
  have hij : i = j := UInt32.toNat_inj.1 (by omega)
  have hpq : p.rank = q.rank := by omega
  subst hij
  cases p <;> cases q <;> simp_all [Polarity.rank]

end Occurrence

end Octagon

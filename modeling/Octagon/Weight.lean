/-!
Weights are the integers of one fixed signed width: the bounds of constraints, the weights of edges
and the distances between vertices. Arithmetic that leaves the range gives `none`; only `combine`,
the addition of path lengths, stays at the top of the range instead. The largest weight doubles as
the length of a path that is not known yet.
-/

namespace Octagon

/-- The signed widths that weights come in; `word` is the width of a machine word. -/
inductive Width where
  | bits8 | bits16 | bits32 | bits64 | bits128 | word
  deriving DecidableEq

namespace Width

/-- The number of bits, sign included. -/
def bits : Width → Nat
  | bits8 => 8
  | bits16 => 16
  | bits32 => 32
  | bits64 | word => 64
  | bits128 => 128

/-- How messages call the width. -/
def name : Width → String
  | bits8 => "i8"
  | bits16 => "i16"
  | bits32 => "i32"
  | bits64 => "i64"
  | bits128 => "i128"
  | word => "isize"

/-- Every width, from the narrowest on. -/
def all : List Width := [bits8, bits16, bits32, bits64, bits128, word]

/-- The number of negative integers of the width: half of all its integers. -/
def half (w : Width) : Nat := 1 <<< (w.bits - 1)

/-- The smallest integer of the width. -/
def min (w : Width) : Int := -w.half

/-- The largest integer of the width. -/
def max (w : Width) : Int := w.half - 1

theorem min_neg (w : Width) : w.min < 0 := by cases w <;> decide

theorem max_pos (w : Width) : 0 < w.max := by cases w <;> decide

/-- There is one more negative integer than there are positive ones. -/
theorem max_eq (w : Width) : w.max = -w.min - 1 := by simp [max, min]

end Width

/-- An integer in the range of a width. -/
@[ext] structure Weight (w : Width) where
  val : Int
  min_le : w.min ≤ val
  le_max : val ≤ w.max
  deriving DecidableEq

namespace Weight

variable {w : Width}

instance : LT (Weight w) := ⟨fun a b => a.val < b.val⟩
instance : LE (Weight w) := ⟨fun a b => a.val ≤ b.val⟩
instance (a b : Weight w) : Decidable (a < b) := inferInstanceAs (Decidable (a.val < b.val))
instance (a b : Weight w) : Decidable (a ≤ b) := inferInstanceAs (Decidable (a.val ≤ b.val))

instance : Zero (Weight w) := ⟨⟨0, Int.le_of_lt w.min_neg, Int.le_of_lt w.max_pos⟩⟩

/-- The largest weight. -/
def max : Weight w :=
  ⟨w.max, Int.le_trans (Int.le_of_lt w.min_neg) (Int.le_of_lt w.max_pos), Int.le_refl w.max⟩

/-- The weight with the value `n`, if the width has it. -/
def ofInt? (n : Int) : Option (Weight w) :=
  if h : w.min ≤ n ∧ n ≤ w.max then some ⟨n, h.1, h.2⟩ else none

/-- The weight in decimal. -/
def text (a : Weight w) : String := toString a.val

/-- The sum, if it is in the range. -/
def add? (a b : Weight w) : Option (Weight w) := ofInt? (a.val + b.val)

/-- The difference, if it is in the range. -/
def sub? (a b : Weight w) : Option (Weight w) := ofInt? (a.val - b.val)

/-- The negation, if it is in the range: only the smallest weight has none. -/
def neg? (a : Weight w) : Option (Weight w) := ofInt? (-a.val)

/-- Twice the weight, if it is in the range. -/
def double? (a : Weight w) : Option (Weight w) := a.add? a

/-- Whether the weight is odd, negative ones included. -/
def isOdd (a : Weight w) : Bool := a.val % 2 == 1

/-- Whether two weights differ by an odd number, be the difference in the range or not. -/
def differsOddly (a b : Weight w) : Bool := a.isOdd != b.isOdd

/-- The length of a path of length `a` that goes on with weight `b`. It stays at the largest weight
where the sum is above it, and a path that is there already stays there. Below the smallest weight
there is no length: to stay there would pin a distance that can still decrease. -/
def combine (a b : Weight w) : Option (Weight w) :=
  if a = max then some max
  else match a.add? b with
    | some sum => some sum
    | none => if 0 < b then some max else none

/-- The sum from left to right, if every partial sum is in the range. -/
def sum? (weights : List (Weight w)) : Option (Weight w) := weights.foldlM add? 0

@[simp] theorem zero_val : (0 : Weight w).val = 0 := rfl

theorem lt_iff {a b : Weight w} : a < b ↔ a.val < b.val := Iff.rfl

/-- The weight with a value is the one that has it. -/
theorem ofInt?_eq_some_iff {n : Int} {a : Weight w} : ofInt? n = some a ↔ a.val = n := by
  unfold ofInt?
  constructor
  · intro h
    split at h
    · cases h; rfl
    · cases h
  · rintro rfl
    rw [dif_pos ⟨a.min_le, a.le_max⟩]

/-- Exactly the integers outside the range have no weight. -/
theorem ofInt?_eq_none_iff {n : Int} :
    (ofInt? n : Option (Weight w)) = none ↔ n < w.min ∨ w.max < n := by
  unfold ofInt?
  split <;> simp <;> omega

theorem add?_eq_some_iff {a b c : Weight w} : a.add? b = some c ↔ c.val = a.val + b.val :=
  ofInt?_eq_some_iff

theorem sub?_eq_some_iff {a b c : Weight w} : a.sub? b = some c ↔ c.val = a.val - b.val :=
  ofInt?_eq_some_iff

theorem differsOddly_iff {a b : Weight w} : a.differsOddly b = true ↔ (b.val - a.val) % 2 = 1 := by
  have ha : a.val % 2 = 0 ∨ a.val % 2 = 1 := by omega
  have hb : b.val % 2 = 0 ∨ b.val % 2 = 1 := by omega
  rcases ha with ha | ha <;> rcases hb with hb | hb <;> simp [differsOddly, isOdd, ha, hb] <;> omega

/-- A path of length at most 0 never gets too long for the width, so what it is prolonged to is the
exact sum, if there is any. -/
theorem combine_eq_some_iff {a b c : Weight w} (ha : a.val ≤ 0) :
    a.combine b = some c ↔ c.val = a.val + b.val := by
  have hmax : a ≠ max := by
    rintro rfl
    exact absurd ha (Int.not_le.2 w.max_pos)
  rw [combine, if_neg hmax]
  cases hs : a.add? b with
  | some sum =>
    have hsum := add?_eq_some_iff.1 hs
    simp only [Option.some.injEq, Weight.ext_iff]
    omega
  | none =>
    have hout := ofInt?_eq_none_iff.1 hs
    have hb : ¬0 < b := by
      have := b.le_max
      have := a.min_le
      rw [lt_iff, zero_val]
      omega
    have := b.le_max
    have := c.min_le
    simp only [if_neg hb, reduceCtorEq, false_iff]
    omega

/-- A path of length at most 0 has no prolongation exactly where the sum is below every weight. -/
theorem combine_eq_none_iff {a b : Weight w} (ha : a.val ≤ 0) :
    a.combine b = none ↔ a.val + b.val < w.min := by
  constructor
  · intro h
    refine Decidable.byContradiction fun hlt => ?_
    have hle : a.val + b.val ≤ w.max := by
      have := b.le_max
      omega
    have hsum := (combine_eq_some_iff (c := ⟨_, Int.not_lt.1 hlt, hle⟩) ha).2 rfl
    rw [h] at hsum
    cases hsum
  · intro h
    cases hc : a.combine b with
    | none => rfl
    | some c =>
      have := (combine_eq_some_iff ha).1 hc
      have := c.min_le
      omega

end Weight

end Octagon

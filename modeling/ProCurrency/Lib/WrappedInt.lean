import Mathlib.Algebra.Order.Ring.Int

/-!
# Wrapped integers

A 64-bit number that stands for an integer is the image of that integer under `Int64.ofInt`, which respects sums
and differences. Below the range the image can only be larger than the integer, and from the range on upwards only
smaller.
-/

namespace WrappedInt

/-- The image of an integer that does not lie below the range is not above it. -/
theorem toInt_ofInt_le {x : Int} (h : -2 ^ 63 ≤ x) : (Int64.ofInt x).toInt ≤ x := by
  rcases lt_or_ge x (2 ^ 63) with hlt | hge
  · rw [Int64.toInt_ofInt_of_le h hlt]
  · have hmax := (Int64.ofInt x).toInt_lt
    omega

theorem ofInt_toInt_add (a b : Int64) : a + b = Int64.ofInt (a.toInt + b.toInt) := by
  rw [Int64.ofInt_add, Int64.ofInt_toInt, Int64.ofInt_toInt]

theorem ofInt_toInt_sub (a b : Int64) : a - b = Int64.ofInt (a.toInt - b.toInt) := by
  rw [Int64.ofInt_sub, Int64.ofInt_toInt, Int64.ofInt_toInt]

theorem ofInt_toInt_mul (a b : Int64) : a * b = Int64.ofInt (a.toInt * b.toInt) := by
  rw [Int64.ofInt_mul, Int64.ofInt_toInt, Int64.ofInt_toInt]

/-- A product that fits. -/
theorem toInt_mul_of_lt {a b : Int64} (h : 0 ≤ a.toInt * b.toInt) (hlt : a.toInt * b.toInt < 2 ^ 63) :
    (a * b).toInt = a.toInt * b.toInt := by
  rw [ofInt_toInt_mul]
  exact Int64.toInt_ofInt_of_le (by omega) hlt

/-- One step of a running sum, and the rest of the sum. -/
theorem ofInt_toInt_add_add (a b : Int64) (x : Int) :
    Int64.ofInt ((a + b).toInt + x) = Int64.ofInt (a.toInt + (b.toInt + x)) := by
  rw [Int64.ofInt_add, Int64.ofInt_toInt, ← Int.add_assoc, Int64.ofInt_add, ← ofInt_toInt_add]

/-- A sum of two numbers of the upper half comes out negative. -/
theorem toInt_add_eq_or_neg {a b : Int64} (ha : 0 ≤ a.toInt) (hb : 0 ≤ b.toInt) :
    (a + b).toInt = a.toInt + b.toInt ∨ (a + b).toInt < 0 := by
  have hamax := a.toInt_lt
  have hbmax := b.toInt_lt
  rw [ofInt_toInt_add]
  rcases lt_or_ge (a.toInt + b.toInt) (2 ^ 63) with hlt | hge
  · exact Or.inl (Int64.toInt_ofInt_of_le (by omega) hlt)
  · right
    rw [Int64.toInt_ofInt, Int.bmod_def]
    have hsize : (Int64.size : Int) = 2 ^ 64 := rfl
    rw [hsize]
    split_ifs <;> omega

/-- A difference that the types do not wrap: both numbers are not negative. -/
theorem toInt_sub_of_nonneg {a b : Int64} (ha : 0 ≤ a.toInt) (hb : 0 ≤ b.toInt) :
    (a - b).toInt = a.toInt - b.toInt := by
  have hamax := a.toInt_lt
  have hbmax := b.toInt_lt
  rw [ofInt_toInt_sub]
  exact Int64.toInt_ofInt_of_le (by omega) (by omega)

theorem toInt_min (a b : Int64) : (min a b).toInt = min a.toInt b.toInt := by
  change (if a ≤ b then a else b).toInt = _
  split_ifs with hle
  · exact (min_eq_left (Int64.le_iff_toInt_le.1 hle)).symm
  · exact (min_eq_right (Int.le_of_lt (Int.not_le.1 fun h => hle (Int64.le_iff_toInt_le.2 h)))).symm

theorem toInt_max (a b : Int64) : (max a b).toInt = max a.toInt b.toInt := by
  change (if a ≤ b then b else a).toInt = _
  split_ifs with hle
  · exact (max_eq_right (Int64.le_iff_toInt_le.1 hle)).symm
  · exact (max_eq_left (Int.le_of_lt (Int.not_le.1 fun h => hle (Int64.le_iff_toInt_le.2 h)))).symm

/-! ## Sums that fit -/

/-- An addition that does not overflow. -/
def AddFits (a b : Int64) : Prop := -2 ^ 63 ≤ a.toInt + b.toInt ∧ a.toInt + b.toInt < 2 ^ 63

instance (a b : Int64) : Decidable (AddFits a b) :=
  inferInstanceAs (Decidable (-2 ^ 63 ≤ a.toInt + b.toInt ∧ a.toInt + b.toInt < 2 ^ 63))

theorem AddFits.toInt_add {a b : Int64} (h : AddFits a b) : (a + b).toInt = a.toInt + b.toInt := by
  rw [ofInt_toInt_add]
  exact Int64.toInt_ofInt_of_le h.1 h.2

/-- To a number that is not negative, an addition can only overflow upwards. -/
theorem addFits_iff_of_nonneg {a b : Int64} (ha : 0 ≤ a.toInt) : AddFits a b ↔ a.toInt + b.toInt < 2 ^ 63 := by
  have hb := b.le_toInt
  constructor
  · intro h
    exact h.2
  · intro h
    exact ⟨by omega, h⟩

/-- What overflows upwards comes out negative. -/
theorem addFits_of_nonneg {a b : Int64} (ha : 0 ≤ a.toInt) (h : 0 ≤ (a + b).toInt) : AddFits a b := by
  rw [addFits_iff_of_nonneg ha]
  by_contra hlarge
  rw [Int.not_lt] at hlarge
  have hamax := a.toInt_lt
  have hbmax := b.toInt_lt
  have hb : 0 ≤ b.toInt := by omega
  rcases toInt_add_eq_or_neg ha hb with heq | hneg
  · have hmax := (a + b).toInt_lt
    omega
  · omega

end WrappedInt

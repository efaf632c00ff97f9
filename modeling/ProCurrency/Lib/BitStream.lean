import Mathlib.Data.Nat.Bitwise
import Mathlib.Tactic.Common

/-!
# Bytes as a stream of bits

The most significant bit of a byte is the first. A window is a group of bits as a number.
-/

namespace ProCurrency

namespace BitStream

variable {v w : List UInt8} {s j o : Nat}

/-- Bit `j` of the stream; past the end the bits are clear. -/
def bitAt (v : List UInt8) (j : Nat) : Bool := (v.getD (j / 8) 0).toNat.testBit (7 - j % 8)

/-- `v[s] |= o`: of `o` only the low byte counts. -/
def orByte (v : List UInt8) (s o : Nat) : List UInt8 := v.modify s (· ||| UInt8.ofNat o)

@[simp] theorem length_orByte (v : List UInt8) (s o : Nat) : (orByte v s o).length = v.length := List.length_modify ..

theorem testBit_toNat_ofNat (o b : Nat) : (UInt8.ofNat o).toNat.testBit b = (decide (b < 8) && o.testBit b) := by
  rw [UInt8.toNat_ofNat', Nat.testBit_mod_two_pow]

theorem bitAt_orByte (hs : s < v.length) :
    bitAt (orByte v s o) j = (bitAt v j || (decide (j / 8 = s) && o.testBit (7 - j % 8))) := by
  have hbit : 7 - j % 8 < 8 := Nat.lt_succ_of_le (Nat.sub_le 7 _)
  rw [bitAt, bitAt, orByte, List.getD_eq_getElem?_getD, List.getD_eq_getElem?_getD, List.getElem?_modify]
  by_cases hj : j / 8 = s
  · subst hj
    rw [List.getElem?_eq_getElem hs]
    simp only [if_true, Option.map_eq_map, Option.map_some, Option.getD_some, UInt8.toNat_or, Nat.testBit_or,
      testBit_toNat_ofNat, hbit, decide_true, Bool.true_and]
  · have hj' : ¬s = j / 8 := fun h => hj h.symm
    simp [hj, hj']

theorem bitAt_replicate_zero (n j : Nat) : bitAt (List.replicate n 0) j = false := by
  rw [bitAt, List.getD_eq_getElem?_getD, List.getElem?_replicate]
  split
  · exact Nat.zero_testBit _
  · exact Nat.zero_testBit _

theorem bitAt_append (hj : j < 8 * v.length) : bitAt (v ++ w) j = bitAt v j := by
  have hs : j / 8 < v.length := by omega
  rw [bitAt, bitAt, List.getD_append _ _ _ _ hs]

theorem testBit_of_lt_width {width : Nat} (ho : o < 2 ^ width) {b : Nat} (hb : width ≤ b) : o.testBit b = false :=
  Nat.testBit_lt_two_pow (Nat.lt_of_lt_of_le ho (Nat.pow_le_pow_right (Nat.zero_lt_succ 1) hb))

/-- Numbers of one width are the same when their bits are, the most significant one first. -/
theorem eq_of_window (width : Nat) {o o' : Nat} (ho : o < 2 ^ width) (ho' : o' < 2 ^ width)
    (h : ∀ t < width, o.testBit (width - 1 - t) = o'.testBit (width - 1 - t)) : o = o' := by
  refine Nat.eq_of_testBit_eq fun b => ?_
  rcases Nat.lt_or_ge b width with hb | hb
  · have hwindow := h (width - 1 - b) (by omega)
    rw [Nat.sub_sub_self (Nat.le_sub_one_of_lt hb)] at hwindow
    exact hwindow
  · rw [testBit_of_lt_width ho hb, testBit_of_lt_width ho' hb]

end BitStream

end ProCurrency

/-!
## Marks in bytes

Bytes as an array of bits, the least significant bit of a byte first, in which positions are marked and never cleared.
-/

namespace BitMarks

variable {v : List UInt8} {j k : Nat} {js ks : List Nat}

/-- `v[j >> 3] & (1 << (7 & j))`; past the end nothing is marked. -/
def marked (v : List UInt8) (j : Nat) : Bool := (v.getD (j / 8) 0).toNat.testBit (j % 8)

/-- `v[j >> 3] |= (1 << (7 & j))`. -/
def mark (v : List UInt8) (j : Nat) : List UInt8 := v.modify (j / 8) (· ||| UInt8.ofNat (1 <<< (j % 8)))

def markAll (v : List UInt8) (js : List Nat) : List UInt8 := js.foldl mark v

/-- Every one of the positions is marked. -/
def sees (v : List UInt8) (js : List Nat) : Bool := js.all (marked v)

@[simp] theorem length_mark (v : List UInt8) (j : Nat) : (mark v j).length = v.length := List.length_modify ..

@[simp] theorem length_markAll (v : List UInt8) (js : List Nat) : (markAll v js).length = v.length := by
  induction js generalizing v with
  | nil => rfl
  | cons j js ih => exact (ih (mark v j)).trans (length_mark v j)

theorem testBit_one_shift (hj : j < 8) (k : Nat) : (UInt8.ofNat (1 <<< j)).toNat.testBit k = decide (j = k) := by
  rw [UInt8.toNat_ofNat', Nat.one_shiftLeft, Nat.mod_eq_of_lt (Nat.pow_lt_pow_right (Nat.lt_succ_self 1) hj),
    Nat.testBit_two_pow]

theorem marked_mark (hj : j / 8 < v.length) : marked (mark v j) k = (marked v k || decide (k = j)) := by
  rw [marked, marked, mark, List.getD_eq_getElem?_getD, List.getD_eq_getElem?_getD, List.getElem?_modify]
  by_cases hbyte : k / 8 = j / 8
  · have hsame : decide (j % 8 = k % 8) = decide (k = j) := decide_eq_decide.2 (by omega)
    simp only [hbyte, List.getElem?_eq_getElem hj, if_true, Option.map_eq_map, Option.map_some, Option.getD_some,
      UInt8.toNat_or, Nat.testBit_or, testBit_one_shift (Nat.mod_lt j (Nat.zero_lt_succ 7)), hsame]
  · have hne : k ≠ j := fun h => hbyte (h ▸ rfl)
    simp [Ne.symm hbyte, hne]

theorem marked_markAll (hjs : ∀ j ∈ js, j / 8 < v.length) : marked (markAll v js) k = (marked v k || decide (k ∈ js)) := by
  induction js generalizing v with
  | nil => simp [markAll]
  | cons j js ih =>
      have htail : ∀ j' ∈ js, j' / 8 < (mark v j).length := fun j' hj' =>
        (length_mark v j).symm ▸ hjs j' (List.mem_cons_of_mem _ hj')
      rw [markAll, List.foldl_cons, ← markAll, ih htail, marked_mark (hjs j List.mem_cons_self)]
      simp [Bool.or_assoc]

/-- What is marked is seen. -/
theorem sees_markAll (hjs : ∀ j ∈ js, j / 8 < v.length) : sees (markAll v js) js = true := by
  refine List.all_eq_true.2 fun j hj => ?_
  rw [marked_markAll hjs, decide_eq_true hj, Bool.or_true]

/-- What is seen is seen with more marks. -/
theorem sees_markAll_of_sees (hjs : ∀ j ∈ js, j / 8 < v.length) (h : sees v ks = true) : sees (markAll v js) ks = true := by
  refine List.all_eq_true.2 fun k hk => ?_
  rw [marked_markAll hjs, List.all_eq_true.1 h k hk, Bool.true_or]

/-- Nothing is marked in clear bytes, and they are the only ones. -/
theorem clear_iff : (∀ byte ∈ v, byte = 0) ↔ ∀ k, marked v k = false := by
  constructor
  · intro hv k
    have hclear : v.getD (k / 8) 0 = 0 := by
      rw [List.getD_eq_getElem?_getD]
      cases hbyte : v[k / 8]? with
      | none => rfl
      | some byte => exact hv byte (List.mem_of_getElem? hbyte)
    rw [marked, hclear]
    exact Nat.zero_testBit _
  · intro hmarked byte hmem
    obtain ⟨i, hi, rfl⟩ := List.getElem_of_mem hmem
    refine UInt8.toNat_inj.1 (Nat.eq_of_testBit_eq fun b => ?_)
    rw [UInt8.toNat_zero, Nat.zero_testBit]
    rcases Nat.lt_or_ge b 8 with hb | hb
    · have hbit := hmarked (8 * i + b)
      have hbyte : (8 * i + b) / 8 = i := by omega
      have hwithin : (8 * i + b) % 8 = b := by omega
      rwa [marked, hbyte, hwithin, List.getD_eq_getElem _ _ hi] at hbit
    · exact Nat.testBit_lt_two_pow (Nat.lt_of_lt_of_le v[i].toNat_lt (Nat.pow_le_pow_right Nat.zero_lt_two hb))

/-- Clear bytes show no position. -/
theorem not_sees_of_clear (hv : ∀ byte ∈ v, byte = 0) (hjs : js ≠ []) : sees v js = false := by
  obtain ⟨j, js, rfl⟩ := List.exists_cons_of_ne_nil hjs
  rw [sees, List.all_cons, clear_iff.1 hv j, Bool.false_and]

/-- Bytes that are clear with more marks were clear before. -/
theorem clear_of_markAll (hjs : ∀ j ∈ js, j / 8 < v.length) (h : ∀ byte ∈ markAll v js, byte = 0) :
    ∀ byte ∈ v, byte = 0 := by
  refine clear_iff.2 fun k => ?_
  have hmarked := clear_iff.1 h k
  rw [marked_markAll hjs] at hmarked
  exact (Bool.or_eq_false_iff.1 hmarked).1

end BitMarks

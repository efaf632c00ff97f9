import Mathlib.Algebra.BigOperators.Group.Finset.Basic
import Mathlib.Algebra.BigOperators.Ring.Finset
import Mathlib.Tactic.Ring

/-!
# Bijective numerals

In a bijective numeral a digit stands for one more than it is, so that there is exactly one numeral for a number, and no
digits in front change nothing. The digits are in order with the least significant one first.
-/

namespace BijectiveDigits

variable {b d e : Nat} {ds es : List Nat}

def ofDigits (b : Nat) : List Nat → Nat
  | [] => 0
  | d :: ds => d + 1 + b * ofDigits b ds

/-- The numeral of `n + 1`: one is subtracted from what is left of `n` before each further digit. -/
def digits (b n : Nat) : List Nat :=
  if h : n < b ∨ b = 0 then [n]
  else
    have : n / b - 1 < n := by
      have hle := Nat.div_le_self n b
      omega
    n % b :: digits b (n / b - 1)

@[simp] theorem ofDigits_nil (b : Nat) : ofDigits b [] = 0 := rfl

theorem ofDigits_cons (b d : Nat) (ds : List Nat) : ofDigits b (d :: ds) = d + 1 + b * ofDigits b ds := rfl

theorem ofDigits_singleton (b d : Nat) : ofDigits b [d] = d + 1 := by
  rw [ofDigits_cons, ofDigits_nil, Nat.mul_zero, Nat.add_zero]

/-- Each digit with its weight. -/
theorem ofDigits_eq_sum (b : Nat) (ds : List Nat) :
    ofDigits b ds = ∑ i ∈ Finset.range ds.length, b ^ i * (ds.getD i 0 + 1) := by
  induction ds with
  | nil => rfl
  | cons d ds ih =>
      rw [ofDigits_cons, ih, List.length_cons, Finset.sum_range_succ', Finset.mul_sum, Nat.add_comm]
      congr 1
      · refine Finset.sum_congr rfl fun i _ => ?_
        rw [List.getD_cons_succ, pow_succ]
        ring
      · simp

/-- Two numerals of one number are the same. -/
theorem ofDigits_injective (hds : ∀ d ∈ ds, d < b) (hes : ∀ e ∈ es, e < b) (h : ofDigits b ds = ofDigits b es) :
    ds = es := by
  induction ds generalizing es with
  | nil =>
      cases es with
      | nil => rfl
      | cons e es =>
          rw [ofDigits_nil, ofDigits_cons] at h
          omega
  | cons d ds ih =>
      cases es with
      | nil =>
          rw [ofDigits_nil, ofDigits_cons] at h
          omega
      | cons e es =>
          obtain ⟨hd, hds⟩ := List.forall_mem_cons.1 hds
          obtain ⟨he, hes⟩ := List.forall_mem_cons.1 hes
          rw [ofDigits_cons, ofDigits_cons] at h
          have hsame : d + b * ofDigits b ds = e + b * ofDigits b es := by omega
          have hlow := congrArg (· % b) hsame
          have hhigh := congrArg (· / b) hsame
          have hb : 0 < b := Nat.zero_lt_of_lt hd
          simp only [Nat.add_mul_mod_self_left, Nat.mod_eq_of_lt hd, Nat.mod_eq_of_lt he] at hlow
          simp only [Nat.add_mul_div_left _ _ hb, Nat.div_eq_of_lt hd, Nat.div_eq_of_lt he, Nat.zero_add] at hhigh
          rw [hlow, ih hds hes hhigh]

/-! ## The numeral of a number -/

theorem digits_of_lt {n : Nat} (h : n < b) : digits b n = [n] := by
  rw [digits, dif_pos (Or.inl h)]

theorem digits_of_le {n : Nat} (hb : 0 < b) (h : b ≤ n) : digits b n = n % b :: digits b (n / b - 1) := by
  rw [digits, dif_neg (by omega)]

theorem digits_ne_nil (b n : Nat) : digits b n ≠ [] := by
  rw [digits]
  split
  · exact List.cons_ne_nil _ _
  · exact List.cons_ne_nil _ _

theorem lt_of_mem_digits {n : Nat} (hb : 0 < b) (h : d ∈ digits b n) : d < b := by
  induction n using Nat.strongRecOn with
  | ind n ih =>
      rcases Nat.lt_or_ge n b with hlt | hle
      · rw [digits_of_lt hlt, List.mem_singleton] at h
        exact h ▸ hlt
      · rw [digits_of_le hb hle] at h
        have hless : n / b - 1 < n := by
          have hdiv := Nat.div_le_self n b
          omega
        rcases List.mem_cons.1 h with rfl | h
        · exact Nat.mod_lt n hb
        · exact ih (n / b - 1) hless h

theorem ofDigits_digits (hb : 0 < b) (n : Nat) : ofDigits b (digits b n) = n + 1 := by
  induction n using Nat.strongRecOn with
  | ind n ih =>
      rcases Nat.lt_or_ge n b with hlt | hle
      · rw [digits_of_lt hlt, ofDigits_singleton]
      · have hpos : 0 < n / b := Nat.div_pos hle hb
        have hless : n / b - 1 < n := by
          have hdiv := Nat.div_le_self n b
          omega
        have hsplit := Nat.mod_add_div n b
        rw [digits_of_le hb hle, ofDigits_cons, ih (n / b - 1) hless, Nat.sub_add_cancel hpos]
        omega

/-- The leading digit stands for one at least. -/
theorem pow_le_ofDigits (b : Nat) (hne : ds ≠ []) : b ^ (ds.length - 1) ≤ ofDigits b ds := by
  induction ds with
  | nil => exact absurd rfl hne
  | cons d ds ih =>
      rw [ofDigits_cons, List.length_cons, Nat.add_sub_cancel]
      cases ds with
      | nil => simp
      | cons e es =>
          have hrest := Nat.mul_le_mul_left b (ih (List.cons_ne_nil _ _))
          rw [List.length_cons, Nat.add_sub_cancel, ← pow_succ'] at hrest
          exact hrest.trans (Nat.le_add_left _ _)

end BijectiveDigits

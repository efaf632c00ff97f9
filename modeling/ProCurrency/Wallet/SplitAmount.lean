import ProCurrency.Connect.Store
import ProCurrency.Lib.WrappedInt

/-!
# Splitting an amount

`splitAmount` (ringsig.cpp). A product that does not fit wraps, and the second part of the result tells that one did
not.
-/

namespace ProCurrency

open WrappedInt

def mulOverflows (a b : Int64) : Bool := (a * b).toInt != a.toInt * b.toInt

/-- The `switch`: what is pushed for a digit, in units of `nTest`. -/
def splitDigit (i : Int64) : List Int64 :=
  if i = 0 then []
  else if i = 2 then [1, 1]
  else if i = 6 then [5, 1]
  else if i = 7 then [3, 4]
  else if i = 8 then [5, 3]
  else if i = 9 then [5, 4]
  else [i]

def splitAmountFrom (nValue : Int64) : Nat → Int64 → List Int64 → Bool → Option (List Int64 × Bool)
  | fuel, nTest, vOut, fOverflow =>
      if nValue < nTest then some (vOut, fOverflow)
      else
        match fuel with
        | 0 => none
        | fuel + 1 =>
            let digits := splitDigit (nValue / nTest % 10)
            splitAmountFrom nValue fuel (nTest * 10) (vOut ++ digits.map (· * nTest))
              (fOverflow || digits.any (mulOverflows · nTest) || mulOverflows nTest 10)

/-- The amounts of `vOut`. No amount takes more rounds than these. -/
def splitAmount (nValue : Int64) : Option (List Int64 × Bool) := splitAmountFrom nValue 20 1 [] false

/-- An amount that ring coins have. -/
def IsDenomination (x : Int) : Prop := ∃ d ∈ [1, 3, 4, 5], ∃ k : Nat, x = d * 10 ^ k

structure SplitsInto (nValue : Int64) (vOut : List Int64) : Prop where
  denominations : ∀ x ∈ vOut, IsDenomination x.toInt
  sum : (vOut.map Int64.toInt).sum = nValue.toInt

/-! ## Powers of ten -/

/-- What `nTest` is after `k` rounds. -/
def pow10 (k : Nat) : Int64 := Int64.ofInt (10 ^ k)

theorem pow10_succ (k : Nat) : pow10 k * 10 = pow10 (k + 1) := by
  rw [pow10, pow10, Int.pow_succ, Int64.ofInt_mul]
  rfl

theorem toInt_pow10 {k : Nat} (hk : k ≤ 18) : (pow10 k).toInt = 10 ^ k := by
  have hle : (10 : Int) ^ k ≤ 10 ^ 18 := pow_le_pow_right₀ (by omega) hk
  have hpos : (0 : Int) < 10 ^ k := Int.pow_pos (by omega)
  exact Int64.toInt_ofInt_of_le (by omega) (by omega)

/-- A product of a small number and a power of ten that is not above an amount. -/
theorem toInt_mul_pow10 {d : Int64} {k : Nat} (hk : k ≤ 18) (hd : 0 ≤ d.toInt)
    (hlt : d.toInt * 10 ^ k < 2 ^ 63) : (d * pow10 k).toInt = d.toInt * 10 ^ k := by
  rw [← toInt_pow10 hk] at hlt ⊢
  have hpos : 0 ≤ (pow10 k).toInt := by
    rw [toInt_pow10 hk]
    exact Int.pow_nonneg (by omega)
  exact toInt_mul_of_lt (Int.mul_nonneg hd hpos) hlt

/-! ## Digits -/

theorem toInt_digit {nValue : Int64} (h : 0 ≤ nValue.toInt) {k : Nat} (hk : k ≤ 18) :
    (nValue / pow10 k % 10).toInt = nValue.toInt / 10 ^ k % 10 := by
  have hpow := toInt_pow10 hk
  have hpos : (0 : Int) < 10 ^ k := Int.pow_pos (by omega)
  have hne : pow10 k ≠ -1 := by
    intro heq
    rw [heq] at hpow
    have hneg : (-1 : Int64).toInt = -1 := by decide
    omega
  have hten : (10 : Int64).toInt = 10 := by decide
  rw [Int64.toInt_mod, Int64.toInt_div_of_ne_right _ _ hne, hpow, hten, Int.tdiv_eq_ediv_of_nonneg h,
    Int.tmod_eq_emod_of_nonneg (Int.ediv_nonneg h (by omega))]

/-- What is pushed for a digit. -/
structure DigitSplit (n : Int) (digits : List Int64) : Prop where
  factors : ∀ d ∈ digits, d.toInt ∈ [1, 3, 4, 5]
  small : ∀ d ∈ digits, 0 ≤ d.toInt ∧ d.toInt ≤ n
  sum : (digits.map Int64.toInt).sum = n

theorem splitDigit_spec {i : Int64} (h0 : 0 ≤ i.toInt) (h9 : i.toInt < 10) : DigitSplit i.toInt (splitDigit i) := by
  obtain ⟨n, hn⟩ := Int.eq_ofNat_of_zero_le h0
  have hi : i = Int64.ofNat n := by
    rw [← Int64.ofInt_toInt i, hn, Int64.ofInt_eq_ofNat]
  have hlt : n < 10 := by omega
  have hall : ∀ n < 10, (∀ d ∈ (splitDigit (Int64.ofNat n)).map Int64.toInt, d ∈ [1, 3, 4, 5] ∧ 0 ≤ d ∧ d ≤ n) ∧
      ((splitDigit (Int64.ofNat n)).map Int64.toInt).sum = n := by
    decide
  obtain ⟨hdigits, hsum⟩ := hall n hlt
  rw [hn, hi]
  refine ⟨?_, ?_, hsum⟩
  · intro d hd
    exact (hdigits d.toInt (List.mem_map_of_mem hd)).1
  · intro d hd
    exact (hdigits d.toInt (List.mem_map_of_mem hd)).2

/-! ## The loop -/

theorem splitAmountFrom_done {nValue nTest : Int64} (h : nValue < nTest) (fuel : Nat) (vOut : List Int64)
    (fOverflow : Bool) : splitAmountFrom nValue fuel nTest vOut fOverflow = some (vOut, fOverflow) := by
  cases fuel <;> rw [splitAmountFrom, if_pos h]

theorem splitAmountFrom_step {nValue nTest : Int64} (h : ¬ nValue < nTest) (fuel : Nat) (vOut : List Int64)
    (fOverflow : Bool) : splitAmountFrom nValue (fuel + 1) nTest vOut fOverflow =
      splitAmountFrom nValue fuel (nTest * 10) (vOut ++ (splitDigit (nValue / nTest % 10)).map (· * nTest))
        (fOverflow || (splitDigit (nValue / nTest % 10)).any (mulOverflows · nTest) || mulOverflows nTest 10) := by
  rw [splitAmountFrom, if_neg h]

theorem sum_map_mul (c : Int) (digits : List Int64) :
    (digits.map fun d => d.toInt * c).sum = (digits.map Int64.toInt).sum * c := by
  induction digits with
  | nil => simp
  | cons d digits ih => rw [List.map_cons, List.sum_cons, ih, List.map_cons, List.sum_cons, Int.add_mul]

/-- What one round pushes: amounts that ring coins have, of the value of this digit, and none of them overflows. -/
theorem digit_round {nValue : Int64} (h : 0 ≤ nValue.toInt) {k : Nat} (hk : k ≤ 18) :
    (∀ x ∈ (splitDigit (nValue / pow10 k % 10)).map (· * pow10 k), IsDenomination x.toInt) ∧
      (((splitDigit (nValue / pow10 k % 10)).map (· * pow10 k)).map Int64.toInt).sum =
        nValue.toInt / 10 ^ k % 10 * 10 ^ k ∧
      (splitDigit (nValue / pow10 k % 10)).any (mulOverflows · (pow10 k)) = false := by
  have hdigit := toInt_digit h hk
  have hpos : (0 : Int) < 10 ^ k := Int.pow_pos (by omega)
  have hspec := @splitDigit_spec (nValue / pow10 k % 10) (by omega) (by omega)
  have hfit : ∀ d ∈ splitDigit (nValue / pow10 k % 10), (d * pow10 k).toInt = d.toInt * 10 ^ k := by
    intro d hd
    obtain ⟨hd0, hdn⟩ := hspec.small d hd
    refine toInt_mul_pow10 hk hd0 ?_
    have hle : d.toInt ≤ nValue.toInt / 10 ^ k := by
      have hquot : 0 ≤ nValue.toInt / 10 ^ k := Int.ediv_nonneg h (by omega)
      omega
    have hmul := Int.mul_le_mul_of_nonneg_right hle (Int.le_of_lt hpos)
    have hdiv := Int.ediv_mul_le nValue.toInt (Int.ne_of_gt hpos)
    have hlt := nValue.toInt_lt
    omega
  refine ⟨?_, ?_, ?_⟩
  · intro x hx
    obtain ⟨d, hd, rfl⟩ := List.mem_map.1 hx
    exact ⟨d.toInt, hspec.factors d hd, k, hfit d hd⟩
  · rw [List.map_map, ← hdigit, ← hspec.sum, ← sum_map_mul]
    exact congrArg List.sum (List.map_congr_left hfit)
  · rw [List.any_eq_false]
    intro d hd hover
    rw [mulOverflows, toInt_pow10 hk, hfit d hd] at hover
    simp at hover

theorem mulOverflows_pow10 {k : Nat} (hk : k < 18) : mulOverflows (pow10 k) 10 = false := by
  have hten : (10 : Int64).toInt = 10 := by decide
  have hsucc : k + 1 ≤ 18 := hk
  rw [mulOverflows, pow10_succ, toInt_pow10 hsucc, toInt_pow10 (Nat.le_of_lt hk), hten, Int.pow_succ]
  simp

/-- Beyond the last power of ten that fits, the digit is zero and the round after that is not made. -/
theorem splitAmountFrom_beyond {nValue : Int64} (h0 : 0 ≤ nValue.toInt) (hmax : nValue.toInt ≤ MAX_MONEY.toInt)
    (vOut : List Int64) : splitAmountFrom nValue 1 (pow10 19) vOut true = some (vOut, true) := by
  have h19 : (pow10 19).toInt = -8446744073709551616 := by decide
  have h20 : (pow10 19 * 10).toInt = 7766279631452241920 := by decide
  have hMax : MAX_MONEY.toInt = 7500000000000000000 := by decide
  have hten : (10 : Int64).toInt = 10 := by decide
  have hne : pow10 19 ≠ -1 := by decide
  have hgo : ¬ nValue < pow10 19 := by
    rw [Int64.lt_iff_toInt_lt]
    omega
  have hend : nValue < pow10 19 * 10 := by
    rw [Int64.lt_iff_toInt_lt]
    omega
  have hzero : nValue / pow10 19 % 10 = 0 := by
    rw [← Int64.toInt_inj, Int64.toInt_mod, Int64.toInt_div_of_ne_right _ _ hne, h19, hten, Int.tdiv_neg,
      Int.tdiv_eq_ediv_of_nonneg h0, Int.ediv_eq_zero_of_lt h0 (by omega)]
    rfl
  rw [splitAmountFrom_step hgo, splitAmountFrom_done hend, hzero]
  simp [splitDigit]

/-- The rounds from the digit `k` on, by induction on the digits up to the last one. -/
theorem splitAmountFrom_spec {nValue : Int64} (h0 : 0 ≤ nValue.toInt) (hmax : nValue.toInt ≤ MAX_MONEY.toInt)
    (j : Nat) : ∀ k, k + j = 18 → ∀ vOut, ∃ amounts,
      splitAmountFrom nValue (j + 2) (pow10 k) vOut false = some (vOut ++ amounts, decide (10 ^ 18 ≤ nValue.toInt)) ∧
        (∀ x ∈ amounts, IsDenomination x.toInt) ∧
        (amounts.map Int64.toInt).sum = nValue.toInt / 10 ^ k * 10 ^ k := by
  have hMax : MAX_MONEY.toInt = 7500000000000000000 := by decide
  induction j with
  | zero =>
      intro k hk vOut
      obtain rfl : k = 18 := hk
      have hpow := toInt_pow10 (Nat.le_refl 18)
      by_cases hlt : nValue < pow10 18
      · have hdone := splitAmountFrom_done hlt (0 + 2) vOut false
        rw [Int64.lt_iff_toInt_lt, hpow] at hlt
        refine ⟨[], ?_, by simp, ?_⟩
        · have hsmall : ¬ (10 : Int) ^ 18 ≤ nValue.toInt := Int.not_le.2 hlt
          rw [hdone, List.append_nil, decide_eq_false hsmall]
        · rw [Int.ediv_eq_zero_of_lt h0 hlt]
          rfl
      · obtain ⟨hden, hsum, hany⟩ := digit_round h0 (Nat.le_refl 18)
        have hover : mulOverflows (pow10 18) 10 = true := by decide
        refine ⟨_, ?_, hden, ?_⟩
        · rw [splitAmountFrom_step hlt, hany, hover, pow10_succ]
          rw [Int64.lt_iff_toInt_lt, hpow, Int.not_lt] at hlt
          rw [decide_eq_true hlt]
          exact splitAmountFrom_beyond h0 hmax _
        · rw [hsum, Int.emod_eq_of_lt (Int.ediv_nonneg h0 (by omega)) (by omega)]
  | succ j ih =>
      intro k hk vOut
      have hk18 : k < 18 := by omega
      have hpow := toInt_pow10 (Nat.le_of_lt hk18)
      have hle : (10 : Int) ^ k ≤ 10 ^ 18 := pow_le_pow_right₀ (by omega) (Nat.le_of_lt hk18)
      by_cases hlt : nValue < pow10 k
      · have hdone := splitAmountFrom_done hlt (j + 1 + 2) vOut false
        rw [Int64.lt_iff_toInt_lt, hpow] at hlt
        refine ⟨[], ?_, by simp, ?_⟩
        · have hsmall : ¬ (10 : Int) ^ 18 ≤ nValue.toInt := by omega
          rw [hdone, List.append_nil, decide_eq_false hsmall]
        · rw [Int.ediv_eq_zero_of_lt h0 hlt]
          simp
      · obtain ⟨hden, hsum, hany⟩ := digit_round h0 (Nat.le_of_lt hk18)
        obtain ⟨amounts, hrun, hrest, htail⟩ := ih (k + 1) (by omega)
          (vOut ++ (splitDigit (nValue / pow10 k % 10)).map (· * pow10 k))
        refine ⟨(splitDigit (nValue / pow10 k % 10)).map (· * pow10 k) ++ amounts, ?_, ?_, ?_⟩
        · rw [splitAmountFrom_step hlt, hany, mulOverflows_pow10 hk18, pow10_succ]
          rw [List.append_assoc] at hrun
          exact hrun
        · intro x hx
          rcases List.mem_append.1 hx with hx | hx
          · exact hden x hx
          · exact hrest x hx
        · have hdigits : nValue.toInt / 10 ^ (k + 1) = nValue.toInt / 10 ^ k / 10 := by
            rw [Int.pow_succ, Int.ediv_ediv_of_nonneg (Int.pow_nonneg (by omega))]
          have hsplit := Int.emod_add_mul_ediv (nValue.toInt / 10 ^ k) 10
          rw [List.map_append, List.sum_append, hsum, htail, hdigits, Int.pow_succ, Int.mul_comm (10 ^ k) 10,
            ← Int.mul_assoc, ← Int.add_mul]
          rw [Int.mul_comm 10] at hsplit
          rw [hsplit]

/-- Every amount is split with its exact sum, and a product overflows from 10 ^ 18 on. -/
theorem splitAmount_spec {nValue : Int64} (h : moneyRange nValue = true) :
    ∃ vOut, splitAmount nValue = some (vOut, decide (10 ^ 18 ≤ nValue.toInt)) ∧ SplitsInto nValue vOut := by
  have hMax : MAX_MONEY.toInt = 7500000000000000000 := by decide
  rw [moneyRange, Bool.and_eq_true, decide_eq_true_iff, decide_eq_true_iff, Int64.le_iff_toInt_le,
    Int64.le_iff_toInt_le, Int64.toInt_zero] at h
  obtain ⟨vOut, hrun, hden, hsum⟩ := splitAmountFrom_spec h.1 h.2 18 0 rfl []
  refine ⟨vOut, hrun, hden, ?_⟩
  rw [hsum]
  simp

/-- An amount is split without an overflow if and only if it is less than 10 ^ 18. -/
theorem splitAmount_iff {nValue : Int64} (h : moneyRange nValue = true) :
    (∃ vOut, splitAmount nValue = some (vOut, false) ∧ SplitsInto nValue vOut) ↔ nValue.toInt < 10 ^ 18 := by
  obtain ⟨vOut, hrun, hsplits⟩ := splitAmount_spec h
  constructor
  · rintro ⟨vOut', hrun', _⟩
    rw [hrun', Option.some.injEq, Prod.mk.injEq] at hrun
    exact Int.not_le.1 (of_decide_eq_false hrun.2.symm)
  · intro hlt
    refine ⟨vOut, ?_, hsplits⟩
    have hfalse : ¬ (10 : Int) ^ 18 ≤ nValue.toInt := by omega
    rw [hrun, decide_eq_false hfalse]

theorem splitAmount_iff_twentySeven :
    (∃ vOut, splitAmount 27 = some (vOut, false) ∧ SplitsInto 27 vOut) ↔ (27 : Int64).toInt < 10 ^ 18 :=
  splitAmount_iff (by decide)

/-- 10 ^ 10 coins. -/
theorem splitAmount_overflows : moneyRange 1000000000000000000 = true ∧
    splitAmount 1000000000000000000 = some ([1000000000000000000], true) := by
  decide

end ProCurrency

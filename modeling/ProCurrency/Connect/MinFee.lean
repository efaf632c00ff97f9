import ProCurrency.Staking.CoinStake

/-!
# The minimum fee

`GetMinFee` of `CTransaction` (main.cpp) with all that it is called with, and the law that the lines after its first
`return` are written for.
-/

namespace ProCurrency

def MIN_TX_FEE_FORK_BLOCK : Int := 629002

def MIN_TX_FEE_BASE : Int64 := 10000

def MIN_TX_FEE : Int64 := MIN_TX_FEE_BASE

def MIN_RELAY_TX_FEE : Int64 := MIN_TX_FEE

def MIN_TX_FEE_ANON : Int64 := 1000000

inductive GetMinFee_mode where
  | GMF_BLOCK
  | GMF_RELAY
  | GMF_SEND
  | GMF_ANON
  deriving Repr, DecidableEq

namespace CTransaction

/-- The variables of the two branches end with the branches, and the `return` after them has the constant of the
file. What the source has after that `return` is never reached. -/
def getMinFeeAt (nBestHeight : Int) (_tx : CTransaction) (_nBlockSize : UInt32) (_mode : GetMinFee_mode)
    (_nBytes : UInt32) : Int64 :=
  let _inBranch : Int64 :=
    if nBestHeight > MIN_TX_FEE_FORK_BLOCK + 1 then MIN_TX_FEE_BASE * 10 else MIN_TX_FEE_BASE
  MIN_TX_FEE

theorem getMinFeeAt_eq (nBestHeight : Int) (tx : CTransaction) (nBlockSize : UInt32) (mode : GetMinFee_mode)
    (nBytes : UInt32) : tx.getMinFeeAt nBestHeight nBlockSize mode nBytes = tx.getMinFee := rfl

/-! ## The law -/

/-- The fee that is in force for a transaction of this kind. -/
def baseFee (nBestHeight : Int) (tx : CTransaction) (mode : GetMinFee_mode) : Int :=
  if tx.nVersion = ANON_TXN_VERSION ∨ mode = .GMF_ANON then MIN_TX_FEE_ANON.toInt
  else
    let nFee := if mode = .GMF_RELAY then MIN_RELAY_TX_FEE else MIN_TX_FEE_BASE
    if MIN_TX_FEE_FORK_BLOCK ≤ nBestHeight then 10 * nFee.toInt else nFee.toInt

structure FeeLaw (nBestHeight : Int) (tx : CTransaction) (nBlockSize : UInt32) (mode : GetMinFee_mode)
    (nBytes : UInt32) : Prop where
  covers : tx.baseFee nBestHeight mode * (1 + nBytes.toNat / 1000) ≤
    (tx.getMinFeeAt nBestHeight nBlockSize mode nBytes).toInt
  monotone : ∀ nMore, nBytes ≤ nMore →
    tx.getMinFeeAt nBestHeight nBlockSize mode nBytes ≤ tx.getMinFeeAt nBestHeight nBlockSize mode nMore
  dust : (∃ txout ∈ tx.vout, txout.nValue < CENT) →
    tx.baseFee nBestHeight mode ≤ (tx.getMinFeeAt nBestHeight nBlockSize mode nBytes).toInt
  inRange : moneyRange (tx.getMinFeeAt nBestHeight nBlockSize mode nBytes) = true

variable {nBestHeight : Int} {tx : CTransaction} {mode : GetMinFee_mode}

/-- A base fee is one of three. -/
theorem baseFee_cases (nBestHeight : Int) (tx : CTransaction) (mode : GetMinFee_mode) :
    (tx.baseFee nBestHeight mode = 10000 ∧ tx.nVersion ≠ ANON_TXN_VERSION ∧ mode ≠ .GMF_ANON ∧
      nBestHeight < MIN_TX_FEE_FORK_BLOCK) ∨
    (100000 ≤ tx.baseFee nBestHeight mode ∧ (tx.nVersion = ANON_TXN_VERSION ∨ mode = .GMF_ANON ∨
      MIN_TX_FEE_FORK_BLOCK ≤ nBestHeight)) := by
  have hfee : (if mode = .GMF_RELAY then MIN_RELAY_TX_FEE else MIN_TX_FEE_BASE) = (10000 : Int64) := by
    split_ifs <;> rfl
  have hint : (10000 : Int64).toInt = 10000 := by decide
  have hanonFee : MIN_TX_FEE_ANON.toInt = 1000000 := by decide
  rw [baseFee]
  by_cases hanon : tx.nVersion = ANON_TXN_VERSION ∨ mode = .GMF_ANON
  · rw [if_pos hanon, hanonFee]
    exact Or.inr ⟨by omega, hanon.imp_right Or.inl⟩
  · rw [if_neg hanon, hfee]
    dsimp only
    rw [hint]
    rw [not_or] at hanon
    by_cases hfork : MIN_TX_FEE_FORK_BLOCK ≤ nBestHeight
    · rw [if_pos hfork]
      exact Or.inr ⟨by omega, Or.inr (Or.inr hfork)⟩
    · rw [if_neg hfork]
      exact Or.inl ⟨rfl, hanon.1, hanon.2, by omega⟩

theorem toInt_getMinFeeAt (nBestHeight : Int) (tx : CTransaction) (nBlockSize : UInt32) (mode : GetMinFee_mode)
    (nBytes : UInt32) : (tx.getMinFeeAt nBestHeight nBlockSize mode nBytes).toInt = 10000 := by
  change MIN_TX_FEE.toInt = 10000
  decide

/-- The fee keeps the law for a plain transaction of less than 1000 bytes below the fork, and nowhere else. -/
theorem feeLaw_iff (nBestHeight : Int) (tx : CTransaction) (nBlockSize : UInt32) (mode : GetMinFee_mode)
    (nBytes : UInt32) :
    FeeLaw nBestHeight tx nBlockSize mode nBytes ↔
      tx.nVersion ≠ ANON_TXN_VERSION ∧ mode ≠ .GMF_ANON ∧ nBestHeight < MIN_TX_FEE_FORK_BLOCK ∧ nBytes < 1000 := by
  have hdiv : nBytes < 1000 ↔ nBytes.toNat / 1000 = 0 := by
    rw [UInt32.lt_iff_toNat_lt]
    exact (Nat.div_eq_zero_iff_lt (by decide)).symm
  constructor
  · intro h
    have hcovers := h.covers
    rw [toInt_getMinFeeAt] at hcovers
    have hsize : (0 : Int) ≤ nBytes.toNat / 1000 := Int.natCast_nonneg _
    rcases baseFee_cases nBestHeight tx mode with ⟨hbase, hversion, hmode, hfork⟩ | ⟨hbase, _⟩
    · rw [hbase] at hcovers
      exact ⟨hversion, hmode, hfork, hdiv.2 (by omega)⟩
    · have hmul : 100000 * 1 ≤ tx.baseFee nBestHeight mode * (1 + nBytes.toNat / 1000) :=
        Int.mul_le_mul hbase (by omega) (by omega) (by omega)
      omega
  · rintro ⟨hversion, hmode, hfork, hbytes⟩
    rcases baseFee_cases nBestHeight tx mode with ⟨hbase, _⟩ | ⟨_, h | h | h⟩
    · constructor
      · rw [toInt_getMinFeeAt, hbase]
        have hzero := hdiv.1 hbytes
        omega
      · intro nMore _
        exact Int64.le_refl _
      · intro _
        rw [toInt_getMinFeeAt, hbase]
      · rfl
    · exact absurd h hversion
    · exact absurd h hmode
    · omega

/-- A transaction with one output and no input. -/
def plainPayment : CTransaction where
  nVersion := 1
  nTime := 0
  vin := []
  vout := [{ nValue := 100000000, scriptPubKey := [] }]
  nLockTime := 0

/-- A payment of 2000 bytes goes for the fee of one of 500. -/
theorem feeLaw_fails_large : ¬ FeeLaw 1000 plainPayment 1 .GMF_SEND 2000 := by
  intro h
  have hcovers := h.covers
  revert hcovers
  decide

end CTransaction

end ProCurrency

import Mathlib.Algebra.Order.BigOperators.Group.List
import ProCurrency.Connect.Block
import ProCurrency.Lib.WrappedInt

/-!
# Amounts

The 64-bit sums of `GetValueOut`, `GetValueIn`, `ConnectInputs` and `CheckAnonInputs`, as the images of the exact
sums.
-/

namespace ProCurrency

open WrappedInt

theorem moneyRange_iff {nValue : Int64} :
    moneyRange nValue = true ↔ 0 ≤ nValue.toInt ∧ nValue.toInt ≤ MAX_MONEY.toInt := by
  rw [moneyRange, Bool.and_eq_true, decide_eq_true_iff, decide_eq_true_iff, Int64.le_iff_toInt_le,
    Int64.le_iff_toInt_le, Int64.toInt_zero]

/-- Two amounts in the range add up without a wrap. -/
theorem toInt_add_of_moneyRange {a b : Int64} (ha : moneyRange a = true) (hb : moneyRange b = true)
    (h : moneyRange (a + b) = true) : (a + b).toInt = a.toInt + b.toInt := by
  rw [moneyRange_iff] at ha hb h
  rcases toInt_add_eq_or_neg ha.1 hb.1 with heq | hneg
  · exact heq
  · exact absurd h.1 (Int.not_le.2 hneg)

/-! ## Outputs -/

namespace CTransaction

/-- The exact sum of the outputs. -/
def valueOut (tx : CTransaction) : Int := (tx.vout.map fun txout => txout.nValue.toInt).sum

theorem valueOutFrom_eq {vout : List CTxOut} {n r : Int64} (hn : moneyRange n = true)
    (h : valueOutFrom n vout = some r) :
    r.toInt = n.toInt + (vout.map fun txout => txout.nValue.toInt).sum ∧ moneyRange r = true := by
  induction vout generalizing n with
  | nil => cases h; simp [hn]
  | cons txout vout ih =>
      rw [valueOutFrom] at h
      split_ifs at h with hrange
      rw [Bool.or_eq_true, not_or, Bool.not_eq_true', Bool.not_eq_true', Bool.not_eq_false,
        Bool.not_eq_false] at hrange
      obtain ⟨heq, hr⟩ := ih hrange.2 h
      rw [toInt_add_of_moneyRange hn hrange.1 hrange.2] at heq
      exact ⟨by rw [heq, List.map_cons, List.sum_cons, Int.add_assoc], hr⟩

theorem getValueOut_eq {tx : CTransaction} {r : Int64} (h : tx.getValueOut = some r) :
    r.toInt = tx.valueOut ∧ moneyRange r = true := by
  obtain ⟨heq, hr⟩ := valueOutFrom_eq rfl h
  exact ⟨by rw [heq, Int64.toInt_zero, Int.zero_add, valueOut], hr⟩

/-! ## Fetched coins -/

/-- The value of a coin that was fetched. -/
def fetchedValue (inputs : MapPrevTx) (txin : CTxIn) : Int :=
  match getOutputFor txin inputs with
  | none => 0
  | some txout => txout.nValue.toInt

/-- The exact sum of the coins that a transaction spends outside its rings. -/
def coinsIn (tx : CTransaction) (inputs : MapPrevTx) (vin : List CTxIn) : Int :=
  ((vin.filter fun txin => !tx.spendsAnon txin).map (fetchedValue inputs)).sum

theorem coinsIn_cons_of_spendsAnon {tx : CTransaction} {txin : CTxIn} (h : tx.spendsAnon txin = true)
    (inputs : MapPrevTx) (vin : List CTxIn) : tx.coinsIn inputs (txin :: vin) = tx.coinsIn inputs vin := by
  simp [coinsIn, h]

theorem coinsIn_cons_of_not {tx : CTransaction} {txin : CTxIn} (h : tx.spendsAnon txin = false)
    (inputs : MapPrevTx) (vin : List CTxIn) :
    tx.coinsIn inputs (txin :: vin) = fetchedValue inputs txin + tx.coinsIn inputs vin := by
  simp [coinsIn, h]

theorem valueInFrom_eq {tx : CTransaction} {inputs : MapPrevTx} {vin : List CTxIn} {n r : Int64}
    (h : tx.valueInFrom inputs n vin = some r) :
    r = Int64.ofInt (n.toInt + tx.coinsIn inputs vin) := by
  induction vin generalizing n with
  | nil =>
      cases h
      simp [coinsIn]
  | cons txin vin ih =>
      rw [valueInFrom] at h
      rcases hanon : tx.spendsAnon txin with _ | _
      · rw [if_neg (by simp [hanon])] at h
        cases hout : getOutputFor txin inputs with
        | none => simp [hout] at h
        | some txout =>
            rw [hout] at h
            have hval : fetchedValue inputs txin = txout.nValue.toInt := by rw [fetchedValue, hout]
            rw [ih h, coinsIn_cons_of_not hanon, hval, ofInt_toInt_add_add]
      · rw [if_pos hanon] at h
        rw [ih h, coinsIn_cons_of_spendsAnon hanon]

end CTransaction

namespace ConnectEnv

variable {G : Type} {env : ConnectEnv G} {s : ConnectStore} {tx : CTransaction} {inputs : MapPrevTx}

open CTransaction

theorem checkInputsFrom_eq {pindexBlock : CBlockIndex} {pprev : List CBlockIndex} {vin : List CTxIn}
    {n r : Int64} (hn : moneyRange n = true)
    (h : env.checkInputsFrom tx inputs pindexBlock pprev n vin = some r) :
    r.toInt = n.toInt + tx.coinsIn inputs vin ∧ moneyRange r = true := by
  induction vin generalizing n with
  | nil =>
      cases h
      simp [coinsIn, hn]
  | cons txin vin ih =>
      rw [checkInputsFrom] at h
      rcases hanon : tx.spendsAnon txin with _ | _
      · rw [if_neg (by simp [hanon])] at h
        rcases hprev : inputs txin.prevout.hash with _ | ⟨txindex, txPrev⟩
        · simp [hprev] at h
        · simp only [hprev] at h
          rcases hout : txPrev.vout[txin.prevout.n.toNat]? with _ | txout
          · simp [hout] at h
          · simp only [hout] at h
            split_ifs at h with _ _ _ _ hrange
            rw [Bool.or_eq_true, not_or, Bool.not_eq_true', Bool.not_eq_true', Bool.not_eq_false,
              Bool.not_eq_false] at hrange
            have hval : fetchedValue inputs txin = txout.nValue.toInt := by
              simp [fetchedValue, getOutputFor, hprev, hout]
            obtain ⟨heq, hr⟩ := ih hrange.2 h
            rw [heq, toInt_add_of_moneyRange hn hrange.1 hrange.2, coinsIn_cons_of_not hanon, hval, Int.add_assoc]
            exact ⟨rfl, hr⟩
      · rw [if_pos hanon] at h
        rw [coinsIn_cons_of_spendsAnon hanon]
        exact ih hn h

/-! ## Ring coins -/

end ConnectEnv

/-- The values that the store has for ring coins are amounts: `ProcessAnonTransaction` takes them from outputs that
`CheckTransaction` has seen. -/
def ConnectStore.RingCoinsInRange (s : ConnectStore) : Prop :=
  ∀ pkCoin ao, s.anonOutputs pkCoin = some ao → moneyRange ao.nValue = true

namespace ConnectEnv

open CTransaction

variable {G : Type} {env : ConnectEnv G} {s : ConnectStore} {tx : CTransaction}

theorem ringCoinValue_inRange {pPubkeys : Bytes} {ris : List Nat} {n r : Int64} (hs : s.RingCoinsInRange)
    (h : env.ringCoinValue s pPubkeys n ris = some r) (hn : ris = [] → moneyRange n = true) :
    moneyRange r = true := by
  induction ris generalizing n with
  | nil =>
      cases h
      exact hn rfl
  | cons ri ris ih =>
      rw [ringCoinValue] at h
      cases hao : s.anonOutputs (env.pubKey (partOf pPubkeys EC_COMPRESSED_SIZE ri)) with
      | none => simp [hao] at h
      | some ao =>
          simp only [hao] at h
          split_ifs at h
          exact ih h fun _ => hs _ ao hao

variable [AddCommGroup G]

/-- What an input has passed when its coin is counted. -/
theorem checkAnonInput_spec {fCheckExists : Bool} {preimage txnHash : UInt256} {txin : CTxIn} {r : Int64}
    (h : env.checkAnonInput s fCheckExists preimage txnHash txin = some r) :
    env.keyImageSpendable s fCheckExists txnHash txin.extractKeyImage = true ∧ 1 ≤ txin.extractRingSize ∧
      ∃ type, env.ringCoinValue s (txin.ringSignature type).pPubkeys (-1)
        (List.range txin.extractRingSize) = some r := by
  simp only [checkAnonInput] at h
  generalize (if env.params.isProtocolVFork1 env.pindexBest.nHeight then MAX_RING_SIZE
    else MAX_RING_SIZE_OLD) = nMaxRingSize at h
  split_ifs at h with hspendable hsize
  cases htype : ringSigTypeOf txin.extractRingSize txin.scriptSig with
  | none => simp [htype] at h
  | some type =>
      simp only [htype] at h
      cases hval : env.ringCoinValue s (txin.ringSignature type).pPubkeys (-1)
          (List.range txin.extractRingSize) with
      | none => simp [hval] at h
      | some nCoinValue =>
          simp only [hval] at h
          split_ifs at h
          cases h
          exact ⟨by simpa using hspendable, by omega, type, hval⟩

theorem checkAnonInput_inRange {preimage txnHash : UInt256} {txin : CTxIn} {r : Int64}
    (hs : s.RingCoinsInRange) (h : env.checkAnonInput s true preimage txnHash txin = some r) :
    moneyRange r = true := by
  obtain ⟨_, hsize, type, hval⟩ := checkAnonInput_spec h
  refine ringCoinValue_inRange hs hval fun hnil => ?_
  rw [List.range_eq_nil] at hnil
  omega

/-- What `CheckAnonInputs` counts for one input. -/
def ringCoin (env : ConnectEnv G) (s : ConnectStore) (preimage txnHash : UInt256) (txin : CTxIn) : Int :=
  match env.checkAnonInput s true preimage txnHash txin with
  | none => 0
  | some nCoinValue => nCoinValue.toInt

/-- The exact sum of the ring coins of these inputs. -/
def ringCoins (env : ConnectEnv G) (s : ConnectStore) (preimage txnHash : UInt256) (vin : List CTxIn) : Int :=
  ((vin.filter CTxIn.isAnonInput).map (env.ringCoin s preimage txnHash)).sum

/-- The exact sum of the ring coins that a transaction spends. -/
def ringCoinsIn (env : ConnectEnv G) (s : ConnectStore) (tx : CTransaction) : Int :=
  match env.getTxnPreImage tx with
  | none => 0
  | some preimage => env.ringCoins s preimage (env.txHash tx) tx.vin

theorem ringCoin_nonneg {preimage txnHash : UInt256} {txin : CTxIn} (hs : s.RingCoinsInRange) :
    0 ≤ env.ringCoin s preimage txnHash txin := by
  rw [ringCoin]
  cases h : env.checkAnonInput s true preimage txnHash txin with
  | none => exact Int.le_refl 0
  | some nCoinValue => exact (moneyRange_iff.1 (checkAnonInput_inRange hs h)).1

theorem ringCoinsIn_nonneg (hs : s.RingCoinsInRange) : 0 ≤ env.ringCoinsIn s tx := by
  rw [ringCoinsIn]
  cases env.getTxnPreImage tx with
  | none => exact Int.le_refl 0
  | some preimage =>
      refine List.sum_nonneg fun x hx => ?_
      obtain ⟨txin, _, rfl⟩ := List.mem_map.1 hx
      exact ringCoin_nonneg hs

theorem checkAnonInputsFrom_eq {preimage txnHash : UInt256} {vin : List CTxIn} {n r : Int64}
    (h : env.checkAnonInputsFrom s true preimage txnHash n vin = (true, r)) :
    r = Int64.ofInt (n.toInt + env.ringCoins s preimage txnHash vin) := by
  induction vin generalizing n with
  | nil =>
      cases h
      simp [ringCoins]
  | cons txin vin ih =>
      rw [checkAnonInputsFrom] at h
      rcases hanon : txin.isAnonInput with _ | _
      · rw [if_pos (by simp [hanon])] at h
        rw [ih h]
        simp [ringCoins, hanon]
      · rw [if_neg (by simp [hanon])] at h
        cases hin : env.checkAnonInput s true preimage txnHash txin with
        | none => simp [hin] at h
        | some nCoinValue =>
            rw [hin] at h
            have hcons : env.ringCoins s preimage txnHash (txin :: vin) =
                nCoinValue.toInt + env.ringCoins s preimage txnHash vin := by
              simp [ringCoins, ringCoin, hanon, hin]
            rw [ih h, hcons, ofInt_toInt_add_add]

theorem checkAnonInputs_eq {r : Int64} (h : env.checkAnonInputs s true tx = (true, r)) :
    r = Int64.ofInt (env.ringCoinsIn s tx) := by
  rw [checkAnonInputs] at h
  rw [ringCoinsIn]
  cases hpre : env.getTxnPreImage tx with
  | none => simp [hpre] at h
  | some preimage =>
      rw [hpre] at h
      rw [checkAnonInputsFrom_eq h, Int64.toInt_zero, Int.zero_add]

end ConnectEnv

end ProCurrency

/-!
## The balance of a transaction

What `ConnectBlock` adds to its fees, or takes for the stake reward, is the image of the exact balance of the
transaction.
-/

namespace ProCurrency

namespace ConnectEnv

open CTransaction WrappedInt

variable {G : Type} [AddCommGroup G]

/-- The exact value of what a transaction spends: the coins that `FetchInputs` gives, and the ring coins that
`CheckAnonInputs` counts. -/
def valueIn (env : ConnectEnv G) (s : ConnectStore) (mapTestPool : MapTestPool) (tx : CTransaction) : Int :=
  if tx.isCoinBase then 0
  else
    match env.fetchInputs s mapTestPool tx with
    | none => 0
    | some inputs =>
        tx.coinsIn inputs tx.vin + if tx.nVersion == ANON_TXN_VERSION then env.ringCoinsIn s tx else 0

variable {env : ConnectEnv G} {s : ConnectStore} {tx : CTransaction} {inputs : MapPrevTx}

theorem valueIn_of_fetchInputs {mapTestPool : MapTestPool} (hcb : tx.isCoinBase = false)
    (hfetch : env.fetchInputs s mapTestPool tx = some inputs) :
    env.valueIn s mapTestPool tx =
      tx.coinsIn inputs tx.vin + if tx.nVersion == ANON_TXN_VERSION then env.ringCoinsIn s tx else 0 := by
  rw [valueIn, if_neg (by rw [hcb]; exact Bool.false_ne_true), hfetch]

/-! ## What is checked -/

omit [AddCommGroup G] in
theorem paysFee_spec {nValueIn : Int64} (h : env.paysFee tx nValueIn = true) :
    ∃ nValueOut, tx.getValueOut = some nValueOut ∧ nValueOut.toInt ≤ nValueIn.toInt := by
  rw [paysFee] at h
  cases hout : tx.getValueOut with
  | none => simp [hout] at h
  | some nValueOut =>
      rw [hout] at h
      refine ⟨nValueOut, rfl, Int.not_lt.1 fun hlt => ?_⟩
      rw [← Int64.lt_iff_toInt_lt] at hlt
      simp [hlt] at h

/-- A transaction whose inputs are connected spends coins of the range, and pays for its outputs unless it is a
coinstake. -/
theorem connectInputs_spec {mapTestPool mapTestPool' : MapTestPool} {posThisTx : CDiskTxPos}
    {pindexBlock : CBlockIndex} {pprev : List CBlockIndex} {flags : UInt32} (hcb : tx.isCoinBase = false)
    (h : env.connectInputs s inputs mapTestPool posThisTx pindexBlock pprev flags tx = some mapTestPool') :
    ∃ nValueIn, nValueIn.toInt = tx.coinsIn inputs tx.vin ∧ moneyRange nValueIn = true ∧
      env.spendInputsFrom tx posThisTx flags 0 inputs mapTestPool tx.vin = some mapTestPool' ∧
      (tx.isCoinStake = false →
        env.paysFee tx (if tx.nVersion == ANON_TXN_VERSION then nValueIn + (env.checkAnonInputs s true tx).2
          else nValueIn) = true) := by
  rw [connectInputs, if_neg (by simp [hcb])] at h
  cases hcheck : env.checkInputsFrom tx inputs pindexBlock pprev 0 tx.vin with
  | none => simp [hcheck] at h
  | some nValueIn =>
      simp only [hcheck] at h
      cases hspend : env.spendInputsFrom tx posThisTx flags 0 inputs mapTestPool tx.vin with
      | none => simp [hspend] at h
      | some mapTestPool'' =>
          simp only [hspend] at h
          generalize hpaid : (if tx.nVersion == ANON_TXN_VERSION then
            nValueIn + (env.checkAnonInputs s true tx).2 else nValueIn) = nPaid at h
          split_ifs at h with hpays
          cases h
          obtain ⟨heq, hrange⟩ := checkInputsFrom_eq rfl hcheck
          rw [Int64.toInt_zero, Int.zero_add] at heq
          refine ⟨nValueIn, heq, hrange, rfl, fun hstake => ?_⟩
          rw [hpaid]
          simpa [hstake] using hpays

/-- What `ConnectBlock` takes for the value of the inputs is what `ConnectInputs` compares with the outputs, and the
image of the exact value. -/
theorem txValueIn_eq {mapTestPool : MapTestPool} {nValueIn v : Int64} (hcb : tx.isCoinBase = false)
    (hfetch : env.fetchInputs s mapTestPool tx = some inputs) (h : env.txValueIn s inputs tx = some v)
    (hcoins : nValueIn.toInt = tx.coinsIn inputs tx.vin) :
    (if tx.nVersion == ANON_TXN_VERSION then nValueIn + (env.checkAnonInputs s true tx).2 else nValueIn) = v ∧
      v = Int64.ofInt (env.valueIn s mapTestPool tx) := by
  rw [valueIn_of_fetchInputs hcb hfetch, ← hcoins]
  rw [txValueIn, getValueIn, if_neg (by rw [hcb]; exact Bool.false_ne_true)] at h
  cases hval : tx.valueInFrom inputs 0 tx.vin with
  | none => simp [hval] at h
  | some nTxValueIn =>
      have himage : nTxValueIn = nValueIn := by
        rw [valueInFrom_eq hval, Int64.toInt_zero, Int.zero_add, ← hcoins, Int64.ofInt_toInt]
      simp only [hval] at h
      rcases hanon : tx.nVersion == ANON_TXN_VERSION with _ | _
      · simp only [hanon, Bool.false_eq_true, if_false] at h ⊢
        cases h
        rw [himage, Int.add_zero, Int64.ofInt_toInt]
        exact ⟨rfl, rfl⟩
      · simp only [hanon, if_true] at h ⊢
        rcases hring : env.checkAnonInputs s true tx with ⟨_ | _, nTxAnonIn⟩
        · simp [hring] at h
        · simp only [hring] at h
          cases h
          rw [himage, Int64.ofInt_add, Int64.ofInt_toInt, ← checkAnonInputs_eq hring]
          exact ⟨rfl, rfl⟩

theorem valueIn_nonneg {mapTestPool : MapTestPool} (hs : s.RingCoinsInRange) (hcb : tx.isCoinBase = false)
    (hfetch : env.fetchInputs s mapTestPool tx = some inputs) (hcoins : 0 ≤ tx.coinsIn inputs tx.vin) :
    0 ≤ env.valueIn s mapTestPool tx := by
  rw [valueIn_of_fetchInputs hcb hfetch]
  have hring : 0 ≤ env.ringCoinsIn s tx := ringCoinsIn_nonneg hs
  split_ifs <;> omega

/-! ## One transaction -/

/-- What one round of the loop has checked, of a transaction that is not a coinbase. -/
theorem connectTx_spec {pindex : CBlockIndex} {pprev : List CBlockIndex} {fJustCheck : Bool}
    {t t' : BlockTotals} (hcb : tx.isCoinBase = false)
    (h : env.connectTx s pindex pprev fJustCheck t tx = some t') :
    ∃ inputs v nValueOut mapQueuedChanges posThisTx,
      env.fetchInputs s t.mapQueuedChanges tx = some inputs ∧ env.txValueIn s inputs tx = some v ∧
      tx.getValueOut = some nValueOut ∧
      env.connectInputs s inputs t.mapQueuedChanges posThisTx pindex pprev (env.scriptFlags pindex) tx =
        some mapQueuedChanges ∧
      t'.mapQueuedChanges =
        Function.update mapQueuedChanges (env.txHash tx) (some (.new posThisTx tx.vout.length)) ∧
      t'.nFees = (if tx.isCoinStake then t.nFees else t.nFees + (v - nValueOut)) ∧
      t'.nStakeReward = (if tx.isCoinStake then nValueOut - v else t.nStakeReward) := by
  simp only [connectTx, hcb, Bool.false_eq_true, if_false] at h
  generalize (if fJustCheck = true then t.nTxPos else t.nTxPos + UInt32.ofNat tx.getSerializeSize) = nTxPos at h
  rcases Decidable.em (overwritesTx s (env.txHash tx) = true) with hover | hover
  · simp [hover] at h
  rcases Decidable.em (MAX_BLOCK_SIGOPS < t.nSigOps + tx.getLegacySigOpCount) with hlegacy | hlegacy
  · simp [hlegacy] at h
  rw [if_neg hover, if_neg hlegacy] at h
  rcases hfetch : env.fetchInputs s t.mapQueuedChanges tx with _ | inputs
  · simp [hfetch] at h
  simp only [hfetch] at h
  rcases hsig : tx.getP2SHSigOpCount inputs with _ | nP2SHSigOps
  · simp [hsig] at h
  rcases hval : env.txValueIn s inputs tx with _ | v
  · simp [hsig, hval] at h
  rcases hout : tx.getValueOut with _ | nValueOut
  · simp [hsig, hval, hout] at h
  simp only [hsig, hval, hout] at h
  rcases Decidable.em (MAX_BLOCK_SIGOPS < t.nSigOps + tx.getLegacySigOpCount + nP2SHSigOps) with hops | hops
  · simp [hops] at h
  rw [if_neg hops] at h
  set posThisTx : CDiskTxPos := { nFile := pindex.nFile, nBlockPos := pindex.nBlockPos, nTxPos := t.nTxPos }
  rcases hconn : env.connectInputs s inputs t.mapQueuedChanges posThisTx pindex pprev (env.scriptFlags pindex) tx
    with _ | mapQueuedChanges
  · simp [hconn] at h
  rw [hconn] at h
  cases h
  exact ⟨inputs, v, nValueOut, mapQueuedChanges, posThisTx, rfl, hval, rfl, hconn, rfl, rfl, rfl⟩

/-- A coinbase leaves the totals, and its entry is queued. -/
theorem connectTx_coinBase {pindex : CBlockIndex} {pprev : List CBlockIndex} {fJustCheck : Bool}
    {t t' : BlockTotals} (hcb : tx.isCoinBase = true)
    (h : env.connectTx s pindex pprev fJustCheck t tx = some t') :
    t'.nFees = t.nFees ∧ t'.nStakeReward = t.nStakeReward ∧ ∃ posThisTx, t'.mapQueuedChanges =
      Function.update t.mapQueuedChanges (env.txHash tx) (some (.new posThisTx tx.vout.length)) := by
  simp only [connectTx, hcb, if_true] at h
  generalize (if fJustCheck = true then t.nTxPos else t.nTxPos + UInt32.ofNat tx.getSerializeSize) = nTxPos at h
  split_ifs at h
  cases hout : tx.getValueOut with
  | none => simp [hout] at h
  | some nValueOut =>
      rw [hout] at h
      cases h
      exact ⟨rfl, rfl, _, rfl⟩

/-- A coinstake sets the stake reward. -/
theorem connectTx_coinStake {pindex : CBlockIndex} {pprev : List CBlockIndex} {fJustCheck : Bool}
    {t t' : BlockTotals} (hs : s.RingCoinsInRange) (hcb : tx.isCoinBase = false) (hstake : tx.isCoinStake = true)
    (h : env.connectTx s pindex pprev fJustCheck t tx = some t') :
    t'.nFees = t.nFees ∧ tx.valueOut - env.valueIn s t.mapQueuedChanges tx ≤ max t'.nStakeReward.toInt 0 := by
  obtain ⟨inputs, v, nValueOut, _, _, hfetch, hval, hout, hconn, _, hfees, hreward⟩ := connectTx_spec hcb h
  obtain ⟨nValueIn, hcoins, hrange, _⟩ := connectInputs_spec hcb hconn
  obtain ⟨hsum, hsumRange⟩ := getValueOut_eq hout
  have hv := (txValueIn_eq hcb hfetch hval hcoins).2
  have hin : 0 ≤ env.valueIn s t.mapQueuedChanges tx :=
    valueIn_nonneg hs hcb hfetch (hcoins ▸ (moneyRange_iff.1 hrange).1)
  rw [moneyRange_iff] at hsumRange
  rw [hfees, hreward, if_pos hstake, if_pos hstake, ← hsum]
  refine ⟨rfl, ?_⟩
  have hlt := nValueOut.toInt_lt
  rcases lt_or_ge (env.valueIn s t.mapQueuedChanges tx) (2 ^ 63) with hsmall | hlarge
  · have hveq : v.toInt = env.valueIn s t.mapQueuedChanges tx := by
      rw [hv]
      exact Int64.toInt_ofInt_of_le (by omega) hsmall
    rw [toInt_sub_of_nonneg hsumRange.1 (by omega), hveq]
    exact le_max_left _ _
  · have hneg : nValueOut.toInt - env.valueIn s t.mapQueuedChanges tx ≤ 0 := by omega
    exact le_max_of_le_right hneg

/-- Any other transaction pays its balance as a fee. -/
theorem connectTx_fee {pindex : CBlockIndex} {pprev : List CBlockIndex} {fJustCheck : Bool}
    {t t' : BlockTotals} (hs : s.RingCoinsInRange) (hcb : tx.isCoinBase = false)
    (hstake : tx.isCoinStake = false) (h : env.connectTx s pindex pprev fJustCheck t tx = some t') :
    t'.nStakeReward = t.nStakeReward ∧ tx.valueOut ≤ env.valueIn s t.mapQueuedChanges tx ∧
      t'.nFees = Int64.ofInt (t.nFees.toInt + (env.valueIn s t.mapQueuedChanges tx - tx.valueOut)) := by
  obtain ⟨inputs, v, nValueOut, _, _, hfetch, hval, hout, hconn, _, hfees, hreward⟩ := connectTx_spec hcb h
  obtain ⟨nValueIn, hcoins, hrange, _, hpays⟩ := connectInputs_spec hcb hconn
  obtain ⟨hsum, _⟩ := getValueOut_eq hout
  obtain ⟨hpaid, hv⟩ := txValueIn_eq hcb hfetch hval hcoins
  have hin : 0 ≤ env.valueIn s t.mapQueuedChanges tx :=
    valueIn_nonneg hs hcb hfetch (hcoins ▸ (moneyRange_iff.1 hrange).1)
  obtain ⟨nValueOut', hout', hle⟩ := paysFee_spec (hpays hstake)
  rw [hout] at hout'
  cases hout'
  rw [hpaid, hv] at hle
  have hle' := le_trans hle (toInt_ofInt_le (by omega))
  have hnot : ¬tx.isCoinStake = true := by rw [hstake]; exact Bool.false_ne_true
  rw [hfees, hreward, if_neg hnot, if_neg hnot, ← hsum]
  refine ⟨rfl, hle', ?_⟩
  rw [Int64.ofInt_add, Int64.ofInt_toInt, Int64.ofInt_sub, ← hv, Int64.ofInt_toInt]

end ConnectEnv

end ProCurrency

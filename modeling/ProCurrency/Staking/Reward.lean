import ProCurrency.Connect.Minting
import ProCurrency.Staking.Lemmas.CoinStake

/-!
# The totals of a staked block

`ConnectBlock` counts the fees of the known transactions, and takes the reward of the coinstake.
-/

namespace ProCurrency

open WrappedInt CTransaction

namespace ConnectEnv

variable {G : Type} [AddCommGroup G] {env : ConnectEnv G} {s : ConnectStore} {known : KnownTxs}
  {pindex : CBlockIndex} {pprev : List CBlockIndex} {t t' : BlockTotals} {tx : CTransaction}

/-- The place of a transaction in the file of its block. -/
def posInBlock (pindex : CBlockIndex) (nTxPos : UInt32) : CDiskTxPos where
  nFile := pindex.nFile
  nBlockPos := pindex.nBlockPos
  nTxPos := nTxPos

/-- What is read at the places of the transactions of a block are these. -/
def OnDisk (env : ConnectEnv G) (known : KnownTxs) (pindex : CBlockIndex) (nTxPos : UInt32) : List CTransaction → Prop
  | [] => True
  | tx :: vtx =>
      env.ReadsKnown known (env.txHash tx) (posInBlock pindex nTxPos) ∧
        OnDisk env known pindex (nTxPos + UInt32.ofNat tx.getSerializeSize) vtx

theorem connectTx_pos (h : env.connectTx s pindex pprev false t tx = some t') :
    t'.nTxPos = t.nTxPos + UInt32.ofNat tx.getSerializeSize ∧
      t'.mapQueuedChanges (env.txHash tx) = some (.new (posInBlock pindex t.nTxPos) tx.vout.length) := by
  simp only [connectTx, Bool.false_eq_true, if_false] at h
  split at h
  · cases h
  · split at h
    · cases h
    · split at h
      · cases hout : tx.getValueOut with
        | none => simp [hout] at h
        | some nValueOut =>
            rw [hout] at h
            cases h
            exact ⟨rfl, Function.update_self ..⟩
      · cases hfetch : env.fetchInputs s t.mapQueuedChanges tx with
        | none => simp [hfetch] at h
        | some inputs =>
            simp only [hfetch] at h
            split at h
            · split at h
              · cases h
              · split at h
                · cases h
                · cases h
                  exact ⟨rfl, Function.update_self ..⟩
            · cases h

/-- The changes of a block on the disk point at known transactions. -/
theorem connectTx_backed (hs : env.Knows s known) (hmap : env.Backed known t.mapQueuedChanges)
    (hpos : env.ReadsKnown known (env.txHash tx) (posInBlock pindex t.nTxPos))
    (h : env.connectTx s pindex pprev false t tx = some t') : env.Backed known t'.mapQueuedChanges := by
  have hqueued := (connectTx_pos h).2
  have hplace {posThisTx : CDiskTxPos} {mapQueuedChanges : MapTestPool} (hback : env.Backed known mapQueuedChanges)
      (heq : t'.mapQueuedChanges =
        Function.update mapQueuedChanges (env.txHash tx) (some (.new posThisTx tx.vout.length))) :
      env.Backed known t'.mapQueuedChanges := by
    rw [heq, Function.update_self, Option.some.injEq, CTxIndex.new, CTxIndex.new, CTxIndex.mk.injEq] at hqueued
    rw [heq]
    refine hback.update ?_
    rw [CTxIndex.new, hqueued.1]
    exact hpos
  rcases hcb : tx.isCoinBase with _ | _
  · obtain ⟨inputs, _, _, mapQueuedChanges, posThisTx, hfetch, _, _, hconn, heq, _⟩ := connectTx_spec hcb h
    exact hplace (connectInputs_backed (fetchInputs_known hs hmap hfetch) hmap hconn) heq
  · obtain ⟨_, _, posThisTx, heq⟩ := connectTx_coinBase hcb h
    exact hplace hmap heq

theorem connectTx_feeOf (hs : env.Knows s known) (hmap : env.Backed known t.mapQueuedChanges)
    (hcb : tx.isCoinBase = false) (hstake : tx.isCoinStake = false)
    (h : env.connectTx s pindex pprev false t tx = some t') :
    t'.nStakeReward = t.nStakeReward ∧ t'.nFees = t.nFees + (env.feeOf s known tx).getD 0 := by
  obtain ⟨inputs, v, nValueOut, _, _, hfetch, hval, hout, _, _, hfees, hreward⟩ := connectTx_spec hcb h
  have hnot : ¬tx.isCoinStake = true := by rw [hstake]; exact Bool.false_ne_true
  rw [feeOf_eq (txValueIn_known (fetchInputs_known hs hmap hfetch) hval) hout]
  rw [if_neg hnot] at hfees hreward
  exact ⟨hreward, hfees⟩

theorem connectTx_stakeReward (hs : env.Knows s known) (hmap : env.Backed known t.mapQueuedChanges)
    (hversion : tx.nVersion ≠ ANON_TXN_VERSION) (hcb : tx.isCoinBase = false) (hstake : tx.isCoinStake = true)
    (h : env.connectTx s pindex pprev false t tx = some t') :
    t'.nStakeReward = tx.stakeReward known ∧ t'.nFees = t.nFees := by
  obtain ⟨inputs, v, nValueOut, _, _, hfetch, hval, hout, _, _, hfees, hreward⟩ := connectTx_spec hcb h
  rw [if_pos hstake] at hfees hreward
  have hv : v = Int64.ofInt (tx.coinsIn (knownInputs known) tx.vin) := by
    have hknown := txValueIn_known (fetchInputs_known hs hmap hfetch) hval
    rw [txValueIn, getValueIn, if_neg (by rw [hcb]; exact Bool.false_ne_true)] at hknown
    cases hfrom : tx.valueInFrom (knownInputs known) 0 tx.vin with
    | none => simp [hfrom] at hknown
    | some nTxValueIn =>
        simp only [hfrom, beq_eq_false_iff_ne.2 hversion, Bool.false_eq_true, if_false] at hknown
        cases hknown
        rw [valueInFrom_eq hfrom, Int64.toInt_zero, Int.zero_add]
  refine ⟨?_, hfees⟩
  rw [hreward, stakeReward, Int64.ofInt_sub, ← hv, ← (getValueOut_eq hout).1, Int64.ofInt_toInt]

/-- The fees of transactions that are neither coinbases nor coinstakes. -/
theorem connectTxs_feesOf {vtx : List CTransaction} (hs : env.Knows s known)
    (hplain : ∀ tx ∈ vtx, tx.isCoinBase = false ∧ tx.isCoinStake = false)
    (hmap : env.Backed known t.mapQueuedChanges) (hdisk : env.OnDisk known pindex t.nTxPos vtx)
    (h : env.connectTxs s pindex pprev false t vtx = some t') :
    t'.nStakeReward = t.nStakeReward ∧ t'.nFees = t.nFees + Int64.ofInt (env.feesOf s known vtx) := by
  induction vtx generalizing t with
  | nil =>
      cases h
      exact ⟨rfl, (Int64.add_zero _).symm⟩
  | cons tx vtx ih =>
      obtain ⟨t₁, hstep, hrest⟩ := connectTxs_cons h
      obtain ⟨hcb, hstake⟩ := hplain tx List.mem_cons_self
      obtain ⟨hreward, hfees⟩ := connectTx_feeOf hs hmap hcb hstake hstep
      obtain ⟨hreward', hfees'⟩ := ih (fun tx htx => hplain tx (List.mem_cons_of_mem _ htx))
        (connectTx_backed hs hmap hdisk.1 hstep) ((connectTx_pos hstep).1 ▸ hdisk.2) hrest
      rw [hreward', hreward, hfees', hfees, feesOf_cons, Int64.ofInt_add, Int64.ofInt_toInt, Int64.add_assoc]
      exact ⟨rfl, rfl⟩

/-- The totals of a block with a coinstake: its reward, and the fees of the transactions behind it. -/
theorem connectTxs_staked {coinBase coinStake : CTransaction} {vtx : List CTransaction} (hs : env.Knows s known)
    (hcoinBase : coinBase.isCoinBase = true) (hversion : coinStake.nVersion ≠ ANON_TXN_VERSION)
    (hcb : coinStake.isCoinBase = false) (hstake : coinStake.isCoinStake = true)
    (hplain : ∀ tx ∈ vtx, tx.isCoinBase = false ∧ tx.isCoinStake = false)
    (hmap : env.Backed known t.mapQueuedChanges)
    (hdisk : env.OnDisk known pindex t.nTxPos (coinBase :: coinStake :: vtx))
    (h : env.connectTxs s pindex pprev false t (coinBase :: coinStake :: vtx) = some t') :
    t'.nStakeReward = coinStake.stakeReward known ∧ t'.nFees = t.nFees + Int64.ofInt (env.feesOf s known vtx) := by
  obtain ⟨t₁, hstep₁, hrest₁⟩ := connectTxs_cons h
  obtain ⟨t₂, hstep₂, hrest₂⟩ := connectTxs_cons hrest₁
  have hmap₁ := connectTx_backed hs hmap hdisk.1 hstep₁
  have hdisk₁ : env.OnDisk known pindex t₁.nTxPos (coinStake :: vtx) := (connectTx_pos hstep₁).1 ▸ hdisk.2
  have hmap₂ := connectTx_backed hs hmap₁ hdisk₁.1 hstep₂
  have hdisk₂ : env.OnDisk known pindex t₂.nTxPos vtx := (connectTx_pos hstep₂).1 ▸ hdisk₁.2
  obtain ⟨hreward, hfees⟩ := connectTxs_feesOf hs hplain hmap₂ hdisk₂ hrest₂
  obtain ⟨hreward₂, hfees₂⟩ := connectTx_stakeReward hs hmap₁ hversion hcb hstake hstep₂
  rw [hreward, hfees, hreward₂, hfees₂, (connectTx_coinBase hcoinBase hstep₁).1]
  exact ⟨rfl, rfl⟩

end ConnectEnv

end ProCurrency

/-!
## The reward of a node's own block

`CreateCoinStake` pays the fees out that `CreateNewBlock` has summed up. `SignBlock` then drops the transactions that
are later than the kernel, and `ConnectBlock` allows the fees of the others.
-/

namespace ProCurrency

open WrappedInt ConnectEnv

/-- The node at another time. -/
def ConnectEnv.atTime {G : Type} (env : ConnectEnv G) (nAdjustedTime : Int) : ConnectEnv G := { env with nAdjustedTime }

def MinerEnv.atTime {G D : Type} (m : MinerEnv G D) (nAdjustedTime : Int) : MinerEnv G D :=
  { m with connect := m.connect.atTime nAdjustedTime }

variable {G D K : Type} [AddCommGroup G] {known : KnownTxs} {s : ConnectStore} {pindexPrev : CBlockIndex}
  {pprev : List CBlockIndex}

/-! ## Fees -/

namespace ConnectEnv

variable {env : ConnectEnv G}

omit [AddCommGroup G] in
theorem ringCoinValue_atTime (env : ConnectEnv G) (nAdjustedTime : Int) (s : ConnectStore) (pPubkeys : Bytes)
    (nCoinValue : Int64) (ris : List Nat) :
    (env.atTime nAdjustedTime).ringCoinValue s pPubkeys nCoinValue ris =
      env.ringCoinValue s pPubkeys nCoinValue ris := by
  induction ris generalizing nCoinValue with
  | nil => rfl
  | cons ri ris ih =>
      rw [ringCoinValue, ringCoinValue]
      simp only [ih]
      rfl

theorem checkAnonInput_atTime (env : ConnectEnv G) (nAdjustedTime : Int) (s : ConnectStore) (fCheckExists : Bool)
    (preimage txnHash : UInt256) (txin : CTxIn) :
    (env.atTime nAdjustedTime).checkAnonInput s fCheckExists preimage txnHash txin =
      env.checkAnonInput s fCheckExists preimage txnHash txin := by
  rw [checkAnonInput, checkAnonInput]
  simp only [ringCoinValue_atTime]
  rfl

theorem checkAnonInputsFrom_atTime (env : ConnectEnv G) (nAdjustedTime : Int) (s : ConnectStore) (fCheckExists : Bool)
    (preimage txnHash : UInt256) (nSumValue : Int64) (vin : List CTxIn) :
    (env.atTime nAdjustedTime).checkAnonInputsFrom s fCheckExists preimage txnHash nSumValue vin =
      env.checkAnonInputsFrom s fCheckExists preimage txnHash nSumValue vin := by
  induction vin generalizing nSumValue with
  | nil => rfl
  | cons txin vin ih =>
      rw [checkAnonInputsFrom, checkAnonInputsFrom]
      simp only [ih, checkAnonInput_atTime]

/-- The fees do not depend on the time. -/
theorem feeOf_atTime (env : ConnectEnv G) (nAdjustedTime : Int) (s : ConnectStore) (known : KnownTxs)
    (tx : CTransaction) : (env.atTime nAdjustedTime).feeOf s known tx = env.feeOf s known tx := by
  have hanon : (env.atTime nAdjustedTime).checkAnonInputs s true tx = env.checkAnonInputs s true tx := by
    rw [checkAnonInputs, checkAnonInputs]
    simp only [checkAnonInputsFrom_atTime]
    rfl
  rw [feeOf, feeOf, txValueIn, txValueIn, hanon]

theorem feesOf_atTime (env : ConnectEnv G) (nAdjustedTime : Int) (s : ConnectStore) (known : KnownTxs)
    (vtx : List CTransaction) : (env.atTime nAdjustedTime).feesOf s known vtx = env.feesOf s known vtx := by
  rw [feesOf, feesOf]
  simp only [feeOf_atTime]

theorem paying_atTime {nAdjustedTime : Int} {tx : CTransaction} (h : Paying (env.atTime nAdjustedTime) s known tx) :
    Paying env s known tx := by
  obtain ⟨nFee, hfee, hmin⟩ := h.fee
  exact ⟨h.notCoinBase, h.notCoinStake, nFee, feeOf_atTime env nAdjustedTime s known tx ▸ hfee, hmin⟩

theorem feesOf_partition (env : ConnectEnv G) (s : ConnectStore) (known : KnownTxs) (p : CTransaction → Bool)
    (vtx : List CTransaction) :
    env.feesOf s known vtx =
      env.feesOf s known (vtx.filter p) + env.feesOf s known (vtx.filter fun tx => !p tx) := by
  induction vtx with
  | nil => rfl
  | cons tx vtx ih =>
      cases hp : p tx with
      | true =>
          rw [List.filter_cons_of_pos hp, List.filter_cons_of_neg (by simp [hp]), feesOf_cons, feesOf_cons, ih,
            Int.add_assoc]
      | false =>
          rw [List.filter_cons_of_neg (by simp [hp]), List.filter_cons_of_pos (by simp [hp]), feesOf_cons, feesOf_cons,
            ih, Int.add_left_comm]

/-- Every transaction of a template pays something. -/
theorem feesOf_ge (vtx : List CTransaction) (h : ∀ tx ∈ vtx, Paying env s known tx) :
    (vtx.length : Int) ≤ env.feesOf s known vtx := by
  induction vtx with
  | nil => exact Int.le_refl 0
  | cons tx vtx ih =>
      obtain ⟨nFee, hfee, hmin⟩ := (h tx List.mem_cons_self).fee
      have hrest := ih fun tx htx => h tx (List.mem_cons_of_mem _ htx)
      have hpaid : (10000 : Int) ≤ nFee.toInt := Int64.le_iff_toInt_le.1 hmin
      rw [feesOf_cons, hfee, Option.getD_some, List.length_cons]
      push_cast
      omega

end ConnectEnv

theorem getProofOfStakeReward_ofInt (pindexPrev : CBlockIndex) (nFees : Int) :
    getProofOfStakeReward pindexPrev (Int64.ofInt nFees) =
      Int64.ofInt ((getProofOfStakeReward pindexPrev 0).toInt + nFees) := by
  rw [getProofOfStakeReward, getProofOfStakeReward, Int64.add_zero, Int64.ofInt_add, Int64.ofInt_toInt]

/-- The reward grows with the fees, as long as it fits. -/
theorem getProofOfStakeReward_le_iff {nFees nFees' : Int} (hpos : 0 ≤ nFees') (hle : nFees' ≤ nFees)
    (hfit : (getProofOfStakeReward pindexPrev 0).toInt + nFees < 2 ^ 63) :
    getProofOfStakeReward pindexPrev (Int64.ofInt nFees) ≤ getProofOfStakeReward pindexPrev (Int64.ofInt nFees') ↔
      nFees' = nFees := by
  have hsub := getProofOfStakeReward_nonneg pindexPrev
  rw [Int64.le_iff_toInt_le, getProofOfStakeReward_ofInt, getProofOfStakeReward_ofInt pindexPrev nFees',
    Int64.toInt_ofInt_of_le (by omega) hfit, Int64.toInt_ofInt_of_le (by omega) (by omega)]
  constructor <;> intro h <;> omega

/-! ## The block -/

/-- The reward of the coinstake is within what the fees of the transactions behind it allow. -/
def PaysWithin (env : ConnectEnv G) (s : ConnectStore) (known : KnownTxs) (pindexPrev : CBlockIndex) (block : CBlock) :
    Prop :=
  match block.vtx with
  | _ :: coinStake :: vtx =>
      coinStake.stakeReward known ≤ getProofOfStakeReward pindexPrev (Int64.ofInt (env.feesOf s known vtx))
  | _ => False

theorem paysWithin_of_vtx {env : ConnectEnv G} {block : CBlock} {coinbase coinStake : CTransaction}
    {vtx : List CTransaction} (h : block.vtx = coinbase :: coinStake :: vtx) :
    PaysWithin env s known pindexPrev block ↔
      coinStake.stakeReward known ≤ getProofOfStakeReward pindexPrev (Int64.ofInt (env.feesOf s known vtx)) := by
  rw [PaysWithin, h]

instance (env : ConnectEnv G) (s : ConnectStore) (known : KnownTxs) (pindexPrev : CBlockIndex) (block : CBlock) :
    Decidable (PaysWithin env s known pindexPrev block) :=
  match h : block.vtx with
  | _ :: _ :: _ => decidable_of_iff _ (paysWithin_of_vtx h).symm
  | [] => isFalse (by rw [PaysWithin, h]; exact not_false)
  | [_] => isFalse (by rw [PaysWithin, h]; exact not_false)

namespace StakeEnv

variable {e : StakeEnv G D K}

/-- The time of the kernel that `SignBlock` stakes, for a block with this target. -/
def IsKernelTime (e : StakeEnv G D K) (pindexPrev : CBlockIndex) (pprev : List CBlockIndex)
    (nLastCoinStakeSearchTime : Int) (nBits nTimeTx : UInt32) : Prop :=
  e.FirstKernel pindexPrev pprev nBits e.searchFrom
    (min (e.searchInterval e.searchFrom.toNat nLastCoinStakeSearchTime) nMaxStakeSearchInterval).toNat
    (e.wallet.selectCoinsForStaking e.stakeable e.searchFrom) nTimeTx

/-- The fees of a template stay in the block: no transaction behind the coinbase is later than the kernel. Where the
reward does not fit in 64 bits, the wrapped rewards are compared. -/
def KeepsFees (e : StakeEnv G D K) (s : ConnectStore) (known : KnownTxs) (pindexPrev : CBlockIndex)
    (pprev : List CBlockIndex) (nLastCoinStakeSearchTime : Int) (block : CBlock) : Prop :=
  ∀ nTimeTx, e.IsKernelTime pindexPrev pprev nLastCoinStakeSearchTime block.nBits nTimeTx →
    (∀ tx ∈ block.vtx.tail, ¬nTimeTx < tx.nTime) ∨
      (2 ^ 63 ≤ (getProofOfStakeReward pindexPrev 0).toInt + e.connect.feesOf s known block.vtx.tail ∧
        getProofOfStakeReward pindexPrev (Int64.ofInt (e.connect.feesOf s known block.vtx.tail)) ≤
          getProofOfStakeReward pindexPrev
            (Int64.ofInt (e.connect.feesOf s known (block.vtx.tail.filter fun tx => !(nTimeTx < tx.nTime)))))

/-- The fees of the template against those of the transactions that are not later than a time. -/
theorem reward_le_iff {vtx : List CTransaction} {nTimeTx : UInt32}
    (hpaying : ∀ tx ∈ vtx, Paying e.connect s known tx) :
    getProofOfStakeReward pindexPrev (Int64.ofInt (e.connect.feesOf s known vtx)) ≤
        getProofOfStakeReward pindexPrev
          (Int64.ofInt (e.connect.feesOf s known (vtx.filter fun tx => !(nTimeTx < tx.nTime)))) ↔
      (∀ tx ∈ vtx, ¬nTimeTx < tx.nTime) ∨
        (2 ^ 63 ≤ (getProofOfStakeReward pindexPrev 0).toInt + e.connect.feesOf s known vtx ∧
          getProofOfStakeReward pindexPrev (Int64.ofInt (e.connect.feesOf s known vtx)) ≤
            getProofOfStakeReward pindexPrev
              (Int64.ofInt (e.connect.feesOf s known (vtx.filter fun tx => !(nTimeTx < tx.nTime))))) := by
  have hpart := e.connect.feesOf_partition s known (fun tx => !decide (nTimeTx < tx.nTime)) vtx
  have hkept := feesOf_ge (vtx.filter fun tx => !decide (nTimeTx < tx.nTime))
    fun tx htx => hpaying tx (List.mem_of_mem_filter htx)
  have hdropped := feesOf_ge (vtx.filter fun tx => !!decide (nTimeTx < tx.nTime))
    fun tx htx => hpaying tx (List.mem_of_mem_filter htx)
  constructor
  · intro hle
    rcases lt_or_ge ((getProofOfStakeReward pindexPrev 0).toInt + e.connect.feesOf s known vtx) (2 ^ 63)
      with hfit | hlarge
    · left
      have heq := (getProofOfStakeReward_le_iff (by omega) (by omega) hfit).1 hle
      have hnone : (vtx.filter fun tx => !!decide (nTimeTx < tx.nTime)) = [] :=
        List.eq_nil_of_length_eq_zero (by omega)
      intro tx htx hlater
      have := List.filter_eq_nil_iff.1 hnone tx htx
      simp [hlater] at this
    · exact .inr ⟨hlarge, hle⟩
  · rintro (hearly | ⟨_, hle⟩)
    · have hall : (vtx.filter fun tx => !decide (nTimeTx < tx.nTime)) = vtx :=
        List.filter_eq_self.2 fun tx htx => by rw [decide_eq_false (hearly tx htx)]; rfl
      rw [hall]
      exact Int64.le_refl _
    · exact hle

/-- A block that is signed pays within its fees, and passes the check of `ConnectBlock`, exactly when the fees of its
template stay in it. -/
theorem signBlock_paysWithin_iff {nCreateTime nLastCoinStakeSearchTime : Int} {mapTx : List CTransaction}
    {block block' : CBlock} {nFees : Int64} (hs : e.connect.Knows s known) (hwallet : e.KnowsWallet known)
    (hcreate : (e.toMinerEnv.atTime nCreateTime).createNewBlock s pindexPrev pprev mapTx = some (block, nFees))
    (hsign : e.signBlock pindexPrev pprev nLastCoinStakeSearchTime block nFees = some block') :
    (PaysWithin e.connect s known pindexPrev block' ↔
        e.KeepsFees s known pindexPrev pprev nLastCoinStakeSearchTime block) ∧
      ∀ (pindex : CBlockIndex) (t : BlockTotals),
        e.connect.OnDisk known pindex (BlockTotals.start pindex false block'.vtx.length).nTxPos block'.vtx →
        e.connect.connectTxs s pindex (pindexPrev :: pprev) false (.start pindex false block'.vtx.length) block'.vtx =
          some t →
        (checkReward block' pindex (pindexPrev :: pprev) t = some true ↔
          e.KeepsFees s known pindexPrev pprev nLastCoinStakeSearchTime block) := by
  have hs' : (e.toMinerEnv.atTime nCreateTime).connect.Knows s known := ⟨hs.disk, hs.pool⟩
  obtain ⟨vtx, hvtx, hpaying', hnFees⟩ := MinerEnv.createNewBlock_spec hs' hcreate
  have hpaying : ∀ tx ∈ vtx, Paying e.connect s known tx := fun tx htx => paying_atTime (hpaying' tx htx)
  replace hnFees : nFees = Int64.ofInt (e.connect.feesOf s known vtx) :=
    hnFees.trans (congrArg Int64.ofInt (feesOf_atTime e.connect nCreateTime s known vtx))
  obtain ⟨tx, hstakes, hvtx'⟩ := signBlock_spec hwallet hvtx (fun tx htx => (hpaying tx htx).notCoinStake) hsign
  have hkeeps : tx.stakeReward known ≤ getProofOfStakeReward pindexPrev
      (Int64.ofInt (e.connect.feesOf s known (vtx.filter fun tx' => !(tx.nTime < tx'.nTime)))) ↔
      e.KeepsFees s known pindexPrev pprev nLastCoinStakeSearchTime block := by
    have htail : block.vtx.tail = vtx := by rw [hvtx, List.tail_cons]
    rw [hstakes.reward, hnFees, reward_le_iff hpaying, KeepsFees, htail]
    constructor
    · intro h nTimeTx htime
      obtain rfl := FirstKernel.unique htime hstakes.time
      exact h
    · intro h
      exact h tx.nTime hstakes.time
  refine ⟨(paysWithin_of_vtx hvtx').trans hkeeps, ?_⟩
  · intro pindex t hdisk htxs
    rw [← hkeeps]
    rw [hvtx'] at hdisk htxs
    obtain ⟨hreward, hfees⟩ := connectTxs_staked hs rfl (by rw [hstakes.version]; decide)
      hstakes.notCoinBase hstakes.isCoinStake
      (fun tx' htx' => ⟨(hpaying tx' (List.mem_of_mem_filter htx')).notCoinBase,
        (hpaying tx' (List.mem_of_mem_filter htx')).notCoinStake⟩) .empty hdisk htxs
    have hwork : block'.isProofOfWork = false := by
      rw [CBlock.isProofOfWork, CBlock.isProofOfStake, hvtx']
      simp only [hstakes.isCoinStake, Bool.not_true]
    have hstart : t.nFees = Int64.ofInt (e.connect.feesOf s known (vtx.filter fun tx' => !(tx.nTime < tx'.nTime))) :=
      hfees.trans (Int64.zero_add _)
    have hage : (getCoinAge pindexPrev).2 = true := by
      rw [getCoinAge]
      split <;> rfl
    simp only [checkReward, hwork, Bool.false_eq_true, if_false, hreward, hstart, hage, Bool.true_and,
      Option.some.injEq, decide_eq_true_iff]

end StakeEnv

/-! ## A transaction between the kernel and the clock -/

/-- A transaction of the wallet: an output that it may stake, and one of five coins. -/
def stakedTx : CTransaction where
  nVersion := 1
  nTime := 1490000000
  vin := []
  vout := [{ nValue := 100000000000, scriptPubKey := [OP_CHECKSIG] }, { nValue := 500000000, scriptPubKey := [OP_1] }]
  nLockTime := 7

def stakedPos : CDiskTxPos where
  nFile := 1
  nBlockPos := 1000
  nTxPos := 1081

/-- A transaction of the memory pool that pays a fee of 0.001 coins. -/
def pooledTx (nTime : UInt32) : CTransaction where
  nVersion := 1
  nTime
  vin := [{ prevout := { hash := 7, n := 1 }, scriptSig := [], nSequence := -1 }]
  vout := [{ nValue := 499900000, scriptPubKey := [OP_1] }]
  nLockTime := 2

def stakedStore : ConnectStore where
  txIndex hash := if hash = 7 then some (.new stakedPos 2) else none
  diskTxIndex hash := if hash = 7 then some (.new stakedPos 2) else none
  keyImages _ := none
  anonOutputs _ := none
  mapKeyImage _ := none

def stakedTip : CBlockIndex := { hashBlock := 5, nFile := 1, nBlockPos := 5000, nHeight := 1000, nTime := 1490049000 }

/-- The arithmetic of the rational numbers. -/
def ratOps : DoubleOps Rat where
  ofInt := fun n => n
  add := (· + ·)
  mul := (· * ·)
  div := (· / ·)
  lt := fun a b => a < b
  eq := fun a b => a = b

/-- A node eight seconds after a multiple of sixteen. Every hash of a kernel is zero. -/
def stakingEnv (nTime : UInt32) : StakeEnv (ZMod (2 ^ 256 + 297)) Rat Unit where
  connect :=
    { fundedEnv with
      nBestHeight := 1000
      pindexBest := stakedTip
      nAdjustedTime := 1490050008
      readTx := fun pos => if pos = stakedPos then some stakedTx else none
      mempoolTx := fun hash => if hash = 2 then some (pooledTx nTime) else none }
  double := ratOps
  nBlockMaxSize := 500000
  nBlockPrioritySize := 27000
  nBlockMinSize := 0
  nMinTxFee := 10000
  coinbaseFlags := []
  kernel :=
    { network := .main
      hash := fun _ => 0
      txHash := fundedEnv.txHash
      blockHash := fundedEnv.blockHash
      verifyScript := fun _ _ _ _ => true }
  stores :=
    { mapBlockIndex := fun _ => none
      readTxIndex := stakedStore.txIndex
      readTx := fun pos => if pos = stakedPos then some stakedTx else none
      readBlock := fun _ _ => some { payingBlock with nTime := 1490000000 } }
  nStakeMinAge := 21600
  wallet :=
    { nBalance := 100500000000
      nReserveBalance := 0
      availableCoinsForStaking := fun _ =>
        [{ address := 1, tx := stakedTx, n := 0, isInt := by decide, inRange := by decide }]
      solver := fun _ => some (.pubKeyHash 5)
      hash160 := fun _ => 5
      getKey := fun _ => some ()
      getPubKey := fun _ => [2]
      signSignature := fun _ _ _ => some [1]
      sign := fun _ _ => some [1] }

def stakedKnown (nTime : UInt32) : KnownTxs := fun hash =>
  if hash = 7 then some stakedTx else if hash = 2 then some (pooledTx nTime) else none

theorem knows_stakingEnv (nTime : UInt32) : (stakingEnv nTime).connect.Knows stakedStore (stakedKnown nTime) where
  disk hash txindex tx hindex hread := by
    by_cases hhash : hash = 7
    · simp only [stakedStore, hhash, if_true, Option.some.injEq] at hindex
      rw [← hindex] at hread
      rw [stakedKnown, if_pos hhash]
      exact hread
    · simp only [stakedStore, hhash, if_false] at hindex
      cases hindex
  pool hash tx h := by
    by_cases hhash : hash = 2
    · rw [hhash] at h ⊢
      exact h
    · simp only [stakingEnv, hhash, if_false] at h
      cases h

theorem knowsWallet_stakingEnv (nTime : UInt32) : (stakingEnv nTime).KnowsWallet (stakedKnown nTime) := by
  intro nSpendTime coin hcoin
  obtain rfl := List.mem_singleton.1 hcoin
  rfl

/-- The template, the fees and the signed block of a node that has this transaction in its pool. -/
def stakedRun (nTime : UInt32) : Option ((CBlock × Int64) × CBlock) :=
  (((stakingEnv nTime).toMinerEnv.atTime 1490050008).createNewBlock stakedStore stakedTip [] [pooledTx nTime]).bind
    fun r => ((stakingEnv nTime).signBlock stakedTip [] 0 r.1 r.2).map (r, ·)

def stakedIndex : CBlockIndex := { nHeight := 1001, nFile := 1, nBlockPos := 9000 }

/-- A transaction that is older than the kernel. -/
theorem signBlock_paysWithin_iff_early :
    ∃ block nFees block', stakedRun 1490049000 = some ((block, nFees), block') ∧
      (PaysWithin (stakingEnv 1490049000).connect stakedStore (stakedKnown 1490049000) stakedTip block' ↔
          (stakingEnv 1490049000).KeepsFees stakedStore (stakedKnown 1490049000) stakedTip [] 0 block) := by
  obtain ⟨⟨⟨block, nFees⟩, block'⟩, hrun⟩ := Option.isSome_iff_exists.1
    (show (stakedRun 1490049000).isSome = true by decide +kernel)
  obtain ⟨r, hcreate, hsigned⟩ := Option.bind_eq_some_iff.1 hrun
  obtain ⟨b, hsign, hb⟩ := Option.map_eq_some_iff.1 hsigned
  cases hb
  exact ⟨block, nFees, block', hrun,
    (StakeEnv.signBlock_paysWithin_iff (knows_stakingEnv _) (knowsWallet_stakingEnv _) hcreate hsign).1⟩

/-- The transaction came five seconds behind the time that is staked, and is dropped: the reward still has its fee,
and `ConnectBlock` refuses it. -/
theorem not_paysWithin_late :
    (stakingEnv 1490050005).connect.Knows stakedStore (stakedKnown 1490050005) ∧
      (stakingEnv 1490050005).KnowsWallet (stakedKnown 1490050005) ∧
      ∃ block nFees block',
        ((stakingEnv 1490050005).toMinerEnv.atTime 1490050008).createNewBlock stakedStore stakedTip []
          [pooledTx 1490050005] = some (block, nFees) ∧
        (stakingEnv 1490050005).signBlock stakedTip [] 0 block nFees = some block' ∧
        ¬PaysWithin (stakingEnv 1490050005).connect stakedStore (stakedKnown 1490050005) stakedTip block' ∧
        ∃ t, (stakingEnv 1490050005).connect.connectTxs stakedStore stakedIndex [stakedTip] false
            (.start stakedIndex false block'.vtx.length) block'.vtx = some t ∧
          checkReward block' stakedIndex [stakedTip] t = some false := by
  have hany : (stakedRun 1490050005).any (fun r =>
      !decide (PaysWithin (stakingEnv 1490050005).connect stakedStore (stakedKnown 1490050005) stakedTip r.2) &&
        ((stakingEnv 1490050005).connect.connectTxs stakedStore stakedIndex [stakedTip] false
          (.start stakedIndex false r.2.vtx.length) r.2.vtx).any
            (fun t => checkReward r.2 stakedIndex [stakedTip] t = some false)) = true := by
    decide +kernel
  obtain ⟨⟨⟨block, nFees⟩, block'⟩, hrun, htest⟩ := (Option.any_eq_true _ _).1 hany
  obtain ⟨r, hcreate, hsigned⟩ := Option.bind_eq_some_iff.1 hrun
  obtain ⟨b, hsign, hb⟩ := Option.map_eq_some_iff.1 hsigned
  cases hb
  obtain ⟨hpays, hconn⟩ := Bool.and_eq_true_iff.1 htest
  obtain ⟨t, htxs, hcheck⟩ := (Option.any_eq_true _ _).1 hconn
  exact ⟨knows_stakingEnv _, knowsWallet_stakingEnv _, block, nFees, block', hcreate, hsign,
    of_decide_eq_false (by simpa using hpays), t, htxs, of_decide_eq_true hcheck⟩

end ProCurrency

import ProCurrency.Connect.Lemmas.Recording
import ProCurrency.Ring.Theorems

/-!
# What a block mints

`ConnectBlock` compares the stake reward with the subsidy in proof-of-stake blocks only, and `ConnectInputs` lets a
coinstake pay out more than it spends in any block. A proof-of-work block with a coinstake behind its second
transaction is therefore bounded by its coinbase alone.
-/

namespace ProCurrency

open WrappedInt

/-- A transaction of an accepted block, with the exact value of what it spends. -/
structure TxFlow where
  tx : CTransaction
  nValueIn : Int

namespace TxFlow

/-- What a transaction pays out beyond what it spends. -/
def excess (flow : TxFlow) : Int := flow.tx.valueOut - flow.nValueIn

/-- What several transactions pay out beyond what they spend. -/
def minted (flows : List TxFlow) : Int := (flows.map excess).sum

def coinBases (flows : List TxFlow) : List TxFlow := flows.filter fun flow => flow.tx.isCoinBase

def coinStakes (flows : List TxFlow) : List TxFlow :=
  flows.filter fun flow => !flow.tx.isCoinBase && flow.tx.isCoinStake

/-- What the transactions that are neither leave as fees. -/
def fees (flows : List TxFlow) : Int :=
  -minted (flows.filter fun flow => !flow.tx.isCoinBase && !flow.tx.isCoinStake)

theorem minted_cons (flow : TxFlow) (flows : List TxFlow) :
    minted (flow :: flows) = flow.excess + minted flows := by
  simp [minted]

theorem minted_eq (flows : List TxFlow) :
    minted flows = minted (coinBases flows) + minted (coinStakes flows) - fees flows := by
  induction flows with
  | nil => rfl
  | cons flow flows ih =>
      rw [minted_cons, ih, coinBases, coinStakes, fees, coinBases, coinStakes, fees]
      rcases hcb : flow.tx.isCoinBase with _ | _
      · rcases hstake : flow.tx.isCoinStake with _ | _ <;> simp [hcb, hstake, minted] <;> omega
      · simp [hcb, minted]
        omega

end TxFlow

namespace ConnectEnv

open TxFlow

variable {G : Type} [AddCommGroup G]

/-- The transactions along the loop of `ConnectBlock`. -/
def flowsFrom (env : ConnectEnv G) (s : ConnectStore) (pindex : CBlockIndex) (pprev : List CBlockIndex)
    (fJustCheck : Bool) (t : BlockTotals) : List CTransaction → List TxFlow
  | [] => []
  | tx :: vtx =>
      match env.connectTx s pindex pprev fJustCheck t tx with
      | none => []
      | some t' =>
          { tx, nValueIn := env.valueIn s t.mapQueuedChanges tx } ::
            flowsFrom env s pindex pprev fJustCheck t' vtx

def flows (env : ConnectEnv G) (s : ConnectStore) (pindex : CBlockIndex) (pprev : List CBlockIndex)
    (fJustCheck : Bool) (block : CBlock) : List TxFlow :=
  env.flowsFrom s pindex pprev fJustCheck (.start pindex fJustCheck block.vtx.length) block.vtx

variable {env : ConnectEnv G} {s : ConnectStore} {pindex : CBlockIndex} {pprev : List CBlockIndex}
  {fJustCheck : Bool} {t t' : BlockTotals} {tx : CTransaction} {vtx : List CTransaction}

/-! ## Fees -/

theorem flowsFrom_cons {t₁ : BlockTotals} (h : env.connectTx s pindex pprev fJustCheck t tx = some t₁) :
    env.flowsFrom s pindex pprev fJustCheck t (tx :: vtx) =
      { tx, nValueIn := env.valueIn s t.mapQueuedChanges tx } ::
        env.flowsFrom s pindex pprev fJustCheck t₁ vtx := by
  rw [flowsFrom, h]

/-- The fees of one transaction: nothing, or its balance, which is not negative. -/
theorem connectTx_fees {t₁ : BlockTotals} (hs : s.RingCoinsInRange)
    (h : env.connectTx s pindex pprev fJustCheck t tx = some t₁) :
    0 ≤ fees [{ tx, nValueIn := env.valueIn s t.mapQueuedChanges tx }] ∧
      t₁.nFees = t.nFees + Int64.ofInt (fees [{ tx, nValueIn := env.valueIn s t.mapQueuedChanges tx }]) := by
  rcases hcb : tx.isCoinBase with _ | _
  · rcases hstake : tx.isCoinStake with _ | _
    · obtain ⟨_, hle, hfees⟩ := connectTx_fee hs hcb hstake h
      have heq : fees [{ tx, nValueIn := env.valueIn s t.mapQueuedChanges tx }] =
          env.valueIn s t.mapQueuedChanges tx - tx.valueOut := by
        simp [fees, hcb, hstake, minted, excess]
      rw [heq, hfees, Int64.ofInt_add, Int64.ofInt_toInt]
      exact ⟨by omega, rfl⟩
    · have heq : fees [{ tx, nValueIn := env.valueIn s t.mapQueuedChanges tx }] = 0 := by
        simp [fees, hcb, hstake, minted]
      rw [heq, (connectTx_coinStake hs hcb hstake h).1]
      exact ⟨Int.le_refl 0, (Int64.add_zero _).symm⟩
  · have heq : fees [{ tx, nValueIn := env.valueIn s t.mapQueuedChanges tx }] = 0 := by
      simp [fees, hcb, minted]
    rw [heq, (connectTx_coinBase hcb h).1]
    exact ⟨Int.le_refl 0, (Int64.add_zero _).symm⟩

theorem fees_cons (flow : TxFlow) (flows : List TxFlow) : fees (flow :: flows) = fees [flow] + fees flows := by
  rw [fees, fees, fees]
  rcases hcb : flow.tx.isCoinBase with _ | _
  · rcases hstake : flow.tx.isCoinStake with _ | _ <;> simp [hcb, hstake, minted]
    omega
  · simp [hcb, minted]

/-- `nFees` is the image of the exact fees. -/
theorem connectTxs_fees (hs : s.RingCoinsInRange)
    (h : env.connectTxs s pindex pprev fJustCheck t vtx = some t') :
    0 ≤ fees (env.flowsFrom s pindex pprev fJustCheck t vtx) ∧
      t'.nFees = t.nFees + Int64.ofInt (fees (env.flowsFrom s pindex pprev fJustCheck t vtx)) := by
  induction vtx generalizing t with
  | nil =>
      cases h
      exact ⟨Int.le_refl 0, (Int64.add_zero _).symm⟩
  | cons tx vtx ih =>
      obtain ⟨t₁, hstep, hrest⟩ := connectTxs_cons h
      obtain ⟨hfirst, hfees⟩ := connectTx_fees hs hstep
      obtain ⟨hnonneg, heq⟩ := ih hrest
      rw [flowsFrom_cons hstep, fees_cons, heq, hfees, Int64.ofInt_add, Int64.add_assoc]
      exact ⟨by omega, rfl⟩

/-! ## Stake rewards -/

theorem connectTxs_stakeReward (hs : s.RingCoinsInRange)
    (hplain : ∀ tx ∈ vtx, tx.isCoinBase = false ∧ tx.isCoinStake = false)
    (h : env.connectTxs s pindex pprev fJustCheck t vtx = some t') : t'.nStakeReward = t.nStakeReward := by
  induction vtx generalizing t with
  | nil =>
      cases h
      rfl
  | cons tx vtx ih =>
      obtain ⟨t₁, hstep, hrest⟩ := connectTxs_cons h
      obtain ⟨hcb, hstake⟩ := hplain tx List.mem_cons_self
      rw [ih (fun tx htx => hplain tx (List.mem_cons_of_mem _ htx)) hrest, (connectTx_fee hs hcb hstake hstep).1]

/-! ## The subsidy -/

/-- `GetProofOfWorkReward(nHeight, 0)` or `GetProofOfStakeReward(pprev, nCoinAge, 0)`. -/
def subsidy (block : CBlock) (pindex : CBlockIndex) (pprev : List CBlockIndex) : Int :=
  if block.isProofOfWork then (getProofOfWorkReward pindex.nHeight 0).toInt
  else
    match pprev with
    | [] => 0
    | pindexPrev :: _ => (getProofOfStakeReward pindexPrev 0).toInt

/-- Fees that are not negative add to a subsidy at most what they are. -/
theorem toInt_add_fees_le {nSubsidy : Int64} {nFees : Int} (hsub : 0 ≤ nSubsidy.toInt) (hfees : 0 ≤ nFees) :
    (nSubsidy + Int64.ofInt nFees).toInt ≤ (nSubsidy + 0).toInt + nFees := by
  have himage : nSubsidy + Int64.ofInt nFees = Int64.ofInt (nSubsidy.toInt + nFees) := by
    rw [Int64.ofInt_add, Int64.ofInt_toInt]
  rw [himage, Int64.add_zero]
  exact toInt_ofInt_le (by omega)

theorem getProofOfWorkReward_le {nHeight nFees : Int} (hfees : 0 ≤ nFees) :
    (getProofOfWorkReward nHeight (Int64.ofInt nFees)).toInt ≤ (getProofOfWorkReward nHeight 0).toInt + nFees := by
  refine toInt_add_fees_le ?_ hfees
  split_ifs <;> decide

theorem getProofOfStakeReward_le {pindexPrev : CBlockIndex} {nFees : Int} (hfees : 0 ≤ nFees) :
    (getProofOfStakeReward pindexPrev (Int64.ofInt nFees)).toInt ≤
      (getProofOfStakeReward pindexPrev 0).toInt + nFees := by
  refine toInt_add_fees_le ?_ hfees
  split_ifs <;> decide

theorem getProofOfStakeReward_nonneg (pindexPrev : CBlockIndex) :
    0 ≤ (getProofOfStakeReward pindexPrev 0).toInt := by
  rw [getProofOfStakeReward, Int64.add_zero]
  split_ifs <;> decide

/-! ## Blocks -/

variable {s' : ConnectStore} {block : CBlock}

/-- What the coinbase leaves of the reward of a proof-of-work block. -/
def unclaimedReward (block : CBlock) (pindex : CBlockIndex) (pprev : List CBlockIndex) (flows : List TxFlow) :
    Int :=
  subsidy block pindex pprev + fees flows - minted (coinBases flows)

theorem mem_flowsFrom {flow : TxFlow} (h : flow ∈ env.flowsFrom s pindex pprev fJustCheck t vtx) :
    flow.tx ∈ vtx := by
  induction vtx generalizing t with
  | nil => cases h
  | cons tx vtx ih =>
      rw [flowsFrom] at h
      cases hstep : env.connectTx s pindex pprev fJustCheck t tx with
      | none => simp [hstep] at h
      | some t₁ =>
          rw [hstep] at h
          rcases List.mem_cons.1 h with rfl | h
          · exact List.mem_cons_self
          · exact List.mem_cons_of_mem _ (ih h)

/-- Where no transaction is a coinbase or a coinstake, what is minted is the fees, taken away. -/
theorem minted_flowsFrom (hplain : ∀ tx ∈ vtx, tx.isCoinBase = false ∧ tx.isCoinStake = false) :
    minted (env.flowsFrom s pindex pprev fJustCheck t vtx) =
      -fees (env.flowsFrom s pindex pprev fJustCheck t vtx) := by
  have hcb : coinBases (env.flowsFrom s pindex pprev fJustCheck t vtx) = [] := by
    refine List.filter_eq_nil_iff.2 fun flow hflow => ?_
    rw [(hplain flow.tx (mem_flowsFrom hflow)).1]
    exact Bool.false_ne_true
  have hcs : coinStakes (env.flowsFrom s pindex pprev fJustCheck t vtx) = [] := by
    refine List.filter_eq_nil_iff.2 fun flow hflow => ?_
    rw [(hplain flow.tx (mem_flowsFrom hflow)).2, Bool.and_false]
    exact Bool.false_ne_true
  rw [minted_eq, hcb, hcs]
  simp [minted]

theorem valueOut_of_isEmpty (h : ∀ txout ∈ tx.vout, txout.isEmpty = true) : tx.valueOut = 0 := by
  refine List.sum_eq_zero fun x hx => ?_
  obtain ⟨txout, hmem, rfl⟩ := List.mem_map.1 hx
  have hempty := h txout hmem
  rw [CTxOut.isEmpty, Bool.and_eq_true, decide_eq_true_iff] at hempty
  rw [hempty.1, Int64.toInt_zero]

theorem checkReward_of_isProofOfStake (hpos : block.isProofOfStake = true)
    (h : checkReward block pindex pprev t = some true) :
    ∃ pindexPrev rest, pprev = pindexPrev :: rest ∧
      t.nStakeReward.toInt ≤ (getProofOfStakeReward pindexPrev t.nFees).toInt := by
  have hpow : block.isProofOfWork = false := by rw [CBlock.isProofOfWork, hpos]; rfl
  cases pprev with
  | nil =>
      simp only [checkReward, hpow, Bool.false_eq_true, if_false] at h
      cases h
  | cons pindexPrev rest =>
      simp only [checkReward, hpow, Bool.false_eq_true, if_false, Option.some.injEq, Bool.and_eq_true,
        decide_eq_true_iff] at h
      exact ⟨pindexPrev, rest, rfl, Int64.le_iff_toInt_le.1 h.2⟩

theorem checkReward_of_isProofOfWork {coinBase : CTransaction} (hpow : block.isProofOfWork = true)
    (hvtx : block.vtx = coinBase :: vtx) (h : checkReward block pindex pprev t = some true) :
    coinBase.valueOut ≤ (getProofOfWorkReward pindex.nHeight t.nFees).toInt := by
  simp only [checkReward, hpow, hvtx, if_true] at h
  cases hout : coinBase.getValueOut with
  | none =>
      rw [hout] at h
      cases h
  | some nValueOut =>
      simp only [hout, Option.some.injEq, decide_eq_true_iff] at h
      rw [← (CTransaction.getValueOut_eq hout).1]
      exact Int64.le_iff_toInt_le.1 h

theorem excess_coinBase {mapTestPool : MapTestPool} (hcb : tx.isCoinBase = true) :
    excess { tx, nValueIn := env.valueIn s mapTestPool tx } = tx.valueOut := by
  rw [excess, valueIn, if_pos hcb, Int.sub_zero]

/-- A proof-of-stake block mints no more than its subsidy. -/
theorem minted_le_of_isProofOfStake (hs : s.RingCoinsInRange) (hpos : block.isProofOfStake = true)
    (h : env.connectBlock s pindex pprev fJustCheck block = some s') :
    minted (env.flows s pindex pprev fJustCheck block) ≤ subsidy block pindex pprev := by
  obtain ⟨hcheck, t, htxs, hreward, _⟩ := connectBlock_spec h
  obtain ⟨hcb, hcs, _⟩ := checkBlock_spec hcheck
  obtain ⟨coinBase, coinStake, vtx, hvtx, hempty, hstake, hnostake⟩ := checkCoinStake_spec (hcs hpos)
  obtain ⟨coinBase', vtx', hvtx', hisCoinBase, hnocb⟩ := checkCoinBase_spec hcb
  rw [hvtx] at hvtx'
  cases hvtx'
  have hplain : ∀ tx ∈ vtx, tx.isCoinBase = false ∧ tx.isCoinStake = false := fun tx htx =>
    ⟨hnocb tx (List.mem_cons_of_mem _ htx), hnostake tx htx⟩
  have hpow : block.isProofOfWork = false := by rw [CBlock.isProofOfWork, hpos]; rfl
  obtain ⟨pindexPrev, rest, rfl, hstakeOut⟩ := checkReward_of_isProofOfStake hpos hreward
  have hfees := connectTxs_fees hs htxs
  rw [flows]
  rw [hvtx] at htxs hfees ⊢
  obtain ⟨t₁, hstep₁, hrest₁⟩ := connectTxs_cons htxs
  obtain ⟨t₂, hstep₂, hrest₂⟩ := connectTxs_cons hrest₁
  have hstakeIn := (connectTx_coinStake hs (hnocb _ List.mem_cons_self) hstake hstep₂).2
  rw [← connectTxs_stakeReward hs hplain hrest₂] at hstakeIn
  rw [flowsFrom_cons hstep₁, flowsFrom_cons hstep₂] at hfees ⊢
  rw [minted_cons, minted_cons, minted_flowsFrom hplain]
  rw [fees_cons, fees_cons _ (env.flowsFrom s pindex (pindexPrev :: rest) fJustCheck t₂ vtx)] at hfees
  set nFees := fees (env.flowsFrom s pindex (pindexPrev :: rest) fJustCheck t₂ vtx)
  have hcoinBaseFees (n : Int) : fees [{ tx := coinBase, nValueIn := n }] = 0 := by
    simp [fees, hisCoinBase, minted]
  have hcoinStakeFees (n : Int) : fees [{ tx := coinStake, nValueIn := n }] = 0 := by
    simp [fees, hstake, minted]
  rw [hcoinBaseFees, hcoinStakeFees, Int.zero_add, Int.zero_add] at hfees
  have hstart : t.nFees = Int64.ofInt nFees := hfees.2.trans (Int64.zero_add _)
  rw [hstart] at hstakeOut
  have hbound := hstakeOut.trans (getProofOfStakeReward_le hfees.1)
  have hnonneg := getProofOfStakeReward_nonneg pindexPrev
  rw [excess_coinBase hisCoinBase, valueOut_of_isEmpty hempty, excess, subsidy, hpow]
  simp only [Bool.false_eq_true, if_false]
  omega

/-- A block mints no more than the subsidy when its coinstakes pay out no more than the coinbase has left. -/
theorem minted_le_iff_coinStakes (flows : List TxFlow) :
    minted flows ≤ subsidy block pindex pprev ↔
      minted (coinStakes flows) ≤ unclaimedReward block pindex pprev flows := by
  rw [minted_eq, unclaimedReward]
  omega

/-- The coinbase of an accepted proof-of-work block claims no more than the subsidy and the fees. -/
theorem unclaimedReward_nonneg (hs : s.RingCoinsInRange) (hpow : block.isProofOfWork = true)
    (h : env.connectBlock s pindex pprev fJustCheck block = some s') :
    0 ≤ unclaimedReward block pindex pprev (env.flows s pindex pprev fJustCheck block) := by
  obtain ⟨hcheck, t, htxs, hreward, _⟩ := connectBlock_spec h
  obtain ⟨coinBase, vtx, hvtx, hisCoinBase, hnocb⟩ := checkCoinBase_spec (checkBlock_spec hcheck).1
  have hclaim := checkReward_of_isProofOfWork hpow hvtx hreward
  obtain ⟨hnonneg, hfees⟩ := connectTxs_fees hs htxs
  have hstart : t.nFees = Int64.ofInt (fees (env.flows s pindex pprev fJustCheck block)) :=
    hfees.trans (Int64.zero_add _)
  rw [hstart] at hclaim
  have hbound := hclaim.trans (getProofOfWorkReward_le hnonneg)
  have hcoinBases : minted (coinBases (env.flows s pindex pprev fJustCheck block)) = coinBase.valueOut := by
    rw [flows]
    rw [hvtx] at htxs ⊢
    obtain ⟨t₁, hstep, _⟩ := connectTxs_cons htxs
    have hrest : coinBases (env.flowsFrom s pindex pprev fJustCheck t₁ vtx) = [] := by
      refine List.filter_eq_nil_iff.2 fun flow hflow => ?_
      rw [hnocb flow.tx (mem_flowsFrom hflow)]
      exact Bool.false_ne_true
    have hcons (n : Int) (flows : List TxFlow) :
        coinBases ({ tx := coinBase, nValueIn := n } :: flows) =
          { tx := coinBase, nValueIn := n } :: coinBases flows :=
      List.filter_cons_of_pos hisCoinBase
    rw [flowsFrom_cons hstep, hcons, hrest, minted_cons, excess_coinBase hisCoinBase]
    simp [minted]
  have hsubsidy : subsidy block pindex pprev = (getProofOfWorkReward pindex.nHeight 0).toInt := by
    simp only [subsidy, hpow, if_true]
  rw [unclaimedReward, hsubsidy, hcoinBases]
  omega

/-- A block without a coinstake behind its second transaction mints no more than its subsidy. -/
theorem minted_le_of_no_coinStake (hs : s.RingCoinsInRange)
    (hlater : ∀ tx ∈ block.vtx.drop 2, tx.isCoinStake = false)
    (h : env.connectBlock s pindex pprev fJustCheck block = some s') :
    minted (env.flows s pindex pprev fJustCheck block) ≤ subsidy block pindex pprev := by
  rcases hpos : block.isProofOfStake with _ | _
  · have hpow : block.isProofOfWork = true := by rw [CBlock.isProofOfWork, hpos]; rfl
    have hnone : coinStakes (env.flows s pindex pprev fJustCheck block) = [] := by
      refine List.filter_eq_nil_iff.2 fun flow hflow => ?_
      obtain ⟨coinBase, vtx, hvtx, hisCoinBase, _⟩ :=
        checkCoinBase_spec (checkBlock_spec (connectBlock_spec h).1).1
      have hmem := mem_flowsFrom hflow
      rw [CBlock.isProofOfStake] at hpos
      rw [hvtx] at hmem hlater hpos
      rcases List.mem_cons.1 hmem with hfirst | hmem
      · rw [hfirst, hisCoinBase]
        exact Bool.false_ne_true
      · cases vtx with
        | nil => cases hmem
        | cons second vtx =>
            rcases List.mem_cons.1 hmem with hsecond | hmem
            · have hsecondPlain : second.isCoinStake = false := hpos
              rw [hsecond, hsecondPlain, Bool.and_false]
              exact Bool.false_ne_true
            · rw [hlater flow.tx hmem, Bool.and_false]
              exact Bool.false_ne_true
    rw [minted_le_iff_coinStakes, hnone]
    exact unclaimedReward_nonneg hs hpow h
  · exact minted_le_of_isProofOfStake hs hpos h

end ConnectEnv

namespace ConnectEnv

/-- The values that the store has for ring coins stay amounts. -/
theorem connectBlock_ringCoinsInRange {G : Type} [AddCommGroup G] {env : ConnectEnv G} {s s' : ConnectStore}
    {pindex : CBlockIndex} {pprev : List CBlockIndex} {fJustCheck : Bool} {block : CBlock}
    (hs : s.RingCoinsInRange) (h : env.connectBlock s pindex pprev fJustCheck block = some s') :
    s'.RingCoinsInRange := by
  obtain ⟨hcheck, t, _, _, rfl⟩ := connectBlock_spec h
  split_ifs
  · exact hs
  · exact syncBlock_ringCoinsInRange (checkBlock_spec hcheck).2.2.1 hs

end ConnectEnv

/-! ## A coinstake behind the second transaction -/

open TxFlow

/-- Two outputs of five coins. -/
def fundingTx : CTransaction where
  nVersion := 1
  nTime := 0
  vin := []
  vout := [{ nValue := 500000000, scriptPubKey := [OP_1] }, { nValue := 500000000, scriptPubKey := [OP_1] }]
  nLockTime := 7

def fundingPos : CDiskTxPos where
  nFile := 1
  nBlockPos := 1000
  nTxPos := 81

/-- A node at height 1 that has the funding transaction in its first block. A transaction is told by its lock
time. -/
def fundedEnv : ConnectEnv (ZMod (2 ^ 256 + 297)) where
  params := .mainParams
  fFull := true
  nBestHeight := 1
  pindexBest := { nHeight := 1 }
  nCoinbaseMaturity := 50
  nTotalBlocksEstimate := 0
  nAdjustedTime := 1000
  txHash tx := BitVec.ofNat 256 tx.nLockTime.toNat
  blockHash _ := 1
  merkleHash a b := a + b
  ring := firstBytesEnv
  vchUnset := []
  readTx pos := if pos = fundingPos then some fundingTx else none
  mempoolTx _ := none
  getDepthInMainChain _ := 1
  mapBlockIndex _ := none
  verifySignature _ _ _ _ := true
  wallets := []

def fundedStore : ConnectStore where
  txIndex hash := if hash = 7 then some (.new fundingPos 2) else none
  diskTxIndex hash := if hash = 7 then some (.new fundingPos 2) else none
  keyImages _ := none
  anonOutputs _ := none
  mapKeyImage _ := none

/-- A coinbase that claims nothing, and a transaction that pays a fee. -/
def payingBlock : CBlock where
  nVersion := 6
  hashPrevBlock := 0
  hashMerkleRoot := 3
  nTime := 1000
  nBits := 0x1e0fffff
  nNonce := 0
  vtx :=
    [{ nVersion := 1
       nTime := 1000
       vin := [{ prevout := .null, scriptSig := [1, 2], nSequence := 0 }]
       vout := [{ nValue := 0, scriptPubKey := [OP_1] }]
       nLockTime := 1 },
     { nVersion := 1
       nTime := 1000
       vin := [{ prevout := { hash := 7, n := 0 }, scriptSig := [], nSequence := 0 }]
       vout := [{ nValue := 499990000, scriptPubKey := [OP_1] }]
       nLockTime := 2 }]

/-- Five coins in, and a thousand out. -/
def lateCoinStake : CTransaction where
  nVersion := 1
  nTime := 1000
  vin := [{ prevout := { hash := 7, n := 1 }, scriptSig := [], nSequence := 0 }]
  vout := [{ nValue := 0, scriptPubKey := [] }, { nValue := 100000000000, scriptPubKey := [OP_1] }]
  nLockTime := 3

def lateCoinStakeBlock : CBlock :=
  { payingBlock with hashMerkleRoot := 9, vtx := payingBlock.vtx ++ [lateCoinStake] }

def secondIndex : CBlockIndex := { nHeight := 2, nFile := 1, nBlockPos := 2000 }

end ProCurrency

import Mathlib.Data.BitVec
import Mathlib.Data.List.Chain
import ProCurrency.Connect.Minting

/-!
# The maturity of new coins

`GetDepthInMainChain` and `GetBlocksToMaturity` of `CMerkleTx` on a full node (main.cpp), beside the test of
`ConnectInputs`.
-/

namespace ProCurrency

def COINBASE_MATURITY_FORK_BLOCK : Int := 629000

/-- The part of `CMerkleTx` that tells its block. -/
structure CMerkleTx where
  tx : CTransaction
  hashBlock : UInt256
  vMerkleBranch : List UInt256
  nIndex : Int
  fMerkleVerified : Bool
  deriving Repr, DecidableEq

/-- The entries from the best block back to the genesis block. Each is one higher than the one before it, and every
block was written to a place of its own. -/
structure DepthChain where
  pindexBest : CBlockIndex
  pprev : List CBlockIndex
  /-- `mapBlockIndex`, each entry with its `hashMerkleRoot`. -/
  mapBlockIndex : UInt256 → Option (CBlockIndex × UInt256)
  heights : (pindexBest :: pprev).IsChain fun a b => a.nHeight = b.nHeight + 1
  places : ((pindexBest :: pprev).map fun b => (b.nFile, b.nBlockPos)).Nodup

namespace DepthChain

variable (chain : DepthChain)

def entries : List CBlockIndex := chain.pindexBest :: chain.pprev

theorem descending : chain.entries.Pairwise fun a b => b.nHeight < a.nHeight := by
  have hlower : chain.entries.IsChain fun a b => b.nHeight < a.nHeight :=
    chain.heights.imp fun a b h => by omega
  exact hlower.pairwise

/-- `IsInMainChain`: the best block, and what has a `pnext`. -/
def isInMainChain (pindex : CBlockIndex) : Bool := decide (pindex ∈ chain.entries)

/-- An entry that the next block gets. -/
structure OnTop (pindexBlock : CBlockIndex) : Prop where
  height : pindexBlock.nHeight = chain.pindexBest.nHeight + 1
  place : ∀ b ∈ chain.entries, (b.nFile, b.nBlockPos) ≠ (pindexBlock.nFile, pindexBlock.nBlockPos)

end DepthChain

namespace ConnectEnv

variable {G : Type} (env : ConnectEnv G) (chain : DepthChain)

def getDepthInMainChainInternal (mtx : CMerkleTx) : Int :=
  if mtx.hashBlock = 0 ∨ mtx.nIndex = -1 then 0
  else
    match chain.mapBlockIndex mtx.hashBlock with
    | none => 0
    | some (pindex, hashMerkleRoot) =>
        if !chain.isInMainChain pindex then 0
        else if !mtx.fMerkleVerified &&
            checkMerkleBranch env.merkleHash (env.txHash mtx.tx) mtx.vMerkleBranch mtx.nIndex != hashMerkleRoot then 0
        else chain.pindexBest.nHeight - pindex.nHeight + 1

def getMerkleTxDepth (mtx : CMerkleTx) : Int :=
  let nResult := env.getDepthInMainChainInternal chain mtx
  if nResult = 0 ∧ (env.mempoolTx (env.txHash mtx.tx)).isNone then -1 else nResult

def getBlocksToMaturity (mtx : CMerkleTx) : Int :=
  if !(mtx.tx.isCoinBase || mtx.tx.isCoinStake) then 0
  else if chain.pindexBest.nHeight > COINBASE_MATURITY_FORK_BLOCK + 1 then
    max 0 (env.nCoinbaseMaturity + 170 - env.getMerkleTxDepth chain mtx)
  else max 0 (env.nCoinbaseMaturity - env.getMerkleTxDepth chain mtx)

/-- The test of `ConnectInputs` for a transaction with this place in the index, in the block of `pindexBlock`. -/
def spendsImmature (txindex : CTxIndex) (txPrev : CTransaction) (pindexBlock : CBlockIndex)
    (pprev : List CBlockIndex) : Bool :=
  (txPrev.isCoinBase || txPrev.isCoinStake) &&
    (isConfirmedInNPrevBlocks txindex pindexBlock env.nCoinbaseMaturity (pindexBlock :: pprev)).isSome

/-- A coin base or coin stake in the main chain: the wallet's record of it and its entry in the index both lead to
the block of `pindex`. -/
structure InBlockOf (mtx : CMerkleTx) (txindex : CTxIndex) (pindex : CBlockIndex) : Prop where
  minted : (mtx.tx.isCoinBase || mtx.tx.isCoinStake) = true
  known : mtx.hashBlock ≠ 0 ∧ mtx.nIndex ≠ -1
  found : ∃ hashMerkleRoot, chain.mapBlockIndex mtx.hashBlock = some (pindex, hashMerkleRoot) ∧
    (mtx.fMerkleVerified = false →
      checkMerkleBranch env.merkleHash (env.txHash mtx.tx) mtx.vMerkleBranch mtx.nIndex = hashMerkleRoot)
  inChain : pindex ∈ chain.entries
  place : (txindex.pos.nFile, txindex.pos.nBlockPos) = (pindex.nFile, pindex.nBlockPos)

variable {env chain}

/-! ## Walking back -/

/-- The walk finds the block of a place if it is not deeper than the limit. -/
theorem isConfirmedInNPrevBlocks_isSome {txindex : CTxIndex} {pindexFrom pindex : CBlockIndex} {nMaxDepth : Int}
    {l : List CBlockIndex} (hdesc : l.Pairwise fun a b => b.nHeight < a.nHeight)
    (hplaces : (l.map fun b => (b.nFile, b.nBlockPos)).Nodup) (hmem : pindex ∈ l)
    (hplace : (txindex.pos.nFile, txindex.pos.nBlockPos) = (pindex.nFile, pindex.nBlockPos)) :
    (isConfirmedInNPrevBlocks txindex pindexFrom nMaxDepth l).isSome = true ↔
      pindexFrom.nHeight - pindex.nHeight < nMaxDepth := by
  induction l with
  | nil => cases hmem
  | cons b l ih =>
      rw [List.pairwise_cons] at hdesc
      rw [List.map_cons, List.nodup_cons] at hplaces
      have hle : pindex.nHeight ≤ b.nHeight := by
        rcases List.mem_cons.1 hmem with rfl | hmem
        · exact Int.le_refl _
        · exact Int.le_of_lt (hdesc.1 pindex hmem)
      rw [Prod.mk.injEq] at hplace
      rw [isConfirmedInNPrevBlocks]
      split_ifs with hdeep hhere
      · simp only [Option.isSome_none, Bool.false_eq_true, false_iff]
        omega
      · have hsame : pindex = b := by
          rcases List.mem_cons.1 hmem with rfl | hmem
          · rfl
          · refine absurd (List.mem_map.2 ⟨pindex, hmem, ?_⟩) hplaces.1
            rw [← hplace.1, ← hplace.2, ← hhere.1, ← hhere.2]
        rw [hsame]
        simp only [Option.isSome_some, true_iff]
        omega
      · rcases List.mem_cons.1 hmem with rfl | hmem
        · exact absurd ⟨hplace.2.symm, hplace.1.symm⟩ hhere
        · exact ih hdesc.2 hplaces.2 hmem

variable {mtx : CMerkleTx} {txindex : CTxIndex} {pindex pindexBlock : CBlockIndex}

theorem InBlockOf.depth_pos (h : env.InBlockOf chain mtx txindex pindex) :
    pindex.nHeight ≤ chain.pindexBest.nHeight := by
  rcases List.mem_cons.1 h.inChain with rfl | hmem
  · exact Int.le_refl _
  · exact Int.le_of_lt ((List.pairwise_cons.1 chain.descending).1 pindex hmem)

theorem InBlockOf.depth (h : env.InBlockOf chain mtx txindex pindex) :
    env.getMerkleTxDepth chain mtx = chain.pindexBest.nHeight - pindex.nHeight + 1 := by
  have hpos := h.depth_pos
  obtain ⟨hashMerkleRoot, hmap, hbranch⟩ := h.found
  have hinner : env.getDepthInMainChainInternal chain mtx = chain.pindexBest.nHeight - pindex.nHeight + 1 := by
    have hunknown : ¬ (mtx.hashBlock = 0 ∨ mtx.nIndex = -1) := not_or.2 h.known
    rw [getDepthInMainChainInternal, if_neg hunknown, hmap]
    dsimp only
    have hin : chain.isInMainChain pindex = true := decide_eq_true h.inChain
    rw [hin]
    cases hver : mtx.fMerkleVerified with
    | true => simp
    | false =>
        rw [hbranch hver]
        simp
  rw [getMerkleTxDepth, hinner, if_neg (by omega)]

/-- `ConnectInputs` refuses a coin that is less deep than the maturity. -/
theorem InBlockOf.spendsImmature_iff (h : env.InBlockOf chain mtx txindex pindex) (hTop : chain.OnTop pindexBlock) :
    env.spendsImmature txindex mtx.tx pindexBlock chain.entries = true ↔
      chain.pindexBest.nHeight - pindex.nHeight + 1 < env.nCoinbaseMaturity := by
  have hlow : ∀ b ∈ chain.entries, b.nHeight < pindexBlock.nHeight := by
    intro b hmem
    rw [hTop.height]
    rcases List.mem_cons.1 hmem with rfl | hmem
    · omega
    · have hlt := (List.pairwise_cons.1 chain.descending).1 b hmem
      omega
  have hplaces : ((pindexBlock :: chain.entries).map fun b => (b.nFile, b.nBlockPos)).Nodup := by
    rw [List.map_cons, List.nodup_cons]
    refine ⟨fun hmem => ?_, chain.places⟩
    obtain ⟨b, hb, heq⟩ := List.mem_map.1 hmem
    exact hTop.place b hb heq
  have hwalk := @isConfirmedInNPrevBlocks_isSome txindex pindexBlock pindex env.nCoinbaseMaturity _
    (List.pairwise_cons.2 ⟨hlow, chain.descending⟩) hplaces (List.mem_cons_of_mem _ h.inChain) h.place
  rw [spendsImmature, h.minted, Bool.true_and, hwalk, hTop.height]
  constructor <;> intro hlt <;> omega

/-- The wallet takes a coin for mature when its depth has reached the maturity, and 170 blocks later beyond the
fork. -/
theorem InBlockOf.matured_iff (h : env.InBlockOf chain mtx txindex pindex) :
    env.getBlocksToMaturity chain mtx = 0 ↔
      env.nCoinbaseMaturity + (if chain.pindexBest.nHeight > COINBASE_MATURITY_FORK_BLOCK + 1 then 170 else 0) ≤
        chain.pindexBest.nHeight - pindex.nHeight + 1 := by
  rw [getBlocksToMaturity, h.minted, h.depth, Bool.not_true, if_neg Bool.false_ne_true]
  split_ifs with hfork
  · constructor <;> intro hle <;> omega
  · constructor <;> intro hle <;> omega

/-- Wallet and validator agree up to the fork, and beyond it on every depth but the 170 from the maturity on. -/
theorem maturity_agrees_iff (h : env.InBlockOf chain mtx txindex pindex) (hTop : chain.OnTop pindexBlock) :
    (env.getBlocksToMaturity chain mtx = 0 ↔
        env.spendsImmature txindex mtx.tx pindexBlock chain.entries = false) ↔
      chain.pindexBest.nHeight ≤ COINBASE_MATURITY_FORK_BLOCK + 1 ∨
        chain.pindexBest.nHeight - pindex.nHeight + 1 < env.nCoinbaseMaturity ∨
        env.nCoinbaseMaturity + 170 ≤ chain.pindexBest.nHeight - pindex.nHeight + 1 := by
  rw [h.matured_iff, ← Bool.not_eq_true, h.spendsImmature_iff hTop]
  split_ifs with hfork
  · constructor
    · intro hagree
      omega
    · intro hcase
      omega
  · constructor
    · intro _
      exact Or.inl (by omega)
    · intro _
      omega

/-! ## A coin of depth 50 beyond the fork -/

/-- The entries of the heights from 628953 on. -/
def lateEntry (n : Nat) : CBlockIndex := { nHeight := 628953 + n, nFile := 1, nBlockPos := UInt32.ofNat n }

/-- Fifty entries, the best one of the height 629002. -/
def lateChain : DepthChain where
  pindexBest := lateEntry 49
  pprev := (List.range 49).reverse.map lateEntry
  mapBlockIndex := fun _ => some (lateEntry 0, 0)
  heights := by decide
  places := by decide

def mintingTx : CTransaction where
  nVersion := 1
  nTime := 0
  vin := [{ prevout := .null, scriptSig := [1, 2], nSequence := 0 }]
  vout := [{ nValue := 100000000, scriptPubKey := [OP_1] }]
  nLockTime := 0

def mintedCoin : CMerkleTx where
  tx := mintingTx
  hashBlock := 1
  vMerkleBranch := []
  nIndex := 0
  fMerkleVerified := true

/-- The coin is an output of the last entry. -/
def mintedIndex : CTxIndex where
  pos := { nFile := 1, nBlockPos := 0, nTxPos := 81 }
  vSpent := [.null]

theorem mintedCoin_inBlockOf : fundedEnv.InBlockOf lateChain mintedCoin mintedIndex (lateEntry 0) where
  minted := by decide
  known := by decide
  found := ⟨0, rfl, fun h => by cases h⟩
  inChain := by decide
  place := by decide

theorem lateEntry_onTop : lateChain.OnTop (lateEntry 50) where
  height := by decide
  place := by decide

theorem maturity_agrees_iff_late :
    (fundedEnv.getBlocksToMaturity lateChain mintedCoin = 0 ↔
        fundedEnv.spendsImmature mintedIndex mintedCoin.tx (lateEntry 50) lateChain.entries = false) ↔
      lateChain.pindexBest.nHeight ≤ COINBASE_MATURITY_FORK_BLOCK + 1 ∨
        lateChain.pindexBest.nHeight - (lateEntry 0).nHeight + 1 < fundedEnv.nCoinbaseMaturity ∨
        fundedEnv.nCoinbaseMaturity + 170 ≤ lateChain.pindexBest.nHeight - (lateEntry 0).nHeight + 1 :=
  maturity_agrees_iff mintedCoin_inBlockOf lateEntry_onTop

/-- The block on top may spend the coin, and the wallet waits for 170 more. -/
theorem maturity_disagrees :
    fundedEnv.InBlockOf lateChain mintedCoin mintedIndex (lateEntry 0) ∧ lateChain.OnTop (lateEntry 50) ∧
      ¬ (fundedEnv.getBlocksToMaturity lateChain mintedCoin = 0 ↔
        fundedEnv.spendsImmature mintedIndex mintedCoin.tx (lateEntry 50) lateChain.entries = false) := by
  refine ⟨mintedCoin_inBlockOf, lateEntry_onTop, fun h => ?_⟩
  have hwallet : fundedEnv.getBlocksToMaturity lateChain mintedCoin = 170 := by decide
  have hspend : fundedEnv.spendsImmature mintedIndex mintedCoin.tx (lateEntry 50) lateChain.entries = false := by
    decide
  rw [h.2 hspend] at hwallet
  cases hwallet

end ConnectEnv

end ProCurrency

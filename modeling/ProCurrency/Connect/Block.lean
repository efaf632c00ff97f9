import Mathlib.Data.BitVec
import ProCurrency.Connect.Wallet
import ProCurrency.Kernel.Stake

/-!
# Connecting and disconnecting a block

`CBlock::CheckBlock` and `CBlock::ConnectBlock` (main.cpp). The index entries of the blocks, with the money supply
that they carry, are left out.
-/

namespace ProCurrency

def MAX_BLOCK_SIGOPS : Nat := MAX_BLOCK_SIZE / 50

def YEARLY_BLOCKCOUNT : Int := 899790

def SCRIPT_VERIFY_NOCACHE : UInt32 := (1 : UInt32) <<< 4

/-- `SCRIPT_VERIFY_NULLDUMMY | SCRIPT_VERIFY_STRICTENC | SCRIPT_VERIFY_ALLOW_EMPTY_SIG |
SCRIPT_VERIFY_FIX_HASHTYPE | SCRIPT_VERIFY_CHECKLOCKTIMEVERIFY`. -/
def SCRIPT_VERIFY_VFORK1 : UInt32 := (1 : UInt32) <<< 1 ||| (1 : UInt32) <<< 3 ||| (1 : UInt32) <<< 5 |||
  (1 : UInt32) <<< 6 ||| (1 : UInt32) <<< 7

/-! ## Rewards -/

def getProofOfWorkReward (nHeight : Int) (nFees : Int64) : Int64 :=
  let nSubsidy : Int64 := if nHeight = 1 then 15000000000 * 100000000 else 0
  nSubsidy + nFees

def getProofOfStakeReward (pindexPrev : CBlockIndex) (nFees : Int64) : Int64 :=
  let nSubsidy : Int64 := if pindexPrev.nHeight < YEARLY_BLOCKCOUNT then 15 * 100000000 else 10 * 100000000
  nSubsidy + nFees

/-! ## Checks without a context -/

def futureDrift (params : CChainParams) (nTime nHeight : Int) : Int :=
  if params.isProtocolV1 nHeight then nTime + 10 * 60 else nTime + 15

def checkProofOfWork (params : CChainParams) (hash : UInt256) (nBits : UInt32) : Bool :=
  let bnTarget := CBigNum.setCompact nBits
  if bnTarget ≤ 0 ∨ params.proofOfWorkLimit < bnTarget then false
  else if CBigNum.getUInt256 bnTarget < hash then false
  else true

namespace CBlock

def isProofOfWork (block : CBlock) : Bool := !block.isProofOfStake

def getSerializeSize (block : CBlock) : Nat :=
  80 + (CTransaction.getSizeOfCompactSize block.vtx.length + (block.vtx.map CTransaction.getSerializeSize).sum) +
    (CTransaction.getSizeOfCompactSize block.vchBlockSig.length + block.vchBlockSig.length)

/-- The first transaction is a coinbase and the others are not. -/
def checkCoinBase (block : CBlock) : Bool :=
  match block.vtx with
  | [] => false
  | tx :: vtx => tx.isCoinBase && vtx.all fun tx => !tx.isCoinBase

/-- The checks of a proof-of-stake block, but its signature. -/
def checkCoinStake (block : CBlock) : Bool :=
  match block.vtx with
  | coinBase :: coinStake :: vtx =>
      coinBase.vout.length == 1 && coinBase.vout.all CTxOut.isEmpty && coinStake.isCoinStake &&
        vtx.all fun tx => !tx.isCoinStake
  | _ => false

end CBlock

namespace ConnectEnv

variable {G : Type} (env : ConnectEnv G)

/-- `CheckBlock`, with `fCheckSig` not set. -/
def checkBlock (block : CBlock) (fCheckPOW fCheckMerkleRoot : Bool) : Bool :=
  let txids := block.vtx.map env.txHash
  if block.vtx.isEmpty ∨ MAX_BLOCK_SIZE < block.vtx.length ∨ MAX_BLOCK_SIZE < block.getSerializeSize then false
  else if fCheckPOW && block.isProofOfWork && !checkProofOfWork env.params (env.blockHash block) block.nBits then
    false
  else if futureDrift env.params env.nAdjustedTime (env.nBestHeight + 1) < block.nTime.toNat then false
  else if !block.checkCoinBase then false
  else if block.isProofOfStake && !block.checkCoinStake then false
  else if !(block.vtx.all fun tx => tx.checkTransaction && tx.nTime ≤ block.nTime) then false
  else if !checkUniqueTx txids then false
  else if MAX_BLOCK_SIGOPS < (block.vtx.map CTransaction.getLegacySigOpCount).sum then false
  else if fCheckMerkleRoot && block.hashMerkleRoot != buildMerkleTree env.merkleHash txids then false
  else true

/-! ## Transactions -/

/-- The index has an entry of this transaction with an output that is not spent. -/
def overwritesTx (s : ConnectStore) (hashTx : UInt256) : Bool :=
  match s.txIndex hashTx with
  | none => false
  | some txindexOld => txindexOld.vSpent.any CDiskTxPos.isNull

/-- The locals of `ConnectBlock` that its loop changes. -/
structure BlockTotals where
  mapQueuedChanges : MapTestPool
  nTxPos : UInt32
  nFees : Int64
  nStakeReward : Int64
  nSigOps : Nat

namespace BlockTotals

/-- `nTxPos` of a block that is only checked is 1. -/
def start (pindex : CBlockIndex) (fJustCheck : Bool) (nTxs : Nat) : BlockTotals where
  mapQueuedChanges := fun _ => none
  nTxPos :=
    if fJustCheck then 1
    else pindex.nBlockPos + UInt32.ofNat (80 + CTransaction.getSizeOfCompactSize nTxs)
  nFees := 0
  nStakeReward := 0
  nSigOps := 0

end BlockTotals

def scriptFlags (pindex : CBlockIndex) : UInt32 :=
  if env.params.isProtocolVFork1 pindex.nHeight then SCRIPT_VERIFY_NOCACHE ||| SCRIPT_VERIFY_VFORK1
  else SCRIPT_VERIFY_NOCACHE

variable [AddCommGroup G]

/-- What the inputs of a transaction are worth to `ConnectBlock`; `none` when `CheckAnonInputs` refuses them or an
output is not found. -/
def txValueIn (s : ConnectStore) (inputs : MapPrevTx) (tx : CTransaction) : Option Int64 :=
  match tx.getValueIn inputs with
  | none => none
  | some nTxValueIn =>
      if tx.nVersion == ANON_TXN_VERSION then
        match env.checkAnonInputs s true tx with
        | (false, _) => none
        | (true, nTxAnonIn) => some (nTxValueIn + nTxAnonIn)
      else some nTxValueIn

/-- One round of the loop over the transactions. -/
def connectTx (s : ConnectStore) (pindex : CBlockIndex) (pprev : List CBlockIndex) (fJustCheck : Bool)
    (t : BlockTotals) (tx : CTransaction) : Option BlockTotals :=
  let hashTx := env.txHash tx
  let nSigOps := t.nSigOps + tx.getLegacySigOpCount
  let posThisTx : CDiskTxPos := { nFile := pindex.nFile, nBlockPos := pindex.nBlockPos, nTxPos := t.nTxPos }
  let nTxPos := if fJustCheck then t.nTxPos else t.nTxPos + UInt32.ofNat tx.getSerializeSize
  let txindex := CTxIndex.new posThisTx tx.vout.length
  if overwritesTx s hashTx then none
  else if MAX_BLOCK_SIGOPS < nSigOps then none
  else if tx.isCoinBase then
    match tx.getValueOut with
    | none => none
    | some _ =>
        some { t with
          nSigOps, nTxPos, mapQueuedChanges := Function.update t.mapQueuedChanges hashTx (some txindex) }
  else
    match env.fetchInputs s t.mapQueuedChanges tx with
    | none => none
    | some inputs =>
        match tx.getP2SHSigOpCount inputs, env.txValueIn s inputs tx, tx.getValueOut with
        | some nP2SHSigOps, some nTxValueIn, some nTxValueOut =>
            if MAX_BLOCK_SIGOPS < nSigOps + nP2SHSigOps then none
            else
              match env.connectInputs s inputs t.mapQueuedChanges posThisTx pindex pprev
                (env.scriptFlags pindex) tx with
              | none => none
              | some mapQueuedChanges =>
                  some {
                    mapQueuedChanges := Function.update mapQueuedChanges hashTx (some txindex)
                    nTxPos
                    nFees := if tx.isCoinStake then t.nFees else t.nFees + (nTxValueIn - nTxValueOut)
                    nStakeReward := if tx.isCoinStake then nTxValueOut - nTxValueIn else t.nStakeReward
                    nSigOps := nSigOps + nP2SHSigOps }
        | _, _, _ => none

/-- The loop over the transactions. -/
def connectTxs (s : ConnectStore) (pindex : CBlockIndex) (pprev : List CBlockIndex) (fJustCheck : Bool)
    (t : BlockTotals) : List CTransaction → Option BlockTotals
  | [] => some t
  | tx :: vtx =>
      match env.connectTx s pindex pprev fJustCheck t tx with
      | none => none
      | some t => connectTxs s pindex pprev fJustCheck t vtx

/-! ## Blocks -/

/-- The rewards are within what the height allows; `none` is a null `pprev` that is followed. -/
def checkReward (block : CBlock) (pindex : CBlockIndex) (pprev : List CBlockIndex) (t : BlockTotals) :
    Option Bool :=
  if block.isProofOfWork then
    match block.vtx with
    | [] => none
    | coinBase :: _ =>
        match coinBase.getValueOut with
        | none => none
        | some nValueOut => some (nValueOut ≤ getProofOfWorkReward pindex.nHeight t.nFees)
  else
    match pprev with
    | [] => none
    | pindexPrev :: _ =>
        some ((getCoinAge pindexPrev).2 && t.nStakeReward ≤ getProofOfStakeReward pindexPrev t.nFees)

/-- `UpdateTxIndex` for each queued change, into the batch of the handle. -/
def updateTxIndex (s : ConnectStore) (mapQueuedChanges : MapTestPool) : ConnectStore :=
  { s with txIndex := fun hash => (mapQueuedChanges hash).or (s.txIndex hash) }

/-- The loop of `SyncWithWallets` over the block. -/
def syncBlock (blockHash : UInt256) (s : ConnectStore) : List CTransaction → ConnectStore
  | [] => s
  | tx :: vtx => syncBlock blockHash (env.syncWithWallets s tx blockHash) vtx

/-- `ConnectBlock`; `none` is a block that is refused. -/
def connectBlock (s : ConnectStore) (pindex : CBlockIndex) (pprev : List CBlockIndex) (fJustCheck : Bool)
    (block : CBlock) : Option ConnectStore :=
  if !env.checkBlock block (!fJustCheck) (!fJustCheck) then none
  else
    match env.connectTxs s pindex pprev fJustCheck (.start pindex fJustCheck block.vtx.length) block.vtx with
    | none => none
    | some t =>
        match checkReward block pindex pprev t with
        | some true =>
            if fJustCheck then some s
            else some (env.syncBlock (env.blockHash block) (updateTxIndex s t.mapQueuedChanges) block.vtx)
        | _ => none

end ConnectEnv

/-!
## What an accepted block has passed
-/

namespace ConnectEnv

variable {G : Type} {env : ConnectEnv G} {s s' : ConnectStore} {pindex : CBlockIndex} {pprev : List CBlockIndex}
  {fJustCheck : Bool} {t t' : BlockTotals} {block : CBlock} {tx : CTransaction} {vtx : List CTransaction}

/-! ## Checks without a context -/

theorem checkBlock_spec {fCheckPOW fCheckMerkleRoot : Bool}
    (h : env.checkBlock block fCheckPOW fCheckMerkleRoot = true) :
    block.checkCoinBase = true ∧ (block.isProofOfStake = true → block.checkCoinStake = true) ∧
      (∀ tx ∈ block.vtx, tx.checkTransaction = true) ∧ checkUniqueTx (block.vtx.map env.txHash) = true := by
  simp only [checkBlock] at h
  split_ifs at h with _ _ _ hcb hcs htx hunique
  rw [Bool.not_eq_true', Bool.not_eq_false] at hcb hunique htx
  refine ⟨hcb, fun hpos => ?_, fun tx hmem => ?_, hunique⟩
  · simpa [hpos] using hcs
  · have hall := List.all_eq_true.1 htx tx hmem
    rw [Bool.and_eq_true] at hall
    exact hall.1

theorem checkCoinBase_spec (h : block.checkCoinBase = true) :
    ∃ coinBase vtx, block.vtx = coinBase :: vtx ∧ coinBase.isCoinBase = true ∧
      ∀ tx ∈ vtx, tx.isCoinBase = false := by
  rw [CBlock.checkCoinBase] at h
  cases hvtx : block.vtx with
  | nil => simp [hvtx] at h
  | cons coinBase vtx =>
      simp only [hvtx, Bool.and_eq_true, List.all_eq_true, Bool.not_eq_true'] at h
      exact ⟨coinBase, vtx, rfl, h⟩

theorem checkCoinStake_spec (h : block.checkCoinStake = true) :
    ∃ coinBase coinStake vtx, block.vtx = coinBase :: coinStake :: vtx ∧
      (∀ txout ∈ coinBase.vout, txout.isEmpty = true) ∧ coinStake.isCoinStake = true ∧
      ∀ tx ∈ vtx, tx.isCoinStake = false := by
  rw [CBlock.checkCoinStake] at h
  rcases hvtx : block.vtx with _ | ⟨coinBase, _ | ⟨coinStake, vtx⟩⟩
  · simp [hvtx] at h
  · simp [hvtx] at h
  · simp only [hvtx, Bool.and_eq_true, List.all_eq_true, Bool.not_eq_true'] at h
    exact ⟨coinBase, coinStake, vtx, rfl, h.1.1.2, h.1.2, h.2⟩

/-! ## The loop -/

variable [AddCommGroup G]

theorem connectTxs_cons (h : env.connectTxs s pindex pprev fJustCheck t (tx :: vtx) = some t') :
    ∃ t₁, env.connectTx s pindex pprev fJustCheck t tx = some t₁ ∧
      env.connectTxs s pindex pprev fJustCheck t₁ vtx = some t' := by
  rw [connectTxs] at h
  cases hstep : env.connectTx s pindex pprev fJustCheck t tx with
  | none => simp [hstep] at h
  | some t₁ =>
      rw [hstep] at h
      exact ⟨t₁, rfl, h⟩

theorem connectBlock_spec (h : env.connectBlock s pindex pprev fJustCheck block = some s') :
    env.checkBlock block (!fJustCheck) (!fJustCheck) = true ∧
      ∃ t, env.connectTxs s pindex pprev fJustCheck (.start pindex fJustCheck block.vtx.length) block.vtx =
          some t ∧
        checkReward block pindex pprev t = some true ∧
        s' = if fJustCheck then s
          else env.syncBlock (env.blockHash block) (updateTxIndex s t.mapQueuedChanges) block.vtx := by
  rw [connectBlock] at h
  rcases hcheck : env.checkBlock block (!fJustCheck) (!fJustCheck) with _ | _
  · simp [hcheck] at h
  rcases htxs : env.connectTxs s pindex pprev fJustCheck (.start pindex fJustCheck block.vtx.length) block.vtx
    with _ | t
  · simp [hcheck, htxs] at h
  rcases hreward : checkReward block pindex pprev t with _ | _ | _
  · simp [hcheck, htxs, hreward] at h
  · simp [hcheck, htxs, hreward] at h
  · refine ⟨rfl, t, rfl, hreward, ?_⟩
    simp only [hcheck, htxs, hreward, Bool.not_true, Bool.false_eq_true, if_false] at h
    split_ifs at h ⊢ <;> exact (Option.some.inj h).symm

end ConnectEnv

/-!
## Disconnecting a block

`CTransaction::DisconnectInputs`, `CBlock::DisconnectBlock` (main.cpp) and `CWallet::UndoAnonTransaction`
(wallet.cpp). The index goes through the batch of `SetBestChain`; the wallet writes through a handle of its own,
outside any transaction.
-/

namespace ConnectEnv

variable {G : Type} (env : ConnectEnv G)

/-! ## The index -/

/-- The loop of `DisconnectInputs`. -/
def disconnectInputsFrom (s : ConnectStore) : List CTxIn → Bool × ConnectStore
  | [] => (true, s)
  | txin :: vin =>
      let prevout := txin.prevout
      match s.txIndex prevout.hash with
      | none => disconnectInputsFrom s vin
      | some txindex =>
          if txindex.vSpent.length ≤ prevout.n.toNat then (false, s)
          else
            let txindex := { txindex with vSpent := txindex.vSpent.set prevout.n.toNat .null }
            disconnectInputsFrom (s.writeTxIndex prevout.hash txindex) vin

def disconnectInputs (s : ConnectStore) (tx : CTransaction) : Bool × ConnectStore :=
  match if tx.isCoinBase then (true, s) else disconnectInputsFrom s tx.vin with
  | (false, s) => (false, s)
  | (true, s) => (true, s.eraseTxIndex (env.txHash tx))

/-- The first loop of `DisconnectBlock`, over the transactions from the last one. -/
def disconnectTxs (s : ConnectStore) : List CTransaction → Bool × ConnectStore
  | [] => (true, s)
  | tx :: vtx =>
      match env.disconnectInputs s tx with
      | (false, s) => (false, s)
      | (true, s) => disconnectTxs s vtx

/-! ## The wallets -/

/-- The loop of `UndoAnonTransaction` over the inputs, from the input `i` on. -/
def undoInputsFrom (wallet : Wallet) (tx : CTransaction) (i : Nat) (s : ConnectStore) :
    List CTxIn → Bool × ConnectStore
  | [] => (true, s)
  | txin :: vin =>
      if !txin.isAnonInput then undoInputsFrom wallet tx (i + 1) s vin
      else
        match s.getKeyImage txin.extractKeyImage with
        | none => undoInputsFrom wallet tx (i + 1) s vin
        | some spentKeyImage =>
            if spentKeyImage.txnHash ≠ env.txHash tx then undoInputsFrom wallet tx (i + 1) s vin
            else
              let s := s.eraseKeyImage txin.extractKeyImage
              if !wallet.unspendsOwned tx i then (false, s) else undoInputsFrom wallet tx (i + 1) s vin

/-- The loop of `UndoAnonTransaction` over the outputs. -/
def undoOutputsFrom (s : ConnectStore) : List CTxOut → Bool × ConnectStore
  | [] => (true, s)
  | txout :: vout =>
      if !txout.isAnonOutput then undoOutputsFrom s vout
      else
        let pkCoin := env.pubKey txout.extractAnonPk
        match s.anonOutputs pkCoin with
        | none => (false, s)
        | some _ => undoOutputsFrom (s.eraseAnonOutput pkCoin) vout

def undoAnonTransaction (wallet : Wallet) (s : ConnectStore) (tx : CTransaction) : Bool × ConnectStore :=
  match env.undoInputsFrom wallet tx 0 s tx.vin with
  | (false, s) => (false, s)
  | (true, s) => env.undoOutputsFrom s tx.vout

/-- `SyncWithWallets` with `fConnect` not set, over the rest of the wallets. What they answer is ignored. -/
def undoWallets (tx : CTransaction) (s : ConnectStore) : List Wallet → ConnectStore
  | [] => s
  | wallet :: setpwalletRegistered => undoWallets tx (env.undoAnonTransaction wallet s tx).2 setpwalletRegistered

def undoTx (s : ConnectStore) (tx : CTransaction) : ConnectStore :=
  if tx.nVersion == ANON_TXN_VERSION then env.undoWallets tx s env.wallets else s

/-! ## Blocks -/

/-- `DisconnectBlock`. -/
def disconnectBlock (s : ConnectStore) (block : CBlock) : Bool × ConnectStore :=
  match env.disconnectTxs s block.vtx.reverse with
  | (false, s) => (false, s)
  | (true, s) => (true, block.vtx.foldl env.undoTx s)

end ConnectEnv

end ProCurrency

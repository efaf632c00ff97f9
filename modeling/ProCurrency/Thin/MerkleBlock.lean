import Mathlib.Data.BitVec
import ProCurrency.Pool.TxMemPool

/-!
# Merkle blocks of a thin node

`ProcessMerkleBlock`, and what a thin node does with a `tx` message (main.cpp). What the wallets are handed is a list,
and what `AcceptBlockThin` leaves of a new header, and of the orphans behind it, is an argument.
-/

namespace ProCurrency

/-! ## The node -/

/-- `eNodeState`. -/
inductive NodeState
  | startup
  | getHeaders
  | getFilteredBlocks
  | ready
deriving DecidableEq

structure CPendingFilteredChunk where
  startHash : UInt256
  endHash : UInt256
  nTime : Int
deriving DecidableEq

/-- The fields of a header that are read here; `hash` is its `GetHash`. -/
structure MerkleHeader where
  hash : UInt256
  nTime : UInt32

structure CMerkleBlockIncoming where
  header : MerkleHeader
  txn : CPartialMerkleTree UInt256
  nProcessed : Nat
  nTimeRecv : Int
  vMatch : List UInt256

/-- The fields of `CBlockThinIndex` that are read here. -/
structure MerkleIndex where
  nHeight : Int
  hashMerkleRoot : UInt256

/-- A call of `AddToWalletIfInvolvingMe` for each wallet, with the hash of the block when there is one. -/
structure Handed where
  tx : CTransaction
  hash : UInt256
  hashBlock : Option UInt256

/-- `W` is what connecting and disconnecting headers marks in the wallet. -/
structure MerkleWallet (W : Type) where
  nLastFilteredHeight : Int
  /-- `WriteLastFilteredHeight`. -/
  written : Option Int
  handed : List Handed
  mapWallet : W

structure MerkleNode (W : Type) where
  nNodeState : NodeState
  vPendingFilteredChunks : List CPendingFilteredChunk
  vIncomingMerkleBlocks : List CMerkleBlockIncoming
  mapBlockThinIndex : UInt256 → Option MerkleIndex
  nBestHeight : Int
  /-- The time of `pindexRear`, when it is not null. -/
  nTimeRear : Option UInt32
  mempool : CTxMemPool
  wallet : MerkleWallet W

structure MerkleEnv where
  /-- The hash of two nodes of a tree. -/
  hash : UInt256 → UInt256 → UInt256
  fThinFullIndex : Bool
  readBlockThinIndex : UInt256 → Option MerkleIndex
  /-- `GetNumBlocksOfPeers`. -/
  nBlocksOfPeers : Int
  txHash : CTransaction → UInt256
  freed : CTransaction → CTransaction
  /-- `CTxMemPool.accepts`, with what it asks of this node. -/
  accepts : CTxMemPool → CTransaction → Bool
  /-- Whether `AddToWalletIfInvolvingMe` adds the transaction to a wallet. -/
  fInvolving : CTransaction → Bool
  getTime : Int

/-- What the accepted headers leave. -/
structure HeaderOutcome (W : Type) where
  mapBlockThinIndex : UInt256 → Option MerkleIndex
  nBestHeight : Int
  nTimeRear : Option UInt32
  mempool : CTxMemPool
  mapWallet : W
  fAccepted : Bool

namespace MerkleNode

variable {W : Type} (env : MerkleEnv)

/-! ## The header -/

/-- `ProcessBlockThin`. -/
def processBlockThin (outcome : HeaderOutcome W) (st : MerkleNode W) : MerkleNode W :=
  let st :=
    { st with
      mapBlockThinIndex := outcome.mapBlockThinIndex
      nBestHeight := outcome.nBestHeight
      nTimeRear := outcome.nTimeRear
      mempool := outcome.mempool
      wallet := { st.wallet with mapWallet := outcome.mapWallet } }
  if outcome.fAccepted ∧ st.nNodeState = .getHeaders ∧ env.nBlocksOfPeers ≤ st.nBestHeight then
    { st with nNodeState := .getFilteredBlocks }
  else st

/-- "find block outside of index window". -/
def isOutsideWindow (st : MerkleNode W) (header : MerkleHeader) : Bool :=
  !env.fThinFullIndex && match st.nTimeRear with
    | none => false
    | some nTimeRear => header.nTime < nTimeRear

/-- The index entry of the header, which may be a new one. -/
def findHeader (outcome : HeaderOutcome W) (st : MerkleNode W) (header : MerkleHeader) :
    Option MerkleIndex × MerkleNode W :=
  match st.mapBlockThinIndex header.hash with
  | some pBlockThinIndex => (some pBlockThinIndex, st)
  | none =>
      if st.isOutsideWindow env header then (env.readBlockThinIndex header.hash, st)
      else
        let st := st.processBlockThin env outcome
        (st.mapBlockThinIndex header.hash, st)

/-! ## Progress -/

def setLastFiltered (st : MerkleNode W) (nHeight : Int) (fWrite : Bool) : MerkleNode W :=
  if st.wallet.nLastFilteredHeight < nHeight then
    { st with wallet :=
      { st.wallet with
        nLastFilteredHeight := nHeight
        written := if fWrite then some nHeight else st.wallet.written } }
  else st

/-- The end of a chunk, if `hashBlock` is one. -/
def endChunk (st : MerkleNode W) (hashBlock : UInt256) (nHeight : Int) : MerkleNode W :=
  if st.vPendingFilteredChunks.any fun it => it.endHash = hashBlock then
    { st.setLastFiltered nHeight true with
      vPendingFilteredChunks := st.vPendingFilteredChunks.eraseP fun it => it.endHash = hashBlock }
  else st

def recordProgress (st : MerkleNode W) (hashBlock : UInt256) (nHeight : Int) : MerkleNode W :=
  if st.nNodeState = .getFilteredBlocks then
    let st := st.endChunk hashBlock nHeight
    if st.vPendingFilteredChunks = [] ∧ st.nBestHeight ≤ st.wallet.nLastFilteredHeight then
      { st with nNodeState := .ready }
    else st
  -- "save height to db every 5 blocks"
  else st.setLastFiltered nHeight (nHeight.tmod 5 = 0)

/-! ## Transactions -/

def handTx (st : MerkleNode W) (h : Handed) : MerkleNode W :=
  { st with wallet := { st.wallet with handed := st.wallet.handed ++ [h] } }

/-- `mempool.remove(tx)`, of a copy and without the transactions that spend it. -/
def removeTx (st : MerkleNode W) (tx : CTransaction) : MerkleNode W :=
  { st with mempool := (st.mempool.remove ⟨env.txHash, env.freed⟩ 1 tx false false).getD st.mempool }

/-- "check txns in mempool": the loop ends at the first that is there. -/
def takeFromPool (st : MerkleNode W) (hashBlock : UInt256) : List UInt256 → Nat × MerkleNode W
  | [] => (0, st)
  | hash :: vMatch =>
      match st.mempool.lookup hash with
      | none => takeFromPool st hashBlock vMatch
      | some txMp => (1, (st.handTx ⟨txMp, hash, some hashBlock⟩).removeTx env txMp)

/-- The transactions that come with the block, when there is a list of them, or else the block until they come. -/
def takeTxns (st : MerkleNode W) (merkleBlock : CMerkleBlockIncoming) : Option (List CTransaction) → MerkleNode W
  | some pvTxns =>
      pvTxns.foldl (fun st tx => st.handTx ⟨tx, env.txHash tx, some merkleBlock.header.hash⟩) st
  | none =>
      if merkleBlock.nProcessed < merkleBlock.vMatch.length then
        { st with vIncomingMerkleBlocks := st.vIncomingMerkleBlocks ++ [merkleBlock] }
      else st

/-- `merkleroot == 0 || merkleroot != pBlockThinIndex->hashMerkleRoot`. -/
def RootMismatch (merkleBlock : CMerkleBlockIncoming) (pBlockThinIndex : MerkleIndex) : Prop :=
  (merkleBlock.txn.extractMatches env.hash).1 = 0 ∨
    (merkleBlock.txn.extractMatches env.hash).1 ≠ pBlockThinIndex.hashMerkleRoot

instance (merkleBlock : CMerkleBlockIncoming) (pBlockThinIndex : MerkleIndex) :
    Decidable (RootMismatch env merkleBlock pBlockThinIndex) := inferInstanceAs (Decidable (_ ∨ _))

/-- The part of `ProcessMerkleBlock` after the root has been compared. -/
def deliver (st : MerkleNode W) (merkleBlock : CMerkleBlockIncoming) (pvTxns : Option (List CTransaction)) :
    MerkleNode W :=
  let vMatch := (merkleBlock.txn.extractMatches env.hash).2
  if vMatch = [] then st
  else
    let (nProcessed, st) := st.takeFromPool env merkleBlock.header.hash vMatch
    st.takeTxns env { merkleBlock with nProcessed, nTimeRecv := env.getTime, vMatch } pvTxns

def processMerkleBlock (outcome : HeaderOutcome W) (st : MerkleNode W) (merkleBlock : CMerkleBlockIncoming)
    (pvTxns : Option (List CTransaction)) : MerkleNode W :=
  match st.findHeader env outcome merkleBlock.header with
  | (none, st) => st
  | (some pBlockThinIndex, st) =>
      let st := st.recordProgress merkleBlock.header.hash pBlockThinIndex.nHeight
      if RootMismatch env merkleBlock pBlockThinIndex then st else st.deliver env merkleBlock pvTxns

/-! ## A transaction alone -/

/-- The hash of the block that the transaction is of, and the blocks that still wait. -/
def matchIncoming (txHash : UInt256) : List CMerkleBlockIncoming → Option (UInt256 × List CMerkleBlockIncoming)
  | [] => none
  | it :: rest =>
      if txHash ∈ it.vMatch then
        let nProcessed := it.nProcessed + 1
        some (it.header.hash, if nProcessed = it.vMatch.length then rest else { it with nProcessed } :: rest)
      else (matchIncoming txHash rest).map fun r => (r.1, it :: r.2)

/-- A `tx` message. -/
def receiveTx (st : MerkleNode W) (tx : CTransaction) : MerkleNode W :=
  let txHash := env.txHash tx
  match matchIncoming txHash st.vIncomingMerkleBlocks with
  | some (blockhash, vIncomingMerkleBlocks) =>
      { st with vIncomingMerkleBlocks }.handTx ⟨tx, txHash, some blockhash⟩
  | none =>
      if !env.accepts st.mempool tx then st
      else
        let st := { st with mempool := st.mempool.addUnchecked txHash tx }.handTx ⟨tx, txHash, none⟩
        if env.fInvolving tx then st else st.removeTx env tx

end MerkleNode

/-! ## Rejected blocks -/

namespace MerkleNode

variable {W : Type} {env : MerkleEnv} {outcome : HeaderOutcome W} {st : MerkleNode W}
  {merkleBlock : CMerkleBlockIncoming} {pvTxns : Option (List CTransaction)}

/-- What a merkle block is not to change before it has been verified. -/
structure Undisturbed (st st' : MerkleNode W) : Prop where
  nNodeState : st'.nNodeState = st.nNodeState
  vPendingFilteredChunks : st'.vPendingFilteredChunks = st.vPendingFilteredChunks
  wallet : st'.wallet = st.wallet
  mempool : st'.mempool = st.mempool

theorem Undisturbed.trans {st st' st'' : MerkleNode W} (h : Undisturbed st st') (h' : Undisturbed st' st'') :
    Undisturbed st st'' :=
  ⟨h'.1.trans h.1, h'.2.trans h.2, h'.3.trans h.3, h'.4.trans h.4⟩

/-- A block whose root is not that of its header leaves the node as it was. -/
def RejectsCleanly (env : MerkleEnv) (outcome : HeaderOutcome W) (st : MerkleNode W)
    (merkleBlock : CMerkleBlockIncoming) (pvTxns : Option (List CTransaction)) : Prop :=
  ∀ pBlockThinIndex, (st.findHeader env outcome merkleBlock.header).1 = some pBlockThinIndex →
    RootMismatch env merkleBlock pBlockThinIndex →
    Undisturbed st (st.processMerkleBlock env outcome merkleBlock pvTxns)

/-- At this height there is no progress to record. -/
def NoProgress (st : MerkleNode W) (nBestHeight : Int) (hashBlock : UInt256) (nHeight : Int) : Prop :=
  if st.nNodeState = .getFilteredBlocks then
    (∀ it ∈ st.vPendingFilteredChunks, it.endHash ≠ hashBlock) ∧
      ¬ (st.vPendingFilteredChunks = [] ∧ nBestHeight ≤ st.wallet.nLastFilteredHeight)
  else nHeight ≤ st.wallet.nLastFilteredHeight

/-- For a forged tree, the header itself changes nothing and there is no progress to record. -/
def Quiet (env : MerkleEnv) (outcome : HeaderOutcome W) (st : MerkleNode W) (merkleBlock : CMerkleBlockIncoming) :
    Prop :=
  ∀ pBlockThinIndex, (st.findHeader env outcome merkleBlock.header).1 = some pBlockThinIndex →
    RootMismatch env merkleBlock pBlockThinIndex →
    Undisturbed st (st.findHeader env outcome merkleBlock.header).2 ∧
      st.NoProgress (st.findHeader env outcome merkleBlock.header).2.nBestHeight merkleBlock.header.hash
        pBlockThinIndex.nHeight

/-! ### Progress -/

theorem setLastFiltered_undisturbed_iff {nHeight : Int} {fWrite : Bool} :
    Undisturbed st (st.setLastFiltered nHeight fWrite) ↔ nHeight ≤ st.wallet.nLastFilteredHeight := by
  rw [setLastFiltered]
  by_cases hlt : st.wallet.nLastFilteredHeight < nHeight
  · rw [if_pos hlt]
    refine iff_of_false (fun h => ?_) (Int.not_le.2 hlt)
    have hheight := congrArg MerkleWallet.nLastFilteredHeight h.wallet
    exact Int.ne_of_gt hlt hheight
  · rw [if_neg hlt]
    exact iff_of_true ⟨rfl, rfl, rfl, rfl⟩ (Int.not_lt.1 hlt)

theorem endChunk_of_ends {hashBlock : UInt256} {nHeight : Int}
    (h : ∃ it ∈ st.vPendingFilteredChunks, it.endHash = hashBlock) :
    (st.endChunk hashBlock nHeight).vPendingFilteredChunks.length < st.vPendingFilteredChunks.length := by
  obtain ⟨it, hmem, hend⟩ := h
  have hany : (st.vPendingFilteredChunks.any fun it => it.endHash = hashBlock) = true :=
    List.any_eq_true.2 ⟨it, hmem, decide_eq_true hend⟩
  rw [endChunk, if_pos hany]
  dsimp only
  rw [List.length_eraseP_of_mem hmem (decide_eq_true hend)]
  exact Nat.sub_lt (List.length_pos_of_mem hmem) Nat.one_pos

theorem endChunk_of_not_ends {hashBlock : UInt256} {nHeight : Int}
    (h : ∀ it ∈ st.vPendingFilteredChunks, it.endHash ≠ hashBlock) : st.endChunk hashBlock nHeight = st := by
  refine if_neg fun hany => ?_
  obtain ⟨it, hmem, hend⟩ := List.any_eq_true.1 hany
  exact h it hmem (of_decide_eq_true hend)

theorem recordProgress_undisturbed_iff {hashBlock : UInt256} {nHeight : Int} :
    Undisturbed st (st.recordProgress hashBlock nHeight) ↔
      st.NoProgress st.nBestHeight hashBlock nHeight := by
  rw [recordProgress, NoProgress]
  split_ifs with hstate
  · dsimp only
    by_cases hends : ∃ it ∈ st.vPendingFilteredChunks, it.endHash = hashBlock
    · have hshorter := @endChunk_of_ends _ st hashBlock nHeight hends
      refine iff_of_false (fun h => ?_) fun h => ?_
      · have hsame := congrArg List.length h.vPendingFilteredChunks
        split_ifs at hsame
        · exact Nat.ne_of_lt hshorter hsame
        · exact Nat.ne_of_lt hshorter hsame
      · obtain ⟨it, hmem, hend⟩ := hends
        exact h.1 it hmem hend
    · have hnot : ∀ it ∈ st.vPendingFilteredChunks, it.endHash ≠ hashBlock :=
        fun it hmem hend => hends ⟨it, hmem, hend⟩
      rw [endChunk_of_not_ends hnot, and_iff_right hnot]
      split_ifs with hdone
      · refine iff_of_false (fun h => ?_) (not_not.2 hdone)
        have hready := h.nNodeState
        rw [hstate] at hready
        cases hready
      · exact iff_of_true ⟨rfl, rfl, rfl, rfl⟩ hdone
  · exact setLastFiltered_undisturbed_iff

/-! ### The header -/

theorem Undisturbed.noProgress_iff {st' : MerkleNode W} (h : Undisturbed st st') {nBestHeight nHeight : Int}
    {hashBlock : UInt256} : st'.NoProgress nBestHeight hashBlock nHeight ↔ st.NoProgress nBestHeight hashBlock nHeight := by
  rw [NoProgress, NoProgress, h.nNodeState, h.vPendingFilteredChunks, h.wallet]

theorem setLastFiltered_eq (st : MerkleNode W) (nHeight : Int) (fWrite : Bool) :
    ∃ nLastFilteredHeight written,
      st.setLastFiltered nHeight fWrite = { st with wallet := { st.wallet with nLastFilteredHeight, written } } := by
  rw [setLastFiltered]
  by_cases hlt : st.wallet.nLastFilteredHeight < nHeight
  · rw [if_pos hlt]
    exact ⟨_, _, rfl⟩
  · rw [if_neg hlt]
    exact ⟨st.wallet.nLastFilteredHeight, st.wallet.written, rfl⟩

theorem endChunk_eq (st : MerkleNode W) (hashBlock : UInt256) (nHeight : Int) :
    ∃ nLastFilteredHeight written vPendingFilteredChunks, st.endChunk hashBlock nHeight =
      { st with wallet := { st.wallet with nLastFilteredHeight, written }, vPendingFilteredChunks } := by
  rw [endChunk]
  split_ifs
  · obtain ⟨nLastFilteredHeight, written, hlast⟩ := st.setLastFiltered_eq nHeight true
    rw [hlast]
    exact ⟨nLastFilteredHeight, written, _, rfl⟩
  · exact ⟨st.wallet.nLastFilteredHeight, st.wallet.written, st.vPendingFilteredChunks, rfl⟩

/-- Progress is about heights and chunks, and no headers are asked for again. -/
theorem recordProgress_eq (st : MerkleNode W) (hashBlock : UInt256) (nHeight : Int) :
    ∃ nLastFilteredHeight written vPendingFilteredChunks nNodeState, st.recordProgress hashBlock nHeight =
        { st with
          wallet := { st.wallet with nLastFilteredHeight, written }
          vPendingFilteredChunks
          nNodeState } ∧
      (st.nNodeState = .getFilteredBlocks → nNodeState ≠ .getHeaders) := by
  rw [recordProgress]
  by_cases hstate : st.nNodeState = .getFilteredBlocks
  · obtain ⟨nLastFilteredHeight, written, chunks, hend⟩ := st.endChunk_eq hashBlock nHeight
    rw [if_pos hstate, hend]
    dsimp only
    split_ifs
    · exact ⟨nLastFilteredHeight, written, chunks, .ready, rfl, fun _ => NodeState.noConfusion⟩
    · refine ⟨nLastFilteredHeight, written, chunks, st.nNodeState, rfl, fun _ h => ?_⟩
      rw [hstate] at h
      cases h
  · obtain ⟨nLastFilteredHeight, written, hlast⟩ := st.setLastFiltered_eq nHeight (nHeight.tmod 5 = 0)
    rw [if_neg hstate, hlast]
    exact ⟨nLastFilteredHeight, written, st.vPendingFilteredChunks, st.nNodeState, rfl, fun h => absurd h hstate⟩

/-- The node state goes from headers to filtered blocks, if at all; the chunks stay, and so does what the wallet has but
for what the headers mark. -/
theorem findHeader_spec (header : MerkleHeader) :
    (st.findHeader env outcome header).2.vPendingFilteredChunks = st.vPendingFilteredChunks ∧
      ((st.findHeader env outcome header).2.nNodeState = st.nNodeState ∨
        st.nNodeState = .getHeaders ∧ (st.findHeader env outcome header).2.nNodeState = .getFilteredBlocks) ∧
      ∃ mapWallet, (st.findHeader env outcome header).2.wallet = { st.wallet with mapWallet } := by
  rw [findHeader]
  cases st.mapBlockThinIndex header.hash with
  | some pBlockThinIndex => exact ⟨rfl, Or.inl rfl, _, rfl⟩
  | none =>
      dsimp only
      split_ifs
      · exact ⟨rfl, Or.inl rfl, _, rfl⟩
      · rw [processBlockThin]
        split_ifs with hheaders
        · exact ⟨rfl, Or.inr ⟨hheaders.2.1, rfl⟩, _, rfl⟩
        · exact ⟨rfl, Or.inl rfl, _, rfl⟩

/-- What the header changes is not changed back. -/
theorem undisturbed_findHeader {hashBlock : UInt256} {nHeight : Int} {header : MerkleHeader}
    (h : Undisturbed st ((st.findHeader env outcome header).2.recordProgress hashBlock nHeight)) :
    Undisturbed st (st.findHeader env outcome header).2 := by
  obtain ⟨hchunks, hstate, mapWallet, hwallet⟩ := @findHeader_spec W env outcome st header
  obtain ⟨_, _, _, _, hprogress, hheaders⟩ := (st.findHeader env outcome header).2.recordProgress_eq hashBlock nHeight
  rw [hprogress] at h
  refine ⟨?_, hchunks, ?_, h.mempool⟩
  · rcases hstate with hsame | ⟨hbefore, hafter⟩
    · exact hsame
    · exact absurd (h.nNodeState.trans hbefore) (hheaders hafter)
  · have hmarks := congrArg MerkleWallet.mapWallet h.wallet
    rw [hwallet] at hmarks
    rw [hwallet, show mapWallet = st.wallet.mapWallet from hmarks]

/-- A forged block changes nothing exactly when there is nothing that it could. -/
theorem rejectsCleanly_iff (env : MerkleEnv) (outcome : HeaderOutcome W) (st : MerkleNode W)
    (merkleBlock : CMerkleBlockIncoming) (pvTxns : Option (List CTransaction)) :
    RejectsCleanly env outcome st merkleBlock pvTxns ↔ Quiet env outcome st merkleBlock := by
  refine forall_congr' fun pBlockThinIndex => forall_congr' fun hfound => forall_congr' fun hroot => ?_
  have hprocess : st.processMerkleBlock env outcome merkleBlock pvTxns =
      (st.findHeader env outcome merkleBlock.header).2.recordProgress merkleBlock.header.hash
        pBlockThinIndex.nHeight := by
    rw [processMerkleBlock]
    rcases hfind : st.findHeader env outcome merkleBlock.header with ⟨found, st'⟩
    rw [hfind] at hfound
    obtain rfl : found = some pBlockThinIndex := hfound
    exact if_pos hroot
  rw [hprocess]
  constructor
  · intro h
    have hheader := undisturbed_findHeader h
    have hprogress : Undisturbed (st.findHeader env outcome merkleBlock.header).2
        ((st.findHeader env outcome merkleBlock.header).2.recordProgress merkleBlock.header.hash
          pBlockThinIndex.nHeight) :=
      ⟨h.1.trans hheader.1.symm, h.2.trans hheader.2.symm, h.3.trans hheader.3.symm, h.4.trans hheader.4.symm⟩
    exact ⟨hheader, hheader.noProgress_iff.1 (recordProgress_undisturbed_iff.1 hprogress)⟩
  · rintro ⟨hheader, hprogress⟩
    exact hheader.trans (recordProgress_undisturbed_iff.2 (hheader.noProgress_iff.2 hprogress))

end MerkleNode

/-! ## A forged block -/

/-- Nothing is hashed, and there are no transactions. -/
def forgedEnv : MerkleEnv where
  hash _ _ := 0
  fThinFullIndex := true
  readBlockThinIndex _ := none
  nBlocksOfPeers := 0
  txHash _ := 0
  freed tx := tx
  accepts _ _ := false
  fInvolving _ := false
  getTime := 0

/-- A node that knows the header 7, at height 10. -/
def forgedNode : MerkleNode Unit where
  nNodeState := .ready
  vPendingFilteredChunks := []
  vIncomingMerkleBlocks := []
  mapBlockThinIndex hash := if hash = 7 then some ⟨10, 5⟩ else none
  nBestHeight := 10
  nTimeRear := none
  mempool := .empty
  wallet := ⟨9, none, [], ()⟩

/-- The header 7 with a tree of no transactions. -/
def forgedBlock : CMerkleBlockIncoming := ⟨⟨7, 0⟩, ⟨⟨[], []⟩, 0, false⟩, 0, 0, []⟩

/-- The last filtered height goes up to that of the forged block. -/
theorem forgedBlock_not_rejectsCleanly :
    ¬ forgedNode.RejectsCleanly forgedEnv ⟨fun _ => none, 0, none, .empty, (), false⟩ forgedBlock none := by
  rw [MerkleNode.rejectsCleanly_iff]
  intro hquiet
  obtain ⟨_, hprogress⟩ := hquiet ⟨10, 5⟩ rfl (Or.inl rfl)
  have hheight : (10 : Int) ≤ 9 := hprogress
  exact absurd hheight (by decide)

end ProCurrency

import ProCurrency.Connect.Inverse
import ProCurrency.Pool.Conflicts

/-!
# The best chain over all stores

`CBlock::SetBestChain`, `CBlock::SetBestChainInner`, `Reorganize` and `InvalidChainFound` (main.cpp) as in
`Chain/BestChain`, with `ConnectBlock`, `DisconnectBlock` and the memory pool themselves. What waits in the batch is told
from what is on the disk; key images, ring coins and the trust of invalid chains have handles of their own, and go to
the disk at once. Writes into the batch do not fail.
-/

namespace ProCurrency

/-- The pointer to the best block, and `hashNext` of the block index. -/
structure BestChainRecords where
  hashBestChain : UInt256
  hashNext : UInt256 → UInt256

structure ReorgNode where
  mem : ChainMemory
  store : ConnectStore
  /-- The records through the handle, and those on the disk. -/
  records : BestChainRecords
  diskRecords : BestChainRecords
  /-- In memory and on the disk. -/
  nBestInvalidTrust : UInt256
  pool : CTxMemPool

/-- What one call meets. Of `chain.outcomes` the blocks that are read and the commits are used. -/
structure ReorgEnv (G : Type) where
  node : PoolNodeEnv
  connect : ConnectEnv G
  chain : PoolOutcomes G
  fuel : Nat

/-- How a call ends. An error that is returned without `TxnAbort` is `failed`. -/
inductive Ending where
  | done
  | failed
  | aborted
  deriving Repr, DecidableEq

/-- All that other handles read. -/
structure CommittedRecords where
  txIndex : UInt256 → Option CTxIndex
  keyImages : Bytes → Option CKeyImageSpent
  anonOutputs : Bytes → Option CAnonOutput
  records : BestChainRecords
  nBestInvalidTrust : UInt256

namespace ReorgNode

def committed (n : ReorgNode) : CommittedRecords where
  txIndex := n.store.diskTxIndex
  keyImages := n.store.keyImages
  anonOutputs := n.store.anonOutputs
  records := n.diskRecords
  nBestInvalidTrust := n.nBestInvalidTrust

/-! ## The handle -/

/-- `TxnBegin`, and `TxnAbort`: the handle reads what is on the disk. -/
def dropBatch (n : ReorgNode) : ReorgNode :=
  { n with store := { n.store with txIndex := n.store.diskTxIndex }, records := n.diskRecords }

def txnCommit (n : ReorgNode) : ReorgNode :=
  { n with store := { n.store with diskTxIndex := n.store.txIndex }, diskRecords := n.records }

def writeHashBestChain (n : ReorgNode) (hash : UInt256) : ReorgNode :=
  { n with records := { n.records with hashBestChain := hash } }

/-- `WriteBlockIndex` for the entry before a block. -/
def writeHashNext (n : ReorgNode) (hashNext : UInt256) : List CBlockIndex → ReorgNode
  | [] => n
  | pindexPrev :: _ =>
      { n with
        records := { n.records with hashNext := Function.update n.records.hashNext pindexPrev.hashBlock hashNext } }

/-- `InvalidChainFound`; the trust is written past the handle. -/
def invalidChainFound (n : ReorgNode) : List CBlockIndex → ReorgNode
  | [] => n
  | pindexNew :: _ =>
      if n.nBestInvalidTrust < pindexNew.nChainTrust then { n with nBestInvalidTrust := pindexNew.nChainTrust } else n

variable {G : Type} (env : ReorgEnv G)

def readBlock (pindex : List CBlockIndex) : Option CBlock :=
  readBlockFromDisk env.node.chain env.chain.outcomes pindex

def disconnectBlock (n : ReorgNode) (block : CBlock) (pindex : List CBlockIndex) : Bool × ReorgNode :=
  match env.connect.disconnectBlock n.store block with
  | (false, store) => (false, { n with store })
  | (true, store) => (true, { n with store }.writeHashNext 0 pindex.tail)

def disconnectAll (n : ReorgNode) : List (List CBlockIndex) → Bool × ReorgNode
  | [] => (true, n)
  | pindex :: vDisconnect =>
      match readBlock env pindex with
      | none => (false, n)
      | some block =>
          match n.disconnectBlock env block pindex with
          | (false, n) => (false, n)
          | (true, n) => disconnectAll n vDisconnect

variable [AddCommGroup G]

/-- A block that is refused has written nothing. -/
def connectBlock (n : ReorgNode) (block : CBlock) : List CBlockIndex → Bool × ReorgNode
  | [] => (false, n)
  | pindex :: pprev =>
      match env.connect.connectBlock n.store pindex pprev false block with
      | none => (false, n)
      | some store => (true, { n with store }.writeHashNext pindex.hashBlock pprev)

def connectAll (n : ReorgNode) : List (List CBlockIndex) → Bool × ReorgNode
  | [] => (true, n)
  | pindex :: vConnect =>
      match readBlock env pindex with
      | none => (false, n)
      | some block =>
          match n.connectBlock env block pindex with
          | (false, n) => (false, n)
          | (true, n) => connectAll n vConnect

/-! ## Reorganisation -/

def reorganize (n : ReorgNode) (pindexNew : List CBlockIndex) : Option (Bool × ReorgNode) :=
  match findFork n.mem.pindexBest pindexNew with
  | none => some (false, n)
  | some pfork =>
      let vDisconnect := branchTo pfork n.mem.pindexBest
      let vConnect := (branchTo pfork pindexNew).reverse
      match n.disconnectAll env vDisconnect with
      | (false, n) => some (false, n)
      | (true, n) =>
          match n.connectAll env vConnect with
          | (false, n) => some (false, n)
          | (true, n) =>
              let n := n.writeHashBestChain (getBlockHash pindexNew)
              if env.chain.outcomes.commitFails pindexNew then some (false, n.dropBatch)
              else
                let n := n.txnCommit
                let txsBack := PoolNode.vResurrect env.node env.chain vDisconnect
                let txsGone := PoolNode.vDelete env.node env.chain vConnect
                match (n.pool.resurrectAll env.node.pool env.chain.acceptance txsBack).deleteAll env.node.pool
                  env.fuel txsGone with
                | none => none
                | some pool =>
                    let mem := { n.mem with pnext := relink vDisconnect vConnect n.mem.pnext }
                    some (true, { n with mem, pool })

/-! ## The best chain -/

def setBestChainInner (n : ReorgNode) (block : CBlock) (pindexNew : List CBlockIndex) :
    Option (Ending × ReorgNode) :=
  match n.connectBlock env block pindexNew with
  | (false, n) => some (.aborted, n.dropBatch.invalidChainFound pindexNew)
  | (true, n) =>
      let n := n.writeHashBestChain (env.node.chain.blockHash block)
      if env.chain.outcomes.commitFails pindexNew then some (.failed, n.dropBatch)
      else
        let n := n.txnCommit
        match n.pool.removeAll env.node.pool env.fuel block.vtx with
        | none => none
        | some pool =>
            let mem := { n.mem with pnext := relink [] [pindexNew] n.mem.pnext }
            some (.done, { n with mem, pool })

/-- The loop over the postponed blocks, which ends at the first block that fails. -/
def connectPostponed (n : ReorgNode) : List (List CBlockIndex) → Option ReorgNode
  | [] => some n
  | pindex :: rest =>
      match readBlock env pindex with
      | none => some n
      | some block =>
          match setBestChainInner env n.dropBatch block pindex with
          | none => none
          | some (.done, n) => connectPostponed n rest
          | some (.failed, n) => some n
          | some (.aborted, n) => some n

/-- The end of `SetBestChain`. -/
def newBestBlock (n : ReorgNode) (hash : UInt256) (pindexNew : List CBlockIndex) : Option (Ending × ReorgNode) :=
  match pindexNew with
  | [] => none
  | pindex :: pprev =>
      some (.done,
        { n with
          mem := { n.mem with
            hashBestChain := hash
            pindexBest := pindex :: pprev
            nBestHeight := pindex.nHeight
            nBestChainTrust := pindex.nChainTrust } })

def setBestChain (n : ReorgNode) (block : CBlock) (pindexNew : List CBlockIndex) : Option (Ending × ReorgNode) :=
  let hash := env.node.chain.blockHash block
  let n := n.dropBatch
  if n.mem.pindexGenesisBlock = [] ∧ hash = env.node.chain.hashGenesisBlock then
    let n := n.writeHashBestChain hash
    if env.chain.outcomes.commitFails pindexNew then some (.failed, n.dropBatch)
    else
      let n := n.txnCommit
      newBestBlock { n with mem := { n.mem with pindexGenesisBlock := pindexNew } } hash pindexNew
  else if block.hashPrevBlock = n.mem.hashBestChain then
    match setBestChainInner env n block pindexNew with
    | none => none
    | some (.done, n) => newBestBlock n hash pindexNew
    | some (.failed, n) => some (.failed, n)
    | some (.aborted, n) => some (.aborted, n)
  else
    match n.mem.pindexBest with
    | [] => none
    | pindexBest :: _ =>
        match postpone pindexBest.nChainTrust pindexNew with
        | (vpindexSecondary, pindexIntermediate) =>
            match reorganize env n pindexIntermediate with
            | none => none
            | some (false, n) => some (.aborted, n.dropBatch.invalidChainFound pindexNew)
            | some (true, n) =>
                match connectPostponed env n vpindexSecondary.reverse with
                | none => none
                | some n => newBestBlock n hash pindexNew

end ReorgNode

/-!
## A call that ends in `TxnAbort`

What went through the batch is dropped, and the memory pool has not been touched. The trust of the chain is recorded as
that of an invalid one. The wallets have written through handles of their own: what they recorded and erased for the ring
transactions of both branches stays.
-/

/-- No transaction of the block moves ring coins. -/
def CBlock.RingFree (block : CBlock) : Prop := ∀ tx ∈ block.vtx, tx.nVersion ≠ ANON_TXN_VERSION

namespace ConnectEnv

variable {G : Type} {env : ConnectEnv G} {s s' : ConnectStore} {fOk : Bool} {block : CBlock}
  {vtx : List CTransaction}

theorem undoBlock_eq (env : ConnectEnv G) (s : ConnectStore) (h : ∀ tx ∈ vtx, tx.nVersion ≠ ANON_TXN_VERSION) :
    vtx.foldl env.undoTx s = s := by
  induction vtx generalizing s with
  | nil => rfl
  | cons tx vtx ih =>
      obtain ⟨hversion, hrest⟩ := List.forall_mem_cons.mp h
      rw [List.foldl_cons, undoTx, if_neg (by simpa using hversion)]
      exact ih s hrest

/-- The disconnection of a block writes past the batch for ring transactions only. -/
theorem disconnectBlock_past (h : env.disconnectBlock s block = (fOk, s')) :
    s'.diskTxIndex = s.diskTxIndex ∧
      (block.RingFree → s'.keyImages = s.keyImages ∧ s'.anonOutputs = s.anonOutputs) := by
  rw [disconnectBlock] at h
  rcases htxs : env.disconnectTxs s block.vtx.reverse with ⟨_ | _, s₁⟩
  · rw [htxs] at h
    cases h
    rw [disconnectTxs_frame htxs]
    exact ⟨rfl, fun _ => ⟨rfl, rfl⟩⟩
  · rw [htxs] at h
    cases h
    have hframe := disconnectTxs_frame htxs
    constructor
    · rw [(undoBlock_txIndex env s₁ block.vtx).2, hframe]
    · intro hfree
      rw [undoBlock_eq env s₁ hfree, hframe]
      exact ⟨rfl, rfl⟩

variable [AddCommGroup G]

theorem syncBlock_past (env : ConnectEnv G) (blockHash : UInt256) (s : ConnectStore) (vtx : List CTransaction) :
    (env.syncBlock blockHash s vtx).diskTxIndex = s.diskTxIndex ∧
      ((∀ tx ∈ vtx, tx.nVersion ≠ ANON_TXN_VERSION) → env.syncBlock blockHash s vtx = s) := by
  induction vtx generalizing s with
  | nil => exact ⟨rfl, fun _ => rfl⟩
  | cons tx vtx ih =>
      obtain ⟨hwrites, hsame⟩ := syncWallets_spec env s tx blockHash env.wallets
      rw [syncBlock, syncWithWallets]
      constructor
      · rw [(ih _).1, hwrites.txIndex.2]
      · intro hfree
        obtain ⟨hversion, hrest⟩ := List.forall_mem_cons.mp hfree
        rw [hsame hversion]
        exact (ih s).2 hrest

/-- So does its connection. -/
theorem connectBlock_past {pindex : CBlockIndex} {pprev : List CBlockIndex}
    (h : env.connectBlock s pindex pprev false block = some s') :
    s'.diskTxIndex = s.diskTxIndex ∧
      (block.RingFree → s'.keyImages = s.keyImages ∧ s'.anonOutputs = s.anonOutputs) := by
  obtain ⟨-, t, -, -, rfl⟩ := connectBlock_spec h
  rw [if_neg Bool.false_ne_true]
  obtain ⟨hdisk, hsame⟩ := syncBlock_past env (env.blockHash block) (updateTxIndex s t.mapQueuedChanges) block.vtx
  refine ⟨hdisk, fun hfree => ?_⟩
  rw [hsame hfree]
  exact ⟨rfl, rfl⟩

end ConnectEnv

namespace ReorgNode

variable {G : Type} {env : ReorgEnv G} {n n' n'' : ReorgNode} {ok : Bool} {block : CBlock}
  {pindexNew : List CBlockIndex} {pindices : List (List CBlockIndex)}

/-! ## Before the commit -/

/-- What is not in the batch is as it was, but for what the wallets have written. -/
structure Uncommitted (n n' : ReorgNode) : Prop where
  diskTxIndex : n'.store.diskTxIndex = n.store.diskTxIndex
  diskRecords : n'.diskRecords = n.diskRecords
  nBestInvalidTrust : n'.nBestInvalidTrust = n.nBestInvalidTrust
  pool : n'.pool = n.pool
  mem : n'.mem = n.mem

def SameCoins (n n' : ReorgNode) : Prop :=
  n'.store.keyImages = n.store.keyImages ∧ n'.store.anonOutputs = n.store.anonOutputs

/-- The blocks that are read for these entries move no ring coins. -/
def RingFree (env : ReorgEnv G) (pindices : List (List CBlockIndex)) : Prop :=
  ∀ pindex ∈ pindices, ∀ block, readBlock env pindex = some block → block.RingFree

theorem Uncommitted.refl (n : ReorgNode) : Uncommitted n n := ⟨rfl, rfl, rfl, rfl, rfl⟩

theorem Uncommitted.trans (h : Uncommitted n n') (h' : Uncommitted n' n'') : Uncommitted n n'' where
  diskTxIndex := h'.diskTxIndex.trans h.diskTxIndex
  diskRecords := h'.diskRecords.trans h.diskRecords
  nBestInvalidTrust := h'.nBestInvalidTrust.trans h.nBestInvalidTrust
  pool := h'.pool.trans h.pool
  mem := h'.mem.trans h.mem

theorem SameCoins.trans (h : SameCoins n n') (h' : SameCoins n' n'') : SameCoins n n'' :=
  ⟨h'.1.trans h.1, h'.2.trans h.2⟩

theorem writeHashNext_uncommitted (n : ReorgNode) (hashNext : UInt256) (pprev : List CBlockIndex) :
    Uncommitted n (n.writeHashNext hashNext pprev) ∧ SameCoins n (n.writeHashNext hashNext pprev) := by
  cases pprev with
  | nil => exact ⟨.refl _, rfl, rfl⟩
  | cons pindexPrev _ => exact ⟨⟨rfl, rfl, rfl, rfl, rfl⟩, rfl, rfl⟩

theorem disconnectBlock_uncommitted {pindex : List CBlockIndex}
    (h : n.disconnectBlock env block pindex = (ok, n')) :
    Uncommitted n n' ∧ (block.RingFree → SameCoins n n') := by
  rw [disconnectBlock] at h
  rcases hstore : env.connect.disconnectBlock n.store block with ⟨fOk, store⟩
  obtain ⟨hdisk, hcoins⟩ := ConnectEnv.disconnectBlock_past hstore
  have hfirst : Uncommitted n { n with store } := ⟨hdisk, rfl, rfl, rfl, rfl⟩
  rw [hstore] at h
  cases fOk with
  | false =>
      cases h
      exact ⟨hfirst, hcoins⟩
  | true =>
      cases h
      obtain ⟨hnext, hsame⟩ := writeHashNext_uncommitted { n with store } 0 pindex.tail
      exact ⟨hfirst.trans hnext, fun hfree => (show SameCoins n { n with store } from hcoins hfree).trans hsame⟩

theorem disconnectAll_uncommitted (h : n.disconnectAll env pindices = (ok, n')) :
    Uncommitted n n' ∧ (RingFree env pindices → SameCoins n n') := by
  induction pindices generalizing n with
  | nil =>
      cases h
      exact ⟨.refl _, fun _ => ⟨rfl, rfl⟩⟩
  | cons pindex vDisconnect ih =>
      rw [disconnectAll] at h
      cases hread : readBlock env pindex with
      | none =>
          rw [hread] at h
          cases h
          exact ⟨.refl _, fun _ => ⟨rfl, rfl⟩⟩
      | some block =>
          simp only [hread] at h
          rcases hblock : n.disconnectBlock env block pindex with ⟨_ | _, n₁⟩
          · rw [hblock] at h
            cases h
            obtain ⟨hfirst, hcoins⟩ := disconnectBlock_uncommitted hblock
            exact ⟨hfirst, fun hfree => hcoins (hfree pindex List.mem_cons_self block hread)⟩
          · rw [hblock] at h
            obtain ⟨hfirst, hcoins⟩ := disconnectBlock_uncommitted hblock
            obtain ⟨hrest, hcoins'⟩ := ih h
            refine ⟨hfirst.trans hrest, fun hfree => ?_⟩
            exact (hcoins (hfree pindex List.mem_cons_self block hread)).trans
              (hcoins' fun pindex hmem => hfree pindex (List.mem_cons_of_mem _ hmem))

variable [AddCommGroup G]

theorem connectBlock_uncommitted {pindex : List CBlockIndex} (h : n.connectBlock env block pindex = (ok, n')) :
    Uncommitted n n' ∧ (ok = false → n' = n) ∧ (block.RingFree → SameCoins n n') := by
  cases pindex with
  | nil =>
      cases h
      exact ⟨.refl _, fun _ => rfl, fun _ => ⟨rfl, rfl⟩⟩
  | cons entry pprev =>
      rw [connectBlock] at h
      cases hstore : env.connect.connectBlock n.store entry pprev false block with
      | none =>
          rw [hstore] at h
          cases h
          exact ⟨.refl _, fun _ => rfl, fun _ => ⟨rfl, rfl⟩⟩
      | some store =>
          rw [hstore] at h
          cases h
          obtain ⟨hdisk, hcoins⟩ := ConnectEnv.connectBlock_past hstore
          have hfirst : Uncommitted n { n with store } := ⟨hdisk, rfl, rfl, rfl, rfl⟩
          obtain ⟨hnext, hsame⟩ := writeHashNext_uncommitted { n with store } entry.hashBlock pprev
          refine ⟨hfirst.trans hnext, fun hok => absurd hok.symm Bool.false_ne_true, fun hfree => ?_⟩
          exact (show SameCoins n { n with store } from hcoins hfree).trans hsame

theorem connectAll_uncommitted (h : n.connectAll env pindices = (ok, n')) :
    Uncommitted n n' ∧ (RingFree env pindices → SameCoins n n') := by
  induction pindices generalizing n with
  | nil =>
      cases h
      exact ⟨.refl _, fun _ => ⟨rfl, rfl⟩⟩
  | cons pindex vConnect ih =>
      rw [connectAll] at h
      cases hread : readBlock env pindex with
      | none =>
          rw [hread] at h
          cases h
          exact ⟨.refl _, fun _ => ⟨rfl, rfl⟩⟩
      | some block =>
          simp only [hread] at h
          rcases hblock : n.connectBlock env block pindex with ⟨_ | _, n₁⟩
          · rw [hblock] at h
            cases h
            obtain ⟨hfirst, -, hcoins⟩ := connectBlock_uncommitted hblock
            exact ⟨hfirst, fun hfree => hcoins (hfree pindex List.mem_cons_self block hread)⟩
          · rw [hblock] at h
            obtain ⟨hfirst, -, hcoins⟩ := connectBlock_uncommitted hblock
            obtain ⟨hrest, hcoins'⟩ := ih h
            refine ⟨hfirst.trans hrest, fun hfree => ?_⟩
            exact (hcoins (hfree pindex List.mem_cons_self block hread)).trans
              (hcoins' fun pindex hmem => hfree pindex (List.mem_cons_of_mem _ hmem))

/-- A reorganisation that fails has committed nothing. -/
theorem reorganize_uncommitted (h : n.reorganize env pindexNew = some (false, n')) :
    Uncommitted n n' ∧
      ((∀ pfork, findFork n.mem.pindexBest pindexNew = some pfork →
          RingFree env (branchTo pfork n.mem.pindexBest ++ branchTo pfork pindexNew)) →
        SameCoins n n') := by
  rw [reorganize] at h
  cases hfork : findFork n.mem.pindexBest pindexNew with
  | none =>
      rw [hfork] at h
      cases h
      exact ⟨.refl _, fun _ => ⟨rfl, rfl⟩⟩
  | some pfork =>
      simp only [hfork] at h
      have hback (hfree : ∀ pfork', some pfork = some pfork' →
          RingFree env (branchTo pfork' n.mem.pindexBest ++ branchTo pfork' pindexNew)) :
          RingFree env (branchTo pfork n.mem.pindexBest) :=
        fun pindex hmem => hfree pfork rfl pindex (List.mem_append_left _ hmem)
      have hnew (hfree : ∀ pfork', some pfork = some pfork' →
          RingFree env (branchTo pfork' n.mem.pindexBest ++ branchTo pfork' pindexNew)) :
          RingFree env (branchTo pfork pindexNew).reverse :=
        fun pindex hmem => hfree pfork rfl pindex (List.mem_append_right _ (List.mem_reverse.mp hmem))
      rcases hdisconnect : n.disconnectAll env (branchTo pfork n.mem.pindexBest) with ⟨_ | _, n₁⟩
      · rw [hdisconnect] at h
        cases h
        obtain ⟨hkept, hcoins⟩ := disconnectAll_uncommitted hdisconnect
        exact ⟨hkept, fun hfree => hcoins (hback hfree)⟩
      · simp only [hdisconnect] at h
        obtain ⟨hkept, hcoins⟩ := disconnectAll_uncommitted hdisconnect
        rcases hconnect : n₁.connectAll env (branchTo pfork pindexNew).reverse with ⟨_ | _, n₂⟩
        · rw [hconnect] at h
          cases h
          obtain ⟨hkept', hcoins'⟩ := connectAll_uncommitted hconnect
          exact ⟨hkept.trans hkept', fun hfree => (hcoins (hback hfree)).trans (hcoins' (hnew hfree))⟩
        · simp only [hconnect] at h
          obtain ⟨hkept', hcoins'⟩ := connectAll_uncommitted hconnect
          split_ifs at h
          · cases h
            have hdrop : Uncommitted n₂ (n₂.writeHashBestChain (getBlockHash pindexNew)).dropBatch :=
              ⟨rfl, rfl, rfl, rfl, rfl⟩
            refine ⟨(hkept.trans hkept').trans hdrop, fun hfree => ?_⟩
            exact (hcoins (hback hfree)).trans (hcoins' (hnew hfree))
          · split at h <;> cases h

/-! ## The call -/

/-- The call extends the best chain, or reorganises between two branches without ring transactions. -/
def WithoutRings (env : ReorgEnv G) (n : ReorgNode) (block : CBlock) (pindexNew : List CBlockIndex) : Prop :=
  block.hashPrevBlock = n.mem.hashBestChain ∨
    ∀ pindexBest pprev pfork, n.mem.pindexBest = pindexBest :: pprev →
      findFork n.mem.pindexBest (postpone pindexBest.nChainTrust pindexNew).2 = some pfork →
        RingFree env (branchTo pfork n.mem.pindexBest ++
          branchTo pfork (postpone pindexBest.nChainTrust pindexNew).2)

/-- What a call leaves that ends in `TxnAbort`. -/
structure Restored (n n' : ReorgNode) (pindexNew : List CBlockIndex) : Prop where
  txIndex : n'.committed.txIndex = n.committed.txIndex
  records : n'.committed.records = n.committed.records
  /-- The handle has nothing that waits. -/
  dropped : n'.store.txIndex = n'.store.diskTxIndex ∧ n'.records = n'.diskRecords
  nBestInvalidTrust : n'.committed.nBestInvalidTrust = (n.invalidChainFound pindexNew).committed.nBestInvalidTrust
  mem : n'.mem = n.mem
  pool : n'.pool = n.pool

omit [AddCommGroup G] in
theorem Uncommitted.restored (h : Uncommitted n n') (pindexNew : List CBlockIndex) :
    Restored n (n'.dropBatch.invalidChainFound pindexNew) pindexNew := by
  have htrust : n'.dropBatch.nBestInvalidTrust = n.nBestInvalidTrust := h.nBestInvalidTrust
  cases pindexNew with
  | nil => exact ⟨h.diskTxIndex, h.diskRecords, ⟨rfl, rfl⟩, htrust, h.mem, h.pool⟩
  | cons pindex _ =>
      rw [invalidChainFound, htrust]
      split_ifs with hlt
      · refine ⟨h.diskTxIndex, h.diskRecords, ⟨rfl, rfl⟩, ?_, h.mem, h.pool⟩
        rw [invalidChainFound, if_pos hlt]
        rfl
      · refine ⟨h.diskTxIndex, h.diskRecords, ⟨rfl, rfl⟩, ?_, h.mem, h.pool⟩
        rw [invalidChainFound, if_neg hlt]
        exact htrust

omit [AddCommGroup G] in
theorem invalidChainFound_sameCoins (n : ReorgNode) (pindexNew : List CBlockIndex) :
    SameCoins n (n.dropBatch.invalidChainFound pindexNew) := by
  cases pindexNew with
  | nil => exact ⟨rfl, rfl⟩
  | cons pindex _ =>
      rw [invalidChainFound]
      split_ifs <;> exact ⟨rfl, rfl⟩

theorem setBestChainInner_aborted (h : n.setBestChainInner env block pindexNew = some (.aborted, n')) :
    n' = n.dropBatch.invalidChainFound pindexNew := by
  rw [setBestChainInner] at h
  rcases hconnect : n.connectBlock env block pindexNew with ⟨_ | _, n₁⟩
  · rw [hconnect] at h
    cases h
    obtain ⟨-, hsame, -⟩ := connectBlock_uncommitted hconnect
    rw [hsame rfl]
  · simp only [hconnect] at h
    split_ifs at h
    · cases h
    · split at h <;> cases h

theorem newBestBlock_done {hash : UInt256} {ending : Ending}
    (h : n.newBestBlock hash pindexNew = some (ending, n')) : ending = .done := by
  cases pindexNew with
  | nil => cases h
  | cons pindex pprev =>
      cases h
      rfl

theorem setBestChain_aborted (h : n.setBestChain env block pindexNew = some (.aborted, n')) :
    Restored n n' pindexNew ∧ (WithoutRings env n block pindexNew → SameCoins n n') := by
  have hbegin : Uncommitted n n.dropBatch := ⟨rfl, rfl, rfl, rfl, rfl⟩
  rw [setBestChain] at h
  dsimp only at h
  split_ifs at h with hgenesis hfail hextends
  · cases h
  · cases newBestBlock_done h
  · split at h
    · cases h
    · cases newBestBlock_done h
    · cases h
    · rename_i n₁ hinner
      cases h
      obtain rfl := setBestChainInner_aborted hinner
      exact ⟨hbegin.restored pindexNew, fun _ => invalidChainFound_sameCoins n pindexNew⟩
  · split at h
    · cases h
    · rename_i pindexBest pprev hbest
      split at h
      · cases h
      · rename_i n₁ hreorganize
        cases h
        obtain ⟨hkept, hcoins⟩ := reorganize_uncommitted hreorganize
        refine ⟨(hbegin.trans hkept).restored pindexNew, fun hfree => ?_⟩
        have hsame : SameCoins n n₁ := by
          obtain hextends' | hfree := hfree
          · exact absurd hextends' hextends
          · exact hcoins fun pfork hfork => hfree pindexBest pprev pfork hbest hfork
        exact hsame.trans (invalidChainFound_sameCoins n₁ pindexNew)
      · split at h
        · cases h
        · cases newBestBlock_done h

/-- The best block has moved a ring coin, and the other branch starts at its parent. -/
def forkedNode : ReorgNode where
  mem :=
    { pindexGenesisBlock := threeChain.drop 2
      hashBestChain := 2
      pindexBest := threeChain.drop 1
      nBestHeight := 1
      nBestChainTrust := 2
      pnext := fun _ => none }
  store :=
    { ringStore with
      keyImages := fun vchImage =>
        if vchImage = writeUInt256 2 ++ [7] then some { txnHash := 3, inputNo := 0, nValue := 500000000 } else none }
  records := { hashBestChain := 2, hashNext := fun _ => 0 }
  diskRecords := { hashBestChain := 2, hashNext := fun _ => 0 }
  nBestInvalidTrust := 9
  pool := .empty

def heavierFork : List CBlockIndex :=
  { hashBlock := 4, nBlockPos := 3, nHeight := 1, nChainTrust := 5 } :: threeChain.drop 2

/-- The best block is read from the disk, with these transactions, and the new one is not. -/
def forkedEnv (vtx : List CTransaction) : ReorgEnv (ZMod (2 ^ 256 + 297)) where
  node := PoolNode.spendEnv
  connect := ringEnv
  chain :=
    { PoolNode.spendOutcomes with
      outcomes :=
        { PoolNode.spendOutcomes.outcomes with
          readBlock := fun _ nBlockPos => if nBlockPos = 1 then some { blockAt 1 with vtx } else none
          diskWrites_other := PoolNode.spendOutcomes.outcomes.diskWrites_other } }
  fuel := 1

theorem aborted_forkedNode (vtx : List CTransaction)
    (h : ((forkedNode.setBestChain (forkedEnv vtx) (blockAt 1) heavierFork).map Prod.fst) = some .aborted) :
    ∃ n', forkedNode.setBestChain (forkedEnv vtx) (blockAt 1) heavierFork = some (.aborted, n') := by
  obtain ⟨⟨_, n'⟩, hcall, rfl⟩ := Option.map_eq_some_iff.mp h
  exact ⟨n', hcall⟩

end ReorgNode

end ProCurrency

import ProCurrency.Reorg.Aborted
import ProCurrency.Store.BlockFile

/-!
# The positions of the transaction index

`ConnectBlock` (main.cpp) counts up the positions of the transactions of a block instead of asking for them, and
`FetchInputs` does not check what it reads there. Every entry leads to its transaction nevertheless.
-/

namespace ProCurrency

/-- The next transaction lies behind this one. -/
theorem StoredBlock.nTxPos_append (b : StoredBlock) (pre : List CTransaction) (tx : CTransaction) :
    (b.txPos (pre ++ [tx])).nTxPos = (b.txPos pre).nTxPos + UInt32.ofNat tx.getSerializeSize := by
  have hsum : 80 + CTransaction.getSizeOfCompactSize b.block.vtx.length +
      ((pre ++ [tx]).map CTransaction.getSerializeSize).sum =
        80 + CTransaction.getSizeOfCompactSize b.block.vtx.length + (pre.map CTransaction.getSerializeSize).sum +
          tx.getSerializeSize := by
    rw [List.map_append, List.sum_append, List.map_singleton, List.sum_singleton, ← Nat.add_assoc]
  rw [StoredBlock.txPos, StoredBlock.txPos, hsum, UInt32.ofNat_add, ← UInt32.add_assoc]

namespace BlockFiles

variable {G : Type} {env : ConnectEnv G} {txHash : CTransaction → UInt256} {d d' : BlockFiles}
  {s s' : ConnectStore} {idx idx' : UInt256 → Option CTxIndex} {prevouts : List COutPoint}

/-- The entry of a transaction that is where the entry says. A position below 80 could be the mark of a transaction of
the memory pool. -/
structure Locates (txHash : CTransaction → UInt256) (d : BlockFiles) (hash : UInt256) (e : CTxIndex)
    (tx : CTransaction) : Prop where
  holds : d.Holds e.pos.nFile e.pos.nTxPos tx.write
  wellFormed : tx.WellFormed
  behind : 80 ≤ e.pos.nTxPos.toNat
  block : ∃ block : CBlock, d.Holds e.pos.nFile e.pos.nBlockPos (block.write SER_DISK) ∧ block.WellFormed ∧ tx ∈ block.vtx
  hash : txHash tx = hash
  vSpent : e.vSpent.length = tx.vout.length

def Indexes (txHash : CTransaction → UInt256) (d : BlockFiles) (idx : UInt256 → Option CTxIndex) : Prop :=
  ∀ hash e, idx hash = some e → ∃ tx, d.Locates txHash hash e tx

theorem Indexes.mono (h : d.Indexes txHash idx) (hgrows : Grows d d') : d'.Indexes txHash idx := by
  intro hash e he
  obtain ⟨tx, htx⟩ := h hash e he
  obtain ⟨block, hholds, hblock⟩ := htx.block
  exact ⟨tx, { htx with holds := htx.holds.mono hgrows, block := ⟨block, hholds.mono hgrows, hblock⟩ }⟩

theorem Indexes.touched (h : d.Indexes txHash idx) (htouched : Touched prevouts idx idx') : d.Indexes txHash idx' := by
  intro hash e' he'
  obtain ⟨e, he, hsame⟩ := htouched.of_some he'
  obtain ⟨tx, htx⟩ := h hash e he
  have hlength : e'.vSpent.length = tx.vout.length := by rw [hsame.vSpent.length_eq, htx.vSpent]
  have hpos := hsame.pos_eq.symm
  exact ⟨tx, hpos ▸ htx.holds, htx.wellFormed, hpos ▸ htx.behind, hpos ▸ htx.block, htx.hash, hlength⟩

theorem Indexes.update (h : d.Indexes txHash idx) {hash : UInt256} {v : Option CTxIndex}
    (hv : ∀ e, v = some e → ∃ tx, d.Locates txHash hash e tx) : d.Indexes txHash (Function.update idx hash v) := by
  intro k e he
  rcases Decidable.em (k = hash) with rfl | hne
  · rw [Function.update_self] at he
    exact hv e he
  · rw [Function.update_of_ne hne] at he
    exact h k e he

/-! ## Disconnecting -/

theorem Indexes.disconnectInputs (h : d.Indexes txHash s.txIndex) {tx : CTransaction} {fOk : Bool}
    (hstep : env.disconnectInputs s tx = (fOk, s')) : d.Indexes txHash s'.txIndex := by
  rw [ConnectEnv.disconnectInputs] at hstep
  rcases hfrom : if tx.isCoinBase then (true, s) else ConnectEnv.disconnectInputsFrom s tx.vin with ⟨fOk₁, s₁⟩
  have hmarks : d.Indexes txHash s₁.txIndex := by
    split_ifs at hfrom
    · cases hfrom
      exact h
    · exact h.touched (ConnectEnv.disconnectInputsFrom_spec hfrom).2.1
  rw [hfrom] at hstep
  cases fOk₁ with
  | false =>
      cases hstep
      exact hmarks
  | true =>
      cases hstep
      exact hmarks.update fun e he => by cases he

theorem Indexes.disconnectTxs {vtx : List CTransaction} {fOk : Bool} (h : d.Indexes txHash s.txIndex)
    (hstep : env.disconnectTxs s vtx = (fOk, s')) : d.Indexes txHash s'.txIndex := by
  induction vtx generalizing s with
  | nil =>
      cases hstep
      exact h
  | cons tx vtx ih =>
      rw [ConnectEnv.disconnectTxs] at hstep
      rcases hfirst : env.disconnectInputs s tx with ⟨fOk₁, s₁⟩
      have h₁ := h.disconnectInputs hfirst
      rw [hfirst] at hstep
      cases fOk₁ with
      | false =>
          cases hstep
          exact h₁
      | true => exact ih h₁ hstep

/-- Also where the disconnection stops half-way. -/
theorem Indexes.disconnectBlock (h : d.Indexes txHash s.txIndex) {block : CBlock} {fOk : Bool}
    (hstep : env.disconnectBlock s block = (fOk, s')) : d.Indexes txHash s'.txIndex := by
  rw [ConnectEnv.disconnectBlock] at hstep
  rcases htxs : env.disconnectTxs s block.vtx.reverse with ⟨fOk₁, s₁⟩
  have h₁ := h.disconnectTxs htxs
  rw [htxs] at hstep
  cases fOk₁ with
  | false =>
      cases hstep
      exact h₁
  | true =>
      cases hstep
      rw [(ConnectEnv.undoBlock_txIndex env s₁ block.vtx).1]
      exact h₁

/-! ## Connecting -/

variable [AddCommGroup G] {pindex : CBlockIndex} {pprev : List CBlockIndex} {t t' : ConnectEnv.BlockTotals}

/-- The position that a round of the loop gives to its transaction, and the one that it leaves for the next. -/
theorem connectTx_nTxPos {tx : CTransaction} (h : env.connectTx s pindex pprev false t tx = some t') :
    t'.nTxPos = t.nTxPos + UInt32.ofNat tx.getSerializeSize ∧
      t'.mapQueuedChanges (env.txHash tx) =
        some (.new { nFile := pindex.nFile, nBlockPos := pindex.nBlockPos, nTxPos := t.nTxPos } tx.vout.length) := by
  simp only [ConnectEnv.connectTx, Bool.false_eq_true, if_false] at h
  rcases Decidable.em (ConnectEnv.overwritesTx s (env.txHash tx) = true) with hover | hover
  · rw [if_pos hover] at h
    cases h
  rcases Decidable.em (MAX_BLOCK_SIGOPS < t.nSigOps + tx.getLegacySigOpCount) with hsigops | hsigops
  · rw [if_neg hover, if_pos hsigops] at h
    cases h
  rw [if_neg hover, if_neg hsigops] at h
  rcases Decidable.em (tx.isCoinBase = true) with hcb | hcb
  · rw [if_pos hcb] at h
    cases hout : tx.getValueOut with
    | none => simp only [hout, reduceCtorEq] at h
    | some nValueOut =>
        rw [hout] at h
        cases h
        exact ⟨rfl, Function.update_self ..⟩
  · rw [if_neg hcb] at h
    cases hfetch : env.fetchInputs s t.mapQueuedChanges tx with
    | none => simp only [hfetch, reduceCtorEq] at h
    | some inputs =>
        simp only [hfetch] at h
        split at h
        · split at h
          · cases h
          · split at h
            · cases h
            · cases h
              exact ⟨rfl, Function.update_self ..⟩
        · cases h

theorem Indexes.connectTxs {b : StoredBlock} {pre vtx : List CTransaction} (hin : b.In d)
    (hfile : pindex.nFile = b.nFile) (hpos : pindex.nBlockPos = b.nBlockPos) (hvtx : b.block.vtx = pre ++ vtx)
    (hnext : t.nTxPos = (b.txPos pre).nTxPos) (h : d.Indexes env.txHash (queuedIndex s t.mapQueuedChanges))
    (hstep : env.connectTxs s pindex pprev false t vtx = some t') :
    d.Indexes env.txHash (queuedIndex s t'.mapQueuedChanges) := by
  induction vtx generalizing t pre with
  | nil =>
      cases hstep
      exact h
  | cons tx vtx ih =>
      obtain ⟨t₁, hfirst, hrest⟩ := ConnectEnv.connectTxs_cons hstep
      obtain ⟨hnext₁, hentry⟩ := connectTx_nTxPos hfirst
      obtain ⟨idx, posThisTx, htouched, hqueued⟩ := ConnectEnv.connectTx_touched hfirst
      obtain ⟨hholds, hok, hbehind⟩ := hin.tx hvtx
      have hposThisTx : CTxIndex.new posThisTx tx.vout.length =
          .new { nFile := pindex.nFile, nBlockPos := pindex.nBlockPos, nTxPos := t.nTxPos } tx.vout.length := by
        have hsame := congrFun hqueued (env.txHash tx)
        rw [Function.update_self, queuedIndex, ConnectEnv.updateTxIndex] at hsame
        dsimp only at hsame
        rw [hentry, Option.some_or] at hsame
        exact (Option.some.inj hsame).symm
      have hsplit : b.block.vtx = (pre ++ [tx]) ++ vtx := by
        rw [hvtx, List.append_assoc]
        rfl
      refine ih hsplit ?_ ?_ hrest
      · rw [hnext₁, hnext, StoredBlock.nTxPos_append]
      · rw [hqueued, hposThisTx]
        refine (h.touched htouched).update fun e he => ?_
        cases he
        refine ⟨tx, ?_, hok, ?_, ?_, rfl, List.length_replicate ..⟩
        · change d.Holds pindex.nFile t.nTxPos tx.write
          rw [hfile, hnext]
          exact hholds
        · change 80 ≤ t.nTxPos.toNat
          rw [hnext]
          exact hbehind
        · refine ⟨b.block, ?_, hin.wellFormed, ?_⟩
          · change d.Holds pindex.nFile pindex.nBlockPos _
            rw [hfile, hpos]
            exact hin.holds
          · rw [hvtx]
            exact List.mem_append_right pre List.mem_cons_self

theorem Indexes.connectBlock {b : StoredBlock} (hin : b.In d) (hfile : pindex.nFile = b.nFile)
    (hpos : pindex.nBlockPos = b.nBlockPos) (h : d.Indexes env.txHash s.txIndex)
    (hstep : env.connectBlock s pindex pprev false b.block = some s') : d.Indexes env.txHash s'.txIndex := by
  obtain ⟨_, t, htxs, _, rfl⟩ := ConnectEnv.connectBlock_spec hstep
  rw [if_neg Bool.false_ne_true, ConnectEnv.syncBlock_txIndex]
  have hempty : queuedIndex s (fun _ => none) = s.txIndex := funext fun hash => Option.none_or
  rw [← hempty] at h
  refine Indexes.connectTxs hin hfile hpos (List.nil_append _).symm ?_ h htxs
  rw [ConnectEnv.BlockTotals.start, hpos]
  rfl

end BlockFiles

/-! ## Runs -/

/-- The files, the blocks that are in them, and the databases. -/
structure ChainDisk where
  files : BlockFiles
  stored : List StoredBlock
  store : ConnectStore

namespace ChainDisk

variable {G : Type} [AddCommGroup G] {fileEnv : BlockFileEnv} {txHash : CTransaction → UInt256}
  {files : BlockFiles} {chain chain' : ChainDisk}

/-- What a node does with them. A block is connected with the index entry that `AcceptBlock` made from its position. -/
inductive Step (G : Type) [AddCommGroup G] (fileEnv : BlockFileEnv) (txHash : CTransaction → UInt256) :
    ChainDisk → ChainDisk → Prop
  | write {chain : ChainDisk} {block : CBlock} {fFail : Option Nat} {files : BlockFiles}
      {r : Option (UInt32 × UInt32)} (hint : block.IntFields) (hsize : block.getSerializeSize ≤ MAX_BLOCK_SIZE)
      (hwrite : chain.files.writeToDisk fileEnv fFail block = (r, files)) :
      Step G fileEnv txHash chain
        { chain with files, stored := (r.map fun p => ⟨p.1, p.2, block⟩).toList ++ chain.stored }
  | connect {chain : ChainDisk} {env : ConnectEnv G} {b : StoredBlock} {pindex : CBlockIndex}
      {pprev : List CBlockIndex} {store : ConnectStore} (hhash : env.txHash = txHash)
      (hread : env.readTx = chain.files.readTx) (hb : b ∈ chain.stored) (hfile : pindex.nFile = b.nFile)
      (hpos : pindex.nBlockPos = b.nBlockPos)
      (hconnect : env.connectBlock chain.store pindex pprev false b.block = some store) :
      Step G fileEnv txHash chain { chain with store }
  | disconnect {chain : ChainDisk} {env : ConnectEnv G} {block : CBlock} {fOk : Bool} {store : ConnectStore}
      (hdisconnect : env.disconnectBlock chain.store block = (fOk, store)) :
      Step G fileEnv txHash chain { chain with store }
  | txnCommit {chain : ChainDisk} :
      Step G fileEnv txHash chain { chain with store := { chain.store with diskTxIndex := chain.store.txIndex } }
  | txnAbort {chain : ChainDisk} :
      Step G fileEnv txHash chain { chain with store := { chain.store with txIndex := chain.store.diskTxIndex } }

/-- A node that has no transaction yet. -/
structure IsFresh (chain : ChainDisk) : Prop where
  stored : chain.stored = []
  txIndex : ∀ hash, chain.store.txIndex hash = none
  diskTxIndex : ∀ hash, chain.store.diskTxIndex hash = none

/-- Blocks that lie apart, with the magic bytes and the size before each. -/
def Apart (stored : List StoredBlock) : Prop :=
  stored.Pairwise fun a b => a.nFile = b.nFile → b.nBlockPos.toNat + b.block.getSerializeSize + 8 ≤ a.nBlockPos.toNat

structure Sound (txHash : CTransaction → UInt256) (chain : ChainDisk) : Prop where
  stored : ∀ b ∈ chain.stored, b.In chain.files
  apart : Apart chain.stored
  txIndex : chain.files.Indexes txHash chain.store.txIndex
  diskTxIndex : chain.files.Indexes txHash chain.store.diskTxIndex

theorem IsFresh.sound (h : chain.IsFresh) : chain.Sound txHash := by
  refine ⟨fun b hb => ?_, h.stored ▸ List.Pairwise.nil, fun hash e he => ?_, fun hash e he => ?_⟩
  · rw [h.stored] at hb
    exact absurd hb List.not_mem_nil
  · rw [h.txIndex hash] at he
    cases he
  · rw [h.diskTxIndex hash] at he
    cases he

theorem Sound.step (h : chain.Sound txHash) (hstep : Step G fileEnv txHash chain chain') : chain'.Sound txHash := by
  cases hstep with
  | @write block fFail files r hint hsize hwrite =>
      obtain ⟨hgrows, hspec⟩ := BlockFiles.writeToDisk_spec hwrite
      have hold : ∀ b ∈ chain.stored, b.In files := fun b hb => (h.stored b hb).mono hgrows
      cases r with
      | none => exact ⟨hold, h.apart, h.txIndex.mono hgrows, h.diskTxIndex.mono hgrows⟩
      | some p =>
          obtain ⟨hholds, hpos, hroom⟩ := hspec p.1 p.2 rfl
          refine ⟨List.forall_mem_cons.2 ⟨⟨hholds, hint, hsize, hroom⟩, hold⟩,
            List.pairwise_cons.2 ⟨fun b hb hfile => ?_, h.apart⟩, h.txIndex.mono hgrows, h.diskTxIndex.mono hgrows⟩
          obtain ⟨_, pre, post, hbytes, hpre⟩ := (h.stored b hb).holds
          dsimp only at hfile ⊢
          rw [hpos, hfile, hbytes, Option.getD_some, List.length_append, List.length_append, hpre,
            CBlock.length_write b.block rfl]
          omega
  | @connect env b pindex pprev store hhash hread hb hfile hpos hconnect =>
      subst hhash
      refine ⟨h.stored, h.apart, BlockFiles.Indexes.connectBlock (h.stored b hb) hfile hpos h.txIndex hconnect, ?_⟩
      dsimp only
      rw [(ConnectEnv.connectBlock_past hconnect).1]
      exact h.diskTxIndex
  | @disconnect env block fOk store hdisconnect =>
      refine ⟨h.stored, h.apart, h.txIndex.disconnectBlock hdisconnect, ?_⟩
      dsimp only
      rw [(ConnectEnv.disconnectBlock_past hdisconnect).1]
      exact h.diskTxIndex
  | txnCommit => exact ⟨h.stored, h.apart, h.txIndex, h.txIndex⟩
  | txnAbort => exact ⟨h.stored, h.apart, h.diskTxIndex, h.diskTxIndex⟩

theorem Sound.run (h : chain.Sound txHash) (hrun : Relation.ReflTransGen (Step G fileEnv txHash) chain chain') :
    chain'.Sound txHash := by
  induction hrun with
  | refl => exact h
  | tail _ hstep ih => exact ih.step hstep

/-- Each position that `WriteToDisk` gave leads to its block, to the header and to the transactions of the block, also behind
what a write that failed has left, and the blocks lie apart. -/
theorem stored_readsBack (hfresh : chain.IsFresh)
    (hrun : Relation.ReflTransGen (Step G fileEnv txHash) chain chain') :
    (∀ b ∈ chain'.stored, b.ReadsBack fileEnv chain'.files) ∧ Apart chain'.stored := by
  have hsound := (@IsFresh.sound txHash chain hfresh).run hrun
  exact ⟨fun b hb => (hsound.stored b hb).readsBack fileEnv, hsound.apart⟩

/-- Whatever blocks have been stored, connected and disconnected, and however often the index was thrown back: an entry
leads to the transaction with its hash, which has as many outputs as the entry, and to the header of a block that has
it, and `FetchInputs` gets just that. -/
theorem fetchPrevTx_finds (hfresh : chain.IsFresh)
    (hrun : Relation.ReflTransGen (Step G fileEnv txHash) chain chain') {hash : UInt256} {e : CTxIndex}
    (he : chain'.store.txIndex hash = some e ∨ chain'.store.diskTxIndex hash = some e) :
    ∃ (tx : CTransaction) (block : CBlock), chain'.files.readTx e.pos = some tx ∧ txHash tx = hash ∧
      e.vSpent.length = tx.vout.length ∧ tx ∈ block.vtx ∧
      chain'.files.readFromDisk fileEnv e.pos.nFile e.pos.nBlockPos false = some block.header ∧
      ∀ (env : ConnectEnv G) (mapTestPool : MapTestPool), env.readTx = chain'.files.readTx →
        (mapTestPool hash).or (chain'.store.txIndex hash) = some e →
          env.fetchPrevTx chain'.store mapTestPool hash = some (e, tx) := by
  have hsound := (@IsFresh.sound txHash chain hfresh).run hrun
  have hlocates : ∃ tx, chain'.files.Locates txHash hash e tx := by
    rcases he with he | he
    · exact hsound.txIndex hash e he
    · exact hsound.diskTxIndex hash e he
  obtain ⟨tx, htx⟩ := hlocates
  have hread := htx.holds.readTx htx.wellFormed
  obtain ⟨block, hblock, hok, hmem⟩ := htx.block
  have hheader := (@BlockFiles.Holds.readFromDisk fileEnv _ _ _ _ hblock hok).2
  refine ⟨tx, block, hread, htx.hash, htx.vSpent, hmem, hheader, fun env mapTestPool henv hpool => ?_⟩
  have hmark : e.pos ≠ { nFile := 1, nBlockPos := 1, nTxPos := 1 } := by
    intro hpos
    have hbehind := htx.behind
    rw [hpos] at hbehind
    exact absurd hbehind (by decide)
  rw [ConnectEnv.fetchPrevTx, hpool]
  dsimp only
  rw [if_neg hmark, henv, hread]

section Witness

/-- A block of one transaction. -/
def loneBlock : CBlock := { payingBlock with hashMerkleRoot := 1, vtx := payingBlock.vtx.take 1 }

def mainFileEnv : BlockFileEnv where
  params := .mainParams
  messageStart := [0x14, 0xe5, 0xa2, 0xd3]
  length_messageStart := rfl
  blockHash _ := 1

/-- A node with nothing yet. -/
def emptyChain : ChainDisk where
  files := { files := fun _ => none, nCurrentBlockFile := 1 }
  stored := []
  store := { fundedStore with txIndex := fun _ => none, diskTxIndex := fun _ => none }

/-- The files after a write that failed. -/
def failedFiles : BlockFiles := (emptyChain.files.writeToDisk mainFileEnv (some 5) loneBlock).2

def storedChain : ChainDisk :=
  { emptyChain with
    files := (failedFiles.writeToDisk mainFileEnv none loneBlock).2
    stored := [⟨1, 13, loneBlock⟩] }

def storedEnv : ConnectEnv (ZMod (2 ^ 256 + 297)) := { fundedEnv with readTx := storedChain.files.readTx }

theorem emptyChain_isFresh : emptyChain.IsFresh := ⟨rfl, fun _ => rfl, fun _ => rfl⟩

theorem emptyChain_runs :
    Relation.ReflTransGen (Step (ZMod (2 ^ 256 + 297)) mainFileEnv storedEnv.txHash) emptyChain storedChain := by
  have hint : loneBlock.IntFields := by
    refine ⟨⟨by decide, by decide⟩, fun tx htx => ?_⟩
    rw [List.mem_singleton.1 htx]
    exact ⟨by decide, by decide⟩
  have hfailed : emptyChain.files.writeToDisk mainFileEnv (some 5) loneBlock = (none, failedFiles) :=
    Prod.ext (by decide +kernel) rfl
  have hstored : failedFiles.writeToDisk mainFileEnv none loneBlock = (some (1, 13), storedChain.files) :=
    Prod.ext (by decide +kernel) rfl
  have hstep : Step (ZMod (2 ^ 256 + 297)) mainFileEnv storedEnv.txHash { emptyChain with files := failedFiles }
      { emptyChain with
        files := storedChain.files
        stored := ((some (1, 13)).map fun p => ⟨p.1, p.2, loneBlock⟩).toList ++ emptyChain.stored } :=
    .write hint (by decide) hstored
  exact (Relation.ReflTransGen.single (.write hint (by decide) hfailed)).tail hstep

theorem stored_readsBack_loneBlock :
    (⟨1, 13, loneBlock⟩ : StoredBlock).ReadsBack mainFileEnv storedChain.files :=
  (stored_readsBack emptyChain_isFresh emptyChain_runs).1 _ List.mem_cons_self

theorem fetchPrevTx_finds_loneBlock :
    ∃ chain, Relation.ReflTransGen (Step (ZMod (2 ^ 256 + 297)) mainFileEnv storedEnv.txHash) emptyChain chain ∧
      ∃ e, chain.store.txIndex 1 = some e ∧ ∃ tx, chain.files.readTx e.pos = some tx ∧ storedEnv.txHash tx = 1 := by
  have hconnected : ((storedEnv.connectBlock storedChain.store { nHeight := 2, nFile := 1, nBlockPos := 13 }
      [{ nHeight := 1 }] false loneBlock).any fun store => (store.txIndex 1).isSome) = true := by decide +kernel
  obtain ⟨store, hstore, hindexed⟩ := (Option.any_eq_true _ _).1 hconnected
  obtain ⟨e, he⟩ := Option.isSome_iff_exists.1 hindexed
  have hrun := emptyChain_runs.tail (.connect rfl rfl List.mem_cons_self rfl rfl hstore)
  obtain ⟨tx, _, hread, hhash, _⟩ := fetchPrevTx_finds emptyChain_isFresh hrun (Or.inl he)
  exact ⟨_, hrun, e, he, tx, hread, hhash⟩

end Witness

end ChainDisk

end ProCurrency

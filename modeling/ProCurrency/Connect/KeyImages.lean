import Mathlib.Data.BitVec
import ProCurrency.Connect.Minting
import ProCurrency.Lib.OwnerIndex

/-!
# Key images on the main chain

`CheckAnonInputs` looks a key image up in the store, and the store learns of it from the wallets, after the whole
block is checked and only when they process the transaction. Where they do, no key image is consumed twice.
-/

namespace ProCurrency

open TagRegistry

/-- The key images that a transaction consumes. -/
def CTransaction.keyImages (tx : CTransaction) : List Bytes :=
  if tx.nVersion == ANON_TXN_VERSION then anonImages tx.vin else []

/-- The hash under which the store has a key image. -/
def ConnectStore.spentBy (s : ConnectStore) (vchImage : Bytes) : Option UInt256 :=
  (s.keyImages vchImage).map CKeyImageSpent.txnHash

namespace ConnectEnv

variable {G : Type}

/-- The key images that a block consumes, each with the hash of its transaction. -/
def consumed (env : ConnectEnv G) (vtx : List CTransaction) : List (Bytes × UInt256) :=
  vtx.flatMap fun tx => tx.keyImages.map fun vchImage => (vchImage, env.txHash tx)

theorem mem_consumed {env : ConnectEnv G} {vtx : List CTransaction} {p : Bytes × UInt256} :
    p ∈ env.consumed vtx ↔ ∃ tx ∈ vtx, p.1 ∈ tx.keyImages ∧ env.txHash tx = p.2 := by
  rw [consumed, List.mem_flatMap]
  constructor
  · rintro ⟨tx, htx, hp⟩
    obtain ⟨vchImage, hmem, rfl⟩ := List.mem_map.1 hp
    exact ⟨tx, htx, hmem, rfl⟩
  · rintro ⟨tx, htx, hmem, hhash⟩
    exact ⟨tx, htx, List.mem_map.2 ⟨p.1, hmem, by rw [hhash]⟩⟩

variable [AddCommGroup G]

/-! ## Recording -/

/-- The wallet processes the transaction, and its handle commits. -/
def walletRecords (env : ConnectEnv G) (wallet : Wallet) (s : ConnectStore) (tx : CTransaction)
    (blockHash : UInt256) : Bool :=
  !(tx.isCoinBase || tx.isCoinStake) && (env.processAnonTransaction wallet s tx blockHash).1 && wallet.commits tx

/-- One of the wallets records the transaction. -/
def recordsTx (env : ConnectEnv G) (tx : CTransaction) (blockHash : UInt256) (s : ConnectStore) :
    List Wallet → Bool
  | [] => false
  | wallet :: wallets =>
      env.walletRecords wallet s tx blockHash ||
        recordsTx env tx blockHash (env.addToWalletIfInvolvingMe wallet s tx blockHash) wallets

/-- Each transaction that consumes key images is recorded. -/
def recordsBlock (env : ConnectEnv G) (blockHash : UInt256) (s : ConnectStore) : List CTransaction → Bool
  | [] => true
  | tx :: vtx =>
      (tx.keyImages.isEmpty || env.recordsTx tx blockHash s env.wallets) &&
        recordsBlock env blockHash (env.syncWithWallets s tx blockHash) vtx

variable {env : ConnectEnv G} {s : ConnectStore} {tx : CTransaction} {vtx : List CTransaction}
  {blockHash : UInt256}

theorem keyImages_subset (tx : CTransaction) : tx.keyImages ⊆ anonImages tx.vin := by
  rw [CTransaction.keyImages]
  split_ifs
  · exact List.Subset.refl _
  · exact List.nil_subset _

theorem version_of_mem_keyImages {vchImage : Bytes} (h : vchImage ∈ tx.keyImages) :
    tx.nVersion = ANON_TXN_VERSION := by
  rw [CTransaction.keyImages] at h
  split_ifs at h with hversion
  · exact beq_iff_eq.1 hversion
  · cases h

theorem walletRecords_spec {wallet : Wallet} (hversion : tx.nVersion = ANON_TXN_VERSION)
    (hblock : blockHash ≠ 0) (h : env.walletRecords wallet s tx blockHash = true) :
    RecordedAs (env.txHash tx) (anonImages tx.vin) (env.addToWalletIfInvolvingMe wallet s tx blockHash) := by
  rw [walletRecords, Bool.and_eq_true, Bool.and_eq_true, Bool.not_eq_true'] at h
  obtain ⟨⟨htype, hproc⟩, hcommit⟩ := h
  rw [addToWalletIfInvolvingMe, htype, hversion]
  rcases hresult : env.processAnonTransaction wallet s tx blockHash with ⟨fOk, s'⟩
  rw [hresult] at hproc
  cases hproc
  simp only [hcommit]
  exact (processAnonTransaction_spec hresult).2 rfl hblock

theorem recordsTx_spec {wallets : List Wallet} (hversion : tx.nVersion = ANON_TXN_VERSION)
    (hblock : blockHash ≠ 0) (h : env.recordsTx tx blockHash s wallets = true) :
    RecordedAs (env.txHash tx) (anonImages tx.vin) (env.syncWallets tx blockHash s wallets) := by
  induction wallets generalizing s with
  | nil => cases h
  | cons wallet wallets ih =>
      rw [recordsTx, Bool.or_eq_true] at h
      rw [syncWallets]
      rcases h with h | h
      · exact (walletRecords_spec hversion hblock h).anonWrites (syncWallets_spec env _ tx blockHash wallets).1
      · exact ih h

/-- What a wallet records is neither a coinbase nor a coinstake. -/
theorem recordsTx_plain {wallets : List Wallet} (h : env.recordsTx tx blockHash s wallets = true) :
    tx.isCoinBase = false := by
  induction wallets generalizing s with
  | nil => cases h
  | cons wallet wallets ih =>
      rw [recordsTx, Bool.or_eq_true] at h
      rcases h with h | h
      · rw [walletRecords, Bool.and_eq_true, Bool.and_eq_true, Bool.not_eq_true', Bool.or_eq_false_iff] at h
        exact h.1.1.1
      · exact ih h

theorem recordsBlock_plain (h : env.recordsBlock blockHash s vtx = true) :
    ∀ tx ∈ vtx, tx.keyImages ≠ [] → tx.isCoinBase = false := by
  induction vtx generalizing s with
  | nil =>
      intro tx htx
      cases htx
  | cons first vtx ih =>
      rw [recordsBlock, Bool.and_eq_true] at h
      intro tx htx hne
      rcases List.mem_cons.1 htx with rfl | htx
      · rcases Bool.or_eq_true_iff.1 h.1 with hempty | hrec
        · exact absurd (List.isEmpty_iff.1 hempty) hne
        · exact recordsTx_plain hrec
      · exact ih h.2 tx htx hne

/-- The wallets leave the key images of other transactions. -/
theorem syncWithWallets_frame {vchImage : Bytes} (h : vchImage ∉ tx.keyImages) :
    (env.syncWithWallets s tx blockHash).keyImages vchImage = s.keyImages vchImage := by
  obtain ⟨hwrites, hsame⟩ := syncWallets_spec env s tx blockHash env.wallets
  rcases Decidable.em (tx.nVersion = ANON_TXN_VERSION) with hversion | hversion
  · rw [CTransaction.keyImages, if_pos (beq_iff_eq.2 hversion)] at h
    exact (hwrites.keyImages vchImage).resolve_right fun hmem => h hmem.1
  · rw [syncWithWallets, hsame hversion]

theorem syncBlock_frame {vchImage : Bytes} (h : ∀ tx ∈ vtx, vchImage ∉ tx.keyImages) :
    (env.syncBlock blockHash s vtx).keyImages vchImage = s.keyImages vchImage := by
  induction vtx generalizing s with
  | nil => rfl
  | cons tx vtx ih =>
      rw [syncBlock, ih fun tx htx => h tx (List.mem_cons_of_mem _ htx)]
      exact syncWithWallets_frame (h tx List.mem_cons_self)

/-- Where each transaction is recorded, the store has each key image of the block under its transaction. -/
theorem syncBlock_recorded (hblock : blockHash ≠ 0) (hnodup : (vtx.flatMap CTransaction.keyImages).Nodup)
    (h : env.recordsBlock blockHash s vtx = true) :
    ∀ tx ∈ vtx, ∀ vchImage ∈ tx.keyImages,
      (env.syncBlock blockHash s vtx).spentBy vchImage = some (env.txHash tx) := by
  induction vtx generalizing s with
  | nil =>
      intro tx htx
      cases htx
  | cons first vtx ih =>
      rw [recordsBlock, Bool.and_eq_true] at h
      rw [List.flatMap_cons, List.nodup_append] at hnodup
      intro tx htx vchImage hmem
      rw [syncBlock]
      rcases List.mem_cons.1 htx with rfl | htx
      · have hlater : ∀ later ∈ vtx, vchImage ∉ later.keyImages := by
          intro later hlater hmem'
          exact hnodup.2.2 vchImage hmem vchImage (List.mem_flatMap.2 ⟨later, hlater, hmem'⟩) rfl
        have hrec : env.recordsTx tx blockHash s env.wallets = true := by
          rcases Bool.or_eq_true_iff.1 h.1 with hempty | hrec
          · rw [List.isEmpty_iff] at hempty
            rw [hempty] at hmem
            cases hmem
          · exact hrec
        have hfirst := recordsTx_spec (version_of_mem_keyImages hmem) hblock hrec
        obtain ⟨ki, hki, hhash⟩ := hfirst vchImage (keyImages_subset tx hmem)
        rw [ConnectStore.spentBy, syncBlock_frame hlater, syncWithWallets, hki, Option.map_some, hhash]
      · exact ih hnodup.2.1 h.2 tx htx vchImage hmem

/-! ## The check -/

theorem checkAnonInputsFrom_spendable {preimage txnHash : UInt256} {n r : Int64} {vin : List CTxIn}
    (h : env.checkAnonInputsFrom s true preimage txnHash n vin = (true, r)) :
    ∀ vchImage ∈ anonImages vin, env.keyImageSpendable s true txnHash vchImage = true := by
  induction vin generalizing n with
  | nil =>
      intro vchImage hmem
      cases hmem
  | cons txin vin ih =>
      rw [checkAnonInputsFrom] at h
      rcases hanon : txin.isAnonInput with _ | _
      · rw [anonImages_cons_of_neg (by rw [hanon]; exact Bool.false_ne_true)]
        simp only [hanon, Bool.not_false, if_true] at h
        exact ih h
      · rw [anonImages_cons_of_pos hanon]
        simp only [hanon, Bool.not_true, Bool.false_eq_true, if_false] at h
        cases hin : env.checkAnonInput s true preimage txnHash txin with
        | none => simp [hin] at h
        | some nCoinValue =>
            rw [hin] at h
            intro vchImage hmem
            rcases List.mem_cons.1 hmem with rfl | hmem
            · exact (checkAnonInput_spec hin).1
            · exact ih h vchImage hmem

/-- A transaction that is connected, and is no coinbase, has had its key images checked. -/
theorem connectTx_spendable {pindex : CBlockIndex} {pprev : List CBlockIndex} {fJustCheck : Bool}
    {t t' : BlockTotals} (hcb : tx.isCoinBase = false)
    (h : env.connectTx s pindex pprev fJustCheck t tx = some t') :
    ∀ vchImage ∈ tx.keyImages, env.keyImageSpendable s true (env.txHash tx) vchImage = true := by
  intro vchImage hmem
  obtain ⟨inputs, v, _, _, _, _, hval, _⟩ := connectTx_spec hcb h
  have hversion := version_of_mem_keyImages hmem
  rw [txValueIn] at hval
  cases hcoins : tx.getValueIn inputs with
  | none => simp [hcoins] at hval
  | some nTxValueIn =>
      simp only [hcoins, hversion, beq_self_eq_true, if_true] at hval
      rw [checkAnonInputs] at hval
      cases hpre : env.getTxnPreImage tx with
      | none => simp [hpre] at hval
      | some preimage =>
          rw [hpre] at hval
          rcases hcheck : env.checkAnonInputsFrom s true preimage (env.txHash tx) 0 tx.vin with ⟨_ | _, r⟩
          · simp [hcheck] at hval
          · exact checkAnonInputsFrom_spendable hcheck vchImage (keyImages_subset tx hmem)

theorem connectTxs_spendable {pindex : CBlockIndex} {pprev : List CBlockIndex} {fJustCheck : Bool}
    {t t' : BlockTotals} (h : env.connectTxs s pindex pprev fJustCheck t vtx = some t') :
    ∀ tx ∈ vtx, tx.isCoinBase = false → ∀ vchImage ∈ tx.keyImages,
      env.keyImageSpendable s true (env.txHash tx) vchImage = true := by
  induction vtx generalizing t with
  | nil =>
      intro tx htx
      cases htx
  | cons first vtx ih =>
      obtain ⟨t₁, hstep, hrest⟩ := connectTxs_cons h
      intro tx htx hcb
      rcases List.mem_cons.1 htx with rfl | htx
      · exact connectTx_spendable hcb hstep
      · exact ih hrest tx htx hcb

/-- The store that the wallets see when the block is handed to them. -/
def indexed (env : ConnectEnv G) (s : ConnectStore) (pindex : CBlockIndex) (pprev : List CBlockIndex)
    (block : CBlock) : ConnectStore :=
  match env.connectTxs s pindex pprev false (.start pindex false block.vtx.length) block.vtx with
  | none => s
  | some t => updateTxIndex s t.mapQueuedChanges

end ConnectEnv

/-! ## Runs -/

/-- A node with the key images that the transactions of its main chain have consumed, each with the hash of its
transaction, and with those that were consumed when the handle last committed. -/
structure MainChain where
  store : ConnectStore
  spent : List (Bytes × UInt256)
  committed : List (Bytes × UInt256)

/-- What can happen on the way of `SetBestChain`. -/
inductive MainChainEvent (G : Type) where
  /-- `ConnectBlock`, with the wallets behind it. -/
  | connect (env : ConnectEnv G) (pindex : CBlockIndex) (pprev : List CBlockIndex) (block : CBlock)
  | disconnect (env : ConnectEnv G) (block : CBlock)
  | txnCommit
  | txnAbort
  /-- The memory pool changes, and the wallets store ring coins for its transactions. -/
  | mempool (anonOutputs : Bytes → Option CAnonOutput) (mapKeyImage : Bytes → Option CKeyImageSpent)

namespace MainChain

variable {G : Type} [AddCommGroup G]

def start (store : ConnectStore) : MainChain where
  store := store
  spent := []
  committed := []

def step (chain : MainChain) : MainChainEvent G → MainChain
  | .connect env pindex pprev block =>
      match env.connectBlock chain.store pindex pprev false block with
      | none => chain
      | some store => { chain with store, spent := chain.spent ++ env.consumed block.vtx }
  | .disconnect env block =>
      match env.disconnectBlock chain.store block with
      | (false, store) => { chain with store }
      | (true, store) =>
          { chain with store, spent := chain.spent.filter fun p => p.2 ∉ block.vtx.map env.txHash }
  | .txnCommit =>
      { chain with
        store := { chain.store with diskTxIndex := chain.store.txIndex }, committed := chain.spent }
  | .txnAbort =>
      { chain with
        store := { chain.store with txIndex := chain.store.diskTxIndex }, spent := chain.committed }
  | .mempool anonOutputs mapKeyImage => { chain with store := { chain.store with anonOutputs, mapKeyImage } }

def run (chain : MainChain) (events : List (MainChainEvent G)) : MainChain := events.foldl step chain

/-- When the key images of a block are safe to connect. -/
structure Records (chain : MainChain) (env : ConnectEnv G) (pindex : CBlockIndex) (pprev : List CBlockIndex)
    (block : CBlock) : Prop where
  /-- No two inputs of the block have one key image. -/
  distinct : ((env.consumed block.vtx).map Prod.fst).Nodup
  /-- A transaction that has consumed key images is not connected again. -/
  new : ∀ p ∈ env.consumed block.vtx, ∀ q ∈ chain.spent, p.2 ≠ q.2
  /-- The transaction that has consumed a key image of the block is still found. -/
  known : ∀ p ∈ env.consumed block.vtx, ∀ q ∈ chain.spent, p.1 = q.1 →
    env.txnHashInSystem chain.store.txIndex q.2 = true
  /-- The hash of the block does not stand for no block. -/
  blockHash : env.blockHash block ≠ 0
  /-- The wallets record each transaction of the block that consumes key images. -/
  recorded : env.recordsBlock (env.blockHash block) (env.indexed chain.store pindex pprev block) block.vtx = true

/-- When an event is safe: a block that is accepted, and an abort that brings back what is still recorded. -/
def RecordsAt (chain : MainChain) : MainChainEvent G → Prop
  | .connect env pindex pprev block =>
      (env.connectBlock chain.store pindex pprev false block).isSome = true → chain.Records env pindex pprev block
  | .txnAbort => ∀ p ∈ chain.committed, chain.store.spentBy p.1 = some p.2
  | _ => True

/-- Each event of a run is safe when it happens. -/
def RecordsThroughout (chain : MainChain) : List (MainChainEvent G) → Prop
  | [] => True
  | event :: events => chain.RecordsAt event ∧ RecordsThroughout (chain.step event) events

/-- The store has each key image under the transaction that has consumed it. -/
structure Invariant (chain : MainChain) : Prop where
  consistent : Consistent chain.store.spentBy chain.spent
  committed : (chain.committed.map Prod.fst).Nodup

theorem Invariant.start (store : ConnectStore) : (MainChain.start store).Invariant where
  consistent := .nil _
  committed := List.nodup_nil

variable {chain : MainChain} {env : ConnectEnv G} {pindex : CBlockIndex} {pprev : List CBlockIndex}
  {block : CBlock} {s' : ConnectStore}

omit [AddCommGroup G] in
theorem fst_consumed (env : ConnectEnv G) (vtx : List CTransaction) :
    (env.consumed vtx).map Prod.fst = vtx.flatMap CTransaction.keyImages := by
  rw [ConnectEnv.consumed, List.map_flatMap]
  congr 1
  funext tx
  rw [List.map_map]
  exact List.map_id _

theorem Invariant.connect (hinv : chain.Invariant) (hrec : chain.Records env pindex pprev block)
    (h : env.connectBlock chain.store pindex pprev false block = some s') :
    Consistent s'.spentBy (chain.spent ++ env.consumed block.vtx) := by
  obtain ⟨_, t, htxs, _, rfl⟩ := ConnectEnv.connectBlock_spec h
  have hindexed : env.indexed chain.store pindex pprev block =
      ConnectEnv.updateTxIndex chain.store t.mapQueuedChanges := by
    rw [ConnectEnv.indexed, htxs]
  have hrecorded := hrec.recorded
  have hdistinct := hrec.distinct
  rw [hindexed] at hrecorded
  rw [fst_consumed] at hdistinct
  refine hinv.consistent.append hrec.distinct ?_ ?_ ?_
  · intro p hp o ho hmem
    obtain ⟨tx, htx, himage, hhash⟩ := ConnectEnv.mem_consumed.1 hp
    have hcb := ConnectEnv.recordsBlock_plain hrecorded tx htx (List.ne_nil_of_mem himage)
    have hspendable := ConnectEnv.connectTxs_spendable htxs tx htx hcb p.1 himage
    rw [ConnectStore.spentBy] at ho
    cases hki : chain.store.keyImages p.1 with
    | none =>
        rw [hki] at ho
        cases ho
    | some ki =>
        rw [hki] at ho
        obtain rfl : ki.txnHash = o := Option.some.inj ho
        have hsystem := hrec.known p hp _ hmem rfl
        have hother : ki.txnHash ≠ env.txHash tx := by
          rw [hhash]
          exact (hrec.new p hp _ hmem).symm
        simp [ConnectEnv.keyImageSpendable, ConnectStore.getKeyImage, hki, hother, hsystem] at hspendable
  · intro p hp
    obtain ⟨tx, htx, himage, hhash⟩ := ConnectEnv.mem_consumed.1 hp
    rw [← hhash]
    exact ConnectEnv.syncBlock_recorded hrec.blockHash hdistinct hrecorded tx htx p.1 himage
  · intro vchImage hnot
    rw [fst_consumed] at hnot
    have hframe : ∀ tx ∈ block.vtx, vchImage ∉ tx.keyImages := fun tx htx hmem =>
      hnot (List.mem_flatMap.2 ⟨tx, htx, hmem⟩)
    rw [ConnectStore.spentBy, if_neg Bool.false_ne_true, ConnectEnv.syncBlock_frame hframe]
    rfl

omit [AddCommGroup G] in
/-- The wallets erase no key image of another transaction. -/
theorem undoBlock_frame {vtx : List CTransaction} {vchImage : Bytes} {hash : UInt256} {s : ConnectStore}
    (hs : s.spentBy vchImage = some hash) (hhash : hash ∉ vtx.map env.txHash) :
    (vtx.foldl env.undoTx s).spentBy vchImage = some hash := by
  induction vtx generalizing s with
  | nil => exact hs
  | cons tx vtx ih =>
      rw [List.map_cons, List.mem_cons, not_or] at hhash
      rw [List.foldl_cons]
      refine ih ?_ hhash.2
      rw [ConnectStore.spentBy] at hs ⊢
      rcases (ConnectEnv.undoTx_spec env s tx).keyImages vchImage with heq | ⟨_, ki, hki, hsame⟩
      · rw [heq]
        exact hs
      · rw [hki, Option.map_some, Option.some.injEq] at hs
        exact absurd (hs.symm.trans hsame) hhash.1

theorem Invariant.disconnect (hinv : chain.Invariant) : (chain.step (.disconnect env block)).Invariant := by
  rw [MainChain.step, ConnectEnv.disconnectBlock]
  rcases hundo : env.disconnectTxs chain.store block.vtx.reverse with ⟨fOk, s₁⟩
  have hkeep : s₁.spentBy = chain.store.spentBy := by
    funext vchImage
    rw [ConnectEnv.disconnectTxs_frame hundo]
    rfl
  cases fOk with
  | false => exact ⟨hkeep.symm ▸ hinv.consistent, hinv.committed⟩
  | true =>
      have hrest : Consistent chain.store.spentBy _ :=
        hinv.consistent.of_sublist (List.filter_sublist (p := fun p => p.2 ∉ block.vtx.map env.txHash))
      refine ⟨⟨hrest.nodup, fun p hp => undoBlock_frame ?_ (of_decide_eq_true (List.mem_filter.1 hp).2)⟩,
        hinv.committed⟩
      rw [hkeep]
      exact hrest.recorded p hp

theorem Invariant.step {event : MainChainEvent G} (hinv : chain.Invariant) (hrec : chain.RecordsAt event) :
    (chain.step event).Invariant := by
  cases event with
  | connect env pindex pprev block =>
      rw [MainChain.step]
      rw [RecordsAt] at hrec
      cases hconnect : env.connectBlock chain.store pindex pprev false block with
      | none => exact hinv
      | some store => exact ⟨hinv.connect (hrec (by rw [hconnect]; rfl)) hconnect, hinv.committed⟩
  | disconnect env block => exact hinv.disconnect
  | txnCommit => exact ⟨hinv.consistent, hinv.consistent.nodup⟩
  | txnAbort => exact ⟨⟨hinv.committed, hrec⟩, hinv.committed⟩
  | mempool anonOutputs mapKeyImage => exact ⟨hinv.consistent, hinv.committed⟩

theorem Invariant.run {events : List (MainChainEvent G)} (hinv : chain.Invariant)
    (hrec : chain.RecordsThroughout events) : (chain.run events).Invariant := by
  induction events generalizing chain with
  | nil => exact hinv
  | cons event events ih => exact ih (hinv.step hrec.1) hrec.2

end MainChain

/-! ## Two inputs of one block -/

/-- The script of a ring of one. -/
def ringScript : CScript :=
  [OP_RETURN, OP_ANON_MARKER] ++ (2 :: List.replicate 31 0 ++ [5]) ++ List.replicate 32 0 ++
    (List.replicate 31 0 ++ [1])

/-- A transaction that moves a ring coin to an open output. -/
def ringTx (nLockTime : UInt32) : CTransaction where
  nVersion := ANON_TXN_VERSION
  nTime := 1000
  vin := [{ prevout := { hash := 2, n := 65543 }, scriptSig := ringScript, nSequence := 0 }]
  vout := [{ nValue := 499990000, scriptPubKey := [OP_1] }]
  nLockTime := nLockTime

/-- A node whose wallet records each ring transaction. -/
def ringEnv : ConnectEnv (ZMod (2 ^ 256 + 297)) :=
  { fundedEnv with
    nBestHeight := 30001
    pindexBest := { nHeight := 30001 }
    ring := { firstBytesEnv with hash := fun _ => 0 }
    wallets := [{ spendsOwned := fun _ _ => true, commits := fun _ => true }] }

/-- The store with the ring coin that `ringTx` moves. -/
def ringStore : ConnectStore :=
  let pk := 2 :: List.replicate 31 0 ++ [5]
  let ao := { outpoint := { hash := 7, n := 0 }, nValue := 500000000, nBlockHeight := 1, nCompromised := 0 }
  { fundedStore with anonOutputs := fun vchPubKey => if vchPubKey = pk then some ao else none }

def ringBlock (ringTxs : List CTransaction) : CBlock :=
  let vtx := payingBlock.vtx.take 1 ++ ringTxs
  { payingBlock with hashMerkleRoot := buildMerkleTree ringEnv.merkleHash (vtx.map ringEnv.txHash), vtx := vtx }

def ringConnect (ringTxs : List CTransaction) : MainChainEvent (ZMod (2 ^ 256 + 297)) :=
  .connect ringEnv { nHeight := 30002, nFile := 1, nBlockPos := 2000 } [{ nHeight := 30001 }] (ringBlock ringTxs)

end ProCurrency

import Mathlib.Data.BitVec
import ProCurrency.Pool.Lemmas.Index
import ProCurrency.Thin.MerkleBlock

/-!
# The matches of a merkle block

Which transactions of a verified merkle block reach the wallets with its hash: those that are in the memory pool, and
those that come as `tx` messages afterwards.
-/

namespace ProCurrency

namespace MerkleNode

variable {W : Type}

/-! ## Runs -/

/-- The `tx` messages that come, in their order. -/
def receiveTxs (env : MerkleEnv) (st : MerkleNode W) (txs : List CTransaction) : MerkleNode W :=
  txs.foldl (fun st tx => st.receiveTx env tx) st

/-- How often a transaction has been handed over as one of a block. -/
def timesHanded (handed : List Handed) (hashBlock hash : UInt256) : Nat :=
  handed.countP fun h => h.hash = hash ∧ h.hashBlock = some hashBlock

/-- What has been handed over since there were `n` calls. -/
def handedSince (st : MerkleNode W) (n : Nat) : List Handed := st.wallet.handed.drop n

/-- A verified block delivers its matches: those of the pool at once, the others as they come; `st` is the node when the
header has been found. -/
structure Delivers (env : MerkleEnv) (st : MerkleNode W) (merkleBlock : CMerkleBlockIncoming) (vMatch : List UInt256)
    (st' : MerkleNode W) (txs : List CTransaction) : Prop where
  /-- What is in the pool is handed over and leaves it. -/
  pool : ∀ hash ∈ vMatch, ∀ tx, st.mempool.lookup hash = some tx →
    ⟨tx, hash, some merkleBlock.header.hash⟩ ∈ st'.handedSince st.wallet.handed.length ∧
      st'.mempool.lookup hash = none
  /-- As long as the block waits, it counts the matches that have been handed over. -/
  counts : ∀ it ∈ (st'.receiveTxs env txs).vIncomingMerkleBlocks, (∃ hash ∈ vMatch, hash ∈ it.vMatch) →
    it.nProcessed = vMatch.countP fun hash =>
      0 < timesHanded ((st'.receiveTxs env txs).handedSince st.wallet.handed.length) merkleBlock.header.hash hash
  /-- When all others have come, the block waits no more, and each match has been handed over once. -/
  arrives : (∀ hash ∈ vMatch, st.mempool.lookup hash = none → hash ∈ txs.map env.txHash) →
    (∀ it ∈ (st'.receiveTxs env txs).vIncomingMerkleBlocks, ∀ hash ∈ vMatch, hash ∉ it.vMatch) ∧
      ∀ hash ∈ vMatch, timesHanded ((st'.receiveTxs env txs).handedSince st.wallet.handed.length)
        merkleBlock.header.hash hash = 1

/-- No match comes again before all have come. -/
def NoRepeats (vMatch : List UInt256) : List UInt256 → List UInt256 → Prop
  | _, [] => True
  | remaining, hash :: hashes =>
      remaining = [] ∨ (hash ∈ vMatch → hash ∈ remaining) ∧ NoRepeats vMatch (remaining.erase hash) hashes

/-- The matches that are not in the pool. -/
def notInPool (st : MerkleNode W) (vMatch : List UInt256) : List UInt256 :=
  vMatch.filter fun hash => (st.mempool.lookup hash).isNone

/-- The block waits for its own matches, one at most is in the pool, and none comes twice. -/
structure Regular (env : MerkleEnv) (st : MerkleNode W) (vMatch : List UInt256) (txs : List CTransaction) : Prop where
  nodup : vMatch.Nodup
  apart : ∀ it ∈ st.vIncomingMerkleBlocks, ∀ hash ∈ vMatch, hash ∉ it.vMatch
  single : vMatch.length ≤ (st.notInPool vMatch).length + 1
  noRepeats : NoRepeats vMatch (st.notInPool vMatch) (txs.map env.txHash)

/-! ## The pool -/

variable {env : MerkleEnv} {st : MerkleNode W} {hashBlock hash : UInt256} {vMatch : List UInt256}

theorem lookup_eq_none_of_mapTx {pool : CTxMemPool} (h : pool.mapTx hash = none) : pool.lookup hash = none := by
  rw [CTxMemPool.lookup, h]
  rfl

theorem removeTx_lookup (st : MerkleNode W) (tx : CTransaction) :
    (st.removeTx env tx).mempool.lookup (env.txHash tx) = none := by
  refine lookup_eq_none_of_mapTx ?_
  rw [removeTx, CTxMemPool.remove]
  dsimp only
  by_cases hhas : st.mempool.hasTx (env.txHash tx) = true
  · rw [hhas]
    change Function.update st.mempool.mapTx (env.txHash tx) none (env.txHash tx) = none
    rw [Function.update_self]
  · rw [Bool.not_eq_true] at hhas
    rw [hhas]
    rw [CTxMemPool.hasTx, Option.isSome_eq_false_iff, Option.isNone_iff_eq_none] at hhas
    exact hhas

/-- Either none of the matches is in the pool, or the first that is gets handed over and removed. -/
theorem takeFromPool_cases (st : MerkleNode W) (hashBlock : UInt256) (vMatch : List UInt256) :
    st.takeFromPool env hashBlock vMatch = (0, st) ∧ (∀ hash ∈ vMatch, st.mempool.lookup hash = none) ∨
      ∃ hash ∈ vMatch, ∃ txMp, st.mempool.lookup hash = some txMp ∧
        st.takeFromPool env hashBlock vMatch = (1, (st.handTx ⟨txMp, hash, some hashBlock⟩).removeTx env txMp) := by
  induction vMatch with
  | nil => exact Or.inl ⟨rfl, List.forall_mem_nil _⟩
  | cons hash vMatch ih =>
      rw [takeFromPool]
      cases hlookup : st.mempool.lookup hash with
      | some txMp => exact Or.inr ⟨hash, List.mem_cons_self, txMp, hlookup, rfl⟩
      | none =>
          rcases ih with ⟨htake, hnone⟩ | ⟨hash', hmem, txMp, hsome, htake⟩
          · exact Or.inl ⟨htake, List.forall_mem_cons.2 ⟨hlookup, hnone⟩⟩
          · exact Or.inr ⟨hash', List.mem_cons_of_mem _ hmem, txMp, hsome, htake⟩

/-! ## The blocks that wait -/

/-- The blocks of which no match is one of `vMatch`. -/
def Apart (vMatch : List UInt256) (blocks : List CMerkleBlockIncoming) : Prop :=
  ∀ it ∈ blocks, ∀ hash ∈ vMatch, hash ∉ it.vMatch

theorem matchIncoming_apart {blocks blocks' : List CMerkleBlockIncoming} {txHash blockhash : UInt256}
    (hapart : Apart vMatch blocks) (h : matchIncoming txHash blocks = some (blockhash, blocks')) :
    txHash ∉ vMatch ∧ Apart vMatch blocks' := by
  induction blocks generalizing blocks' with
  | nil => cases h
  | cons it rest ih =>
      obtain ⟨hit, hrest⟩ := List.forall_mem_cons.1 hapart
      rw [matchIncoming] at h
      split_ifs at h with hmem
      · have hnot : txHash ∉ vMatch := fun hmatch => hit txHash hmatch hmem
        cases h
        split_ifs
        · exact ⟨hnot, hrest⟩
        · exact ⟨hnot, List.forall_mem_cons.2 ⟨hit, hrest⟩⟩
      · obtain ⟨⟨blockhash', rest'⟩, hfound, hpair⟩ := Option.map_eq_some_iff.1 h
        cases hpair
        obtain ⟨hnot, hrest'⟩ := ih hrest hfound
        exact ⟨hnot, List.forall_mem_cons.2 ⟨hit, hrest'⟩⟩

theorem matchIncoming_append_none {blocks : List CMerkleBlockIncoming} {txHash : UInt256}
    (h : matchIncoming txHash blocks = none) (blocks' : List CMerkleBlockIncoming) :
    matchIncoming txHash (blocks ++ blocks') = (matchIncoming txHash blocks').map fun r => (r.1, blocks ++ r.2) := by
  induction blocks with
  | nil => simp
  | cons it rest ih =>
      rw [matchIncoming] at h
      split_ifs at h with hmem
      rw [List.cons_append, matchIncoming, if_neg hmem, ih (Option.map_eq_none_iff.1 h), Option.map_map]
      rfl

theorem matchIncoming_append_some {blocks found : List CMerkleBlockIncoming} {txHash blockhash : UInt256}
    (h : matchIncoming txHash blocks = some (blockhash, found)) (blocks' : List CMerkleBlockIncoming) :
    matchIncoming txHash (blocks ++ blocks') = some (blockhash, found ++ blocks') := by
  induction blocks generalizing found with
  | nil => cases h
  | cons it rest ih =>
      rw [matchIncoming] at h
      rw [List.cons_append, matchIncoming]
      split_ifs at h ⊢ with hmem
      · cases h
        dsimp only
        split_ifs <;> rfl
      · obtain ⟨⟨blockhash', rest'⟩, hfound, hpair⟩ := Option.map_eq_some_iff.1 h
        cases hpair
        rw [ih hfound]
        rfl

theorem matchIncoming_eq_none {blocks : List CMerkleBlockIncoming} {txHash : UInt256} (hapart : Apart vMatch blocks)
    (hmem : txHash ∈ vMatch) : matchIncoming txHash blocks = none := by
  cases h : matchIncoming txHash blocks with
  | none => rfl
  | some r => exact absurd hmem (matchIncoming_apart hapart h).1

/-! ## What is tracked -/

/-- The block waits at the end for the matches that remain, and the others have been handed over once. -/
structure Tracks (env : MerkleEnv) (merkleBlock : CMerkleBlockIncoming) (vMatch : List UInt256) (n : Nat)
    (remaining : List UInt256) (st : MerkleNode W) : Prop where
  waits : ∃ others, Apart vMatch others ∧
    st.vIncomingMerkleBlocks = others ++ (if remaining = [] then [] else
      [{ merkleBlock with
        nProcessed := vMatch.length - remaining.length
        nTimeRecv := env.getTime
        vMatch := vMatch }])
  handed : ∀ hash ∈ vMatch, timesHanded (st.handedSince n) merkleBlock.header.hash hash =
    if hash ∈ remaining then 0 else 1
  length : n ≤ st.wallet.handed.length

variable {merkleBlock : CMerkleBlockIncoming} {remaining : List UInt256} {n : Nat}

theorem le_length_handTx (st : MerkleNode W) (h : Handed) :
    st.wallet.handed.length ≤ (st.handTx h).wallet.handed.length := by
  rw [handTx, List.length_append]
  exact Nat.le_add_right _ _

theorem handedSince_handTx (hn : n ≤ st.wallet.handed.length) (h : Handed) :
    (st.handTx h).handedSince n = st.handedSince n ++ [h] := List.drop_append_of_le_length hn

theorem timesHanded_concat (handed : List Handed) (h : Handed) (hashBlock hash : UInt256) :
    timesHanded (handed ++ [h]) hashBlock hash =
      timesHanded handed hashBlock hash + if h.hash = hash ∧ h.hashBlock = some hashBlock then 1 else 0 := by
  rw [timesHanded, List.countP_append, List.countP_singleton]
  simp only [decide_eq_true_eq]
  rfl

/-- What is handed over besides does not count. -/
theorem Tracks.handTx (h : Tracks env merkleBlock vMatch n remaining st) {x : Handed}
    (hx : x.hash ∈ vMatch → x.hashBlock ≠ some merkleBlock.header.hash) :
    Tracks env merkleBlock vMatch n remaining (st.handTx x) := by
  refine ⟨h.waits, fun hash hmem => ?_, h.length.trans (le_length_handTx st _)⟩
  have hnot : ¬ (x.hash = hash ∧ x.hashBlock = some merkleBlock.header.hash) := by
    rintro ⟨rfl, hblock⟩
    exact hx hmem hblock
  rw [handedSince_handTx h.length, timesHanded_concat, if_neg hnot, Nat.add_zero]
  exact h.handed hash hmem

/-- A transaction that no block waits for leaves what is tracked. -/
theorem Tracks.accept (h : Tracks env merkleBlock vMatch n remaining st) (tx : CTransaction)
    (hnone : matchIncoming (env.txHash tx) st.vIncomingMerkleBlocks = none) :
    Tracks env merkleBlock vMatch n remaining (st.receiveTx env tx) := by
  have hadded : Tracks env merkleBlock vMatch n remaining
      { st with mempool := st.mempool.addUnchecked (env.txHash tx) tx } := ⟨h.waits, h.handed, h.length⟩
  have hhanded := hadded.handTx fun _ (hblock : (⟨tx, env.txHash tx, none⟩ : Handed).hashBlock = _) => nomatch hblock
  rw [receiveTx, hnone]
  dsimp only
  split_ifs
  · exact h
  · exact hhanded
  · exact ⟨hhanded.waits, hhanded.handed, hhanded.length⟩

/-- A `tx` message is taken for the match that it is. -/
theorem Tracks.receiveTx (h : Tracks env merkleBlock vMatch n remaining st) (hnodup : vMatch.Nodup)
    (hsub : List.Sublist remaining vMatch) (tx : CTransaction)
    (hfresh : remaining = [] ∨ (env.txHash tx ∈ vMatch → env.txHash tx ∈ remaining)) :
    Tracks env merkleBlock vMatch n (remaining.erase (env.txHash tx)) (st.receiveTx env tx) := by
  obtain ⟨others, hapart, hwaits⟩ := h.waits
  by_cases hmem : env.txHash tx ∈ remaining
  · -- The transaction is one of those that remain: the block counts it.
    have hne : remaining ≠ [] := List.ne_nil_of_mem hmem
    have hmatch : env.txHash tx ∈ vMatch := hsub.subset hmem
    have hpos : 0 < remaining.length := List.length_pos_of_mem hmem
    have hle : remaining.length ≤ vMatch.length := hsub.length_le
    have hlength : (remaining.erase (env.txHash tx)).length = remaining.length - 1 := List.length_erase_of_mem hmem
    have hempty : remaining.erase (env.txHash tx) = [] ↔ vMatch.length - remaining.length + 1 = vMatch.length := by
      rw [← List.length_eq_zero_iff, hlength]
      omega
    rw [if_neg hne] at hwaits
    have hfound : matchIncoming (env.txHash tx) st.vIncomingMerkleBlocks =
        some (merkleBlock.header.hash, others ++ if remaining.erase (env.txHash tx) = [] then [] else
          [{ merkleBlock with
            nProcessed := vMatch.length - (remaining.erase (env.txHash tx)).length
            nTimeRecv := env.getTime
            vMatch := vMatch }]) := by
      rw [hwaits, matchIncoming_append_none (matchIncoming_eq_none hapart hmatch), matchIncoming, if_pos hmatch,
        Option.map_some, hlength]
      by_cases hlast : remaining.erase (env.txHash tx) = []
      · rw [if_pos hlast, if_pos (hempty.1 hlast)]
      · have hcount : vMatch.length - (remaining.length - 1) = vMatch.length - remaining.length + 1 := by omega
        rw [if_neg hlast, if_neg (mt hempty.2 hlast), hcount]
    rw [MerkleNode.receiveTx, hfound]
    refine ⟨⟨others, hapart, rfl⟩, fun hash hhash => ?_, h.length.trans (le_length_handTx st _)⟩
    have htimes := h.handed hash hhash
    have hsince := @handedSince_handTx W st n h.length ⟨tx, env.txHash tx, some merkleBlock.header.hash⟩
    change timesHanded ((st.handTx ⟨tx, env.txHash tx, some merkleBlock.header.hash⟩).handedSince n) _ _ = _
    rw [hsince, timesHanded_concat, htimes]
    by_cases hsame : env.txHash tx = hash
    · have hgone : hash ∉ remaining.erase (env.txHash tx) := by
        rw [← hsame]
        exact (hsub.nodup hnodup).not_mem_erase
      rw [if_pos (hsame ▸ hmem), if_pos ⟨hsame, rfl⟩, if_neg hgone]
    · have hother : ¬ (env.txHash tx = hash ∧ some merkleBlock.header.hash = some merkleBlock.header.hash) :=
        fun h => hsame h.1
      rw [if_neg hother, Nat.add_zero]
      simp only [List.mem_erase_of_ne (Ne.symm hsame)]
  · have herase : remaining.erase (env.txHash tx) = remaining := List.erase_of_not_mem hmem
    rw [herase]
    by_cases hmatch : env.txHash tx ∈ vMatch
    · -- All matches have come, and the block waits no more.
      have hdone : remaining = [] := hfresh.resolve_right fun h => hmem (h hmatch)
      rw [if_pos hdone, List.append_nil] at hwaits
      exact h.accept tx (hwaits ▸ matchIncoming_eq_none hapart hmatch)
    · -- Another block may be the one that the transaction is of.
      cases hothers : matchIncoming (env.txHash tx) others with
      | none =>
          refine h.accept tx ?_
          rw [hwaits, matchIncoming_append_none hothers]
          split_ifs
          · rfl
          · rw [matchIncoming, if_neg hmatch]
            rfl
      | some r =>
          obtain ⟨blockhash, found⟩ := r
          rw [MerkleNode.receiveTx, hwaits, matchIncoming_append_some hothers]
          have hfound : Tracks env merkleBlock vMatch n remaining
              { st with vIncomingMerkleBlocks := found ++ (if remaining = [] then [] else
                [{ merkleBlock with
                  nProcessed := vMatch.length - remaining.length
                  nTimeRecv := env.getTime
                  vMatch := vMatch }]) } :=
            ⟨⟨found, (matchIncoming_apart hapart hothers).2, rfl⟩, h.handed, h.length⟩
          exact hfound.handTx fun hmem => absurd hmem hmatch

/-- What remains after the messages. -/
def remainingAfter (remaining : List UInt256) (hashes : List UInt256) : List UInt256 :=
  hashes.foldl List.erase remaining

theorem remainingAfter_sublist (remaining hashes : List UInt256) :
    List.Sublist (remainingAfter remaining hashes) remaining := by
  induction hashes generalizing remaining with
  | nil => exact List.Sublist.refl _
  | cons hash hashes ih => exact (ih _).trans List.erase_sublist

theorem noRepeats_nil (vMatch hashes : List UInt256) : NoRepeats vMatch [] hashes := by
  cases hashes with
  | nil => trivial
  | cons hash hashes => exact Or.inl rfl

theorem Tracks.receiveTxs (h : Tracks env merkleBlock vMatch n remaining st) (hnodup : vMatch.Nodup)
    (hsub : List.Sublist remaining vMatch) (txs : List CTransaction)
    (hfresh : NoRepeats vMatch remaining (txs.map env.txHash)) :
    Tracks env merkleBlock vMatch n (remainingAfter remaining (txs.map env.txHash)) (st.receiveTxs env txs) := by
  induction txs generalizing remaining st with
  | nil => exact h
  | cons tx txs ih =>
      have hstep : remaining = [] ∨ (env.txHash tx ∈ vMatch → env.txHash tx ∈ remaining) := hfresh.imp_right And.left
      have hrest : NoRepeats vMatch (remaining.erase (env.txHash tx)) (txs.map env.txHash) := by
        rcases hfresh with hdone | ⟨_, hrest⟩
        · rw [hdone]
          exact noRepeats_nil _ _
        · exact hrest
      exact ih (h.receiveTx hnodup hsub tx hstep) (List.erase_sublist.trans hsub) hrest

/-- Nothing remains of what has come. -/
theorem remainingAfter_eq_nil {hashes : List UInt256} (hnodup : remaining.Nodup)
    (hall : ∀ hash ∈ remaining, hash ∈ hashes) : remainingAfter remaining hashes = [] := by
  induction hashes generalizing remaining with
  | nil => exact List.eq_nil_iff_forall_not_mem.2 fun hash hmem => nomatch hall hash hmem
  | cons hash hashes ih =>
      refine ih (hnodup.erase hash) fun hash' hmem => ?_
      have hne : hash' ≠ hash := fun heq => hnodup.not_mem_erase (heq ▸ hmem)
      exact (List.mem_cons.1 (hall hash' (List.mem_of_mem_erase hmem))).resolve_left hne

/-! ## The block -/

/-- The matches are in the tree, and the header is known and has its root. -/
structure Verified (env : MerkleEnv) (outcome : HeaderOutcome W) (st : MerkleNode W)
    (merkleBlock : CMerkleBlockIncoming) (vMatch : List UInt256) : Prop where
  root : ∃ pBlockThinIndex, (st.findHeader env outcome merkleBlock.header).1 = some pBlockThinIndex ∧
    ¬ RootMismatch env merkleBlock pBlockThinIndex
  matched : (merkleBlock.txn.extractMatches env.hash).2 = vMatch

/-- The heights and the chunks are recorded; what is compared with the pool is what was there before. -/
theorem recordProgress_keepsAll (st : MerkleNode W) (hashBlock : UInt256) (nHeight : Int) :
    (st.recordProgress hashBlock nHeight).mempool = st.mempool ∧
      (st.recordProgress hashBlock nHeight).wallet.handed = st.wallet.handed ∧
      (st.recordProgress hashBlock nHeight).vIncomingMerkleBlocks = st.vIncomingMerkleBlocks := by
  obtain ⟨_, _, _, _, hprogress, _⟩ := st.recordProgress_eq hashBlock nHeight
  rw [hprogress]
  exact ⟨rfl, rfl, rfl⟩

variable {txs : List CTransaction}

theorem notInPool_sublist (st : MerkleNode W) (vMatch : List UInt256) :
    List.Sublist (st.notInPool vMatch) vMatch := List.filter_sublist

theorem mem_notInPool : hash ∈ st.notInPool vMatch ↔ hash ∈ vMatch ∧ st.mempool.lookup hash = none := by
  rw [notInPool, List.mem_filter, Option.isNone_iff_eq_none]

/-- When one match is in the pool, it is the only one. -/
theorem notInPool_eq_erase (hsingle : vMatch.length ≤ (st.notInPool vMatch).length + 1)
    (hmem : hash ∈ vMatch) {tx : CTransaction} (hlookup : st.mempool.lookup hash = some tx) :
    st.notInPool vMatch = vMatch.erase hash := by
  have hnot : hash ∉ st.notInPool vMatch := fun h => by
    rw [mem_notInPool, hlookup] at h
    cases h.2
  have hsub : List.Sublist (st.notInPool vMatch) (vMatch.erase hash) := by
    have herase := (st.notInPool_sublist vMatch).erase hash
    rwa [List.erase_of_not_mem hnot] at herase
  refine hsub.eq_of_length_le ?_
  rw [List.length_erase_of_mem hmem]
  omega

/-- What is tracked at first. -/
theorem deliver_tracks (hmatched : (merkleBlock.txn.extractMatches env.hash).2 = vMatch)
    (hkeyed : ∀ hash tx, st.mempool.lookup hash = some tx → env.txHash tx = hash) (hnodup : vMatch.Nodup)
    (hapart : Apart vMatch st.vIncomingMerkleBlocks) (hsingle : vMatch.length ≤ (st.notInPool vMatch).length + 1) :
    Tracks env merkleBlock vMatch st.wallet.handed.length (st.notInPool vMatch) (st.deliver env merkleBlock none) ∧
      ∀ hash ∈ vMatch, ∀ tx, st.mempool.lookup hash = some tx →
        ⟨tx, hash, some merkleBlock.header.hash⟩ ∈
            (st.deliver env merkleBlock none).handedSince st.wallet.handed.length ∧
          (st.deliver env merkleBlock none).mempool.lookup hash = none := by
  by_cases hempty : vMatch = []
  · have hdeliver : st.deliver env merkleBlock none = st := if_pos (hmatched.trans hempty)
    rw [hdeliver, hempty]
    exact ⟨⟨⟨st.vIncomingMerkleBlocks, fun _ _ _ h => (nomatch h), (List.append_nil _).symm⟩, fun _ h => (nomatch h),
      Nat.le_refl _⟩, fun _ h => (nomatch h)⟩
  · have hpos : 0 < vMatch.length := List.length_pos_of_ne_nil hempty
    rcases @takeFromPool_cases W env st merkleBlock.header.hash vMatch with
      ⟨htake, hnone⟩ | ⟨hash₀, hmem, txMp, hlookup, htake⟩
    · -- Nothing is in the pool, and the block waits for everything.
      have hremaining : st.notInPool vMatch = vMatch :=
        List.filter_eq_self.2 fun hash hmem => Option.isNone_iff_eq_none.2 (hnone hash hmem)
      have hdeliver : st.deliver env merkleBlock none =
          { st with vIncomingMerkleBlocks := st.vIncomingMerkleBlocks ++
            [{ merkleBlock with nProcessed := 0, nTimeRecv := env.getTime, vMatch := vMatch }] } := by
        rw [deliver, hmatched, if_neg hempty, htake]
        exact if_pos hpos
      rw [hdeliver, hremaining]
      refine ⟨⟨⟨st.vIncomingMerkleBlocks, hapart, ?_⟩, fun hash hhash => ?_, Nat.le_refl _⟩,
        fun hash hhash tx hsome => ?_⟩
      · rw [if_neg hempty, Nat.sub_self]
      · rw [if_pos hhash, handedSince, List.drop_length]
        rfl
      · rw [hnone hash hhash] at hsome
        cases hsome
    · -- The one that is in the pool is taken from it.
      have hremaining := notInPool_eq_erase hsingle hmem hlookup
      have hlength : (vMatch.erase hash₀).length = vMatch.length - 1 := List.length_erase_of_mem hmem
      have hdeliver : st.deliver env merkleBlock none =
          { (st.handTx ⟨txMp, hash₀, some merkleBlock.header.hash⟩).removeTx env txMp with
            vIncomingMerkleBlocks := st.vIncomingMerkleBlocks ++ if vMatch.erase hash₀ = [] then [] else
              [{ merkleBlock with
                nProcessed := vMatch.length - (vMatch.erase hash₀).length
                nTimeRecv := env.getTime
                vMatch := vMatch }] } := by
        rw [deliver, hmatched, if_neg hempty, htake]
        dsimp only
        rw [takeTxns]
        by_cases hlast : vMatch.erase hash₀ = []
        · rw [hlast] at hlength
          have hone : vMatch.length = 1 := by
            rw [List.length_nil] at hlength
            omega
          rw [if_neg (by dsimp only; omega), if_pos hlast, List.append_nil]
          rfl
        · have hmore : 0 < (vMatch.erase hash₀).length := List.length_pos_of_ne_nil hlast
          have hone : vMatch.length - (vMatch.erase hash₀).length = 1 := by omega
          rw [if_pos (by dsimp only; omega), if_neg hlast, hone]
          rfl
      have hsince : (st.deliver env merkleBlock none).handedSince st.wallet.handed.length =
          [⟨txMp, hash₀, some merkleBlock.header.hash⟩] := by
        rw [hdeliver]
        exact List.drop_left
      have hgone : (st.deliver env merkleBlock none).mempool.lookup hash₀ = none := by
        have hremoved := @removeTx_lookup W env (st.handTx ⟨txMp, hash₀, some merkleBlock.header.hash⟩) txMp
        rw [hkeyed hash₀ txMp hlookup] at hremoved
        rw [hdeliver]
        exact hremoved
      refine ⟨⟨⟨st.vIncomingMerkleBlocks, hapart, ?_⟩, fun hash hhash => ?_, ?_⟩, fun hash hhash tx hsome => ?_⟩
      · rw [hdeliver, hremaining]
      · rw [hsince, hremaining, timesHanded, List.countP_singleton]
        by_cases hsame : hash₀ = hash
        · rw [← hsame, if_neg hnodup.not_mem_erase]
          exact if_pos (decide_eq_true ⟨rfl, rfl⟩)
        · rw [if_pos ((List.mem_erase_of_ne (Ne.symm hsame)).2 hhash)]
          exact if_neg fun h => hsame (of_decide_eq_true h).1
      · rw [hdeliver]
        exact le_length_handTx st _
      · have hsame : hash = hash₀ := by
          by_contra hne
          have hin : hash ∈ st.notInPool vMatch := by
            rw [hremaining]
            exact (List.mem_erase_of_ne hne).2 hhash
          rw [mem_notInPool, hsome] at hin
          cases hin.2
        rw [hsame, hlookup] at hsome
        cases hsome
        rw [hsince, hsame]
        exact ⟨List.mem_singleton.2 rfl, hgone⟩

/-- What a verified block of the message leaves is what is delivered from where its header has been found. -/
theorem processMerkleBlock_of_verified {outcome : HeaderOutcome W} (h : Verified env outcome st merkleBlock vMatch)
    (pvTxns : Option (List CTransaction)) :
    ∃ nHeight, st.processMerkleBlock env outcome merkleBlock pvTxns =
      ((st.findHeader env outcome merkleBlock.header).2.recordProgress merkleBlock.header.hash nHeight).deliver env
        merkleBlock pvTxns := by
  obtain ⟨pBlockThinIndex, hfound, hroot⟩ := h.root
  refine ⟨pBlockThinIndex.nHeight, ?_⟩
  rw [processMerkleBlock]
  rcases hfind : st.findHeader env outcome merkleBlock.header with ⟨found, st'⟩
  rw [hfind] at hfound
  obtain rfl : found = some pBlockThinIndex := hfound
  exact if_neg hroot

/-- One transaction of the pool is handed over at most. -/
theorem length_handedSince_deliver (st : MerkleNode W) (merkleBlock : CMerkleBlockIncoming) :
    ((st.deliver env merkleBlock none).handedSince st.wallet.handed.length).length ≤ 1 := by
  have hnone : ∀ st' : MerkleNode W, ∀ mb : CMerkleBlockIncoming,
      (st'.takeTxns env mb none).wallet.handed = st'.wallet.handed := by
    intro st' mb
    rw [takeTxns]
    split_ifs
    · rfl
    · rfl
  rw [deliver]
  split_ifs
  · rw [handedSince, List.drop_length]
    exact Nat.zero_le 1
  · rcases @takeFromPool_cases W env st merkleBlock.header.hash (merkleBlock.txn.extractMatches env.hash).2 with
      ⟨htake, _⟩ | ⟨hash₀, _, txMp, _, htake⟩
    · rw [htake, handedSince, hnone, List.drop_length]
      exact Nat.zero_le 1
    · rw [htake, handedSince, hnone]
      change ((st.wallet.handed ++ [_]).drop st.wallet.handed.length).length ≤ 1
      rw [List.drop_left]
      exact Nat.le_refl 1

/-- So no two matches are in the pool when a block delivers all of them. -/
theorem eq_of_delivers {outcome : HeaderOutcome W} {txs : List CTransaction} {hash' : UInt256} {tx tx' : CTransaction}
    (hverified : Verified env outcome st merkleBlock vMatch)
    (h : (st.findHeader env outcome merkleBlock.header).2.Delivers env merkleBlock vMatch
      (st.processMerkleBlock env outcome merkleBlock none) txs)
    (hmem : hash ∈ vMatch) (hmem' : hash' ∈ vMatch)
    (hlookup : (st.findHeader env outcome merkleBlock.header).2.mempool.lookup hash = some tx)
    (hlookup' : (st.findHeader env outcome merkleBlock.header).2.mempool.lookup hash' = some tx') : hash = hash' := by
  obtain ⟨nHeight, hprocess⟩ := processMerkleBlock_of_verified hverified none
  have hin := (h.pool hash hmem tx hlookup).1
  have hin' := (h.pool hash' hmem' tx' hlookup').1
  have hlength := @length_handedSince_deliver W env ((st.findHeader env outcome merkleBlock.header).2.recordProgress
    merkleBlock.header.hash nHeight) merkleBlock
  rw [(recordProgress_keepsAll _ _ _).2.1, ← hprocess] at hlength
  obtain ⟨i, hi, heq⟩ := List.mem_iff_getElem.1 hin
  obtain ⟨j, hj, heq'⟩ := List.mem_iff_getElem.1 hin'
  obtain rfl : i = j := by omega
  rw [heq] at heq'
  exact congrArg Handed.hash heq'

theorem countP_not_mem {l l' : List UInt256} (hnodup : l.Nodup) (hsub : List.Sublist l' l) :
    (l.countP fun a => a ∉ l') = l.length - l'.length := by
  have hsame : (l.filter fun a => a ∈ l').Perm l' := by
    refine (List.perm_ext_iff_of_nodup (hnodup.filter _) (hsub.nodup hnodup)).2 fun a => ?_
    rw [List.mem_filter, decide_eq_true_eq]
    exact and_iff_right_of_imp fun h => hsub.subset h
  have hlength := List.length_eq_countP_add_countP (fun a => decide (a ∈ l')) (l := l)
  rw [List.countP_eq_length_filter, hsame.length_eq] at hlength
  simp only [decide_eq_true_eq] at hlength
  omega

/-- A verified block that is regular delivers its matches. -/
theorem processMerkleBlock_delivers {outcome : HeaderOutcome W} (st : MerkleNode W) (txs : List CTransaction)
    (hverified : Verified env outcome st merkleBlock vMatch)
    (hkeyed : ∀ hash tx, (st.findHeader env outcome merkleBlock.header).2.mempool.lookup hash = some tx →
      env.txHash tx = hash)
    (hregular : (st.findHeader env outcome merkleBlock.header).2.Regular env vMatch txs) :
    (st.findHeader env outcome merkleBlock.header).2.Delivers env merkleBlock vMatch
      (st.processMerkleBlock env outcome merkleBlock none) txs := by
  obtain ⟨nHeight, hprocess⟩ := processMerkleBlock_of_verified hverified none
  obtain ⟨hpool, hhanded, hincoming⟩ :=
    (st.findHeader env outcome merkleBlock.header).2.recordProgress_keepsAll merkleBlock.header.hash nHeight
  rw [hprocess]
  generalize (st.findHeader env outcome merkleBlock.header).2.recordProgress merkleBlock.header.hash nHeight = st₁
    at hpool hhanded hincoming
  generalize (st.findHeader env outcome merkleBlock.header).2 = st₀ at hkeyed hregular hpool hhanded hincoming
  have hnotInPool : st₁.notInPool vMatch = st₀.notInPool vMatch := by rw [notInPool, notInPool, hpool]
  obtain ⟨htracks, htaken⟩ := @deliver_tracks W env st₁ vMatch merkleBlock hverified.matched (hpool.symm ▸ hkeyed)
    hregular.nodup (hincoming.symm ▸ hregular.apart) (hnotInPool.symm ▸ hregular.single)
  rw [hnotInPool] at htracks
  rw [hpool] at htaken
  have hsub := st₀.notInPool_sublist vMatch
  have hafter := htracks.receiveTxs hregular.nodup hsub txs hregular.noRepeats
  have hsub' := (remainingAfter_sublist (st₀.notInPool vMatch) (txs.map env.txHash)).trans hsub
  rw [hhanded] at htaken hafter
  obtain ⟨others, hothers, hwaits⟩ := hafter.waits
  refine ⟨htaken, fun it hit hshares => ?_, fun hall => ?_⟩
  · obtain ⟨hash, hmem, hin⟩ := hshares
    rw [hwaits] at hit
    rcases List.mem_append.1 hit with hother | hself
    · exact absurd hin (hothers it hother hash hmem)
    · have hcount := countP_not_mem hregular.nodup hsub'
      split_ifs at hself with hdone
      · cases hself
      · rw [List.mem_singleton.1 hself]
        dsimp only
        rw [← hcount]
        refine List.countP_congr fun hash hhash => ?_
        rw [hafter.handed hash hhash, decide_eq_true_eq, decide_eq_true_eq]
        split_ifs with hleft
        · exact iff_of_false (not_not.2 hleft) (Nat.lt_irrefl 0)
        · exact iff_of_true hleft Nat.one_pos
  · have hdone : remainingAfter (st₀.notInPool vMatch) (txs.map env.txHash) = [] :=
      remainingAfter_eq_nil (hsub.nodup hregular.nodup) fun hash hmem =>
        hall hash (mem_notInPool.1 hmem).1 (mem_notInPool.1 hmem).2
    rw [hdone, if_pos rfl, List.append_nil] at hwaits
    refine ⟨hwaits.symm ▸ hothers, fun hash hmem => ?_⟩
    rw [hafter.handed hash hmem, hdone]
    exact if_neg List.not_mem_nil

end MerkleNode

/-! ## A block of two -/

def lockedTx (nLockTime : UInt32) : CTransaction := { nVersion := 1, nTime := 0, vin := [], vout := [], nLockTime }

/-- The hash of a transaction is its lock time. -/
def pairEnv : MerkleEnv where
  hash _ _ := 9
  fThinFullIndex := true
  readBlockThinIndex _ := none
  nBlocksOfPeers := 0
  txHash tx := BitVec.ofNat 256 tx.nLockTime.toNat
  freed tx := tx
  accepts _ _ := false
  fInvolving _ := true
  getTime := 0

/-- The header 7 with both of its transactions. -/
def pairBlock : CMerkleBlockIncoming := ⟨⟨7, 0⟩, ⟨⟨[true, true, true], [5, 6]⟩, 2, false⟩, 0, 0, []⟩

def pairNode (mempool : CTxMemPool) : MerkleNode Unit where
  nNodeState := .ready
  vPendingFilteredChunks := []
  vIncomingMerkleBlocks := []
  mapBlockThinIndex hash := if hash = 7 then some ⟨1, 9⟩ else none
  nBestHeight := 1
  nTimeRear := none
  mempool
  wallet := ⟨1, none, [], ()⟩

def noHeaders : HeaderOutcome Unit := ⟨fun _ => none, 0, none, .empty, (), false⟩

theorem pairBlock_extractMatches : pairBlock.txn.extractMatches pairEnv.hash = (9, [5, 6]) := by
  have hheight : calcTreeHeight 2 0 = 1 := by simp [calcTreeHeight, calcTreeWidth]
  simp [CPartialMerkleTree.extractMatches, pairBlock, hheight, traverseAndExtract, extractStored, calcTreeWidth,
    MAX_BLOCK_SIZE, pairEnv]

theorem pairBlock_verified (mempool : CTxMemPool) :
    MerkleNode.Verified pairEnv noHeaders (pairNode mempool) pairBlock [5, 6] := by
  refine ⟨⟨⟨1, 9⟩, rfl, ?_⟩, ?_⟩
  · rw [MerkleNode.RootMismatch, pairBlock_extractMatches]
    decide
  · rw [pairBlock_extractMatches]

theorem pairBlock_delivers :
    (pairNode .empty).Delivers pairEnv pairBlock [5, 6]
      ((pairNode .empty).processMerkleBlock pairEnv noHeaders pairBlock none) [lockedTx 6, lockedTx 5] :=
  MerkleNode.processMerkleBlock_delivers (pairNode .empty) [lockedTx 6, lockedTx 5] (pairBlock_verified .empty)
    (fun _ _ h => nomatch h) ⟨by decide, fun _ h => (nomatch h), by decide, by simp [MerkleNode.NoRepeats]; decide⟩

/-- With both in the pool, the second stays there. -/
theorem pairBlock_leaves :
    ¬ (pairNode ((CTxMemPool.empty.addUnchecked 5 (lockedTx 5)).addUnchecked 6 (lockedTx 6))).Delivers pairEnv pairBlock
      [5, 6] ((pairNode ((CTxMemPool.empty.addUnchecked 5 (lockedTx 5)).addUnchecked 6 (lockedTx 6))).processMerkleBlock
        pairEnv noHeaders pairBlock none) [] := by
  intro h
  have hsame : (5 : UInt256) = 6 := MerkleNode.eq_of_delivers (pairBlock_verified _) h (by decide) (by decide)
    (rfl : _ = some (lockedTx 5)) (rfl : _ = some (lockedTx 6))
  exact absurd hsame (by decide)

end ProCurrency

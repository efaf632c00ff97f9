import ProCurrency.Connect.Block
import ProCurrency.Lib.TrackedPool

/-!
# Orphan blocks

`AddOrphanBlock`, `PruneOrphanBlocks` and the part of `ProcessBlock` that holds blocks back until it has the block
before them (main.cpp). A serialized block is kept as the block that reading it back gives, with its size. `none` is
a division by zero or a loop that does not end.
-/

namespace ProCurrency

/-- `GetProofOfStake`. -/
def CBlock.getProofOfStake (block : CBlock) : COutPoint × UInt32 :=
  match block.vtx with
  | _ :: tx :: _ =>
      match tx.vin with
      | txin :: _ => if tx.isCoinStake then (txin.prevout, tx.nTime) else (.null, 0)
      | [] => (.null, 0)
  | _ => (.null, 0)

structure COrphanBlock where
  hashBlock : UInt256
  hashPrev : UInt256
  stake : COutPoint × UInt32
  vchBlock : CBlock
  deriving Repr, DecidableEq

def COrphanBlock.new (blockHash : CBlock → UInt256) (block : CBlock) : COrphanBlock where
  hashBlock := blockHash block
  hashPrev := block.hashPrevBlock
  stake := block.getProofOfStake
  vchBlock := block

/-- The globals. The multimap by the block before stands in the order of its keys, and those of one key in the order
of their insertion. -/
structure OrphanBlocks where
  mapOrphanBlocks : UInt256 → Option COrphanBlock
  mapOrphanBlocksByPrev : List COrphanBlock
  setStakeSeenOrphan : Finset (COutPoint × UInt32)
  nOrphanBlocksSize : Nat

namespace OrphanBlocks

def empty : OrphanBlocks where
  mapOrphanBlocks _ := none
  mapOrphanBlocksByPrev := []
  setStakeSeenOrphan := ∅
  nOrphanBlocksSize := 0

/-- `mapOrphanBlocksByPrev.insert`. -/
def insertByPrev (orphan : COrphanBlock) (byPrev : List COrphanBlock) : List COrphanBlock :=
  let fBefore (other : COrphanBlock) : Bool := other.hashPrev ≤ orphan.hashPrev
  byPrev.takeWhile fBefore ++ orphan :: byPrev.dropWhile fBefore

def addOrphanBlock (blockHash : CBlock → UInt256) (o : OrphanBlocks) (block : CBlock) : OrphanBlocks :=
  let orphan := COrphanBlock.new blockHash block
  { mapOrphanBlocks := Function.update o.mapOrphanBlocks orphan.hashBlock (some orphan)
    mapOrphanBlocksByPrev := insertByPrev orphan o.mapOrphanBlocksByPrev
    setStakeSeenOrphan :=
      if block.isProofOfStake then insert orphan.stake o.setStakeSeenOrphan else o.setStakeSeenOrphan
    nOrphanBlocksSize := o.nOrphanBlocksSize + block.getSerializeSize }

/-- What goes with an orphan, but for its entry in the multimap. -/
def forget (o : OrphanBlocks) (orphan : COrphanBlock) : OrphanBlocks :=
  { o with
    mapOrphanBlocks := Function.update o.mapOrphanBlocks orphan.hashBlock none
    setStakeSeenOrphan := o.setStakeSeenOrphan.erase orphan.stake
    nOrphanBlocksSize := o.nOrphanBlocksSize - orphan.vchBlock.getSerializeSize }

/-! ## Eviction -/

/-- The inner loop of `PruneOrphanBlocks`: on to an orphan that depends on this one, as long as there is one. -/
def lastDependent (byPrev : List COrphanBlock) (it : COrphanBlock) : Nat → Option COrphanBlock
  | 0 => if (byPrev.find? fun it2 => it2.hashPrev = it.hashBlock).isSome then none else some it
  | fuel + 1 =>
      match byPrev.find? fun it2 => it2.hashPrev = it.hashBlock with
      | none => some it
      | some it2 => lastDependent byPrev it2 fuel

/-- One round of the loop of `PruneOrphanBlocks`. -/
def evict (o : OrphanBlocks) (insecureRand : UInt32) : Option OrphanBlocks :=
  let byPrev := o.mapOrphanBlocksByPrev
  match byPrev[insecureRand.toNat % byPrev.length]? with
  | none => none
  | some it =>
      match lastDependent byPrev it byPrev.length with
      | none => none
      | some it => some { o.forget it with mapOrphanBlocksByPrev := byPrev.erase it }

/-- The loop of `PruneOrphanBlocks`, from the round `i` on. -/
def pruneFrom (nMaxOrphanBlocksSize : Nat) (insecureRand : Nat → UInt32) (i : Nat) (o : OrphanBlocks) :
    Nat → Option OrphanBlocks
  | 0 => if nMaxOrphanBlocksSize < o.nOrphanBlocksSize then none else some o
  | fuel + 1 =>
      if nMaxOrphanBlocksSize < o.nOrphanBlocksSize then
        match o.evict (insecureRand i) with
        | none => none
        | some o => pruneFrom nMaxOrphanBlocksSize insecureRand (i + 1) o fuel
      else some o

/-- `PruneOrphanBlocks`. Each round evicts one orphan. -/
def pruneOrphanBlocks (nMaxOrphanBlocksSize : Nat) (insecureRand : Nat → UInt32) (o : OrphanBlocks) :
    Option OrphanBlocks :=
  pruneFrom nMaxOrphanBlocksSize insecureRand 0 o o.mapOrphanBlocksByPrev.length

/-! ## Acceptance -/

/-- The inner loop of `ProcessBlock`, over the orphans that depend on one block, with its work queue. -/
def acceptOrphans (acceptBlock : CBlock → Bool) (vWorkQueue : List UInt256) (o : OrphanBlocks) :
    List COrphanBlock → List UInt256 × OrphanBlocks
  | [] => (vWorkQueue, o)
  | orphan :: rest =>
      let vWorkQueue := if acceptBlock orphan.vchBlock then vWorkQueue ++ [orphan.hashBlock] else vWorkQueue
      acceptOrphans acceptBlock vWorkQueue (o.forget orphan) rest

/-- The loop over the work queue. -/
def processQueue (acceptBlock : CBlock → Bool) (o : OrphanBlocks) : Nat → List UInt256 → Option OrphanBlocks
  | _, [] => some o
  | 0, _ :: _ => none
  | fuel + 1, hashPrev :: vWorkQueue =>
      match acceptOrphans acceptBlock vWorkQueue o
        (o.mapOrphanBlocksByPrev.filter fun orphan => orphan.hashPrev = hashPrev) with
      | (vWorkQueue, o) =>
          let byPrev := o.mapOrphanBlocksByPrev.filter fun orphan => orphan.hashPrev ≠ hashPrev
          processQueue acceptBlock { o with mapOrphanBlocksByPrev := byPrev } fuel vWorkQueue

end OrphanBlocks

/-! ## `ProcessBlock` -/

/-- One call of `ProcessBlock`, with what it meets outside the orphans. Each block is accepted or refused once in a
call, so that what `AcceptBlock` answers is a function of the block. -/
structure ProcessBlockCall where
  /-- There is a node that the block comes from. -/
  pfrom : Bool
  block : CBlock
  /-- `fReindexing || fImporting`. -/
  fReindexing : Bool
  inBlockIndex : UInt256 → Bool
  stakeSeen : COutPoint × UInt32 → Bool
  hashBestChain : UInt256
  nCheckpointTime : Int
  checkBlock : CBlock → Bool
  acceptBlock : CBlock → Bool
  nMaxOrphanBlocksSize : Nat
  insecureRand : Nat → UInt32

namespace OrphanBlocks

variable (blockHash : CBlock → UInt256)

/-- Some orphan depends on the block. -/
def hasDependent (o : OrphanBlocks) (hash : UInt256) : Bool :=
  o.mapOrphanBlocksByPrev.any fun orphan => orphan.hashPrev = hash

/-- The block gets to where it is accepted or held back. -/
def passesChecks (o : OrphanBlocks) (call : ProcessBlockCall) : Bool :=
  let block := call.block
  let hash := blockHash block
  if call.inBlockIndex hash then false
  else if (o.mapOrphanBlocks hash).isSome then false
  else if !call.fReindexing && block.isProofOfStake && call.stakeSeen block.getProofOfStake &&
      !o.hasDependent hash then false
  else if block.hashPrevBlock ≠ call.hashBestChain ∧ (block.nTime.toNat : Int) < call.nCheckpointTime then false
  else call.checkBlock block

/-- The block is held back for the one before it. -/
def holdsBack (o : OrphanBlocks) (call : ProcessBlockCall) : Bool :=
  let block := call.block
  call.pfrom &&
    !(block.isProofOfStake && decide (block.getProofOfStake ∈ o.setStakeSeenOrphan) &&
      !o.hasDependent (blockHash block))

def processBlock (o : OrphanBlocks) (call : ProcessBlockCall) : Option OrphanBlocks :=
  let block := call.block
  if !o.passesChecks blockHash call then some o
  else if !call.inBlockIndex block.hashPrevBlock then
    if !o.holdsBack blockHash call then some o
    else
      match o.pruneOrphanBlocks call.nMaxOrphanBlocksSize call.insecureRand with
      | none => none
      | some o => some (o.addOrphanBlock blockHash block)
  else if !call.acceptBlock block then some o
  else o.processQueue call.acceptBlock (o.mapOrphanBlocksByPrev.length + 1) [blockHash block]

def run (o : OrphanBlocks) : List ProcessBlockCall → Option OrphanBlocks
  | [] => some o
  | call :: calls =>
      match o.processBlock blockHash call with
      | none => none
      | some o => run o calls

end OrphanBlocks

/-!
## What the orphan pool keeps

The map, the size and the stakes are those of a list of orphans, which is the multimap between two calls and what is
left of it inside one.
-/

open TrackedPool

/-- The stake of a proof-of-stake orphan. -/
def COrphanBlock.stake? (orphan : COrphanBlock) : Option (COutPoint × UInt32) :=
  if orphan.vchBlock.isProofOfStake then some orphan.stake else none

theorem CBlock.getProofOfStake_of_pos {block : CBlock} (h : block.isProofOfStake = true) :
    block.getProofOfStake.1.isNull = false := by
  rw [CBlock.isProofOfStake] at h
  rw [CBlock.getProofOfStake]
  rcases hvtx : block.vtx with _ | ⟨_, _ | ⟨tx, _⟩⟩
  · simp [hvtx] at h
  · simp [hvtx] at h
  · simp only [hvtx] at h ⊢
    have hstake := h
    rw [CTransaction.isCoinStake] at hstake
    rcases hvin : tx.vin with _ | ⟨txin, _⟩
    · simp [hvin] at hstake
    · rcases hvout : tx.vout with _ | ⟨_, _ | _⟩
      · simp [hvin, hvout] at hstake
      · simp [hvin, hvout] at hstake
      · simp only [hvin, hvout, Bool.and_eq_true, Bool.not_eq_true'] at hstake
        simp only [h, if_true]
        exact hstake.1

theorem CBlock.getProofOfStake_of_pow {block : CBlock} (h : block.isProofOfStake = false) :
    block.getProofOfStake = (.null, 0) := by
  rw [CBlock.isProofOfStake] at h
  rw [CBlock.getProofOfStake]
  rcases hvtx : block.vtx with _ | ⟨_, _ | ⟨tx, _⟩⟩
  · rfl
  · rfl
  · simp only [hvtx] at h ⊢
    cases tx.vin with
    | nil => rfl
    | cons txin _ => simp [h]

namespace OrphanBlocks

variable {blockHash : CBlock → UInt256} {o o' : OrphanBlocks} {items rest : List COrphanBlock}
  {orphan : COrphanBlock} {block : CBlock}

/-- The containers beside the multimap are those of a list of orphans. -/
structure Holds (blockHash : CBlock → UInt256) (o : OrphanBlocks) (items : List COrphanBlock) : Prop where
  tracks : Tracks COrphanBlock.hashBlock (fun orphan => orphan.vchBlock.getSerializeSize) items o.mapOrphanBlocks
    o.nOrphanBlocksSize
  made : ∀ orphan ∈ items, orphan = .new blockHash orphan.vchBlock

/-- The set of stakes is that of the proof-of-stake orphans of a list, which have one stake each. -/
abbrev HoldsStakes (o : OrphanBlocks) (items : List COrphanBlock) : Prop :=
  Tagged COrphanBlock.stake? items o.setStakeSeenOrphan

/-- No block held back is lost, and none is counted twice. -/
def Valid (blockHash : CBlock → UInt256) (o : OrphanBlocks) : Prop := o.Holds blockHash o.mapOrphanBlocksByPrev

theorem Valid.empty (blockHash : CBlock → UInt256) : empty.Valid blockHash :=
  ⟨.empty _ _, fun _ horphan => (nomatch horphan)⟩

/-! ## One orphan -/

theorem insertByPrev_perm (orphan : COrphanBlock) (byPrev : List COrphanBlock) :
    (insertByPrev orphan byPrev).Perm (orphan :: byPrev) := by
  rw [insertByPrev]
  refine List.perm_middle.trans (List.Perm.cons _ ?_)
  rw [List.takeWhile_append_dropWhile]

theorem Holds.setByPrev (h : o.Holds blockHash items) (byPrev : List COrphanBlock) :
    { o with mapOrphanBlocksByPrev := byPrev }.Holds blockHash items := ⟨h.tracks, h.made⟩

theorem Holds.forget (h : o.Holds blockHash items) (hperm : items.Perm (orphan :: rest)) :
    (o.forget orphan).Holds blockHash rest where
  tracks := h.tracks.remove hperm
  made other hother := h.made other (hperm.mem_iff.2 (List.mem_cons_of_mem _ hother))

theorem HoldsStakes.forget (hstakes : o.HoldsStakes items) (h : o.Holds blockHash items)
    (hperm : items.Perm (orphan :: rest)) : (o.forget orphan).HoldsStakes rest := by
  have hmade := h.made orphan (hperm.mem_iff.2 List.mem_cons_self)
  have hstake : orphan.stake = orphan.vchBlock.getProofOfStake := by
    rw [hmade]
    rfl
  rcases hpos : orphan.vchBlock.isProofOfStake with _ | _
  · refine hstakes.remove_none hperm (if_neg (by rw [hpos]; exact Bool.false_ne_true)) fun hmem => ?_
    obtain ⟨other, hother, htag⟩ := (hstakes.mem_iff _).1 hmem
    rw [COrphanBlock.stake?] at htag
    split at htag
    · rename_i hpos'
      have hnull := CBlock.getProofOfStake_of_pos hpos'
      have hother' : other.stake = other.vchBlock.getProofOfStake := by
        rw [h.made other hother]
        rfl
      rw [← hother', Option.some.inj htag, hstake, CBlock.getProofOfStake_of_pow hpos] at hnull
      cases hnull
    · cases htag
  · exact hstakes.remove_some hperm (if_pos hpos)

theorem Valid.addOrphanBlock (h : o.Valid blockHash) (hnew : o.mapOrphanBlocks (blockHash block) = none) :
    (o.addOrphanBlock blockHash block).Valid blockHash where
  tracks := by
    have hinsert := h.tracks.insert (a := COrphanBlock.new blockHash block) hnew
    exact hinsert.perm (insertByPrev_perm _ _)
  made orphan horphan := by
    rcases List.mem_cons.1 ((insertByPrev_perm _ _).mem_iff.1 horphan) with rfl | horphan
    · rfl
    · exact h.made orphan horphan

theorem HoldsStakes.addOrphanBlock (hstakes : o.HoldsStakes o.mapOrphanBlocksByPrev)
    (hfresh : block.isProofOfStake = true → block.getProofOfStake ∉ o.setStakeSeenOrphan) :
    (o.addOrphanBlock blockHash block).HoldsStakes (o.addOrphanBlock blockHash block).mapOrphanBlocksByPrev := by
  refine Tagged.perm ?_ (insertByPrev_perm _ _)
  rw [OrphanBlocks.addOrphanBlock]
  rcases hpos : block.isProofOfStake with _ | _
  · exact hstakes.insert_none (if_neg (by rw [COrphanBlock.new, hpos]; exact Bool.false_ne_true))
  · exact hstakes.insert_some (if_pos hpos) (hfresh hpos)

/-! ## Eviction -/

/-- The blocks form no circle: each stands above the one before it. -/
def Acyclic (height : UInt256 → Nat) (byPrev : List COrphanBlock) : Prop :=
  ∀ orphan ∈ byPrev, height orphan.hashPrev < height orphan.hashBlock

/-- Fewer orphans stand above a higher one. -/
theorem length_above_lt {height : UInt256 → Nat} {byPrev : List COrphanBlock} {it2 : COrphanBlock} {n : Nat}
    (hmem : it2 ∈ byPrev) (hlt : n < height it2.hashBlock) :
    (byPrev.filter fun orphan => height it2.hashBlock < height orphan.hashBlock).length <
      (byPrev.filter fun orphan => n < height orphan.hashBlock).length := by
  have hsub : (byPrev.filter fun orphan => height it2.hashBlock < height orphan.hashBlock) =
      (byPrev.filter fun orphan => n < height orphan.hashBlock).filter fun orphan =>
        height it2.hashBlock < height orphan.hashBlock := by
    rw [List.filter_filter]
    refine List.filter_congr fun orphan _ => ?_
    rw [Bool.eq_iff_iff, Bool.and_eq_true, decide_eq_true_iff, decide_eq_true_iff]
    exact ⟨fun habove => ⟨habove, Nat.lt_trans hlt habove⟩, fun habove => habove.1⟩
  rw [hsub]
  refine List.length_filter_lt_length_iff_exists.2 ⟨it2, ?_, ?_⟩
  · exact List.mem_filter.2 ⟨hmem, decide_eq_true hlt⟩
  · simp

/-- The inner loop ends, at an orphan that is held. -/
theorem lastDependent_spec {height : UInt256 → Nat} {byPrev : List COrphanBlock} (hacyclic : Acyclic height byPrev)
    {it : COrphanBlock} (hit : it ∈ byPrev) {fuel : Nat}
    (hfuel : (byPrev.filter fun orphan => height it.hashBlock < height orphan.hashBlock).length ≤ fuel) :
    ∃ last, lastDependent byPrev it fuel = some last ∧ last ∈ byPrev := by
  have hnext : ∀ it it2 : COrphanBlock, byPrev.find? (fun it2 => it2.hashPrev = it.hashBlock) = some it2 →
      it2 ∈ byPrev ∧ height it.hashBlock < height it2.hashBlock := by
    intro it it2 hfind
    have hmem := List.mem_of_find?_eq_some hfind
    have hprev := List.find?_some hfind
    rw [decide_eq_true_iff] at hprev
    exact ⟨hmem, hprev ▸ hacyclic it2 hmem⟩
  induction fuel generalizing it with
  | zero =>
      rw [lastDependent]
      cases hfind : byPrev.find? fun it2 => it2.hashPrev = it.hashBlock with
      | none => exact ⟨it, rfl, hit⟩
      | some it2 =>
          obtain ⟨hmem, hlt⟩ := hnext it it2 hfind
          exact absurd (length_above_lt hmem hlt) (by omega)
  | succ fuel ih =>
      rw [lastDependent]
      cases hfind : byPrev.find? fun it2 => it2.hashPrev = it.hashBlock with
      | none => exact ⟨it, rfl, hit⟩
      | some it2 =>
          obtain ⟨hmem, hlt⟩ := hnext it it2 hfind
          exact ih hmem (Nat.lt_succ_iff.1 (Nat.lt_of_lt_of_le (length_above_lt hmem hlt) hfuel))

theorem evict_spec {height : UInt256 → Nat} (h : o.Valid blockHash)
    (hacyclic : Acyclic height o.mapOrphanBlocksByPrev) (hsize : 0 < o.nOrphanBlocksSize) (insecureRand : UInt32) :
    ∃ last o', o.evict insecureRand = some o' ∧ o'.Valid blockHash ∧
      o.mapOrphanBlocksByPrev.Perm (last :: o'.mapOrphanBlocksByPrev) ∧
      (o.HoldsStakes o.mapOrphanBlocksByPrev → o'.HoldsStakes o'.mapOrphanBlocksByPrev) := by
  have hlength : 0 < o.mapOrphanBlocksByPrev.length := by
    refine List.length_pos_iff.2 fun hempty => ?_
    rw [h.tracks.total_eq, hempty] at hsize
    cases hsize
  have hpos : insecureRand.toNat % o.mapOrphanBlocksByPrev.length < o.mapOrphanBlocksByPrev.length :=
    Nat.mod_lt _ hlength
  rw [evict]
  simp only [List.getElem?_eq_getElem hpos]
  obtain ⟨last, hlast, hmem⟩ := lastDependent_spec hacyclic (List.getElem_mem hpos) (List.length_filter_le _ _)
  have hperm := List.perm_cons_erase hmem
  simp only [hlast]
  exact ⟨last, _, rfl, (h.forget hperm).setByPrev _, hperm, fun hstakes => HoldsStakes.forget hstakes h hperm⟩

/-- The loop ends with the size within the limit. -/
theorem pruneFrom_spec {height : UInt256 → Nat} {nMaxOrphanBlocksSize i fuel : Nat} {insecureRand : Nat → UInt32}
    (h : o.Valid blockHash) (hacyclic : Acyclic height o.mapOrphanBlocksByPrev)
    (hfuel : o.mapOrphanBlocksByPrev.length ≤ fuel) :
    ∃ o', pruneFrom nMaxOrphanBlocksSize insecureRand i o fuel = some o' ∧ o'.Valid blockHash ∧
      o'.nOrphanBlocksSize ≤ nMaxOrphanBlocksSize ∧ o'.mapOrphanBlocksByPrev ⊆ o.mapOrphanBlocksByPrev ∧
      (o.HoldsStakes o.mapOrphanBlocksByPrev → o'.HoldsStakes o'.mapOrphanBlocksByPrev) := by
  induction fuel generalizing o i with
  | zero =>
      have hzero : o.nOrphanBlocksSize = 0 := by
        rw [h.tracks.total_eq, List.length_eq_zero_iff.1 (Nat.le_zero.1 hfuel)]
        rfl
      rw [pruneFrom, if_neg (by omega)]
      exact ⟨o, rfl, h, by omega, List.Subset.refl _, id⟩
  | succ fuel ih =>
      rw [pruneFrom]
      rcases Nat.lt_or_ge nMaxOrphanBlocksSize o.nOrphanBlocksSize with hlt | hle
      · rw [if_pos hlt]
        obtain ⟨last, o₁, hevict, hvalid, hperm, hstakes⟩ :=
          evict_spec h hacyclic (Nat.zero_lt_of_lt hlt) (insecureRand i)
        have hsub : o₁.mapOrphanBlocksByPrev ⊆ o.mapOrphanBlocksByPrev := fun orphan hmem =>
          hperm.mem_iff.2 (List.mem_cons_of_mem _ hmem)
        have hlength := hperm.length_eq
        rw [List.length_cons] at hlength
        obtain ⟨o', hprune, hvalid', hsize, hsub', hstakes'⟩ :=
          ih (i := i + 1) hvalid (fun orphan hmem => hacyclic orphan (hsub hmem)) (by omega)
        rw [hevict]
        exact ⟨o', hprune, hvalid', hsize, List.Subset.trans hsub' hsub, fun hs => hstakes' (hstakes hs)⟩
      · rw [if_neg (Nat.not_lt.2 hle)]
        exact ⟨o, rfl, h, hle, List.Subset.refl _, id⟩

/-! ## Acceptance -/

theorem acceptOrphans_spec (acceptBlock : CBlock → Bool) (vWorkQueue : List UInt256) {orphans : List COrphanBlock}
    (h : o.Holds blockHash items) (hperm : items.Perm (orphans ++ rest)) :
    ∃ vWorkQueue' o', acceptOrphans acceptBlock vWorkQueue o orphans = (vWorkQueue', o') ∧
      vWorkQueue'.length ≤ vWorkQueue.length + orphans.length ∧
      o'.mapOrphanBlocksByPrev = o.mapOrphanBlocksByPrev ∧ o'.Holds blockHash rest ∧
      (o.HoldsStakes items → o'.HoldsStakes rest) := by
  induction orphans generalizing o items vWorkQueue with
  | nil =>
      have hrest : o.Holds blockHash rest :=
        ⟨h.tracks.perm hperm.symm, fun orphan hmem => h.made orphan (hperm.mem_iff.2 hmem)⟩
      exact ⟨vWorkQueue, o, rfl, Nat.le_refl _, rfl, hrest, fun hstakes => hstakes.perm hperm.symm⟩
  | cons orphan orphans ih =>
      rw [acceptOrphans]
      obtain ⟨vWorkQueue', o', hloop, hlength, hbyPrev, hholds, hstakes⟩ :=
        ih (if acceptBlock orphan.vchBlock then vWorkQueue ++ [orphan.hashBlock] else vWorkQueue)
          (h.forget hperm) (List.Perm.refl _)
      refine ⟨vWorkQueue', o', hloop, ?_, hbyPrev, hholds, fun hs => hstakes (HoldsStakes.forget hs h hperm)⟩
      rw [List.length_cons]
      split at hlength
      · rw [List.length_append, List.length_singleton] at hlength
        omega
      · omega

/-- The loop over the work queue ends: each round takes one hash from it, and adds one for each orphan at most that
it takes from the pool. -/
theorem processQueue_spec (acceptBlock : CBlock → Bool) {fuel : Nat} (vWorkQueue : List UInt256)
    (h : o.Valid blockHash) (hfuel : o.mapOrphanBlocksByPrev.length + vWorkQueue.length ≤ fuel) :
    ∃ o', o.processQueue acceptBlock fuel vWorkQueue = some o' ∧ o'.Valid blockHash ∧
      o'.mapOrphanBlocksByPrev ⊆ o.mapOrphanBlocksByPrev ∧
      (o.HoldsStakes o.mapOrphanBlocksByPrev → o'.HoldsStakes o'.mapOrphanBlocksByPrev) := by
  induction fuel generalizing o vWorkQueue with
  | zero =>
      have hqueue : vWorkQueue = [] := List.length_eq_zero_iff.1 (by omega)
      rw [hqueue, processQueue]
      exact ⟨o, rfl, h, List.Subset.refl _, id⟩
  | succ fuel ih =>
      cases vWorkQueue with
      | nil =>
          rw [processQueue]
          exact ⟨o, rfl, h, List.Subset.refl _, id⟩
      | cons hashPrev vWorkQueue =>
          rw [processQueue]
          have hperm := List.filter_append_perm (fun orphan => orphan.hashPrev = hashPrev) o.mapOrphanBlocksByPrev
          obtain ⟨vWorkQueue', o₁, hloop, hlength, hbyPrev, hholds, hstakes⟩ :=
            acceptOrphans_spec acceptBlock vWorkQueue h hperm.symm
          have hleft : (o.mapOrphanBlocksByPrev.filter fun orphan => orphan.hashPrev ≠ hashPrev) =
              o.mapOrphanBlocksByPrev.filter fun orphan => !decide (orphan.hashPrev = hashPrev) :=
            List.filter_congr fun orphan _ => decide_not
          have htotal := hperm.length_eq
          rw [List.length_append] at htotal
          rw [List.length_cons] at hfuel
          simp only [hloop, hbyPrev, hleft]
          obtain ⟨o', hqueue, hvalid, hsub, hstakes'⟩ := ih vWorkQueue'
            (hholds.setByPrev _) (by dsimp only; omega)
          exact ⟨o', hqueue, hvalid, List.Subset.trans hsub (List.filter_subset_self _), fun hs => hstakes' (hstakes hs)⟩

end OrphanBlocks

end ProCurrency

/-!
## The orphan blocks in every run

The map, the multimap and the size agree, and an eviction ends within the limit. The stakes agree as long as no two
orphans have one stake: the set forgets a stake with the first of them that goes.
-/

namespace ProCurrency

namespace OrphanBlocks

variable {blockHash : CBlock → UInt256} {o o' : OrphanBlocks} {call : ProcessBlockCall}
  {height : UInt256 → Nat}

/-- The call adds its block to the orphans. -/
def takesIn (blockHash : CBlock → UInt256) (o : OrphanBlocks) (call : ProcessBlockCall) : Bool :=
  o.passesChecks blockHash call && !call.inBlockIndex call.block.hashPrevBlock && o.holdsBack blockHash call

/-- No stake is taken in that an orphan has already. -/
def FreshStake (blockHash : CBlock → UInt256) (o : OrphanBlocks) (call : ProcessBlockCall) : Prop :=
  o.takesIn blockHash call = true → call.block.isProofOfStake = true →
    call.block.getProofOfStake ∉ o.setStakeSeenOrphan

/-- The same of each call of a run. -/
def FreshStakes (blockHash : CBlock → UInt256) (o : OrphanBlocks) : List ProcessBlockCall → Prop
  | [] => True
  | call :: calls =>
      o.FreshStake blockHash call ∧ ∀ o', o.processBlock blockHash call = some o' → o'.FreshStakes blockHash calls

/-- The set of stakes has those of the proof-of-stake orphans. -/
def StakesExact (o : OrphanBlocks) : Prop :=
  ∀ stake, stake ∈ o.setStakeSeenOrphan ↔
    ∃ orphan ∈ o.mapOrphanBlocksByPrev, orphan.vchBlock.isProofOfStake = true ∧ orphan.stake = stake

theorem HoldsStakes.exact (h : o.HoldsStakes o.mapOrphanBlocksByPrev) : o.StakesExact := by
  intro stake
  rw [h.mem_iff]
  refine exists_congr fun orphan => and_congr_right fun _ => ?_
  rw [COrphanBlock.stake?]
  split
  · rename_i hpos
    rw [hpos, Option.some.injEq]
    simp
  · rename_i hpos
    simp [hpos]

/-! ## One call -/

theorem notHeld_of_passesChecks (h : o.passesChecks blockHash call = true) :
    o.mapOrphanBlocks (blockHash call.block) = none := by
  rw [passesChecks] at h
  split at h
  · cases h
  split at h
  · cases h
  · rename_i hheld
    exact Option.not_isSome_iff_eq_none.1 hheld

theorem pruneOrphanBlocks_spec (h : o.Valid blockHash) (hacyclic : Acyclic height o.mapOrphanBlocksByPrev)
    (nMaxOrphanBlocksSize : Nat) (insecureRand : Nat → UInt32) :
    ∃ o', o.pruneOrphanBlocks nMaxOrphanBlocksSize insecureRand = some o' ∧ o'.Valid blockHash ∧
      o'.nOrphanBlocksSize ≤ nMaxOrphanBlocksSize ∧ o'.mapOrphanBlocksByPrev ⊆ o.mapOrphanBlocksByPrev ∧
      (o.HoldsStakes o.mapOrphanBlocksByPrev → o'.HoldsStakes o'.mapOrphanBlocksByPrev) :=
  pruneFrom_spec h hacyclic (Nat.le_refl _)

theorem processBlock_spec (h : o.Valid blockHash) (hacyclic : Acyclic height o.mapOrphanBlocksByPrev)
    (hblock : height call.block.hashPrevBlock < height (blockHash call.block)) :
    ∃ o', o.processBlock blockHash call = some o' ∧ o'.Valid blockHash ∧
      Acyclic height o'.mapOrphanBlocksByPrev ∧
      (o.FreshStake blockHash call → o.HoldsStakes o.mapOrphanBlocksByPrev →
        o'.HoldsStakes o'.mapOrphanBlocksByPrev) := by
  rw [processBlock]
  have hsame : o.Valid blockHash ∧ Acyclic height o.mapOrphanBlocksByPrev ∧
      (o.FreshStake blockHash call → o.HoldsStakes o.mapOrphanBlocksByPrev →
        o.HoldsStakes o.mapOrphanBlocksByPrev) := ⟨h, hacyclic, fun _ hs => hs⟩
  rcases hpasses : o.passesChecks blockHash call with _ | _
  · exact ⟨o, rfl, hsame⟩
  rcases hprev : call.inBlockIndex call.block.hashPrevBlock with _ | _
  · rcases hholds : o.holdsBack blockHash call with _ | _
    · exact ⟨o, rfl, hsame⟩
    · obtain ⟨o₁, hprune, hvalid, _, hsub, hstakes⟩ :=
        pruneOrphanBlocks_spec h hacyclic call.nMaxOrphanBlocksSize call.insecureRand
      simp only [hprune, Bool.not_true, Bool.not_false, Bool.false_eq_true, if_false, if_true]
      have hnew : o₁.mapOrphanBlocks (blockHash call.block) = none := by
        cases hheld : o₁.mapOrphanBlocks (blockHash call.block) with
        | none => rfl
        | some orphan =>
            obtain ⟨hmem, hhash⟩ := (hvalid.tracks.byKey_iff _ _).1 hheld
            have hold := (h.tracks.byKey_iff _ _).2 ⟨hsub hmem, hhash⟩
            rw [notHeld_of_passesChecks hpasses] at hold
            cases hold
      refine ⟨_, rfl, hvalid.addOrphanBlock hnew, fun orphan hmem => ?_, fun hfresh hs => ?_⟩
      · rcases List.mem_cons.1 ((insertByPrev_perm _ _).mem_iff.1 hmem) with rfl | hmem
        · exact hblock
        · exact hacyclic orphan (hsub hmem)
      · refine (hstakes hs).addOrphanBlock fun hpos hmem => ?_
        obtain ⟨orphan, horphan, htag⟩ := ((hstakes hs).mem_iff _).1 hmem
        refine hfresh ?_ hpos ((hs.mem_iff _).2 ⟨orphan, hsub horphan, htag⟩)
        rw [takesIn, hpasses, hprev, hholds]
        rfl
  · rcases haccept : call.acceptBlock call.block with _ | _
    · exact ⟨o, rfl, hsame⟩
    · simp only [Bool.not_true, Bool.false_eq_true, if_false]
      obtain ⟨o', hqueue, hvalid, hsub, hstakes⟩ := processQueue_spec call.acceptBlock
        [blockHash call.block] h (Nat.le_refl _)
      exact ⟨o', hqueue, hvalid, fun orphan hmem => hacyclic orphan (hsub hmem), fun _ hs => hstakes hs⟩

/-! ## Runs -/

theorem run_spec {calls : List ProcessBlockCall} (h : o.Valid blockHash)
    (hacyclic : Acyclic height o.mapOrphanBlocksByPrev)
    (hheight : ∀ call ∈ calls, height call.block.hashPrevBlock < height (blockHash call.block)) :
    ∃ o', o.run blockHash calls = some o' ∧ o'.Valid blockHash ∧ Acyclic height o'.mapOrphanBlocksByPrev ∧
      (o.FreshStakes blockHash calls → o.HoldsStakes o.mapOrphanBlocksByPrev →
        o'.HoldsStakes o'.mapOrphanBlocksByPrev) := by
  induction calls generalizing o with
  | nil => exact ⟨o, rfl, h, hacyclic, fun _ hs => hs⟩
  | cons call calls ih =>
      obtain ⟨o₁, hstep, hvalid, hacyclic₁, hstakes⟩ := processBlock_spec h hacyclic (hheight call List.mem_cons_self)
      obtain ⟨o', hrun, hvalid', hacyclic', hstakes'⟩ :=
        ih hvalid hacyclic₁ fun call hmem => hheight call (List.mem_cons_of_mem _ hmem)
      rw [run, hstep]
      exact ⟨o', hrun, hvalid', hacyclic', fun hfresh hs => hstakes' (hfresh.2 o₁ hstep) (hstakes hfresh.1 hs)⟩

/-- Every run ends with the map, the multimap and the size in agreement, and an eviction would end within its limit.
The stakes agree where no stake is taken in twice. -/
theorem run_consistent {calls : List ProcessBlockCall} (height : UInt256 → Nat)
    (hheight : ∀ call ∈ calls, height call.block.hashPrevBlock < height (blockHash call.block)) :
    ∃ o, empty.run blockHash calls = some o ∧ o.Valid blockHash ∧
      (∀ nMaxOrphanBlocksSize insecureRand, ∃ o', o.pruneOrphanBlocks nMaxOrphanBlocksSize insecureRand = some o' ∧
        o'.nOrphanBlocksSize ≤ nMaxOrphanBlocksSize ∧ o'.Valid blockHash ∧
        (empty.FreshStakes blockHash calls → o'.StakesExact)) ∧
      (empty.FreshStakes blockHash calls → o.StakesExact) := by
  obtain ⟨o, hrun, hvalid, hacyclic, hstakes⟩ :=
    run_spec (Valid.empty blockHash) (fun _ hmem => (nomatch hmem)) hheight
  have hstakes₀ := fun hfresh => hstakes hfresh (.empty COrphanBlock.stake?)
  refine ⟨o, hrun, hvalid, fun nMaxOrphanBlocksSize insecureRand => ?_, fun hfresh => (hstakes₀ hfresh).exact⟩
  obtain ⟨o', hprune, hvalid', hsize, _, hstakes'⟩ :=
    pruneOrphanBlocks_spec hvalid hacyclic nMaxOrphanBlocksSize insecureRand
  exact ⟨o', hprune, hsize, hvalid', fun hfresh => (hstakes' (hstakes₀ hfresh)).exact⟩

end OrphanBlocks

/-! ## Two orphans with one stake -/

/-- A block, told by its nonce, that stakes one output always. -/
def stakedBlock (nNonce : UInt32) (hashPrevBlock : UInt256) : CBlock where
  nVersion := 6
  hashPrevBlock := hashPrevBlock
  hashMerkleRoot := 0
  nTime := 1000
  nBits := 0x1e0fffff
  nNonce := nNonce
  vtx :=
    [{ nVersion := 1, nTime := 1000, vin := [{ prevout := .null, scriptSig := [], nSequence := 0 }]
       vout := [{ nValue := 0, scriptPubKey := [] }], nLockTime := 0 },
     { nVersion := 1, nTime := 1000, vin := [{ prevout := { hash := 7, n := 0 }, scriptSig := [], nSequence := 0 }]
       vout := [{ nValue := 0, scriptPubKey := [] }, { nValue := 1, scriptPubKey := [] }], nLockTime := 0 }]

def nonceHash (block : CBlock) : UInt256 := BitVec.ofNat 256 block.nNonce.toNat

/-- A call for a block that comes from a node, where the index has the block 1. -/
def callFor (block : CBlock) : ProcessBlockCall where
  pfrom := true
  block := block
  fReindexing := false
  inBlockIndex hash := hash = 1
  stakeSeen _ := false
  hashBestChain := 1
  nCheckpointTime := 0
  checkBlock _ := true
  acceptBlock _ := true
  nMaxOrphanBlocksSize := 50 * 2 ^ 20
  insecureRand _ := 0

/-- An orphan, an orphan whose parent is missing, that parent with the stake of the first, and the parent of the
first. -/
def sharedStakeCalls : List ProcessBlockCall :=
  [callFor (stakedBlock 3 2), callFor { stakedBlock 6 5 with vtx := [] }, callFor (stakedBlock 5 0),
    callFor { stakedBlock 2 1 with vtx := [] }]

theorem run_consistent_sharedStakeCalls :
    ∃ o, OrphanBlocks.empty.run nonceHash sharedStakeCalls = some o ∧ o.Valid nonceHash ∧
      (∀ nMaxOrphanBlocksSize insecureRand, ∃ o', o.pruneOrphanBlocks nMaxOrphanBlocksSize insecureRand = some o' ∧
        o'.nOrphanBlocksSize ≤ nMaxOrphanBlocksSize ∧ o'.Valid nonceHash ∧
        (OrphanBlocks.empty.FreshStakes nonceHash sharedStakeCalls → o'.StakesExact)) ∧
      (OrphanBlocks.empty.FreshStakes nonceHash sharedStakeCalls → o.StakesExact) :=
  OrphanBlocks.run_consistent BitVec.toNat (by decide)

/-- The first orphan goes, and takes the stake of the third with it. -/
theorem sharedStakeCalls_not_stakesExact :
    ∃ o, OrphanBlocks.empty.run nonceHash sharedStakeCalls = some o ∧ ¬o.StakesExact := by
  have hrun : ((OrphanBlocks.empty.run nonceHash sharedStakeCalls).any fun o =>
      o.mapOrphanBlocksByPrev.any fun orphan =>
        orphan.vchBlock.isProofOfStake && decide (orphan.stake ∉ o.setStakeSeenOrphan)) = true := by decide +kernel
  obtain ⟨o, ho, hany⟩ := (Option.any_eq_true _ _).1 hrun
  obtain ⟨orphan, horphan, hstake⟩ := List.any_eq_true.1 hany
  rw [Bool.and_eq_true, decide_eq_true_iff] at hstake
  exact ⟨o, ho, fun hexact => hstake.2 ((hexact _).2 ⟨orphan, horphan, hstake.1, rfl⟩)⟩

end ProCurrency

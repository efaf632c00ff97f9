import ProCurrency.Index.Lemmas.Linked
import ProCurrency.Index.SyncCheckpoint
import ProCurrency.Lib.EventRun

/-!
# What the rolling checkpoint bounds

`CheckSync` compares heights: every block that is accepted stands above the checkpoint of its time. A reorganisation may
leave the best chain below the checkpoint all the same, on a branch whose block there was accepted while the best chain
was still short.
-/

namespace ProCurrency

open IndexNode ParentTree

/-! ## The checkpoint -/

theorem searchBack_suffix (nBestHeight : Int) (pindex : List CBlockIndex) : searchBack nBestHeight pindex <:+ pindex := by
  induction pindex with
  | nil => exact List.suffix_refl []
  | cons entry tail ih =>
      cases tail with
      | nil => exact List.suffix_refl _
      | cons pprev rest =>
          rw [searchBack]
          split
          · exact ih.trans (List.suffix_cons entry _)
          · exact List.suffix_refl _

/-- The loop ends at the span below the height, or at the genesis block. -/
theorem searchBack_height {nBestHeight : Int} {pindex : CBlockIndex} {pprev : List CBlockIndex}
    (hheight : ∀ entry rest, entry :: rest <:+ pindex :: pprev → entry.nHeight = rest.length)
    (habove : nBestHeight - nCheckpointSpan ≤ pindex.nHeight) :
    ∃ sync rest, searchBack nBestHeight (pindex :: pprev) = sync :: rest ∧
      sync.nHeight = max 0 (nBestHeight - nCheckpointSpan) := by
  induction pprev generalizing pindex with
  | nil =>
      refine ⟨pindex, [], rfl, ?_⟩
      have hzero := hheight pindex [] (List.suffix_refl _)
      rw [List.length_nil] at hzero
      omega
  | cons p rest ih =>
      have hfirst := hheight pindex (p :: rest) (List.suffix_refl _)
      have hnext := hheight p rest (List.suffix_cons pindex _)
      rw [List.length_cons] at hfirst
      rw [searchBack]
      split
      · rename_i hlow
        refine ih (fun entry rest' hsuffix => hheight entry rest' (hsuffix.trans (List.suffix_cons pindex _))) ?_
        omega
      · exact ⟨pindex, p :: rest, rfl, by omega⟩

/-- The checkpoint is the block of the best chain at the span below the best height, or the genesis block. -/
theorem autoSelectSyncCheckpoint_height {st : IndexNode} (hlinked : Linked st) (hbest : OnBest st) :
    ∃ sync rest, autoSelectSyncCheckpoint st.mem.pindexBest = some (sync :: rest) ∧
      sync :: rest <:+ st.mem.pindexBest ∧ sync.nHeight = max 0 (st.mem.nBestHeight - nCheckpointSpan) := by
  obtain ⟨best, pprev, heq, -⟩ := hlinked.exists_cons hbest.best
  have hheight : st.mem.nBestHeight = best.nHeight := (hbest.nBestHeight best (by rw [heq]; rfl)).1
  have hmap := hbest.best
  rw [heq] at hmap ⊢
  obtain ⟨sync, rest, hsync, hsyncHeight⟩ := searchBack_height
    (fun entry rest hsuffix => hlinked.height hmap hsuffix) (Int.sub_le_self best.nHeight (by decide))
  refine ⟨sync, rest, congrArg some hsync, ?_, ?_⟩
  · exact hsync ▸ searchBack_suffix best.nHeight (best :: pprev)
  · rw [hheight]
    exact hsyncHeight

/-! ## Accepted blocks -/

/-- The block was accepted in the run while the best height was less than the span above it. -/
def AcceptedWithin (env : ChainEnv) (node₀ : IndexNode) (calls : List AcceptCall) (pindex : CBlockIndex) : Prop :=
  ∃ before call after node₁ node₂ ok, calls = before ++ call :: after ∧
    EventRun.run (AcceptCall.step env) before node₀ = some node₁ ∧ call.step env node₁ = some (node₂, ok) ∧
    node₁.mapBlockIndex pindex.hashBlock = none ∧ node₂.mapBlockIndex pindex.hashBlock ≠ none ∧
    node₁.mem.nBestHeight < pindex.nHeight + nCheckpointSpan

section Step

variable {env : ChainEnv} {call : AcceptCall} {st st' : IndexNode} {ok : Bool}

/-- A call changes nothing, or it adds an entry that stands above the checkpoint. -/
theorem step_spec (h : call.step env st = some (st', ok)) :
    st' = st ∧ (ok = true → call.outcomes.fReindexing = true) ∨ ∃ pindexNew pindexPrev rest sync syncRest,
      Adds env call.outcomes.toBlockOutcomes call.block st pindexNew ok st' ∧
      st.mapBlockIndex call.block.hashPrevBlock = some (pindexPrev :: rest) ∧
      autoSelectSyncCheckpoint st.mem.pindexBest = some (sync :: syncRest) ∧
      sync.nHeight < pindexPrev.nHeight + 1 := by
  rw [AcceptCall.step] at h
  cases haccept : st.acceptBlock env call.outcomes call.block with
  | none => rw [haccept] at h; cases h
  | some result =>
      rw [haccept] at h
      cases h
      rw [acceptBlock] at haccept
      split at haccept
      · cases haccept
        exact .inl ⟨rfl, Bool.noConfusion⟩
      · cases hprev : st.mapBlockIndex call.block.hashPrevBlock with
        | none =>
            rw [hprev] at haccept
            cases haccept
            exact .inl ⟨rfl, Bool.noConfusion⟩
        | some pindex =>
            rw [hprev] at haccept
            cases pindex with
            | nil => cases haccept
            | cons pindexPrev rest =>
                dsimp only at haccept
                split at haccept
                · cases haccept
                  exact .inl ⟨rfl, Bool.noConfusion⟩
                · cases hsync : checkSync true st.mem.pindexBest [] (pindexPrev.nHeight + 1) with
                  | none => rw [hsync] at haccept; cases haccept
                  | some fSync =>
                      rw [hsync] at haccept
                      cases fSync with
                      | false =>
                          cases haccept
                          exact .inl ⟨rfl, Bool.noConfusion⟩
                      | true =>
                          dsimp only at haccept
                          split at haccept
                          · rename_i hreindexing
                            cases haccept
                            exact .inl ⟨rfl, fun _ => hreindexing⟩
                          · split at haccept
                            · cases haccept
                              exact .inl ⟨rfl, Bool.noConfusion⟩
                            · rcases addToBlockIndex_spec haccept with ⟨hfalse, hsame⟩ | ⟨pindexNew, hadds⟩
                              · exact .inl ⟨hsame, fun hok => Bool.noConfusion (hfalse.symm.trans hok)⟩
                              · rw [checkSync, if_pos rfl] at hsync
                                split at hsync
                                · rename_i sync syncRest hselect
                                  refine .inr ⟨pindexNew, pindexPrev, rest, sync, syncRest, hadds, rfl, hselect, ?_⟩
                                  exact of_decide_eq_true (Option.some.inj hsync)
                                · cases hsync

/-- What every node of a run is. -/
structure Running (env : ChainEnv) (st : IndexNode) : Prop where
  linked : Linked st
  best : OnBest st
  root : ∀ hash pindex, st.mapBlockIndex hash = some [pindex] → hash = env.hashGenesisBlock

theorem Running.step (hst : Running env st) (h : call.step env st = some (st', ok)) : Running env st' := by
  rcases step_spec h with ⟨rfl, -⟩ | ⟨pindexNew, pindexPrev, rest, _, _, hadds, hprev, -, -⟩
  · exact hst
  · refine ⟨hst.linked.adds hadds, hst.best.adds hadds, fun hash pindex hmap => ?_⟩
    rw [hadds.mapBlockIndex, Function.update_apply] at hmap
    split at hmap
    · obtain ⟨stakeModifier, -, hnew⟩ := hadds.newEntry
      rw [hnew, prevEntry, hprev] at hmap
      cases hmap
    · exact hst.root hash pindex hmap

end Step

/-! ## Runs -/

section Run

variable {env : IndexEnv} {outcomes : BlockOutcomes} {node₀ node node' : IndexNode} {calls : List AcceptCall}

theorem loadGenesis_spec (h : loadGenesis env outcomes = some node₀) :
    ∃ genesis, Adds env.toChainEnv outcomes env.genesisBlock .empty [genesis] true node₀ ∧
      BestIs env.toChainEnv env.genesisBlock [genesis] .empty node₀ := by
  rw [loadGenesis] at h
  cases hadd : IndexNode.empty.addToBlockIndex env.toChainEnv outcomes env.genesisBlock with
  | none => rw [hadd] at h; cases h
  | some result =>
      obtain ⟨ok, st⟩ := result
      rw [hadd] at h
      cases ok with
      | false => cases h
      | true =>
          cases h
          rcases addToBlockIndex_spec hadd with ⟨hfalse, -⟩ | ⟨pindexNew, hadds⟩
          · cases hfalse
          · obtain ⟨stakeModifier, -, hnew⟩ := hadds.newEntry
            have hprev : IndexNode.empty.prevEntry env.genesisBlock = [] := rfl
            rw [hprev] at hnew
            subst hnew
            refine ⟨_, hadds, ?_⟩
            rcases hadds.best with ⟨-, hworse⟩ | ⟨hbest, -⟩
            · refine absurd ?_ (hworse rfl _ rfl)
              change 0 < 0 + getBlockTrust env.genesisBlock.nBits
              simpa using env.trust_genesis
            · exact hbest

theorem Running.start (h : loadGenesis env outcomes = some node₀) : Running env.toChainEnv node₀ := by
  obtain ⟨genesis, hadds, hbest⟩ := loadGenesis_spec h
  have hempty : Linked IndexNode.empty :=
    ⟨⟨⟨fun _ => none, fun _ _ => nofun, fun _ _ _ _ => nofun⟩, rfl⟩, fun _ _ _ => nofun⟩
  refine ⟨hempty.adds hadds, ⟨?_, ?_⟩, fun hash pindex hmap => ?_⟩
  · rw [hbest.pindexBest]
    exact hadds.mapBlockIndex_new
  · rw [hbest.pindexBest]
    exact hbest.best
  · rw [hadds.mapBlockIndex, Function.update_apply] at hmap
    split at hmap
    · rename_i hhash
      exact hhash.trans env.hash_genesis
    · cases hmap

theorem Running.run (h : loadGenesis env outcomes = some node₀)
    (hrun : EventRun.run (AcceptCall.step env.toChainEnv) calls node₀ = some node) : Running env.toChainEnv node :=
  EventRun.run_keeps (fun _ _ _ _ hst hstep => hst.step hstep) (Running.start h) hrun

/-- Every block but the genesis block was accepted within the span. -/
theorem acceptedWithin (h : loadGenesis env outcomes = some node₀)
    (hrun : EventRun.run (AcceptCall.step env.toChainEnv) calls node₀ = some node) {pindex : CBlockIndex}
    {pprev : List CBlockIndex} (hmap : node.mapBlockIndex pindex.hashBlock = some (pindex :: pprev))
    (hgenesis : pindex.hashBlock ≠ env.hashGenesisBlock) :
    AcceptedWithin env.toChainEnv node₀ calls pindex := by
  have hstart : ¬ node₀.mapBlockIndex pindex.hashBlock = some (pindex :: pprev) := by
    obtain ⟨genesis, hadds, -⟩ := loadGenesis_spec h
    rw [hadds.mapBlockIndex, Function.update_of_ne]
    · exact nofun
    · rw [env.hash_genesis]
      exact hgenesis
  obtain ⟨before, call, after, node₁, node₂, ok, hcalls, hbefore, hstep, hnot, hmap₂⟩ :=
    @EventRun.run_becomes _ _ _ _ (fun st => st.mapBlockIndex pindex.hashBlock = some (pindex :: pprev)) _ _ _ hstart hmap
      hrun
  have hrunning := Running.run h hbefore
  rcases step_spec hstep with ⟨rfl, -⟩ | ⟨pindexNew, pindexPrev, rest, sync, syncRest, hadds, hprev, hselect, hsync⟩
  · exact absurd hmap₂ hnot
  · have hnew : pindex.hashBlock = env.blockHash call.block ∧ pindexNew = pindex :: pprev := by
      rw [hadds.mapBlockIndex, Function.update_apply] at hmap₂
      split at hmap₂
      · rename_i hhash
        exact ⟨hhash, Option.some.inj hmap₂⟩
      · exact absurd hmap₂ hnot
    refine ⟨before, call, after, node₁, node₂, ok, hcalls, hbefore, hstep, ?_, ?_, ?_⟩
    · rw [hnew.1]
      exact hadds.fresh
    · rw [hmap₂]
      exact Option.some_ne_none _
    · obtain ⟨sync', rest', hselect', -, hheight⟩ :=
        autoSelectSyncCheckpoint_height hrunning.linked hrunning.best
      obtain ⟨stakeModifier, -, heq⟩ := hadds.newEntry
      rw [hselect] at hselect'
      cases hselect'
      rw [hnew.2, prevEntry, hprev] at heq
      have hpindex : pindex.nHeight = pindexPrev.nHeight + 1 := by
        rw [(List.cons.inj heq).1]
        rfl
      omega

/-- The block at height 0 is the genesis block. -/
theorem Running.eq_genesis (hnode : Running env.toChainEnv node) {pindex : CBlockIndex} {pprev : List CBlockIndex}
    (hmap : node.mapBlockIndex pindex.hashBlock = some (pindex :: pprev)) :
    pindex.hashBlock = env.hashGenesisBlock ↔ pindex.nHeight = 0 := by
  obtain ⟨tree, htree⟩ := hnode.linked.tree
  have hheight := (hnode.linked.entry _ _ _ hmap).1
  constructor
  · intro hgenesis
    obtain ⟨root, rest, hsuffix, hroot⟩ := hnode.linked.exists_height hmap (Nat.succ_pos pprev.length)
    have hrest := hnode.linked.height hmap hsuffix
    have hmap' := hnode.linked.suffix hmap hsuffix
    have hnil : rest = [] := List.length_eq_zero_iff.mp (by omega)
    subst hnil
    rw [hgenesis, ← hnode.root _ _ hmap', hmap'] at hmap
    cases hmap
    exact hroot
  · intro hzero
    have hnil : pprev = [] := List.length_eq_zero_iff.mp (by omega)
    subst hnil
    exact hnode.root _ _ hmap

/-- Two blocks at height 0 are one. -/
theorem Running.genesis_unique (hnode : Running env.toChainEnv node) {pindex pindex' : CBlockIndex}
    {pprev pprev' : List CBlockIndex} (hmap : node.mapBlockIndex pindex.hashBlock = some (pindex :: pprev))
    (hmap' : node.mapBlockIndex pindex'.hashBlock = some (pindex' :: pprev'))
    (hheight : pindex.nHeight = pindex'.nHeight) (hgenesis : pindex'.hashBlock = env.hashGenesisBlock) :
    pindex :: pprev = pindex' :: pprev' := by
  have hzero := hheight.trans ((hnode.eq_genesis hmap').1 hgenesis)
  rw [hgenesis, ← (hnode.eq_genesis hmap).2 hzero, hmap] at hmap'
  exact Option.some.inj hmap'

theorem Running.mapBlockIndex_of_best (hnode : Running env.toChainEnv node) {pindex : CBlockIndex}
    {pprev : List CBlockIndex} (hsuffix : pindex :: pprev <:+ node.mem.pindexBest) :
    node.mapBlockIndex pindex.hashBlock = some (pindex :: pprev) :=
  hnode.linked.suffix hnode.best.best hsuffix

/-- A best chain that leaves the last one at the checkpoint or below it has another block there, which was accepted
within the span. -/
theorem disconnected_within (h : loadGenesis env outcomes = some node₀)
    (hrun : EventRun.run (AcceptCall.step env.toChainEnv) calls node₀ = some node) {call : AcceptCall} {ok : Bool}
    (hstep : call.step env.toChainEnv node = some (node', ok)) {pindex : CBlockIndex} {pprev : List CBlockIndex}
    (hbest : pindex :: pprev <:+ node.mem.pindexBest)
    (hdeep : pindex.nHeight + nCheckpointSpan ≤ node.mem.nBestHeight)
    (hgone : ¬ pindex :: pprev <:+ node'.mem.pindexBest) :
    ∃ other rest, other :: rest <:+ node'.mem.pindexBest ∧ other.nHeight = pindex.nHeight ∧
      AcceptedWithin env.toChainEnv node₀ calls other := by
  have hnode := Running.run h hrun
  have hmap := hnode.mapBlockIndex_of_best hbest
  rcases step_spec hstep with ⟨rfl, -⟩ | ⟨pindexNew, pindexPrev, rest, sync, syncRest, hadds, hprev, hselect, hsync⟩
  · exact absurd hbest hgone
  · rcases hadds.best with ⟨⟨pnext, hmem⟩, -⟩ | ⟨hnew, -⟩
    · rw [hmem] at hgone
      exact absurd hbest hgone
    · obtain ⟨sync', rest', hselect', -, hheight⟩ := autoSelectSyncCheckpoint_height hnode.linked hnode.best
      rw [hselect] at hselect'
      cases hselect'
      obtain ⟨stakeModifier, -, heq⟩ := hadds.newEntry
      rw [prevEntry, hprev] at heq
      obtain ⟨p, prest, hcons, hhash⟩ := hnode.linked.exists_cons hprev
      cases hcons
      have hprevHeight := (hnode.linked.entry _ _ _ hprev).1
      have hpindex := hnode.linked.height hmap (List.suffix_refl _)
      obtain ⟨other, otherRest, hother, hotherHeight⟩ :=
        @Linked.exists_height _ _ hnode.linked _ hprev pprev.length (by rw [List.length_cons]; omega)
      have hotherMap := hnode.linked.suffix hprev hother
      have hotherBest : other :: otherRest <:+ node'.mem.pindexBest := by
        rw [hnew.pindexBest, heq]
        exact hother.trans (List.suffix_cons _ _)
      refine ⟨other, otherRest, hotherBest, hotherHeight.trans hpindex.symm,
        acceptedWithin h hrun hotherMap fun hgenesis => hgone ?_⟩
      rw [hnode.genesis_unique hmap hotherMap (hpindex.trans hotherHeight.symm) hgenesis]
      exact hotherBest

/-- No entry goes. -/
theorem run_mapBlockIndex {hash : UInt256} {pindex : List CBlockIndex}
    (hrun : EventRun.run (AcceptCall.step env.toChainEnv) calls node = some node')
    (hmap : node.mapBlockIndex hash = some pindex) : node'.mapBlockIndex hash = some pindex := by
  refine @EventRun.run_keeps _ _ _ _ (fun st => st.mapBlockIndex hash = some pindex) ?_ _ _ _ hmap hrun
  intro st call st' ok hst hstep
  rcases step_spec hstep with ⟨rfl, -⟩ | ⟨_, _, _, _, _, hadds, -, -, -⟩
  · exact hst
  · exact hadds.mapBlockIndex_old hst

/-- A new entry stands above the checkpoint. -/
theorem accepted_above {call : AcceptCall} {ok : Bool} {sync : CBlockIndex} {rest : List CBlockIndex}
    (hselect : autoSelectSyncCheckpoint node.mem.pindexBest = some (sync :: rest))
    (hstep : call.step env.toChainEnv node = some (node', ok)) {pindex : CBlockIndex} {pprev : List CBlockIndex}
    (hfresh : node.mapBlockIndex pindex.hashBlock = none)
    (hmap : node'.mapBlockIndex pindex.hashBlock = some (pindex :: pprev)) : sync.nHeight < pindex.nHeight := by
  rcases step_spec hstep with ⟨rfl, -⟩ | ⟨pindexNew, pindexPrev, _, sync', _, hadds, hprev, hselect', hsync⟩
  · rw [hfresh] at hmap
    cases hmap
  · rw [hselect] at hselect'
    cases hselect'
    obtain ⟨stakeModifier, -, heq⟩ := hadds.newEntry
    rw [prevEntry, hprev] at heq
    rw [hadds.mapBlockIndex, Function.update_apply] at hmap
    split at hmap
    · rw [heq] at hmap
      cases hmap
      exact hsync
    · rw [hfresh] at hmap
      cases hmap

/-- Every block that is accepted stands above the block of the best chain at the span below the best height. A best-chain
change that leaves the best chain there or below goes to a branch whose block at that height had been accepted while the
best height was less than the span above it, and so has the best chain at the height of every earlier checkpoint that is
not on it any more. -/
theorem rollingCheckpoint_bounds (env : IndexEnv) (outcomes : BlockOutcomes) (calls : List AcceptCall)
    (node₀ node : IndexNode) (h : loadGenesis env outcomes = some node₀)
    (hrun : EventRun.run (AcceptCall.step env.toChainEnv) calls node₀ = some node) :
    (∃ sync rest, autoSelectSyncCheckpoint node.mem.pindexBest = some (sync :: rest) ∧
      sync :: rest <:+ node.mem.pindexBest ∧ sync.nHeight = max 0 (node.mem.nBestHeight - nCheckpointSpan) ∧
      ∀ call node' ok pindex pprev, AcceptCall.step env.toChainEnv call node = some (node', ok) →
        node.mapBlockIndex pindex.hashBlock = none → node'.mapBlockIndex pindex.hashBlock = some (pindex :: pprev) →
        sync.nHeight < pindex.nHeight) ∧
    (∀ call node' ok pindex pprev, AcceptCall.step env.toChainEnv call node = some (node', ok) →
      pindex :: pprev <:+ node.mem.pindexBest → pindex.nHeight + nCheckpointSpan ≤ node.mem.nBestHeight →
      ¬ pindex :: pprev <:+ node'.mem.pindexBest →
      ∃ other rest, other :: rest <:+ node'.mem.pindexBest ∧ other.nHeight = pindex.nHeight ∧
        AcceptedWithin env.toChainEnv node₀ calls other) ∧
    ∀ before after node₁ sync rest, calls = before ++ after →
      EventRun.run (AcceptCall.step env.toChainEnv) before node₀ = some node₁ →
      autoSelectSyncCheckpoint node₁.mem.pindexBest = some (sync :: rest) → ¬ sync :: rest <:+ node.mem.pindexBest →
      ∀ other otherRest, other :: otherRest <:+ node.mem.pindexBest → other.nHeight = sync.nHeight →
        AcceptedWithin env.toChainEnv node₀ calls other := by
  have hnode := Running.run h hrun
  refine ⟨?_, ?_, ?_⟩
  · obtain ⟨sync, rest, hselect, hsuffix, hheight⟩ := autoSelectSyncCheckpoint_height hnode.linked hnode.best
    refine ⟨sync, rest, hselect, hsuffix, hheight, ?_⟩
    intro call node' ok pindex pprev hstep hfresh hmap
    exact accepted_above hselect hstep hfresh hmap
  · intro call node' ok pindex pprev hstep hbest hdeep hgone
    exact disconnected_within h hrun hstep hbest hdeep hgone
  · rintro before after node₁ sync rest rfl hbefore hselect hgone other otherRest hother hheight
    have hnode₁ := Running.run h hbefore
    have hafter := (EventRun.run_append hbefore).symm.trans hrun
    obtain ⟨sync', rest', hselect', hsuffix, -⟩ := autoSelectSyncCheckpoint_height hnode₁.linked hnode₁.best
    rw [hselect] at hselect'
    cases hselect'
    have hmap := run_mapBlockIndex hafter (hnode₁.mapBlockIndex_of_best hsuffix)
    have hotherMap := hnode.mapBlockIndex_of_best hother
    refine acceptedWithin h hrun hotherMap fun hgenesis => hgone ?_
    rw [hnode.genesis_unique hmap hotherMap hheight.symm hgenesis]
    exact hother

end Run

/-! ## Two branches side by side -/

/-- The nonce of the block at a height of the main branch or of the side branch, over one genesis block. -/
def branchNonce (fSide : Bool) (k : Nat) : Nat := if k = 0 then 0 else 2 * k + fSide.toNat

def branchHash (fSide : Bool) (k : Nat) : UInt256 := BitVec.ofNat 256 (branchNonce fSide k + 1)

def branchBlock (fSide : Bool) (k : Nat) : CBlock where
  nVersion := 7
  hashPrevBlock := if k = 0 then 0 else branchHash fSide (k - 1)
  hashMerkleRoot := 0
  nTime := 0
  nBits := 0x207fffff
  nNonce := UInt32.ofNat (branchNonce fSide k)
  vtx := []

/-- The hash of a block is its nonce and one. -/
def branchEnv : IndexEnv where
  hashGenesisBlock := 1
  blockHash block := BitVec.ofNat 256 (block.nNonce.toNat + 1)
  genesisBlock := branchBlock false 0
  hash_genesis := rfl
  trust_genesis := by decide

/-- A block is stored at its nonce, and nothing fails. -/
def branchOutcomes (nNonce : Nat) : AcceptOutcomes where
  chain :=
    { readBlock := fun _ nBlockPos => some { branchBlock false 0 with nNonce := nBlockPos }
      connects := fun _ _ => true
      disconnects := fun _ _ => true
      batchWrites := fun _ => []
      diskWrites := fun _ => []
      commitFails := fun _ => false
      diskWrites_other := Outcomes.no_diskWrites }
  supply _ := {}
  nFile := 0
  nBlockPos := UInt32.ofNat nNonce
  hashProof := 0
  nextStakeModifier := some (0, false)
  bnStakeModifierV2 := 0
  fIndexCommits := true
  fChecked := true
  fReindexing := false
  fWritten := true

def branchCall (fSide : Bool) (k : Nat) : AcceptCall where
  block := branchBlock fSide k
  outcomes := branchOutcomes (branchNonce fSide k)

/-- The entries of a branch, from a height back. -/
def branch (fSide : Bool) : Nat → List CBlockIndex
  | 0 => [newEntry branchEnv.toChainEnv (branchOutcomes 0).toBlockOutcomes (branchBlock false 0) (0, false) []]
  | k + 1 =>
      newEntry branchEnv.toChainEnv (branchOutcomes (branchNonce fSide (k + 1))).toBlockOutcomes
        (branchBlock fSide (k + 1)) (0, false) (branch fSide k) :: branch fSide k

theorem branchNonce_toNat {fSide : Bool} {k : Nat} (hk : k ≤ 1000) :
    (UInt32.ofNat (branchNonce fSide k)).toNat = branchNonce fSide k := by
  rw [UInt32.toNat_ofNat', Nat.mod_eq_of_lt]
  have hside : fSide.toNat ≤ 1 := Bool.toNat_le fSide
  rw [branchNonce]
  split
  · decide
  · omega

theorem blockHash_branchBlock {fSide : Bool} {k : Nat} (hk : k ≤ 1000) :
    branchEnv.blockHash (branchBlock fSide k) = branchHash fSide k :=
  congrArg (fun n => BitVec.ofNat 256 (n + 1)) (branchNonce_toNat hk)

/-- The entry at a height of a branch. -/
theorem branch_head (fSide : Bool) {k : Nat} (hk : k ≤ 1000) :
    ∃ pindex pprev, branch fSide k = pindex :: pprev ∧ pindex.hashBlock = branchHash fSide k ∧ pindex.nHeight = k ∧
      pindex.nChainTrust = BitVec.ofNat 256 (2 * (k + 1)) ∧ pindex.nBlockPos = UInt32.ofNat (branchNonce fSide k) := by
  induction k with
  | zero => exact ⟨_, [], rfl, rfl, rfl, rfl, rfl⟩
  | succ k ih =>
      obtain ⟨pindex, pprev, hbranch, -, hheight, htrust, -⟩ := ih (Nat.le_of_succ_le hk)
      refine ⟨_, _, rfl, blockHash_branchBlock hk, ?_, ?_, rfl⟩
      · rw [hbranch, newEntry]
        dsimp only
        rw [hheight]
        rfl
      · rw [hbranch, newEntry]
        dsimp only [prevTrust]
        have hblock : getBlockTrust (branchBlock fSide (k + 1)).nBits = BitVec.ofNat 256 2 := by
          change getBlockTrust 0x207fffff = 2
          decide
        rw [htrust, hblock, ← BitVec.ofNat_add]
        rfl

theorem branchHash_injective {fSide fSide' : Bool} {k k' : Nat} (hk : k ≤ 1000) (hk' : k' ≤ 1000)
    (h : branchHash fSide k = branchHash fSide' k') : k = k' ∧ (k ≠ 0 → fSide = fSide') := by
  have hlt {fSide : Bool} {k : Nat} (hk : k ≤ 1000) : branchNonce fSide k + 1 < 2 ^ 256 := by
    have hside : fSide.toNat ≤ 1 := Bool.toNat_le fSide
    rw [branchNonce]
    split
    · decide
    · omega
  have hnat := congrArg BitVec.toNat h
  rw [branchHash, branchHash, BitVec.toNat_ofNat, BitVec.toNat_ofNat, Nat.mod_eq_of_lt (hlt hk),
    Nat.mod_eq_of_lt (hlt hk'), branchNonce, branchNonce] at hnat
  cases fSide <;> cases fSide' <;> simp only [Bool.toNat_false, Bool.toNat_true] at hnat <;> grind

/-- What is above the genesis block in one branch is not in the other. -/
theorem branch_not_suffix {m n : Nat} (hm : m ≤ 1000) (hn : n ≤ 1000) (hpos : 0 < m) :
    ¬ branch false m <:+ branch true n := by
  intro hsuffix
  obtain ⟨pindex, pprev, hbranch, hhash, hheight, -⟩ := branch_head false hm
  rw [hbranch] at hsuffix
  induction n with
  | zero =>
      rcases List.suffix_cons_iff.mp hsuffix with heq | hnil
      · rw [(List.cons.inj heq).1] at hheight
        change (0 : Int) = m at hheight
        omega
      · cases List.suffix_nil.mp hnil
  | succ n ih =>
      obtain ⟨pindex', pprev', hbranch', hhash', hheight', -⟩ := branch_head true hn
      rw [branch] at hbranch'
      rw [branch] at hsuffix
      rcases List.suffix_cons_iff.mp hsuffix with heq | htail
      · rw [← heq] at hbranch'
        cases hbranch'
        rw [hhash] at hhash'
        exact Bool.noConfusion ((branchHash_injective hm hn hhash').2 (Nat.pos_iff_ne_zero.mp hpos))
      · exact ih (Nat.le_of_succ_le hn) htail

theorem mem_branchTo_branch {fSide : Bool} {k : Nat} {pfork p : List CBlockIndex}
    (h : p ∈ branchTo pfork (branch fSide k)) : ∃ j ≤ k, p = branch fSide j := by
  induction k with
  | zero =>
      rw [branch, branchTo] at h
      split at h
      · cases h
      · rcases List.mem_cons.mp h with rfl | hnil
        · exact ⟨0, Nat.le_refl 0, rfl⟩
        · cases hnil
  | succ k ih =>
      rw [branch, branchTo] at h
      split at h
      · cases h
      · rcases List.mem_cons.mp h with rfl | hrest
        · exact ⟨k + 1, Nat.le_refl _, rfl⟩
        · obtain ⟨j, hj, rfl⟩ := ih hrest
          exact ⟨j, Nat.le_succ_of_le hj, rfl⟩

/-- The search ends at the genesis block. -/
theorem findFork_branch {k : Nat} (hk : k + 1 ≤ 1000) :
    findFork (branch false k) (branch true (k + 1)) = some (branch false 0) := by
  induction k with
  | zero => decide
  | succ k ih =>
      have hle := Nat.le_of_succ_le hk
      obtain ⟨pindex, pprev, hmain, hhash, hheight, -⟩ := branch_head false hle
      obtain ⟨side, rest, hside, hsideHash, hsideHeight, -⟩ := branch_head true hle
      obtain ⟨next, rest', hnext, hnextHash, hnextHeight, -⟩ := branch_head true hk
      have htail : rest' = branch true (k + 1) := (List.cons.inj hnext).2.symm
      have htail' : pprev = branch false k := (List.cons.inj hmain).2.symm
      have hlower : lowerTo pindex.nHeight (branch true (k + 1 + 1)) = branch true (k + 1) := by
        rw [hnext, lowerTo, if_pos (by rw [hheight, hnextHeight]; omega), htail, hside, lowerTo,
          if_neg (by rw [hheight, hsideHeight]; omega)]
      have hother : pindex :: pprev ≠ branch true (k + 1) := by
        rw [hside]
        rintro heq
        rw [(List.cons.inj heq).1, hsideHash] at hhash
        exact Bool.noConfusion ((branchHash_injective hle hle hhash).2 (Nat.succ_ne_zero k))
      have hlonger : pindex :: pprev ≠ branch true (k + 1 + 1) := by
        rw [hnext]
        rintro heq
        rw [(List.cons.inj heq).1, hnextHeight] at hheight
        omega
      rw [hmain, findFork, if_neg hlonger, hlower, hside]
      dsimp only
      rw [← hside, if_neg hother, htail']
      exact ih hle

/-- Each branch has been accepted up to its limit, and the main branch is the best chain. -/
structure Stage (limit : Bool → Nat) (st : IndexNode) : Prop where
  running : Running branchEnv.toChainEnv st
  entry : ∀ fSide, ∀ k ≤ limit fSide, st.mapBlockIndex (branchHash fSide k) = some (branch fSide k)
  fresh : ∀ fSide k, limit fSide < k → k ≤ 1000 → st.mapBlockIndex (branchHash fSide k) = none
  genesis : st.mem.pindexGenesisBlock ≠ []
  hashBestChain : st.mem.hashBestChain = branchHash false (limit false)
  pindexBest : st.mem.pindexBest = branch false (limit false)

section Stage

variable {limit : Bool → Nat} {k : Nat} {fSide : Bool} {st st' : IndexNode}

theorem Stage.trust (h : Stage limit st) (hm : limit false ≤ 1000) :
    st.mem.nBestChainTrust = BitVec.ofNat 256 (2 * (limit false + 1)) := by
  obtain ⟨pindex, pprev, hbranch, -, -, htrust, -⟩ := branch_head false hm
  rw [← htrust]
  exact (h.running.best.nBestHeight pindex (by rw [h.pindexBest, hbranch]; rfl)).2

theorem Stage.height (h : Stage limit st) (hm : limit false ≤ 1000) : st.mem.nBestHeight = limit false := by
  obtain ⟨pindex, pprev, hbranch, -, hheight, -⟩ := branch_head false hm
  rw [← hheight]
  exact (h.running.best.nBestHeight pindex (by rw [h.pindexBest, hbranch]; rfl)).1

theorem Stage.prevEntry (h : Stage limit st) (hk : k ≤ limit fSide) :
    st.prevEntry (branchBlock fSide (k + 1)) = branch fSide k := by
  rw [IndexNode.prevEntry]
  change (st.mapBlockIndex (branchHash fSide k)).getD [] = _
  rw [h.entry fSide k hk]
  rfl

/-- The next block of a branch is accepted, once `AddToBlockIndex` succeeds. -/
theorem Stage.accepts (h : Stage limit st) (hm : limit false ≤ 1000) (hk : k ≤ limit fSide)
    (hfresh : limit fSide < k + 1) (hle : k + 1 ≤ 1000) (hspan : limit false < k + 1 + 500)
    (hadd : ∃ st', st.addToBlockIndex branchEnv.toChainEnv (branchCall fSide (k + 1)).outcomes.toBlockOutcomes
      (branchBlock fSide (k + 1)) = some (true, st')) :
    ∃ st', (branchCall fSide (k + 1)).step branchEnv.toChainEnv st = some (st', true) := by
  obtain ⟨st', hadd⟩ := hadd
  obtain ⟨pindexPrev, rest, hbranch, -, hheight, -⟩ := branch_head fSide (Nat.le_of_succ_le hle)
  obtain ⟨sync, syncRest, hselect, -, hsync⟩ := autoSelectSyncCheckpoint_height h.running.linked h.running.best
  have hchecked : checkSync true st.mem.pindexBest [] (pindexPrev.nHeight + 1) = some true := by
    rw [checkSync, if_pos rfl, hselect]
    refine congrArg some (decide_eq_true ?_)
    rw [hsync, h.height hm, hheight, nCheckpointSpan]
    omega
  refine ⟨st', ?_⟩
  rw [AcceptCall.step, acceptBlock, if_neg]
  · have hprev : st.mapBlockIndex (branchCall fSide (k + 1)).block.hashPrevBlock = some (pindexPrev :: rest) :=
      (h.entry fSide k hk).trans (congrArg some hbranch)
    have hchecks : (branchCall fSide (k + 1)).outcomes.fChecked = true := rfl
    have hreindexing : (branchCall fSide (k + 1)).outcomes.fReindexing = false := rfl
    have hwritten : (branchCall fSide (k + 1)).outcomes.fWritten = true := rfl
    have hadd' : st.addToBlockIndex branchEnv.toChainEnv (branchCall fSide (k + 1)).outcomes.toBlockOutcomes
      (branchCall fSide (k + 1)).block = some (true, st') := hadd
    simp only [hprev, hchecks, hchecked, hreindexing, hwritten, hadd', reduceCtorEq, ↓reduceIte]
  · change ¬ st.mapBlockIndex (branchEnv.blockHash (branchBlock fSide (k + 1))) ≠ none
    rw [blockHash_branchBlock hle, h.fresh fSide (k + 1) hfresh hle]
    exact not_not.mpr rfl

/-- What its call does to the entries. -/
theorem Stage.adds (h : Stage limit st) (hk : k ≤ limit fSide)
    (hstep : (branchCall fSide (k + 1)).step branchEnv.toChainEnv st = some (st', true)) :
    Adds branchEnv.toChainEnv (branchCall fSide (k + 1)).outcomes.toBlockOutcomes (branchBlock fSide (k + 1)) st
      (branch fSide (k + 1)) true st' := by
  rcases step_spec hstep with ⟨-, hreindexing⟩ | ⟨pindexNew, _, _, _, _, hadds, -, -, -⟩
  · cases hreindexing rfl
  · obtain ⟨stakeModifier, hmodifier, hnew⟩ := hadds.newEntry
    cases hmodifier
    have hprev : st.prevEntry (branchCall fSide (k + 1)).block = branch fSide k := h.prevEntry hk
    rw [hprev] at hnew
    rw [hnew] at hadds
    exact hadds

theorem unfailing_branch (fSide : Bool) (k : Nat) {vBlocks : List (List CBlockIndex)}
    (h : ∀ p ∈ vBlocks, ∃ fSide : Bool, ∃ j ≤ 1000, p = branch fSide j) :
    Unfailing branchEnv.toChainEnv (branchCall fSide k).outcomes.toIndexOutcomes vBlocks where
  reads p hp := by
    obtain ⟨fSide', j, hj, rfl⟩ := h p hp
    obtain ⟨pindex, pprev, hbranch, hhash, -, -, hpos⟩ := branch_head fSide' hj
    refine ⟨{ branchBlock false 0 with nNonce := UInt32.ofNat (branchNonce fSide' j) }, ?_⟩
    rw [readBlock, hbranch, readBlockFromDisk, hpos]
    change (if branchEnv.blockHash (branchBlock fSide' j) = pindex.hashBlock then _ else _) = _
    rw [if_pos ((blockHash_branchBlock hj).trans hhash.symm)]
  connects _ _ := rfl
  disconnects _ _ := rfl
  commits _ := rfl

theorem Stage.next (h : Stage limit st) (hle : limit fSide + 1 ≤ 1000)
    (hstep : (branchCall fSide (limit fSide + 1)).step branchEnv.toChainEnv st = some (st', true))
    (hgenesis : st'.mem.pindexGenesisBlock ≠ [])
    (hhash : st'.mem.hashBestChain = branchHash false (Function.update limit fSide (limit fSide + 1) false))
    (hbest : st'.mem.pindexBest = branch false (Function.update limit fSide (limit fSide + 1) false)) :
    Stage (Function.update limit fSide (limit fSide + 1)) st' := by
  have hadds := h.adds (Nat.le_refl _) hstep
  have hmap := hadds.mapBlockIndex
  rw [blockHash_branchBlock hle] at hmap
  refine ⟨h.running.step hstep, fun fSide' k hk => ?_, fun fSide' k hk hkle => ?_, hgenesis, hhash, hbest⟩
  · rw [Function.update_apply] at hk
    by_cases hnew : fSide' = fSide ∧ k = limit fSide + 1
    · obtain ⟨rfl, rfl⟩ := hnew
      rw [hmap, Function.update_self]
    · refine hadds.mapBlockIndex_old (h.entry fSide' k ?_)
      split at hk
      · rename_i hside
        subst hside
        exact Nat.le_of_lt_succ (Nat.lt_of_le_of_ne hk fun heq => hnew ⟨rfl, heq⟩)
      · exact hk
  · rw [Function.update_apply] at hk
    have hold : limit fSide' < k := by
      split at hk
      · rename_i hside
        subst hside
        exact Nat.lt_of_succ_lt hk
      · exact hk
    rw [hmap, Function.update_of_ne]
    · exact h.fresh fSide' k hold hkle
    · intro heq
      obtain ⟨rfl, hside⟩ := branchHash_injective hkle hle heq
      rw [hside (Nat.succ_ne_zero _), if_pos rfl] at hk
      exact Nat.lt_irrefl _ hk

/-- The trust of the next entry of a branch. -/
theorem Stage.nextTrust (h : Stage limit st) (hk : k ≤ limit fSide) (hle : k + 1 ≤ 1000) (nNonce : Nat) :
    (newEntry branchEnv.toChainEnv (branchOutcomes nNonce).toBlockOutcomes (branchBlock fSide (k + 1)) (0, false)
      (st.prevEntry (branchBlock fSide (k + 1)))).nChainTrust = BitVec.ofNat 256 (2 * (k + 1 + 1)) := by
  obtain ⟨pindex, pprev, hbranch, -, -, htrust, -⟩ := branch_head fSide hle
  rw [branch] at hbranch
  rw [h.prevEntry hk, ← htrust, ← (List.cons.inj hbranch).1]
  rfl

theorem trust_lt_iff {k j : Nat} (hk : k ≤ 2000) (hj : j ≤ 2000) :
    BitVec.ofNat 256 (2 * k) < BitVec.ofNat 256 (2 * j) ↔ k < j := by
  rw [BitVec.lt_def, BitVec.toNat_ofNat, BitVec.toNat_ofNat, Nat.mod_eq_of_lt (by omega), Nat.mod_eq_of_lt (by omega)]
  omega

/-- The next block of the main branch. -/
theorem Stage.main (h : Stage limit st) (hle : limit false + 1 ≤ 1000) :
    ∃ st', (branchCall false (limit false + 1)).step branchEnv.toChainEnv st = some (st', true) ∧
      Stage (Function.update limit false (limit false + 1)) st' := by
  have hm := Nat.le_of_succ_le hle
  have hbetter : st.mem.nBestChainTrust < (newEntry branchEnv.toChainEnv
      (branchCall false (limit false + 1)).outcomes.toBlockOutcomes (branchBlock false (limit false + 1)) (0, false)
        (st.prevEntry (branchBlock false (limit false + 1)))).nChainTrust := by
    rw [branchCall, h.nextTrust (Nat.le_refl _) hle, h.trust hm, trust_lt_iff (by omega) (by omega)]
    omega
  obtain ⟨st', hstep⟩ := h.accepts hm (Nat.le_refl _) (Nat.lt_succ_self _) hle (by omega) <| by
    refine addToBlockIndex_better ?_ rfl rfl hbetter fun st₁ hmem => ?_
    · rw [blockHash_branchBlock hle]
      exact h.fresh false _ (Nat.lt_succ_self _) hle
    · obtain ⟨pnext, hmem⟩ := hmem
      refine (@unfailing_branch false (limit false + 1) [] (by simp)).setBestChain_extends ?_ ?_ ?_
      · rw [hmem]
        exact h.genesis
      · rw [hmem]
        exact h.hashBestChain.symm
      · obtain ⟨pindex, pprev, hbranch, -⟩ := branch_head false hm
        rw [h.prevEntry (Nat.le_refl _), hbranch]
        exact Nat.le_add_left 2 _
  refine ⟨st', hstep, ?_⟩
  have hadds := h.adds (Nat.le_refl _) hstep
  rcases hadds.best with ⟨-, hworse⟩ | ⟨hbest, -⟩
  · refine absurd hbetter (hworse rfl _ ?_)
    rw [h.prevEntry (Nat.le_refl _)]
    rfl
  · refine h.next hle hstep (hbest.genesis (.inl h.genesis)) ?_ ?_
    · rw [Function.update_self, hbest.hashBestChain]
      exact blockHash_branchBlock hle
    · rw [Function.update_self, hbest.pindexBest]

/-- The next block of the side branch, as long as it is not longer than the main branch. -/
theorem Stage.side (h : Stage limit st) (hle : limit true + 1 ≤ limit false) (hm : limit false ≤ 1000)
    (hspan : limit false < limit true + 1 + 500) :
    ∃ st', (branchCall true (limit true + 1)).step branchEnv.toChainEnv st = some (st', true) ∧
      Stage (Function.update limit true (limit true + 1)) st' := by
  have hle' := Nat.le_trans hle hm
  have hworse : ¬ st.mem.nBestChainTrust < (newEntry branchEnv.toChainEnv
      (branchCall true (limit true + 1)).outcomes.toBlockOutcomes (branchBlock true (limit true + 1)) (0, false)
        (st.prevEntry (branchBlock true (limit true + 1)))).nChainTrust := by
    rw [branchCall, h.nextTrust (Nat.le_refl _) hle', h.trust hm, trust_lt_iff (by omega) (by omega)]
    omega
  obtain ⟨st', hstep⟩ := h.accepts hm (Nat.le_refl _) (Nat.lt_succ_self _) hle' hspan <| by
    refine addToBlockIndex_worse ?_ rfl rfl hworse
    rw [blockHash_branchBlock hle']
    exact h.fresh true _ (Nat.lt_succ_self _) hle'
  refine ⟨st', hstep, ?_⟩
  have hadds := h.adds (Nat.le_refl _) hstep
  rcases hadds.best with ⟨⟨pnext, hmem⟩, -⟩ | ⟨-, hbetter⟩
  · refine h.next hle' hstep ?_ ?_ ?_
    · rw [hmem]
      exact h.genesis
    · rw [hmem, Function.update_of_ne Bool.false_ne_true]
      exact h.hashBestChain
    · rw [hmem, Function.update_of_ne Bool.false_ne_true]
      exact h.pindexBest
  · refine absurd (hbetter _ ?_) hworse
    rw [h.prevEntry (Nat.le_refl _)]
    rfl

/-- The last block of the side branch is the better one. -/
theorem Stage.last (h : Stage limit st) (hle : limit true + 1 ≤ 1000) (hsame : limit false = limit true)
    (hpos : 0 < limit true) :
    ∃ st', (branchCall true (limit true + 1)).step branchEnv.toChainEnv st = some (st', true) ∧
      st'.mem.pindexBest = branch true (limit true + 1) := by
  have hm : limit false ≤ 1000 := by omega
  obtain ⟨best, pprev, hbestBranch, -, -, hbestTrust, -⟩ := branch_head false hm
  obtain ⟨prev, rest, hprevBranch, -, -, hprevTrust, -⟩ := branch_head true (Nat.le_of_succ_le hle)
  have hbetter : st.mem.nBestChainTrust < (newEntry branchEnv.toChainEnv
      (branchCall true (limit true + 1)).outcomes.toBlockOutcomes (branchBlock true (limit true + 1)) (0, false)
        (st.prevEntry (branchBlock true (limit true + 1)))).nChainTrust := by
    rw [branchCall, h.nextTrust (Nat.le_refl _) hle, h.trust hm, trust_lt_iff (by omega) (by omega)]
    omega
  have hnew : newEntry branchEnv.toChainEnv (branchCall true (limit true + 1)).outcomes.toBlockOutcomes
      (branchBlock true (limit true + 1)) (0, false) (st.prevEntry (branchBlock true (limit true + 1))) ::
        st.prevEntry (branchBlock true (limit true + 1)) = branch true (limit true + 1) := by
    rw [h.prevEntry (Nat.le_refl _)]
    rfl
  have hblocks : ∀ p ∈ branchTo (branch false 0) (branch false (limit false)) ++
      branchTo (branch false 0) (branch true (limit true + 1)), ∃ fSide : Bool, ∃ j ≤ 1000, p = branch fSide j := by
    intro p hp
    rcases List.mem_append.mp hp with hp | hp
    · obtain ⟨j, hj, heq⟩ := mem_branchTo_branch hp
      exact ⟨false, j, Nat.le_trans hj hm, heq⟩
    · obtain ⟨j, hj, heq⟩ := mem_branchTo_branch hp
      exact ⟨true, j, Nat.le_trans hj hle, heq⟩
  obtain ⟨st', hstep⟩ := h.accepts hm (Nat.le_refl _) (Nat.lt_succ_self _) hle (by omega) <| by
    refine addToBlockIndex_better ?_ rfl rfl hbetter fun st₁ hmem => ?_
    · rw [blockHash_branchBlock hle]
      exact h.fresh true _ (Nat.lt_succ_self _) hle
    · obtain ⟨pnext, hmem⟩ := hmem
      have hbest : st₁.mem.pindexBest = branch false (limit false) := by
        rw [hmem]
        exact h.pindexBest
      have hfork : findFork st₁.mem.pindexBest (branch true (limit true + 1)) = some (branch false 0) := by
        rw [hbest, hsame]
        exact findFork_branch hle
      rw [hnew]
      refine (unfailing_branch true (limit true + 1) hblocks).setBestChain_reorganizes ?_ ?_ (hbest.trans hbestBranch)
        ?_ (List.cons_ne_nil _ _) hfork ?_ ?_
      · rw [hmem]
        exact h.genesis
      · rw [hmem]
        change branchHash true (limit true) ≠ st.mem.hashBestChain
        rw [h.hashBestChain]
        intro heq
        exact Bool.noConfusion ((branchHash_injective (Nat.le_of_succ_le hle) hm heq).2 (Nat.pos_iff_ne_zero.mp hpos))
      · rw [branch, hprevBranch, postpone, if_neg]
        rw [hbestTrust, hprevTrust, hsame]
        exact BitVec.lt_irrefl _
      · intro p hp
        rw [hbest] at hp
        exact List.mem_append_left _ hp
      · intro p hp
        exact List.mem_append_right _ hp
  refine ⟨st', hstep, ?_⟩
  rcases (h.adds (Nat.le_refl _) hstep).best with ⟨-, hworse⟩ | ⟨hbest, -⟩
  · exact absurd hbetter (hworse rfl _ (by rw [← hnew]; rfl))
  · exact hbest.pindexBest

end Stage

/-- The calls that extend the main branch and the side branch in turn, over the height `k`. -/
def branchCalls (k : Nat) : Nat → List AcceptCall
  | 0 => []
  | n + 1 => branchCall false (k + 1) :: branchCall true (k + 1) :: branchCalls (k + 1) n

theorem Stage.run {k n : Nat} {st : IndexNode} (h : Stage (fun _ => k) st) (hle : k + n ≤ 1000) :
    ∃ st', EventRun.run (AcceptCall.step branchEnv.toChainEnv) (branchCalls k n) st = some st' ∧
      EventRun.Along (AcceptCall.step branchEnv.toChainEnv) (fun _ _ _ ok => ok = true) (branchCalls k n) st ∧
      Stage (fun _ => k + n) st' := by
  induction n generalizing k st with
  | zero => exact ⟨st, rfl, trivial, h⟩
  | succ n ih =>
      obtain ⟨st₁, hmain, h₁⟩ := h.main (by omega)
      obtain ⟨st₂, hside, h₂⟩ := h₁.side (Nat.le_refl (k + 1)) (by omega : k + 1 ≤ 1000) (by omega : k + 1 < k + 1 + 500)
      have hmain' : (branchCall false (k + 1)).step branchEnv.toChainEnv st = some (st₁, true) := hmain
      have hside' : (branchCall true (k + 1)).step branchEnv.toChainEnv st₁ = some (st₂, true) := hside
      have hlimit : Function.update (Function.update (fun _ => k) false (k + 1)) true
          (Function.update (fun _ => k) false (k + 1) true + 1) = fun _ => k + 1 := by
        funext fSide
        cases fSide <;> rfl
      rw [hlimit] at h₂
      obtain ⟨st', hrun, halong, h'⟩ := ih h₂ (by omega)
      rw [Nat.add_right_comm, Nat.add_assoc] at h'
      refine ⟨st', ?_, ?_, h'⟩
      · rw [branchCalls, EventRun.run, hmain']
        dsimp only
        rw [EventRun.run, hside']
        exact hrun
      · intro s₁ ok hs₁
        rw [hmain'] at hs₁
        cases hs₁
        refine ⟨rfl, fun s₂ ok hs₂ => ?_⟩
        rw [hside'] at hs₂
        cases hs₂
        exact ⟨rfl, halong⟩

theorem loadGenesis_branch : ∃ node₀, loadGenesis branchEnv (branchOutcomes 0).toBlockOutcomes = some node₀ ∧
    Stage (fun _ => 0) node₀ := by
  obtain ⟨node₀, hload⟩ : ∃ node₀, loadGenesis branchEnv (branchOutcomes 0).toBlockOutcomes = some node₀ := ⟨_, rfl⟩
  obtain ⟨genesis, hadds, hbest⟩ := loadGenesis_spec hload
  obtain ⟨stakeModifier, hmodifier, hnew⟩ := hadds.newEntry
  cases hmodifier
  have hbranch : [genesis] = branch false 0 := hnew
  refine ⟨node₀, hload, Running.start hload, fun fSide k hk => ?_, fun fSide k hk hle => ?_,
    hbest.genesis (.inr rfl), hbest.hashBestChain, hbest.pindexBest.trans hbranch⟩
  · cases Nat.le_zero.mp hk
    rw [hadds.mapBlockIndex, hbranch]
    exact Function.update_self _ _ _
  · rw [hadds.mapBlockIndex, Function.update_of_ne]
    · rfl
    · intro heq
      have hzero : branchHash fSide k = branchHash false 0 := heq
      exact Nat.lt_irrefl 0 ((branchHash_injective hle (Nat.zero_le _) hzero).1 ▸ hk)

theorem branch_suffix (fSide : Bool) {j k : Nat} (h : j ≤ k) : branch fSide j <:+ branch fSide k := by
  induction h with
  | refl => exact List.suffix_refl _
  | step h ih => exact ih.trans (List.suffix_cons _ _)

theorem suffix_branch {fSide : Bool} {k : Nat} {s : List CBlockIndex} (h : s <:+ branch fSide k) (hne : s ≠ []) :
    ∃ j ≤ k, s = branch fSide j := by
  induction k with
  | zero =>
      rcases List.suffix_cons_iff.mp h with rfl | hnil
      · exact ⟨0, Nat.le_refl 0, rfl⟩
      · exact absurd (List.suffix_nil.mp hnil) hne
  | succ k ih =>
      rcases List.suffix_cons_iff.mp h with rfl | htail
      · exact ⟨k + 1, Nat.le_refl _, rfl⟩
      · obtain ⟨j, hj, rfl⟩ := ih htail
        exact ⟨j, Nat.le_succ_of_le hj, rfl⟩

/-- Two branches grow side by side from the genesis block to the height 502, and the next block of the side branch
disconnects the main branch from its first block on. -/
theorem checkpoint_disconnected :
    ∃ node₀ node node', loadGenesis branchEnv (branchOutcomes 0).toBlockOutcomes = some node₀ ∧
      EventRun.run (AcceptCall.step branchEnv.toChainEnv) (branchCalls 0 502) node₀ = some node ∧
      EventRun.Along (AcceptCall.step branchEnv.toChainEnv) (fun _ _ _ ok => ok = true) (branchCalls 0 502) node₀ ∧
      (branchCall true 503).step branchEnv.toChainEnv node = some (node', true) ∧
      (∃ pindex pprev, pindex :: pprev <:+ node.mem.pindexBest ∧
        pindex.nHeight + nCheckpointSpan < node.mem.nBestHeight ∧ ¬ pindex :: pprev <:+ node'.mem.pindexBest) ∧
      ∃ sync, autoSelectSyncCheckpoint node.mem.pindexBest = some sync ∧ ¬ sync <:+ node'.mem.pindexBest := by
  obtain ⟨node₀, hload, h₀⟩ := loadGenesis_branch
  obtain ⟨node, hrun, halong, hstage⟩ := @Stage.run 0 502 node₀ h₀ (by decide)
  obtain ⟨node', hlast, hbest⟩ := hstage.last (by decide) rfl (by decide)
  refine ⟨node₀, node, node', hload, hrun, halong, hlast, ?_, ?_⟩
  · obtain ⟨pindex, pprev, hbranch, -, hheight, -⟩ := branch_head false (by decide : 1 ≤ 1000)
    refine ⟨pindex, pprev, ?_, ?_, ?_⟩
    · rw [← hbranch, hstage.pindexBest]
      exact branch_suffix false (by decide)
    · rw [hheight, hstage.height (by decide)]
      decide
    · rw [← hbranch, hbest]
      exact branch_not_suffix (by decide) (by decide) (by decide)
  · obtain ⟨sync, rest, hselect, hsuffix, hheight⟩ :=
      autoSelectSyncCheckpoint_height hstage.running.linked hstage.running.best
    rw [hstage.pindexBest] at hsuffix
    obtain ⟨j, hj, heq⟩ := suffix_branch hsuffix (List.cons_ne_nil _ _)
    have hj' : j ≤ 1000 := Nat.le_trans hj (by decide)
    obtain ⟨pindex, pprev, hbranch, -, hpindex, -⟩ := branch_head false hj'
    rw [hstage.height (by decide), (List.cons.inj (heq.trans hbranch)).1, hpindex] at hheight
    refine ⟨sync :: rest, hselect, ?_⟩
    rw [heq, hbest]
    refine branch_not_suffix hj' (by decide) ?_
    have hmax : max (0 : Int) ((502 : Nat) - nCheckpointSpan) = 2 := by decide
    rw [Nat.zero_add, hmax] at hheight
    omega

theorem rollingCheckpoint_bounds_branch :
    ∃ node₀ node, loadGenesis branchEnv (branchOutcomes 0).toBlockOutcomes = some node₀ ∧
      EventRun.run (AcceptCall.step branchEnv.toChainEnv) (branchCalls 0 502) node₀ = some node ∧
      ∃ sync rest, autoSelectSyncCheckpoint node.mem.pindexBest = some (sync :: rest) ∧
        sync.nHeight = max 0 (node.mem.nBestHeight - nCheckpointSpan) := by
  obtain ⟨node₀, hload, h₀⟩ := loadGenesis_branch
  obtain ⟨node, hrun, -, hstage⟩ := @Stage.run 0 502 node₀ h₀ (by decide)
  obtain ⟨⟨sync, rest, hselect, -, hheight, -⟩, -⟩ := rollingCheckpoint_bounds branchEnv _ _ node₀ node hload hrun
  exact ⟨node₀, node, hload, hrun, sync, rest, hselect, hheight⟩

end ProCurrency

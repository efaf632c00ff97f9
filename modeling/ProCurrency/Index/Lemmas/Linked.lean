import ProCurrency.Index.Lemmas.Calls

/-!
# The entries form a tree

Every entry stands over the one that its pointer goes on with, with its height and its trust over those of that one, and
the best block is one of the entries.
-/

namespace ProCurrency

open ParentTree

namespace IndexNode

structure Linked (st : IndexNode) : Prop where
  tree : ∃ tree : Tree CBlockIndex.hashBlock, tree.lookup = st.mapBlockIndex
  entry : ∀ hash pindex pprev, st.mapBlockIndex hash = some (pindex :: pprev) →
    pindex.nHeight = pprev.length ∧ pindex.nChainTrust = prevTrust pprev + getBlockTrust pindex.nBits

/-- The globals name an entry. -/
structure OnBest (st : IndexNode) : Prop where
  best : st.mapBlockIndex (getBlockHash st.mem.pindexBest) = some st.mem.pindexBest
  nBestHeight : ∀ pindex ∈ st.mem.pindexBest.head?,
    st.mem.nBestHeight = pindex.nHeight ∧ st.mem.nBestChainTrust = pindex.nChainTrust

variable {env : ChainEnv} {outcomes : BlockOutcomes} {st st' : IndexNode} {block : CBlock}
  {pindex : CBlockIndex} {pprev pindexNew : List CBlockIndex} {ok : Bool}

theorem Linked.exists_cons (h : Linked st) {hash : UInt256} (hmap : st.mapBlockIndex hash = some pindexNew) :
    ∃ pindex pprev, pindexNew = pindex :: pprev ∧ pindex.hashBlock = hash := by
  obtain ⟨tree, htree⟩ := h.tree
  exact tree.head hash pindexNew (htree ▸ hmap)

theorem Linked.suffix (h : Linked st) {hash : UInt256} (hmap : st.mapBlockIndex hash = some pindexNew)
    (hsuffix : pindex :: pprev <:+ pindexNew) : st.mapBlockIndex pindex.hashBlock = some (pindex :: pprev) := by
  obtain ⟨tree, htree⟩ := h.tree
  have hhas : tree.Has pindexNew := ⟨hash, htree ▸ hmap⟩
  rw [← htree]
  exact (hhas.suffix hsuffix (List.cons_ne_nil _ _)).lookup_head

theorem Linked.height (h : Linked st) {hash : UInt256} (hmap : st.mapBlockIndex hash = some pindexNew)
    (hsuffix : pindex :: pprev <:+ pindexNew) : pindex.nHeight = pprev.length :=
  (h.entry _ _ _ (h.suffix hmap hsuffix)).1

/-- Every height up to that of an entry is the height of one of its ancestors. -/
theorem Linked.exists_height (h : Linked st) {hash : UInt256} (hmap : st.mapBlockIndex hash = some pindexNew) {n : Nat}
    (hn : n < pindexNew.length) : ∃ pindex pprev, pindex :: pprev <:+ pindexNew ∧ pindex.nHeight = n := by
  obtain ⟨pindex, pprev, hdrop⟩ : ∃ pindex pprev, pindexNew.drop (pindexNew.length - (n + 1)) = pindex :: pprev := by
    refine List.exists_cons_of_length_pos ?_
    rw [List.length_drop]
    omega
  have hsuffix : pindex :: pprev <:+ pindexNew := hdrop ▸ List.drop_suffix _ _
  have hlength := congrArg List.length hdrop
  rw [List.length_drop, List.length_cons] at hlength
  refine ⟨pindex, pprev, hsuffix, ?_⟩
  rw [h.height hmap hsuffix]
  omega

/-! ## New entries -/

theorem prevEntry_cases (st : IndexNode) (block : CBlock) :
    st.prevEntry block = [] ∨ st.mapBlockIndex block.hashPrevBlock = some (st.prevEntry block) := by
  rw [prevEntry]
  cases st.mapBlockIndex block.hashPrevBlock with
  | none => exact .inl rfl
  | some pprev => exact .inr rfl

theorem Linked.adds (h : Linked st) (hadds : Adds env outcomes block st pindexNew ok st') : Linked st' := by
  obtain ⟨tree, htree⟩ := h.tree
  obtain ⟨stakeModifier, -, hnew⟩ := hadds.newEntry
  have hprev := prevEntry_cases st block
  refine ⟨⟨tree.insert (IndexNode.newEntry env outcomes block stakeModifier (st.prevEntry block)) (st.prevEntry block) ?_ ?_,
    ?_⟩, ?_⟩
  · rw [htree]
    exact hadds.fresh
  · exact hprev.imp id fun hmap => ⟨block.hashPrevBlock, htree ▸ hmap⟩
  · change Function.update tree.lookup (env.blockHash block) _ = _
    rw [hadds.mapBlockIndex, hnew, htree]
  · intro hash pindex pprev hmap
    rw [hadds.mapBlockIndex, Function.update_apply] at hmap
    split at hmap
    · rw [hnew] at hmap
      cases hmap
      refine ⟨?_, rfl⟩
      rcases hprev with hnil | hprev
      · rw [hnil]
        rfl
      · obtain ⟨p, rest, heq, -⟩ := h.exists_cons hprev
        rw [heq] at hprev ⊢
        rw [IndexNode.newEntry, (h.entry _ _ _ hprev).1]
        rfl
    · exact h.entry hash pindex pprev hmap

theorem Adds.mapBlockIndex_new (hadds : Adds env outcomes block st pindexNew ok st') :
    st'.mapBlockIndex (getBlockHash pindexNew) = some pindexNew := by
  obtain ⟨stakeModifier, -, hnew⟩ := hadds.newEntry
  rw [hadds.mapBlockIndex, hnew]
  exact Function.update_self _ _ _

/-- The entries that were there stay. -/
theorem Adds.mapBlockIndex_old (hadds : Adds env outcomes block st pindexNew ok st') {hash : UInt256}
    {p : List CBlockIndex} (hmap : st.mapBlockIndex hash = some p) : st'.mapBlockIndex hash = some p := by
  rw [hadds.mapBlockIndex, Function.update_of_ne]
  · exact hmap
  · rintro rfl
    rw [hadds.fresh] at hmap
    cases hmap

theorem OnBest.adds (h : OnBest st) (hadds : Adds env outcomes block st pindexNew ok st') : OnBest st' := by
  rcases hadds.best with ⟨⟨pnext, hmem⟩, -⟩ | ⟨hbest, -⟩
  · refine ⟨?_, ?_⟩
    · rw [hmem]
      exact hadds.mapBlockIndex_old h.best
    · rw [hmem]
      exact h.nBestHeight
  · refine ⟨?_, ?_⟩
    · rw [hbest.pindexBest]
      exact hadds.mapBlockIndex_new
    · rw [hbest.pindexBest]
      exact hbest.best

end IndexNode

end ProCurrency

/-!
## Calls that do not fail

When every block is read, connected and disconnected and every commit succeeds, `SetBestChain` and `AddToBlockIndex`
return true.
-/

namespace ProCurrency

namespace IndexNode

/-- Nothing that a call meets fails. -/
structure Unfailing (env : ChainEnv) (outcomes : IndexOutcomes) (pindexNew : List (List CBlockIndex)) : Prop where
  reads : ∀ pindex ∈ pindexNew, ∃ block, readBlock env outcomes pindex = some block
  connects : ∀ block pindex, outcomes.chain.connects block pindex = true
  disconnects : ∀ block pindex, outcomes.chain.disconnects block pindex = true
  commits : ∀ pindex, outcomes.chain.commitFails pindex = false

variable {env : ChainEnv} {outcomes : IndexOutcomes} {st : IndexNode} {block : CBlock}
  {vBlocks : List (List CBlockIndex)} {pindex pindexNew pfork : List CBlockIndex}

theorem dropBatch_mem (st : IndexNode) : st.dropBatch.mem = st.mem := rfl

theorem Unfailing.tail (h : Unfailing env outcomes (pindex :: vBlocks)) : Unfailing env outcomes vBlocks :=
  ⟨fun p hp => h.reads p (List.mem_cons_of_mem _ hp), h.connects, h.disconnects, h.commits⟩

theorem Unfailing.of_subset {vBlocks' : List (List CBlockIndex)} (h : Unfailing env outcomes vBlocks)
    (hsubset : ∀ pindex ∈ vBlocks', pindex ∈ vBlocks) : Unfailing env outcomes vBlocks' :=
  ⟨fun p hp => h.reads p (hsubset p hp), h.connects, h.disconnects, h.commits⟩

theorem Unfailing.connectBlock (h : Unfailing env outcomes vBlocks) (st : IndexNode) (block : CBlock)
    (pindex : List CBlockIndex) : ∃ st', st.connectBlock outcomes block pindex = some (true, st') := by
  rw [IndexNode.connectBlock, if_pos (h.connects block pindex)]
  exact ⟨_, rfl⟩

theorem Unfailing.commit (h : Unfailing env outcomes vBlocks) (st : IndexNode) (pindex : List CBlockIndex) :
    st.commit outcomes pindex = some (true, { st with disk := st.batch }) := by
  rw [IndexNode.commit, h.commits]
  rfl

theorem Unfailing.disconnectAll (h : Unfailing env outcomes vBlocks) (st : IndexNode) :
    ∃ st', st.disconnectAll env outcomes vBlocks = some (true, st') := by
  induction vBlocks generalizing st with
  | nil => exact ⟨st, rfl⟩
  | cons pindex vBlocks ih =>
      obtain ⟨block, hread⟩ := h.reads pindex List.mem_cons_self
      rw [IndexNode.disconnectAll, hread]
      dsimp only
      rw [IndexNode.disconnectBlock, if_pos (h.disconnects block pindex)]
      exact ih h.tail _

theorem Unfailing.connectAll (h : Unfailing env outcomes vBlocks) (st : IndexNode) :
    ∃ st', st.connectAll env outcomes vBlocks = some (true, st') := by
  induction vBlocks generalizing st with
  | nil => exact ⟨st, rfl⟩
  | cons pindex vBlocks ih =>
      obtain ⟨block, hread⟩ := h.reads pindex List.mem_cons_self
      obtain ⟨st₁, hconnect⟩ := h.connectBlock st block pindex
      rw [IndexNode.connectAll, hread]
      dsimp only
      rw [hconnect]
      exact ih h.tail st₁

theorem Unfailing.reorganize (h : Unfailing env outcomes vBlocks)
    (hfork : findFork st.mem.pindexBest pindexNew = some pfork)
    (hdisconnect : ∀ p ∈ branchTo pfork st.mem.pindexBest, p ∈ vBlocks)
    (hconnect : ∀ p ∈ branchTo pfork pindexNew, p ∈ vBlocks) :
    ∃ st', st.reorganize env outcomes pindexNew = some (true, st') := by
  obtain ⟨st₁, hst₁⟩ := (h.of_subset hdisconnect).disconnectAll st
  obtain ⟨st₂, hst₂⟩ := (h.of_subset fun p hp => hconnect p (List.mem_reverse.mp hp)).connectAll st₁
  rw [IndexNode.reorganize, hfork]
  dsimp only
  rw [hst₁, andThen, hst₂, andThen, h.commit]
  exact ⟨_, rfl⟩

theorem Unfailing.setBestChainInner (h : Unfailing env outcomes vBlocks) (st : IndexNode) (block : CBlock)
    (hlength : 2 ≤ pindexNew.length) :
    ∃ st', st.setBestChainInner env outcomes block pindexNew = some (true, st') := by
  obtain ⟨st₁, hst₁⟩ := h.connectBlock st block pindexNew
  rw [IndexNode.setBestChainInner, hst₁]
  dsimp only
  rw [h.commit]
  rcases pindexNew with _ | ⟨pindex, _ | ⟨pprev, rest⟩⟩
  · cases hlength
  · exact absurd hlength (by simp)
  · exact ⟨_, rfl⟩

theorem newBestBlock_some (st : IndexNode) (hash : UInt256) (hne : pindexNew ≠ []) :
    ∃ st', st.newBestBlock hash pindexNew = some (true, st') := by
  cases pindexNew with
  | nil => exact absurd rfl hne
  | cons pindex pprev => exact ⟨_, rfl⟩

/-- The block extends the best chain. -/
theorem Unfailing.setBestChain_extends (h : Unfailing env outcomes vBlocks) (hgenesis : st.mem.pindexGenesisBlock ≠ [])
    (hprev : block.hashPrevBlock = st.mem.hashBestChain) (hlength : 2 ≤ pindexNew.length) :
    ∃ st', st.setBestChain env outcomes block pindexNew = some (true, st') := by
  obtain ⟨st₁, hst₁⟩ := h.setBestChainInner st.dropBatch block hlength
  have hne : pindexNew ≠ [] := by
    rintro rfl
    simp at hlength
  rw [IndexNode.setBestChain]
  dsimp only
  rw [if_neg fun hno => hgenesis hno.1, dropBatch_mem, if_pos hprev, hst₁]
  exact newBestBlock_some st₁ (env.blockHash block) hne

/-- The block goes to another branch, and none of its blocks is postponed. -/
theorem Unfailing.setBestChain_reorganizes (h : Unfailing env outcomes vBlocks)
    (hgenesis : st.mem.pindexGenesisBlock ≠ []) (hprev : block.hashPrevBlock ≠ st.mem.hashBestChain)
    {best : CBlockIndex} {pprev : List CBlockIndex} (hbest : st.mem.pindexBest = best :: pprev)
    (hpostpone : postpone best.nChainTrust pindexNew = ([], pindexNew)) (hne : pindexNew ≠ [])
    (hfork : findFork st.mem.pindexBest pindexNew = some pfork)
    (hdisconnect : ∀ p ∈ branchTo pfork st.mem.pindexBest, p ∈ vBlocks)
    (hconnect : ∀ p ∈ branchTo pfork pindexNew, p ∈ vBlocks) :
    ∃ st', st.setBestChain env outcomes block pindexNew = some (true, st') := by
  obtain ⟨st₁, hst₁⟩ := @Unfailing.reorganize _ _ st.dropBatch _ _ _ h hfork hdisconnect hconnect
  rw [IndexNode.setBestChain]
  dsimp only
  rw [if_neg fun hno => hgenesis hno.1, dropBatch_mem, if_neg hprev, hbest]
  dsimp only
  rw [hpostpone]
  dsimp only
  rw [hst₁]
  exact newBestBlock_some st₁ (env.blockHash block) hne

/-- The new entry is not better than the best one. -/
theorem addToBlockIndex_worse {outcomes : BlockOutcomes} {stakeModifier : UInt64 × Bool}
    (hfresh : st.mapBlockIndex (env.blockHash block) = none) (hmodifier : outcomes.nextStakeModifier = some stakeModifier)
    (hcommits : outcomes.fIndexCommits = true)
    (hworse : ¬ st.mem.nBestChainTrust < (newEntry env outcomes block stakeModifier (st.prevEntry block)).nChainTrust) :
    ∃ st', st.addToBlockIndex env outcomes block = some (true, st') := by
  rw [addToBlockIndex, if_neg (not_not.mpr hfresh), hmodifier]
  dsimp only
  rw [if_pos hcommits, if_neg]
  · exact ⟨_, rfl⟩
  · exact hworse

/-- The new entry is better, and `SetBestChain` makes it the best one. -/
theorem addToBlockIndex_better {outcomes : BlockOutcomes} {stakeModifier : UInt64 × Bool}
    (hfresh : st.mapBlockIndex (env.blockHash block) = none) (hmodifier : outcomes.nextStakeModifier = some stakeModifier)
    (hcommits : outcomes.fIndexCommits = true)
    (hbetter : st.mem.nBestChainTrust < (newEntry env outcomes block stakeModifier (st.prevEntry block)).nChainTrust)
    (hset : ∀ st₁ : IndexNode, (∃ pnext, st₁.mem = { st.mem with pnext }) → ∃ st', st₁.setBestChain env
      outcomes.toIndexOutcomes block (newEntry env outcomes block stakeModifier (st.prevEntry block) ::
        st.prevEntry block) = some (true, st')) :
    ∃ st', st.addToBlockIndex env outcomes block = some (true, st') := by
  rw [addToBlockIndex, if_neg (not_not.mpr hfresh), hmodifier]
  dsimp only
  rw [if_pos hcommits, if_pos]
  · exact hset _ ⟨_, rfl⟩
  · exact hbetter

end IndexNode

end ProCurrency

import ProCurrency.Chain.Lemmas.Branch

/-!
# When the best chain agrees with the store

The tree that the entries of the block index form, what a node on its best chain should look like, and the
condition under which a call of `SetBestChain` keeps it so.
-/

namespace ProCurrency

open ChainState ParentTree

/-! ## The block tree -/

/-- The entries of `mapBlockIndex`, made by `AddToBlockIndex` from blocks: the entry of `hashPrevBlock` is the
parent, and no block has the hash zero. -/
structure BlockTree (env : ChainEnv) where
  mapBlockIndex : Tree CBlockIndex.hashBlock
  zero : mapBlockIndex.lookup 0 = none
  genesis : ∀ pindex, mapBlockIndex.lookup env.hashGenesisBlock = some pindex → pindex.tail = []
  linked : ∀ block pindex pprev rest, mapBlockIndex.Has (pindex :: pprev :: rest) →
    env.blockHash block = pindex.hashBlock → block.hashPrevBlock = pprev.hashBlock

/-- Every block of the chain over the genesis block is connected. -/
def ChainConnected (connected : UInt256 → Bool) (pindex : List CBlockIndex) : Prop :=
  ∀ entry ∈ pindex.dropLast, connected entry.hashBlock = true

/-- The globals name one block, its chain is connected, and the store has committed it. -/
structure BestChainAgrees (st : ChainState) : Prop where
  hash : st.mem.hashBestChain = getBlockHash st.mem.pindexBest
  best : ∀ pindex ∈ st.mem.pindexBest.head?,
    st.mem.nBestHeight = pindex.nHeight ∧ st.mem.nBestChainTrust = pindex.nChainTrust
  connected : ChainConnected st.connected st.mem.pindexBest
  disk : st.diskHash = some (writeUInt256 st.mem.hashBestChain)

/-- A node before the genesis block, or one on a best chain that agrees with its store. -/
structure Ready {env : ChainEnv} (tree : BlockTree env) (st : ChainState) : Prop where
  closed : Closed st
  chain : st.mem.pindexGenesisBlock = [] ∧ st.mem.pindexBest = [] ∧ st.mem.hashBestChain = 0 ∨
    st.mem.pindexGenesisBlock ≠ [] ∧ tree.mapBlockIndex.Has st.mem.pindexBest ∧ BestChainAgrees st

/-- The condition: the block is the one of `pindexNew`, and each postponed block is connected. -/
def ConnectsAll (env : ChainEnv) (outcomes : Outcomes) (st : ChainState) (block : CBlock)
    (pindexNew : List CBlockIndex) : Prop :=
  env.blockHash block = getBlockHash pindexNew ∧
    (¬ (st.mem.pindexGenesisBlock = [] ∧ env.blockHash block = env.hashGenesisBlock) →
      block.hashPrevBlock ≠ st.mem.hashBestChain →
      ∀ pindexBest ∈ st.mem.pindexBest.head?,
        ∀ pindex ∈ (postpone pindexBest.nChainTrust pindexNew).1, Connectable env outcomes pindex)

end ProCurrency

/-!
## The ends of a call

A call of `SetBestChain` fails and changes nothing durable, or it ends in one of three ways. Each is described
by what its transactions have committed.
-/

namespace ProCurrency

open ChainState ParentTree

/-! ## Connected chains -/

section Chains

variable {env : ChainEnv} {tree : BlockTree env} {connected : UInt256 → Bool}

theorem dropLast_append_of_ne_nil {above pfork : List CBlockIndex} (h : pfork ≠ []) :
    (above ++ pfork).dropLast = above ++ pfork.dropLast :=
  List.dropLast_append_of_ne_nil h

/-- A branch that is connected over a connected chain. -/
theorem ChainConnected.branch {above pfork : List CBlockIndex} (hne : pfork ≠ [])
    (h : ChainConnected connected pfork) :
    ChainConnected (connectedAfter connected (branchTo pfork (above ++ pfork)).reverse) (above ++ pfork) := by
  intro entry hentry
  rw [dropLast_append_of_ne_nil hne, List.mem_append] at hentry
  rw [connectedAfter_iff]
  rcases hentry with habove | hfork
  · left
    have hhash : entry.hashBlock ∈ (branchTo pfork (above ++ pfork)).map getBlockHash := by
      rw [branchTo_append]
      exact List.mem_map_of_mem habove
    obtain ⟨pindex, hpindex, heq⟩ := List.mem_map.mp hhash
    exact ⟨pindex, List.mem_reverse.mpr hpindex, heq⟩
  · exact .inr (h entry hfork)

/-- What is disconnected lies above the fork. -/
theorem ChainConnected.without {above pfork : List CBlockIndex} (hne : pfork ≠ [])
    (htree : tree.mapBlockIndex.Has (above ++ pfork)) (h : ChainConnected connected (above ++ pfork)) :
    ChainConnected (connectedWithout connected (branchTo pfork (above ++ pfork))) pfork := by
  intro entry hentry
  rw [connectedWithout_iff]
  refine ⟨h entry ?_, ?_⟩
  · rw [dropLast_append_of_ne_nil hne]
    exact List.mem_append_right above hentry
  · intro pindex hpindex heq
    have hhash : entry.hashBlock ∈ (branchTo pfork (above ++ pfork)).map getBlockHash := by
      rw [← heq]
      exact List.mem_map_of_mem hpindex
    rw [branchTo_append] at hhash
    obtain ⟨entry', hentry', heq'⟩ := List.mem_map.mp hhash
    exact htree.key_ne_of_append hentry' (List.dropLast_subset pfork hentry) heq'.symm

/-- The chain of the intermediate block after the reorganisation. -/
theorem reorganize_connected {pindexBest pindexNew pfork : List CBlockIndex}
    (hfork : findFork pindexBest pindexNew = some pfork) (htree : tree.mapBlockIndex.Has pindexBest)
    (h : ChainConnected connected pindexBest) :
    ChainConnected (connectedAfter (connectedWithout connected (branchTo pfork pindexBest))
      (branchTo pfork pindexNew).reverse) pindexNew := by
  obtain ⟨⟨aboveBest, rfl⟩, ⟨aboveNew, rfl⟩, hne⟩ := findFork_suffix hfork
  exact (h.without hne htree).branch hne

end Chains

/-! ## One call -/

section Call

variable {env : ChainEnv} {tree : BlockTree env} {outcomes : Outcomes} {st st' : ChainState}
  {block : CBlock} {pindexNew : List CBlockIndex} {ok : Bool}

/-- The end of a call agrees when the names, the chain and the store do. -/
theorem newBestBlock_agrees_iff {hash : UInt256}
    (h : newBestBlock st hash pindexNew = some (ok, st')) :
    ok = true ∧ pindexNew ≠ [] ∧ st'.mem.pindexBest = pindexNew ∧
      st'.mem.pindexGenesisBlock = st.mem.pindexGenesisBlock ∧ (Closed st → Closed st') ∧
      (BestChainAgrees st' ↔ hash = getBlockHash pindexNew ∧ ChainConnected st.connected pindexNew ∧
        st.diskHash = some (writeUInt256 hash)) := by
  cases pindexNew with
  | nil => cases h
  | cons pindex pprev =>
      cases h
      refine ⟨rfl, List.cons_ne_nil _ _, rfl, rfl, fun hc => ⟨hc.fReadOnly, hc.activeBatch⟩, ?_⟩
      constructor
      · rintro ⟨hhash, -, hconnected, hdisk⟩
        exact ⟨hhash, hconnected, hdisk⟩
      · rintro ⟨hhash, hconnected, hdisk⟩
        refine ⟨hhash, ?_, hconnected, hdisk⟩
        rintro entry hentry
        cases hentry
        exact ⟨rfl, rfl⟩

theorem BestChainAgrees.framed (h : BestChainAgrees st) (hframed : Framed st st') : BestChainAgrees st' := by
  obtain ⟨⟨pnext, hmem⟩, hdisk, hconnected⟩ := hframed
  refine ⟨?_, ?_, ?_, ?_⟩
  · rw [hmem]
    exact h.hash
  · rw [hmem]
    exact h.best
  · rw [hmem, hconnected]
    exact h.connected
  · rw [hmem, hdisk]
    exact h.disk

theorem Ready.framed (h : Ready tree st) (hclosed : Closed st') (hframed : Framed st st') :
    Ready tree st' := by
  refine ⟨hclosed, ?_⟩
  obtain ⟨pnext, hmem⟩ := hframed.names
  rw [hmem]
  rcases h.chain with hempty | ⟨hgenesis, hhas, hagrees⟩
  · exact .inl hempty
  · exact .inr ⟨hgenesis, hhas, hagrees.framed hframed⟩

/-- What a call of `SetBestChain` has done when it returns. -/
inductive SetBestChainResult (env : ChainEnv) (outcomes : Outcomes) (st : ChainState) (block : CBlock)
    (pindexNew : List CBlockIndex) : Bool → ChainState → Prop where
  | failed {st' : ChainState} (closed : Closed st') (framed : Framed st st') :
      SetBestChainResult env outcomes st block pindexNew false st'
  | genesis {st₁ st' : ChainState}
      (hgenesis : st.mem.pindexGenesisBlock = [] ∧ env.blockHash block = env.hashGenesisBlock)
      (moved : Moved st st₁ (env.blockHash block) st.connected)
      (best : newBestBlock { st₁ with mem := { st₁.mem with pindexGenesisBlock := pindexNew } }
        (env.blockHash block) pindexNew = some (true, st')) :
      SetBestChainResult env outcomes st block pindexNew true st'
  | extended {st₁ st' : ChainState}
      (hgenesis : ¬ (st.mem.pindexGenesisBlock = [] ∧ env.blockHash block = env.hashGenesisBlock))
      (hprev : block.hashPrevBlock = st.mem.hashBestChain) (hlength : 2 ≤ pindexNew.length)
      (moved : Moved st st₁ (env.blockHash block) (withConnected st.connected (getBlockHash pindexNew)))
      (best : newBestBlock st₁ (env.blockHash block) pindexNew = some (true, st')) :
      SetBestChainResult env outcomes st block pindexNew true st'
  | reorganized {st₁ st₂ st' : ChainState} {pindexBest : CBlockIndex} {pprev pfork : List CBlockIndex}
      (hgenesis : ¬ (st.mem.pindexGenesisBlock = [] ∧ env.blockHash block = env.hashGenesisBlock))
      (hprev : block.hashPrevBlock ≠ st.mem.hashBestChain)
      (hbest : st.mem.pindexBest = pindexBest :: pprev)
      (hfork : findFork st.mem.pindexBest (postpone pindexBest.nChainTrust pindexNew).2 = some pfork)
      (moved : Moved st st₁ (getBlockHash (postpone pindexBest.nChainTrust pindexNew).2)
        (connectedAfter (connectedWithout st.connected (branchTo pfork st.mem.pindexBest))
          (branchTo pfork (postpone pindexBest.nChainTrust pindexNew).2).reverse))
      (postponed : connectPostponed env outcomes st₁ (postpone pindexBest.nChainTrust pindexNew).1.reverse =
        some st₂)
      (best : newBestBlock st₂ (env.blockHash block) pindexNew = some (true, st')) :
      SetBestChainResult env outcomes st block pindexNew true st'

theorem setBestChain_result (hclosed : Closed st)
    (h : setBestChain env outcomes st block pindexNew = some (ok, st')) :
    SetBestChainResult env outcomes st block pindexNew ok st' := by
  rw [setBestChain] at h
  dsimp only at h
  rcases andThen_eq_some.mp h with ⟨hbegin, rfl⟩ | ⟨st₀, hbegin, h⟩
  · obtain ⟨hok, -⟩ := txnBegin_spec hclosed hbegin
    exact Bool.noConfusion hok
  obtain ⟨-, hopen, hframed, hpending⟩ := txnBegin_spec hclosed hbegin
  have hconnected := hpending.trans hframed.connected.symm
  obtain ⟨pnext, hmem⟩ := hframed.names
  rw [hmem] at h
  dsimp only at h
  split_ifs at h with hgenesis hprev
  · cases hwrite : st₀.writeHashBestChain (env.blockHash block) with
    | none => simp [hwrite] at h
    | some step =>
        obtain ⟨fWrite, st₁⟩ := step
        rw [hwrite] at h
        rcases andThen_eq_some.mp h with ⟨hcommit, rfl⟩ | ⟨st₂, hcommit, h⟩
        · obtain ⟨-, hfalse, -⟩ := commitHash_spec hopen hwrite hcommit
          obtain ⟨hclosed', hframed'⟩ := hfalse rfl
          exact .failed hclosed' (hframed.trans hframed')
        · obtain ⟨-, -, htrue⟩ := commitHash_spec hopen hwrite hcommit
          obtain ⟨rfl, -⟩ := newBestBlock_agrees_iff h
          rw [hpending] at htrue
          exact .genesis hgenesis (Moved.framed hframed (htrue rfl)) h
  · rcases andThen_eq_some.mp h with ⟨hinner, rfl⟩ | ⟨st₁, hinner, h⟩
    · obtain ⟨-, hfalse, -⟩ := setBestChainInner_spec hopen hconnected hinner
      obtain ⟨hclosed', hframed'⟩ := hfalse rfl
      exact .failed hclosed' (hframed.trans hframed')
    · obtain ⟨-, -, htrue⟩ := setBestChainInner_spec hopen hconnected hinner
      obtain ⟨hlength, hmoved⟩ := htrue rfl
      obtain ⟨rfl, -⟩ := newBestBlock_agrees_iff h
      rw [hframed.connected] at hmoved
      exact .extended hgenesis hprev hlength (Moved.framed hframed hmoved) h
  · cases hbest : st.mem.pindexBest with
    | nil => simp [hbest] at h
    | cons pindexBest pprev =>
        simp only [hbest] at h
        cases hreorganize : reorganize env outcomes st₀ (postpone pindexBest.nChainTrust pindexNew).2 with
        | none => simp [hreorganize] at h
        | some step =>
            obtain ⟨fReorganize, st₁⟩ := step
            obtain ⟨hreadOnly, hfalse, htrue⟩ := reorganize_spec hopen hconnected hreorganize
            rw [hreorganize] at h
            cases fReorganize with
            | false =>
                obtain ⟨rfl, hclosed', hframed'⟩ := abandon_spec hreadOnly h
                exact .failed hclosed' ((hframed.trans (hfalse rfl)).trans hframed')
            | true =>
                dsimp only at h
                cases hpostponed : connectPostponed env outcomes st₁
                    (postpone pindexBest.nChainTrust pindexNew).1.reverse with
                | none => simp [hpostponed] at h
                | some st₂ =>
                    rw [hpostponed] at h
                    obtain ⟨pfork, hfork, hmoved⟩ := htrue rfl
                    obtain ⟨rfl, -⟩ := newBestBlock_agrees_iff h
                    rw [hframed.connected, hmem] at hmoved
                    rw [hmem] at hfork
                    exact .reorganized hgenesis hprev hbest hfork (Moved.framed hframed hmoved)
                      hpostponed h

end Call

end ProCurrency

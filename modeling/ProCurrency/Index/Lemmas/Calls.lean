import ProCurrency.Index.Node

/-!
# What a call does to the index

`SetBestChain` leaves the entries and the stakes alone. When it fails the globals stay, but for the links forward, and
when it succeeds they name the new best block.
-/

namespace ProCurrency

namespace IndexNode

/-- The same entries, stakes and globals, but for the links forward. -/
structure SameIndex (st st' : IndexNode) : Prop where
  names : ∃ pnext, st'.mem = { st.mem with pnext }
  mapBlockIndex : st'.mapBlockIndex = st.mapBlockIndex
  setStakeSeen : st'.setStakeSeen = st.setStakeSeen

variable {env : ChainEnv} {outcomes : IndexOutcomes} {st st' st'' : IndexNode} {block : CBlock}
  {pindex pindexNew : List CBlockIndex} {ok : Bool}

theorem SameIndex.refl (st : IndexNode) : SameIndex st st := ⟨⟨st.mem.pnext, rfl⟩, rfl, rfl⟩

theorem SameIndex.trans (h : SameIndex st st') (h' : SameIndex st' st'') : SameIndex st st'' := by
  obtain ⟨pnext, hmem⟩ := h.names
  obtain ⟨pnext', hmem'⟩ := h'.names
  exact ⟨⟨pnext', by rw [hmem', hmem]⟩, h'.mapBlockIndex.trans h.mapBlockIndex, h'.setStakeSeen.trans h.setStakeSeen⟩

theorem andThen_eq_some {step : Option (Bool × IndexNode)} {next : IndexNode → Option (Bool × IndexNode)} :
    andThen step next = some (ok, st') ↔
      step = some (false, st') ∧ ok = false ∨ ∃ st₁, step = some (true, st₁) ∧ next st₁ = some (ok, st') := by
  rcases step with _ | ⟨_ | _, st₁⟩
  · simp [andThen]
  · simp [andThen, and_comm, eq_comm]
  · simp [andThen]

/-- A sequence keeps the index when its steps do. -/
theorem SameIndex.andThen {step : Option (Bool × IndexNode)} {next : IndexNode → Option (Bool × IndexNode)}
    (h : andThen step next = some (ok, st')) (hstep : ∀ ok₁ st₁, step = some (ok₁, st₁) → SameIndex st st₁)
    (hnext : ∀ st₁, step = some (true, st₁) → next st₁ = some (ok, st') → SameIndex st₁ st') : SameIndex st st' := by
  rcases andThen_eq_some.mp h with ⟨hfailed, -⟩ | ⟨st₁, hdone, h⟩
  · exact hstep false st' hfailed
  · exact (hstep true st₁ hdone).trans (hnext st₁ hdone h)

theorem writeBlockIndex_sameIndex (st : IndexNode) (hashNext : UInt256) (pindex : List CBlockIndex) :
    SameIndex st (st.writeBlockIndex hashNext pindex) := by
  cases pindex with
  | nil => exact .refl st
  | cons entry pprev => exact ⟨⟨_, rfl⟩, rfl, rfl⟩

theorem disconnectBlock_sameIndex (h : st.disconnectBlock outcomes block pindex = some (ok, st')) :
    SameIndex st st' := by
  rw [disconnectBlock] at h
  split at h
  · cases h
    exact writeBlockIndex_sameIndex st 0 pindex.tail
  · cases h
    exact .refl st

theorem connectBlock_sameIndex (h : st.connectBlock outcomes block pindex = some (ok, st')) : SameIndex st st' := by
  rw [connectBlock] at h
  split at h
  · cases h
    have hsupply : SameIndex st (st.setSupply (getBlockHash pindex) (outcomes.supply pindex)) := ⟨⟨_, rfl⟩, rfl, rfl⟩
    exact (hsupply.trans (writeBlockIndex_sameIndex _ _ pindex)).trans (writeBlockIndex_sameIndex _ _ pindex.tail)
  · cases h
    exact .refl st

theorem commit_sameIndex (h : st.commit outcomes pindex = some (ok, st')) : SameIndex st st' := by
  rw [commit] at h
  split at h
  · cases h
    exact ⟨⟨_, rfl⟩, rfl, rfl⟩
  · cases h
    exact ⟨⟨_, rfl⟩, rfl, rfl⟩

/-! ## Reorganisation -/

theorem disconnectAll_sameIndex {vDisconnect : List (List CBlockIndex)}
    (h : st.disconnectAll env outcomes vDisconnect = some (ok, st')) : SameIndex st st' := by
  induction vDisconnect generalizing st with
  | nil =>
      cases h
      exact .refl _
  | cons pindex vDisconnect ih =>
      rw [disconnectAll] at h
      cases hread : readBlock env outcomes pindex with
      | none =>
          rw [hread] at h
          cases h
          exact .refl _
      | some block =>
          rw [hread] at h
          exact SameIndex.andThen h (fun _ _ => disconnectBlock_sameIndex) fun _ _ => ih

theorem connectAll_sameIndex {vConnect : List (List CBlockIndex)}
    (h : st.connectAll env outcomes vConnect = some (ok, st')) : SameIndex st st' := by
  induction vConnect generalizing st with
  | nil =>
      cases h
      exact .refl _
  | cons pindex vConnect ih =>
      rw [connectAll] at h
      cases hread : readBlock env outcomes pindex with
      | none =>
          rw [hread] at h
          cases h
          exact .refl _
      | some block =>
          rw [hread] at h
          exact SameIndex.andThen h (fun _ _ => connectBlock_sameIndex) fun _ _ => ih

theorem reorganize_sameIndex (h : st.reorganize env outcomes pindexNew = some (ok, st')) : SameIndex st st' := by
  rw [reorganize] at h
  cases hfork : findFork st.mem.pindexBest pindexNew with
  | none =>
      rw [hfork] at h
      cases h
      exact .refl _
  | some pfork =>
      rw [hfork] at h
      refine SameIndex.andThen h (fun _ _ => disconnectAll_sameIndex) fun st₁ _ h => ?_
      refine SameIndex.andThen h (fun _ _ => connectAll_sameIndex) fun st₂ _ h => ?_
      have hwritten : SameIndex st₂ (st₂.writeHashBestChain (getBlockHash pindexNew)) := ⟨⟨_, rfl⟩, rfl, rfl⟩
      refine SameIndex.andThen h (fun _ _ hcommit => hwritten.trans (commit_sameIndex hcommit)) fun st₃ _ h => ?_
      cases h
      exact ⟨⟨_, rfl⟩, rfl, rfl⟩

/-! ## The best chain -/

theorem setBestChainInner_sameIndex (h : st.setBestChainInner env outcomes block pindexNew = some (ok, st')) :
    SameIndex st st' := by
  rw [setBestChainInner] at h
  cases hconnect : st.connectBlock outcomes block pindexNew with
  | none =>
      rw [hconnect] at h
      cases h
  | some step =>
      obtain ⟨fConnect, st₁⟩ := step
      have hsame := connectBlock_sameIndex hconnect
      rw [hconnect] at h
      cases fConnect with
      | false =>
          cases h
          exact hsame.trans ⟨⟨_, rfl⟩, rfl, rfl⟩
      | true =>
          have hwritten : SameIndex st₁ (st₁.writeHashBestChain (env.blockHash block)) := ⟨⟨_, rfl⟩, rfl, rfl⟩
          refine hsame.trans (SameIndex.andThen h (fun _ _ hcommit => hwritten.trans (commit_sameIndex hcommit)) ?_)
          intro st₂ _ h
          match pindexNew, h with
          | _ :: _ :: _, h =>
              cases h
              exact ⟨⟨_, rfl⟩, rfl, rfl⟩

theorem connectPostponed_sameIndex {pending : List (List CBlockIndex)}
    (h : st.connectPostponed env outcomes pending = some st') : SameIndex st st' := by
  induction pending generalizing st with
  | nil =>
      cases h
      exact .refl _
  | cons pindex pending ih =>
      rw [connectPostponed] at h
      cases hread : readBlock env outcomes pindex with
      | none =>
          rw [hread] at h
          cases h
          exact .refl _
      | some block =>
          rw [hread] at h
          dsimp only at h
          cases hinner : st.dropBatch.setBestChainInner env outcomes block pindex with
          | none =>
              rw [hinner] at h
              cases h
          | some step =>
              obtain ⟨fInner, st₁⟩ := step
              have hdropped : SameIndex st st.dropBatch := ⟨⟨_, rfl⟩, rfl, rfl⟩
              have hsame := hdropped.trans (setBestChainInner_sameIndex hinner)
              rw [hinner] at h
              cases fInner with
              | false =>
                  cases h
                  exact hsame
              | true => exact hsame.trans (ih h)

/-- The globals name the block. -/
structure BestIs (env : ChainEnv) (block : CBlock) (pindexNew : List CBlockIndex) (st st' : IndexNode) : Prop where
  ne_nil : pindexNew ≠ []
  hashBestChain : st'.mem.hashBestChain = env.blockHash block
  pindexBest : st'.mem.pindexBest = pindexNew
  best : ∀ pindex ∈ pindexNew.head?, st'.mem.nBestHeight = pindex.nHeight ∧ st'.mem.nBestChainTrust = pindex.nChainTrust
  genesis : st.mem.pindexGenesisBlock ≠ [] ∨ env.blockHash block = env.hashGenesisBlock →
    st'.mem.pindexGenesisBlock ≠ []

/-- What a call of `SetBestChain` may have done. -/
structure SetsBest (env : ChainEnv) (block : CBlock) (pindexNew : List CBlockIndex) (st : IndexNode) (ok : Bool)
    (st' : IndexNode) : Prop where
  mapBlockIndex : st'.mapBlockIndex = st.mapBlockIndex
  setStakeSeen : st'.setStakeSeen = st.setStakeSeen
  failed : ok = false → SameIndex st st'
  done : ok = true → BestIs env block pindexNew st st'

theorem SetsBest.of_sameIndex (h : SameIndex st st') : SetsBest env block pindexNew st false st' :=
  ⟨h.mapBlockIndex, h.setStakeSeen, fun _ => h, fun hfalse => Bool.noConfusion hfalse⟩

theorem SetsBest.newBestBlock {st₁ : IndexNode} (hmap : st₁.mapBlockIndex = st.mapBlockIndex)
    (hstakes : st₁.setStakeSeen = st.setStakeSeen)
    (hgenesis : pindexNew ≠ [] → st.mem.pindexGenesisBlock ≠ [] ∨ env.blockHash block = env.hashGenesisBlock →
      st₁.mem.pindexGenesisBlock ≠ [])
    (h : st₁.newBestBlock (env.blockHash block) pindexNew = some (ok, st')) :
    SetsBest env block pindexNew st ok st' := by
  cases pindexNew with
  | nil => cases h
  | cons pindex pprev =>
      cases h
      have hne := List.cons_ne_nil pindex pprev
      refine ⟨hmap, hstakes, fun hfalse => Bool.noConfusion hfalse, fun _ => ⟨hne, rfl, rfl, ?_, hgenesis hne⟩⟩
      intro entry hentry
      cases hentry
      exact ⟨rfl, rfl⟩

/-- The end of a call that is not about the genesis block. -/
theorem SetsBest.of_moved {st₁ : IndexNode} (hsame : SameIndex st st₁)
    (hgenesis : ¬ (st.mem.pindexGenesisBlock = [] ∧ env.blockHash block = env.hashGenesisBlock))
    (h : st₁.newBestBlock (env.blockHash block) pindexNew = some (ok, st')) :
    SetsBest env block pindexNew st ok st' := by
  obtain ⟨pnext, hmem⟩ := hsame.names
  refine .newBestBlock hsame.mapBlockIndex hsame.setStakeSeen (fun _ hor => ?_) h
  rw [hmem]
  exact hor.elim id fun hhash hnil => hgenesis ⟨hnil, hhash⟩

theorem setBestChain_spec (h : st.setBestChain env outcomes block pindexNew = some (ok, st')) :
    SetsBest env block pindexNew st ok st' := by
  have hdropped : SameIndex st st.dropBatch := ⟨⟨_, rfl⟩, rfl, rfl⟩
  rw [setBestChain] at h
  dsimp only at h
  split at h
  · have hwritten : SameIndex st (st.dropBatch.writeHashBestChain (env.blockHash block)) := ⟨⟨_, rfl⟩, rfl, rfl⟩
    rcases andThen_eq_some.mp h with ⟨hcommit, rfl⟩ | ⟨st₁, hcommit, h⟩
    · exact .of_sameIndex (hwritten.trans (commit_sameIndex hcommit))
    · have hsame := hwritten.trans (commit_sameIndex hcommit)
      refine SetsBest.newBestBlock ?_ ?_ (fun hne _ => ?_) h
      · exact hsame.mapBlockIndex
      · exact hsame.setStakeSeen
      · exact hne
  · rename_i hgenesis
    split at h
    · rcases andThen_eq_some.mp h with ⟨hinner, rfl⟩ | ⟨st₁, hinner, h⟩
      · exact .of_sameIndex (hdropped.trans (setBestChainInner_sameIndex hinner))
      · exact .of_moved (hdropped.trans (setBestChainInner_sameIndex hinner)) hgenesis h
    · cases hbest : st.dropBatch.mem.pindexBest with
      | nil =>
          rw [hbest] at h
          cases h
      | cons pindexBest pprev =>
          rw [hbest] at h
          dsimp only at h
          cases hreorganize : st.dropBatch.reorganize env outcomes (postpone pindexBest.nChainTrust pindexNew).2 with
          | none =>
              rw [hreorganize] at h
              cases h
          | some step =>
              obtain ⟨fReorganize, st₁⟩ := step
              have hsame := hdropped.trans (reorganize_sameIndex hreorganize)
              rw [hreorganize] at h
              cases fReorganize with
              | false =>
                  cases h
                  exact .of_sameIndex (hsame.trans ⟨⟨_, rfl⟩, rfl, rfl⟩)
              | true =>
                  dsimp only at h
                  cases hpostponed : st₁.connectPostponed env outcomes
                      (postpone pindexBest.nChainTrust pindexNew).1.reverse with
                  | none =>
                      rw [hpostponed] at h
                      cases h
                  | some st₂ =>
                      rw [hpostponed] at h
                      exact .of_moved (hsame.trans (connectPostponed_sameIndex hpostponed)) hgenesis h

/-! ## New blocks -/

/-- A call of `AddToBlockIndex` that has made an entry. -/
structure Adds (env : ChainEnv) (outcomes : BlockOutcomes) (block : CBlock) (st : IndexNode)
    (pindexNew : List CBlockIndex) (ok : Bool) (st' : IndexNode) : Prop where
  fresh : st.mapBlockIndex (env.blockHash block) = none
  newEntry : ∃ stakeModifier, outcomes.nextStakeModifier = some stakeModifier ∧
    pindexNew = newEntry env outcomes block stakeModifier (st.prevEntry block) :: st.prevEntry block
  mapBlockIndex : st'.mapBlockIndex = Function.update st.mapBlockIndex (env.blockHash block) (some pindexNew)
  setStakeSeen : st'.setStakeSeen = (st.insertEntry env outcomes block pindexNew).setStakeSeen
  best : (∃ pnext, st'.mem = { st.mem with pnext }) ∧
      (ok = true → ∀ pindex ∈ pindexNew.head?, ¬ st.mem.nBestChainTrust < pindex.nChainTrust) ∨
    BestIs env block pindexNew st st' ∧ ∀ pindex ∈ pindexNew.head?, st.mem.nBestChainTrust < pindex.nChainTrust

theorem addToBlockIndex_spec {outcomes : BlockOutcomes}
    (h : st.addToBlockIndex env outcomes block = some (ok, st')) :
    ok = false ∧ st' = st ∨ ∃ pindexNew, Adds env outcomes block st pindexNew ok st' := by
  rw [addToBlockIndex] at h
  split at h
  · cases h
    exact .inl ⟨rfl, rfl⟩
  · rename_i hfresh
    cases hmodifier : outcomes.nextStakeModifier with
    | none =>
        rw [hmodifier] at h
        cases h
        exact .inl ⟨rfl, rfl⟩
    | some stakeModifier =>
        rw [hmodifier] at h
        dsimp only at h
        obtain ⟨pindexNew, hnew⟩ : ∃ pindexNew,
            pindexNew = IndexNode.newEntry env outcomes block stakeModifier (st.prevEntry block) :: st.prevEntry block :=
          ⟨_, rfl⟩
        rw [← hnew] at h
        have hrecorded := writeBlockIndex_sameIndex (st.insertEntry env outcomes block pindexNew).dropBatch
          ((st.insertEntry env outcomes block pindexNew).hashNext pindexNew) pindexNew
        obtain ⟨pnext, hmem⟩ := hrecorded.names
        refine .inr ⟨pindexNew, ?_⟩
        split at h
        · split at h
          · rename_i hbetter
            have hset := setBestChain_spec h
            refine ⟨not_not.mp hfresh, ⟨stakeModifier, hmodifier, hnew⟩, hset.mapBlockIndex.trans hrecorded.mapBlockIndex,
              hset.setStakeSeen.trans hrecorded.setStakeSeen, ?_⟩
            cases ok with
            | false =>
                obtain ⟨pnext', hmem'⟩ := (hset.failed rfl).names
                refine .inl ⟨⟨pnext', hmem'.trans ?_⟩, Bool.noConfusion⟩
                exact congrArg (fun mem : ChainMemory => { mem with pnext := pnext' }) hmem
            | true =>
                have hbest := hset.done rfl
                have hgenesis := hbest.genesis
                rw [recordEntry, hmem] at hbetter hgenesis
                refine .inr ⟨⟨hbest.ne_nil, hbest.hashBestChain, hbest.pindexBest, hbest.best, hgenesis⟩, ?_⟩
                intro pindex hpindex
                rw [hnew] at hpindex
                cases hpindex
                exact hbetter
          · rename_i hworse
            cases h
            refine ⟨not_not.mp hfresh, ⟨stakeModifier, hmodifier, hnew⟩, hrecorded.mapBlockIndex, hrecorded.setStakeSeen,
              .inl ⟨⟨pnext, hmem⟩, fun _ pindex hpindex hbetter => hworse ?_⟩⟩
            rw [hnew] at hpindex
            cases hpindex
            rw [recordEntry, hmem]
            exact hbetter
        · cases h
          exact ⟨not_not.mp hfresh, ⟨stakeModifier, hmodifier, hnew⟩, hrecorded.mapBlockIndex, hrecorded.setStakeSeen,
            .inl ⟨⟨pnext, hmem⟩, Bool.noConfusion⟩⟩

end IndexNode

end ProCurrency

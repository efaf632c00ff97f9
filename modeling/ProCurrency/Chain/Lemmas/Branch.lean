import ProCurrency.Chain.Lemmas.Connect

/-!
# Branches and forks

A pointer that the walks of `Reorganize` and `SetBestChain` reach is a tail of the one they start from, and the
entries they collect are those above it.
-/

namespace ProCurrency

/-! ## The fork -/

theorem lowerTo_suffix (nHeight : Int) (plonger : List CBlockIndex) : lowerTo nHeight plonger <:+ plonger := by
  induction plonger with
  | nil => exact List.suffix_refl []
  | cons pindex pprev ih =>
      rw [lowerTo]
      split_ifs
      · exact ih.trans (List.suffix_cons pindex pprev)
      · exact List.suffix_refl _

theorem findFork_suffix {pfork plonger fork : List CBlockIndex} (h : findFork pfork plonger = some fork) :
    fork <:+ pfork ∧ fork <:+ plonger ∧ fork ≠ [] := by
  induction pfork generalizing plonger with
  | nil => simp [findFork] at h
  | cons pindex pprev ih =>
      rw [findFork] at h
      split_ifs at h with heq
      · cases h
        rw [← heq]
        exact ⟨List.suffix_refl _, List.suffix_refl _, List.cons_ne_nil _ _⟩
      · have hlower := lowerTo_suffix pindex.nHeight plonger
        cases hlow : lowerTo pindex.nHeight plonger with
        | nil => simp [hlow] at h
        | cons low rest =>
            rw [hlow] at hlower
            simp only [hlow] at h
            split_ifs at h with heq'
            · cases h
              rw [heq']
              exact ⟨List.suffix_refl _, hlower, List.cons_ne_nil _ _⟩
            · obtain ⟨hpprev, hrest, hne⟩ := ih h
              exact ⟨hpprev.trans (List.suffix_cons pindex pprev), hrest.trans hlower, hne⟩

/-! ## The entries above a pointer -/

theorem branchTo_self (pfork : List CBlockIndex) : branchTo pfork pfork = [] := by
  cases pfork with
  | nil => rfl
  | cons pindex pprev => rw [branchTo, if_pos rfl]

theorem branchTo_cons {pfork pprev : List CBlockIndex} (pindex : CBlockIndex) (h : pfork <:+ pprev) :
    branchTo pfork (pindex :: pprev) = (pindex :: pprev) :: branchTo pfork pprev := by
  rw [branchTo, if_neg]
  intro heq
  have hlength := h.length_le
  rw [← heq, List.length_cons] at hlength
  omega

theorem branchTo_append (above pfork : List CBlockIndex) :
    (branchTo pfork (above ++ pfork)).map getBlockHash = above.map CBlockIndex.hashBlock := by
  induction above with
  | nil => rw [List.nil_append, branchTo_self, List.map_nil, List.map_nil]
  | cons pindex above ih =>
      rw [List.cons_append, branchTo_cons pindex (List.suffix_append above pfork), List.map_cons, ih]
      rfl

theorem mem_branchTo_suffix {pfork pindex p : List CBlockIndex} (h : p ∈ branchTo pfork pindex) :
    p <:+ pindex ∧ p ≠ [] := by
  induction pindex with
  | nil => simp [branchTo] at h
  | cons entry pprev ih =>
      rw [branchTo] at h
      split_ifs at h with heq
      · simp at h
      · rcases List.mem_cons.mp h with rfl | hrest
        · exact ⟨List.suffix_refl _, List.cons_ne_nil _ _⟩
        · obtain ⟨hsuffix, hne⟩ := ih hrest
          exact ⟨hsuffix.trans (List.suffix_cons entry pprev), hne⟩

theorem branchTo_eq_cons {pfork pindex : List CBlockIndex} (hne : branchTo pfork pindex ≠ []) :
    ∃ entry pprev, pindex = entry :: pprev ∧
      branchTo pfork pindex = pindex :: branchTo pfork pprev ∧ (pfork <:+ pindex → pfork <:+ pprev) := by
  cases pindex with
  | nil => exact absurd rfl hne
  | cons entry pprev =>
      rw [branchTo] at hne
      split_ifs at hne with heq
      · exact absurd rfl hne
      · refine ⟨entry, pprev, rfl, by rw [branchTo, if_neg heq], fun hsuffix => ?_⟩
        rcases List.suffix_cons_iff.mp hsuffix with rfl | h
        · exact absurd rfl heq
        · exact h

/-- What is postponed are the entries above the intermediate one. -/
theorem postpone_spec (nBestTrust : UInt256) (pindexNew : List CBlockIndex) :
    (postpone nBestTrust pindexNew).2 <:+ pindexNew ∧
      (postpone nBestTrust pindexNew).1 = branchTo (postpone nBestTrust pindexNew).2 pindexNew := by
  induction pindexNew with
  | nil => exact ⟨List.suffix_refl [], rfl⟩
  | cons pindex tail ih =>
      cases tail with
      | nil => exact ⟨List.suffix_refl _, (branchTo_self _).symm⟩
      | cons pprev rest =>
          rw [postpone]
          split_ifs with htrust
          · obtain ⟨hsuffix, hbranch⟩ := ih
            refine ⟨hsuffix.trans (List.suffix_cons pindex _), ?_⟩
            rw [branchTo_cons pindex hsuffix, ← hbranch]
          · exact ⟨List.suffix_refl _, (branchTo_self _).symm⟩

/-! ## The postponed blocks -/

open ChainState

/-- The block of an entry is read, connected and committed. -/
def Connectable (env : ChainEnv) (outcomes : Outcomes) (pindex : List CBlockIndex) : Prop :=
  ∃ block, readBlockFromDisk env outcomes pindex = some block ∧
    outcomes.connects block pindex = true ∧ outcomes.commitFails pindex = false

theorem readBlockFromDisk_hash {env : ChainEnv} {outcomes : Outcomes} {pindex : List CBlockIndex}
    {block : CBlock} (h : readBlockFromDisk env outcomes pindex = some block) :
    env.blockHash block = getBlockHash pindex := by
  cases pindex with
  | nil => cases h
  | cons entry pprev =>
      rw [readBlockFromDisk] at h
      cases hread : outcomes.readBlock entry.nFile entry.nBlockPos with
      | none => simp [hread] at h
      | some block' =>
          simp only [hread] at h
          split_ifs at h with hhash
          cases h
          exact hhash

/-- The loop connects the postponed blocks up to the first one that fails, and the committed best chain is the
last one it has connected. -/
theorem connectPostponed_spec {env : ChainEnv} {outcomes : Outcomes} {pending : List (List CBlockIndex)}
    {st st' : ChainState} (hclosed : Closed st) (h : connectPostponed env outcomes st pending = some st') :
    ∃ done rest, pending = done ++ rest ∧ (∀ pindex ∈ done, Connectable env outcomes pindex) ∧
      (∀ pindex ∈ rest.head?, ¬ Connectable env outcomes pindex) ∧
      Closed st' ∧ SameNames st st' ∧ st'.connected = connectedAfter st.connected done ∧
      st'.diskHash = match done.getLast? with
        | none => st.diskHash
        | some pindex => some (writeUInt256 (getBlockHash pindex)) := by
  induction pending generalizing st with
  | nil =>
      cases h
      exact ⟨[], [], rfl, by simp, by simp, hclosed, SameNames.refl _, rfl, rfl⟩
  | cons pindex pending ih =>
      rw [connectPostponed] at h
      cases hread : readBlockFromDisk env outcomes pindex with
      | none =>
          simp only [hread] at h
          cases h
          refine ⟨[], pindex :: pending, rfl, by simp, ?_, hclosed, SameNames.refl _, rfl, rfl⟩
          simp [Connectable, hread]
      | some block =>
          simp only [hread] at h
          cases hbegin : st.txnBegin with
          | none => simp [hbegin] at h
          | some step =>
              obtain ⟨fBegin, st₁⟩ := step
              obtain ⟨rfl, hopen₁, hframed₁, hpending₁⟩ := txnBegin_spec hclosed hbegin
              simp only [hbegin] at h
              have hconnected₁ := hpending₁.trans hframed₁.connected.symm
              cases hinner : setBestChainInner env outcomes st₁ block pindex with
              | none => simp [hinner] at h
              | some step =>
                  obtain ⟨fInner, st₂⟩ := step
                  obtain ⟨hfInner, hfalse, htrue⟩ := setBestChainInner_spec hopen₁ hconnected₁ hinner
                  rw [hinner] at h
                  cases fInner with
                  | false =>
                      cases h
                      obtain ⟨hclosed', hframed'⟩ := hfalse rfl
                      have hframed := hframed₁.trans hframed'
                      refine ⟨[], pindex :: pending, rfl, by simp, ?_, hclosed', hframed.names,
                        hframed.connected, hframed.diskHash⟩
                      rintro p hp ⟨block', hread', hconnects, hcommits⟩
                      cases hp
                      rw [hread] at hread'
                      cases hread'
                      simp [hconnects, hcommits] at hfInner
                  | true =>
                      obtain ⟨-, hmoved⟩ := htrue rfl
                      obtain ⟨done, rest, rfl, hdone, hrest, hclosed', hnames', hconnected', hdisk'⟩ :=
                        ih hmoved.closed h
                      simp only [eq_comm (a := true), Bool.and_eq_true, Bool.not_eq_true'] at hfInner
                      refine ⟨pindex :: done, rest, rfl, ?_, hrest, hclosed',
                        (hframed₁.names.trans hmoved.names).trans hnames', ?_, ?_⟩
                      · rintro p (_ | ⟨_, hp⟩)
                        · exact ⟨block, hread, hfInner⟩
                        · exact hdone p hp
                      · rw [hconnected', hmoved.connected, hframed₁.connected]
                        rfl
                      · rw [hdisk', List.getLast?_cons]
                        cases done.getLast? with
                        | none => exact hmoved.diskHash.trans (by rw [readBlockFromDisk_hash hread]; rfl)
                        | some p => rfl

end ProCurrency

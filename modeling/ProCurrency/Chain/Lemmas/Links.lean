import ProCurrency.Chain.Theorems
import ProCurrency.Lib.LinkedChain

/-!
# The links forward

No step of a call touches `pnext` but those that come after a commit. On a chain whose links are those of its
entries, the links that are cut and tied on the way to another one are those of the other one.
-/

namespace ProCurrency

open ChainState ParentTree LinkedChain

/-! ## What a step leaves alone -/

section Memory

variable {env : ChainEnv} {outcomes : Outcomes} {st st' : ChainState} {ok : Bool} {block : CBlock}
  {pindex pindexNew : List CBlockIndex}

theorem txnBegin_mem (h : st.txnBegin = some (ok, st')) : st'.mem = st.mem := by
  unfold txnBegin at h
  split at h <;> cases h
  rfl

theorem txnCommit_mem {fFail : Bool} (h : st.txnCommit fFail = some (ok, st')) : st'.mem = st.mem := by
  unfold txnCommit at h
  split at h <;> cases h
  rfl

theorem writeHashBestChain_mem {hash : UInt256} (h : st.writeHashBestChain hash = some (ok, st')) :
    st'.mem = st.mem := by
  unfold writeHashBestChain at h
  split at h <;> cases h
  rfl

theorem connectBlock_mem (h : st.connectBlock outcomes block pindex = some (ok, st')) : st'.mem = st.mem := by
  unfold connectBlock at h
  split at h <;> cases h
  rfl

theorem disconnectBlock_mem (h : st.disconnectBlock outcomes block pindex = some (ok, st')) :
    st'.mem = st.mem := by
  unfold disconnectBlock at h
  split at h <;> cases h
  rfl

theorem abandon_mem (h : abandon outcomes st pindexNew = some (ok, st')) : ok = false ∧ st'.mem = st.mem := by
  unfold abandon txnAbort at h
  cases hdb : st.txdb.txnAbort with
  | none => simp [hdb] at h
  | some step =>
      simp only [hdb] at h
      cases h
      exact ⟨rfl, rfl⟩

theorem disconnectAll_mem {vDisconnect : List (List CBlockIndex)}
    (h : disconnectAll env outcomes st vDisconnect = some (ok, st')) : st'.mem = st.mem := by
  induction vDisconnect generalizing st with
  | nil =>
      cases h
      rfl
  | cons pindex vDisconnect ih =>
      rw [disconnectAll] at h
      cases hread : readBlockFromDisk env outcomes pindex with
      | none =>
          simp only [hread] at h
          cases h
          rfl
      | some block =>
          simp only [hread] at h
          rcases andThen_eq_some.mp h with ⟨hstep, rfl⟩ | ⟨st₁, hstep, h⟩
          · exact disconnectBlock_mem hstep
          · exact (ih h).trans (disconnectBlock_mem hstep)

theorem connectAll_mem {vConnect : List (List CBlockIndex)}
    (h : connectAll env outcomes st vConnect = some (ok, st')) : st'.mem = st.mem := by
  induction vConnect generalizing st with
  | nil =>
      cases h
      rfl
  | cons pindex vConnect ih =>
      rw [connectAll] at h
      cases hread : readBlockFromDisk env outcomes pindex with
      | none =>
          simp only [hread] at h
          cases h
          rfl
      | some block =>
          simp only [hread] at h
          rcases andThen_eq_some.mp h with ⟨hstep, rfl⟩ | ⟨st₁, hstep, h⟩
          · exact connectBlock_mem hstep
          · exact (ih h).trans (connectBlock_mem hstep)

theorem reorganize_mem (h : reorganize env outcomes st pindexNew = some (ok, st')) :
    (ok = false → st'.mem = st.mem) ∧
      (ok = true → ∃ pfork, findFork st.mem.pindexBest pindexNew = some pfork ∧
        st'.mem.pnext =
          relink (branchTo pfork st.mem.pindexBest) (branchTo pfork pindexNew).reverse st.mem.pnext) := by
  rw [reorganize] at h
  cases hfork : findFork st.mem.pindexBest pindexNew with
  | none =>
      simp only [hfork] at h
      cases h
      exact ⟨fun _ => rfl, fun hok => Bool.noConfusion hok⟩
  | some pfork =>
      simp only [hfork] at h
      rcases andThen_eq_some.mp h with ⟨hdisconnect, rfl⟩ | ⟨st₁, hdisconnect, h⟩
      · exact ⟨fun _ => disconnectAll_mem hdisconnect, fun hok => Bool.noConfusion hok⟩
      have hmem₁ := disconnectAll_mem hdisconnect
      rcases andThen_eq_some.mp h with ⟨hconnect, rfl⟩ | ⟨st₂, hconnect, h⟩
      · exact ⟨fun _ => (connectAll_mem hconnect).trans hmem₁, fun hok => Bool.noConfusion hok⟩
      have hmem₂ := (connectAll_mem hconnect).trans hmem₁
      rcases andThen_eq_some.mp h with ⟨hwrite, rfl⟩ | ⟨st₃, hwrite, h⟩
      · exact ⟨fun _ => (writeHashBestChain_mem hwrite).trans hmem₂, fun hok => Bool.noConfusion hok⟩
      have hmem₃ := (writeHashBestChain_mem hwrite).trans hmem₂
      rcases andThen_eq_some.mp h with ⟨hcommit, rfl⟩ | ⟨st₄, hcommit, h⟩
      · exact ⟨fun _ => (txnCommit_mem hcommit).trans hmem₃, fun hok => Bool.noConfusion hok⟩
      · have hmem₄ := (txnCommit_mem hcommit).trans hmem₃
        cases h
        refine ⟨fun hok => Bool.noConfusion hok, fun _ => ⟨pfork, rfl, ?_⟩⟩
        rw [hmem₄]

theorem setBestChainInner_mem (h : setBestChainInner env outcomes st block pindexNew = some (ok, st')) :
    (ok = false → st'.mem = st.mem) ∧ (ok = true → st'.mem.pnext = relink [] [pindexNew] st.mem.pnext) := by
  rw [setBestChainInner] at h
  dsimp only at h
  cases hconnected : andThen (st.connectBlock outcomes block pindexNew) fun st =>
      st.writeHashBestChain (env.blockHash block) with
  | none => simp [hconnected] at h
  | some step =>
      obtain ⟨fConnected, st₂⟩ := step
      have hmem₂ : st₂.mem = st.mem := by
        rcases andThen_eq_some.mp hconnected with ⟨hconnect, rfl⟩ | ⟨st₁, hconnect, hwrite⟩
        · exact connectBlock_mem hconnect
        · exact (writeHashBestChain_mem hwrite).trans (connectBlock_mem hconnect)
      rw [hconnected] at h
      cases fConnected with
      | false =>
          obtain ⟨rfl, hmem⟩ := abandon_mem h
          exact ⟨fun _ => hmem.trans hmem₂, fun hok => Bool.noConfusion hok⟩
      | true =>
          rcases andThen_eq_some.mp h with ⟨hcommit, rfl⟩ | ⟨st₃, hcommit, h⟩
          · exact ⟨fun _ => (txnCommit_mem hcommit).trans hmem₂, fun hok => Bool.noConfusion hok⟩
          · have hmem₃ := (txnCommit_mem hcommit).trans hmem₂
            rcases pindexNew with _ | ⟨pindex, _ | ⟨pprev, rest⟩⟩
            · cases h
            · cases h
            · cases h
              exact ⟨fun hok => Bool.noConfusion hok, fun _ => by rw [hmem₃]⟩

/-- Postponed blocks that are all connected are all linked. -/
theorem connectPostponed_pnext {pending : List (List CBlockIndex)} (hclosed : Closed st)
    (hall : ∀ pindex ∈ pending, Connectable env outcomes pindex)
    (h : connectPostponed env outcomes st pending = some st') :
    st'.mem.pnext = relink [] pending st.mem.pnext := by
  induction pending generalizing st with
  | nil =>
      cases h
      rfl
  | cons pindex pending ih =>
      obtain ⟨⟨block, hread, hconnects, hcommits⟩, hall⟩ := List.forall_mem_cons.mp hall
      rw [connectPostponed] at h
      simp only [hread] at h
      cases hbegin : st.txnBegin with
      | none => simp [hbegin] at h
      | some step =>
          obtain ⟨fBegin, st₁⟩ := step
          obtain ⟨rfl, hopen₁, hframed₁, hpending₁⟩ := txnBegin_spec hclosed hbegin
          simp only [hbegin] at h
          cases hinner : setBestChainInner env outcomes st₁ block pindex with
          | none => simp [hinner] at h
          | some step =>
              obtain ⟨fInner, st₂⟩ := step
              obtain ⟨hfInner, -, htrue⟩ := setBestChainInner_spec hopen₁
                (hpending₁.trans hframed₁.connected.symm) hinner
              rw [hconnects, hcommits] at hfInner
              obtain rfl : fInner = true := hfInner
              obtain ⟨-, hmoved⟩ := htrue rfl
              rw [hinner] at h
              rw [ih hmoved.closed hall h, (setBestChainInner_mem hinner).2 rfl, txnBegin_mem hbegin]
              rfl

theorem newBestBlock_pnext {hash : UInt256} (h : newBestBlock st hash pindexNew = some (ok, st')) :
    ok = true ∧ st'.mem.pnext = st.mem.pnext := by
  cases pindexNew with
  | nil => cases h
  | cons pindex pprev =>
      cases h
      exact ⟨rfl, rfl⟩

end Memory

/-! ## The links of a chain -/

/-- The links forward between the entries of a chain. -/
def links (pindex : List CBlockIndex) : UInt256 → Option UInt256 := successor (pindex.map CBlockIndex.hashBlock)

section Links

variable {tree : Tree CBlockIndex.hashBlock} {above pfork : List CBlockIndex}

theorem relink_disconnected (hne : pfork ≠ []) (htree : tree.Has (above ++ pfork)) :
    relink (branchTo pfork (above ++ pfork)) [] (links (above ++ pfork)) = links pfork := by
  induction above with
  | nil =>
      rw [List.nil_append, branchTo_self]
      rfl
  | cons pindex above ih =>
      obtain ⟨pprev, rest, hsplit⟩ : ∃ pprev rest, above ++ pfork = pprev :: rest :=
        List.exists_cons_of_ne_nil (List.append_ne_nil_of_right_ne_nil above hne)
      rw [List.cons_append, branchTo_cons pindex (List.suffix_append above pfork)]
      have htail : tree.Has (above ++ pfork) := by
        rw [List.cons_append, hsplit] at htree
        rw [hsplit]
        exact htree.tail
      have hunlink : relink [pindex :: (above ++ pfork)] [] (links (pindex :: (above ++ pfork))) =
          links (above ++ pfork) := by
        have hnodup := htail.nodup
        rw [hsplit] at hnodup ⊢
        refine Eq.trans (funext fun hash => ?_) (successor_unlink (a := pindex.hashBlock) hnodup)
        rw [Function.update_apply]
        simp [relink, getBlockHash, links]
      rw [← ih htail, ← hunlink]
      rfl

theorem relink_connected (above : List CBlockIndex) (hne : pfork ≠ []) :
    relink [] (branchTo pfork (above ++ pfork)).reverse (links pfork) = links (above ++ pfork) := by
  induction above with
  | nil =>
      rw [List.nil_append, branchTo_self]
      rfl
  | cons pindex above ih =>
      obtain ⟨pprev, rest, hsplit⟩ : ∃ pprev rest, above ++ pfork = pprev :: rest :=
        List.exists_cons_of_ne_nil (List.append_ne_nil_of_right_ne_nil above hne)
      rw [List.cons_append, branchTo_cons pindex (List.suffix_append above pfork), List.reverse_cons]
      have happend : ∀ (vConnect : List (List CBlockIndex)) (p : List CBlockIndex) (pnext : UInt256 → Option UInt256),
          relink [] (vConnect ++ [p]) pnext = relink [] [p] (relink [] vConnect pnext) := by
        intro vConnect p pnext
        exact List.foldl_append
      rw [happend, ih, hsplit]
      refine Eq.trans (funext fun hash => ?_) (successor_cons pindex.hashBlock pprev.hashBlock _).symm
      rw [Function.update_apply]
      simp [relink, getBlockHash, links]

/-- From one chain to another. -/
theorem relink_links {pindexBest pindexNew : List CBlockIndex} (hfork : findFork pindexBest pindexNew = some pfork)
    (htree : tree.Has pindexBest) :
    relink (branchTo pfork pindexBest) (branchTo pfork pindexNew).reverse (links pindexBest) =
      links pindexNew := by
  obtain ⟨⟨aboveBest, rfl⟩, ⟨aboveNew, rfl⟩, hne⟩ := findFork_suffix hfork
  calc relink (branchTo pfork (aboveBest ++ pfork)) (branchTo pfork (aboveNew ++ pfork)).reverse
        (links (aboveBest ++ pfork))
      = relink [] (branchTo pfork (aboveNew ++ pfork)).reverse
          (relink (branchTo pfork (aboveBest ++ pfork)) [] (links (aboveBest ++ pfork))) := rfl
    _ = relink [] (branchTo pfork (aboveNew ++ pfork)).reverse (links pfork) := by
        rw [relink_disconnected hne htree]
    _ = links (aboveNew ++ pfork) := relink_connected aboveNew hne

end Links

/-! ## One call -/

section Call

variable {env : ChainEnv} {tree : BlockTree env} {pfork : List CBlockIndex} {outcomes : Outcomes}
  {st st' : ChainState} {block : CBlock} {pindexNew : List CBlockIndex}

theorem setBestChain_mem (h : setBestChain env outcomes st block pindexNew = some (false, st')) :
    st'.mem = st.mem := by
  rw [setBestChain] at h
  dsimp only at h
  rcases andThen_eq_some.mp h with ⟨hbegin, -⟩ | ⟨st₀, hbegin, h⟩
  · exact txnBegin_mem hbegin
  have hmem₀ := txnBegin_mem hbegin
  split_ifs at h with hgenesis hprev
  · cases hwrite : st₀.writeHashBestChain (env.blockHash block) with
    | none => simp [hwrite] at h
    | some step =>
        rw [hwrite] at h
        rcases andThen_eq_some.mp h with ⟨hcommit, -⟩ | ⟨st₂, hcommit, h⟩
        · exact (txnCommit_mem hcommit).trans ((writeHashBestChain_mem hwrite).trans hmem₀)
        · exact Bool.noConfusion (newBestBlock_pnext h).1
  · rcases andThen_eq_some.mp h with ⟨hinner, -⟩ | ⟨st₁, hinner, h⟩
    · exact ((setBestChainInner_mem hinner).1 rfl).trans hmem₀
    · exact Bool.noConfusion (newBestBlock_pnext h).1
  · cases hbest : st₀.mem.pindexBest with
    | nil => simp [hbest] at h
    | cons pindexBest pprev =>
        simp only [hbest] at h
        cases hreorganize : reorganize env outcomes st₀ (postpone pindexBest.nChainTrust pindexNew).2 with
        | none => simp [hreorganize] at h
        | some step =>
            obtain ⟨fReorganize, st₁⟩ := step
            rw [hreorganize] at h
            cases fReorganize with
            | false => exact (abandon_mem h).2.trans (((reorganize_mem hreorganize).1 rfl).trans hmem₀)
            | true =>
                dsimp only at h
                cases hpostponed : connectPostponed env outcomes st₁
                    (postpone pindexBest.nChainTrust pindexNew).1.reverse with
                | none => simp [hpostponed] at h
                | some st₂ =>
                    rw [hpostponed] at h
                    exact Bool.noConfusion (newBestBlock_pnext h).1

/-- A call that connects all its blocks ties the links of the new chain. -/
theorem setBestChain_pnext (hready : Ready tree st) (hlinks : st.mem.pnext = links st.mem.pindexBest)
    (hnew : tree.mapBlockIndex.Has pindexNew) (hconnects : ConnectsAll env outcomes st block pindexNew)
    (h : setBestChain env outcomes st block pindexNew = some (true, st')) :
    st'.mem.pnext = links pindexNew := by
  obtain ⟨hhash, hpostponed⟩ := hconnects
  rw [setBestChain] at h
  dsimp only at h
  rcases andThen_eq_some.mp h with ⟨-, hok⟩ | ⟨st₀, hbegin, h⟩
  · exact Bool.noConfusion hok
  obtain ⟨-, hopen, hframed, hpending⟩ := txnBegin_spec hready.closed hbegin
  have hmem₀ := txnBegin_mem hbegin
  rw [hmem₀] at h
  split_ifs at h with hgenesis hprev
  · cases hwrite : st₀.writeHashBestChain (env.blockHash block) with
    | none => simp [hwrite] at h
    | some step =>
        rw [hwrite] at h
        rcases andThen_eq_some.mp h with ⟨-, hok⟩ | ⟨st₂, hcommit, h⟩
        · exact Bool.noConfusion hok
        · rw [(newBestBlock_pnext h).2, txnCommit_mem hcommit, writeHashBestChain_mem hwrite, hmem₀, hlinks]
          rcases hready.chain with ⟨-, hbest, -⟩ | ⟨hloaded, -⟩
          · rw [hbest]
            cases pindexNew with
            | nil => exact absurd rfl hnew.ne_nil
            | cons pindex pprev =>
                have hroot := tree.genesis (pindex :: pprev) (hgenesis.2 ▸ hhash ▸ hnew.lookup_head)
                cases hroot
                rfl
          · exact absurd hgenesis.1 hloaded
  · rcases andThen_eq_some.mp h with ⟨-, hok⟩ | ⟨st₁, hinner, h⟩
    · exact Bool.noConfusion hok
    · obtain ⟨-, -, htrue⟩ := setBestChainInner_spec hopen (hpending.trans hframed.connected.symm) hinner
      obtain ⟨hlength, -⟩ := htrue rfl
      obtain ⟨⟨pindex, rfl⟩, -, hne, -⟩ := extended_parent hready hnew hhash hprev hlength
      rw [(newBestBlock_pnext h).2, (setBestChainInner_mem hinner).2 rfl, hmem₀, hlinks]
      have hone := relink_connected [pindex] hne
      rw [List.singleton_append, branchTo_cons pindex (List.suffix_refl _), branchTo_self] at hone
      exact hone
  · cases hbest : st.mem.pindexBest with
    | nil => simp [hbest] at h
    | cons pindexBest pprev =>
        have hall := hpostponed hgenesis hprev pindexBest (by rw [hbest]; rfl)
        simp only [hbest] at h
        cases hreorganize : reorganize env outcomes st₀ (postpone pindexBest.nChainTrust pindexNew).2 with
        | none => simp [hreorganize] at h
        | some step =>
            obtain ⟨fReorganize, st₁⟩ := step
            rw [hreorganize] at h
            cases fReorganize with
            | false => exact Bool.noConfusion (abandon_mem h).1
            | true =>
                obtain ⟨pfork, hfork, hpnext⟩ := (reorganize_mem hreorganize).2 rfl
                obtain ⟨-, -, htrue⟩ := reorganize_spec hopen (hpending.trans hframed.connected.symm) hreorganize
                obtain ⟨_, -, hmoved⟩ := htrue rfl
                dsimp only at h
                cases hconnected : connectPostponed env outcomes st₁
                    (postpone pindexBest.nChainTrust pindexNew).1.reverse with
                | none => simp [hconnected] at h
                | some st₂ =>
                    rw [hconnected] at h
                    obtain ⟨hsuffix, hsecondary⟩ := postpone_spec pindexBest.nChainTrust pindexNew
                    obtain ⟨-, hforkSuffix, hforkNe⟩ := findFork_suffix hfork
                    have hhas : tree.mapBlockIndex.Has st.mem.pindexBest := by
                      rcases hready.chain with ⟨-, hnil, -⟩ | ⟨-, hhas, -⟩
                      · rw [hnil] at hbest
                        cases hbest
                      · exact hhas
                    rw [hmem₀, hlinks] at hpnext
                    rw [hmem₀] at hfork
                    rw [(newBestBlock_pnext h).2, connectPostponed_pnext hmoved.closed
                      (fun p hp => hall p (List.mem_reverse.mp hp)) hconnected, hpnext, relink_links hfork hhas,
                      hsecondary]
                    have hne : (postpone pindexBest.nChainTrust pindexNew).2 ≠ [] := by
                      intro hnil
                      rw [hnil] at hforkSuffix
                      exact hforkNe (List.suffix_nil.mp hforkSuffix)
                    obtain ⟨above, habove⟩ := hsuffix
                    have htied := relink_connected above hne
                    rw [habove] at htied
                    exact htied

end Call

end ProCurrency

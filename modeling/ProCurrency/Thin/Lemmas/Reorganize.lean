import ProCurrency.Thin.Lemmas.Walk

/-!
# A new best header

A call of `SetBestThinChain` that returns true, and whose postponed entries are all committed, moves the links
forward onto the chain of the new header and leaves the entries as they are.
-/

namespace ProCurrency

open LinkedChain

namespace ThinIndex

variable {st st' : ThinIndex} {heap : Nat → Option ThinEntry} {chain below l v : List Nat}
  {p q pfork mid : Nat} {e : ThinEntry} {commits : Nat → Bool}

/-! ## Links -/

theorem linkPrev_eq (st : ThinIndex) (hparent : Parent st.heap p q) (next : Option Nat) :
    st.linkPrev p next = { st with pnext := Function.update st.pnext q next } := by
  obtain ⟨e, he, hprev⟩ := hparent
  rw [linkPrev, he, Option.bind_some, hprev]

theorem setBestThinChainInner_eq (st : ThinIndex) (hparent : Parent st.heap p q) (hcommits : commits p = true) :
    st.setBestThinChainInner commits p = some (true, { st with pnext := Function.update st.pnext q (some p) }) := by
  obtain ⟨e, he, hprev⟩ := hparent
  rw [setBestThinChainInner, if_pos hcommits, he, Option.bind_some, hprev]

/-- The links of a branch are taken away from its tip downwards. -/
theorem unlinkBranch (st : ThinIndex) (h : Branch heap pfork p l) (hheap : st.heap = heap)
    (hnodup : (l ++ pfork :: below).Nodup) (hpnext : st.pnext = successor (l ++ pfork :: below)) :
    l.foldl (fun st pindex => st.linkPrev pindex none) st = { st with pnext := successor (pfork :: below) } := by
  induction h generalizing st with
  | refl =>
      rw [List.nil_append] at hpnext
      rw [List.foldl_nil, ← hpnext]
  | step parent rest ih =>
      rename_i p q l
      subst hheap
      obtain ⟨above, habove⟩ := rest.head below
      rw [List.foldl_cons, linkPrev_eq st parent]
      have hrest : (l ++ pfork :: below).Nodup := (List.nodup_cons.mp hnodup).2
      have hlinks : Function.update st.pnext q none = successor (l ++ pfork :: below) := by
        rw [hpnext, List.cons_append, habove]
        rw [habove] at hrest
        exact successor_unlink hrest
      rw [hlinks]
      exact ih { st with pnext := successor (l ++ pfork :: below) } rfl hrest rfl

/-- The links of a branch are set from the fork upwards. -/
theorem linkBranch (st : ThinIndex) (h : Branch heap pfork p l) (hheap : st.heap = heap)
    (hpnext : st.pnext = successor (pfork :: below)) :
    l.reverse.foldl (fun st pindex => st.linkPrev pindex (some pindex)) st =
      { st with pnext := successor (l ++ pfork :: below) } := by
  induction h with
  | refl => rw [List.nil_append, ← hpnext]; rfl
  | step parent rest ih =>
      rename_i p q l
      subst hheap
      obtain ⟨above, habove⟩ := rest.head below
      rw [List.reverse_cons, List.foldl_append, ih, List.foldl_cons, List.foldl_nil,
        linkPrev_eq { st with pnext := successor (l ++ pfork :: below) } parent]
      dsimp only
      rw [List.cons_append, habove, successor_cons]

theorem connectPostponedThin_concat (hl : connectPostponedThin commits st l = some st')
    (hcommits : ∀ p ∈ l, commits p = true) :
    connectPostponedThin commits st (l ++ [p]) = connectPostponedThin commits st' [p] := by
  induction l generalizing st with
  | nil => cases hl; rfl
  | cons a l ih =>
      obtain ⟨ha, hcommits⟩ := List.forall_mem_cons.mp hcommits
      rw [connectPostponedThin] at hl
      rw [List.cons_append, connectPostponedThin]
      cases hinner : st.setBestThinChainInner commits a with
      | none => simp [hinner] at hl
      | some step =>
          obtain ⟨fInner, st₁⟩ := step
          cases fInner with
          | false =>
              rw [setBestThinChainInner, if_pos ha] at hinner
              split at hinner <;> cases hinner
          | true =>
              rw [hinner] at hl
              exact ih hl hcommits

theorem connectPostponedThin_branch (st : ThinIndex) (h : Branch heap mid p v) (hheap : st.heap = heap)
    (hcommits : ∀ p ∈ v, commits p = true) (hpnext : st.pnext = successor (mid :: below)) :
    connectPostponedThin commits st v.reverse = some { st with pnext := successor (v ++ mid :: below) } := by
  induction h with
  | refl => rw [List.nil_append, ← hpnext]; rfl
  | step parent rest ih =>
      rename_i p q v
      subst hheap
      obtain ⟨hp, hcommits⟩ := List.forall_mem_cons.mp hcommits
      obtain ⟨above, habove⟩ := rest.head below
      rw [List.reverse_cons, connectPostponedThin_concat (ih hcommits)
        (fun a ha => hcommits a (List.mem_reverse.mp ha)), connectPostponedThin,
        setBestThinChainInner_eq { st with pnext := successor (v ++ mid :: below) } parent hp]
      dsimp only [connectPostponedThin]
      rw [List.cons_append, habove, successor_cons]

/-! ## Calls -/

/-- The links forward after a reorganisation. -/
theorem reorganizeHeaders_spec {pindexBest : Nat} {rest : List Nat} (h : MainChain st (pindexBest :: rest))
    (hreorganize : st.reorganizeHeaders commits pindexBest p = some (true, st')) :
    commits p = true ∧ ∃ above pfork below l, pindexBest :: rest = above ++ pfork :: below ∧
      Branch st.heap pfork p l ∧ st' = { st with pnext := successor (l ++ pfork :: below) } := by
  rw [reorganizeHeaders] at hreorganize
  cases hfork : findThinFork st.heap st.nAllocated st.nAllocated pindexBest p with
  | none => simp [hfork] at hreorganize
  | some fork =>
      cases fork with
      | none => simp [hfork] at hreorganize
      | some pfork =>
          simp only [hfork] at hreorganize
          cases hdisconnect : thinBranchTo st.heap pfork st.nAllocated pindexBest with
          | none => simp [hdisconnect] at hreorganize
          | some vDisconnect =>
              cases hconnect : thinBranchTo st.heap pfork st.nAllocated p with
              | none => simp [hdisconnect, hconnect] at hreorganize
              | some vConnect =>
                  simp only [hdisconnect, hconnect] at hreorganize
                  split_ifs at hreorganize with hcommits
                  · have hold := thinBranchTo_branch hdisconnect
                    have hnew := thinBranchTo_branch hconnect
                    obtain ⟨below, hsplit⟩ := hold.split h.parents h.not_parent_last
                    have hnodup := h.nodup
                    have hpnext := h.pnext
                    rw [hsplit] at hnodup hpnext
                    rw [unlinkBranch st hold rfl hnodup hpnext,
                      linkBranch { st with pnext := successor (pfork :: below) } hnew rfl rfl] at hreorganize
                    cases hreorganize
                    exact ⟨hcommits, vDisconnect, pfork, below, vConnect, hsplit, hnew, rfl⟩
                  · cases hreorganize

/-- The globals after a new best header, with its links. -/
def withBest (st : ThinIndex) (hash : UInt256) (pindexNew : Nat) (e : ThinEntry) (chain : List Nat) : ThinIndex :=
  { st with
    pnext := successor chain
    hashBestChain := hash
    pindexBestHeader := some pindexNew
    nBestHeight := e.nHeight
    nBestChainTrust := e.nChainTrust }

theorem newBestHeader_spec {hash : UInt256} {ok : Bool} (he : st.heap p = some e)
    (h : newBestHeader { st with pnext := successor chain } hash p = some (ok, st')) :
    ok = true ∧ st' = st.withBest hash p e chain := by
  rw [newBestHeader] at h
  simp only [he] at h
  split_ifs at h
  cases h
  exact ⟨rfl, rfl⟩

/-- A chain over a part of the main chain that reaches down to the rear. -/
theorem MainChain.moved {above : List Nat} (h : MainChain st chain) (hchain : chain = above ++ pfork :: below)
    (hbranch : Branch st.heap pfork p l) (he : st.heap p = some e) :
    MainChain (st.withBest e.hashBlock p e (l ++ pfork :: below)) (l ++ pfork :: below) := by
  subst hchain
  obtain ⟨rest, hrest⟩ := hbranch.head below
  have hfork := h.alive (p := pfork) (by simp)
  obtain ⟨hlinked, -⟩ := hbranch.linked h.tree h.linked.right_of_append hfork
  obtain ⟨pindexRear, eRear, hlast, hrear, heRear, hprev⟩ := h.rear
  have htree := h.tree
  refine ⟨⟨htree.filed, htree.allocated, htree.earlier, htree.graded⟩, ⟨p, rest, hrest, rfl, e, he, rfl, rfl, rfl⟩,
    ?_, ⟨pindexRear, eRear, ?_, hrear, heRear, hprev⟩, rfl, h.genesis⟩
  · exact linked_of_heap_eq st _ rfl hlinked
  · rw [List.getLast?_append] at hlast ⊢
    rw [List.getLast?_cons] at hlast ⊢
    exact hlast

theorem setBestThinChain_extends {env : ThinEnv} {header : ThinHeader} (h : MainChain st chain)
    (hdirect : header.hashPrevBlock = st.hashBestChain) :
    st.setBestThinChain env commits header p =
      match st.setBestThinChainInner commits p with
      | none => none
      | some (false, st) => some (false, st)
      | some (true, st) => st.newBestHeader header.hash p := by
  obtain ⟨pindexGenesis, hgenesis, -⟩ := h.genesis
  rw [setBestThinChain, hgenesis]
  simp only [reduceCtorEq, false_and, if_false, if_pos hdirect] <;> rfl

theorem setBestThinChain_spec {env : ThinEnv} {header : ThinHeader} (h : MainChain st chain)
    (he : st.heap p = some e) (hhash : e.hashBlock = header.hash)
    (hprev : e.pprev = st.mapBlockThinIndex header.hashPrevBlock)
    (hpostponed : header.hashPrevBlock ≠ st.hashBestChain → ∀ v mid,
      postponeThin st.heap st.nBestChainTrust st.nAllocated p = some (v, mid) → ∀ q ∈ v, commits q = true)
    (hset : st.setBestThinChain env commits header p = some (true, st')) :
    ∃ chain, MainChain st' chain ∧ st' = st.withBest header.hash p e chain := by
  obtain ⟨pindexBest, rest, rfl, hbest, best, heBest, hbestHash, -, hbestTrust⟩ := h.best
  obtain ⟨pindexGenesis, hgenesis, -⟩ := h.genesis
  rw [setBestThinChain, hgenesis] at hset
  simp only [reduceCtorEq, false_and, if_false] at hset
  split_ifs at hset with hdirect
  · have hparent : Parent st.heap p pindexBest := by
      refine ⟨e, he, ?_⟩
      rw [hprev, hdirect, ← hbestHash]
      exact h.tree.filed_of_heap heBest
    cases hcommits : commits p with
    | false => simp [setBestThinChainInner, hcommits] at hset
    | true =>
        rw [setBestThinChainInner_eq st hparent hcommits] at hset
        dsimp only at hset
        rw [h.pnext, ← successor_cons] at hset
        obtain ⟨-, rfl⟩ := newBestHeader_spec he hset
        rw [← hhash]
        exact ⟨_, h.moved (List.nil_append _).symm (.step hparent .refl) he, rfl⟩
  · simp only [hbest, heBest, hbestTrust] at hset
    cases hpostpone : postponeThin st.heap st.nBestChainTrust st.nAllocated p with
    | none => simp [hpostpone] at hset
    | some found =>
        obtain ⟨v, mid⟩ := found
        simp only [hpostpone] at hset
        cases hreorganize : st.reorganizeHeaders commits pindexBest mid with
        | none => simp [hreorganize] at hset
        | some step =>
            obtain ⟨ok, st₁⟩ := step
            cases ok with
            | false => simp [hreorganize] at hset
            | true =>
                obtain ⟨-, above, pfork, below, l, hsplit, hbranch, rfl⟩ := reorganizeHeaders_spec h hreorganize
                simp only [hreorganize] at hset
                obtain ⟨rest', hrest'⟩ := hbranch.head below
                have hv := postponeThin_branch hpostpone
                rw [hrest', connectPostponedThin_branch { st with pnext := successor (mid :: rest') } hv rfl
                  (hpostponed hdirect v mid hpostpone) rfl] at hset
                dsimp only at hset
                rw [← hrest', ← List.append_assoc] at hset
                obtain ⟨-, rfl⟩ := newBestHeader_spec he hset
                rw [← hhash]
                exact ⟨_, h.moved hsplit (hv.trans hbranch) he, rfl⟩

theorem newBestHeader_ok {hash : UInt256} {ok : Bool} (h : st.newBestHeader hash p = some (ok, st')) :
    ok = true := by
  rw [newBestHeader] at h
  split at h
  · cases h
  · split_ifs at h
    cases h
    rfl

theorem setBestThinChainInner_false (h : st.setBestThinChainInner commits p = some (false, st')) : st' = st := by
  rw [setBestThinChainInner] at h
  split_ifs at h
  · split at h <;> cases h
  · cases h
    rfl

/-- A call that fails has left the index alone. -/
theorem setBestThinChain_false {env : ThinEnv} {header : ThinHeader} (h : MainChain st chain)
    (hset : st.setBestThinChain env commits header p = some (false, st')) : st' = st := by
  obtain ⟨pindexGenesis, hgenesis, -⟩ := h.genesis
  rw [setBestThinChain, hgenesis] at hset
  simp only [reduceCtorEq, false_and, if_false] at hset
  split_ifs at hset
  · cases hinner : st.setBestThinChainInner commits p with
    | none => simp [hinner] at hset
    | some step =>
        obtain ⟨ok, st₁⟩ := step
        simp only [hinner] at hset
        cases ok with
        | false =>
            cases hset
            exact setBestThinChainInner_false hinner
        | true => exact Bool.noConfusion (newBestHeader_ok hset)
  · repeat' split at hset
    all_goals first
      | cases hset
      | exact Bool.noConfusion (newBestHeader_ok hset)

/-- Where every walk ends, a call returns if the commits of its reorganisation succeed. -/
theorem setBestThinChain_some (env : ThinEnv) {header : ThinHeader} (h : MainChain st chain) (hroot : Rooted st)
    (he : st.heap p = some e) (hparent : Parent st.heap p q)
    (hcommits : header.hashPrevBlock ≠ st.hashBestChain → ∀ v mid,
      postponeThin st.heap st.nBestChainTrust st.nAllocated p = some (v, mid) → ∀ q ∈ mid :: v, commits q = true) :
    ∃ ok st', st.setBestThinChain env commits header p = some (ok, st') := by
  have hnew : ∀ pnext, ∃ ok st', newBestHeader { st with pnext } header.hash p = some (ok, st') := by
    intro pnext
    obtain ⟨e', he'⟩ := hroot.alive p q hparent
    obtain ⟨d, hd, hdprev⟩ := hparent
    rw [he] at hd
    cases hd
    simp only [newBestHeader, he, hdprev, Option.bind_some, he', reduceCtorEq, and_false, if_false]
    exact ⟨_, _, rfl⟩
  obtain ⟨pindexBest, rest, rfl, hbest, best, heBest, -, -, hbestTrust⟩ := h.best
  obtain ⟨pindexGenesis, hgenesis, -⟩ := h.genesis
  rw [setBestThinChain, hgenesis]
  simp only [reduceCtorEq, false_and, if_false]
  split_ifs with hdirect
  · cases hcommit : commits p with
    | false =>
        rw [setBestThinChainInner, hcommit]
        exact ⟨false, st, rfl⟩
    | true =>
        rw [setBestThinChainInner_eq st hparent hcommit]
        exact hnew _
  · obtain ⟨v, mid, eMid, hpostpone, heMid⟩ :=
      postponeThin_some hroot h.tree he (h.tree.allocated p e he).le
    have hall := hcommits hdirect v mid hpostpone
    obtain ⟨hmid, hv⟩ := List.forall_mem_cons.mp hall
    obtain ⟨pfork, hfork, hforkBest, hforkMid⟩ :=
      findThinFork_some hroot h.tree heBest heMid le_rfl (h.tree.allocated pindexBest best heBest).le
    obtain ⟨vDisconnect, hdisconnect⟩ := thinBranchTo_some h.tree hforkBest (h.tree.allocated pindexBest best heBest).le
    obtain ⟨vConnect, hconnect⟩ := thinBranchTo_some h.tree hforkMid (h.tree.allocated mid eMid heMid).le
    have hreorganize : ∃ st₁, st.reorganizeHeaders commits pindexBest mid = some (true, st₁) := by
      rw [reorganizeHeaders]
      simp only [hfork, hdisconnect, hconnect, hmid, if_true]
      exact ⟨_, rfl⟩
    obtain ⟨st₁, hreorganize⟩ := hreorganize
    obtain ⟨-, above, pfork', below, l, hsplit, hbranch, rfl⟩ := reorganizeHeaders_spec h hreorganize
    obtain ⟨rest', hrest'⟩ := hbranch.head below
    have hpostponed := connectPostponedThin_branch { st with pnext := successor (mid :: rest') }
      (postponeThin_branch hpostpone) rfl hv rfl
    rw [hrest'] at hreorganize
    simp only [hbest]
    simp only [heBest, hbestTrust, hpostpone, hreorganize, hpostponed]
    exact hnew _

end ThinIndex

end ProCurrency

import ProCurrency.Thin.Lemmas.Prune

/-!
# A new header

What `AcceptBlockThin` does to the main chain: the entry is added beside it, then the chain moves, then it is pruned.
-/

namespace ProCurrency

open LinkedChain

namespace ThinIndex

variable {st st' : ThinIndex} {chain l : List Nat} {p q : Nat} {e : ThinEntry} {env : ThinEnv}
  {outcomes : ThinOutcomes} {header : ThinHeader}

/-! ## The new entry -/

/-- An entry that can be added above `q`. -/
structure Fresh (st : ThinIndex) (e : ThinEntry) (q : Nat) : Prop where
  unfiled : st.mapBlockThinIndex e.hashBlock = none
  pprev : e.pprev = some q
  height : ∃ ePrev, st.heap q = some ePrev ∧ e.nHeight = ePrev.nHeight + 1

theorem newEntry_spec (hnew : st.newEntry header = some e) (hq : st.mapBlockThinIndex header.hashPrevBlock = some q)
    (hhash : st.mapBlockThinIndex header.hash = none) : e.hashBlock = header.hash ∧ Fresh st e q := by
  rw [newEntry, hq] at hnew
  cases hprev : st.heap q with
  | none => simp [hprev] at hnew
  | some ePrev =>
      simp only [hprev] at hnew
      cases hnew
      exact ⟨rfl, hhash, rfl, ePrev, hprev, rfl⟩

theorem newEntry_some (htree : Tree st) (hq : st.mapBlockThinIndex header.hashPrevBlock = some q) :
    ∃ e, st.newEntry header = some e := by
  obtain ⟨ePrev, hePrev, -⟩ := (htree.filed _ q).mp hq
  rw [newEntry, hq]
  simp only [hePrev]
  exact ⟨_, rfl⟩

theorem heap_insertEntry (st : ThinIndex) (e : ThinEntry) (p : Nat) :
    (st.insertEntry e).heap p = if p = st.nAllocated then some e else st.heap p :=
  Function.update_apply st.heap st.nAllocated (some e) p

theorem heap_insertEntry_new (st : ThinIndex) (e : ThinEntry) : (st.insertEntry e).heap st.nAllocated = some e := by
  rw [heap_insertEntry, if_pos rfl]

theorem heap_insertEntry_of_lt (e : ThinEntry) (hp : p < st.nAllocated) :
    (st.insertEntry e).heap p = st.heap p := by
  rw [heap_insertEntry, if_neg hp.ne]

theorem parent_insertEntry (hp : p < st.nAllocated) :
    Parent (st.insertEntry e).heap p q ↔ Parent st.heap p q := by
  rw [Parent, Parent, heap_insertEntry_of_lt e hp]

theorem Tree.insertEntry (h : Tree st) (hfresh : Fresh st e q) : Tree (st.insertEntry e) := by
  obtain ⟨ePrev, hePrev, hheight⟩ := hfresh.height
  have hq := h.allocated q ePrev hePrev
  have hlt : ∀ p e', st.heap p = some e' → p < st.nAllocated := h.allocated
  refine ⟨fun hash p => ?_, fun p e' he' => ?_, fun p r hparent => ?_, fun p r e' e'' he' hprev he'' => ?_⟩
  · have hfiled := h.filed hash p
    rw [heap_insertEntry, ThinIndex.insertEntry]
    simp only [Function.update_apply]
    constructor
    · intro hmap
      split_ifs at hmap with hhash
      · cases hmap
        exact ⟨e, if_pos rfl, hhash.symm⟩
      · obtain ⟨e', he', rfl⟩ := hfiled.mp hmap
        exact ⟨e', (if_neg (hlt p e' he').ne).trans he', rfl⟩
    · rintro ⟨e', he', rfl⟩
      split_ifs at he' with hp
      · cases he'
        rw [if_pos rfl, hp]
      · have hmap := h.filed_of_heap he'
        rw [if_neg]
        · exact hmap
        · intro hhash
          rw [hhash, hfresh.unfiled] at hmap
          cases hmap
  · rw [heap_insertEntry] at he'
    split_ifs at he' with hp
    · exact hp ▸ Nat.lt_succ_self st.nAllocated
    · exact Nat.lt_succ_of_lt (hlt p e' he')
  · obtain ⟨e', he', hprev⟩ := hparent
    rw [heap_insertEntry] at he'
    split_ifs at he' with hp
    · cases he'
      rw [hfresh.pprev] at hprev
      cases hprev
      exact hp ▸ hq
    · exact h.earlier p r ⟨e', he', hprev⟩
  · rw [heap_insertEntry] at he'
    split_ifs at he' with hp
    · cases he'
      rw [hfresh.pprev] at hprev
      cases hprev
      rw [heap_insertEntry_of_lt e hq, hePrev] at he''
      cases he''
      exact hheight
    · have hr := (h.earlier p r ⟨e', he', hprev⟩).trans (hlt p e' he')
      rw [heap_insertEntry_of_lt e hr] at he''
      exact h.graded p r e' e'' he' hprev he''

theorem MainChain.insertEntry (h : MainChain st chain) (hfresh : Fresh st e q) :
    MainChain (st.insertEntry e) chain := by
  have hheap : ∀ p e', st.heap p = some e' → (st.insertEntry e).heap p = some e' := fun p e' he' =>
    (heap_insertEntry_of_lt e (h.tree.allocated p e' he')).trans he'
  obtain ⟨pindexBest, rest, hchain, hbest, eBest, heBest, hnames⟩ := h.best
  obtain ⟨rear, eRear, hlast, hrear, heRear, hprev⟩ := h.rear
  obtain ⟨g, hg, hlt, hgenesis⟩ := h.genesis
  refine ⟨h.tree.insertEntry hfresh, ⟨pindexBest, rest, hchain, hbest, eBest, hheap _ _ heBest, hnames⟩, ?_,
    ⟨rear, eRear, hlast, hrear, hheap _ _ heRear, hprev⟩, ?_, ⟨g, hg, Nat.lt_succ_of_lt hlt, ?_⟩⟩
  · refine h.linked.imp fun a b hab => ?_
    obtain ⟨e₁, e₂, he₁, hprev, he₂, hheight⟩ := above_iff.mp hab
    exact above_iff.mpr ⟨e₁, e₂, hheap _ _ he₁, hprev, hheap _ _ he₂, hheight⟩
  · -- No entry of the chain is the new one.
    have hlinks : Function.update st.pnext st.nAllocated none = st.pnext := by
      rw [Function.update_eq_self_iff, h.pnext, successor_of_notMem]
      exact fun hmem => absurd (h.lt_nAllocated (List.mem_of_mem_tail hmem)) (lt_irrefl _)
    exact hlinks.trans h.pnext
  · rw [heap_insertEntry_of_lt e hlt]
    exact hgenesis

theorem Rooted.insertEntry (h : Rooted st) (htree : Tree st) (hfresh : Fresh st e q) :
    Rooted (st.insertEntry e) := by
  obtain ⟨ePrev, hePrev, -⟩ := hfresh.height
  refine ⟨fun p r hparent => ?_, fun p e' he' hprev => ?_⟩
  · obtain ⟨e', he', hprev⟩ := hparent
    rw [heap_insertEntry] at he'
    have halive : ∃ e, st.heap r = some e := by
      split_ifs at he' with hp
      · cases he'
        rw [hfresh.pprev] at hprev
        cases hprev
        exact ⟨ePrev, hePrev⟩
      · exact h.alive p r ⟨e', he', hprev⟩
    obtain ⟨d, hd⟩ := halive
    exact ⟨d, (heap_insertEntry_of_lt e (htree.allocated r d hd)).trans hd⟩
  · rw [heap_insertEntry] at he'
    split_ifs at he' with hp
    · cases he'
      rw [hfresh.pprev] at hprev
      cases hprev
    · exact h.root p e' he' hprev

/-! ## A call -/

/-- The header is added to the index. -/
structure Adds (outcomes : ThinOutcomes) (st : ThinIndex) (header : ThinHeader) (e : ThinEntry) : Prop where
  hash : st.mapBlockThinIndex header.hash = none
  prev : st.mapBlockThinIndex header.hashPrevBlock ≠ none
  accepted : outcomes.fAccepted = true
  stakeModifier : outcomes.fStakeModifier = true
  commits : outcomes.fIndexCommits = true
  entry : st.newEntry header = some e

/-- What `AddToBlockThinIndex` does once the entry is in the map. -/
def moveAndPrune (env : ThinEnv) (commits : Nat → Bool) (st : ThinIndex) (header : ThinHeader) (pindexNew : Nat)
    (e : ThinEntry) : Option (Bool × ThinIndex) :=
  match if st.nBestChainTrust < e.nChainTrust then st.setBestThinChain env commits header pindexNew
      else some (true, st) with
  | none => none
  | some (false, st) => some (false, st)
  | some (true, st) =>
      match pruneTo env e.nHeight st.nAllocated st with
      | none => none
      | some st => some (true, st)

theorem acceptBlockThin_of_adds (hadds : Adds outcomes st header e) :
    st.acceptBlockThin env outcomes header =
      moveAndPrune env outcomes.commits (st.insertEntry e) header st.nAllocated e := by
  rw [acceptBlockThin, addToBlockThinIndex]
  simp only [hadds.hash, hadds.prev, hadds.accepted, hadds.stakeModifier, hadds.commits, hadds.entry, ne_eq,
    not_true_eq_false, reduceCtorEq, if_false]
  rfl

/-- A header that is not added leaves the index alone, but for its entry when the commit of it fails. -/
theorem acceptBlockThin_of_not_adds (env : ThinEnv) (htree : Tree st) (hadds : ∀ e, ¬ Adds outcomes st header e) :
    ∃ st', st.acceptBlockThin env outcomes header = some (false, st') ∧
      (st' = st ∨ ∃ e q, Fresh st e q ∧ st' = st.insertEntry e) := by
  rw [acceptBlockThin]
  split_ifs with hhash hprev haccepted
  · exact ⟨st, rfl, .inl rfl⟩
  · exact ⟨st, rfl, .inl rfl⟩
  · exact ⟨st, rfl, .inl rfl⟩
  · obtain ⟨q, hq⟩ := Option.ne_none_iff_exists'.mp hprev
    obtain ⟨e, he⟩ := newEntry_some htree hq
    rw [addToBlockThinIndex, if_neg hhash]
    simp only [he]
    split_ifs with hmodifier hcommits
    · exact ⟨st, rfl, .inl rfl⟩
    · have hunfiled := not_not.mp hhash
      obtain ⟨hentry, hfresh⟩ := newEntry_spec he hq hunfiled
      exact ⟨_, rfl, .inr ⟨e, q, hfresh, rfl⟩⟩
    all_goals
      exact absurd ⟨not_not.mp hhash, hprev, by simpa using haccepted, by simpa using hmodifier,
        by simpa using hcommits, he⟩ (hadds e)

theorem Adds.fresh (h : Adds outcomes st header e) :
    e.hashBlock = header.hash ∧ ∃ q, st.mapBlockThinIndex header.hashPrevBlock = some q ∧ Fresh st e q := by
  obtain ⟨q, hq⟩ := Option.ne_none_iff_exists'.mp h.prev
  obtain ⟨hhash, hfresh⟩ := newEntry_spec h.entry hq h.hash
  exact ⟨hhash, q, hq, hfresh⟩

/-- The entries that a reorganisation connects after the one it goes to are all committed. -/
def PostponedCommit (outcomes : ThinOutcomes) (st : ThinIndex) (header : ThinHeader) : Prop :=
  ∀ e v mid, Adds outcomes st header e → st.nBestChainTrust < e.nChainTrust →
    header.hashPrevBlock ≠ st.hashBestChain →
    postponeThin (st.insertEntry e).heap st.nBestChainTrust (st.nAllocated + 1) st.nAllocated = some (v, mid) →
    ∀ p ∈ v, outcomes.commits p = true

theorem Fresh.prev_filed {hash : UInt256} (hfresh : Fresh st e q) (hhash : e.hashBlock ≠ hash)
    (hq : st.mapBlockThinIndex hash = some q) : e.pprev = (st.insertEntry e).mapBlockThinIndex hash := by
  rw [hfresh.pprev, insertEntry]
  simp only [Function.update_apply, if_neg hhash.symm, hq]

/-- Whatever a call returns, there is a main chain after it. -/
theorem acceptBlockThin_mainChain {ok : Bool} (h : MainChain st chain)
    (hpostponed : PostponedCommit outcomes st header)
    (haccept : st.acceptBlockThin env outcomes header = some (ok, st')) : ∃ chain, MainChain st' chain := by
  rcases em (∃ e, Adds outcomes st header e) with ⟨e, hadds⟩ | hno
  · obtain ⟨hhash, q, hq, hfresh⟩ := hadds.fresh
    have hmain := h.insertEntry hfresh
    have hprev : e.hashBlock ≠ header.hashPrevBlock := by
      intro heq
      have hunfiled := hfresh.unfiled
      rw [heq, hq] at hunfiled
      cases hunfiled
    rw [acceptBlockThin_of_adds hadds, moveAndPrune] at haccept
    split_ifs at haccept with htrust
    · cases hset : (st.insertEntry e).setBestThinChain env outcomes.commits header st.nAllocated with
      | none => simp [hset] at haccept
      | some step =>
          obtain ⟨okSet, st₁⟩ := step
          simp only [hset] at haccept
          cases okSet with
          | false =>
              cases haccept
              rw [setBestThinChain_false hmain hset]
              exact ⟨chain, hmain⟩
          | true =>
              obtain ⟨chain', hmain', -⟩ := setBestThinChain_spec hmain (heap_insertEntry_new st e) hhash
                (hfresh.prev_filed hprev hq)
                (fun hdirect v mid hpostpone => hpostponed e v mid hadds htrust hdirect hpostpone) hset
              dsimp only at haccept
              cases hprune : pruneTo env e.nHeight st₁.nAllocated st₁ with
              | none => simp [hprune] at haccept
              | some st₂ =>
                  simp only [hprune] at haccept
                  cases haccept
                  obtain ⟨l, -, hl⟩ := pruneTo_spec hmain' hprune
                  exact ⟨l, hl⟩
    · dsimp only at haccept
      cases hprune : pruneTo env e.nHeight (st.insertEntry e).nAllocated (st.insertEntry e) with
      | none => simp [hprune] at haccept
      | some st₂ =>
          simp only [hprune] at haccept
          cases haccept
          obtain ⟨l, -, hl⟩ := pruneTo_spec hmain hprune
          exact ⟨l, hl⟩
  · obtain ⟨st₁, heq, rfl | ⟨e, q, hfresh, rfl⟩⟩ :=
      acceptBlockThin_of_not_adds env h.tree (fun e hadds => hno ⟨e, hadds⟩)
    · rw [heq] at haccept
      cases haccept
      exact ⟨chain, h⟩
    · rw [heq] at haccept
      cases haccept
      exact ⟨chain, h.insertEntry hfresh⟩

/-- A header over the best one becomes the best one, and then comes the loop. -/
theorem acceptBlockThin_extends (env : ThinEnv) (outcomes : ThinOutcomes) {pindexBest : Nat} {rest : List Nat}
    (h : MainChain st (pindexBest :: rest))
    (hhash : st.mapBlockThinIndex header.hash = none) (hprev : header.hashPrevBlock = st.hashBestChain)
    (htrust : st.nBestChainTrust < st.nBestChainTrust + header.nBlockTrust)
    (haccepted : outcomes.fAccepted = true) (hmodifier : outcomes.fStakeModifier = true)
    (hindex : outcomes.fIndexCommits = true) (hcommits : outcomes.commits st.nAllocated = true)
    (he : e = ⟨header.hash, some pindexBest, st.nBestHeight + 1, st.nBestChainTrust + header.nBlockTrust⟩)
    (hst' : st' = (st.insertEntry e).withBest header.hash st.nAllocated e (st.nAllocated :: pindexBest :: rest)) :
    MainChain st' (st.nAllocated :: pindexBest :: rest) ∧
      st.acceptBlockThin env outcomes header =
        match pruneTo env e.nHeight (st.nAllocated + 1) st' with
        | none => none
        | some st => some (true, st) := by
  obtain ⟨pindexBest', rest', hchain, hbest, best, heBest, hbestHash, hheight, hbestTrust⟩ := h.best
  cases hchain
  have hfiled := h.tree.filed_of_heap heBest
  rw [hbestHash, ← hprev] at hfiled
  have hnew : st.newEntry header = some e := by
    rw [newEntry, hfiled]
    simp only [heBest, hheight, hbestTrust, he]
  obtain ⟨hentry, hfresh⟩ := newEntry_spec hnew hfiled hhash
  have hadds : Adds outcomes st header e :=
    ⟨hhash, by rw [hfiled]; exact Option.some_ne_none _, haccepted, hmodifier, hindex, hnew⟩
  have hmain := h.insertEntry hfresh
  have heNew := heap_insertEntry_new st e
  have hparent : Parent (st.insertEntry e).heap st.nAllocated pindexBest := ⟨e, heNew, hfresh.pprev⟩
  have hset : (st.insertEntry e).setBestThinChain env outcomes.commits header st.nAllocated = some (true, st') := by
    rw [setBestThinChain_extends hmain hprev, setBestThinChainInner_eq _ hparent hcommits, hmain.pnext,
      ← successor_cons]
    dsimp only
    rw [newBestHeader]
    have hbest' := heap_insertEntry_of_lt e (h.tree.allocated pindexBest best heBest)
    simp only [heNew, hfresh.pprev, Option.bind_some, hbest', heBest, reduceCtorEq, and_false, if_false]
    rw [hst']
    rfl
  refine ⟨?_, ?_⟩
  · rw [hst', ← hentry]
    exact hmain.moved (List.nil_append _).symm (.step hparent .refl) heNew
  · have htrust' : (st.insertEntry e).nBestChainTrust < e.nChainTrust := by
      rw [he]
      exact htrust
    rw [acceptBlockThin_of_adds hadds, moveAndPrune, if_pos htrust', hset]
    dsimp only
    rw [hst']
    rfl

end ThinIndex

end ProCurrency

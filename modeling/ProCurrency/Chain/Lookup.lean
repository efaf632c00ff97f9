import ProCurrency.Chain.Lemmas.Links

/-!
# Lookups by height

`FindBlockByHeight` (main.cpp). It starts from the genesis block, from the best block or from the block that the
last lookup has found, whichever is nearest. `SetBestChain` takes the last of the three away.
-/

namespace ProCurrency

open ChainState ParentTree LinkedChain

/-! ## The lookup -/

/-- The entries with the heights that `AddToBlockIndex` gives them. -/
structure IndexTree (env : ChainEnv) extends BlockTree env where
  root : ∀ pindex, mapBlockIndex.Has [pindex] → pindex.nHeight = 0
  height : ∀ pindex pprev rest, mapBlockIndex.Has (pindex :: pprev :: rest) → pindex.nHeight = pprev.nHeight + 1

/-- The globals with the pointer that the lookups share. -/
structure LookupState where
  chain : ChainState
  pblockindexFBBHLast : List CBlockIndex

section Lookup

variable {env : ChainEnv} (tree : IndexTree env)

/-- What a walk reads of an entry. -/
def IndexTree.node (pnext : UInt256 → Option UInt256) (hash : UInt256) : Option (LinkedChain.Node UInt256) :=
  match tree.mapBlockIndex.lookup hash with
  | some (pindex :: pprev) => some ⟨pprev.head?.map CBlockIndex.hashBlock, pnext hash, pindex.nHeight⟩
  | _ => none

/-- The pointer that the walks start from. -/
def startFull (st : LookupState) (nHeight : Int) (pblockindex : CBlockIndex) (pprev : List CBlockIndex) :
    List CBlockIndex :=
  match st.pblockindexFBBHLast with
  | [] => pblockindex :: pprev
  | last :: rest =>
      if (nHeight - last.nHeight).natAbs < (nHeight - pblockindex.nHeight).natAbs then last :: rest
      else pblockindex :: pprev

def findBlockByHeight (st : LookupState) (nHeight : Int) : Option (List CBlockIndex × LookupState) :=
  match if nHeight < st.chain.mem.nBestHeight.tdiv 2 then st.chain.mem.pindexGenesisBlock
    else st.chain.mem.pindexBest with
  | [] => none
  | pblockindex :: pprev =>
      let start := startFull st nHeight pblockindex pprev
      match find (tree.node st.chain.mem.pnext) nHeight (start.length + nHeight.toNat) (getBlockHash start) with
      | none => none
      | some none => some ([], st)
      | some (some hash) =>
          match tree.mapBlockIndex.lookup hash with
          | none => none
          | some pindex => some (pindex, { st with pblockindexFBBHLast := pindex })

/-- The height is one of the best chain. -/
def LookupState.InRange (st : LookupState) (nHeight : Int) : Prop := 0 ≤ nHeight ∧ nHeight ≤ st.chain.mem.nBestHeight

/-- The lookup returns the entry of the best chain that has the height. -/
def FindsMainChain (st : LookupState) (nHeight : Int) : Prop :=
  ∃ pindex pprev st', findBlockByHeight tree st nHeight = some (pindex :: pprev, st') ∧
    pindex :: pprev <:+ st.chain.mem.pindexBest ∧ pindex.nHeight = nHeight

/-- A node whose links are those of its best chain, and whose last lookup was on it. -/
structure Indexed (st : LookupState) : Prop where
  ready : Ready tree.toBlockTree st.chain
  genesis : st.chain.mem.pindexGenesisBlock <:+ st.chain.mem.pindexBest
  root : st.chain.mem.pindexGenesisBlock.tail = []
  empty : st.chain.mem.pindexBest = [] → st.chain.mem.nBestHeight < 0
  pnext : st.chain.mem.pnext = links st.chain.mem.pindexBest
  last : st.pblockindexFBBHLast <:+ st.chain.mem.pindexBest

end Lookup

/-! ## One lookup -/

section Walk

variable {env : ChainEnv} {tree : IndexTree env} {pnext : UInt256 → Option UInt256} {pindex : CBlockIndex}
  {pprev : List CBlockIndex} {st st' : LookupState} {nHeight : Int}

theorem IndexTree.node_head (h : tree.mapBlockIndex.Has (pindex :: pprev)) :
    tree.node pnext pindex.hashBlock =
      some ⟨pprev.head?.map CBlockIndex.hashBlock, pnext pindex.hashBlock, pindex.nHeight⟩ := by
  rw [IndexTree.node, h.lookup_head]

theorem IndexTree.isChain (h : tree.mapBlockIndex.Has pprev) :
    (pprev.map CBlockIndex.hashBlock).IsChain (Above (tree.node pnext)) := by
  induction pprev with
  | nil => exact List.isChain_nil
  | cons pindex rest ih =>
      cases rest with
      | nil => exact List.isChain_singleton _
      | cons b rest =>
          refine List.isChain_cons_cons.mpr ⟨?_, ih h.tail⟩
          exact ⟨_, _, tree.node_head h, rfl, tree.node_head h.tail, tree.height pindex b rest h⟩

theorem IndexTree.hasHeight (h : tree.mapBlockIndex.Has (pindex :: pprev)) :
    HasHeight (tree.node pnext) pindex.nHeight pindex.hashBlock :=
  ⟨_, tree.node_head h, rfl⟩

theorem IndexTree.height_nonneg (h : tree.mapBlockIndex.Has (pindex :: pprev)) : 0 ≤ pindex.nHeight := by
  induction pprev generalizing pindex with
  | nil => exact (tree.root pindex h).ge
  | cons b rest ih =>
      have hb := ih h.tail
      have hheight := tree.height pindex b rest h
      omega

theorem IndexTree.exists_root (h : tree.mapBlockIndex.Has (pindex :: pprev)) :
    ∃ hash ∈ (pindex :: pprev).map CBlockIndex.hashBlock, HasHeight (tree.node pnext) 0 hash := by
  induction pprev generalizing pindex with
  | nil =>
      refine ⟨pindex.hashBlock, List.mem_cons_self, ?_⟩
      have hheight : HasHeight (tree.node pnext) pindex.nHeight pindex.hashBlock := tree.hasHeight h
      rw [tree.root pindex h] at hheight
      exact hheight
  | cons b rest ih =>
      obtain ⟨hash, hmem, hheight⟩ := ih h.tail
      exact ⟨hash, List.mem_cons_of_mem pindex.hashBlock hmem, hheight⟩

theorem IndexTree.exists_suffix {hash : UInt256} (h : tree.mapBlockIndex.Has pprev)
    (hmem : hash ∈ pprev.map CBlockIndex.hashBlock) :
    ∃ pindex rest, tree.mapBlockIndex.lookup hash = some (pindex :: rest) ∧ pindex :: rest <:+ pprev := by
  obtain ⟨pindex, hpindex, rfl⟩ := List.mem_map.mp hmem
  obtain ⟨before, after, rfl⟩ := List.append_of_mem hpindex
  have hsuffix : pindex :: after <:+ before ++ pindex :: after := List.suffix_append before _
  exact ⟨pindex, after, (h.suffix hsuffix (List.cons_ne_nil pindex after)).lookup_head, hsuffix⟩

theorem IndexTree.linked_node (h : pnext = links pprev) :
    Linked (tree.node pnext) (pprev.map CBlockIndex.hashBlock) := by
  intro hash n hn
  unfold IndexTree.node at hn
  split at hn
  · cases hn
    rw [h]
    rfl
  · cases hn

/-- The pointer that the walks start from is one of the best chain. -/
theorem Indexed.start_suffix (h : Indexed tree st) {pblockindex : CBlockIndex}
    (hstart : (if nHeight < st.chain.mem.nBestHeight.tdiv 2 then st.chain.mem.pindexGenesisBlock
      else st.chain.mem.pindexBest) = pblockindex :: pprev) :
    ∃ pindex rest, startFull st nHeight pblockindex pprev = pindex :: rest ∧
      pindex :: rest <:+ st.chain.mem.pindexBest := by
  have hsuffix : pblockindex :: pprev <:+ st.chain.mem.pindexBest := by
    split_ifs at hstart
    · exact hstart ▸ h.genesis
    · exact hstart ▸ List.suffix_refl _
  have hlast := h.last
  rw [startFull]
  cases hcase : st.pblockindexFBBHLast with
  | nil => exact ⟨pblockindex, pprev, rfl, hsuffix⟩
  | cons last rest =>
      rw [hcase] at hlast
      dsimp only
      split_ifs
      · exact ⟨last, rest, rfl, hlast⟩
      · exact ⟨pblockindex, pprev, rfl, hsuffix⟩

/-- A lookup in the range finds the entry of the best chain. -/
theorem Indexed.findsMainChain (h : Indexed tree st) (hrange : st.InRange nHeight) :
    FindsMainChain tree st nHeight := by
  obtain ⟨hlow, hhigh⟩ := hrange
  rcases h.ready.chain with ⟨-, hnil, -⟩ | ⟨hloaded, hhas, hagrees⟩
  · have hempty := h.empty hnil
    omega
  obtain ⟨best, rest, hbest⟩ := List.exists_cons_of_ne_nil hhas.ne_nil
  have hheight : st.chain.mem.nBestHeight = best.nHeight := (hagrees.best best (by rw [hbest]; rfl)).1
  obtain ⟨pblockindex, pprev, hstart⟩ : ∃ pblockindex pprev,
      (if nHeight < st.chain.mem.nBestHeight.tdiv 2 then st.chain.mem.pindexGenesisBlock
        else st.chain.mem.pindexBest) = pblockindex :: pprev := by
    split_ifs
    · exact List.exists_cons_of_ne_nil hloaded
    · exact ⟨best, rest, hbest⟩
  obtain ⟨first, below, hfirst, hsuffix⟩ := h.start_suffix hstart
  have hhasFirst := hhas.suffix hsuffix (List.cons_ne_nil first below)
  obtain ⟨above, habove⟩ := hsuffix
  have hlinked := tree.linked_node h.pnext
  have hchain : (st.chain.mem.pindexBest.map CBlockIndex.hashBlock).IsChain
      (Above (tree.node st.chain.mem.pnext)) := tree.isChain hhas
  rw [hbest] at hhas hlinked hchain habove
  obtain ⟨root, hroot, hzero⟩ : ∃ hash ∈ (first :: below).map CBlockIndex.hashBlock,
      HasHeight (tree.node st.chain.mem.pnext) 0 hash := tree.exists_root hhasFirst
  have hnonneg := tree.height_nonneg hhasFirst
  obtain ⟨hash, hmem, hfind, hfound⟩ := find_of_mem hchain hlinked (tree.hasHeight hhas) (hheight ▸ hhigh)
    (show best.hashBlock :: rest.map CBlockIndex.hashBlock =
      above.map CBlockIndex.hashBlock ++ first.hashBlock :: below.map CBlockIndex.hashBlock by
        rw [← List.map_cons, ← habove, List.map_append, List.map_cons])
    (tree.hasHeight hhasFirst) ⟨root, hroot, 0, hzero, hlow⟩
    (show (below.map CBlockIndex.hashBlock).length ≤ (first :: below).length + nHeight.toNat by
      rw [List.length_map, List.length_cons]
      omega)
    (show (nHeight - first.nHeight).toNat ≤ (first :: below).length + nHeight.toNat by omega)
  obtain ⟨pindex, after, hlookup, hpindex⟩ := tree.exists_suffix hhas
    (show hash ∈ (best :: rest).map CBlockIndex.hashBlock from hmem)
  have hhasPindex := hhas.suffix hpindex (List.cons_ne_nil pindex after)
  obtain ⟨_, _, hcons, rfl⟩ := tree.mapBlockIndex.head hash _ hlookup
  cases hcons
  refine ⟨pindex, after, { st with pblockindexFBBHLast := pindex :: after }, ?_, hbest ▸ hpindex,
    (tree.hasHeight hhasPindex).eq hfound⟩
  rw [findBlockByHeight, hstart]
  simp only [hfirst]
  rw [show getBlockHash (first :: below) = first.hashBlock from rfl, hfind]
  simp only [hlookup]

/-- The links back of a chain stay in it. -/
theorem IndexTree.prev_mem {hash : UInt256} {e : LinkedChain.Node UInt256} {q : UInt256} (h : tree.mapBlockIndex.Has pprev)
    (hmem : hash ∈ pprev.map CBlockIndex.hashBlock) (he : tree.node pnext hash = some e) (hq : e.prev = some q) :
    q ∈ pprev.map CBlockIndex.hashBlock := by
  obtain ⟨pindex, rest, hlookup, hsuffix⟩ := IndexTree.exists_suffix h hmem
  rw [IndexTree.node, hlookup] at he
  cases he
  obtain ⟨b, hb, rfl⟩ := Option.map_eq_some_iff.mp hq
  have hrest : b ∈ pindex :: rest := List.mem_cons_of_mem pindex (List.mem_of_mem_head? hb)
  exact List.mem_map_of_mem (hsuffix.subset hrest)

/-- Every lookup leaves a pointer behind that is null or of the best chain. -/
theorem Indexed.found {found : List CBlockIndex} (h : Indexed tree st)
    (hfind : findBlockByHeight tree st nHeight = some (found, st')) : Indexed tree st' := by
  rw [findBlockByHeight] at hfind
  cases hstart : (if nHeight < st.chain.mem.nBestHeight.tdiv 2 then st.chain.mem.pindexGenesisBlock
      else st.chain.mem.pindexBest) with
  | nil => simp [hstart] at hfind
  | cons pblockindex pprev =>
      obtain ⟨first, below, hfirst, hsuffix⟩ := h.start_suffix hstart
      have hhas : tree.mapBlockIndex.Has st.chain.mem.pindexBest := by
        rcases h.ready.chain with ⟨-, hnil, -⟩ | ⟨-, hhas, -⟩
        · rw [hnil] at hsuffix
          exact absurd (List.suffix_nil.mp hsuffix) (List.cons_ne_nil first below)
        · exact hhas
      rw [hstart] at hfind
      simp only [hfirst] at hfind
      cases hwalk : find (tree.node st.chain.mem.pnext) nHeight ((first :: below).length + nHeight.toNat)
          (getBlockHash (first :: below)) with
      | none =>
          simp only [hwalk] at hfind
          cases hfind
      | some result =>
          cases result with
          | none =>
              simp only [hwalk] at hfind
              cases hfind
              exact h
          | some hash =>
              have hmem : hash ∈ st.chain.mem.pindexBest.map CBlockIndex.hashBlock :=
                find_mem (tree.linked_node h.pnext) (fun _ hp _ he _ hq => tree.prev_mem hhas hp he hq)
                  (List.mem_map_of_mem (hsuffix.subset List.mem_cons_self)) hwalk
              obtain ⟨pindex, rest, hlookup, hlast⟩ := tree.exists_suffix hhas hmem
              simp only [hwalk, hlookup] at hfind
              cases hfind
              exact ⟨h.ready, h.genesis, h.root, h.empty, h.pnext, hlast⟩

end Walk

/-! ## One call -/

section Call

variable {env : ChainEnv} {tree : IndexTree env} {outcomes : Outcomes} {st : LookupState} {chain : ChainState}
  {block : CBlock} {pindexNew : List CBlockIndex}

/-- A call that fails leaves all of it alone. -/
theorem Indexed.failed (h : Indexed tree st) (hready : Ready tree.toBlockTree chain) (hmem : chain.mem = st.chain.mem) :
    Indexed tree { st with chain } where
  ready := hready
  genesis := hmem ▸ h.genesis
  root := hmem ▸ h.root
  empty := hmem ▸ h.empty
  pnext := hmem ▸ h.pnext
  last := hmem ▸ h.last

/-- The genesis block stays at the end of the best chain. -/
theorem genesis_suffix (h : Indexed tree st) (hnew : tree.mapBlockIndex.Has pindexNew)
    (hconnects : ConnectsAll env outcomes st.chain block pindexNew)
    (hset : setBestChain env outcomes st.chain block pindexNew = some (true, chain)) :
    chain.mem.pindexBest = pindexNew ∧ chain.mem.pindexGenesisBlock <:+ pindexNew ∧
      chain.mem.pindexGenesisBlock.tail = [] := by
  cases setBestChain_result h.ready.closed hset with
  | genesis hgenesis moved best =>
      obtain ⟨-, -, hbest, hgenesis', -⟩ := newBestBlock_agrees_iff best
      rw [hbest, hgenesis']
      obtain ⟨pindex, pprev, rfl⟩ := List.exists_cons_of_ne_nil hnew.ne_nil
      have hroot := tree.genesis (pindex :: pprev) (hgenesis.2 ▸ hconnects.1 ▸ hnew.lookup_head)
      exact ⟨rfl, List.suffix_refl _, hroot⟩
  | extended hgenesis hprev hlength moved best =>
      obtain ⟨-, -, hbest, hgenesis', -⟩ := newBestBlock_agrees_iff best
      obtain ⟨pnext, hmem⟩ := moved.names
      obtain ⟨⟨pindex, rfl⟩, -⟩ := extended_parent h.ready hnew hconnects.1 hprev hlength
      rw [hbest, hgenesis', hmem]
      exact ⟨rfl, h.genesis.trans (List.suffix_cons pindex _), h.root⟩
  | reorganized hgenesis hprev hpindexBest hfork moved postponed best =>
      rename_i pindexBest pprev pfork
      obtain ⟨-, -, hbest, hgenesis', -⟩ := newBestBlock_agrees_iff best
      obtain ⟨-, -, -, -, -, -, hnames₂, -⟩ := connectPostponed_spec moved.closed postponed
      obtain ⟨pnext, hmem⟩ := moved.names.trans hnames₂
      obtain ⟨hsuffix, -⟩ := postpone_spec pindexBest.nChainTrust pindexNew
      obtain ⟨hforkBest, hforkNew, hne⟩ := findFork_suffix hfork
      rw [hbest, hgenesis', hmem]
      refine ⟨rfl, ?_, h.root⟩
      have hlength : st.chain.mem.pindexGenesisBlock.length ≤ pfork.length := by
        have hroot := congrArg List.length h.root
        rw [List.length_tail, List.length_nil] at hroot
        have hpositive := List.length_pos_iff.mpr hne
        omega
      exact (List.suffix_of_suffix_length_le h.genesis hforkBest hlength).trans (hforkNew.trans hsuffix)

theorem Indexed.setBestChain {ok : Bool} (h : Indexed tree st) (hnew : tree.mapBlockIndex.Has pindexNew)
    (hset : ProCurrency.setBestChain env outcomes st.chain block pindexNew = some (ok, chain))
    (hconnects : ok = true → ConnectsAll env outcomes st.chain block pindexNew) :
    Indexed tree ⟨chain, if ok then [] else st.pblockindexFBBHLast⟩ := by
  cases ok with
  | false =>
      exact h.failed (setBestChain_ready h.ready hnew hset (fun hok => Bool.noConfusion hok)) (setBestChain_mem hset)
  | true =>
      have hconnects := hconnects rfl
      have hagrees := (setBestChain_agrees_iff h.ready hnew hset).mpr hconnects
      obtain ⟨hbest, hgenesis, hroot⟩ := genesis_suffix h hnew hconnects hset
      refine ⟨setBestChain_ready h.ready hnew hset fun _ => hagrees, hbest.symm ▸ hgenesis, hroot, fun hnil => ?_,
        hbest.symm ▸ setBestChain_pnext h.ready h.pnext hnew hconnects hset, List.nil_suffix⟩
      rw [hbest] at hnil
      exact absurd hnil hnew.ne_nil

end Call

/-! ## Runs -/

/-- Calls about the best chain, and lookups. -/
inductive NodeCall where
  | bestChain (call : ChainCall)
  | findBlockByHeight (nHeight : Int)

namespace NodeCall

variable {env : ChainEnv} (tree : IndexTree env)

def InTree : NodeCall → Prop
  | .bestChain call => call.InTree tree.toBlockTree
  | .findBlockByHeight _ => True

/-- A call of `SetBestChain` that returns true has taken the pointer of the lookups away. -/
def run (st : LookupState) : NodeCall → Option LookupState
  | .bestChain call =>
      match call.run env st.chain with
      | none => none
      | some (ok, chain) => some ⟨chain, if ok then [] else st.pblockindexFBBHLast⟩
  | .findBlockByHeight nHeight =>
      match ProCurrency.findBlockByHeight tree st nHeight with
      | none => none
      | some (_, st) => some st

/-- Every lookup of the run that is in the range returns the entry of the best chain. -/
def FindsThroughout (st : LookupState) : List NodeCall → Prop
  | [] => True
  | call :: calls =>
      (∀ nHeight, call = .findBlockByHeight nHeight → st.InRange nHeight → FindsMainChain tree st nHeight) ∧
        ∀ st', call.run tree st = some st' → FindsThroughout st' calls

/-- Every call of `SetBestChain` in the run that returns true connects all its postponed blocks. -/
def ConnectsThroughout (st : LookupState) : List NodeCall → Prop
  | [] => True
  | call :: calls =>
      (∀ c chain, call = .bestChain c → c.run env st.chain = some (true, chain) → c.Meets env st.chain) ∧
        ∀ st', call.run tree st = some st' → ConnectsThroughout st' calls

variable {tree}

theorem run_indexed {st st' : LookupState} {call : NodeCall} (h : Indexed tree st) (hcall : call.InTree tree)
    (hmeets : ∀ c chain, call = .bestChain c → c.run env st.chain = some (true, chain) → c.Meets env st.chain)
    (hrun : call.run tree st = some st') : Indexed tree st' := by
  cases call with
  | bestChain c =>
      cases hstep : c.run env st.chain with
      | none => simp [run, hstep] at hrun
      | some step =>
          obtain ⟨ok, chain⟩ := step
          simp only [run, hstep] at hrun
          cases hrun
          cases c with
          | setBestChain block pindexNew outcomes =>
              refine h.setBestChain hcall hstep fun hok => ?_
              subst hok
              exact hmeets _ chain rfl hstep
          | write cs other =>
              cases hstep
              exact h.failed (h.ready.framed ⟨h.ready.closed.fReadOnly, h.ready.closed.activeBatch⟩
                ⟨SameNames.refl st.chain, writeDisk_diskHash other, rfl⟩) rfl
  | findBlockByHeight nHeight =>
      cases hfind : ProCurrency.findBlockByHeight tree st nHeight with
      | none => simp [run, hfind] at hrun
      | some step =>
          simp only [run, hfind] at hrun
          cases hrun
          exact h.found hfind

theorem findsThroughout_of_indexed (calls : List NodeCall) {st : LookupState} (h : Indexed tree st)
    (hcalls : ∀ call ∈ calls, call.InTree tree) (hconnects : ConnectsThroughout tree st calls) :
    FindsThroughout tree st calls := by
  induction calls generalizing st with
  | nil => exact trivial
  | cons call calls ih =>
      obtain ⟨hcall, hcalls⟩ := List.forall_mem_cons.mp hcalls
      obtain ⟨hmeets, hrest⟩ := hconnects
      exact ⟨fun nHeight _ hrange => h.findsMainChain hrange,
        fun st' hrun => ih (run_indexed h hcall hmeets hrun) hcalls (hrest st' hrun)⟩

end NodeCall

/-! ## The start -/

def ChainMemory.empty : ChainMemory where
  pindexGenesisBlock := []
  hashBestChain := 0
  pindexBest := []
  nBestHeight := -1
  nBestChainTrust := 0
  pnext _ := none

theorem indexed_of_empty {env : ChainEnv} (tree : IndexTree env) {chain : ChainState} (hmem : chain.mem = .empty)
    (hclosed : Closed chain) : Indexed tree ⟨chain, []⟩ where
  ready := ⟨hclosed, .inl (by rw [hmem]; exact ⟨rfl, rfl, rfl⟩)⟩
  genesis := by
    rw [hmem]
    exact List.nil_suffix
  root := by
    rw [hmem]
    rfl
  empty _ := by
    rw [hmem]
    exact Int.negSucc_lt_zero 0
  pnext := by
    rw [hmem]
    rfl
  last := List.nil_suffix

end ProCurrency

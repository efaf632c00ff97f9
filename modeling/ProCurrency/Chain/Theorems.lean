import ProCurrency.Chain.Lemmas.Call

/-!
# The best chain in memory and on disk

A call of `SetBestChain` that returns true leaves the globals on a connected chain, and on the one the store
has committed, exactly when the block is the one of `pindexNew` and no postponed block fails. When one fails
the loop stops without a word, the store stays on the last block that was connected, and the globals move to
`pindexNew` all the same.
-/

namespace ProCurrency

open ChainState ParentTree

/-! ## One call -/

section Call

variable {env : ChainEnv} {tree : BlockTree env} {outcomes : Outcomes} {st st' : ChainState}
  {block : CBlock} {pindexNew : List CBlockIndex} {ok : Bool}

/-- The branch of the reorganisation: a postponed block that fails leaves the store on an ancestor. -/
theorem reorganized_agrees_iff {st₁ st₂ : ChainState} {pindexIntermediate : List CBlockIndex}
    {vpindexSecondary : List (List CBlockIndex)} (hnew : tree.mapBlockIndex.Has pindexNew)
    (hsuffix : pindexIntermediate <:+ pindexNew) (hne : pindexIntermediate ≠ [])
    (hsecondary : vpindexSecondary = branchTo pindexIntermediate pindexNew)
    (hclosed : Closed st₁) (hconnected : ChainConnected st₁.connected pindexIntermediate)
    (hdisk : st₁.diskHash = some (writeUInt256 (getBlockHash pindexIntermediate)))
    (hpostponed : connectPostponed env outcomes st₁ vpindexSecondary.reverse = some st₂)
    (hbest : newBestBlock st₂ (env.blockHash block) pindexNew = some (true, st')) :
    (BestChainAgrees st' ↔ env.blockHash block = getBlockHash pindexNew ∧
      ∀ pindex ∈ vpindexSecondary, Connectable env outcomes pindex) := by
  obtain ⟨-, -, -, -, -, hagrees⟩ := newBestBlock_agrees_iff hbest
  obtain ⟨done, rest, hsplit, hdone, hrest, -, -, hconnected₂, hdisk₂⟩ :=
    connectPostponed_spec hclosed hpostponed
  rw [hagrees]
  refine and_congr_right fun hhash => ⟨?_, ?_⟩
  · rintro ⟨-, hdisk'⟩
    cases rest with
    | nil =>
        rw [List.append_nil] at hsplit
        intro pindex hpindex
        exact hdone pindex (hsplit ▸ List.mem_reverse.mpr hpindex)
    | cons failed rest =>
        -- The last block of the loop is `pindexNew`, and it has not been connected.
        exfalso
        have hnonempty : branchTo pindexIntermediate pindexNew ≠ [] := by
          rintro hnil
          rw [hsecondary, hnil] at hsplit
          simp at hsplit
        obtain ⟨entry, pprev, rfl, hbranch, habove⟩ := branchTo_eq_cons hnonempty
        rw [hsecondary, hbranch, List.reverse_cons] at hsplit
        have hprefix : ∀ pindex ∈ done, pindex <:+ pprev ∧ pindex ≠ [] := by
          intro pindex hpindex
          have hdropped : done <+: (branchTo pindexIntermediate pprev).reverse := by
            have hpre : done <+: (branchTo pindexIntermediate pprev).reverse ++ [entry :: pprev] :=
              ⟨failed :: rest, hsplit.symm⟩
            rcases List.prefix_concat_iff.mp hpre with heq | h
            · have hlength := congrArg List.length hsplit
              rw [heq] at hlength
              simp at hlength
            · exact h
          exact mem_branchTo_suffix (List.mem_reverse.mp (hdropped.subset hpindex))
        -- So the store is on an entry before it, which has another hash.
        have hbefore : ∃ pindex, pindex <:+ pprev ∧ pindex ≠ [] ∧
            st₂.diskHash = some (writeUInt256 (getBlockHash pindex)) := by
          rw [hdisk₂]
          cases hlast : done.getLast? with
          | none => exact ⟨pindexIntermediate, habove hsuffix, hne, hdisk⟩
          | some pindex =>
              obtain ⟨hpindex, hnil⟩ := hprefix pindex (List.mem_of_getLast? hlast)
              exact ⟨pindex, hpindex, hnil, rfl⟩
        obtain ⟨pindex, hpindex, hnil, hstore⟩ := hbefore
        rw [hstore, hhash] at hdisk'
        have heq := writeUInt256_injective (Option.some.inj hdisk')
        cases pindex with
        | nil => exact hnil rfl
        | cons before rest' => exact hnew.key_ne (hpindex.subset List.mem_cons_self) heq
  · intro hall
    have hnil : rest = [] := by
      cases rest with
      | nil => rfl
      | cons failed rest =>
          have hmem : failed ∈ vpindexSecondary.reverse := by
            rw [hsplit]
            exact List.mem_append_right done List.mem_cons_self
          exact absurd (hall failed (List.mem_reverse.mp hmem)) (hrest failed rfl)
    rw [hnil, List.append_nil] at hsplit
    constructor
    · rw [hconnected₂, ← hsplit, hsecondary]
      obtain ⟨above, rfl⟩ := hsuffix
      exact hconnected.branch hne
    · rw [hdisk₂, ← hsplit, List.getLast?_reverse, hhash]
      cases hhead : vpindexSecondary.head? with
      | none =>
          rw [List.head?_eq_none_iff, hsecondary] at hhead
          obtain ⟨above, rfl⟩ := hsuffix
          have hlength := congrArg List.length (branchTo_append above pindexIntermediate)
          rw [hhead] at hlength
          have habove : above = [] := List.length_eq_zero_iff.mp (by simpa using hlength.symm)
          rw [habove]
          exact hdisk
      | some pindex =>
          have hnonempty : branchTo pindexIntermediate pindexNew ≠ [] := by
            rintro hnil
            rw [hsecondary, hnil] at hhead
            cases hhead
          obtain ⟨entry, pprev, rfl, hbranch, -⟩ := branchTo_eq_cons hnonempty
          rw [hsecondary, hbranch] at hhead
          cases hhead
          rfl

theorem genesis_connected {connected : UInt256 → Bool} (hnew : tree.mapBlockIndex.Has pindexNew)
    (hhash : getBlockHash pindexNew = env.hashGenesisBlock) : ChainConnected connected pindexNew := by
  cases pindexNew with
  | nil => exact absurd rfl hnew.ne_nil
  | cons pindex pprev =>
      have htail := tree.genesis (pindex :: pprev) (hhash ▸ hnew.lookup_head)
      cases htail
      intro entry hentry
      cases hentry

/-- A block whose `hashPrevBlock` is the best chain has the best entry as its parent. -/
theorem extended_parent (hready : Ready tree st) (hnew : tree.mapBlockIndex.Has pindexNew)
    (hhash : env.blockHash block = getBlockHash pindexNew)
    (hprev : block.hashPrevBlock = st.mem.hashBestChain) (hlength : 2 ≤ pindexNew.length) :
    (∃ pindex, pindexNew = pindex :: st.mem.pindexBest) ∧ st.mem.pindexGenesisBlock ≠ [] ∧
      st.mem.pindexBest ≠ [] ∧ BestChainAgrees st := by
  obtain ⟨pindex, pprev, rest, rfl⟩ : ∃ pindex pprev rest, pindexNew = pindex :: pprev :: rest := by
    match pindexNew, hlength with
    | pindex :: pprev :: rest, _ => exact ⟨pindex, pprev, rest, rfl⟩
  have hparent : pprev.hashBlock = st.mem.hashBestChain :=
    (tree.linked block pindex pprev rest hnew hhash).symm.trans hprev
  rcases hready.chain with ⟨-, -, hzero⟩ | ⟨hgenesis, hhas, hagrees⟩
  · have hlookup := hnew.tail.lookup_head
    rw [hparent, hzero, tree.zero] at hlookup
    cases hlookup
  · refine ⟨⟨pindex, ?_⟩, hgenesis, hhas.ne_nil, hagrees⟩
    rw [hagrees.hash] at hparent
    cases hbest : st.mem.pindexBest with
    | nil => exact absurd hbest hhas.ne_nil
    | cons pindexBest pprevBest =>
        rw [hbest] at hparent hhas
        rw [hnew.tail.eq_of_key_eq hhas hparent]

theorem extended_connected {connected : UInt256 → Bool} {pindex : CBlockIndex} {pprev : List CBlockIndex}
    (hne : pprev ≠ []) (h : ChainConnected connected pprev) :
    ChainConnected (withConnected connected (getBlockHash (pindex :: pprev))) (pindex :: pprev) := by
  have hbranch : ChainConnected (connectedAfter connected (branchTo pprev ([pindex] ++ pprev)).reverse)
      ([pindex] ++ pprev) := h.branch hne
  rw [List.singleton_append, branchTo_cons pindex (List.suffix_refl _), branchTo_self] at hbranch
  exact hbranch

/-- After a call that returns true the node agrees with its store exactly under the condition. -/
theorem setBestChain_agrees_iff (hready : Ready tree st) (hnew : tree.mapBlockIndex.Has pindexNew)
    (h : setBestChain env outcomes st block pindexNew = some (true, st')) :
    BestChainAgrees st' ↔ ConnectsAll env outcomes st block pindexNew := by
  cases setBestChain_result hready.closed h with
  | genesis hgenesis moved best =>
      obtain ⟨-, -, -, -, -, hagrees⟩ := newBestBlock_agrees_iff best
      rw [hagrees, ConnectsAll]
      refine and_congr_right fun hhash => ⟨fun _ hno => absurd hgenesis hno, fun _ => ⟨?_, moved.diskHash⟩⟩
      exact genesis_connected hnew (hhash.symm.trans hgenesis.2)
  | extended hgenesis hprev hlength moved best =>
      obtain ⟨-, -, -, -, -, hagrees⟩ := newBestBlock_agrees_iff best
      rw [hagrees, ConnectsAll]
      refine and_congr_right fun hhash => ⟨fun _ _ hno => absurd hprev hno, fun _ => ⟨?_, moved.diskHash⟩⟩
      obtain ⟨⟨pindex, rfl⟩, -, hne, hbefore⟩ := extended_parent hready hnew hhash hprev hlength
      rw [moved.connected]
      exact extended_connected hne hbefore.connected
  | reorganized hgenesis hprev hbest hfork moved postponed best =>
      rename_i pindexBest pprev pfork
      obtain ⟨hsuffix, hsecondary⟩ := postpone_spec pindexBest.nChainTrust pindexNew
      obtain ⟨-, hforkSuffix, hforkNe⟩ := findFork_suffix hfork
      rcases hready.chain with ⟨-, hnil, -⟩ | ⟨-, hhas, hagrees⟩
      · rw [hnil] at hbest
        cases hbest
      · have hne : (postpone pindexBest.nChainTrust pindexNew).2 ≠ [] := by
          rintro hnil
          rw [hnil] at hforkSuffix
          exact hforkNe (List.suffix_nil.mp hforkSuffix)
        have hconnected := reorganize_connected hfork hhas hagrees.connected
        rw [← moved.connected] at hconnected
        rw [reorganized_agrees_iff hnew hsuffix hne hsecondary moved.closed hconnected moved.diskHash
          postponed best, ConnectsAll, hbest]
        refine and_congr_right fun _ => ⟨fun hall _ _ entry hentry => ?_, fun hall => ?_⟩
        · cases hentry
          exact hall
        · exact hall hgenesis hprev pindexBest rfl

/-- Whatever a call returns, a node that agrees with its store after it can take the next one. -/
theorem setBestChain_ready (hready : Ready tree st) (hnew : tree.mapBlockIndex.Has pindexNew)
    (h : setBestChain env outcomes st block pindexNew = some (ok, st'))
    (hagrees : ok = true → BestChainAgrees st') : Ready tree st' := by
  cases setBestChain_result hready.closed h with
  | failed closed framed => exact hready.framed closed framed
  | genesis hgenesis moved best =>
      obtain ⟨-, hne, hbest, hgenesis', hclosed, -⟩ := newBestBlock_agrees_iff best
      refine ⟨hclosed ⟨moved.closed.fReadOnly, moved.closed.activeBatch⟩, .inr ⟨?_, ?_, hagrees rfl⟩⟩
      · rw [hgenesis']
        exact hne
      · rw [hbest]
        exact hnew
  | extended hgenesis hprev hlength moved best =>
      obtain ⟨-, -, hbest, hgenesis', hclosed, hiff⟩ := newBestBlock_agrees_iff best
      obtain ⟨hhash, -⟩ := hiff.mp (hagrees rfl)
      obtain ⟨-, hloaded, -⟩ := extended_parent hready hnew hhash hprev hlength
      obtain ⟨pnext, hmem⟩ := moved.names
      refine ⟨hclosed moved.closed, .inr ⟨?_, ?_, hagrees rfl⟩⟩
      · rw [hgenesis', hmem]
        exact hloaded
      · rw [hbest]
        exact hnew
  | reorganized hgenesis hprev hpindexBest hfork moved postponed best =>
      obtain ⟨-, -, hbest, hgenesis', hclosed, -⟩ := newBestBlock_agrees_iff best
      obtain ⟨-, -, -, -, -, hclosed₂, hnames₂, -⟩ := connectPostponed_spec moved.closed postponed
      obtain ⟨pnext, hmem⟩ := moved.names.trans hnames₂
      refine ⟨hclosed hclosed₂, .inr ⟨?_, ?_, hagrees rfl⟩⟩
      · rw [hgenesis', hmem]
        rcases hready.chain with ⟨-, hnil, -⟩ | ⟨hloaded, -⟩
        · rw [hnil] at hpindexBest
          cases hpindexBest
        · exact hloaded
      · rw [hbest]
        exact hnew

end Call

/-! ## Runs -/

/-- What a node does about its best chain: calls of `SetBestChain`, and writes of other parts to the store. -/
inductive ChainCall where
  | setBestChain (block : CBlock) (pindexNew : List CBlockIndex) (outcomes : Outcomes)
  | write (cs : WriteBatch) (other : ∀ c ∈ cs, c.effect hashBestChainKey = none)

namespace ChainCall

variable {env : ChainEnv}

/-- The calls are about entries of one tree. -/
def InTree (tree : BlockTree env) : ChainCall → Prop
  | .setBestChain _ pindexNew _ => tree.mapBlockIndex.Has pindexNew
  | .write _ _ => True

def run (env : ChainEnv) (st : ChainState) : ChainCall → Option (Bool × ChainState)
  | .setBestChain block pindexNew outcomes => ProCurrency.setBestChain env outcomes st block pindexNew
  | .write cs _ => some (false, st.writeDisk cs)

def Meets (env : ChainEnv) (st : ChainState) : ChainCall → Prop
  | .setBestChain block pindexNew outcomes => ConnectsAll env outcomes st block pindexNew
  | .write _ _ => True

/-- After every call of the run that returns true, the node agrees with its store. -/
def AgreesThroughout (env : ChainEnv) (st : ChainState) : List ChainCall → Prop
  | [] => True
  | call :: calls =>
      ∀ ok st', call.run env st = some (ok, st') →
        (ok = true → BestChainAgrees st') ∧ AgreesThroughout env st' calls

/-- Every call of the run that returns true meets the condition in the state it starts from. -/
def MeetsThroughout (env : ChainEnv) (st : ChainState) : List ChainCall → Prop
  | [] => True
  | call :: calls =>
      ∀ ok st', call.run env st = some (ok, st') →
        (ok = true → call.Meets env st) ∧ MeetsThroughout env st' calls

theorem step_agrees_iff {tree : BlockTree env} {st st' : ChainState} {call : ChainCall} {ok : Bool}
    (hready : Ready tree st) (hcall : call.InTree tree) (h : call.run env st = some (ok, st')) :
    ((ok = true → BestChainAgrees st') ↔ (ok = true → call.Meets env st)) ∧
      ((ok = true → BestChainAgrees st') → Ready tree st') := by
  cases call with
  | setBestChain block pindexNew outcomes =>
      refine ⟨forall_congr' fun hok => ?_, fun hagrees => setBestChain_ready hready hcall h hagrees⟩
      subst hok
      exact setBestChain_agrees_iff hready hcall h
  | write cs other =>
      cases h
      refine ⟨by simp, fun _ => ?_⟩
      exact hready.framed ⟨hready.closed.fReadOnly, hready.closed.activeBatch⟩
        ⟨SameNames.refl st, writeDisk_diskHash other, rfl⟩

/-- A run leaves the best chain in memory and on disk the same, with all its blocks connected, exactly when each
of its calls meets the condition. -/
theorem agreesThroughout_iff (tree : BlockTree env) (st : ChainState) (calls : List ChainCall)
    (hready : Ready tree st) (hcalls : ∀ call ∈ calls, call.InTree tree) :
    AgreesThroughout env st calls ↔ MeetsThroughout env st calls := by
  induction calls generalizing st with
  | nil => exact Iff.rfl
  | cons call calls ih =>
      obtain ⟨hcall, hcalls⟩ := List.forall_mem_cons.mp hcalls
      unfold AgreesThroughout MeetsThroughout
      refine forall_congr' fun ok => forall_congr' fun st' => forall_congr' fun h => ?_
      obtain ⟨hiff, hnext⟩ := step_agrees_iff hready hcall h
      constructor
      · rintro ⟨hagrees, hrest⟩
        exact ⟨hiff.mp hagrees, (ih st' (hnext hagrees) hcalls).mp hrest⟩
      · rintro ⟨hmeets, hrest⟩
        have hagrees := hiff.mpr hmeets
        exact ⟨hagrees, (ih st' (hnext hagrees) hcalls).mpr hrest⟩

end ChainCall

/-! ## A postponed block that fails -/

/-- A chain of three blocks; the hash of a block is one more than `hashPrevBlock`. -/
def threeEnv : ChainEnv where
  hashGenesisBlock := 1
  blockHash block := block.hashPrevBlock + 1

def threeChain : List CBlockIndex :=
  [{ hashBlock := 3, nBlockPos := 2, nHeight := 2, nChainTrust := 3 },
   { hashBlock := 2, nBlockPos := 1, nHeight := 1, nChainTrust := 2 },
   { hashBlock := 1, nBlockPos := 0, nHeight := 0, nChainTrust := 1 }]

def blockAt (hashPrevBlock : UInt256) : CBlock where
  nVersion := 7
  hashPrevBlock := hashPrevBlock
  hashMerkleRoot := 0
  nTime := 0
  nBits := 0
  nNonce := 0
  vtx := []

def threeTree : BlockTree threeEnv where
  mapBlockIndex :=
    { lookup := fun hash =>
        if hash = 3 then some threeChain
        else if hash = 2 then some (threeChain.drop 1)
        else if hash = 1 then some (threeChain.drop 2)
        else none
      head := by
        intro hash pindex h
        split_ifs at h with h3 h2 h1
        · cases h
          exact ⟨_, _, rfl, h3.symm⟩
        · cases h
          exact ⟨_, _, rfl, h2.symm⟩
        · cases h
          exact ⟨_, _, rfl, h1.symm⟩
      parent := by
        intro hash pindex pprev rest h
        split_ifs at h with h3 h2 h1
        · cases h
          rfl
        · cases h
          rfl
        · cases h }
  zero := rfl
  genesis := by
    intro pindex h
    cases h
    rfl
  linked := by
    rintro block pindex pprev rest ⟨hash, h⟩ hhash
    dsimp only at h
    split_ifs at h with h3 h2 h1
    · cases h
      exact (BitVec.add_left_inj 1).mp hhash
    · cases h
      exact (BitVec.add_left_inj 1).mp hhash
    · cases h

/-- A node that has gone back to the genesis block. -/
def rewoundState : ChainState where
  mem :=
    { pindexGenesisBlock := threeChain.drop 2
      hashBestChain := 1
      pindexBest := threeChain.drop 2
      nBestHeight := 0
      nBestChainTrust := 1
      pnext := fun _ => none }
  txdb :=
    { pdb :=
        { content := fun key => if key = hashBestChainKey then some (writeUInt256 1) else none
          unreadable := fun _ => false }
      activeBatch := none
      fReadOnly := false }
  connected _ := false
  pendingConnected _ := false

/-- `ConnectBlock` refuses the last block. -/
def lastRefused : Outcomes where
  readBlock _ nBlockPos := some (blockAt (BitVec.ofNat 256 nBlockPos.toNat))
  connects _ pindex := getBlockHash pindex ≠ 3
  disconnects _ _ := true
  batchWrites _ := []
  diskWrites _ := []
  commitFails _ := false
  diskWrites_other := Outcomes.no_diskWrites

theorem lastRefused_best :
    ∃ st', setBestChain threeEnv lastRefused rewoundState (blockAt 2) threeChain = some (true, st') ∧
      st'.mem.hashBestChain = 3 ∧ st'.diskHash = some (writeUInt256 2) ∧ st'.connected 3 = false ∧
      ¬ BestChainAgrees st' := by
  refine ⟨_, rfl, rfl, rfl, rfl, fun hagrees => ?_⟩
  have hconnected := hagrees.connected _ List.mem_cons_self
  cases hconnected

theorem rewoundState_ready : Ready threeTree rewoundState where
  closed := ⟨rfl, rfl⟩
  chain := by
    refine .inr ⟨List.cons_ne_nil _ _, ⟨1, rfl⟩, rfl, ?_, ?_, rfl⟩
    · intro pindex hpindex
      cases hpindex
      exact ⟨rfl, rfl⟩
    · intro entry hentry
      cases hentry

theorem agreesThroughout_iff_rewound :
    ChainCall.AgreesThroughout threeEnv rewoundState
        [.setBestChain (blockAt 2) threeChain lastRefused] ↔
      ChainCall.MeetsThroughout threeEnv rewoundState
        [.setBestChain (blockAt 2) threeChain lastRefused] :=
  ChainCall.agreesThroughout_iff threeTree rewoundState _ rewoundState_ready (by
    intro call hcall
    cases List.mem_singleton.mp hcall
    exact ⟨3, rfl⟩)

end ProCurrency

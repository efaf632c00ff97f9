import ProCurrency.Thin.Lemmas.Accept

/-!
# Pruning and the closure of the header index

Pruning goes along the main chain and looks neither at how far the chain reaches nor at what else hangs on an
entry. It is safe as long as the new header is not more than the window above the best one, and no fork hangs on an
entry that goes.
-/

namespace ProCurrency

open LinkedChain

namespace ThinIndex

/-! ## The condition -/

/-- The `pprev` of every entry in the map is null or an entry in the map. -/
def IndexClosed (st : ThinIndex) : Prop :=
  ∀ hash p, st.mapBlockThinIndex hash = some p →
    ∃ e, st.heap p = some e ∧ ∀ q, e.pprev = some q → ∃ hash', st.mapBlockThinIndex hash' = some q

/-- The old entries of the main chain once the header with the entry `e` is in. -/
def OnChainAfter (st : ThinIndex) (e : ThinEntry) (p : Nat) : Prop :=
  if st.nBestChainTrust < e.nChainTrust then ∃ q, e.pprev = some q ∧ Ancestor st.heap q p
  else st.OnMainChain p

/-- The header is the next one of the best chain, and its commit fails. -/
def ExtensionFails (outcomes : ThinOutcomes) (st : ThinIndex) (header : ThinHeader) (e : ThinEntry) : Prop :=
  st.nBestChainTrust < e.nChainTrust ∧ header.hashPrevBlock = st.hashBestChain ∧
    outcomes.commits st.nAllocated = false

/-- What a header that is added with the entry `e` has to meet. -/
structure PrunesCleanly (env : ThinEnv) (outcomes : ThinOutcomes) (st : ThinIndex) (header : ThinHeader)
    (e : ThinEntry) : Prop where
  /-- The commits of a reorganisation succeed. -/
  reorganizes : ∀ v mid, st.nBestChainTrust < e.nChainTrust → header.hashPrevBlock ≠ st.hashBestChain →
    postponeThin (st.insertEntry e).heap st.nBestChainTrust (st.nAllocated + 1) st.nAllocated = some (v, mid) →
    ∀ p ∈ mid :: v, outcomes.commits p = true
  /-- The best header is not too far below. -/
  reaches : env.fThinFullIndex = false → ¬ st.nBestChainTrust < e.nChainTrust →
    e.nHeight - env.nThinIndexWindow ≤ st.nBestHeight
  /-- No fork hangs on an entry that is pruned. -/
  forks : env.fThinFullIndex = false → ¬ ExtensionFails outcomes st header e → ∀ p q eq,
    Parent st.heap p q → st.heap q = some eq → eq.nHeight < e.nHeight - env.nThinIndexWindow →
    st.OnChainAfter e q → st.OnChainAfter e p

variable {st st' : ThinIndex} {chain : List Nat} {p q : Nat} {e : ThinEntry} {env : ThinEnv}
  {outcomes : ThinOutcomes} {header : ThinHeader}

/-! ## One call -/

theorem indexClosed_of_rooted (htree : Tree st) (hroot : Rooted st) : IndexClosed st := by
  intro hash p hp
  obtain ⟨e, he, -⟩ := (htree.filed hash p).mp hp
  refine ⟨e, he, fun q hq => ?_⟩
  obtain ⟨e', he'⟩ := hroot.alive p q ⟨e, he, hq⟩
  exact ⟨e'.hashBlock, htree.filed_of_heap he'⟩

theorem ancestor_insertEntry (htree : Tree st) (hp : p < st.nAllocated) :
    Ancestor (st.insertEntry e).heap p q ↔ Ancestor st.heap p q := by
  constructor
  · intro hpath
    induction hpath using Relation.ReflTransGen.head_induction_on with
    | refl => exact .refl
    | head hparent _ ih =>
        have hparent' := (parent_insertEntry hp).mp hparent
        exact .head hparent' (ih ((htree.earlier _ _ hparent').trans hp))
  · intro hpath
    induction hpath using Relation.ReflTransGen.head_induction_on with
    | refl => exact .refl
    | head hparent _ ih =>
        exact .head ((parent_insertEntry hp).mpr hparent) (ih ((htree.earlier _ _ hparent).trans hp))

/-- The loop finds no fork below its height. -/
theorem noForkBelow_of_prunesCleanly {st₁ : ThinIndex} (htree : Tree st) (hfresh : Fresh st e q)
    (hheap : st₁.heap = (st.insertEntry e).heap)
    (hmem : ∀ p, p < st.nAllocated → (p ∈ chain ↔ st.OnChainAfter e p))
    (hforks : ∀ p q eq, Parent st.heap p q → st.heap q = some eq → eq.nHeight < e.nHeight - env.nThinIndexWindow →
      st.OnChainAfter e q → st.OnChainAfter e p) :
    NoForkBelow st₁ chain (e.nHeight - env.nThinIndexWindow) := by
  intro p r er hparent hr her hlt
  rw [hheap] at hparent her
  obtain ⟨ePrev, hePrev, hheight⟩ := hfresh.height
  have hq := htree.allocated q ePrev hePrev
  have hrange := env.window
  have hne : p ≠ st.nAllocated := by
    rintro rfl
    obtain ⟨d, hd, hprev⟩ := hparent
    rw [heap_insertEntry_new] at hd
    cases hd
    rw [hfresh.pprev] at hprev
    cases hprev
    rw [heap_insertEntry_of_lt e hq, hePrev] at her
    cases her
    omega
  have hpLt : p < st.nAllocated := by
    obtain ⟨d, hd, -⟩ := hparent
    rw [heap_insertEntry, if_neg hne] at hd
    exact htree.allocated p d hd
  have hparent' := (parent_insertEntry hpLt).mp hparent
  have hrLt := (htree.earlier p r hparent').trans hpLt
  rw [heap_insertEntry_of_lt e hrLt] at her
  exact (hmem p hpLt).mpr (hforks p r er hparent' her hlt ((hmem r hrLt).mp hr))

/-- The loop returns, with the main chain that the header has left. -/
theorem pruneTo_of_prunesCleanly {st₁ : ThinIndex} (htree : Tree st) (hfresh : Fresh st e q)
    (hclean : PrunesCleanly env outcomes st header e) (hextends : ¬ ExtensionFails outcomes st header e)
    (hmain : MainChain st₁ chain) (hroot : Rooted st₁) (hheap : st₁.heap = (st.insertEntry e).heap)
    (hmem : ∀ p, p < st.nAllocated → (p ∈ chain ↔ st.OnChainAfter e p))
    (hbest : env.fThinFullIndex = false → e.nHeight - env.nThinIndexWindow ≤ st₁.nBestHeight) :
    ∃ st' l, pruneTo env e.nHeight st₁.nAllocated st₁ = some st' ∧ MainChain st' l ∧ Rooted st' := by
  obtain ⟨pindexBest, rest, rfl, -, best, heBest, -, hheight, -⟩ := hmain.best
  have hlength := hmain.length_le
  rw [List.length_cons] at hlength
  refine pruneTo_some hmain hroot (fun hfull => ?_) heBest (fun hfull => hheight ▸ hbest hfull) (by omega)
  exact noForkBelow_of_prunesCleanly htree hfresh hheap hmem (hclean.forks hfull hextends)

/-- A header keeps the index rooted, and its call returns. -/
theorem acceptBlockThin_rooted (h : MainChain st chain) (hroot : Rooted st)
    (hclean : ∀ e, Adds outcomes st header e → PrunesCleanly env outcomes st header e) :
    ∃ ok st' chain, st.acceptBlockThin env outcomes header = some (ok, st') ∧ MainChain st' chain ∧
      Rooted st' := by
  rcases em (∃ e, Adds outcomes st header e) with ⟨e, hadds⟩ | hno
  · obtain ⟨hhash, q, hq, hfresh⟩ := hadds.fresh
    have hclean := hclean e hadds
    have hmain := h.insertEntry hfresh
    have hroot' := hroot.insertEntry h.tree hfresh
    have hnew := heap_insertEntry_new st e
    obtain ⟨ePrev, hePrev, -⟩ := hfresh.height
    have hqLt := h.tree.allocated q ePrev hePrev
    rw [acceptBlockThin_of_adds hadds, moveAndPrune]
    split_ifs with htrust
    · have htrust : st.nBestChainTrust < e.nChainTrust := htrust
      have hprev : e.hashBlock ≠ header.hashPrevBlock := by
        intro heq
        have hunfiled := hfresh.unfiled
        rw [heq, hq] at hunfiled
        cases hunfiled
      obtain ⟨ok, st₁, hset⟩ := setBestThinChain_some env hmain hroot' hnew ⟨e, hnew, hfresh.pprev⟩
        fun hdirect v mid hpostpone => hclean.reorganizes v mid htrust hdirect hpostpone
      simp only [hset]
      cases ok with
      | false =>
          rw [setBestThinChain_false hmain hset]
          exact ⟨false, _, chain, rfl, hmain, hroot'⟩
      | true =>
          have hextends : ¬ ExtensionFails outcomes st header e := by
            rintro ⟨-, hdirect, hfails⟩
            rw [setBestThinChain_extends hmain hdirect, setBestThinChainInner, hfails] at hset
            cases hset
          obtain ⟨chain', hmain', rfl⟩ := setBestThinChain_spec hmain hnew hhash (hfresh.prev_filed hprev hq)
            (fun hdirect v mid hpostpone p hp =>
              hclean.reorganizes v mid htrust hdirect hpostpone p (List.mem_cons_of_mem mid hp)) hset
          have hmem : ∀ p, p < st.nAllocated → (p ∈ chain' ↔ st.OnChainAfter e p) := by
            intro p hp
            rw [hmain'.mem_iff, OnChainAfter, if_pos htrust]
            constructor
            · rintro ⟨r, hr, hpath⟩
              cases hr
              cases hpath.cases_head with
              | inl heq => exact absurd hp (heq ▸ lt_irrefl st.nAllocated)
              | inr hhead =>
                  obtain ⟨r, ⟨d, hd, hdprev⟩, hpath⟩ := hhead
                  cases hnew.symm.trans hd
                  rw [hfresh.pprev] at hdprev
                  cases hdprev
                  exact ⟨q, hfresh.pprev, (ancestor_insertEntry h.tree hqLt).mp hpath⟩
            · rintro ⟨r, hr, hpath⟩
              rw [hfresh.pprev] at hr
              cases hr
              exact ⟨st.nAllocated, rfl,
                .head ⟨e, hnew, hfresh.pprev⟩ ((ancestor_insertEntry h.tree hqLt).mpr hpath)⟩
          have hwindow := env.window
          obtain ⟨st', l, hprune, hl, hroot''⟩ := pruneTo_of_prunesCleanly h.tree hfresh hclean hextends hmain'
            ⟨hroot'.alive, hroot'.root⟩ rfl hmem
            (fun _ => show e.nHeight - env.nThinIndexWindow ≤ e.nHeight by omega)
          simp only [hprune]
          exact ⟨true, st', l, rfl, hl, hroot''⟩
    · have htrust : ¬ st.nBestChainTrust < e.nChainTrust := htrust
      have hmem : ∀ p, p < st.nAllocated → (p ∈ chain ↔ st.OnChainAfter e p) := by
        intro p _
        rw [h.mem_iff, OnChainAfter, if_neg htrust]
      obtain ⟨st', l, hprune, hl, hroot''⟩ := pruneTo_of_prunesCleanly h.tree hfresh hclean
        (fun hfails => htrust hfails.1) hmain hroot' rfl hmem (fun hfull => hclean.reaches hfull htrust)
      simp only [hprune]
      exact ⟨true, st', l, rfl, hl, hroot''⟩
  · obtain ⟨st₁, heq, rfl | ⟨e, q, hfresh, rfl⟩⟩ :=
      acceptBlockThin_of_not_adds env h.tree (fun e hadds => hno ⟨e, hadds⟩)
    · exact ⟨false, _, chain, heq, h, hroot⟩
    · exact ⟨false, _, chain, heq, h.insertEntry hfresh, hroot.insertEntry h.tree hfresh⟩

/-! ## Runs -/

/-- Every call of the run returns, and leaves the index closed. -/
def ClosedThroughout (env : ThinEnv) (st : ThinIndex) : List (ThinHeader × ThinOutcomes) → Prop
  | [] => IndexClosed st
  | (header, outcomes) :: calls =>
      IndexClosed st ∧ ∃ ok st', st.acceptBlockThin env outcomes header = some (ok, st') ∧
        ClosedThroughout env st' calls

/-- Every header of the run meets the condition in the state it comes to. -/
def CleanThroughout (env : ThinEnv) (st : ThinIndex) : List (ThinHeader × ThinOutcomes) → Prop
  | [] => True
  | (header, outcomes) :: calls =>
      (∀ e, Adds outcomes st header e → PrunesCleanly env outcomes st header e) ∧
        ∀ ok st', st.acceptBlockThin env outcomes header = some (ok, st') → CleanThroughout env st' calls

theorem closedThroughout_of_rooted (calls : List (ThinHeader × ThinOutcomes)) (h : MainChain st chain)
    (hroot : Rooted st) (hclean : CleanThroughout env st calls) : ClosedThroughout env st calls := by
  induction calls generalizing st chain with
  | nil => exact indexClosed_of_rooted h.tree hroot
  | cons call calls ih =>
      obtain ⟨header, outcomes⟩ := call
      obtain ⟨hclean, hrest⟩ := hclean
      obtain ⟨ok, st', chain', haccept, h', hroot'⟩ := acceptBlockThin_rooted h hroot hclean
      exact ⟨indexClosed_of_rooted h.tree hroot, ok, st', haccept, ih h' hroot' (hrest ok st' haccept)⟩

/-! ## From the genesis block on -/

/-- The index with the genesis block alone. -/
def genesisIndex (env : ThinEnv) : ThinIndex where
  heap := Function.update (fun _ => none) 0 (some ⟨env.hashGenesisBlock, none, 0, env.nGenesisTrust⟩)
  pnext _ := none
  nAllocated := 1
  mapBlockThinIndex := Function.update (fun _ => none) env.hashGenesisBlock (some 0)
  pindexGenesisBlockThin := some 0
  pindexRear := some 0
  pindexBestHeader := some 0
  hashBestChain := env.hashGenesisBlock
  nBestHeight := 0
  nBestChainTrust := env.nGenesisTrust
  pblockHeaderIndexFBBHLast := none

theorem heap_genesisIndex (h : (genesisIndex env).heap p = some e) :
    p = 0 ∧ e = ⟨env.hashGenesisBlock, none, 0, env.nGenesisTrust⟩ := by
  simp only [genesisIndex, Function.update_apply] at h
  split_ifs at h with hp
  cases h
  exact ⟨hp, rfl⟩

theorem genesisIndex_mainChain (env : ThinEnv) : MainChain (genesisIndex env) [0] where
  tree :=
    { filed := by
        intro hash p
        constructor
        · intro hmap
          simp only [genesisIndex, Function.update_apply] at hmap
          split_ifs at hmap with hhash
          cases hmap
          exact ⟨_, rfl, hhash.symm⟩
        · rintro ⟨e, he, rfl⟩
          obtain ⟨rfl, rfl⟩ := heap_genesisIndex he
          simp [genesisIndex]
      allocated := by
        intro p e he
        obtain ⟨rfl, -⟩ := heap_genesisIndex he
        exact Nat.one_pos
      earlier := by
        rintro p q ⟨e, he, hprev⟩
        obtain ⟨-, rfl⟩ := heap_genesisIndex he
        cases hprev
      graded := by
        intro p q e e' he hprev _
        obtain ⟨-, rfl⟩ := heap_genesisIndex he
        cases hprev }
  best := ⟨0, [], rfl, rfl, _, rfl, rfl, rfl, rfl⟩
  linked := List.isChain_singleton 0
  rear := ⟨0, _, rfl, rfl, rfl, rfl⟩
  pnext := rfl
  genesis := ⟨0, rfl, Nat.one_pos, .inl rfl⟩

theorem genesisIndex_rooted (env : ThinEnv) : Rooted (genesisIndex env) where
  alive := by
    rintro p q ⟨e, he, hprev⟩
    obtain ⟨-, rfl⟩ := heap_genesisIndex he
    cases hprev
  root := by
    intro p e he _
    obtain ⟨rfl, -⟩ := heap_genesisIndex he
    rfl

theorem loadGenesis_of_commits (env : ThinEnv) (hmodifier : outcomes.fStakeModifier = true)
    (hindex : outcomes.fIndexCommits = true) (hcommits : outcomes.commits 0 = true) :
    loadGenesis env outcomes = some (genesisIndex env) := by
  have htrust : 0#256 < env.nGenesisTrust := env.genesisTrust
  simp [loadGenesis, addToBlockThinIndex, empty, newEntry, hmodifier, hindex, insertEntry, setBestThinChain, hcommits,
    htrust, newBestHeader, pruneTo, genesisIndex]

theorem loadGenesis_eq (hload : loadGenesis env outcomes = some st) : st = genesisIndex env := by
  have htrust : 0#256 < env.nGenesisTrust := env.genesisTrust
  cases hmodifier : outcomes.fStakeModifier with
  | false => simp [loadGenesis, addToBlockThinIndex, empty, newEntry, hmodifier] at hload
  | true =>
      cases hindex : outcomes.fIndexCommits with
      | false => simp [loadGenesis, addToBlockThinIndex, empty, newEntry, hmodifier, hindex] at hload
      | true =>
          cases hcommits : outcomes.commits 0 with
          | false =>
              simp [loadGenesis, addToBlockThinIndex, empty, newEntry, hmodifier, hindex, insertEntry,
                setBestThinChain, hcommits, htrust] at hload
          | true =>
              rw [loadGenesis_of_commits env hmodifier hindex hcommits] at hload
              exact (Option.some.inj hload).symm

def windowEnv : ThinEnv where
  hashGenesisBlock := 1
  nGenesisTrust := 1
  genesisTrust := by decide
  fThinFullIndex := false
  nThinIndexWindow := 4096
  window := le_rfl

def nothingFails : ThinOutcomes where
  fAccepted := true
  fStakeModifier := true
  fIndexCommits := true
  commits _ := true

/-- The headers of one chain; the hash of the genesis block is one. -/
def mainHeader (k : Nat) : ThinHeader × ThinOutcomes :=
  (⟨BitVec.ofNat 256 (k + 2), BitVec.ofNat 256 (k + 1), 1⟩, nothingFails)

def mainHeaders : Nat → Nat → List (ThinHeader × ThinOutcomes)
  | _, 0 => []
  | k, n + 1 => mainHeader k :: mainHeaders (k + 1) n

/-- Another header over the genesis block. -/
def forkHeader : ThinHeader × ThinOutcomes := (⟨10000, 1, 1⟩, nothingFails)

/-- The chain with a fork, and as many headers as it takes to prune the genesis block. -/
def forkRun : List (ThinHeader × ThinOutcomes) := mainHeader 0 :: forkHeader :: mainHeaders 1 4096

theorem loadGenesis_windowEnv : loadGenesis windowEnv nothingFails = some (genesisIndex windowEnv) :=
  loadGenesis_of_commits windowEnv rfl rfl rfl

/-- The chain has its headers up to a height, and nothing has been pruned. -/
structure Extended (st : ThinIndex) (k : Nat) (chain : List Nat) : Prop where
  mainChain : MainChain st chain
  height : st.nBestHeight = k
  hash : st.hashBestChain = BitVec.ofNat 256 (k + 1)
  trust : st.nBestChainTrust = BitVec.ofNat 256 (k + 1)
  filed : ∀ hash p, st.mapBlockThinIndex hash = some p → hash.toNat ≤ k + 1 ∨ hash = 10000
  rear : st.pindexRear = some 0 ∧ ∃ e, st.heap 0 = some e ∧ e.nHeight = 0

theorem genesisIndex_extended : Extended (genesisIndex windowEnv) 0 [0] where
  mainChain := genesisIndex_mainChain windowEnv
  height := rfl
  hash := rfl
  trust := rfl
  filed := by
    intro hash p hmap
    simp only [genesisIndex, Function.update_apply] at hmap
    split_ifs at hmap with hhash
    rw [hhash]
    exact .inl le_rfl
  rear := ⟨rfl, _, rfl, rfl⟩

theorem toNat_ofNat_of_le {k : Nat} (hk : k ≤ 5000) : (BitVec.ofNat 256 k).toNat = k := by
  rw [BitVec.toNat_ofNat]
  exact Nat.mod_eq_of_lt (by omega)

theorem trust_lt_succ {k : Nat} (hk : k + 1 ≤ 5000) :
    BitVec.ofNat 256 k < BitVec.ofNat 256 k + 1 := by
  have hsucc : BitVec.ofNat 256 k + 1 = BitVec.ofNat 256 (k + 1) := (BitVec.ofNat_add k 1).symm
  rw [hsucc, BitVec.lt_def, toNat_ofNat_of_le (by omega), toNat_ofNat_of_le hk]
  exact Nat.lt_succ_self k

/-- The next header of the chain, up to the loop. -/
theorem Extended.accept {k : Nat} (h : Extended st k chain) (hk : k ≤ 4096) :
    ∃ e st', e.hashBlock = (mainHeader k).1.hash ∧
      st' = (st.insertEntry e).withBest (mainHeader k).1.hash st.nAllocated e (st.nAllocated :: chain) ∧
      Extended st' (k + 1) (st.nAllocated :: chain) ∧
      st.acceptBlockThin windowEnv (mainHeader k).2 (mainHeader k).1 =
        match pruneTo windowEnv (k + 1) (st.nAllocated + 1) st' with
        | none => none
        | some st => some (true, st) := by
  obtain ⟨pindexBest, rest, rfl, -⟩ := h.mainChain.best
  have htoNat : (mainHeader k).1.hash.toNat = k + 2 := toNat_ofNat_of_le (by omega)
  have hfork : (10000 : UInt256).toNat = 10000 := rfl
  have hunfiled : st.mapBlockThinIndex (mainHeader k).1.hash = none := by
    cases hmap : st.mapBlockThinIndex (mainHeader k).1.hash with
    | none => rfl
    | some p =>
        rcases h.filed _ p hmap with hle | heq
        · omega
        · rw [heq] at htoNat
          omega
  have htrust : st.nBestChainTrust < st.nBestChainTrust + (mainHeader k).1.nBlockTrust := by
    rw [h.trust]
    exact trust_lt_succ (by omega)
  obtain ⟨e, he⟩ : ∃ e : ThinEntry, e = ⟨(mainHeader k).1.hash, some pindexBest, st.nBestHeight + 1,
    st.nBestChainTrust + (mainHeader k).1.nBlockTrust⟩ := ⟨_, rfl⟩
  have hheight : e.nHeight = k + 1 := by rw [he, h.height]
  obtain ⟨hmain, haccept⟩ := acceptBlockThin_extends windowEnv nothingFails h.mainChain hunfiled h.hash.symm htrust
    rfl rfl rfl rfl he rfl
  rw [hheight] at haccept
  refine ⟨e, _, by rw [he], rfl, ⟨hmain, hheight, rfl, ?_, fun hash p hmap => ?_, ?_⟩, haccept⟩
  · have hsucc : BitVec.ofNat 256 (k + 1) + 1 = BitVec.ofNat 256 (k + 1 + 1) := (BitVec.ofNat_add (k + 1) 1).symm
    rw [withBest, he, h.trust]
    exact hsucc
  · simp only [withBest, insertEntry, Function.update_apply] at hmap
    split_ifs at hmap with hhash
    · rw [hhash, he]
      exact .inl htoNat.le
    · rcases h.filed hash p hmap with hle | heq
      · exact .inl (by omega)
      · exact .inr heq
  · obtain ⟨hrear, eRear, heRear, hzero⟩ := h.rear
    have hlt := h.mainChain.tree.allocated 0 eRear heRear
    exact ⟨hrear, eRear, (heap_insertEntry_of_lt e hlt).trans heRear, hzero⟩

/-- Below the window the loop does nothing. -/
theorem Extended.pruneTo_eq {k n fuel : Nat} (h : Extended st k chain) (hn : n ≤ 4096) :
    pruneTo windowEnv n fuel st = some st := by
  obtain ⟨hrear, eRear, heRear, hzero⟩ := h.rear
  unfold pruneTo
  simp only [hrear, heRear, hzero]
  rw [if_neg]
  rintro ⟨-, hlt⟩
  have hwindow : windowEnv.nThinIndexWindow = 4096 := rfl
  omega

/-- The other header over the genesis block is added beside the chain. -/
theorem Extended.acceptFork (h : Extended st 1 chain) (heRear : st.heap 0 = some ⟨1, none, 0, 1⟩)
    (hunfiled : st.mapBlockThinIndex 10000 = none) :
    ∃ f st', Extended st' 1 chain ∧ Parent st'.heap f 0 ∧ f ∉ chain ∧
      st.acceptBlockThin windowEnv forkHeader.2 forkHeader.1 = some (true, st') := by
  have hfiled : st.mapBlockThinIndex 1 = some 0 := h.mainChain.tree.filed_of_heap heRear
  have hnew : st.newEntry forkHeader.1 = some ⟨10000, some 0, 1, 2⟩ := by
    rw [newEntry, show forkHeader.1.hashPrevBlock = 1 from rfl, hfiled]
    simp only [heRear]
    rfl
  obtain ⟨-, hfresh⟩ := newEntry_spec hnew hfiled hunfiled
  have hadds : Adds forkHeader.2 st forkHeader.1 ⟨10000, some 0, 1, 2⟩ :=
    ⟨hunfiled, by rw [show forkHeader.1.hashPrevBlock = 1 from rfl, hfiled]; exact Option.some_ne_none 0,
      rfl, rfl, rfl, hnew⟩
  have hextended : Extended (st.insertEntry ⟨10000, some 0, 1, 2⟩) 1 chain := by
    refine ⟨h.mainChain.insertEntry hfresh, h.height, h.hash, h.trust, fun hash p hmap => ?_, h.rear.1, ?_⟩
    · simp only [insertEntry, Function.update_apply] at hmap
      split_ifs at hmap with hhash
      · exact .inr hhash
      · exact h.filed hash p hmap
    · exact ⟨_, (heap_insertEntry_of_lt _ (h.mainChain.tree.allocated 0 _ heRear)).trans heRear, rfl⟩
  refine ⟨st.nAllocated, _, hextended, ⟨_, heap_insertEntry_new st _, rfl⟩, fun hmem => ?_, ?_⟩
  · exact absurd (h.mainChain.lt_nAllocated hmem) (lt_irrefl _)
  · rw [acceptBlockThin_of_adds hadds, moveAndPrune, if_neg]
    · have hprune : pruneTo windowEnv 1 (st.nAllocated + 1) (st.insertEntry ⟨10000, some 0, 1, 2⟩) =
          some (st.insertEntry ⟨10000, some 0, 1, 2⟩) := hextended.pruneTo_eq (n := 1) (by omega)
      dsimp only
      rw [show (st.insertEntry ⟨10000, some 0, 1, 2⟩).nAllocated = st.nAllocated + 1 from rfl, hprune]
    · intro hlt
      have htrust : (st.insertEntry ⟨10000, some 0, 1, 2⟩).nBestChainTrust = 2 := h.trust
      rw [htrust] at hlt
      exact absurd hlt (by decide)

/-- The header that prunes the rear leaves the fork open. -/
theorem Extended.not_closed {f : Nat} (h : Extended st 4096 chain) (hparent : Parent st.heap f 0) (hf : f ∉ chain) :
    ¬ ClosedThroughout windowEnv st [mainHeader 4096] := by
  rintro ⟨-, ok, st', haccept, hclosed⟩
  obtain ⟨e, st₁, -, hst₁, hextended, heq⟩ := h.accept le_rfl
  obtain ⟨hrear, eRear, heRear, hzero⟩ := hextended.rear
  have hpositive : 0 < f := h.mainChain.tree.earlier f 0 hparent
  obtain ⟨d, hd, hprev⟩ := hparent
  have hlt := h.mainChain.tree.allocated f d hd
  rcases hextended.mainChain.rear_cases with ⟨rear, hchain, -⟩ | ⟨l, rear, next, eRear', eNext, hchain, htwo⟩
  · obtain ⟨pindexBest, rest, rfl, -⟩ := h.mainChain.best
    cases hchain
  · have hrear' := htwo.pindexRear.1
    rw [hrear] at hrear'
    cases hrear'
    have heRear' := htwo.eRear
    rw [heRear] at heRear'
    cases heRear'
    have hnext : eNext.nHeight = 1 := by rw [htwo.above.1, hzero]; rfl
    have hloop : pruneTo windowEnv ((4096 : Nat) + 1) (st.nAllocated + 1) st₁ =
        some (st₁.withoutRear 0 next eRear eNext (l ++ [next])) := by
      rw [pruneTo]
      simp only [hrear, heRear, hzero]
      rw [if_pos (by decide), htwo.pruneRear]
      dsimp only
      unfold pruneTo
      have hheap : (st₁.withoutRear 0 next eRear eNext (l ++ [next])).heap next =
          some { eNext with pprev := none } := by
        rw [TwoAtRear.heap_withoutRear, if_neg htwo.ne, if_pos rfl]
      have hpindexRear : (st₁.withoutRear 0 next eRear eNext (l ++ [next])).pindexRear = some next := rfl
      simp only [hpindexRear, hheap, hnext]
      exact if_neg (by decide)
    rw [hloop] at heq
    have hst' := heq.symm.trans haccept
    cases hst'
    have hfork : (st₁.withoutRear 0 next eRear eNext (l ++ [next])).heap f = some d := by
      have hne : f ≠ next := by
        rintro rfl
        have hmem : f ∈ st.nAllocated :: chain := hchain ▸ (by simp)
        rcases List.mem_cons.mp hmem with rfl | hmem
        · exact absurd hlt (lt_irrefl _)
        · exact hf hmem
      rw [TwoAtRear.heap_withoutRear, if_neg (by omega), if_neg hne, hst₁]
      exact (heap_insertEntry_of_lt e hlt).trans hd
    obtain ⟨d', hd', hall⟩ := hclosed d.hashBlock f (htwo.tree.filed_of_heap hfork)
    rw [hfork] at hd'
    cases hd'
    obtain ⟨hash', hmap⟩ := hall 0 hprev
    obtain ⟨c, hc, -⟩ := (htwo.tree.filed hash' 0).mp hmap
    rw [TwoAtRear.heap_withoutRear, if_pos rfl] at hc
    cases hc

theorem Extended.not_closedThroughout {k n f : Nat} (h : Extended st k chain) (hparent : Parent st.heap f 0)
    (hf : f ∉ chain) (hn : k + n = 4096) : ¬ ClosedThroughout windowEnv st (mainHeaders k (n + 1)) := by
  induction n generalizing st k chain with
  | zero =>
      obtain rfl : k = 4096 := hn
      exact h.not_closed hparent hf
  | succ n ih =>
      rintro ⟨-, ok, st', haccept, hclosed⟩
      obtain ⟨e, st₁, -, hst₁, hextended, heq⟩ := h.accept (by omega)
      have hprune : pruneTo windowEnv (k + 1) (st.nAllocated + 1) st₁ = some st₁ :=
        hextended.pruneTo_eq (n := k + 1) (by omega)
      rw [hprune] at heq
      have hst' := heq.symm.trans haccept
      cases hst'
      have hlt : f < st.nAllocated := by
        obtain ⟨d, hd, -⟩ := hparent
        exact h.mainChain.tree.allocated f d hd
      refine ih hextended ?_ ?_ (by omega) hclosed
      · rw [hst₁]
        exact (parent_insertEntry hlt).mpr hparent
      · intro hmem
        rcases List.mem_cons.mp hmem with rfl | hmem
        · exact absurd hlt (lt_irrefl _)
        · exact hf hmem

end ThinIndex

end ProCurrency

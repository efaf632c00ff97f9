import ProCurrency.Chain.Theorems
import ProCurrency.Connect.Lemmas.Index
import ProCurrency.Pool.BestChain
import ProCurrency.Pool.Run

/-!
# Conflicts between the memory pool and the best chain

`Reorganize` removes what conflicts with the blocks that it connects. `SetBestChainInner` removes the transactions of
its block and nothing else, so that a transaction that spends what another one has spent in the block stays.
-/

namespace ProCurrency

namespace CTxMemPool

variable {env : PoolEnv} {txs : Set CTransaction} {pool pool' : CTxMemPool} {tx tx' : CTransaction}
  {vtx : List CTransaction} {ptx : Nat} {fuel : Nat} {fEntry : Bool}

/-- No transaction of the pool spends what one of these spends. -/
def NoneSpent (pool : CTxMemPool) (vtx : List CTransaction) : Prop :=
  ∀ ptx tx, pool.heap ptx = some tx → ∀ tx' ∈ vtx, ∀ prevout ∈ tx'.prevouts, prevout ∉ tx.outPoints

/-- A transaction of the pool that spends what one of these spends is one of them itself. -/
def OwnSpenders (env : PoolEnv) (pool : CTxMemPool) (vtx : List CTransaction) : Prop :=
  ∀ ptx tx, pool.heap ptx = some tx → ∀ tx' ∈ vtx, ∀ prevout ∈ tx'.prevouts, prevout ∈ tx.outPoints →
    env.txHash tx ∈ vtx.map env.txHash

theorem NoneSpent.nil (pool : CTxMemPool) : pool.NoneSpent [] := fun _ _ _ _ hmem => nomatch hmem

theorem NoneSpent.within (h : pool.NoneSpent vtx) (hwithin : Within pool' pool) : pool'.NoneSpent vtx :=
  fun ptx tx htx => h ptx tx (hwithin ptx tx htx)

theorem NoneSpent.append {vtx' : List CTransaction} (h : pool.NoneSpent vtx) (h' : pool.NoneSpent vtx') :
    pool.NoneSpent (vtx ++ vtx') := by
  intro ptx tx htx tx' hmem
  obtain hmem | hmem := List.mem_append.mp hmem
  · exact h ptx tx htx tx' hmem
  · exact h' ptx tx htx tx' hmem

theorem prevouts_subset_outPoints (tx : CTransaction) : tx.prevouts ⊆ tx.outPoints := by
  rw [CTransaction.prevouts]
  split_ifs
  · exact List.nil_subset _
  · exact List.Subset.refl _

/-! ## A block that extends the chain -/

/-- Without its descendants, only the transaction itself goes. -/
theorem Indexed.heap_remove (h : Indexed env txs pool)
    (heq : pool.remove env fuel tx false fEntry = some pool') :
    pool'.heap ptx = some tx' ↔ pool.heap ptx = some tx' ∧ env.txHash tx' ≠ env.txHash tx := by
  cases fuel with
  | zero => cases heq
  | succ fuel =>
      rw [CTxMemPool.remove] at heq
      cases hhas : pool.hasTx (env.txHash tx) with
      | false =>
          rw [hhas] at heq
          cases heq
          refine ⟨fun htx' => ⟨htx', fun hhash => ?_⟩, And.left⟩
          rw [h.hasTx_iff.mpr ⟨ptx, tx', htx', hhash⟩] at hhas
          cases hhas
      | true =>
          rw [hhas] at heq
          cases heq
          exact h.heap_eraseTx tx _

theorem Indexed.removeAll (hinj : Set.InjOn env.txHash txs) (h : Indexed env txs pool) (hvtx : ∀ tx ∈ vtx, tx ∈ txs)
    (heq : pool.removeAll env fuel vtx = some pool') :
    Indexed env txs pool' ∧
      ∀ ptx tx, pool'.heap ptx = some tx ↔ pool.heap ptx = some tx ∧ env.txHash tx ∉ vtx.map env.txHash := by
  induction vtx generalizing pool with
  | nil =>
      cases heq
      exact ⟨h, fun ptx tx => by simp⟩
  | cons tx vtx ih =>
      rw [CTxMemPool.removeAll] at heq
      obtain ⟨hmem, hrest⟩ := List.forall_mem_cons.mp hvtx
      cases hremoved : pool.remove env fuel tx false false with
      | none =>
          rw [hremoved] at heq
          cases heq
      | some pool₁ =>
          rw [hremoved] at heq
          obtain ⟨hindexed, hheap⟩ := ih (h.remove hinj hmem hremoved).indexed hrest heq
          refine ⟨hindexed, fun ptx tx' => ?_⟩
          rw [hheap, h.heap_remove hremoved, List.map_cons, List.mem_cons, not_or, and_assoc]

/-- What `SetBestChainInner` leaves has no conflicts exactly when the block met none but those with itself. -/
theorem Indexed.noneSpent_removeAll_iff (hinj : Set.InjOn env.txHash txs) (h : Indexed env txs pool)
    (hvtx : ∀ tx ∈ vtx, tx ∈ txs) (heq : pool.removeAll env fuel vtx = some pool') :
    pool'.NoneSpent vtx ↔ pool.OwnSpenders env vtx := by
  obtain ⟨-, hheap⟩ := h.removeAll hinj hvtx heq
  constructor
  · intro hnone ptx tx htx tx' hmem prevout hp hspends
    by_contra hnot
    exact hnone ptx tx ((hheap ptx tx).mpr ⟨htx, hnot⟩) tx' hmem prevout hp hspends
  · intro hown ptx tx htx tx' hmem prevout hp hspends
    obtain ⟨hold, hnot⟩ := (hheap ptx tx).mp htx
    exact hnot (hown ptx tx hold tx' hmem prevout hp hspends)

/-! ## A reorganisation -/

theorem Indexed.deleteAll (hinj : Set.InjOn env.txHash txs) (h : Indexed env txs pool)
    (hvtx : ∀ tx ∈ vtx, tx ∈ txs) (heq : pool.deleteAll env fuel vtx = some pool') :
    Indexed env txs pool' ∧ Within pool' pool ∧ pool'.NoneSpent vtx := by
  induction vtx generalizing pool with
  | nil =>
      cases heq
      exact ⟨h, .refl _, .nil _⟩
  | cons tx vtx ih =>
      rw [CTxMemPool.deleteAll] at heq
      obtain ⟨hmem, hrest⟩ := List.forall_mem_cons.mp hvtx
      cases hremoved : pool.remove env fuel tx false false with
      | none =>
          rw [hremoved] at heq
          cases heq
      | some pool₁ =>
          simp only [hremoved] at heq
          have hremoves := h.remove hinj hmem hremoved
          cases hconflicts : pool₁.removeConflicts env fuel tx with
          | none =>
              rw [hconflicts] at heq
              cases heq
          | some pool₂ =>
              rw [hconflicts] at heq
              obtain ⟨hindexed, hwithin, hleft⟩ := hremoves.indexed.removeConflicts hinj hconflicts
              obtain ⟨hindexed', hwithin', hnone⟩ := ih hindexed hrest heq
              refine ⟨hindexed', hwithin'.trans (hwithin.trans hremoves.within), ?_⟩
              intro ptx t ht tx' hmem' prevout hp hspends
              obtain rfl | hmem' := List.mem_cons.mp hmem'
              · -- The transaction itself is gone, and with it all that spend what it spends.
                have hold := hwithin' ptx t ht
                have heq := hleft ptx t hold prevout (prevouts_subset_outPoints _ hp) hspends
                exact hremoves.gone ptx t (hwithin ptx t hold) (congrArg env.txHash heq)
              · exact hnone ptx t ht tx' hmem' prevout hp hspends

variable {G : Type} [AddCommGroup G]

theorem Indexed.acceptToMemoryPool (h : Indexed env txs pool) (htx : tx ∈ txs) (a : Acceptance G) :
    Indexed env txs (pool.acceptToMemoryPool { a.node with txHash := env.txHash } a.s a.answers tx).2 := by
  rw [CTxMemPool.acceptToMemoryPool]
  split_ifs with haccepts
  · obtain ⟨hnew, hfree, -⟩ := accepts_spec haccepts
    exact h.addUnchecked htx hnew hfree
  · exact h

theorem Indexed.resurrectAll (h : Indexed env txs pool) (hvtx : ∀ tx ∈ vtx, tx ∈ txs)
    (acceptance : CTransaction → Acceptance G) : Indexed env txs (pool.resurrectAll env acceptance vtx) := by
  induction vtx generalizing pool with
  | nil => exact h
  | cons tx vtx ih =>
      obtain ⟨hmem, hrest⟩ := List.forall_mem_cons.mp hvtx
      exact ih (h.acceptToMemoryPool hmem (acceptance tx)) hrest

end CTxMemPool

namespace PoolNode

open CTxMemPool

variable {G : Type} [AddCommGroup G]

/-! ## Calls -/

inductive Call (G : Type) where
  | acceptToMemoryPool (a : Acceptance G) (tx : CTransaction)
  | setBestChain (o : PoolOutcomes G) (block : CBlock) (pindexNew : List CBlockIndex)

/-- All transactions that a call can meet are these. -/
def Call.Knows (env : PoolNodeEnv) (txs : Set CTransaction) : Call G → Prop
  | .acceptToMemoryPool _ tx => tx ∈ txs
  | .setBestChain o block _ =>
      (∀ tx ∈ block.vtx, tx ∈ txs) ∧
        ∀ pindex block, readBlockFromDisk env.chain o.outcomes pindex = some block → ∀ tx ∈ block.vtx, tx ∈ txs

def step (env : PoolNodeEnv) (fuel : Nat) (n : PoolNode) : Call G → Option PoolNode
  | .acceptToMemoryPool a tx =>
      some { n with
        pool := (n.pool.acceptToMemoryPool { a.node with txHash := env.pool.txHash } a.s a.answers tx).2
        joined := [] }
  | .setBestChain o block pindexNew => (n.setBestChain env fuel o block pindexNew).map Prod.snd

def run (env : PoolNodeEnv) (fuel : Nat) (n : PoolNode) : List (Call G) → Option PoolNode
  | [] => some n
  | call :: calls =>
      match n.step env fuel call with
      | none => none
      | some n => run env fuel n calls

def start (chain : ChainState) : PoolNode where
  chain := chain
  pool := .empty
  joined := []

/-- Each postponed block that is connected meets no conflicts but those with itself. -/
def PostponedClean (env : PoolNodeEnv) (fuel : Nat) (o : PoolOutcomes G) (n : PoolNode) :
    List (List CBlockIndex) → Prop
  | [] => True
  | pindex :: rest =>
      ∀ block chain n', readBlockFromDisk env.chain o.outcomes pindex = some block →
        n.chain.txnBegin = some (true, chain) →
          setBestChainInner env fuel o { n with chain } block pindex = some (true, n') →
            n.pool.OwnSpenders env.pool block.vtx ∧ PostponedClean env fuel o n' rest

/-- Each block that the call connects, but in a reorganisation, meets no conflicts but those with itself. -/
def Clean (env : PoolNodeEnv) (fuel : Nat) (n : PoolNode) : Call G → Prop
  | .acceptToMemoryPool _ _ => True
  | .setBestChain o block pindexNew =>
      ∀ chain, n.chain.txnBegin = some (true, chain) →
        if chain.mem.pindexGenesisBlock = [] ∧ env.chain.blockHash block = env.chain.hashGenesisBlock then
          n.pool.NoneSpent block.vtx
        else if block.hashPrevBlock = chain.mem.hashBestChain then n.pool.OwnSpenders env.pool block.vtx
        else
          ∀ pindexBest pprev n', chain.mem.pindexBest = pindexBest :: pprev →
            reorganize env fuel o { n with chain, joined := [] } (postpone pindexBest.nChainTrust pindexNew).2 =
              some (true, n') →
            PostponedClean env fuel o n' (postpone pindexBest.nChainTrust pindexNew).1.reverse

/-- Each call of a run is clean. -/
def CleanThroughout (env : PoolNodeEnv) (fuel : Nat) (n : PoolNode) : List (Call G) → Prop
  | [] => True
  | call :: calls => n.Clean env fuel call ∧ ∀ n', n.step env fuel call = some n' → CleanThroughout env fuel n' calls

variable {env : PoolNodeEnv} {txs : Set CTransaction} {fuel : Nat} {o : PoolOutcomes G} {n n' : PoolNode}
  {ok : Bool} {block : CBlock} {pindexNew : List CBlockIndex} {pindices : List (List CBlockIndex)} {call : Call G}

/-! ## What a call leaves -/

structure Steady (env : PoolNodeEnv) (txs : Set CTransaction) (n : PoolNode) : Prop where
  indexed : CTxMemPool.Indexed env.pool txs n.pool
  noneSpent : n.pool.NoneSpent n.joined

omit [AddCommGroup G] in
theorem mem_resurrectedFrom {tx : CTransaction} {pindex : List CBlockIndex} (h : tx ∈ resurrectedFrom env o pindex) :
    ∃ block, readBlockFromDisk env.chain o.outcomes pindex = some block ∧ tx ∈ block.vtx := by
  unfold resurrectedFrom at h
  split at h
  · exact ⟨_, ‹_›, (List.mem_filter.mp h).1⟩
  · cases h

omit [AddCommGroup G] in
theorem mem_vDelete {tx : CTransaction} (h : tx ∈ vDelete env o pindices) :
    ∃ pindex block, readBlockFromDisk env.chain o.outcomes pindex = some block ∧ tx ∈ block.vtx := by
  obtain ⟨pindex, -, htx⟩ := List.mem_flatMap.mp h
  split at htx
  · cases htx
  · exact ⟨pindex, _, ‹_›, htx⟩

omit [AddCommGroup G] in
theorem Steady.setBestChainInner (hinj : Set.InjOn env.pool.txHash txs) (h : Steady env txs n)
    (hvtx : ∀ tx ∈ block.vtx, tx ∈ txs) (hown : ok = true → n.pool.OwnSpenders env.pool block.vtx)
    (heq : n.setBestChainInner env fuel o block pindexNew = some (ok, n')) : Steady env txs n' := by
  rw [PoolNode.setBestChainInner] at heq
  split at heq
  · cases heq
  · cases heq
    exact ⟨h.indexed, h.noneSpent⟩
  · split at heq
    · cases heq
    · rename_i chain _ pool hremoved
      cases heq
      obtain ⟨hindexed, hheap⟩ := h.indexed.removeAll hinj hvtx hremoved
      have hwithin : Within pool n.pool := fun ptx tx htx => ((hheap ptx tx).mp htx).1
      have hnone := (h.indexed.noneSpent_removeAll_iff hinj hvtx hremoved).mpr (hown rfl)
      exact ⟨hindexed, (h.noneSpent.within hwithin).append hnone⟩

theorem Steady.reorganize (hinj : Set.InjOn env.pool.txHash txs) (h : CTxMemPool.Indexed env.pool txs n.pool)
    (hjoined : n.joined = [])
    (hdisk : ∀ pindex block, readBlockFromDisk env.chain o.outcomes pindex = some block → ∀ tx ∈ block.vtx, tx ∈ txs)
    (heq : n.reorganize env fuel o pindexNew = some (ok, n')) : Steady env txs n' := by
  rw [PoolNode.reorganize] at heq
  split at heq
  · cases heq
  · cases heq
    refine ⟨h, ?_⟩
    rw [hjoined]
    exact .nil _
  · split at heq
    · cases heq
    · dsimp only at heq
      split at heq
      · cases heq
      · rename_i pfork _ _ pool hdeleted
        cases heq
        have hback : ∀ tx ∈ vResurrect env o (branchTo pfork n.chain.mem.pindexBest), tx ∈ txs := by
          intro tx htx
          obtain ⟨pindex, -, hmem⟩ := List.mem_flatMap.mp htx
          obtain ⟨block, hread, hblock⟩ := mem_resurrectedFrom hmem
          exact hdisk pindex block hread tx hblock
        have hgone : ∀ tx ∈ vDelete env o (branchTo pfork pindexNew).reverse, tx ∈ txs := by
          intro tx htx
          obtain ⟨pindex, block, hread, hblock⟩ := mem_vDelete htx
          exact hdisk pindex block hread tx hblock
        obtain ⟨hindexed, -, hnone⟩ := (h.resurrectAll hback o.acceptance).deleteAll hinj hgone hdeleted
        refine ⟨hindexed, ?_⟩
        rw [hjoined]
        exact hnone

omit [AddCommGroup G] in
theorem Steady.connectPostponed (hinj : Set.InjOn env.pool.txHash txs) (h : Steady env txs n)
    (hdisk : ∀ pindex block, readBlockFromDisk env.chain o.outcomes pindex = some block → ∀ tx ∈ block.vtx, tx ∈ txs)
    (hclean : PostponedClean env fuel o n pindices) (heq : n.connectPostponed env fuel o pindices = some n') :
    Steady env txs n' := by
  induction pindices generalizing n with
  | nil =>
      cases heq
      exact h
  | cons pindex rest ih =>
      rw [PoolNode.connectPostponed] at heq
      split at heq
      · cases heq
        exact h
      · rename_i block hread
        split at heq
        · cases heq
        · cases heq
          exact ⟨h.indexed, h.noneSpent⟩
        · rename_i chain hbegin
          have h₁ : Steady env txs { n with chain } := ⟨h.indexed, h.noneSpent⟩
          split at heq
          · cases heq
          · rename_i n₁ hinner
            cases heq
            exact h₁.setBestChainInner hinj (hdisk pindex block hread) (fun hok => absurd hok Bool.false_ne_true) hinner
          · rename_i n₁ hinner
            obtain ⟨hown, hrest⟩ := hclean block chain n₁ hread hbegin hinner
            exact ih (h₁.setBestChainInner hinj (hdisk pindex block hread) (fun _ => hown) hinner) hrest heq

theorem Steady.newBestBlock {hash : UInt256} (h : Steady env txs n)
    (heq : n.newBestBlock hash pindexNew = some (ok, n')) : Steady env txs n' := by
  obtain ⟨-, hpool, hjoined⟩ := newBestBlock_chain heq
  refine ⟨hpool ▸ h.indexed, ?_⟩
  rw [hpool, hjoined]
  exact h.noneSpent

theorem Steady.setBestChain (hinj : Set.InjOn env.pool.txHash txs) (h : Steady env txs n)
    (hknows : (Call.setBestChain o block pindexNew).Knows env txs)
    (hclean : n.Clean env fuel (.setBestChain o block pindexNew))
    (heq : n.setBestChain env fuel o block pindexNew = some (ok, n')) : Steady env txs n' := by
  obtain ⟨hvtx, hdisk⟩ := hknows
  rw [PoolNode.setBestChain] at heq
  split at heq
  · cases heq
  · cases heq
    exact ⟨h.indexed, .nil _⟩
  · rename_i chain hbegin
    have hready : ∀ chain, Steady env txs { n with chain, joined := [] } := fun _ => ⟨h.indexed, .nil _⟩
    have hcond := hclean chain hbegin
    dsimp only at heq
    split_ifs at heq hcond with hgenesis hextends
    · split at heq
      · cases heq
      · split at heq
        · cases heq
        · cases heq
          exact hready _
        · rename_i chain' _
          have hjoined : Steady env txs
              { n with
                chain := { chain' with mem := { chain'.mem with pindexGenesisBlock := pindexNew } }
                joined := block.vtx } := ⟨h.indexed, hcond⟩
          exact hjoined.newBestBlock heq
    · split at heq
      · cases heq
      · rename_i n₁ hinner
        cases heq
        exact (hready chain).setBestChainInner hinj hvtx (fun hok => absurd hok Bool.false_ne_true) hinner
      · rename_i n₁ hinner
        exact ((hready chain).setBestChainInner hinj hvtx (fun _ => hcond) hinner).newBestBlock heq
    · split at heq
      · cases heq
      · rename_i pindexBest pprev hbest
        split at heq
        · cases heq
        · rename_i n₁ hreorganize
          have h₁ := Steady.reorganize hinj (hready chain).indexed rfl hdisk hreorganize
          split at heq
          · cases heq
          · cases heq
            exact ⟨h₁.indexed, h₁.noneSpent⟩
        · rename_i n₁ hreorganize
          have h₁ := Steady.reorganize hinj (hready chain).indexed rfl hdisk hreorganize
          split at heq
          · cases heq
          · rename_i n₂ hpostponed
            have hpclean := hcond pindexBest pprev n₁ hbest hreorganize
            exact (h₁.connectPostponed hinj hdisk hpclean hpostponed).newBestBlock heq

theorem step_accept {a : Acceptance G} {tx : CTransaction}
    (h : n.pool.accepts { a.node with txHash := env.pool.txHash } a.s a.answers tx = true) (fuel : Nat) :
    n.step env fuel (.acceptToMemoryPool a tx) =
      some { n with pool := n.pool.addUnchecked (env.pool.txHash tx) tx, joined := [] } := by
  rw [step, CTxMemPool.acceptToMemoryPool, if_pos h]

theorem Steady.step (hinj : Set.InjOn env.pool.txHash txs) (h : Steady env txs n) (hknows : call.Knows env txs)
    (hclean : n.Clean env fuel call) (heq : n.step env fuel call = some n') : Steady env txs n' := by
  cases call with
  | acceptToMemoryPool a tx =>
      cases heq
      exact ⟨h.indexed.acceptToMemoryPool hknows a, .nil _⟩
  | setBestChain o block pindexNew =>
      obtain ⟨⟨ok, n₁⟩, hset, hn⟩ := Option.map_eq_some_iff.mp heq
      cases hn
      exact h.setBestChain hinj hknows hclean hset

/-- In a run whose calls are clean, no transaction that the last call leaves in the pool spends what a transaction of a
block spends that the call has connected. -/
theorem noneSpent_of_cleanThroughout (env : PoolNodeEnv) (fuel : Nat) (txs : Set CTransaction)
    (hinj : Set.InjOn env.pool.txHash txs) (chain : ChainState) (calls : List (Call G))
    (hknows : ∀ call ∈ calls, call.Knows env txs) (hclean : (start chain).CleanThroughout env fuel calls)
    (n : PoolNode) (hrun : (start chain).run env fuel calls = some n) : n.pool.NoneSpent n.joined := by
  have hsteady : ∀ (n₀ : PoolNode), Steady env txs n₀ → n₀.CleanThroughout env fuel calls →
      n₀.run env fuel calls = some n → Steady env txs n := by
    intro n₀ h₀ hclean hrun
    clear * - hinj hknows h₀ hclean hrun
    induction calls generalizing n₀ with
    | nil =>
        cases hrun
        exact h₀
    | cons call calls ih =>
        obtain ⟨hcall, hcalls⟩ := List.forall_mem_cons.mp hknows
        rw [run] at hrun
        cases hstep : n₀.step env fuel call with
        | none =>
            rw [hstep] at hrun
            cases hrun
        | some n₁ =>
            rw [hstep] at hrun
            exact ih hcalls n₁ (h₀.step hinj hcall hclean.1 hstep) (hclean.2 n₁ hstep) hrun
  exact (hsteady _ ⟨.empty env.pool txs, .nil _⟩ hclean hrun).noneSpent

/-! ## A block over a pool of one -/

/-- One of the transactions that spend the first output of `fundingTx`. -/
def fundingSpend (nLockTime : UInt32) : CTransaction where
  nVersion := 1
  nTime := 1000
  vin := [{ prevout := { hash := 7, n := 0 }, scriptSig := [], nSequence := 0 }]
  vout := [{ nValue := 499990000, scriptPubKey := [OP_1] }]
  nLockTime := nLockTime

def spendEnv : PoolNodeEnv where
  chain := threeEnv
  pool := { txHash := fundedEnv.txHash, freed := id }

def spendAcceptance : Acceptance (ZMod (2 ^ 256 + 297)) where
  node := fundedEnv
  s := fundedStore
  answers := { isStandard := true, fetches := true, connects := true }

def spendOutcomes : PoolOutcomes (ZMod (2 ^ 256 + 297)) where
  outcomes := { lastRefused with connects := fun _ _ => true, diskWrites_other := by simp [lastRefused] }
  nTotalBlocksEstimate := 0
  acceptance _ := spendAcceptance

/-- A transaction comes to the pool, and then a block on the best one with another. -/
def spendCalls (nLockTime : UInt32) : List (Call (ZMod (2 ^ 256 + 297))) :=
  [.acceptToMemoryPool spendAcceptance (fundingSpend 5),
   .setBestChain spendOutcomes { blockAt 1 with vtx := [fundingSpend nLockTime] } (threeChain.drop 1)]

def spendPool : CTxMemPool := empty.addUnchecked 5 (fundingSpend 5)

theorem eq_of_spendPool {ptx : Nat} {tx : CTransaction} (h : spendPool.heap ptx = some tx) : tx = fundingSpend 5 := by
  change Function.update (fun _ => none) 0 (some (fundingSpend 5)) ptx = some tx at h
  rcases eq_or_ne ptx 0 with rfl | hne
  · rw [Function.update_self] at h
    exact (Option.some.inj h).symm
  · rw [Function.update_of_ne hne] at h
    cases h

theorem accepts_fundingSpend :
    (start rewoundState).pool.accepts { spendAcceptance.node with txHash := spendEnv.pool.txHash } spendAcceptance.s
      spendAcceptance.answers (fundingSpend 5) = true := by
  decide +kernel

theorem run_spendCalls (nLockTime : UInt32) :
    (start rewoundState).run spendEnv 1 (spendCalls nLockTime) =
      ({ chain := rewoundState, pool := spendPool, joined := [] } : PoolNode).run spendEnv 1
        ((spendCalls nLockTime).drop 1) := by
  rw [spendCalls, run, step_accept accepts_fundingSpend]
  rfl

theorem noneSpent_of_cleanThroughout_five :
    ∃ n, (start rewoundState).run spendEnv 1 (spendCalls 5) = some n ∧ n.pool.NoneSpent n.joined := by
  have hclean : (start rewoundState).CleanThroughout spendEnv 1 (spendCalls 5) := by
    refine ⟨trivial, fun n' hn' => ⟨fun chain hbegin => ?_, fun _ _ => trivial⟩⟩
    rw [step_accept accepts_fundingSpend] at hn'
    cases hn'
    cases hbegin
    rw [if_neg (by decide), if_pos (by decide)]
    intro ptx tx htx tx' hmem prevout hp hspends
    obtain rfl := eq_of_spendPool htx
    exact List.mem_cons_self
  obtain ⟨n, hrun⟩ : ∃ n, (start rewoundState).run spendEnv 1 (spendCalls 5) = some n :=
    ⟨_, (run_spendCalls 5).trans rfl⟩
  refine ⟨n, hrun, noneSpent_of_cleanThroughout spendEnv 1 {fundingSpend 5} ?_ rewoundState (spendCalls 5) ?_
    hclean n hrun⟩
  · exact Set.injOn_singleton _ _
  · intro call hmem
    rw [spendCalls, List.mem_cons, List.mem_singleton] at hmem
    obtain rfl | rfl := hmem
    · rfl
    · refine ⟨fun tx htx => List.mem_singleton.mp htx, fun pindex block hread tx htx => ?_⟩
      -- The blocks on the disk are empty.
      cases pindex with
      | nil => cases hread
      | cons entry pprev =>
          rw [readBlockFromDisk] at hread
          split at hread
          · cases hread
          · rename_i hblock
            cases hblock
            split_ifs at hread
            cases hread
            cases htx

/-- A transaction of the pool spends what the block has spent. -/
theorem not_noneSpent_six :
    ∃ n, (start rewoundState).run spendEnv 1 (spendCalls 6) = some n ∧ ¬n.pool.NoneSpent n.joined := by
  refine ⟨_, (run_spendCalls 6).trans rfl, fun hnone => ?_⟩
  exact hnone 0 (fundingSpend 5) rfl (fundingSpend 6) List.mem_cons_self { hash := 7, n := 0 } (by decide) (by decide)

end PoolNode

end ProCurrency

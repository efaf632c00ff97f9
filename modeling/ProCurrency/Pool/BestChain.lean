import ProCurrency.Chain.BestChain
import ProCurrency.Pool.TxMemPool

/-!
# The best chain with the memory pool

What `CBlock::SetBestChain`, `CBlock::SetBestChainInner` and `Reorganize` (main.cpp) do to the memory pool. They touch it
after each commit only, so that the rest of them is as in `Chain/BestChain`.
-/

namespace ProCurrency

/-- The node with its memory pool. The last field records what no part of the node stores: the transactions of the
blocks that the last call has connected. -/
structure PoolNode where
  chain : ChainState
  pool : CTxMemPool
  joined : List CTransaction

/-- What an `AcceptToMemoryPool` meets. -/
structure Acceptance (G : Type) where
  node : ConnectEnv G
  s : ConnectStore
  answers : AcceptAnswers

/-- What one call of `SetBestChain` meets. -/
structure PoolOutcomes (G : Type) where
  outcomes : Outcomes
  /-- `Checkpoints::GetTotalBlocksEstimate`. -/
  nTotalBlocksEstimate : Int
  acceptance : CTransaction → Acceptance G

structure PoolNodeEnv where
  chain : ChainEnv
  pool : PoolEnv

namespace CTxMemPool

variable {G : Type} [AddCommGroup G]

/-- `AcceptToMemoryPool` for the transactions of the disconnected blocks. -/
def resurrectAll (env : PoolEnv) (acceptance : CTransaction → Acceptance G) (pool : CTxMemPool) :
    List CTransaction → CTxMemPool
  | [] => pool
  | tx :: vResurrect =>
      let a := acceptance tx
      resurrectAll env acceptance
        (pool.acceptToMemoryPool { a.node with txHash := env.txHash } a.s a.answers tx).2 vResurrect

/-- `remove` for the transactions of a block. -/
def removeAll (env : PoolEnv) (fuel : Nat) (pool : CTxMemPool) : List CTransaction → Option CTxMemPool
  | [] => some pool
  | tx :: vtx =>
      match pool.remove env fuel tx false false with
      | none => none
      | some pool => removeAll env fuel pool vtx

/-- `remove` and `removeConflicts` for the transactions of the connected blocks. -/
def deleteAll (env : PoolEnv) (fuel : Nat) (pool : CTxMemPool) : List CTransaction → Option CTxMemPool
  | [] => some pool
  | tx :: vDelete =>
      match pool.remove env fuel tx false false with
      | none => none
      | some pool =>
          match pool.removeConflicts env fuel tx with
          | none => none
          | some pool => deleteAll env fuel pool vDelete

end CTxMemPool

namespace PoolNode

variable {G : Type} (env : PoolNodeEnv) (fuel : Nat) (o : PoolOutcomes G)

/-- The transactions of a block that go back to the pool. -/
def resurrectedFrom (pindex : List CBlockIndex) : List CTransaction :=
  match readBlockFromDisk env.chain o.outcomes pindex, pindex with
  | some block, entry :: _ =>
      block.vtx.filter fun tx => !(tx.isCoinBase || tx.isCoinStake) && o.nTotalBlocksEstimate < entry.nHeight
  | _, _ => []

/-- `vResurrect`: each block goes before those that have been disconnected before it. -/
def vResurrect (vDisconnect : List (List CBlockIndex)) : List CTransaction :=
  vDisconnect.reverse.flatMap (resurrectedFrom env o)

/-- `vDelete`. -/
def vDelete (vConnect : List (List CBlockIndex)) : List CTransaction :=
  vConnect.flatMap fun pindex =>
    match readBlockFromDisk env.chain o.outcomes pindex with
    | none => []
    | some block => block.vtx

section SetBestChain

variable [AddCommGroup G]

def reorganize (n : PoolNode) (pindexNew : List CBlockIndex) : Option (Bool × PoolNode) :=
  match ProCurrency.reorganize env.chain o.outcomes n.chain pindexNew with
  | none => none
  | some (false, chain) => some (false, { n with chain })
  | some (true, chain) =>
      match findFork n.chain.mem.pindexBest pindexNew with
      | none => none
      | some pfork =>
          let txsBack := vResurrect env o (branchTo pfork n.chain.mem.pindexBest)
          let txsGone := vDelete env o (branchTo pfork pindexNew).reverse
          match (n.pool.resurrectAll env.pool o.acceptance txsBack).deleteAll env.pool fuel txsGone with
          | none => none
          | some pool => some (true, { chain, pool, joined := n.joined ++ txsGone })

def setBestChainInner (n : PoolNode) (block : CBlock) (pindexNew : List CBlockIndex) : Option (Bool × PoolNode) :=
  match ProCurrency.setBestChainInner env.chain o.outcomes n.chain block pindexNew with
  | none => none
  | some (false, chain) => some (false, { n with chain })
  | some (true, chain) =>
      match n.pool.removeAll env.pool fuel block.vtx with
      | none => none
      | some pool => some (true, { chain, pool, joined := n.joined ++ block.vtx })

/-- The loop over the postponed blocks. -/
def connectPostponed (n : PoolNode) : List (List CBlockIndex) → Option PoolNode
  | [] => some n
  | pindex :: rest =>
      match readBlockFromDisk env.chain o.outcomes pindex with
      | none => some n
      | some block =>
          match n.chain.txnBegin with
          | none => none
          | some (false, chain) => some { n with chain }
          | some (true, chain) =>
              match setBestChainInner env fuel o { n with chain } block pindex with
              | none => none
              | some (false, n) => some n
              | some (true, n) => connectPostponed n rest

/-- The end of `SetBestChain`. -/
def newBestBlock (n : PoolNode) (hash : UInt256) (pindexNew : List CBlockIndex) : Option (Bool × PoolNode) :=
  match ProCurrency.newBestBlock n.chain hash pindexNew with
  | none => none
  | some (ok, chain) => some (ok, { n with chain })

def setBestChain (n : PoolNode) (block : CBlock) (pindexNew : List CBlockIndex) : Option (Bool × PoolNode) :=
  let hash := env.chain.blockHash block
  match n.chain.txnBegin with
  | none => none
  | some (false, chain) => some (false, { n with chain, joined := [] })
  | some (true, chain) =>
      let n := { n with chain, joined := [] }
      if n.chain.mem.pindexGenesisBlock = [] ∧ hash = env.chain.hashGenesisBlock then
        match n.chain.writeHashBestChain hash with
        | none => none
        | some (_, chain) =>
            match chain.txnCommit (o.outcomes.commitFails pindexNew) with
            | none => none
            | some (false, chain) => some (false, { n with chain })
            | some (true, chain) =>
                let chain := { chain with mem := { chain.mem with pindexGenesisBlock := pindexNew } }
                newBestBlock { n with chain, joined := block.vtx } hash pindexNew
      else if block.hashPrevBlock = n.chain.mem.hashBestChain then
        match setBestChainInner env fuel o n block pindexNew with
        | none => none
        | some (false, n) => some (false, n)
        | some (true, n) => newBestBlock n hash pindexNew
      else
        match n.chain.mem.pindexBest with
        | [] => none
        | pindexBest :: _ =>
            match postpone pindexBest.nChainTrust pindexNew with
            | (vpindexSecondary, pindexIntermediate) =>
                match reorganize env fuel o n pindexIntermediate with
                | none => none
                | some (false, n) =>
                    match abandon o.outcomes n.chain pindexNew with
                    | none => none
                    | some (ok, chain) => some (ok, { n with chain })
                | some (true, n) =>
                    match connectPostponed env fuel o n vpindexSecondary.reverse with
                    | none => none
                    | some n => newBestBlock n hash pindexNew

end SetBestChain

/-! ## The chain alone -/

section Chain

variable {env fuel o} {n n' : PoolNode} {ok : Bool} {block : CBlock} {pindexNew : List CBlockIndex}
  {pindices : List (List CBlockIndex)}

theorem newBestBlock_chain {hash : UInt256} (h : n.newBestBlock hash pindexNew = some (ok, n')) :
    ProCurrency.newBestBlock n.chain hash pindexNew = some (ok, n'.chain) ∧ n'.pool = n.pool ∧
      n'.joined = n.joined := by
  rw [newBestBlock] at h
  cases hchain : ProCurrency.newBestBlock n.chain hash pindexNew with
  | none =>
      rw [hchain] at h
      cases h
  | some r =>
      rw [hchain] at h
      cases h
      exact ⟨rfl, rfl, rfl⟩

end Chain

end PoolNode

end ProCurrency

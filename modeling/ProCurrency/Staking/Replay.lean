import ProCurrency.Staking.Reward

/-!
# A template connects

The transactions that `CreateNewBlock` (miner.cpp) takes connect in their order on top of the tip, and the limits of the
block hold.
-/

namespace ProCurrency.MinerEnv

variable {G D : Type} [AddCommGroup G] (m : MinerEnv G D) (s : ConnectStore) (pindexPrev : CBlockIndex)
  (pprev : List CBlockIndex)

/-- `FetchInputs` and `ConnectInputs` of the next transaction: `mapTestPool` and the signature operations up to it. -/
def connectNext (r : MapTestPool × Nat) (tx : CTransaction) : Option (MapTestPool × Nat) :=
  match m.connect.fetchInputs s r.1 tx with
  | none => none
  | some inputs =>
      match tx.getP2SHSigOpCount inputs, m.connect.miner.connectInputs s inputs r.1 ⟨1, 1, 1⟩ pindexPrev pprev
        MANDATORY_SCRIPT_VERIFY_FLAGS tx with
      | some nP2SHSigOps, some mapTestPool =>
          some (Function.update mapTestPool (m.connect.txHash tx) (some (.new ⟨1, 1, 1⟩ tx.vout.length)),
            r.2 + (tx.getLegacySigOpCount + nP2SHSigOps))
      | _, _ => none

/-- Transactions that a block may have behind its coinbase, with what they leave and what they add up to. -/
structure Fits (nCoinbaseTime : UInt32) (vtx : List CTransaction) (mapTestPool : MapTestPool)
    (nBlockSize nBlockSigOps : Nat) : Prop where
  connects : vtx.foldlM (m.connectNext s pindexPrev pprev) (fun _ => none, 100) = some (mapTestPool, nBlockSigOps)
  sigOps : nBlockSigOps < MAX_BLOCK_SIGOPS
  total : nBlockSize = 1000 + (vtx.map CTransaction.getSerializeSize).sum
  size : vtx = [] ∨ nBlockSize < m.nBlockMaxSize
  times : ∀ tx ∈ vtx, tx.nTime ≤ nCoinbaseTime ∧ tx.nTime.toNat ≤ m.connect.nAdjustedTime

variable {m s pindexPrev pprev} {nCoinbaseTime : UInt32} {a a' : Assembly D} {entry : TxPriority D}

omit [AddCommGroup G] in
theorem fits_spec (h : m.fits nCoinbaseTime a entry = true) :
    a.nBlockSize + entry.ptx.getSerializeSize < m.nBlockMaxSize ∧ entry.ptx.nTime ≤ nCoinbaseTime ∧
      entry.ptx.nTime.toNat ≤ m.connect.nAdjustedTime := by
  rw [fits] at h
  split_ifs at h with hsize _ htime _
  obtain ⟨hadjusted, hcoinbase⟩ := not_or.1 htime
  exact ⟨Nat.not_le.1 hsize, UInt32.not_lt.1 hcoinbase, Int.not_lt.1 hadjusted⟩

theorem takeEntry_fits {mapDependers : UInt256 → List Nat}
    (ha : m.Fits s pindexPrev pprev nCoinbaseTime a.vtx a.mapTestPool a.nBlockSize a.nBlockSigOps)
    (h : m.takeEntry s pindexPrev pprev nCoinbaseTime mapDependers a entry = some a') :
    m.Fits s pindexPrev pprev nCoinbaseTime a'.vtx a'.mapTestPool a'.nBlockSize a'.nBlockSigOps := by
  rcases takeEntry_cases h with
    ⟨_, rfl⟩ | ⟨inputs, nFee, nP2SHSigOps, mapTestPool, hfits, hfetch, _, _, hops, hmax, hconn, hadd⟩
  · exact ha
  · obtain ⟨hsize, htimes⟩ := fits_spec hfits
    rw [addTx] at hadd
    simp only at hadd
    split at hadd
    · cases hadd
    · cases hadd
      refine ⟨?_, hmax, ?_, .inr hsize, fun tx htx => ?_⟩
      · rw [List.foldlM_append, ha.connects]
        simp only [List.foldlM_cons, List.foldlM_nil, Option.bind_eq_bind, Option.bind_some, connectNext, hfetch, hops,
          hconn]
        rfl
      · dsimp only
        rw [ha.total, List.map_append, List.map_singleton, List.sum_append, List.sum_singleton, Nat.add_assoc]
      · rcases List.mem_append.1 htx with htx | htx
        · exact ha.times tx htx
        · obtain rfl := List.mem_singleton.1 htx
          exact htimes

/-- Every proof-of-stake template has its coinbase, and transactions that connect one after the other on top of the tip
within the limits. -/
theorem createNewBlock_fits {mapTx : List CTransaction} {block : CBlock} {nFees : Int64}
    (h : m.createNewBlock s pindexPrev pprev mapTx = some (block, nFees)) :
    let coinbase := m.stakeCoinbase (pindexPrev.nHeight + 1)
    ∃ vtx mapTestPool nBlockSize nBlockSigOps, block.vtx = coinbase :: vtx ∧
      m.Fits s pindexPrev pprev coinbase.nTime vtx mapTestPool nBlockSize nBlockSigOps := by
  obtain ⟨scan, a, _, hfill, hvtx, _⟩ := createNewBlock_some h
  refine ⟨a.vtx, _, _, _, hvtx, fillBlock_keeps
    (fun a₁ entry vecPriority a₂ ha _ htake => takeEntry_fits (a := { a₁ with vecPriority }) ha htake) ?_ hfill⟩
  exact ⟨rfl, (by decide : 100 < MAX_BLOCK_SIGOPS), rfl, .inl rfl, fun _ htx => absurd htx List.not_mem_nil⟩

theorem createNewBlock_fits_pooledTx :
    let m := (stakingEnv 1490049000).toMinerEnv.atTime 1490050008
    ∃ block nFees, m.createNewBlock stakedStore stakedTip [] [pooledTx 1490049000] = some (block, nFees) ∧
      let coinbase := m.stakeCoinbase (stakedTip.nHeight + 1)
      ∃ vtx mapTestPool nBlockSize nBlockSigOps, block.vtx = coinbase :: vtx ∧
        m.Fits stakedStore stakedTip [] coinbase.nTime vtx mapTestPool nBlockSize nBlockSigOps := by
  intro m
  obtain ⟨⟨block, nFees⟩, hcreate⟩ := Option.isSome_iff_exists.1
    (show (m.createNewBlock stakedStore stakedTip [] [pooledTx 1490049000]).isSome = true by decide +kernel)
  exact ⟨block, nFees, hcreate, createNewBlock_fits hcreate⟩

end ProCurrency.MinerEnv

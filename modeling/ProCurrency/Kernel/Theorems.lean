import Mathlib.Data.List.Induction
import ProCurrency.Kernel.Stake

/-!
# Two nodes over the same stores

The verdict splits into what the stores decide and two tests that read `nStakeMinAge`: the minimum age, and,
before the second protocol, the weight of the kernel. Two nodes give one verdict exactly when these tests come
out alike under the values their last calls of `GetCoinAge` have left.
-/

namespace ProCurrency

open ByteCodec

/-! ## The tests -/

/-- The kernel of a coinstake: the input, the transaction it spends with its place, and that one's block. -/
structure StakeKernel where
  txin : CTxIn
  txPrev : CTransaction
  txindex : CTxIndex
  blockFrom : CBlock

namespace StakeKernel

def MinAgeMet (kernel : StakeKernel) (tx : CTransaction) (nStakeMinAge : UInt32) : Prop :=
  ¬ tx.nTime < kernel.blockFrom.nTime + nStakeMinAge

def nValue (kernel : StakeKernel) : Int :=
  (kernel.txPrev.vout.getD kernel.txin.prevout.n.toNat .null).nValue.toInt

def coinDayWeight (kernel : StakeKernel) (params : CChainParams) (nHeight : Int) (tx : CTransaction)
    (nStakeMinAge : UInt32) : Int :=
  ((kernel.nValue * getWeight params nStakeMinAge nHeight kernel.txPrev.nTime.toNat tx.nTime.toNat).tdiv
    COIN).tdiv (24 * 60 * 60)

/-- What the second protocol hashes. -/
def preimage (kernel : StakeKernel) (params : CChainParams) (pindexPrev : CBlockIndex)
    (tx : CTransaction) : List UInt8 :=
  (if params.isProtocolVFork1 pindexPrev.nHeight then writeUInt256 pindexPrev.bnStakeModifierV2
    else leBytes 8 pindexPrev.nStakeModifier.toNat ++ leBytes 4 kernel.blockFrom.nTime.toNat) ++
    leBytes 4 kernel.txPrev.nTime.toNat ++ writeUInt256 kernel.txin.prevout.hash ++
    leBytes 4 kernel.txin.prevout.n.toNat ++ leBytes 4 tx.nTime.toNat

/-- What the first protocol hashes. -/
def preimageV1 (kernel : StakeKernel) (nStakeModifier : UInt64) (tx : CTransaction) : List UInt8 :=
  leBytes 8 nStakeModifier.toNat ++ leBytes 4 kernel.blockFrom.nTime.toNat ++
    leBytes 4 (kernel.txindex.pos.nTxPos - kernel.txindex.pos.nBlockPos).toNat ++
    leBytes 4 kernel.txPrev.nTime.toNat ++ leBytes 4 kernel.txin.prevout.n.toNat ++
    leBytes 4 tx.nTime.toNat

variable (env : KernelEnv)

/-- The test of the kernel hash under the second protocol: `nStakeMinAge` is not in it. -/
def HashMetV2 (kernel : StakeKernel) (pindexPrev : CBlockIndex) (tx : CTransaction)
    (nBits : UInt32) : Prop :=
  ¬ tx.nTime < kernel.txPrev.nTime ∧
    ¬ CBigNum.setCompact nBits * kernel.nValue <
      (env.hash (kernel.preimage env.network.params pindexPrev tx)).toNat

/-- The test of the kernel hash under the first protocol: `nStakeMinAge` is taken off the weight. -/
def HashMetV1 (stores : Stores) (kernel : StakeKernel) (pindexPrev : CBlockIndex) (tx : CTransaction)
    (nBits nStakeMinAge : UInt32) : Prop :=
  ¬ tx.nTime < kernel.txPrev.nTime ∧
    ∃ nStakeModifier, getKernelStakeModifier stores (env.blockHash kernel.blockFrom) = some nStakeModifier ∧
      ¬ kernel.coinDayWeight env.network.params (pindexPrev.nHeight + 1) tx nStakeMinAge *
        CBigNum.setCompact nBits < (env.hash (kernel.preimageV1 nStakeModifier tx)).toNat

/-- All that reads `nStakeMinAge`, and the kernel hash. -/
def Met (stores : Stores) (kernel : StakeKernel) (pindexPrev : CBlockIndex) (tx : CTransaction)
    (nBits nStakeMinAge : UInt32) : Prop :=
  kernel.MinAgeMet tx nStakeMinAge ∧
    if env.network.params.isProtocolV1 (pindexPrev.nHeight + 1) then
      kernel.HashMetV1 env stores pindexPrev tx nBits nStakeMinAge
    else kernel.HashMetV2 env pindexPrev tx nBits

end StakeKernel

/-- The kernel of a coinstake that passes every check before the age and the kernel hash. -/
def KernelEnv.kernelOf (env : KernelEnv) (stores : Stores) (pindexPrev : CBlockIndex)
    (pprev : List CBlockIndex) (tx : CTransaction) : Option StakeKernel :=
  if !tx.isCoinStake then none
  else
    match tx.vin with
    | [] => none
    | txin :: _ =>
        match readFromDisk stores txin.prevout with
        | none => none
        | some (txPrev, txindex) =>
            if !env.verifySignature txPrev tx 0 then none
            else
              match stores.readBlock txindex.pos.nFile txindex.pos.nBlockPos with
              | none => none
              | some blockFrom =>
                  if env.network.params.isProtocolVFork1 pindexPrev.nHeight &&
                      (isConfirmedInNPrevBlocks txindex pindexPrev
                        (nStakeMinConfirmationsOld env.network - 1) (pindexPrev :: pprev)).isSome then
                    none
                  else some { txin, txPrev, txindex, blockFrom }

/-! ## The verdict -/

namespace KernelEnv

variable (env : KernelEnv) (stores : Stores) (nStakeMinAge : UInt32) (pindexPrev : CBlockIndex)
  (pprev : List CBlockIndex) (tx : CTransaction) (nBits : UInt32)

theorem checkStakeKernelHashV1_isSome (kernel : StakeKernel) :
    (env.checkStakeKernelHashV1 stores nStakeMinAge (pindexPrev.nHeight + 1) nBits kernel.blockFrom
      (kernel.txindex.pos.nTxPos - kernel.txindex.pos.nBlockPos) kernel.txPrev kernel.txin.prevout
      tx.nTime).isSome ↔
      kernel.MinAgeMet tx nStakeMinAge ∧ kernel.HashMetV1 env stores pindexPrev tx nBits nStakeMinAge := by
  unfold checkStakeKernelHashV1 StakeKernel.MinAgeMet StakeKernel.HashMetV1
  split_ifs with htime hage
  · simp [htime]
  · simp [hage]
  · cases hmodifier : getKernelStakeModifier stores (env.blockHash kernel.blockFrom) with
    | none => simp
    | some nStakeModifier =>
        dsimp only
        split_ifs with hhash
        · simp only [Option.isSome_none, Bool.false_eq_true, false_iff, not_and]
          rintro - - ⟨nModifier, heq, hmet⟩
          cases heq
          exact hmet hhash
        · simp only [Option.isSome_some, true_iff]
          exact ⟨hage, htime, nStakeModifier, rfl, hhash⟩

theorem checkStakeKernelHashV2_isSome (kernel : StakeKernel) :
    (env.checkStakeKernelHashV2 nStakeMinAge
      { nModifier := pindexPrev.nStakeModifier, bnModifierV2 := pindexPrev.bnStakeModifierV2,
        nHeight := pindexPrev.nHeight }
      nBits kernel.blockFrom.nTime kernel.txPrev kernel.txin.prevout tx.nTime).isSome ↔
      kernel.MinAgeMet tx nStakeMinAge ∧ kernel.HashMetV2 env pindexPrev tx nBits := by
  unfold checkStakeKernelHashV2 StakeKernel.MinAgeMet StakeKernel.HashMetV2
  rcases Decidable.em (tx.nTime < kernel.txPrev.nTime) with htime | htime
  · simp [htime]
  rcases Decidable.em (tx.nTime < kernel.blockFrom.nTime + nStakeMinAge) with hage | hage
  · simp [htime, hage]
  rw [if_neg htime, if_neg hage]
  change (if CBigNum.setCompact nBits * kernel.nValue <
    (env.hash (kernel.preimage env.network.params pindexPrev tx)).toNat then none else some _).isSome ↔ _
  rcases Decidable.em (CBigNum.setCompact nBits * kernel.nValue <
    (env.hash (kernel.preimage env.network.params pindexPrev tx)).toNat) with hhash | hhash
  · rw [if_pos hhash]
    simp [hhash]
  · rw [if_neg hhash]
    simp [hhash, htime, hage]

theorem checkStakeKernelHash_isSome (kernel : StakeKernel) :
    (env.checkStakeKernelHash stores nStakeMinAge pindexPrev.nHeight
      { nModifier := pindexPrev.nStakeModifier, bnModifierV2 := pindexPrev.bnStakeModifierV2,
        nHeight := pindexPrev.nHeight }
      nBits kernel.blockFrom (kernel.txindex.pos.nTxPos - kernel.txindex.pos.nBlockPos) kernel.txPrev
      kernel.txin.prevout tx.nTime).isSome ↔
      kernel.Met env stores pindexPrev tx nBits nStakeMinAge := by
  unfold checkStakeKernelHash StakeKernel.Met
  split_ifs with hV1
  · exact checkStakeKernelHashV1_isSome env stores nStakeMinAge pindexPrev tx nBits kernel
  · exact checkStakeKernelHashV2_isSome env nStakeMinAge pindexPrev tx nBits kernel

/-- The end of the check, once the kernel is known. -/
theorem checkKernel_isOk (fVFork1 : Bool) (kernel : StakeKernel) :
    (if !fVFork1 && tx.nTime < kernel.blockFrom.nTime + nStakeMinAge then .error 0
      else
        match env.checkStakeKernelHash stores nStakeMinAge pindexPrev.nHeight
          { nModifier := pindexPrev.nStakeModifier, bnModifierV2 := pindexPrev.bnStakeModifierV2,
            nHeight := pindexPrev.nHeight }
          nBits kernel.blockFrom (kernel.txindex.pos.nTxPos - kernel.txindex.pos.nBlockPos) kernel.txPrev
          kernel.txin.prevout tx.nTime with
        | none => .error 1
        | some proof => .ok proof : Except Nat (UInt256 × UInt256)).isOk ↔
      kernel.Met env stores pindexPrev tx nBits nStakeMinAge := by
  rw [← checkStakeKernelHash_isSome]
  split_ifs with hage
  · -- The kernel hash makes the same test again.
    have hunmet : ¬ kernel.Met env stores pindexPrev tx nBits nStakeMinAge := by
      rintro ⟨hmet, -⟩
      simp only [Bool.and_eq_true, decide_eq_true_eq] at hage
      exact hmet hage.2
    rw [checkStakeKernelHash_isSome]
    exact iff_of_false (by simp [Except.isOk, Except.toBool]) hunmet
  · cases env.checkStakeKernelHash stores nStakeMinAge pindexPrev.nHeight _ nBits kernel.blockFrom
      (kernel.txindex.pos.nTxPos - kernel.txindex.pos.nBlockPos) kernel.txPrev kernel.txin.prevout
      tx.nTime with
    | none => simp [Except.isOk, Except.toBool]
    | some proof => simp [Except.isOk, Except.toBool]

theorem checkProofOfStake_isOk :
    (env.checkProofOfStake stores nStakeMinAge pindexPrev pprev tx nBits).isOk ↔
      ∃ kernel, env.kernelOf stores pindexPrev pprev tx = some kernel ∧
        kernel.Met env stores pindexPrev tx nBits nStakeMinAge := by
  unfold checkProofOfStake kernelOf
  split_ifs with hstake
  · simp [Except.isOk, Except.toBool]
  cases tx.vin with
  | nil => simp [Except.isOk, Except.toBool]
  | cons txin vin =>
      dsimp only
      cases readFromDisk stores txin.prevout with
      | none => simp [Except.isOk, Except.toBool]
      | some read =>
          obtain ⟨txPrev, txindex⟩ := read
          dsimp only
          rcases Decidable.em (!env.verifySignature txPrev tx 0) with hsig | hsig
          · rw [if_pos hsig, if_pos hsig]
            simp [Except.isOk, Except.toBool]
          rw [if_neg hsig, if_neg hsig]
          cases stores.readBlock txindex.pos.nFile txindex.pos.nBlockPos with
          | none => simp [Except.isOk, Except.toBool]
          | some blockFrom =>
              dsimp only
              rcases Decidable.em (env.network.params.isProtocolVFork1 pindexPrev.nHeight &&
                (isConfirmedInNPrevBlocks txindex pindexPrev (nStakeMinConfirmationsOld env.network - 1)
                  (pindexPrev :: pprev)).isSome) with hdepth | hdepth
              · rw [if_pos hdepth, if_pos hdepth]
                simp [Except.isOk, Except.toBool]
              · rw [if_neg hdepth, if_neg hdepth]
                have hkernel := checkKernel_isOk env stores nStakeMinAge pindexPrev tx nBits
                  (env.network.params.isProtocolVFork1 pindexPrev.nHeight)
                  { txin, txPrev, txindex, blockFrom }
                exact hkernel.trans (by simp)

end KernelEnv

/-! ## The global over a run -/

namespace Node

variable (env : KernelEnv)

/-- The value that a call writes. -/
def written : Call → Option UInt32
  | .restart => some (initialStakeMinAge env.network)
  | .getCoinAge pindexPrev => some (getCoinAge pindexPrev).1
  | _ => none

/-- The value that the last call to write one has left. -/
def lastStakeMinAge (calls : List Call) : UInt32 :=
  (calls.reverse.findSome? (written env)).getD (initialStakeMinAge env.network)

theorem run_concat (node : Node) (calls : List Call) (call : Call) :
    run env node (calls ++ [call]) = step env (run env node calls) call := by
  rw [run, List.foldl_append, ← run]
  rfl

theorem lastStakeMinAge_concat (calls : List Call) (call : Call) :
    lastStakeMinAge env (calls ++ [call]) = (written env call).getD (lastStakeMinAge env calls) := by
  rw [lastStakeMinAge, List.reverse_append, List.reverse_singleton, List.singleton_append,
    List.findSome?_cons]
  cases written env call with
  | none => rfl
  | some nStakeMinAge => rfl

theorem run_nStakeMinAge (stores : Stores) (calls : List Call) :
    (run env (start env stores) calls).nStakeMinAge = lastStakeMinAge env calls := by
  induction calls using List.reverseRecOn with
  | nil => rfl
  | append_singleton calls call ih =>
      rw [run_concat, lastStakeMinAge_concat]
      cases call with
      | restart => rfl
      | getCoinAge pindexPrev => rfl
      | checkProofOfStake pindexPrev pprev tx nBits => exact ih
      | store stores' => exact ih

theorem lastStakeMinAge_mem (calls : List Call) :
    lastStakeMinAge env calls ∈ [initialStakeMinAge env.network, 6 * 60 * 60, 2 * 60 * 60] := by
  unfold lastStakeMinAge
  cases hfind : calls.reverse.findSome? (written env) with
  | none => simp
  | some nStakeMinAge =>
      obtain ⟨call, -, hwritten⟩ := List.exists_of_findSome?_eq_some hfind
      cases call with
      | restart =>
          cases hwritten
          simp
      | getCoinAge pindexPrev =>
          cases hwritten
          unfold ProCurrency.getCoinAge
          split_ifs
          · simp
          · simp
      | checkProofOfStake pindexPrev pprev tx nBits => cases hwritten
      | store stores => cases hwritten

theorem lastStakeMinAge_le (calls : List Call) : (lastStakeMinAge env calls).toNat ≤ 6 * 60 * 60 := by
  have hmem := lastStakeMinAge_mem env calls
  simp only [List.mem_cons, List.not_mem_nil, or_false] at hmem
  rcases hmem with hage | hage | hage
  · rw [hage]
    cases env.network with
    | main => decide
    | testnet => decide
    | regtest => decide
  · rw [hage]
    decide
  · rw [hage]
    decide

theorem minAgeMet_of_sixHours {kernel : StakeKernel} {tx : CTransaction} (calls : List Call)
    (hold : kernel.blockFrom.nTime.toNat + 6 * 60 * 60 ≤ tx.nTime.toNat) :
    kernel.MinAgeMet tx (lastStakeMinAge env calls) := by
  have hage := lastStakeMinAge_le env calls
  have htime := tx.nTime.toNat_lt
  unfold StakeKernel.MinAgeMet
  rw [UInt32.lt_iff_toNat_lt, UInt32.toNat_add, Nat.mod_eq_of_lt (by omega)]
  omega

end Node

/-! ## Two runs -/

/-- The condition under which a coinstake gets one verdict under two values of `nStakeMinAge`. -/
def AgesAgree (env : KernelEnv) (stores : Stores) (pindexPrev : CBlockIndex) (pprev : List CBlockIndex)
    (tx : CTransaction) (nBits age₁ age₂ : UInt32) : Prop :=
  age₁ = age₂ ∨ ∀ kernel, env.kernelOf stores pindexPrev pprev tx = some kernel →
    if env.network.params.isProtocolV1 (pindexPrev.nHeight + 1) then
      (kernel.MinAgeMet tx age₁ ∧ kernel.HashMetV1 env stores pindexPrev tx nBits age₁ ↔
        kernel.MinAgeMet tx age₂ ∧ kernel.HashMetV1 env stores pindexPrev tx nBits age₂)
    else
      kernel.HashMetV2 env pindexPrev tx nBits → (kernel.MinAgeMet tx age₁ ↔ kernel.MinAgeMet tx age₂)

theorem isOk_eq_iff (env : KernelEnv) (stores : Stores) (pindexPrev : CBlockIndex)
    (pprev : List CBlockIndex) (tx : CTransaction) (nBits age₁ age₂ : UInt32) :
    (env.checkProofOfStake stores age₁ pindexPrev pprev tx nBits).isOk =
      (env.checkProofOfStake stores age₂ pindexPrev pprev tx nBits).isOk ↔
      AgesAgree env stores pindexPrev pprev tx nBits age₁ age₂ := by
  rw [Bool.eq_iff_iff, KernelEnv.checkProofOfStake_isOk, KernelEnv.checkProofOfStake_isOk, AgesAgree]
  rcases Decidable.em (age₁ = age₂) with hages | hages
  · subst hages
    simp
  cases hkernel : env.kernelOf stores pindexPrev pprev tx with
  | none => simp
  | some kernel =>
      simp only [Option.some.injEq, exists_eq_left', forall_eq', hages, false_or, StakeKernel.Met]
      split_ifs with hV1
      · exact Iff.rfl
      · tauto

/-- Two nodes that hold the same stores, each after any run, judge a coinstake alike exactly when the values
left by their last calls of `GetCoinAge` agree on it. -/
theorem Node.accepts_eq_iff (env : KernelEnv) (stores₁ stores₂ : Stores) (calls₁ calls₂ : List Call)
    (hstores : (run env (start env stores₁) calls₁).stores = (run env (start env stores₂) calls₂).stores)
    (pindexPrev : CBlockIndex) (pprev : List CBlockIndex) (tx : CTransaction) (nBits : UInt32) :
    (run env (start env stores₁) calls₁).accepts env pindexPrev pprev tx nBits =
      (run env (start env stores₂) calls₂).accepts env pindexPrev pprev tx nBits ↔
      AgesAgree env (run env (start env stores₁) calls₁).stores pindexPrev pprev tx nBits
        (lastStakeMinAge env calls₁) (lastStakeMinAge env calls₂) := by
  rw [accepts, accepts, hstores, run_nStakeMinAge, run_nStakeMinAge]
  exact isOk_eq_iff env _ pindexPrev pprev tx nBits _ _

/-- From the second protocol on, coins whose block is six hours old are judged alike by all nodes. -/
theorem Node.accepts_eq_of_sixHours (env : KernelEnv) (stores₁ stores₂ : Stores)
    (calls₁ calls₂ : List Call)
    (hstores : (run env (start env stores₁) calls₁).stores = (run env (start env stores₂) calls₂).stores)
    (pindexPrev : CBlockIndex) (pprev : List CBlockIndex) (tx : CTransaction) (nBits : UInt32)
    (hV1 : env.network.params.isProtocolV1 (pindexPrev.nHeight + 1) = false)
    (hold : ∀ kernel,
      env.kernelOf (run env (start env stores₁) calls₁).stores pindexPrev pprev tx = some kernel →
      kernel.blockFrom.nTime.toNat + 6 * 60 * 60 ≤ tx.nTime.toNat) :
    (run env (start env stores₁) calls₁).accepts env pindexPrev pprev tx nBits =
      (run env (start env stores₂) calls₂).accepts env pindexPrev pprev tx nBits := by
  rw [accepts, accepts, ← hstores, run_nStakeMinAge, run_nStakeMinAge, isOk_eq_iff]
  right
  intro kernel hkernel
  rw [hV1]
  intro _
  have hmet : ∀ calls, kernel.MinAgeMet tx (lastStakeMinAge env calls) := fun calls =>
    minAgeMet_of_sixHours env calls (hold kernel hkernel)
  exact iff_of_true (hmet calls₁) (hmet calls₂)

/-! ## A node and its restart -/

/-- A network on which every script that pushes true holds; hashes are cut to their first bytes. -/
def cutEnv : KernelEnv where
  network := .main
  hash bytes := BitVec.ofNat 256 (ofLeBytes bytes)
  txHash tx := BitVec.ofNat 256 tx.nTime.toNat
  blockHash block := BitVec.ofNat 256 block.nTime.toNat
  verifyScript _ scriptPubKey _ _ := scriptPubKey = [0x51]

def coinTx : CTransaction where
  nVersion := 1
  nTime := 1490000000
  vin := [{ prevout := .null, scriptSig := [], nSequence := -1 }]
  vout := [{ nValue := 1000000000000000, scriptPubKey := [0x51] }]
  nLockTime := 0

/-- It spends the coin an hour after the block of the coin. -/
def hourOldStake : CTransaction where
  nVersion := 1
  nTime := 1490003600
  vin := [{ prevout := { hash := 1490000000, n := 0 }, scriptSig := [], nSequence := -1 }]
  vout := [{ nValue := 0, scriptPubKey := [] }, { nValue := 1000000000000000, scriptPubKey := [0x51] }]
  nLockTime := 0

def coinBlock : CBlock where
  nVersion := 7
  hashPrevBlock := 0
  hashMerkleRoot := 0
  nTime := 1490000000
  nBits := 0x1e0fffff
  nNonce := 0
  vtx := [coinTx]

def coinStores : Stores where
  mapBlockIndex _ := none
  readTxIndex hash :=
    if hash = 1490000000 then
      some { pos := { nFile := 1, nBlockPos := 1000, nTxPos := 1081 }, vSpent := [] }
    else none
  readTx _ := some coinTx
  readBlock _ _ := some coinBlock

def emptyStores : Stores where
  mapBlockIndex _ := none
  readTxIndex _ := none
  readTx _ := none
  readBlock _ _ := none

/-- A full node gets the chain and connects the proof-of-stake block at height 1000. -/
def connectingRun : List Call := [.store coinStores, .getCoinAge { nHeight := 999 }]

def restartedRun : List Call := connectingRun ++ [.restart]

theorem restarted_accepts :
    (Node.run cutEnv (Node.start cutEnv emptyStores) connectingRun).stores =
        (Node.run cutEnv (Node.start cutEnv emptyStores) restartedRun).stores ∧
      (Node.run cutEnv (Node.start cutEnv emptyStores) connectingRun).accepts cutEnv
        { nHeight := 1000 } [] hourOldStake 0x1e0fffff = false ∧
      (Node.run cutEnv (Node.start cutEnv emptyStores) restartedRun).accepts cutEnv
        { nHeight := 1000 } [] hourOldStake 0x1e0fffff = true :=
  ⟨rfl, by decide +kernel, by decide +kernel⟩

theorem accepts_eq_iff_restarted :
    (Node.run cutEnv (Node.start cutEnv emptyStores) connectingRun).accepts cutEnv
        { nHeight := 1000 } [] hourOldStake 0x1e0fffff =
      (Node.run cutEnv (Node.start cutEnv emptyStores) restartedRun).accepts cutEnv
        { nHeight := 1000 } [] hourOldStake 0x1e0fffff ↔
      AgesAgree cutEnv coinStores { nHeight := 1000 } [] hourOldStake 0x1e0fffff
        (Node.lastStakeMinAge cutEnv connectingRun) (Node.lastStakeMinAge cutEnv restartedRun) :=
  Node.accepts_eq_iff cutEnv emptyStores emptyStores connectingRun restartedRun rfl
    { nHeight := 1000 } [] hourOldStake 0x1e0fffff

end ProCurrency

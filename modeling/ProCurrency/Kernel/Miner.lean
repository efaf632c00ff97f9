import ProCurrency.Kernel.Theorems

/-!
# The kernel search of a miner

`CheckKernel` (kernel.cpp), against `CheckProofOfStake`. Where the validator asks for the fork by the height of the best
block, the miner does so by the time that it tries, and it tests the age of the coin before the kernel does.
-/

namespace ProCurrency

/-- A 64-bit number where an `int` is expected. -/
def toInt32 (n : Int) : Int := n.bmod (2 ^ 32)

/-- `CheckKernel`; what it returns is the time of the block, which goes to `pBlockTime`. -/
def KernelEnv.checkKernel (env : KernelEnv) (stores : Stores) (nStakeMinAge : UInt32) (pindexPrev : CBlockIndex)
    (pprev : List CBlockIndex) (nBits : UInt32) (nTime : Int) (prevout : COutPoint) : Option Int :=
  match readFromDisk stores prevout with
  | none => none
  | some (txPrev, txindex) =>
      match stores.readBlock txindex.pos.nFile txindex.pos.nBlockPos with
      | none => none
      | some block =>
          let fVFork1 := env.network.params.isProtocolVFork1 (toInt32 nTime)
          if fVFork1 && (isConfirmedInNPrevBlocks txindex pindexPrev (nStakeMinConfirmationsOld env.network - 1)
              (pindexPrev :: pprev)).isSome then
            none
          else if !fVFork1 && nTime < (block.nTime.toNat : Int) + nStakeMinAge.toNat then none
          else
            let stakeMod : CStakeModifier :=
              { nModifier := pindexPrev.nStakeModifier
                bnModifierV2 := pindexPrev.bnStakeModifierV2
                nHeight := pindexPrev.nHeight }
            match env.checkStakeKernelHash stores nStakeMinAge pindexPrev.nHeight stakeMod nBits block
                (txindex.pos.nTxPos - txindex.pos.nBlockPos) txPrev prevout (UInt32.ofInt nTime) with
            | none => none
            | some _ => some block.nTime.toNat

/-! ## The rules for the coin -/

namespace StakeKernel

variable (env : KernelEnv) (pindexPrev : CBlockIndex) (pprev : List CBlockIndex)

/-- The block of the coin is deep enough. -/
def Deep (kernel : StakeKernel) : Prop :=
  isConfirmedInNPrevBlocks kernel.txindex pindexPrev (nStakeMinConfirmationsOld env.network - 1)
    (pindexPrev :: pprev) = none

/-- What the validator asks of the coin before the kernel hash; the minimum age is in the kernel too. -/
def DeepByHeight (kernel : StakeKernel) : Prop :=
  env.network.params.isProtocolVFork1 pindexPrev.nHeight → kernel.Deep env pindexPrev pprev

/-- What the miner asks of it: below the fork the age in 64 bits. -/
def RipeByTime (kernel : StakeKernel) (tx : CTransaction) (nStakeMinAge : UInt32) : Prop :=
  if env.network.params.isProtocolVFork1 (toInt32 tx.nTime.toNat) then kernel.Deep env pindexPrev pprev
  else kernel.blockFrom.nTime.toNat + nStakeMinAge.toNat ≤ tx.nTime.toNat

end StakeKernel

/-- The kernel that an input stands for. -/
def readKernel (stores : Stores) (txin : CTxIn) : Option StakeKernel :=
  match readFromDisk stores txin.prevout with
  | none => none
  | some (txPrev, txindex) =>
      (stores.readBlock txindex.pos.nFile txindex.pos.nBlockPos).map fun blockFrom =>
        { txin, txPrev, txindex, blockFrom }

/-- The condition under which the miner and the validator agree on a coinstake. -/
def RulesAgree (env : KernelEnv) (stores : Stores) (nStakeMinAge : UInt32) (pindexPrev : CBlockIndex)
    (pprev : List CBlockIndex) (tx : CTransaction) (txin : CTxIn) (nBits : UInt32) : Prop :=
  ∀ kernel, readKernel stores txin = some kernel → kernel.Met env stores pindexPrev tx nBits nStakeMinAge →
    (kernel.RipeByTime env pindexPrev pprev tx nStakeMinAge ↔ kernel.DeepByHeight env pindexPrev pprev)

section

variable {env : KernelEnv} {stores : Stores} {nStakeMinAge : UInt32} {pindexPrev : CBlockIndex}
  {pprev : List CBlockIndex} {tx : CTransaction} {txin : CTxIn} {vin : List CTxIn} {nBits : UInt32}

/-! ## The two checks -/

theorem ofInt_toNat (n : UInt32) : UInt32.ofInt (n.toNat : Int) = n := by
  have hlt : (n.toNat : Int) < 2 ^ 32 := by exact_mod_cast n.toNat_lt
  rw [UInt32.ofInt, Int.emod_eq_of_lt (Int.natCast_nonneg _) hlt, Int.toNat_natCast, UInt32.ofNat_toNat]

theorem checkKernel_isSome :
    (env.checkKernel stores nStakeMinAge pindexPrev pprev nBits tx.nTime.toNat txin.prevout).isSome ↔
      ∃ kernel, readKernel stores txin = some kernel ∧ kernel.RipeByTime env pindexPrev pprev tx nStakeMinAge ∧
        kernel.Met env stores pindexPrev tx nBits nStakeMinAge := by
  rw [KernelEnv.checkKernel, readKernel]
  cases readFromDisk stores txin.prevout with
  | none => simp
  | some read =>
      obtain ⟨txPrev, txindex⟩ := read
      dsimp only
      cases stores.readBlock txindex.pos.nFile txindex.pos.nBlockPos with
      | none => simp
      | some blockFrom =>
          have hkernel := KernelEnv.checkStakeKernelHash_isSome env stores nStakeMinAge pindexPrev tx nBits
            { txin, txPrev, txindex, blockFrom }
          simp only [Option.map_some, Option.some.injEq, exists_eq_left', ofInt_toNat, ← hkernel, StakeKernel.RipeByTime,
            StakeKernel.Deep]
          rcases env.checkStakeKernelHash stores nStakeMinAge pindexPrev.nHeight _ nBits blockFrom
            (txindex.pos.nTxPos - txindex.pos.nBlockPos) txPrev txin.prevout tx.nTime with _ | proof
          · split_ifs <;> simp
          · cases env.network.params.isProtocolVFork1 (toInt32 tx.nTime.toNat) with
            | true =>
                cases isConfirmedInNPrevBlocks txindex pindexPrev (nStakeMinConfirmationsOld env.network - 1)
                  (pindexPrev :: pprev) with
                | none => simp
                | some nDepth => simp
            | false =>
                by_cases hage : blockFrom.nTime.toNat + nStakeMinAge.toNat ≤ tx.nTime.toNat
                · have hlate : ¬ (tx.nTime.toNat : Int) < (blockFrom.nTime.toNat : Int) + nStakeMinAge.toNat := by omega
                  simp [hage, hlate]
                · have hearly : (tx.nTime.toNat : Int) < (blockFrom.nTime.toNat : Int) + nStakeMinAge.toNat := by omega
                  simp [hage, hearly]

/-- The verdict on a coinstake whose signature holds. -/
theorem checkProofOfStake_isOk_of_signed (hstake : tx.isCoinStake = true) (hvin : tx.vin = txin :: vin)
    (hsig : ∀ txPrev txindex, readFromDisk stores txin.prevout = some (txPrev, txindex) →
      env.verifySignature txPrev tx 0 = true) :
    (env.checkProofOfStake stores nStakeMinAge pindexPrev pprev tx nBits).isOk ↔
      ∃ kernel, readKernel stores txin = some kernel ∧ kernel.DeepByHeight env pindexPrev pprev ∧
        kernel.Met env stores pindexPrev tx nBits nStakeMinAge := by
  rw [KernelEnv.checkProofOfStake_isOk, KernelEnv.kernelOf, if_neg (by simp [hstake]), hvin, readKernel]
  dsimp only
  cases hread : readFromDisk stores txin.prevout with
  | none => simp
  | some read =>
      obtain ⟨txPrev, txindex⟩ := read
      simp only [hsig txPrev txindex hread, Bool.not_true, Bool.false_eq_true, if_false]
      cases stores.readBlock txindex.pos.nFile txindex.pos.nBlockPos with
      | none => simp
      | some blockFrom =>
          simp only [Option.map_some, Option.some.injEq, exists_eq_left', StakeKernel.DeepByHeight, StakeKernel.Deep]
          cases env.network.params.isProtocolVFork1 pindexPrev.nHeight with
          | true =>
              cases isConfirmedInNPrevBlocks txindex pindexPrev (nStakeMinConfirmationsOld env.network - 1)
                (pindexPrev :: pprev) with
              | none => simp
              | some nDepth => simp
          | false => simp

/-! ## Agreement -/

/-- The miner finds a kernel in the coin exactly when the validator accepts the coinstake, apart from the signature,
under this condition and no other. -/
theorem checkKernel_iff_checkProofOfStake (env : KernelEnv) (stores : Stores) (nStakeMinAge : UInt32)
    (pindexPrev : CBlockIndex) (pprev : List CBlockIndex) (tx : CTransaction) (txin : CTxIn) (vin : List CTxIn)
    (nBits : UInt32) (hstake : tx.isCoinStake = true) (hvin : tx.vin = txin :: vin)
    (hsig : ∀ txPrev txindex, readFromDisk stores txin.prevout = some (txPrev, txindex) →
      env.verifySignature txPrev tx 0 = true) :
    ((env.checkKernel stores nStakeMinAge pindexPrev pprev nBits tx.nTime.toNat txin.prevout).isSome ↔
        (env.checkProofOfStake stores nStakeMinAge pindexPrev pprev tx nBits).isOk) ↔
      RulesAgree env stores nStakeMinAge pindexPrev pprev tx txin nBits := by
  rw [checkKernel_isSome, checkProofOfStake_isOk_of_signed hstake hvin hsig, RulesAgree]
  cases readKernel stores txin with
  | none => simp
  | some kernel =>
      simp only [Option.some.injEq, exists_eq_left', forall_eq']
      exact and_congr_left_iff

end

/-! ## A young coin below the fork -/

/-- The block of the coin is the best one, and it is older than six hours. -/
def sixHourStake : CTransaction := { hourOldStake with nTime := 1490021600 }

def coinTip : CBlockIndex := { nFile := 1, nBlockPos := 1000, nHeight := 1000 }

theorem verifySignature_sixHourStake (txPrev : CTransaction) (txindex : CTxIndex)
    (hread : readFromDisk coinStores { hash := 1490000000, n := 0 } = some (txPrev, txindex)) :
    cutEnv.verifySignature txPrev sixHourStake 0 = true := by
  have hsome : (readFromDisk coinStores { hash := 1490000000, n := 0 }).map
      (fun read => cutEnv.verifySignature read.1 sixHourStake 0) = some true := by
    decide +kernel
  rw [hread] at hsome
  exact Option.some.inj hsome

theorem checkKernel_iff_sixHourStake :
    ((cutEnv.checkKernel coinStores 21600 coinTip [] 0x1e0fffff sixHourStake.nTime.toNat
          { hash := 1490000000, n := 0 }).isSome ↔
        (cutEnv.checkProofOfStake coinStores 21600 coinTip [] sixHourStake 0x1e0fffff).isOk) ↔
      RulesAgree cutEnv coinStores 21600 coinTip [] sixHourStake
        { prevout := { hash := 1490000000, n := 0 }, scriptSig := [], nSequence := -1 } 0x1e0fffff :=
  checkKernel_iff_checkProofOfStake cutEnv coinStores 21600 coinTip [] sixHourStake
    { prevout := { hash := 1490000000, n := 0 }, scriptSig := [], nSequence := -1 } [] 0x1e0fffff (by decide +kernel)
    rfl verifySignature_sixHourStake

/-- The miner leaves a coin alone that the validator takes. -/
theorem checkKernel_ne_sixHourStake :
    cutEnv.checkKernel coinStores 21600 coinTip [] 0x1e0fffff sixHourStake.nTime.toNat
        { hash := 1490000000, n := 0 } = none ∧
      (cutEnv.checkProofOfStake coinStores 21600 coinTip [] sixHourStake 0x1e0fffff).isOk = true :=
  ⟨by decide +kernel, by decide +kernel⟩

end ProCurrency

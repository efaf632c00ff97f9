import ProCurrency.Base.Transaction
import ProCurrency.Base.Params

/-!
# The proof-of-stake check of a full node

`CheckProofOfStake` and what it calls (kernel.cpp). The global `nStakeMinAge` is an argument; the node that
owns it is in `Kernel/Node`. A check that fails adds its score to the `nDoS` of the transaction: the score is
the error. A check that succeeds returns `hashProofOfStake` and `targetProofOfStake`.
-/

namespace ProCurrency

open ByteCodec

def nModifierInterval : Nat := 30 * 60

def MODIFIER_INTERVAL_RATIO : Nat := 3

/-- `-1` as an unsigned number. -/
def nStakeMaxAge : UInt32 := -1

/-- What init.cpp makes of the initial value 60. -/
def nStakeMinConfirmationsOld : Network → Int
  | .testnet => 10
  | _ => 60

/-- `getuint256`: the low bytes of the absolute value. -/
def CBigNum.getUInt256 (bn : CBigNum) : UInt256 := BitVec.ofNat 256 bn.natAbs

/-- What the node's stores hold: the block index, each entry with the ones that follow it through `pnext`; the
transaction index; and the block files, read at a position. -/
structure Stores where
  mapBlockIndex : UInt256 → Option (CBlockIndex × List CBlockIndex)
  readTxIndex : UInt256 → Option CTxIndex
  readTx : CDiskTxPos → Option CTransaction
  readBlock : UInt32 → UInt32 → Option CBlock

/-- The node's network, and the functions of hash.h and script.cpp. -/
structure KernelEnv where
  network : Network
  hash : List UInt8 → UInt256
  txHash : CTransaction → UInt256
  blockHash : CBlock → UInt256
  verifyScript : CScript → CScript → CTransaction → Nat → Bool

/-! ## Reading the kernel -/

/-- `CTransaction::ReadFromDisk`. -/
def readFromDisk (stores : Stores) (prevout : COutPoint) : Option (CTransaction × CTxIndex) :=
  match stores.readTxIndex prevout.hash with
  | none => none
  | some txindex =>
      match stores.readTx txindex.pos with
      | none => none
      | some tx => if tx.vout.length ≤ prevout.n.toNat then none else some (tx, txindex)

namespace KernelEnv

def verifySignature (env : KernelEnv) (txFrom txTo : CTransaction) (nIn : Nat) : Bool :=
  match txTo.vin[nIn]? with
  | none => false
  | some txin =>
      match txFrom.vout[txin.prevout.n.toNat]? with
      | none => false
      | some txout =>
          txin.prevout.hash = env.txHash txFrom &&
            env.verifyScript txin.scriptSig txout.scriptPubKey txTo nIn

end KernelEnv

/-! ## Stake modifiers -/

def getStakeModifierSelectionIntervalSection (nSection : Nat) : Nat :=
  nModifierInterval * 63 / (63 + (63 - nSection) * ( MODIFIER_INTERVAL_RATIO - 1))

def getStakeModifierSelectionInterval : Nat :=
  ((List.range 64).map getStakeModifierSelectionIntervalSection).sum

/-- The loop of `GetKernelStakeModifier`, from the entry `pindex` with the ones that follow it. -/
def walkToModifier (nTimeEnd : Int) (pindex : CBlockIndex) (nStakeModifierTime : Int) :
    List CBlockIndex → Option UInt64
  | [] =>
      -- The best block: the minimum age and the clock only decide whether the failure is logged.
      if nStakeModifierTime < nTimeEnd then none else some pindex.nStakeModifier
  | pnext :: pnexts =>
      if nStakeModifierTime < nTimeEnd then
        walkToModifier nTimeEnd pnext
          (if pnext.generatedStakeModifier then pnext.getBlockTime else nStakeModifierTime) pnexts
      else some pindex.nStakeModifier

def getKernelStakeModifier (stores : Stores) (hashBlockFrom : UInt256) : Option UInt64 :=
  match stores.mapBlockIndex hashBlockFrom with
  | none => none
  | some (pindexFrom, pnexts) =>
      walkToModifier (pindexFrom.getBlockTime + getStakeModifierSelectionInterval) pindexFrom
        pindexFrom.getBlockTime pnexts

/-! ## The kernel hash -/

def getWeight (params : CChainParams) (nStakeMinAge : UInt32)
    (nHeight nIntervalBeginning nIntervalEnd : Int) : Int :=
  if params.isProtocolV1 nHeight then
    min (nIntervalEnd - nIntervalBeginning - nStakeMinAge.toNat) nStakeMaxAge.toNat
  else nIntervalEnd - nIntervalBeginning - nStakeMinAge.toNat

structure CStakeModifier where
  nModifier : UInt64
  bnModifierV2 : UInt256
  nHeight : Int

namespace KernelEnv

def checkStakeKernelHashV1 (env : KernelEnv) (stores : Stores) (nStakeMinAge : UInt32) (nHeight : Int)
    (nBits : UInt32) (blockFrom : CBlock) (nTxPrevOffset : UInt32) (txPrev : CTransaction)
    (prevout : COutPoint) (nTimeTx : UInt32) : Option (UInt256 × UInt256) :=
  if nTimeTx < txPrev.nTime then none
  else if nTimeTx < blockFrom.nTime + nStakeMinAge then none
  else
    let bnTargetPerCoinDay := CBigNum.setCompact nBits
    let nValue := (txPrev.vout.getD prevout.n.toNat .null).nValue.toInt
    let bnCoinDayWeight :=
      ((nValue * getWeight env.network.params nStakeMinAge nHeight txPrev.nTime.toNat nTimeTx.toNat).tdiv
        COIN).tdiv (24 * 60 * 60)
    match getKernelStakeModifier stores (env.blockHash blockFrom) with
    | none => none
    | some nStakeModifier =>
        let hashProofOfStake := env.hash (leBytes 8 nStakeModifier.toNat ++
          leBytes 4 blockFrom.nTime.toNat ++ leBytes 4 nTxPrevOffset.toNat ++
          leBytes 4 txPrev.nTime.toNat ++ leBytes 4 prevout.n.toNat ++ leBytes 4 nTimeTx.toNat)
        if bnCoinDayWeight * bnTargetPerCoinDay < hashProofOfStake.toNat then none
        else some (hashProofOfStake, CBigNum.getUInt256 (bnCoinDayWeight * bnTargetPerCoinDay))

def checkStakeKernelHashV2 (env : KernelEnv) (nStakeMinAge : UInt32) (stakeMod : CStakeModifier)
    (nBits nTimeBlockFrom : UInt32) (txPrev : CTransaction) (prevout : COutPoint) (nTimeTx : UInt32) :
    Option (UInt256 × UInt256) :=
  if nTimeTx < txPrev.nTime then none
  else if nTimeTx < nTimeBlockFrom + nStakeMinAge then none
  else
    let bnWeight := (txPrev.vout.getD prevout.n.toNat .null).nValue.toInt
    let bnTarget := CBigNum.setCompact nBits * bnWeight
    let modifier :=
      if env.network.params.isProtocolVFork1 stakeMod.nHeight then writeUInt256 stakeMod.bnModifierV2
      else leBytes 8 stakeMod.nModifier.toNat ++ leBytes 4 nTimeBlockFrom.toNat
    let hashProofOfStake := env.hash (modifier ++ leBytes 4 txPrev.nTime.toNat ++
      writeUInt256 prevout.hash ++ leBytes 4 prevout.n.toNat ++ leBytes 4 nTimeTx.toNat)
    if bnTarget < hashProofOfStake.toNat then none
    else some (hashProofOfStake, CBigNum.getUInt256 bnTarget)

def checkStakeKernelHash (env : KernelEnv) (stores : Stores) (nStakeMinAge : UInt32) (nPrevHeight : Int)
    (stakeMod : CStakeModifier) (nBits : UInt32) (blockFrom : CBlock) (nTxPrevOffset : UInt32)
    (txPrev : CTransaction) (prevout : COutPoint) (nTimeTx : UInt32) : Option (UInt256 × UInt256) :=
  if env.network.params.isProtocolV1 (nPrevHeight + 1) then
    env.checkStakeKernelHashV1 stores nStakeMinAge (nPrevHeight + 1) nBits blockFrom nTxPrevOffset txPrev
      prevout nTimeTx
  else
    env.checkStakeKernelHashV2 nStakeMinAge stakeMod nBits blockFrom.nTime txPrev prevout nTimeTx

/-! ## The check -/

/-- `CheckProofOfStake`, with `pindexPrev` and the entries before it. -/
def checkProofOfStake (env : KernelEnv) (stores : Stores) (nStakeMinAge : UInt32) (pindexPrev : CBlockIndex)
    (pprev : List CBlockIndex) (tx : CTransaction) (nBits : UInt32) : Except Nat (UInt256 × UInt256) :=
  if !tx.isCoinStake then .error 0
  else
    match tx.vin with
    | [] => .error 0
    | txin :: _ =>
        match readFromDisk stores txin.prevout with
        | none => .error 1
        | some (txPrev, txindex) =>
            if !env.verifySignature txPrev tx 0 then .error 100
            else
              match stores.readBlock txindex.pos.nFile txindex.pos.nBlockPos with
              | none => .error 0
              | some block =>
                  let fVFork1 := env.network.params.isProtocolVFork1 pindexPrev.nHeight
                  if fVFork1 && (isConfirmedInNPrevBlocks txindex pindexPrev
                      (nStakeMinConfirmationsOld env.network - 1) (pindexPrev :: pprev)).isSome then
                    .error 100
                  else if !fVFork1 && tx.nTime < block.nTime + nStakeMinAge then .error 0
                  else
                    let stakeMod : CStakeModifier :=
                      { nModifier := pindexPrev.nStakeModifier
                        bnModifierV2 := pindexPrev.bnStakeModifierV2
                        nHeight := pindexPrev.nHeight }
                    match env.checkStakeKernelHash stores nStakeMinAge pindexPrev.nHeight stakeMod nBits block
                        (txindex.pos.nTxPos - txindex.pos.nBlockPos) txPrev txin.prevout tx.nTime with
                    | none => .error 1
                    | some proof => .ok proof

end KernelEnv

end ProCurrency

/-!
## The minimum stake age of a running node

`nStakeMinAge` is a global of main.cpp: zero when the program starts, set once by `AppInit2` on the test
network, and from then on written by `GetCoinAge` alone. `ConnectBlock` calls that function with the entry
before the connected block, `getstakesubsidy` with the best block, and the wallet with the block it stakes on.
-/

namespace ProCurrency

def MIN_STAKE_AGE_FORK_BLOCK : Int := 629001

/-- The value that the program starts with. -/
def initialStakeMinAge : Network → UInt32
  | .testnet => 1 * 60 * 60
  | _ => 0

/-- `CTransaction::GetCoinAge`: the value left in `nStakeMinAge`, and the answer. What the source has after the
first `return` is never reached, and `nCoinAge` keeps its value. -/
def getCoinAge (pindexPrev : CBlockIndex) : UInt32 × Bool :=
  let nStakeMinAge : UInt32 :=
    if pindexPrev.nHeight > MIN_STAKE_AGE_FORK_BLOCK + 1 then 2 * 60 * 60 else 6 * 60 * 60
  (nStakeMinAge, nStakeMinAge != 0)

structure Node where
  stores : Stores
  nStakeMinAge : UInt32

/-- What can happen between two checks. -/
inductive Call where
  /-- The program ends and is started over its stores. -/
  | restart
  | getCoinAge (pindexPrev : CBlockIndex)
  | checkProofOfStake (pindexPrev : CBlockIndex) (pprev : List CBlockIndex) (tx : CTransaction)
      (nBits : UInt32)
  /-- Anything that changes the stores: a block is read, accepted, connected or disconnected. -/
  | store (stores : Stores)

namespace Node

variable (env : KernelEnv)

def start (stores : Stores) : Node where
  stores := stores
  nStakeMinAge := initialStakeMinAge env.network

def step (node : Node) : Call → Node
  | .restart => start env node.stores
  | .getCoinAge pindexPrev => { node with nStakeMinAge := (ProCurrency.getCoinAge pindexPrev).1 }
  | .checkProofOfStake _ _ _ _ => node
  | .store stores => { node with stores := stores }

def run (node : Node) (calls : List Call) : Node := calls.foldl (step env) node

/-- The verdict of `CheckProofOfStake` at this node. -/
def accepts (node : Node) (pindexPrev : CBlockIndex) (pprev : List CBlockIndex) (tx : CTransaction)
    (nBits : UInt32) : Bool :=
  (env.checkProofOfStake node.stores node.nStakeMinAge pindexPrev pprev tx nBits).isOk

end Node

/-!
## The coin age of a transaction

`GetCoinAge` of `CTransaction` (main.cpp) with the age that its caller passes, and the law that the lines after its
first `return` are written for.
-/

/-- What `GetCoinAge` leaves in `nStakeMinAge`, what it answers, and what it leaves in the caller's `nCoinAge`. -/
def CTransaction.getCoinAge (_tx : CTransaction) (_stores : Stores) (pindexPrev : CBlockIndex)
    (nCoinAge : UInt64) : UInt32 × Bool × UInt64 :=
  let (nStakeMinAge, fResult) := ProCurrency.getCoinAge pindexPrev
  (nStakeMinAge, fResult, nCoinAge)

namespace CTransaction

variable (stores : Stores) (pindexPrev : CBlockIndex)

/-- Some input spends a transaction that is later than this one. -/
def SpendsLater (tx : CTransaction) : Prop :=
  ∃ txin ∈ tx.vin, ∃ txPrev txindex, readFromDisk stores txin.prevout = some (txPrev, txindex) ∧ tx.nTime < txPrev.nTime

/-- The block of a previous transaction is at least this many seconds older than the transaction. -/
def oldEnough (nStakeMinAge : UInt32) (tx : CTransaction) (txindex : CTxIndex) : Bool :=
  match stores.readBlock txindex.pos.nFile txindex.pos.nBlockPos with
  | none => false
  | some block => block.nTime.toNat + nStakeMinAge.toNat ≤ tx.nTime.toNat

/-- The value of what an input spends times the seconds it has been there, if it is old enough to count. -/
def coinSeconds (nStakeMinAge : UInt32) (tx : CTransaction) (txin : CTxIn) : Int :=
  match readFromDisk stores txin.prevout with
  | none => 0
  | some (txPrev, txindex) =>
      if oldEnough stores nStakeMinAge tx txindex then
        (txPrev.vout.getD txin.prevout.n.toNat .null).nValue.toInt * (tx.nTime.toNat - txPrev.nTime.toNat)
      else 0

/-- The age in coin days, rounded down. -/
def coinAge (tx : CTransaction) : Int :=
  (tx.vin.map (coinSeconds stores (ProCurrency.getCoinAge pindexPrev).1 tx)).sum / (COIN * (24 * 60 * 60))

structure CoinAgeLaw (tx : CTransaction) : Prop where
  refused : SpendsLater stores tx → ∀ nCoinAge, (tx.getCoinAge stores pindexPrev nCoinAge).2.1 = false
  answered : ¬ SpendsLater stores tx → ∀ nCoinAge, (tx.getCoinAge stores pindexPrev nCoinAge).2.1 = true ∧
    ((tx.getCoinAge stores pindexPrev nCoinAge).2.2.toNat : Int) = coinAge stores pindexPrev tx
  assigned : ∀ nCoinAge nCoinAge', (tx.getCoinAge stores pindexPrev nCoinAge).2.1 = true →
    (tx.getCoinAge stores pindexPrev nCoinAge).2.2 = (tx.getCoinAge stores pindexPrev nCoinAge').2.2

theorem getCoinAge_succeeds (tx : CTransaction) (nCoinAge : UInt64) :
    (tx.getCoinAge stores pindexPrev nCoinAge).2.1 = true := by
  change (ProCurrency.getCoinAge pindexPrev).2 = true
  rw [ProCurrency.getCoinAge]
  split_ifs <;> rfl

theorem getCoinAge_keeps (tx : CTransaction) (nCoinAge : UInt64) :
    (tx.getCoinAge stores pindexPrev nCoinAge).2.2 = nCoinAge := rfl

/-- Every call succeeds and leaves the caller's age as it was. -/
theorem coinAgeLaw_never (tx : CTransaction) : ¬ CoinAgeLaw stores pindexPrev tx ∧
    (SpendsLater stores tx → ∀ nCoinAge, (tx.getCoinAge stores pindexPrev nCoinAge).2.1 = true) ∧
    (∀ nCoinAge, (tx.getCoinAge stores pindexPrev nCoinAge).2.2 = nCoinAge) := by
  refine ⟨fun h => ?_, fun _ nCoinAge => getCoinAge_succeeds stores pindexPrev tx nCoinAge,
    fun nCoinAge => getCoinAge_keeps stores pindexPrev tx nCoinAge⟩
  by_cases hlater : SpendsLater stores tx
  · have hfalse := h.refused hlater 0
    rw [getCoinAge_succeeds] at hfalse
    cases hfalse
  · have hzero := (h.answered hlater 0).2
    have hone := (h.answered hlater 1).2
    rw [getCoinAge_keeps] at hzero hone
    rw [← hzero] at hone
    cases hone

/-! ## A coin of one day -/

def paymentAt (nTime : UInt32) : CTransaction where
  nVersion := 1
  nTime := nTime
  vin := [{ prevout := { hash := 1, n := 0 }, scriptSig := [], nSequence := 0 }]
  vout := [{ nValue := 100000000, scriptPubKey := [] }]
  nLockTime := 0

/-- Every hash leads to a payment of one coin at the time zero. -/
def oneCoinStores : Stores where
  mapBlockIndex := fun _ => none
  readTxIndex := fun _ => some { pos := { nFile := 1, nBlockPos := 0, nTxPos := 81 }, vSpent := [] }
  readTx := fun _ => some (paymentAt 0)
  readBlock := fun _ _ => some
    { nVersion := 1, hashPrevBlock := 0, hashMerkleRoot := 0, nTime := 0, nBits := 0, nNonce := 0, vtx := [] }

/-- A coin that is spent after a day has the age of one coin day, and the call leaves a zero. -/
theorem coinAge_not_assigned : ¬ CoinAgeLaw oneCoinStores { nHeight := 40000 } (paymentAt 86400) := by
  intro h
  have hnot : ¬ SpendsLater oneCoinStores (paymentAt 86400) := by
    rintro ⟨txin, _, txPrev, txindex, hread, hlater⟩
    have hprev : txPrev = paymentAt 0 := by
      simp only [readFromDisk, oneCoinStores] at hread
      split_ifs at hread
      cases hread
      rfl
    rw [hprev] at hlater
    exact absurd hlater (by decide)
  have hage := (h.answered hnot 0).2
  have hday : coinAge oneCoinStores { nHeight := 40000 } (paymentAt 86400) = 1 := by decide
  rw [hday] at hage
  cases hage

end CTransaction

end ProCurrency

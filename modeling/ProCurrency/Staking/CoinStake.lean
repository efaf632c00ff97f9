import Mathlib.Data.BitVec
import ProCurrency.Kernel.Miner
import ProCurrency.Staking.Template

/-!
# Signing a block

`CreateCoinStake` and `SelectCoinsForStaking` (wallet.cpp), and `CBlock::SignBlock` (main.cpp). The best block stays the
one that the template was made on. A 64-bit sum wraps.
-/

namespace ProCurrency

def STAKE_TIMESTAMP_MASK : UInt32 := 15

def nStakeSplitAge : Int := 1 * 24 * 60 * 60

/-- 1000 coins. -/
def nStakeCombineThreshold : Int64 := 1000 * 100000000

def nStakeSplitThreshold : Int64 := 2 * nStakeCombineThreshold

def nMaxStakeSearchInterval : Int := 60

/-- An output of a transaction of the wallet, which stands at an address. A `COutput` has its number as an `int`. -/
structure StakeCoin where
  address : Nat
  tx : CTransaction
  n : UInt32
  isInt : n.toNat < 2 ^ 31
  inRange : n.toNat < tx.vout.length

namespace StakeCoin

def txout (coin : StakeCoin) : CTxOut := coin.tx.vout.get ⟨coin.n.toNat, coin.inRange⟩

/-- `setCoinsRet.insert`. -/
def insert (coin : StakeCoin) : List StakeCoin → List StakeCoin
  | [] => [coin]
  | c :: cs =>
      if coin.address < c.address ∨ coin.address = c.address ∧ coin.n < c.n then coin :: c :: cs
      else if coin.address = c.address ∧ coin.n = c.n then c :: cs
      else c :: coin.insert cs

end StakeCoin

/-- What `Solver` finds, as far as a kernel is concerned. -/
inductive KernelScript where
  | pubKey (vchPubKey : Bytes)
  | pubKeyHash (keyId : BitVec 160)
  | other

/-- The wallet, its balance and its keys. -/
structure StakeWallet (K : Type) where
  nBalance : Int64
  nReserveBalance : Int64
  availableCoinsForStaking : UInt32 → List StakeCoin
  solver : CScript → Option KernelScript
  hash160 : Bytes → BitVec 160
  getKey : BitVec 160 → Option K
  getPubKey : K → Bytes
  /-- The script that `SignSignature` sets, for an input of a transaction. -/
  signSignature : CTransaction → CTransaction → Nat → Option CScript
  sign : K → UInt256 → Option Bytes

namespace StakeWallet

variable {K : Type} (wallet : StakeWallet K)

/-- The loop of `SelectCoinsForStaking`. -/
def selectFrom (nTargetValue : Int64) (setCoins : List StakeCoin) (nValueRet : Int64) :
    List StakeCoin → List StakeCoin
  | [] => setCoins
  | coin :: coins =>
      let n := coin.txout.nValue
      if nTargetValue ≤ nValueRet then setCoins
      else if nTargetValue ≤ n then coin.insert setCoins
      else if n < nTargetValue + CENT then selectFrom nTargetValue (coin.insert setCoins) (nValueRet + n) coins
      else selectFrom nTargetValue setCoins nValueRet coins

def selectCoinsForStaking (nTargetValue : Int64) (nSpendTime : UInt32) : List StakeCoin :=
  selectFrom nTargetValue [] 0 (wallet.availableCoinsForStaking nSpendTime)

/-- The key of a kernel, and the script that the coinstake pays to. -/
def kernelKey (scriptPubKeyKernel : CScript) : Option (K × CScript) :=
  match wallet.solver scriptPubKeyKernel with
  | some (.pubKeyHash keyId) =>
      (wallet.getKey keyId).map fun key =>
        (key, UInt8.ofNat (wallet.getPubKey key).length :: wallet.getPubKey key ++ [OP_CHECKSIG])
  | some (.pubKey vchPubKey) =>
      match wallet.getKey (wallet.hash160 vchPubKey) with
      | none => none
      | some key => if wallet.getPubKey key ≠ vchPubKey then none else some (key, scriptPubKeyKernel)
  | _ => none

end StakeWallet

/-- A script that is set leaves the outpoints as they are. -/
theorem map_prevout_modify (scriptSig : CScript) (vin : List CTxIn) (i : Nat) :
    (vin.modify i fun txin => { txin with scriptSig }).map CTxIn.prevout = vin.map CTxIn.prevout := by
  induction vin generalizing i with
  | nil => rw [List.modify_nil]
  | cons txin vin ih =>
      cases i with
      | zero => rfl
      | succ i => rw [List.modify_succ_cons, List.map_cons, ih, List.map_cons]

structure StakeEnv (G D K : Type) extends MinerEnv G D where
  kernel : KernelEnv
  stores : Stores
  nStakeMinAge : UInt32
  wallet : StakeWallet K

/-- A kernel with its key: the time that was found, and the time of the coin's block. -/
structure FoundKernel (K : Type) where
  coin : StakeCoin
  nTime : UInt32
  nBlockTime : Int
  key : K
  scriptPubKeyOut : CScript

namespace StakeEnv

variable {G D K : Type} (e : StakeEnv G D K)

def prevout (coin : StakeCoin) : COutPoint := { hash := e.connect.txHash coin.tx, n := coin.n }

section Search

variable (pindexPrev : CBlockIndex) (pprev : List CBlockIndex) (nBits : UInt32)

/-- The loop that tries the times of one coin, `n` seconds back and more, over the rounds that are left. -/
def searchTime (coin : StakeCoin) (nTime : UInt32) : Nat → Nat → Option (UInt32 × Int)
  | 0, _ => none
  | rounds + 1, n =>
      let nTimeTx := nTime - UInt32.ofNat n
      match e.kernel.checkKernel e.stores e.nStakeMinAge pindexPrev pprev nBits nTimeTx.toNat (e.prevout coin) with
      | some nBlockTime => some (nTimeTx, nBlockTime)
      | none => searchTime coin nTime rounds (n + 1)

/-- The first loop over the coins. A kernel without a key is passed over. -/
def searchCoins (nTime : UInt32) (rounds : Nat) : List StakeCoin → Option (FoundKernel K)
  | [] => none
  | coin :: coins =>
      match e.searchTime pindexPrev pprev nBits coin nTime rounds 0 with
      | none => searchCoins nTime rounds coins
      | some (nTimeTx, nBlockTime) =>
          match e.wallet.kernelKey coin.txout.scriptPubKey with
          | none => searchCoins nTime rounds coins
          | some (key, scriptPubKeyOut) => some { coin, nTime := nTimeTx, nBlockTime, key, scriptPubKeyOut }

end Search

/-- What may be staked. -/
def stakeable : Int64 := e.wallet.nBalance - e.wallet.nReserveBalance

/-- The second loop over the coins: more of them, of the kernel's key. -/
def addCoins (pindexPrev : CBlockIndex) (found : FoundKernel K) (nOutputs : Nat) (chosen : List StakeCoin)
    (nCredit : Int64) : List StakeCoin → List StakeCoin × Int64
  | [] => (chosen, nCredit)
  | coin :: coins =>
      let scriptPubKey := coin.txout.scriptPubKey
      if nOutputs = 2 ∧
          (scriptPubKey = found.coin.txout.scriptPubKey ∨ scriptPubKey = found.scriptPubKeyOut) ∧
          e.connect.txHash coin.tx ≠ e.connect.txHash found.coin.tx then
        let nTimeWeight := getWeight e.connect.params e.nStakeMinAge (pindexPrev.nHeight + 1) coin.tx.nTime.toNat
          found.nTime.toNat
        if 100 ≤ chosen.length then (chosen, nCredit)
        else if nStakeCombineThreshold ≤ nCredit then (chosen, nCredit)
        else if e.stakeable < nCredit + coin.txout.nValue then (chosen, nCredit)
        else if nStakeCombineThreshold ≤ coin.txout.nValue then
          addCoins pindexPrev found nOutputs chosen nCredit coins
        else if !e.connect.params.isProtocolVFork1 pindexPrev.nHeight && nTimeWeight < e.nStakeMinAge.toNat then
          addCoins pindexPrev found nOutputs chosen nCredit coins
        else addCoins pindexPrev found nOutputs (chosen ++ [coin]) (nCredit + coin.txout.nValue) coins
      else addCoins pindexPrev found nOutputs chosen nCredit coins

/-- The amounts of the outputs. -/
def setOutputs (nCredit : Int64) : List CTxOut → List CTxOut
  | [marker, first, second] =>
      let nValue := nCredit / 2 / CENT * CENT
      [marker, { first with nValue }, { second with nValue := nCredit - nValue }]
  | marker :: first :: more => marker :: { first with nValue := nCredit } :: more
  | vout => vout

/-- The loop that signs the inputs, from number `i` on. -/
def signInputs (tx : CTransaction) (i : Nat) : List CTransaction → Option CTransaction
  | [] => some tx
  | wtx :: vwtxPrev =>
      match e.wallet.signSignature wtx tx i with
      | none => none
      | some scriptSig =>
          signInputs { tx with vin := tx.vin.modify i fun txin => { txin with scriptSig } } (i + 1) vwtxPrev

/-- `CreateCoinStake`, from the time of `txNew` on. -/
def createCoinStake (pindexPrev : CBlockIndex) (pprev : List CBlockIndex) (nBits : UInt32) (nSearchInterval : Int)
    (nFees : Int64) (nTime : UInt32) : Option (CTransaction × K) :=
  if e.wallet.nBalance ≤ e.wallet.nReserveBalance then none
  else
    let setCoins := e.wallet.selectCoinsForStaking e.stakeable nTime
    match e.searchCoins pindexPrev pprev nBits nTime (min nSearchInterval nMaxStakeSearchInterval).toNat setCoins with
    | none => none
    | some found =>
        let txout : CTxOut := { nValue := 0, scriptPubKey := found.scriptPubKeyOut }
        let nWeight := getWeight e.connect.params e.nStakeMinAge (pindexPrev.nHeight + 1) found.nBlockTime
          found.nTime.toNat
        let vout := { nValue := 0, scriptPubKey := [] } :: txout :: if nWeight < nStakeSplitAge then [txout] else []
        let nCredit := found.coin.txout.nValue
        if nCredit = 0 ∨ e.stakeable < nCredit then none
        else
          let (coins, nCredit) := e.addCoins pindexPrev found vout.length [found.coin] nCredit setCoins
          let nReward := getProofOfStakeReward pindexPrev nFees
          if !(getCoinAge pindexPrev).2 then none
          else if nReward ≤ 0 then none
          else
            let nCredit := nCredit + nReward
            let vout := if nStakeSplitThreshold ≤ nCredit then vout ++ [txout] else vout
            let txNew : CTransaction :=
              { nVersion := 1
                nTime := found.nTime
                vin := coins.map fun coin => { prevout := e.prevout coin, scriptSig := [], nSequence := -1 }
                vout := setOutputs nCredit vout
                nLockTime := 0 }
            match e.signInputs txNew 0 (coins.map StakeCoin.tx) with
            | none => none
            | some txNew => if MAX_BLOCK_SIZE / 2 / 5 ≤ txNew.getSerializeSize then none else some (txNew, found.key)

/-- The time from which a kernel is searched: the adjusted time, on the raster of the stakes. -/
def searchFrom : UInt32 :=
  let nTime := UInt32.ofInt e.connect.nAdjustedTime
  let nHeight := e.connect.nBestHeight + 1
  if !e.connect.params.isProtocolV1 nHeight || !e.connect.params.isProtocolVFork2 nHeight then
    nTime &&& ~~~STAKE_TIMESTAMP_MASK
  else nTime

def searchInterval (nSearchTime nLastCoinStakeSearchTime : Int) : Int :=
  let nHeight := e.connect.nBestHeight + 1
  if e.connect.params.isProtocolVFork2 nHeight then 1
  else if e.connect.params.isProtocolV1 nHeight then nSearchTime - nLastCoinStakeSearchTime
  else 1

/-- The block with its coinstake, without the transactions that are later than it. -/
def withCoinStake (block : CBlock) (txCoinStake : CTransaction) : CBlock :=
  let vtx := match block.vtx with
    | [] => []
    | coinbase :: vtx => { coinbase with nTime := txCoinStake.nTime } :: vtx
  let vtx := match vtx.filter fun tx => !(txCoinStake.nTime < tx.nTime) with
    | [] => [txCoinStake]
    | tx :: vtx => tx :: txCoinStake :: vtx
  { block with
    nTime := txCoinStake.nTime
    vtx
    hashMerkleRoot := buildMerkleTree e.connect.merkleHash (vtx.map e.connect.txHash) }

/-- `SignBlock` of a block that is not signed yet; `none` is the answer `false`. -/
def signBlock (pindexPrev : CBlockIndex) (pprev : List CBlockIndex) (nLastCoinStakeSearchTime : Int) (block : CBlock)
    (nFees : Int64) : Option CBlock :=
  match block.vtx.head?.bind fun tx => tx.vout.head? with
  | none => none
  | some txout =>
      if !txout.isEmpty then none
      else if block.isProofOfStake then some block
      else
        let nSearchTime : Int := e.searchFrom.toNat
        if nSearchTime ≤ nLastCoinStakeSearchTime then none
        else
          match e.createCoinStake pindexPrev pprev block.nBits
            (e.searchInterval nSearchTime nLastCoinStakeSearchTime) nFees e.searchFrom with
          | none => none
          | some (txCoinStake, key) =>
              if (txCoinStake.nTime.toNat : Int) < getPastTimeLimit e.connect.params pindexPrev pprev + 1 then none
              else
                let block := e.withCoinStake block txCoinStake
                (e.wallet.sign key (e.connect.blockHash block)).map fun vchBlockSig => { block with vchBlockSig }

end StakeEnv

end ProCurrency

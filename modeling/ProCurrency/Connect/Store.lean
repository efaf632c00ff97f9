import Mathlib.Logic.Function.Basic
import ProCurrency.Base.Params
import ProCurrency.Base.Script
import ProCurrency.Merkle.PartialTree
import ProCurrency.Ring.Signature
import ProCurrency.Store.TxDb

/-!
# Values and ring coins of a transaction

The parts of `CTxIn`, `CTxOut` (core.h) and `CTransaction` (main.h, main.cpp) that the connection of a block
reads. An amount is a signed 64-bit number, and a sum that does not fit wraps.
-/

namespace ProCurrency

def ANON_TXN_VERSION : Int := 1000

def MIN_ANON_IN_SIZE : Nat := 2 + (33 + 32 + 32)

def MIN_ANON_OUT_SIZE : Nat := 1 + 1 + 1 + 33 + 1 + 33

def moneyRange (nValue : Int64) : Bool := 0 ≤ nValue && nValue ≤ MAX_MONEY

/-- The marker that `IsAnonInput` and `IsAnonOutput` look for. -/
def hasAnonMarker (nMinSize : Nat) (script : CScript) : Bool :=
  nMinSize ≤ script.length && script.getD 0 0 == OP_RETURN && script.getD 1 0 == OP_ANON_MARKER

namespace CTxIn

def isAnonInput (txin : CTxIn) : Bool := hasAnonMarker MIN_ANON_IN_SIZE txin.scriptSig

def extractKeyImage (txin : CTxIn) : List UInt8 := writeUInt256 txin.prevout.hash ++ [txin.prevout.n.toUInt8]

def extractRingSize (txin : CTxIn) : Nat := ((txin.prevout.n >>> 16) &&& 0xffff).toNat

end CTxIn

namespace CTxOut

def isAnonOutput (txout : CTxOut) : Bool := hasAnonMarker MIN_ANON_OUT_SIZE txout.scriptPubKey

def extractAnonPk (txout : CTxOut) : List UInt8 := (txout.scriptPubKey.drop 3).take EC_COMPRESSED_SIZE

end CTxOut

namespace CTransaction

/-- An input that is spent as a ring coin. -/
def spendsAnon (tx : CTransaction) (txin : CTxIn) : Bool :=
  tx.nVersion == ANON_TXN_VERSION && txin.isAnonInput

/-- The loop of `GetValueOut`; `none` is the exception. -/
def valueOutFrom (nValueOut : Int64) : List CTxOut → Option Int64
  | [] => some nValueOut
  | txout :: vout =>
      if !moneyRange txout.nValue || !moneyRange (nValueOut + txout.nValue) then none
      else valueOutFrom (nValueOut + txout.nValue) vout

def getValueOut (tx : CTransaction) : Option Int64 := valueOutFrom 0 tx.vout

/-- `GetMinFee`: what the source has after the first `return` is never reached, and the assignments before it
are to variables of their own. -/
def getMinFee (_tx : CTransaction) : Int64 := 10000

/-! ## Sizes -/

def getSizeOfCompactSize (nSize : Nat) : Nat := (writeCompactSize nSize).length

def sizeOfScript (script : CScript) : Nat := getSizeOfCompactSize script.length + script.length

def getSerializeSize (tx : CTransaction) : Nat :=
  4 + 4 +
    (getSizeOfCompactSize tx.vin.length + (tx.vin.map fun txin => 36 + sizeOfScript txin.scriptSig + 4).sum) +
    (getSizeOfCompactSize tx.vout.length + (tx.vout.map fun txout => 8 + sizeOfScript txout.scriptPubKey).sum) +
    4

/-! ## Checks without a context -/

/-- The loop over the outputs. -/
def checkOutputs (tx : CTransaction) (nValueOut : Int64) : List CTxOut → Bool
  | [] => true
  | txout :: vout =>
      if txout.isEmpty && !tx.isCoinBase && !tx.isCoinStake then false
      else if txout.nValue < 0 then false
      else if MAX_MONEY < txout.nValue then false
      else if !moneyRange (nValueOut + txout.nValue) then false
      else checkOutputs tx (nValueOut + txout.nValue) vout

/-- The loop over the inputs: the key images are told apart without the size of the ring. -/
def checkInputs (tx : CTransaction) (vInOutPoints : List COutPoint) : List CTxIn → Bool
  | [] => true
  | txin :: vin =>
      let prevout : COutPoint :=
        if tx.spendsAnon txin then { txin.prevout with n := txin.prevout.n &&& 0xff } else txin.prevout
      if prevout ∈ vInOutPoints then false else checkInputs tx (prevout :: vInOutPoints) vin

/-- The loop over the ring coins that the transaction makes. -/
def checkAnonOutputs (vAnonOutPubkeys : List (List UInt8)) : List CTxOut → Bool
  | [] => true
  | txout :: vout =>
      if !txout.isAnonOutput then checkAnonOutputs vAnonOutPubkeys vout
      else if txout.extractAnonPk ∈ vAnonOutPubkeys then false
      else checkAnonOutputs (txout.extractAnonPk :: vAnonOutPubkeys) vout

def checkTransaction (tx : CTransaction) : Bool :=
  if tx.vin.isEmpty then false
  else if tx.vout.isEmpty then false
  else if MAX_BLOCK_SIZE < tx.getSerializeSize then false
  else if !tx.checkOutputs 0 tx.vout then false
  else if !tx.checkInputs [] tx.vin then false
  else if tx.nVersion == ANON_TXN_VERSION && !checkAnonOutputs [] tx.vout then false
  else if tx.isCoinBase then
    tx.vin.all fun txin => 2 ≤ txin.scriptSig.length && txin.scriptSig.length ≤ 100
  else tx.vin.all fun txin => !txin.prevout.isNull

end CTransaction

/-!
## Key images and ring coins

The records that `CTxDB` keeps of spent key images and of ring coins (core.h), and what the connection of a
block reads outside them. A handle acts as a map (`Store/Theorems`), so that each kind of record is a map here.
Reads from the disk do not fail.
-/

structure CKeyImageSpent where
  txnHash : UInt256
  inputNo : Nat
  nValue : Int64
  deriving Repr, DecidableEq

structure CAnonOutput where
  outpoint : COutPoint
  nValue : Int64
  nBlockHeight : Int
  nCompromised : UInt8
  deriving Repr, DecidableEq

/-- What `setpwalletRegistered` holds: the steps of `ProcessAnonTransaction` over the wallet's own database, for
an input that the wallet owns, the commit of its handle, and the same steps of `UndoAnonTransaction`. -/
structure Wallet where
  spendsOwned : CTransaction → Nat → Bool
  commits : CTransaction → Bool
  unspendsOwned : CTransaction → Nat → Bool := fun _ _ => true

/-- The rest of the node, while a block is connected. -/
structure ConnectEnv (G : Type) where
  params : CChainParams
  /-- `nNodeMode == NT_FULL`. -/
  fFull : Bool
  nBestHeight : Int
  pindexBest : CBlockIndex
  nCoinbaseMaturity : Int
  nTotalBlocksEstimate : Int
  nAdjustedTime : Int
  txHash : CTransaction → UInt256
  blockHash : CBlock → UInt256
  merkleHash : UInt256 → UInt256 → UInt256
  ring : RingSigEnv G
  /-- The bytes that `CPubKey` leaves unset behind the 33 that it copies. -/
  vchUnset : Bytes
  readTx : CDiskTxPos → Option CTransaction
  mempoolTx : UInt256 → Option CTransaction
  getDepthInMainChain : CTxIndex → Int
  /-- The heights of `mapBlockIndex`. -/
  mapBlockIndex : UInt256 → Option Int
  verifySignature : CTransaction → CTransaction → Nat → UInt32 → Bool
  wallets : List Wallet

/-- The stores of a node, read through the handle of `SetBestChain`. -/
structure ConnectStore where
  txIndex : UInt256 → Option CTxIndex
  /-- The index without what waits in the batch: other handles read it. -/
  diskTxIndex : UInt256 → Option CTxIndex
  keyImages : Bytes → Option CKeyImageSpent
  anonOutputs : Bytes → Option CAnonOutput
  /-- The key images of the memory pool. -/
  mapKeyImage : Bytes → Option CKeyImageSpent

namespace ConnectStore

def writeKeyImage (s : ConnectStore) (vchImage : Bytes) (spentKeyImage : CKeyImageSpent) : ConnectStore :=
  { s with keyImages := fun k => if k = vchImage then some spentKeyImage else s.keyImages k }

def insertKeyImage (s : ConnectStore) (vchImage : Bytes) (spentKeyImage : CKeyImageSpent) : ConnectStore :=
  { s with mapKeyImage := fun k => if k = vchImage then some spentKeyImage else s.mapKeyImage k }

def writeAnonOutput (s : ConnectStore) (pkCoin : Bytes) (ao : CAnonOutput) : ConnectStore :=
  { s with anonOutputs := fun k => if k = pkCoin then some ao else s.anonOutputs k }

def eraseKeyImage (s : ConnectStore) (vchImage : Bytes) : ConnectStore :=
  { s with keyImages := fun k => if k = vchImage then none else s.keyImages k }

def eraseAnonOutput (s : ConnectStore) (pkCoin : Bytes) : ConnectStore :=
  { s with anonOutputs := fun k => if k = pkCoin then none else s.anonOutputs k }

/-- `UpdateTxIndex`, into the batch. -/
def writeTxIndex (s : ConnectStore) (hash : UInt256) (txindex : CTxIndex) : ConnectStore :=
  { s with txIndex := Function.update s.txIndex hash (some txindex) }

/-- `EraseTxIndex`, into the batch. -/
def eraseTxIndex (s : ConnectStore) (hash : UInt256) : ConnectStore :=
  { s with txIndex := Function.update s.txIndex hash none }

/-- `GetKeyImage`: the store first, then the memory pool. -/
def getKeyImage (s : ConnectStore) (vchImage : Bytes) : Option CKeyImageSpent :=
  match s.keyImages vchImage with
  | some spentKeyImage => some spentKeyImage
  | none => s.mapKeyImage vchImage

theorem keyImages_writeKeyImage_self (s : ConnectStore) (vchImage : Bytes) (ki : CKeyImageSpent) :
    (s.writeKeyImage vchImage ki).keyImages vchImage = some ki := if_pos rfl

theorem keyImages_writeKeyImage_of_ne {k vchImage : Bytes} (h : k ≠ vchImage) (s : ConnectStore)
    (ki : CKeyImageSpent) : (s.writeKeyImage vchImage ki).keyImages k = s.keyImages k := if_neg h

theorem keyImages_eraseKeyImage_self (s : ConnectStore) (vchImage : Bytes) :
    (s.eraseKeyImage vchImage).keyImages vchImage = none := if_pos rfl

theorem keyImages_eraseKeyImage_of_ne {k vchImage : Bytes} (h : k ≠ vchImage) (s : ConnectStore) :
    (s.eraseKeyImage vchImage).keyImages k = s.keyImages k := if_neg h

end ConnectStore

namespace ConnectEnv

variable {G : Type} (env : ConnectEnv G)

/-- `TxnHashInSystem`, with the index that the handle reads. -/
def txnHashInSystem (txIndex : UInt256 → Option CTxIndex) (txnHash : UInt256) : Bool :=
  if (env.mempoolTx txnHash).isSome then true
  else match txIndex txnHash with
    | none => false
    | some txnIndex => 0 < env.getDepthInMainChain txnIndex

/-- `CPubKey(p, 33)`, as the bytes that it is stored under. The first byte gives the size. -/
def pubKey (p : Bytes) : Bytes :=
  let chHeader := p.getD 0 0
  if chHeader = 2 ∨ chHeader = 3 then p
  else if chHeader = 4 ∨ chHeader = 6 ∨ chHeader = 7 then p ++ env.vchUnset
  else []

/-- The curve, with the rule of `hashToEC` at the best height. -/
def ringNow : RingSigEnv G := { env.ring with fVFork1 := env.params.isProtocolVFork1 env.nBestHeight }

/-- `GetBlockHeightFromHash`. -/
def getBlockHeightFromHash (blockHash : UInt256) : Int :=
  if blockHash = 0 then 0
  else match env.mapBlockIndex blockHash with
    | none => 0
    | some nHeight => nHeight

/-- `getOldKeyImage`: no key image for a key that is not compressed or not a point, and a cleared one for a point
that has no compressed form. -/
def getOldKeyImage [AddCommGroup G] (publicKey : Bytes) : Bytes :=
  if publicKey.length ≠ EC_COMPRESSED_SIZE then []
  else
    match env.ring.oct2point publicKey with
    | none => []
    | some ptPk =>
        match env.ring.point2oct33 (env.ring.hashToBn publicKey • ptPk) with
        | none => List.replicate EC_COMPRESSED_SIZE 0
        | some keyImage => keyImage

end ConnectEnv

end ProCurrency

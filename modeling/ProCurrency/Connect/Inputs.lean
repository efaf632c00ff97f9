import Mathlib.Logic.Function.Basic
import ProCurrency.Connect.Store

/-!
# The inputs of a transaction

`FetchInputs`, `GetValueIn`, `GetP2SHSigOpCount`, `CheckAnonInputs` and `ConnectInputs` of `CTransaction`
(main.cpp), as `ConnectBlock` calls them: `fBlock` is set and `fMiner` is not.
-/

namespace ProCurrency

open ByteCodec

def MIN_RING_SIZE : Nat := 3

def MAX_RING_SIZE_OLD : Nat := 200

def MAX_RING_SIZE : Nat := 32

def MIN_ANON_SPEND_DEPTH : Int := 10

namespace CDiskTxPos

def null : CDiskTxPos where
  nFile := -1
  nBlockPos := 0
  nTxPos := 0

def isNull (pos : CDiskTxPos) : Bool := pos.nFile = -1

end CDiskTxPos

/-- `CTxIndex(pos, nOutputs)`. -/
def CTxIndex.new (pos : CDiskTxPos) (nOutputs : Nat) : CTxIndex where
  pos := pos
  vSpent := List.replicate nOutputs .null

abbrev MapPrevTx := UInt256 → Option (CTxIndex × CTransaction)

abbrev MapTestPool := UInt256 → Option CTxIndex

namespace CTransaction

/-- `GetOutputFor`; `none` is the exception. -/
def getOutputFor (txin : CTxIn) (inputs : MapPrevTx) : Option CTxOut :=
  match inputs txin.prevout.hash with
  | none => none
  | some (_, txPrev) => txPrev.vout[txin.prevout.n.toNat]?

/-- The loop of `GetValueIn`. -/
def valueInFrom (tx : CTransaction) (inputs : MapPrevTx) (nResult : Int64) : List CTxIn → Option Int64
  | [] => some nResult
  | txin :: vin =>
      if tx.spendsAnon txin then valueInFrom tx inputs nResult vin
      else match getOutputFor txin inputs with
        | none => none
        | some txout => valueInFrom tx inputs (nResult + txout.nValue) vin

def getValueIn (tx : CTransaction) (inputs : MapPrevTx) : Option Int64 :=
  if tx.isCoinBase then some 0 else valueInFrom tx inputs 0 tx.vin

/-- The loop of `GetP2SHSigOpCount`. -/
def p2SHSigOpCountFrom (tx : CTransaction) (inputs : MapPrevTx) (nSigOps : Nat) : List CTxIn → Option Nat
  | [] => some nSigOps
  | txin :: vin =>
      if tx.spendsAnon txin then p2SHSigOpCountFrom tx inputs nSigOps vin
      else match getOutputFor txin inputs with
        | none => none
        | some prevout =>
            if prevout.scriptPubKey.isPayToScriptHash then
              p2SHSigOpCountFrom tx inputs (nSigOps + prevout.scriptPubKey.getP2SHSigOpCount txin.scriptSig) vin
            else p2SHSigOpCountFrom tx inputs nSigOps vin

def getP2SHSigOpCount (tx : CTransaction) (inputs : MapPrevTx) : Option Nat :=
  if tx.isCoinBase then some 0 else p2SHSigOpCountFrom tx inputs 0 tx.vin

end CTransaction

/-! ## The layout of a ring -/

/-- The scheme that the script of a ring input has the size for. -/
def ringSigTypeOf (nRingSize : Nat) (s : CScript) : Option RingSigType :=
  if 1 < nRingSize ∧ s.length = 2 + EC_SECRET_SIZE + (EC_SECRET_SIZE + EC_COMPRESSED_SIZE) * nRingSize then
    some .RING_SIG_2
  else if s.length < 2 + (EC_COMPRESSED_SIZE + EC_SECRET_SIZE + EC_SECRET_SIZE) * nRingSize then none
  else some .RING_SIG_1

/-- `pPubkeys`. -/
def ringPubkeys (nRingSize : Nat) (s : CScript) : RingSigType → Bytes
  | .RING_SIG_1 => s.drop 2
  | .RING_SIG_2 => s.drop (2 + EC_SECRET_SIZE + EC_SECRET_SIZE * nRingSize)

/-- The ring of an input with its signature. -/
def CTxIn.ringSignature (txin : CTxIn) (type : RingSigType) : RingSignature :=
  let nRingSize := txin.extractRingSize
  { keyImage := txin.extractKeyImage
    nRingSize
    pPubkeys := ringPubkeys nRingSize txin.scriptSig type
    sigC := match type with
      | .RING_SIG_1 => txin.scriptSig.drop (2 + EC_COMPRESSED_SIZE * nRingSize)
      | .RING_SIG_2 => (txin.scriptSig.drop 2).take EC_SECRET_SIZE
    sigR := match type with
      | .RING_SIG_1 => txin.scriptSig.drop (2 + (EC_COMPRESSED_SIZE + EC_SECRET_SIZE) * nRingSize)
      | .RING_SIG_2 => txin.scriptSig.drop (2 + EC_SECRET_SIZE) }

namespace ConnectEnv

variable {G : Type} (env : ConnectEnv G)

/-! ## Fetching -/

/-- A previous transaction with its index entry: from the changes of this block, or from the store. -/
def fetchPrevTx (s : ConnectStore) (mapTestPool : MapTestPool) (hash : UInt256) :
    Option (CTxIndex × CTransaction) :=
  match (mapTestPool hash).or (s.txIndex hash) with
  | none => none
  | some txindex =>
      let txPrev :=
        if txindex.pos = { nFile := 1, nBlockPos := 1, nTxPos := 1 } then env.mempoolTx hash
        else env.readTx txindex.pos
      match txPrev with
      | none => none
      | some txPrev => some (txindex, txPrev)

/-- The first loop of `FetchInputs`. -/
def fetchInputsFrom (s : ConnectStore) (mapTestPool : MapTestPool) (tx : CTransaction) (inputsRet : MapPrevTx) :
    List CTxIn → Option MapPrevTx
  | [] => some inputsRet
  | txin :: vin =>
      if tx.spendsAnon txin then fetchInputsFrom s mapTestPool tx inputsRet vin
      else if (inputsRet txin.prevout.hash).isSome then fetchInputsFrom s mapTestPool tx inputsRet vin
      else match env.fetchPrevTx s mapTestPool txin.prevout.hash with
        | none => none
        | some prev =>
            fetchInputsFrom s mapTestPool tx (Function.update inputsRet txin.prevout.hash (some prev)) vin

/-- The test of the second loop. -/
def prevoutInRange (inputs : MapPrevTx) (txin : CTxIn) : Bool :=
  match inputs txin.prevout.hash with
  | none => false
  | some (txindex, txPrev) =>
      txin.prevout.n.toNat < txPrev.vout.length && txin.prevout.n.toNat < txindex.vSpent.length

def fetchInputs (s : ConnectStore) (mapTestPool : MapTestPool) (tx : CTransaction) : Option MapPrevTx :=
  if tx.isCoinBase then some fun _ => none
  else
    match env.fetchInputsFrom s mapTestPool tx (fun _ => none) tx.vin with
    | none => none
    | some inputs =>
        if tx.vin.all fun txin => tx.spendsAnon txin || prevoutInRange inputs txin then some inputs else none

/-! ## Ring coins -/

/-- `GetTxnPreImage`: what the ring signatures of a transaction sign. -/
def getTxnPreImage (tx : CTransaction) : Option UInt256 :=
  let fTooSmall (txin : CTxIn) : Bool :=
    txin.scriptSig.length < 2 + txin.extractRingSize * EC_COMPRESSED_SIZE
  if tx.vin.any fTooSmall then none
  else
    let writeIn (txin : CTxIn) : Bytes :=
      writeUInt256 txin.prevout.hash ++ leBytes 4 txin.prevout.n.toNat ++
        (txin.scriptSig.drop 2).take (txin.extractRingSize * EC_COMPRESSED_SIZE)
    let writeOut (txout : CTxOut) : Bytes :=
      leBytes 8 txout.nValue.toUInt64.toNat ++ writeVector writeUChar txout.scriptPubKey
    some (env.ring.hash (leBytes 4 (tx.nVersion % 2 ^ 32).toNat ++ leBytes 4 tx.nTime.toNat ++
      tx.vin.flatMap writeIn ++ tx.vout.flatMap writeOut ++ leBytes 4 tx.nLockTime.toNat))

/-- The loop over a ring: its members are ring coins of one value, buried deep enough. -1 stands for a value that
is not known yet. -/
def ringCoinValue (s : ConnectStore) (pPubkeys : Bytes) (nCoinValue : Int64) : List Nat → Option Int64
  | [] => some nCoinValue
  | ri :: ris =>
      match s.anonOutputs (env.pubKey (partOf pPubkeys EC_COMPRESSED_SIZE ri)) with
      | none => none
      | some ao =>
          if nCoinValue ≠ -1 ∧ nCoinValue ≠ ao.nValue then none
          else if ao.nBlockHeight = 0 ∨ env.nBestHeight - ao.nBlockHeight < MIN_ANON_SPEND_DEPTH then none
          else ringCoinValue s pPubkeys ao.nValue ris

/-- The check of a key image: it is not spent, or by this transaction, or by one that is not known. -/
def keyImageSpendable (s : ConnectStore) (fCheckExists : Bool) (txnHash : UInt256) (vchImage : Bytes) : Bool :=
  match s.getKeyImage vchImage with
  | none => true
  | some spentKeyImage =>
      spentKeyImage.txnHash = txnHash ||
        (fCheckExists && !env.txnHashInSystem s.txIndex spentKeyImage.txnHash)

variable [AddCommGroup G]

/-- One round of `CheckAnonInputs`: the value of the ring coin. -/
def checkAnonInput (s : ConnectStore) (fCheckExists : Bool) (preimage txnHash : UInt256) (txin : CTxIn) :
    Option Int64 :=
  let nRingSize := txin.extractRingSize
  let nMaxRingSize :=
    if env.params.isProtocolVFork1 env.pindexBest.nHeight then MAX_RING_SIZE else MAX_RING_SIZE_OLD
  if !env.keyImageSpendable s fCheckExists txnHash txin.extractKeyImage then none
  else if nRingSize < 1 ∨ nMaxRingSize < nRingSize then none
  else
    match ringSigTypeOf nRingSize txin.scriptSig with
    | none => none
    | some type =>
        let sig := txin.ringSignature type
        match env.ringCoinValue s sig.pPubkeys (-1) (List.range nRingSize) with
        | none => none
        | some nCoinValue => if env.ringNow.verify type sig preimage ≠ 0 then none else some nCoinValue

/-- The loop of `CheckAnonInputs`. -/
def checkAnonInputsFrom (s : ConnectStore) (fCheckExists : Bool) (preimage txnHash : UInt256)
    (nSumValue : Int64) : List CTxIn → Bool × Int64
  | [] => (true, nSumValue)
  | txin :: vin =>
      if !txin.isAnonInput then checkAnonInputsFrom s fCheckExists preimage txnHash nSumValue vin
      else match env.checkAnonInput s fCheckExists preimage txnHash txin with
        | none => (false, nSumValue)
        | some nCoinValue =>
            checkAnonInputsFrom s fCheckExists preimage txnHash (nSumValue + nCoinValue) vin

/-- `CheckAnonInputs`: the answer, and what it leaves in `nSumValue`. -/
def checkAnonInputs (s : ConnectStore) (fCheckExists : Bool) (tx : CTransaction) : Bool × Int64 :=
  match env.getTxnPreImage tx with
  | none => (false, 0)
  | some preimage => env.checkAnonInputsFrom s fCheckExists preimage (env.txHash tx) 0 tx.vin

/-! ## Connecting -/

/-- The first loop of `ConnectInputs`, with what it sums up in `nValueIn`. -/
def checkInputsFrom (tx : CTransaction) (inputs : MapPrevTx) (pindexBlock : CBlockIndex)
    (pprev : List CBlockIndex) (nValueIn : Int64) : List CTxIn → Option Int64
  | [] => some nValueIn
  | txin :: vin =>
      if tx.spendsAnon txin then checkInputsFrom tx inputs pindexBlock pprev nValueIn vin
      else match inputs txin.prevout.hash with
        | none => none
        | some (txindex, txPrev) =>
            match txPrev.vout[txin.prevout.n.toNat]? with
            | none => none
            | some txout =>
                let fImmature := (txPrev.isCoinBase || txPrev.isCoinStake) &&
                  (isConfirmedInNPrevBlocks txindex pindexBlock env.nCoinbaseMaturity
                    (pindexBlock :: pprev)).isSome
                if txindex.vSpent.length ≤ txin.prevout.n.toNat then none
                else if fImmature then none
                else if tx.nTime < txPrev.nTime then none
                else if env.params.isProtocolVFork1 pindexBlock.nHeight && txout.isEmpty then none
                else if !moneyRange txout.nValue || !moneyRange (nValueIn + txout.nValue) then none
                else checkInputsFrom tx inputs pindexBlock pprev (nValueIn + txout.nValue) vin

/-- The second loop of `ConnectInputs`, from the input `i` on. -/
def spendInputsFrom (tx : CTransaction) (posThisTx : CDiskTxPos) (flags : UInt32) (i : Nat) (inputs : MapPrevTx)
    (mapTestPool : MapTestPool) : List CTxIn → Option MapTestPool
  | [] => some mapTestPool
  | txin :: vin =>
      if tx.spendsAnon txin then spendInputsFrom tx posThisTx flags (i + 1) inputs mapTestPool vin
      else match inputs txin.prevout.hash with
        | none => none
        | some (txindex, txPrev) =>
            match txindex.vSpent[txin.prevout.n.toNat]? with
            | none => none
            | some pos =>
                let fVerify := !(env.nBestHeight < env.nTotalBlocksEstimate)
                if !pos.isNull then none
                else if fVerify && !env.verifySignature txPrev tx i flags then none
                else
                  let txindex := { txindex with vSpent := txindex.vSpent.set txin.prevout.n.toNat posThisTx }
                  spendInputsFrom tx posThisTx flags (i + 1)
                    (Function.update inputs txin.prevout.hash (some (txindex, txPrev)))
                    (Function.update mapTestPool txin.prevout.hash (some txindex)) vin

/-- The end of `ConnectInputs`: a transaction that is no coinstake pays for its outputs, and a fee. -/
def paysFee (tx : CTransaction) (nValueIn : Int64) : Bool :=
  match tx.getValueOut with
  | none => false
  | some nValueOut =>
      let nTxFee := nValueIn - nValueOut
      if nValueIn < nValueOut then false
      else if nTxFee < 0 then false
      else if nTxFee < tx.getMinFee && !env.params.isProtocolV1 (env.nBestHeight + 1) then false
      else moneyRange nTxFee

/-- `ConnectInputs`. That `CheckAnonInputs` fails has no effect here but on `nValueIn`. -/
def connectInputs (s : ConnectStore) (inputs : MapPrevTx) (mapTestPool : MapTestPool) (posThisTx : CDiskTxPos)
    (pindexBlock : CBlockIndex) (pprev : List CBlockIndex) (flags : UInt32) (tx : CTransaction) :
    Option MapTestPool :=
  if tx.isCoinBase then some mapTestPool
  else
    match env.checkInputsFrom tx inputs pindexBlock pprev 0 tx.vin with
    | none => none
    | some nValueIn =>
        match env.spendInputsFrom tx posThisTx flags 0 inputs mapTestPool tx.vin with
        | none => none
        | some mapTestPool =>
            let nValueIn :=
              if tx.nVersion == ANON_TXN_VERSION then nValueIn + (env.checkAnonInputs s true tx).2
              else nValueIn
            if !tx.isCoinStake && !env.paysFee tx nValueIn then none else some mapTestPool

end ConnectEnv

end ProCurrency

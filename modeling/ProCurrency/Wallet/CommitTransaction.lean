import ProCurrency.Connect.Wallet
import ProCurrency.Pool.TxMemPool

/-!
# Committing a transaction

`CommitTransaction` and the part of `ProcessAnonTransaction` about the wallet's own coins (wallet.cpp), for a new
transaction: its `hashBlock` is 0 and none of its outputs is marked. The two handles on the databases are copies that
replace them on commit. The keys and the narrations that are found on the way are left out.
-/

namespace ProCurrency

/-- A transaction of `mapWallet` with `vfSpent`. -/
structure CommitTx where
  tx : CTransaction
  vfSpent : List Bool

abbrev CommitMap := UInt256 → Option CommitTx

namespace CommitTx

/-- `IsSpent`, for the number of an output. -/
def isSpent (wtx : CommitTx) (nOut : Nat) : Bool := wtx.vfSpent.getD nOut false

/-- `MarkSpent`, for the number of an output. -/
def markSpent (wtx : CommitTx) (nOut : Nat) : CommitTx :=
  { wtx with vfSpent := ((List.range wtx.tx.vout.length).map wtx.isSpent).set nOut true }

end CommitTx

/-- A record of a ring coin that the wallet owns. -/
structure OwnedAnonRecord where
  outpoint : COutPoint
  fSpent : Bool

/-- The records of `CWalletDB` about ring coins. -/
structure AnonRecords where
  ownedAnonOutputs : Bytes → Option OwnedAnonRecord
  oldOutputLinks : Bytes → Option Bytes

structure CommitNode where
  mapWallet : CommitMap
  records : AnonRecords
  store : ConnectStore
  pool : CTxMemPool

/-- What else a commit depends on: `IsMine`; whether the writes of `AddToWallet` and of an input's coin and record
succeed, and the commits of the two handles; and the records of the outputs that the wallet owns. -/
structure CommitAnswers extends AcceptAnswers where
  isMine : CTxOut → Bool
  writeToDisk : Bool
  writeTx : Nat → Bool
  writeOwnedAnonOutput : Nat → Bool
  walletCommits : Bool
  txCommits : Bool
  ownedOutputs : CTransaction → AnonRecords → AnonRecords

/-- What becomes of a ring input: the function returns, with or without an error, or it goes on. -/
inductive InputResult
  | returns (ok : Bool) (s : ConnectStore)
  | refused (mapWallet : CommitMap)
  | next (mapWallet : CommitMap) (records : AnonRecords) (s : ConnectStore)

namespace CommitNode

def markCoin (mapWallet : CommitMap) (outpoint : COutPoint) : CommitMap :=
  Function.update mapWallet outpoint.hash ((mapWallet outpoint.hash).map fun wtx => wtx.markSpent outpoint.n.toNat)

/-- The record of the coin that a key image is of. -/
def ownedRecord (records : AnonRecords) (vchImage : Bytes) : Option OwnedAnonRecord :=
  records.ownedAnonOutputs ((records.oldOutputLinks vchImage).getD vchImage)

def writeOwned (records : AnonRecords) (vchImage : Bytes) (oao : OwnedAnonRecord) : AnonRecords :=
  { records with
    ownedAnonOutputs :=
      Function.update records.ownedAnonOutputs ((records.oldOutputLinks vchImage).getD vchImage) (some oao) }

/-- The coin of the input `i`, where the wallet owns it: it is marked in `mapWallet` and in the wallet's database. -/
def spendOwned (answers : CommitAnswers) (i : Nat) (vchImage : Bytes) (mapWallet : CommitMap)
    (records : AnonRecords) : Bool × CommitMap × AnonRecords :=
  match ownedRecord records vchImage with
  | none => (true, mapWallet, records)
  | some oao =>
      match mapWallet oao.outpoint.hash with
      | none => (false, mapWallet, records)
      | some inTx =>
          if inTx.tx.vout.length ≤ oao.outpoint.n.toNat then (false, mapWallet, records)
          else
            let fSpent := inTx.isSpent oao.outpoint.n.toNat
            let mapWallet := if fSpent then mapWallet else markCoin mapWallet oao.outpoint
            if !fSpent && !answers.writeTx i then (false, mapWallet, records)
            else if !answers.writeOwnedAnonOutput i then (false, mapWallet, records)
            else (true, mapWallet, writeOwned records vchImage { oao with fSpent := true })

section Process

variable {G : Type} [AddCommGroup G] (env : ConnectEnv G) (answers : CommitAnswers) (tx : CTransaction)

/-- The ring of an input, with the value of its coins; `none` when the input is refused. -/
def checkRing (txin : CTxIn) (s : ConnectStore) : Option (Int64 × ConnectStore) :=
  let nRingSize := txin.extractRingSize
  let fVFork1 := env.params.isProtocolVFork1 env.nBestHeight
  if nRingSize < (if fVFork1 then 1 else MIN_RING_SIZE) ∨
      (if fVFork1 then MAX_RING_SIZE else MAX_RING_SIZE_OLD) < nRingSize then none
  else
    match ringSigTypeOf nRingSize txin.scriptSig with
    | none => none
    | some type =>
        env.processRing txin.extractKeyImage nRingSize (ringPubkeys nRingSize txin.scriptSig type) (-1) s
          (List.range nRingSize)

/-- The key image is the one of the input `i` of this transaction. -/
def knownImage (i : Nat) (txin : CTxIn) (s : ConnectStore) : Bool :=
  (s.getKeyImage txin.extractKeyImage).any fun spent => spent.txnHash = env.txHash tx && spent.inputNo = i

/-- The key image is one of a transaction that the node has. -/
def spentImage (txin : CTxIn) (s : ConnectStore) : Bool :=
  (s.getKeyImage txin.extractKeyImage).any fun spent => env.txnHashInSystem s.diskTxIndex spent.txnHash

/-- One turn of the loop of `ProcessAnonTransaction` over the inputs, for a ring input. -/
def processInput (i : Nat) (txin : CTxIn) (mapWallet : CommitMap) (records : AnonRecords) (s : ConnectStore) :
    InputResult :=
  if knownImage env tx i txin s then
    match env.updateAnonTransaction s tx 0 with
    | (ok, s) => .returns ok s
  else if spentImage env txin s then .refused mapWallet
  else
    match spendOwned answers i txin.extractKeyImage mapWallet records with
    | (false, mapWallet, _) => .refused mapWallet
    | (true, mapWallet, records) =>
        match checkRing env txin s with
        | none => .refused mapWallet
        | some (nCoinValue, s) =>
            .next mapWallet records
              (s.insertKeyImage txin.extractKeyImage { txnHash := env.txHash tx, inputNo := i, nValue := nCoinValue })

/-- The loop over the inputs, from the input `i` on, and then the loop over the outputs. -/
def processInputs (i : Nat) (mapWallet : CommitMap) (records : AnonRecords) (s : ConnectStore) :
    List CTxIn → Bool × CommitMap × AnonRecords × ConnectStore
  | [] =>
      match env.processOutputsFrom tx 0 0 s tx.vout with
      | (ok, s) => (ok, mapWallet, if ok then answers.ownedOutputs tx records else records, s)
  | txin :: vin =>
      if !txin.isAnonInput then processInputs (i + 1) mapWallet records s vin
      else
        match processInput env answers tx i txin mapWallet records s with
        | .returns ok s => (ok, mapWallet, records, s)
        | .refused mapWallet => (false, mapWallet, records, s)
        | .next mapWallet records s => processInputs (i + 1) mapWallet records s vin

/-- `ProcessAnonTransaction` with its handles, which are committed or aborted; what it has done to `mapWallet` and to the
memory pool stays. -/
def processAnon (st : CommitNode) : Bool × CommitNode :=
  if tx.nVersion != ANON_TXN_VERSION then (true, st)
  else if !env.fFull then (false, st)
  else
    match processInputs env answers tx 0 st.mapWallet st.records (st.pool.storeWith st.store) tx.vin with
    | (ok, mapWallet, records, s) =>
        (ok,
          { mapWallet
            records := if ok && answers.walletCommits then records else st.records
            store := if ok && answers.txCommits then { s with mapKeyImage := st.store.mapKeyImage } else st.store
            pool := { st.pool with mapKeyImage := s.mapKeyImage } })

end Process

/-! ## The wallet's transactions -/

/-- `WalletUpdateSpent`. -/
def walletUpdateSpent (answers : CommitAnswers) (tx : CTransaction) (mapWallet : CommitMap) :
    List CTxIn → CommitMap
  | [] => mapWallet
  | txin :: vin =>
      if tx.spendsAnon txin then walletUpdateSpent answers tx mapWallet vin
      else
        match mapWallet txin.prevout.hash with
        | none => walletUpdateSpent answers tx mapWallet vin
        | some wtx =>
            match wtx.tx.vout[txin.prevout.n.toNat]? with
            | none => walletUpdateSpent answers tx mapWallet vin
            | some txout =>
                if !wtx.isSpent txin.prevout.n.toNat && answers.isMine txout then
                  walletUpdateSpent answers tx (markCoin mapWallet txin.prevout) vin
                else walletUpdateSpent answers tx mapWallet vin

def addToWallet (answers : CommitAnswers) (tx : CTransaction) (hash : UInt256) (mapWallet : CommitMap) : CommitMap :=
  match mapWallet hash with
  | some _ => walletUpdateSpent answers tx mapWallet tx.vin
  | none =>
      let mapWallet := Function.update mapWallet hash (some { tx, vfSpent := [] })
      if answers.writeToDisk then walletUpdateSpent answers tx mapWallet tx.vin else mapWallet

/-- The loop of `CommitTransaction` over the inputs; `none` when `MarkSpent` throws, as it does for a transaction that
`mapWallet[hash]` adds without outputs. -/
def spendCoins (tx : CTransaction) (mapWallet : CommitMap) : List CTxIn → Option CommitMap
  | [] => some mapWallet
  | txin :: vin =>
      if tx.spendsAnon txin then spendCoins tx mapWallet vin
      else
        match mapWallet txin.prevout.hash with
        | none => none
        | some coin =>
            if coin.tx.vout.length ≤ txin.prevout.n.toNat then none
            else spendCoins tx (markCoin mapWallet txin.prevout) vin

/-- `CommitTransaction`; `none` when an exception leaves it. -/
def commitTransaction {G : Type} [AddCommGroup G] (env : ConnectEnv G) (answers : CommitAnswers) (tx : CTransaction)
    (st : CommitNode) : Option (Bool × CommitNode) :=
  if !tx.checkTransaction then some (false, st)
  else
    match processAnon env answers tx st with
    | (false, st) => some (false, st)
    | (true, st) =>
        match spendCoins tx (addToWallet answers tx (env.txHash tx) st.mapWallet) tx.vin with
        | none => none
        | some mapWallet =>
            match st.pool.acceptToMemoryPool env st.store answers.toAcceptAnswers tx with
            | (ok, pool) => some (ok, { st with mapWallet, pool })

end CommitNode

end ProCurrency

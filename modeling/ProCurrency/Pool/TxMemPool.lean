import ProCurrency.Connect.Inputs
import ProCurrency.Lib.OwnerIndex

/-!
# The memory pool

`CTxMemPool` (txmempool.cpp) and `AcceptToMemoryPool` (main.cpp). An entry of `mapTx` stands at an address that no other
entry has had. `none` as a result is an address that is followed to an erased entry, or recursion deeper than `fuel`.
-/

namespace ProCurrency

/-- `CInPoint`: the address of a transaction of the pool, and the number of an input of it. -/
structure CInPoint where
  ptx : Nat
  n : Nat
  deriving Repr, DecidableEq

structure CTxMemPool where
  nTransactionsUpdated : UInt32
  mapTx : UInt256 → Option Nat
  mapNextTx : COutPoint → Option CInPoint
  mapKeyImage : Bytes → Option CKeyImageSpent
  /-- The entries of `mapTx`. -/
  heap : Nat → Option CTransaction
  nextAddress : Nat

structure PoolEnv where
  txHash : CTransaction → UInt256
  /-- What is read of a transaction through a reference to the entry that `mapTx.erase` has taken away. -/
  freed : CTransaction → CTransaction

/-- The outputs that the inputs name, those of ring coins too. -/
def CTransaction.outPoints (tx : CTransaction) : List COutPoint := tx.vin.map CTxIn.prevout

namespace CTxMemPool

def empty : CTxMemPool where
  nTransactionsUpdated := 0
  mapTx _ := none
  mapNextTx _ := none
  mapKeyImage _ := none
  heap _ := none
  nextAddress := 0

def lookup (pool : CTxMemPool) (hash : UInt256) : Option CTransaction := (pool.mapTx hash).bind pool.heap

def hasTx (pool : CTxMemPool) (hash : UInt256) : Bool := (pool.mapTx hash).isSome

def insertKeyImage (pool : CTxMemPool) (vchImage : Bytes) (kis : CKeyImageSpent) : CTxMemPool :=
  { pool with mapKeyImage := Function.update pool.mapKeyImage vchImage (some kis) }

/-! ## Adding -/

def addUnchecked (pool : CTxMemPool) (hash : UInt256) (tx : CTransaction) : CTxMemPool :=
  let ptx := (pool.mapTx hash).getD pool.nextAddress
  { pool with
    nTransactionsUpdated := pool.nTransactionsUpdated + 1
    mapTx := Function.update pool.mapTx hash (some ptx)
    mapNextTx := OwnerIndex.addFrom CInPoint.mk ptx 0 pool.mapNextTx tx.outPoints
    heap := Function.update pool.heap ptx (some tx)
    nextAddress := if pool.hasTx hash then pool.nextAddress else pool.nextAddress + 1 }

/-! ## Removing -/

/-- The key images of the ring inputs. -/
def eraseKeyImages (mapKeyImage : Bytes → Option CKeyImageSpent) : List CTxIn → Bytes → Option CKeyImageSpent
  | [] => mapKeyImage
  | txin :: vin =>
      if !txin.isAnonInput then eraseKeyImages mapKeyImage vin
      else eraseKeyImages (Function.update mapKeyImage txin.extractKeyImage none) vin

/-- The end of `remove`. From `mapTx.erase` on, `txRead` is what is read as `tx`. -/
def eraseTx (pool : CTxMemPool) (hash : UInt256) (tx txRead : CTransaction) : CTxMemPool :=
  { pool with
    nTransactionsUpdated := pool.nTransactionsUpdated + 1
    mapTx := Function.update pool.mapTx hash none
    mapNextTx := OwnerIndex.eraseAll pool.mapNextTx tx.outPoints
    mapKeyImage :=
      if txRead.nVersion == ANON_TXN_VERSION then eraseKeyImages pool.mapKeyImage txRead.vin
      else pool.mapKeyImage
    heap := match pool.mapTx hash with
      | none => pool.heap
      | some ptx => Function.update pool.heap ptx none }

/-- The loop of `remove` over the outputs. -/
def removeSpenders (remove : CTxMemPool → CTransaction → Option CTxMemPool) (hash : UInt256) (pool : CTxMemPool) :
    List Nat → Option CTxMemPool
  | [] => some pool
  | i :: is =>
      match pool.mapNextTx { hash, n := UInt32.ofNat i } with
      | none => removeSpenders remove hash pool is
      | some it =>
          match pool.heap it.ptx with
          | none => none
          | some tx =>
              match remove pool tx with
              | none => none
              | some pool => removeSpenders remove hash pool is

/-- `remove`; `fEntry` is set when `tx` is a reference to an entry of the pool. -/
def remove (env : PoolEnv) : Nat → CTxMemPool → CTransaction → Bool → Bool → Option CTxMemPool
  | 0, _, _, _, _ => none
  | fuel + 1, pool, tx, fRecursive, fEntry =>
      let hash := env.txHash tx
      if !pool.hasTx hash then some pool
      else
        match
          if fRecursive then
            removeSpenders (fun pool tx => remove env fuel pool tx true true) hash pool (List.range tx.vout.length)
          else some pool
        with
        | none => none
        | some pool => some (pool.eraseTx hash tx (if fEntry then env.freed tx else tx))

/-- The loop of `removeConflicts`. -/
def removeConflictsFrom (env : PoolEnv) (fuel : Nat) (tx : CTransaction) (pool : CTxMemPool) :
    List CTxIn → Option CTxMemPool
  | [] => some pool
  | txin :: vin =>
      match pool.mapNextTx txin.prevout with
      | none => removeConflictsFrom env fuel tx pool vin
      | some it =>
          match pool.heap it.ptx with
          | none => none
          | some txConflict =>
              if txConflict = tx then removeConflictsFrom env fuel tx pool vin
              else
                match pool.remove env fuel txConflict true true with
                | none => none
                | some pool => removeConflictsFrom env fuel tx pool vin

def removeConflicts (env : PoolEnv) (fuel : Nat) (pool : CTxMemPool) (tx : CTransaction) : Option CTxMemPool :=
  removeConflictsFrom env fuel tx pool tx.vin

def clear (pool : CTxMemPool) : CTxMemPool :=
  { pool with
    nTransactionsUpdated := pool.nTransactionsUpdated + 1
    mapTx := fun _ => none
    mapNextTx := fun _ => none
    mapKeyImage := fun _ => none
    heap := fun _ => none }

end CTxMemPool

/-! ## Accepting -/

/-- What `AcceptToMemoryPool` asks besides: `IsStandard`; `FetchInputs` and `AreInputsStandard`; the fee, the rate
limiter and `ConnectInputs`. -/
structure AcceptAnswers where
  isStandard : Bool
  fetches : Bool
  connects : Bool

namespace CTxMemPool

variable {G : Type}

/-- The node, which looks transactions up in this pool. -/
def nodeWith (pool : CTxMemPool) (env : ConnectEnv G) : ConnectEnv G := { env with mempoolTx := pool.lookup }

/-- The store, beside the key images of this pool. -/
def storeWith (pool : CTxMemPool) (s : ConnectStore) : ConnectStore := { s with mapKeyImage := pool.mapKeyImage }

variable [AddCommGroup G]

/-- The checks of `AcceptToMemoryPool`, at the store `s`. -/
def accepts (env : ConnectEnv G) (s : ConnectStore) (answers : AcceptAnswers) (pool : CTxMemPool)
    (tx : CTransaction) : Bool :=
  if !tx.checkTransaction then false
  else if tx.isCoinBase then false
  else if tx.isCoinStake then false
  else if !answers.isStandard then false
  else if pool.hasTx (env.txHash tx) then false
  else if tx.vin.any fun txin => (pool.mapNextTx txin.prevout).isSome then false
  else if (s.txIndex (env.txHash tx)).isSome then false
  else if !env.fFull then true
  else if !answers.fetches then false
  else if tx.nVersion == ANON_TXN_VERSION &&
      !((pool.nodeWith env).checkAnonInputs (pool.storeWith s) true tx).1 then false
  else answers.connects

def acceptToMemoryPool (env : ConnectEnv G) (s : ConnectStore) (answers : AcceptAnswers) (pool : CTxMemPool)
    (tx : CTransaction) : Bool × CTxMemPool :=
  if pool.accepts env s answers tx then (true, pool.addUnchecked (env.txHash tx) tx) else (false, pool)

end CTxMemPool

end ProCurrency

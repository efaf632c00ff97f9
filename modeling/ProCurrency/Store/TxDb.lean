import ProCurrency.Lib.Overlay

/-!
# The transaction database handle

`CTxDB` (txdb-leveldb.h, txdb-leveldb.cpp): one handle over the LevelDB store, with the batch of changes
that waits between `TxnBegin` and `TxnCommit`. Keys and values are their serialized bytes. `none` as the
result of an operation is a failed assertion.
-/

namespace ProCurrency

abbrev Bytes := List UInt8

/-! ## The store -/

/-- `leveldb::Status`. -/
inductive Status where
  | ok
  | notFound
  | ioError
  deriving Repr, DecidableEq

/-- `leveldb::DB`: the content on disk, and the keys whose read ends in an I/O error. -/
structure DB where
  content : Bytes → Option Bytes
  unreadable : Bytes → Bool

/-- `leveldb::WriteBatch`: puts and deletes in the order they were added. -/
abbrev WriteBatch := List (Overlay.Change Bytes Bytes)

namespace DB

/-- `DB::Get`. The value is meaningful for `Status.ok` only. -/
def get (pdb : DB) (key : Bytes) : Status × Bytes :=
  if pdb.unreadable key then (.ioError, [])
  else match pdb.content key with
    | some value => (.ok, value)
    | none => (.notFound, [])

/-- `DB::Write`, atomic; `DB::Put` and `DB::Delete` write a batch of one change. -/
def write (pdb : DB) (batch : WriteBatch) (fFail : Bool) : Status × DB :=
  if fFail then (.ioError, pdb)
  else (.ok, { pdb with content := Overlay.applyAll pdb.content batch })

end DB

/-! ## The handle -/

structure CTxDB where
  pdb : DB
  activeBatch : Option WriteBatch
  fReadOnly : Bool

/-- The handler that `ScanBatch` runs over the batch. -/
structure CBatchScanner where
  needle : Bytes
  deleted : Bool
  foundValue : Bytes
  foundEntry : Bool

def CBatchScanner.handle (s : CBatchScanner) : Overlay.Change Bytes Bytes → CBatchScanner
  | .put key value =>
      if key = s.needle then { s with foundEntry := true, deleted := false, foundValue := value } else s
  | .del key =>
      if key = s.needle then { s with foundEntry := true, deleted := true } else s

namespace CTxDB

/-- `ScanBatch`: `*deleted` starts as false, `*value` keeps what it held. -/
def scanBatch (batch : WriteBatch) (key value : Bytes) : CBatchScanner :=
  batch.foldl CBatchScanner.handle
    { needle := key, deleted := false, foundValue := value, foundEntry := false }

/-- The part of `Read` that goes to the disk. -/
def readFromDb {T : Type} (unserialize : Bytes → Option T) (db : CTxDB) (key : Bytes) : Option T :=
  match db.pdb.get key with
  | (.ok, strValue) => unserialize strValue
  | (.notFound, _) => none
  | (.ioError, _) => none

def read {T : Type} (unserialize : Bytes → Option T) (db : CTxDB) (key : Bytes) : Option T :=
  match db.activeBatch with
  | none => readFromDb unserialize db key
  | some batch =>
      let scanner := scanBatch batch key []
      if scanner.deleted then none
      else if scanner.foundEntry then unserialize scanner.foundValue
      else readFromDb unserialize db key

/-- `Exists`. A pending delete does not end the search: the disk is asked all the same. -/
def exists_ (db : CTxDB) (key : Bytes) : Bool :=
  let inBatch := match db.activeBatch with
    | none => false
    | some batch =>
        let scanner := scanBatch batch key []
        scanner.foundEntry && !scanner.deleted
  if inBatch then true
  else (db.pdb.get key).1 != .notFound

/-- A single change, to the batch if there is one and to the disk otherwise. -/
def change (db : CTxDB) (c : Overlay.Change Bytes Bytes) (fFail : Bool) : Option (Bool × CTxDB) :=
  if db.fReadOnly then none
  else match db.activeBatch with
    | some batch => some (true, { db with activeBatch := some (batch ++ [c]) })
    | none =>
        match db.pdb.write [c] fFail with
        | (status, pdb) => some (status == .ok, { db with pdb })

def write (db : CTxDB) (key value : Bytes) (fFail : Bool) : Option (Bool × CTxDB) :=
  db.change (.put key value) fFail

def erase (db : CTxDB) (key : Bytes) (fFail : Bool) : Option (Bool × CTxDB) :=
  db.change (.del key) fFail

def txnBegin (db : CTxDB) : Option (Bool × CTxDB) :=
  match db.activeBatch with
  | some _ => none
  | none => some (true, { db with activeBatch := some [] })

def txnCommit (db : CTxDB) (fFail : Bool) : Option (Bool × CTxDB) :=
  match db.activeBatch with
  | none => none
  | some batch =>
      match db.pdb.write batch fFail with
      | (status, pdb) => some (status == .ok, { db with pdb, activeBatch := none })

def txnAbort (db : CTxDB) : Option (Bool × CTxDB) :=
  some (true, { db with activeBatch := none })

end CTxDB

/-! ## Runs of one handle -/

/-- One call on the handle. `fFail` says whether the disk write of that call fails. -/
inductive TxDbCall where
  | write (key value : Bytes) (fFail : Bool)
  | erase (key : Bytes) (fFail : Bool)
  | txnBegin
  | txnCommit (fFail : Bool)
  | txnAbort

namespace CTxDB

def step (db : CTxDB) : TxDbCall → Option (Bool × CTxDB)
  | .write key value fFail => db.write key value fFail
  | .erase key fFail => db.erase key fFail
  | .txnBegin => db.txnBegin
  | .txnCommit fFail => db.txnCommit fFail
  | .txnAbort => db.txnAbort

def run (db : CTxDB) : List TxDbCall → Option CTxDB
  | [] => some db
  | call :: calls =>
      match db.step call with
      | none => none
      | some (_, db') => run db' calls

end CTxDB

/-! ## The plain map the handle stands for -/

/-- A committed map and, inside a transaction, the map that replaces it on commit. -/
structure MapTxn where
  committed : Bytes → Option Bytes
  pending : Option (Bytes → Option Bytes)

namespace MapTxn

/-- What a reader inside the transaction sees. -/
def view (m : MapTxn) : Bytes → Option Bytes := m.pending.getD m.committed

def change (m : MapTxn) (c : Overlay.Change Bytes Bytes) (fFail : Bool) : MapTxn :=
  match m.pending with
  | some p => { m with pending := some (c.apply p) }
  | none => if fFail then m else { m with committed := c.apply m.committed }

def step (m : MapTxn) : TxDbCall → MapTxn
  | .write key value fFail => m.change (.put key value) fFail
  | .erase key fFail => m.change (.del key) fFail
  | .txnBegin => { m with pending := some m.committed }
  | .txnCommit fFail => { committed := if fFail then m.committed else m.view, pending := none }
  | .txnAbort => { m with pending := none }

def run (m : MapTxn) (calls : List TxDbCall) : MapTxn := calls.foldl step m

end MapTxn

/-- The plain map of a handle: its batch laid over the content on disk. -/
def CTxDB.toMap (db : CTxDB) : MapTxn where
  committed := db.pdb.content
  pending := db.activeBatch.map (Overlay.applyAll db.pdb.content)

end ProCurrency

import ProCurrency.Base.PubKey
import ProCurrency.Codec.Serialize
import ProCurrency.Store.Theorems

/-!
# The database of the secure messages

`SecMsgDB` (smessage.h, smessage.cpp), after `Open`. `SecMsgBatchScanner` and the way the lookups put the batch over the
disk are those of `CTxDB`.
-/

namespace ProCurrency

open ByteCodec Overlay

/-! ## Keys and values -/

/-- `'p'`, `'k'` and the address. -/
def pkKey (addr : BitVec 160) : Bytes := [112, 107] ++ leBytes 20 addr.toNat

/-- The 18 bytes at `chKey`. -/
abbrev SmesgKey := { chKey : Bytes // chKey.length = 18 }

/-- `CPubKey::Serialize`. -/
def serializePubKey (pubkey : CPubKey) : Bytes := writeCompactSize pubkey.length ++ pubkey

/-- `CPubKey::Unserialize` into the array `vch`, whose other bytes stay. -/
def unserializePubKey (vch strValue : Bytes) : Option Bytes :=
  match readCompactSize strValue with
  | none => none
  | some (len, s) =>
      if s.length < len then none
      else if len ≤ 65 then some (s.take len ++ vch.drop len)
      else some (vch.set 0 0xff)

/-- `SecMsgStored`, with all of its fields. -/
structure StoredSmesg where
  timeReceived : Int
  status : UInt8
  folderId : UInt16
  sAddrTo : Bytes
  sAddrOutbox : Bytes
  vchMessage : Bytes

namespace StoredSmesg

def serialize (smsg : StoredSmesg) : Bytes :=
  leInt 8 smsg.timeReceived ++ (writeUChar smsg.status ++ (leBytes 2 smsg.folderId.toNat ++
    (writeVector writeUChar smsg.sAddrTo ++ (writeVector writeUChar smsg.sAddrOutbox ++
      writeVector writeUChar smsg.vchMessage))))

def unserialize (strValue : Bytes) : Option StoredSmesg := do
  let (timeReceived, s) ← readLeInt 8 strValue
  let (status, s) ← readUChar s
  let (folderId, s) ← readLe 2 s
  let (sAddrTo, s) ← readVector readUChar s
  let (sAddrOutbox, s) ← readVector readUChar s
  let (vchMessage, _) ← readVector readUChar s
  some { timeReceived, status, folderId := UInt16.ofNat folderId, sAddrTo, sAddrOutbox, vchMessage }

end StoredSmesg

/-! ## The handle -/

structure SecMsgDB where
  pdb : DB
  activeBatch : Option WriteBatch := none

namespace SecMsgDB

/-- As far as the lookups go. -/
def toTxDb (db : SecMsgDB) : CTxDB := { pdb := db.pdb, activeBatch := db.activeBatch, fReadOnly := false }

def readPK (db : SecMsgDB) (addr : BitVec 160) (pubkey : Bytes) : Option Bytes :=
  db.toTxDb.read (unserializePubKey pubkey) (pkKey addr)

def readSmesg (db : SecMsgDB) (chKey : SmesgKey) : Option StoredSmesg := db.toTxDb.read StoredSmesg.unserialize chKey

def existsPK (db : SecMsgDB) (addr : BitVec 160) : Bool := db.toTxDb.exists_ (pkKey addr)

def existsSmesg (db : SecMsgDB) (chKey : SmesgKey) : Bool := db.toTxDb.exists_ chKey

/-- A single change, to the batch if there is one and to the disk otherwise. `Delete` of a key that is not there is
`ok`. -/
def change (db : SecMsgDB) (c : Change Bytes Bytes) (fFail : Bool) : Bool × SecMsgDB :=
  match db.activeBatch with
  | some batch => (true, { db with activeBatch := some (batch ++ [c]) })
  | none =>
      let (status, pdb) := db.pdb.write [c] fFail
      (status == .ok, { db with pdb })

def writePK (db : SecMsgDB) (addr : BitVec 160) (pubkey : CPubKey) (fFail : Bool) : Bool × SecMsgDB :=
  db.change (.put (pkKey addr) (serializePubKey pubkey)) fFail

def writeSmesg (db : SecMsgDB) (chKey : SmesgKey) (smsg : StoredSmesg) (fFail : Bool) : Bool × SecMsgDB :=
  db.change (.put chKey smsg.serialize) fFail

def eraseSmesg (db : SecMsgDB) (chKey : SmesgKey) (fFail : Bool) : Bool × SecMsgDB := db.change (.del chKey) fFail

def txnBegin (db : SecMsgDB) : Bool × SecMsgDB :=
  match db.activeBatch with
  | some _ => (true, db)
  | none => (true, { db with activeBatch := some [] })

def txnCommit (db : SecMsgDB) (fFail : Bool) : Bool × SecMsgDB :=
  match db.activeBatch with
  | none => (false, db)
  | some batch =>
      let (status, pdb) := db.pdb.write batch fFail
      (status == .ok, { pdb, activeBatch := none })

def txnAbort (db : SecMsgDB) : Bool × SecMsgDB := (true, { db with activeBatch := none })

end SecMsgDB

/-! ## Runs -/

/-- One call on the handle. `fFail` says whether the disk write of that call fails. -/
inductive SmsgDbCall
  | writePK (addr : BitVec 160) (pubkey : CPubKey) (fFail : Bool)
  | writeSmesg (chKey : SmesgKey) (smsg : StoredSmesg) (fFail : Bool)
  | eraseSmesg (chKey : SmesgKey) (fFail : Bool)
  | txnBegin
  | txnCommit (fFail : Bool)
  | txnAbort

namespace SecMsgDB

def step (db : SecMsgDB) : SmsgDbCall → Bool × SecMsgDB
  | .writePK addr pubkey fFail => db.writePK addr pubkey fFail
  | .writeSmesg chKey smsg fFail => db.writeSmesg chKey smsg fFail
  | .eraseSmesg chKey fFail => db.eraseSmesg chKey fFail
  | .txnBegin => db.txnBegin
  | .txnCommit fFail => db.txnCommit fFail
  | .txnAbort => db.txnAbort

def run (db : SecMsgDB) (calls : List SmsgDbCall) : SecMsgDB := calls.foldl (fun db call => (db.step call).2) db

end SecMsgDB

/-- What a call does to the plain map. -/
def MapTxn.smsgStep (m : MapTxn) : SmsgDbCall → MapTxn
  | .writePK addr pubkey fFail => m.change (.put (pkKey addr) (serializePubKey pubkey)) fFail
  | .writeSmesg chKey smsg fFail => m.change (.put chKey smsg.serialize) fFail
  | .eraseSmesg chKey fFail => m.change (.del chKey) fFail
  | .txnBegin => { m with pending := some m.view }
  | .txnCommit fFail => { committed := if fFail then m.committed else m.view, pending := none }
  | .txnAbort => { m with pending := none }

def MapTxn.smsgRun (m : MapTxn) (calls : List SmsgDbCall) : MapTxn := calls.foldl smsgStep m

/-! ## The plain map of a handle -/

namespace SecMsgDB

def toMap (db : SecMsgDB) : MapTxn := db.toTxDb.toMap

theorem toMap_change (db : SecMsgDB) (c : Change Bytes Bytes) (fFail : Bool) :
    (db.change c fFail).2.toMap = db.toMap.change c fFail := by
  obtain ⟨pdb, activeBatch⟩ := db
  have hchange : (CTxDB.mk pdb activeBatch false).change c fFail =
      some ((change ⟨pdb, activeBatch⟩ c fFail).1, (change ⟨pdb, activeBatch⟩ c fFail).2.toTxDb) := by
    cases activeBatch <;> rfl
  exact CTxDB.toMap_change hchange

theorem toMap_step (db : SecMsgDB) (call : SmsgDbCall) : (db.step call).2.toMap = db.toMap.smsgStep call := by
  cases call with
  | writePK addr pubkey fFail => exact db.toMap_change _ fFail
  | writeSmesg chKey smsg fFail => exact db.toMap_change _ fFail
  | eraseSmesg chKey fFail => exact db.toMap_change _ fFail
  | txnAbort => rfl
  | txnBegin =>
      obtain ⟨pdb, activeBatch⟩ := db
      cases activeBatch <;> rfl
  | txnCommit fFail =>
      obtain ⟨pdb, activeBatch⟩ := db
      cases activeBatch with
      | none => cases fFail <;> rfl
      | some batch => cases fFail <;> rfl

theorem toMap_run (db : SecMsgDB) (calls : List SmsgDbCall) : (db.run calls).toMap = db.toMap.smsgRun calls := by
  induction calls generalizing db with
  | nil => rfl
  | cons call calls ih =>
      rw [run, List.foldl_cons, ← run, ih, toMap_step]
      rfl

end SecMsgDB

/-! ## The two lookups of a key -/

/-- A key is read, and found to exist, as its value says. -/
structure AnswersAs {T : Type} (unserialize : Bytes → Option T) (value : Option Bytes) (read : Option T)
    (found : Bool) : Prop where
  read_eq : read = value.bind unserialize
  found_iff : found = true ↔ value.isSome = true
  agree : found = true ↔ read.isSome = true

/-- No lookup is misled: an erased key is absent on disk as well, an untouched key can be read, and what a key holds is
a value. -/
def CTxDB.LookupSound {T : Type} (unserialize : Bytes → Option T) (db : CTxDB) (key : Bytes) : Prop :=
  db.ExistsSound key ∧ ∀ value, db.toMap.view key = some value → (unserialize value).isSome = true

theorem CTxDB.answersAs_iff {T : Type} (unserialize : Bytes → Option T) (db : CTxDB) (key : Bytes) :
    AnswersAs unserialize (db.toMap.view key) (db.read unserialize key) (db.exists_ key) ↔
      db.LookupSound unserialize key := by
  constructor
  · rintro ⟨hread, hfound, hagree⟩
    have hdecodes : ∀ value, db.toMap.view key = some value → (unserialize value).isSome = true := by
      intro value hvalue
      rw [hread, hvalue] at hagree
      rw [hvalue] at hfound
      exact hagree.1 (hfound.2 rfl)
    refine ⟨?_, hdecodes⟩
    rw [view_toMap, exists_eq] at hfound
    rw [read_eq, exists_eq] at hagree
    rw [ExistsSound]
    cases hpending : db.pendingOn key with
    | some o =>
        cases o with
        | some value => trivial
        | none => simpa [hpending, get_notFound_iff] using hfound
    | none =>
        -- An unreadable key looks present to one lookup and absent to the other.
        rw [hpending] at hagree
        by_contra hunreadable
        have hunreadable : db.pdb.unreadable key = true := by simpa using hunreadable
        simp [readFromDb_eq, hunreadable, DB.get] at hagree
  · rintro ⟨hsound, hvalue⟩
    have hacts := actsAs_of_existsSound hsound
    exact ⟨hacts.read T unserialize, hacts.exists_, hacts.existsRead T unserialize hvalue⟩

/-- In any run, from any content of the disk, a key is answered for as the plain map has it exactly when no lookup of it
is misled. -/
theorem secMsgDb_answersAs_iff (pdb : DB) (calls : List SmsgDbCall) :
    let db := SecMsgDB.run { pdb } calls
    let m := MapTxn.smsgRun { committed := pdb.content, pending := none } calls
    (∀ addr pubkey, AnswersAs (unserializePubKey pubkey) (m.view (pkKey addr)) (db.readPK addr pubkey)
      (db.existsPK addr) ↔ db.toTxDb.LookupSound (unserializePubKey pubkey) (pkKey addr)) ∧
      ∀ chKey : SmesgKey, AnswersAs StoredSmesg.unserialize (m.view chKey) (db.readSmesg chKey) (db.existsSmesg chKey) ↔
        db.toTxDb.LookupSound StoredSmesg.unserialize chKey := by
  intro db m
  have hmap : m = db.toTxDb.toMap := (SecMsgDB.toMap_run { pdb } calls).symm
  rw [hmap]
  exact ⟨fun addr pubkey => db.toTxDb.answersAs_iff _ _, fun chKey => db.toTxDb.answersAs_iff _ _⟩

theorem erasedSmesg_exists : ¬ ∀ (pdb : DB) (calls : List SmsgDbCall) (chKey : SmesgKey),
    (MapTxn.smsgRun { committed := pdb.content, pending := none } calls).view chKey = none →
      (SecMsgDB.run { pdb } calls).existsSmesg chKey = false := by
  intro h
  let chKey : SmesgKey := ⟨List.replicate 18 1, rfl⟩
  let pdb : DB := { content := fun _ => some [], unreadable := fun _ => false }
  exact absurd (h pdb [.txnBegin, .eraseSmesg chKey false] chKey rfl) (by decide)

end ProCurrency

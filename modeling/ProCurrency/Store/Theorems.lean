import ProCurrency.Store.TxDb

/-!
# The handle follows the plain map

The scanner reports the last pending change to a key. From this, each read path is described by that
change and by the disk, and each call on the handle is the same call on its plain map.
-/

namespace ProCurrency

open Overlay

/-! ## The scanner -/

/-- The scanner has seen exactly the last change `o`. -/
def CBatchScanner.Saw (s : CBatchScanner) : Option (Option Bytes) → Prop
  | none => s.foundEntry = false ∧ s.deleted = false
  | some none => s.foundEntry = true ∧ s.deleted = true
  | some (some value) => s.foundEntry = true ∧ s.deleted = false ∧ s.foundValue = value

@[simp] theorem CBatchScanner.handle_needle (s : CBatchScanner) (c : Change Bytes Bytes) :
    (s.handle c).needle = s.needle := by
  cases c <;> simp only [handle] <;> split <;> rfl

theorem CBatchScanner.Saw.handle {s : CBatchScanner} {o : Option (Option Bytes)} (h : s.Saw o)
    (c : Change Bytes Bytes) : (s.handle c).Saw ((c.effect s.needle).or o) := by
  cases c with
  | put key value =>
      by_cases hk : key = s.needle
      · simp [CBatchScanner.handle, Change.effect, hk, Saw]
      · simpa [CBatchScanner.handle, Change.effect, hk, Ne.symm hk] using h
  | del key =>
      by_cases hk : key = s.needle
      · simp [CBatchScanner.handle, Change.effect, hk, Saw]
      · simpa [CBatchScanner.handle, Change.effect, hk, Ne.symm hk] using h

theorem CBatchScanner.Saw.foldl {batch : WriteBatch} {s : CBatchScanner} {o : Option (Option Bytes)}
    (h : s.Saw o) : (batch.foldl CBatchScanner.handle s).Saw ((lastOn s.needle batch).or o) := by
  induction batch generalizing s o with
  | nil => simpa [lastOn] using h
  | cons c batch ih =>
      have hc := ih (h.handle c)
      rwa [handle_needle, ← Option.or_assoc] at hc

namespace CTxDB

theorem scanBatch_saw (batch : WriteBatch) (key value : Bytes) :
    (scanBatch batch key value).Saw (lastOn key batch) := by
  have hstart : CBatchScanner.Saw
      { needle := key, deleted := false, foundValue := value, foundEntry := false } none := ⟨rfl, rfl⟩
  have hsaw : (scanBatch batch key value).Saw ((lastOn key batch).or none) := hstart.foldl
  rwa [Option.or_none] at hsaw

/-! ## The read paths -/

/-- The last pending change to `key`, `none` as well when no transaction is open. -/
def pendingOn (db : CTxDB) (key : Bytes) : Option (Option Bytes) :=
  db.activeBatch.bind (lastOn key)

theorem read_eq {T : Type} (unserialize : Bytes → Option T) (db : CTxDB) (key : Bytes) :
    db.read unserialize key = match db.pendingOn key with
      | none => db.readFromDb unserialize key
      | some o => o.bind unserialize := by
  cases hb : db.activeBatch with
  | none => simp [read, pendingOn, hb]
  | some batch =>
      have hsaw := scanBatch_saw batch key []
      simp only [read, pendingOn, hb, Option.bind_some]
      cases ho : lastOn key batch with
      | none => rw [ho] at hsaw; simp [hsaw.1, hsaw.2]
      | some o =>
          rw [ho] at hsaw
          cases o with
          | none => simp [hsaw.2]
          | some value => simp [hsaw.1, hsaw.2.1, hsaw.2.2]

theorem exists_eq (db : CTxDB) (key : Bytes) :
    db.exists_ key = match db.pendingOn key with
      | some (some _) => true
      | _ => (db.pdb.get key).1 != .notFound := by
  cases hb : db.activeBatch with
  | none => simp [exists_, pendingOn, hb]
  | some batch =>
      have hsaw := scanBatch_saw batch key []
      simp only [exists_, pendingOn, hb, Option.bind_some]
      cases ho : lastOn key batch with
      | none => rw [ho] at hsaw; simp [hsaw.1]
      | some o =>
          rw [ho] at hsaw
          cases o with
          | none => simp [hsaw.2]
          | some value => simp [hsaw.1, hsaw.2.1]

theorem readFromDb_eq {T : Type} (unserialize : Bytes → Option T) (db : CTxDB) (key : Bytes) :
    db.readFromDb unserialize key =
      if db.pdb.unreadable key then none else (db.pdb.content key).bind unserialize := by
  cases hu : db.pdb.unreadable key with
  | true => simp [readFromDb, DB.get, hu]
  | false => cases hc : db.pdb.content key <;> simp [readFromDb, DB.get, hu, hc]

theorem get_notFound_iff (pdb : DB) (key : Bytes) :
    (pdb.get key).1 = .notFound ↔ pdb.unreadable key = false ∧ pdb.content key = none := by
  cases hu : pdb.unreadable key with
  | true => simp [DB.get, hu]
  | false => cases hc : pdb.content key <;> simp [DB.get, hu, hc]

/-- The map that a reader should see. -/
theorem view_toMap (db : CTxDB) (key : Bytes) :
    db.toMap.view key = (db.pendingOn key).getD (db.pdb.content key) := by
  cases hb : db.activeBatch with
  | none => simp [toMap, MapTxn.view, pendingOn, hb]
  | some batch => simp [toMap, MapTxn.view, pendingOn, hb, applyAll_eq]

/-! ## One call, and a run -/

theorem toMap_change {db db' : CTxDB} {c : Change Bytes Bytes} {fFail ok : Bool}
    (h : db.change c fFail = some (ok, db')) : db'.toMap = db.toMap.change c fFail := by
  obtain ⟨pdb, activeBatch, fReadOnly⟩ := db
  cases fReadOnly with
  | true => simp [change] at h
  | false =>
      cases activeBatch with
      | some batch =>
          simp only [change, Bool.false_eq_true, ↓reduceIte, Option.some.injEq, Prod.mk.injEq] at h
          obtain ⟨-, rfl⟩ := h
          simp [toMap, MapTxn.change]
      | none =>
          cases fFail <;> simp [change, DB.write] at h <;> obtain ⟨-, rfl⟩ := h <;>
            simp [toMap, MapTxn.change]

theorem toMap_step {db db' : CTxDB} {call : TxDbCall} {ok : Bool}
    (h : db.step call = some (ok, db')) : db'.toMap = db.toMap.step call := by
  cases call with
  | write key value fFail => exact toMap_change h
  | erase key fFail => exact toMap_change h
  | txnBegin =>
      cases hb : db.activeBatch with
      | some batch => simp [step, txnBegin, hb] at h
      | none =>
          simp only [step, txnBegin, hb, Option.some.injEq, Prod.mk.injEq] at h
          obtain ⟨-, rfl⟩ := h
          simp [toMap, MapTxn.step, hb]
  | txnCommit fFail =>
      cases hb : db.activeBatch with
      | none => simp [step, txnCommit, hb] at h
      | some batch =>
          cases fFail <;> simp [step, txnCommit, hb, DB.write] at h <;> obtain ⟨-, rfl⟩ := h <;>
            simp [toMap, MapTxn.step, MapTxn.view, hb]
  | txnAbort =>
      simp only [step, txnAbort, Option.some.injEq, Prod.mk.injEq] at h
      obtain ⟨-, rfl⟩ := h
      rfl

/-- The handle refines the plain map along every run that no assertion stops. -/
theorem toMap_run {calls : List TxDbCall} {db db' : CTxDB} (h : db.run calls = some db') :
    db'.toMap = db.toMap.run calls := by
  induction calls generalizing db with
  | nil =>
      simp only [run, Option.some.injEq] at h
      rw [h]; rfl
  | cons call calls ih =>
      simp only [run] at h
      cases hs : db.step call with
      | none => simp [hs] at h
      | some r =>
          obtain ⟨ok, db₁⟩ := r
          rw [hs] at h
          rw [ih h, toMap_step hs]
          rfl

end CTxDB

end ProCurrency

/-!
## Reads inside a database transaction

`Read` answers as the plain map does, and commit and abort do to the disk what they should. `Exists` does
not: a key that the open transaction has erased is still looked up on disk.
-/

namespace ProCurrency

/-- The handle answers for `key` as the plain map `m` does, and ends its transaction as `m` does. -/
structure CTxDB.ActsAs (db : CTxDB) (m : MapTxn) (key : Bytes) : Prop where
  read : ∀ (T : Type) (unserialize : Bytes → Option T),
    db.read unserialize key = (m.view key).bind unserialize
  exists_ : db.exists_ key = true ↔ (m.view key).isSome
  existsRead : ∀ (T : Type) (unserialize : Bytes → Option T),
    (∀ value, m.view key = some value → (unserialize value).isSome) →
    (db.exists_ key = true ↔ (db.read unserialize key).isSome)
  commit : ∀ fFail ok db', db.txnCommit fFail = some (ok, db') →
    db'.pdb.content = if ok then m.view else m.committed
  abort : ∀ db', db.txnAbort = some (true, db') → db'.pdb.content = m.committed

/-- No lookup of `key` is misled: an erased key is absent on disk as well, and a key that the
transaction does not touch can be read. -/
def CTxDB.ExistsSound (db : CTxDB) (key : Bytes) : Prop :=
  match db.pendingOn key with
  | some (some _) => True
  | some none => db.pdb.unreadable key = false ∧ db.pdb.content key = none
  | none => db.pdb.unreadable key = false

namespace CTxDB

theorem read_toMap {T : Type} (unserialize : Bytes → Option T) {db : CTxDB} {key : Bytes}
    (h : db.ExistsSound key) : db.read unserialize key = (db.toMap.view key).bind unserialize := by
  rw [read_eq, view_toMap]
  cases hp : db.pendingOn key with
  | some o => rfl
  | none =>
      simp only [ExistsSound, hp] at h
      simp [readFromDb_eq, h]

theorem exists_toMap {db : CTxDB} {key : Bytes} (h : db.ExistsSound key) :
    db.exists_ key = true ↔ (db.toMap.view key).isSome := by
  rw [exists_eq, view_toMap]
  cases hp : db.pendingOn key with
  | none =>
      simp only [ExistsSound, hp] at h
      simp [get_notFound_iff, h, Option.isSome_iff_ne_none]
  | some o =>
      simp only [ExistsSound, hp] at h
      cases o with
      | none => simp [get_notFound_iff, h]
      | some value => simp

theorem txnCommit_content {db db' : CTxDB} {fFail ok : Bool}
    (h : db.txnCommit fFail = some (ok, db')) :
    db'.pdb.content = if ok then db.toMap.view else db.toMap.committed := by
  have hstep : db'.toMap = db.toMap.step (.txnCommit fFail) := toMap_step h
  have hok : ok = !fFail := by
    cases hb : db.activeBatch with
    | none => simp [txnCommit, hb] at h
    | some batch => cases fFail <;> simp [txnCommit, hb, DB.write] at h <;> simp [← h.1]
  cases fFail <;> rw [hok] <;> exact congrArg MapTxn.committed hstep

theorem txnAbort_content {db db' : CTxDB} (h : db.txnAbort = some (true, db')) :
    db'.pdb.content = db.toMap.committed := by
  have hstep : db'.toMap = db.toMap.step .txnAbort := toMap_step h
  exact congrArg MapTxn.committed hstep

theorem actsAs_of_existsSound {db : CTxDB} {key : Bytes} (h : db.ExistsSound key) :
    db.ActsAs db.toMap key where
  read _ unserialize := read_toMap unserialize h
  exists_ := exists_toMap h
  existsRead T unserialize hwf := by
    rw [exists_toMap h, read_toMap unserialize h]
    cases hv : db.toMap.view key with
    | none => simp
    | some value => simpa using hwf value hv
  commit _ _ _ := txnCommit_content
  abort _ := txnAbort_content

theorem existsSound_of_actsAs {db : CTxDB} {key : Bytes} (h : db.ActsAs db.toMap key) :
    db.ExistsSound key := by
  have hex := h.exists_
  have hread := h.read Bytes some
  rw [exists_eq, view_toMap] at hex
  rw [read_eq, view_toMap] at hread
  unfold ExistsSound
  cases hp : db.pendingOn key with
  | some o =>
      cases o with
      | some value => trivial
      | none => simpa [hp, get_notFound_iff] using hex
  | none =>
      -- An unreadable key looks present to `Exists` and absent to `Read`.
      simp only [hp, readFromDb_eq, Option.getD_none] at hex hread
      cases hu : db.pdb.unreadable key with
      | false => rfl
      | true => cases hc : db.pdb.content key <;> simp_all [DB.get]

/-- After any run of a handle, a key is answered for as the plain map answers exactly when no erased key
is still on disk. -/
theorem run_actsAs_iff {db db' : CTxDB} {calls : List TxDbCall} (h : db.run calls = some db')
    (key : Bytes) : db'.ActsAs (db.toMap.run calls) key ↔ db'.ExistsSound key := by
  rw [← toMap_run h]
  exact ⟨existsSound_of_actsAs, actsAs_of_existsSound⟩

/-! ## An erased key that still exists -/

/-- A store that holds the key `[1]`. -/
def storeOfOne : CTxDB where
  pdb := { content := fun k => if k = [1] then some [7] else none, unreadable := fun _ => false }
  activeBatch := none
  fReadOnly := false

theorem run_actsAs_iff_storeOfOne : ∃ db', storeOfOne.run [.txnBegin, .erase [2] false] = some db' ∧
    (db'.ActsAs (storeOfOne.toMap.run [.txnBegin, .erase [2] false]) [2] ↔ db'.ExistsSound [2]) :=
  ⟨_, rfl, run_actsAs_iff rfl [2]⟩

theorem erased_exists : ∃ db', storeOfOne.run [.txnBegin, .erase [1] false] = some db' ∧
    (storeOfOne.toMap.run [.txnBegin, .erase [1] false]).view [1] = none ∧
    db'.read some [1] = none ∧ db'.exists_ [1] = true ∧
    ¬ db'.ActsAs (storeOfOne.toMap.run [.txnBegin, .erase [1] false]) [1] := by
  refine ⟨_, rfl, rfl, rfl, rfl, fun h => ?_⟩
  have habsent : true = true ↔ (none : Option Bytes).isSome := h.exists_
  simp at habsent

end CTxDB

end ProCurrency

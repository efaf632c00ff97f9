import ProCurrency.Codec.Serialize
import ProCurrency.Hd.Watching
import ProCurrency.Lib.EventRun
import ProCurrency.Lib.PackedMap

/-!
# The encrypted key store

`CCryptoKeyStore` (crypter.h, crypter.cpp) over `CBasicKeyStore` (keystore.h, keystore.cpp). The keys are in `mapKeys`
while the store is plain, and encrypted in `mapCryptedKeys` afterwards. An assertion that fails is `none`.
-/

namespace ProCurrency

def WALLET_CRYPTO_KEY_SIZE : Nat := 32

/-- AES of OpenSSL, with a master key and an initial vector. What it encrypts is never empty and is got back with
the same key, and never with another one. -/
structure Cipher where
  encrypt : Bytes → UInt256 → Bytes → Option Bytes
  decrypt : Bytes → UInt256 → Bytes → Option Bytes
  encrypt_ne_nil : ∀ key iv plain crypted, encrypt key iv plain = some crypted → crypted ≠ []
  decrypt_encrypt : ∀ key iv plain crypted, encrypt key iv plain = some crypted → decrypt key iv crypted = some plain
  decrypt_other : ∀ key key' iv plain crypted, key' ≠ key → encrypt key iv plain = some crypted →
    decrypt key' iv crypted ≠ some plain

structure KeyStoreEnv (G : Type) [AddCommGroup G] where
  curve : CurveEnv G
  cipher : Cipher
  /-- `Hash`, in `CPubKey::GetHash`. -/
  hash : Bytes → UInt256

structure CCryptoKeyStore (order : Nat) where
  fUseCrypto : Bool := false
  mapKeys : Std.ExtTreeMap CKeyID (CKey order) := ∅
  mapCryptedKeys : Std.ExtTreeMap CKeyID (CPubKey × Bytes) := ∅
  vMasterKey : Bytes := []

/-- How the loop of `Unlock` ends. -/
inductive UnlockTest where
  | failed
  | passed
  | noKey
deriving DecidableEq

namespace KeyStoreEnv

variable {G : Type} [AddCommGroup G] (env : KeyStoreEnv G)

def encryptSecret (vMasterKey vchPlaintext : Bytes) (nIV : UInt256) : Option Bytes :=
  if vMasterKey.length ≠ WALLET_CRYPTO_KEY_SIZE then none else env.cipher.encrypt vMasterKey nIV vchPlaintext

def decryptSecret (vMasterKey vchCiphertext : Bytes) (nIV : UInt256) : Option Bytes :=
  if vMasterKey.length ≠ WALLET_CRYPTO_KEY_SIZE then none else env.cipher.decrypt vMasterKey nIV vchCiphertext

/-- `CKey::Set` of the bytes of a secret, of as many as a key has. -/
def setKey (vchSecret : Bytes) (fCompressed : Bool) : Option (CKey env.curve.order) :=
  CKey.ofNat env.curve.order (CBigNum.ofBeBytes vchSecret) fCompressed

/-- The loop of `Unlock`: the first key that is expanded is tested. -/
def unlockFrom (vMasterKeyIn : Bytes) : List (CKeyID × CPubKey × Bytes) → Option UnlockTest
  | [] => some .noKey
  | (_, vchPubKey, vchCryptedSecret) :: mi =>
      if vchCryptedSecret.length < 1 then unlockFrom vMasterKeyIn mi
      else
        match env.decryptSecret vMasterKeyIn vchCryptedSecret (env.hash vchPubKey) with
        | none => some .failed
        | some vchSecret =>
            if vchSecret.length ≠ 32 then some .failed
            else
              match env.setKey vchSecret vchPubKey.isCompressed with
              | none => none
              | some key => if env.curve.getPubKey key ≠ vchPubKey then some .failed else some .passed

/-- The loop of `EncryptKeys`: whether it comes to its end, and `mapCryptedKeys`. -/
def encryptFrom (vMasterKeyIn : Bytes) (mapCryptedKeys : Std.ExtTreeMap CKeyID (CPubKey × Bytes)) :
    List (CKeyID × CKey env.curve.order) → Bool × Std.ExtTreeMap CKeyID (CPubKey × Bytes)
  | [] => (true, mapCryptedKeys)
  | (_, key) :: mKeys =>
      let vchPubKey := env.curve.getPubKey key
      match env.encryptSecret vMasterKeyIn key.vch (env.hash vchPubKey) with
      | none => (false, mapCryptedKeys)
      | some vchCryptedSecret =>
          encryptFrom vMasterKeyIn
            (mapCryptedKeys.insert (env.curve.getID vchPubKey) (vchPubKey, vchCryptedSecret)) mKeys

end KeyStoreEnv

namespace CCryptoKeyStore

variable {order : Nat}

def isLocked (store : CCryptoKeyStore order) : Bool := store.fUseCrypto && store.vMasterKey.isEmpty

def setCrypted (store : CCryptoKeyStore order) : Bool × CCryptoKeyStore order :=
  if store.fUseCrypto then (true, store)
  else if !store.mapKeys.isEmpty then (false, store)
  else (true, { store with fUseCrypto := true })

def lockKeyStore (store : CCryptoKeyStore order) : Bool × CCryptoKeyStore order :=
  match store.setCrypted with
  | (false, store) => (false, store)
  | (true, store) => (true, { store with vMasterKey := [] })

/-- `AddCryptedKey`. -/
def addCryptedKey (store : CCryptoKeyStore order) (id : CKeyID) (vchPubKey vchCryptedSecret : Bytes) :
    Bool × CCryptoKeyStore order :=
  match store.setCrypted with
  | (false, store) => (false, store)
  | (true, store) =>
      (true, { store with mapCryptedKeys := store.mapCryptedKeys.insert id (vchPubKey, vchCryptedSecret) })

variable {G : Type} [AddCommGroup G] (env : KeyStoreEnv G)

def unlock (store : CCryptoKeyStore env.curve.order) (vMasterKeyIn : Bytes) :
    Option (Bool × CCryptoKeyStore env.curve.order) :=
  match store.setCrypted with
  | (false, store) => some (false, store)
  | (true, store) =>
      match env.unlockFrom vMasterKeyIn store.mapCryptedKeys.toList with
      | none => none
      | some .failed => some (false, store)
      | some .passed => some (true, { store with vMasterKey := vMasterKeyIn })
      | some .noKey =>
          if !store.mapCryptedKeys.isEmpty then some (false, store)
          else some (true, { store with vMasterKey := vMasterKeyIn })

def addKeyPubKey (store : CCryptoKeyStore env.curve.order) (key : CKey env.curve.order) (pubkey : CPubKey) :
    Bool × CCryptoKeyStore env.curve.order :=
  if !store.fUseCrypto then (true, { store with mapKeys := store.mapKeys.insert (env.curve.getID pubkey) key })
  else if store.isLocked then (false, store)
  else
    match env.encryptSecret store.vMasterKey key.vch (env.hash pubkey) with
    | none => (false, store)
    | some vchCryptedSecret => store.addCryptedKey (env.curve.getID pubkey) pubkey vchCryptedSecret

/-- `GetKey`: the key that is given out where it returns true, itself `none` where it is not valid. -/
def getKey (store : CCryptoKeyStore env.curve.order) (address : CKeyID) : Option (Option (CKey env.curve.order)) :=
  if !store.fUseCrypto then (store.mapKeys[address]?).map some
  else
    match store.mapCryptedKeys[address]? with
    | none => none
    | some (vchPubKey, vchCryptedSecret) =>
        match env.decryptSecret store.vMasterKey vchCryptedSecret (env.hash vchPubKey) with
        | none => none
        | some vchSecret =>
            if vchSecret.length ≠ 32 then none else some (env.setKey vchSecret vchPubKey.isCompressed)

def encryptKeys (store : CCryptoKeyStore env.curve.order) (vMasterKeyIn : Bytes) :
    Bool × CCryptoKeyStore env.curve.order :=
  if !store.mapCryptedKeys.isEmpty || store.fUseCrypto then (false, store)
  else
    match env.encryptFrom vMasterKeyIn store.mapCryptedKeys store.mapKeys.toList with
    | (false, mapCryptedKeys) => (false, { store with fUseCrypto := true, mapCryptedKeys })
    | (true, mapCryptedKeys) => (true, { store with fUseCrypto := true, mapKeys := ∅, mapCryptedKeys })

end CCryptoKeyStore

/-! ## Histories -/

inductive KeyStoreCall (order : Nat) where
  | addKeyPubKey (key : CKey order) (pubkey : CPubKey)
  | encryptKeys (vMasterKeyIn : Bytes)
  | lockKeyStore
  | unlock (vMasterKeyIn : Bytes)

/-- The store, the keys that were added to it, and the master key with which `EncryptKeys` encrypted some. -/
structure KeyStoreHistory (order : Nat) where
  store : CCryptoKeyStore order := {}
  added : CKeyID → Option (CKey order) := fun _ => none
  master : Option Bytes := none

namespace KeyStoreHistory

variable {G : Type} [AddCommGroup G] (env : KeyStoreEnv G)

def step : KeyStoreCall env.curve.order → KeyStoreHistory env.curve.order →
    Option (KeyStoreHistory env.curve.order × Bool)
  | .addKeyPubKey key pubkey, h =>
      match h.store.addKeyPubKey env key pubkey with
      | (false, store) => some ({ h with store }, false)
      | (true, store) =>
          some ({ h with store, added := Function.update h.added (env.curve.getID pubkey) (some key) }, true)
  | .encryptKeys vMasterKeyIn, h =>
      match h.store.encryptKeys env vMasterKeyIn with
      | (false, store) => some ({ h with store }, false)
      | (true, store) =>
          some ({ h with store, master := if h.store.mapKeys.isEmpty then h.master else some vMasterKeyIn }, true)
  | .lockKeyStore, h =>
      let (fOk, store) := h.store.lockKeyStore
      some ({ h with store }, fOk)
  | .unlock vMasterKeyIn, h =>
      match h.store.unlock env vMasterKeyIn with
      | none => none
      | some (fOk, store) => some ({ h with store }, fOk)

/-- A key is added with its public key, and `EncryptKeys` does not fail at a key: its caller ends the process then. -/
def Proper (h : KeyStoreHistory env.curve.order) (call : KeyStoreCall env.curve.order)
    (_ : KeyStoreHistory env.curve.order) (fOk : Bool) : Prop :=
  match call with
  | .addKeyPubKey key pubkey => pubkey = env.curve.getPubKey key
  | .encryptKeys _ => fOk = true ∨ h.store.fUseCrypto = true
  | .lockKeyStore => True
  | .unlock _ => True

end KeyStoreHistory

/-!
## What the key store keeps

All keys of an encrypted store are encrypted under one master key, and `Unlock` accepts no other one as soon as there
is a key. In an unlocked store `GetKey` gives back each key that was added.
-/

open CBigNum

variable {G : Type} [AddCommGroup G]

namespace KeyStoreEnv

variable {env : KeyStoreEnv G} {K K' : Bytes} {key : CKey env.curve.order} {crypted : Bytes}

/-- The secret of the key is encrypted under the master key. -/
def Encrypts (env : KeyStoreEnv G) (K : Bytes) (key : CKey env.curve.order) (crypted : Bytes) : Prop :=
  env.encryptSecret K key.vch (env.hash (env.curve.getPubKey key)) = some crypted

theorem Encrypts.cipher (h : env.Encrypts K key crypted) :
    K.length = WALLET_CRYPTO_KEY_SIZE ∧
      env.cipher.encrypt K (env.hash (env.curve.getPubKey key)) key.vch = some crypted := by
  rw [Encrypts, encryptSecret] at h
  split at h
  · cases h
  · rename_i hlength
    exact ⟨not_not.1 hlength, h⟩

theorem Encrypts.ne_nil (h : env.Encrypts K key crypted) : crypted ≠ [] :=
  env.cipher.encrypt_ne_nil _ _ _ _ h.cipher.2

theorem length_vch (key : CKey env.curve.order) : key.vch.length = 32 := length_beBytes 32 key.secret

theorem setKey_vch (key : CKey env.curve.order) : env.setKey key.vch key.fCompressed = some key := by
  rw [setKey, CurveEnv.ofBeBytes_vch, CKey.ofNat, dif_pos ⟨key.pos, key.lt⟩]

/-- Under the same master key the secret is got back. -/
theorem Encrypts.decryptSecret (h : env.Encrypts K key crypted) :
    env.decryptSecret K crypted (env.hash (env.curve.getPubKey key)) = some key.vch := by
  obtain ⟨hlength, hencrypt⟩ := h.cipher
  rw [KeyStoreEnv.decryptSecret, if_neg (not_not.2 hlength), env.cipher.decrypt_encrypt _ _ _ _ hencrypt]

/-- Under another one it is not. -/
theorem Encrypts.eq_of_decryptSecret (h : env.Encrypts K key crypted)
    (hdecrypt : env.decryptSecret K' crypted (env.hash (env.curve.getPubKey key)) = some key.vch) : K' = K := by
  rw [KeyStoreEnv.decryptSecret] at hdecrypt
  split at hdecrypt
  · cases hdecrypt
  · by_contra hne
    exact env.cipher.decrypt_other _ _ _ _ _ hne h.cipher.2 hdecrypt

theorem Encrypts.unique (h : env.Encrypts K key crypted) (h' : env.Encrypts K' key crypted) : K' = K :=
  h.eq_of_decryptSecret h'.decryptSecret

/-! ## The loops -/

/-- A key that passes the test of `Unlock`. -/
theorem unlockFrom_passed {mi : List (CKeyID × CPubKey × Bytes)} (h : env.unlockFrom K mi = some .passed) :
    ∃ e ∈ mi, ∃ vchSecret key, env.decryptSecret K e.2.2 (env.hash e.2.1) = some vchSecret ∧ vchSecret.length = 32 ∧
      env.setKey vchSecret e.2.1.isCompressed = some key ∧ env.curve.getPubKey key = e.2.1 := by
  induction mi with
  | nil => cases h
  | cons e mi ih =>
      obtain ⟨id, vchPubKey, vchCryptedSecret⟩ := e
      rw [unlockFrom] at h
      split at h
      · obtain ⟨e, he, hspec⟩ := ih h
        exact ⟨e, List.mem_cons_of_mem _ he, hspec⟩
      · split at h
        · cases h
        · rename_i vchSecret hdecrypt
          split at h
          · cases h
          · rename_i hlength
            split at h
            · cases h
            · rename_i key hset
              split at h
              · cases h
              · rename_i hpub
                exact ⟨_, List.mem_cons_self, vchSecret, key, hdecrypt, not_not.1 hlength, hset, not_not.1 hpub⟩

/-- What is in the map of an encrypted store. -/
structure HoldsUnder (env : KeyStoreEnv G) (K : Bytes) (m : Std.ExtTreeMap CKeyID (CPubKey × Bytes))
    (added : CKeyID → Option (CKey env.curve.order)) : Prop where
  absent : ∀ id, added id = none → m[id]? = none
  present : ∀ id key, added id = some key → ∃ crypted, m[id]? = some (env.curve.getPubKey key, crypted) ∧
    env.Encrypts K key crypted

variable {m m' : Std.ExtTreeMap CKeyID (CPubKey × Bytes)} {added : CKeyID → Option (CKey env.curve.order)}

/-- An entry of the map is that of a key that was added. -/
theorem HoldsUnder.entry (h : env.HoldsUnder K m added) {id : CKeyID} {vchPubKey crypted : Bytes}
    (hentry : m[id]? = some (vchPubKey, crypted)) :
    ∃ key, added id = some key ∧ vchPubKey = env.curve.getPubKey key ∧ env.Encrypts K key crypted := by
  cases hadded : added id with
  | none => rw [h.absent id hadded] at hentry; cases hentry
  | some key =>
      obtain ⟨crypted', hkey, hencrypts⟩ := h.present id key hadded
      rw [hentry] at hkey
      cases hkey
      exact ⟨key, rfl, rfl, hencrypts⟩

/-- A master key that passes the test is the one under which the keys are encrypted. -/
theorem HoldsUnder.eq_of_passed (h : env.HoldsUnder K m added) (hpassed : env.unlockFrom K' m.toList = some .passed) :
    K' = K := by
  obtain ⟨⟨id, vchPubKey, crypted⟩, hmem, vchSecret, key', hdecrypt, hlength, hset, hpub⟩ := unlockFrom_passed hpassed
  rw [Std.ExtTreeMap.mem_toList_iff_getElem?_eq_some] at hmem
  obtain ⟨key, _, rfl, hencrypts⟩ := h.entry hmem
  have hsecret : key'.secret = key.secret := CurveEnv.secret_eq_of_getPubKey hpub
  have hvch : vchSecret = key.vch := by
    rw [setKey, CKey.ofNat] at hset
    split at hset
    · cases hset
      have hbytes := beBytes_ofBeBytes vchSecret
      rw [hlength] at hbytes
      rw [CKey.vch, ← hsecret, hbytes]
    · cases hset
  exact hencrypts.eq_of_decryptSecret (hvch ▸ hdecrypt)

/-- The master key under which they are passes it, as soon as there is a key. -/
theorem HoldsUnder.passed (h : env.HoldsUnder K m added) :
    env.unlockFrom K m.toList = some .passed ∨ m.toList = [] ∧ ∀ id, added id = none := by
  cases hlist : m.toList with
  | nil =>
      refine .inr ⟨rfl, fun id => ?_⟩
      cases hadded : added id with
      | none => rfl
      | some key =>
          obtain ⟨crypted, hkey, _⟩ := h.present id key hadded
          have hmem := Std.ExtTreeMap.mem_toList_iff_getElem?_eq_some.2 hkey
          rw [hlist] at hmem
          cases hmem
  | cons e mi =>
      obtain ⟨id, vchPubKey, crypted⟩ := e
      have hmem : (id, vchPubKey, crypted) ∈ m.toList := by rw [hlist]; exact List.mem_cons_self
      obtain ⟨key, _, rfl, hencrypts⟩ := h.entry (Std.ExtTreeMap.mem_toList_iff_getElem?_eq_some.1 hmem)
      have hlength : ¬crypted.length < 1 := fun h =>
        hencrypts.ne_nil (List.length_eq_zero_iff.1 (Nat.lt_one_iff.1 h))
      left
      simp only [unlockFrom, if_neg hlength, hencrypts.decryptSecret, length_vch, CurveEnv.isCompressed_getPubKey,
        setKey_vch, ne_eq, not_true_eq_false, if_false]

/-- A key that is added to the map with its encrypted secret. -/
theorem HoldsUnder.insert (h : env.HoldsUnder K m added) (hencrypts : env.Encrypts K key crypted) :
    env.HoldsUnder K (m.insert (env.curve.getID (env.curve.getPubKey key)) (env.curve.getPubKey key, crypted))
      (Function.update added (env.curve.getID (env.curve.getPubKey key)) (some key)) := by
  constructor
  · intro id hid
    rw [PackedMap.getElem?_insert]
    by_cases hsame : env.curve.getID (env.curve.getPubKey key) = id
    · rw [← hsame, Function.update_self] at hid
      cases hid
    · rw [Function.update_of_ne (Ne.symm hsame)] at hid
      rw [if_neg hsame, h.absent id hid]
  · intro id key' hid
    rw [PackedMap.getElem?_insert]
    by_cases hsame : env.curve.getID (env.curve.getPubKey key) = id
    · rw [← hsame, Function.update_self] at hid
      cases hid
      exact ⟨crypted, if_pos hsame, hencrypts⟩
    · rw [Function.update_of_ne (Ne.symm hsame)] at hid
      rw [if_neg hsame]
      exact h.present id key' hid

/-- What `EncryptKeys` makes of the plain keys, all of them under their own ids. -/
theorem encryptFrom_true {mKeys : List (CKeyID × CKey env.curve.order)}
    (hids : ∀ e ∈ mKeys, env.curve.getID (env.curve.getPubKey e.2) = e.1)
    (hdistinct : mKeys.Pairwise fun e e' => e.1 ≠ e'.1) (h : env.encryptFrom K m mKeys = (true, m')) :
    (∀ id, (∀ e ∈ mKeys, e.1 ≠ id) → m'[id]? = m[id]?) ∧
      ∀ e ∈ mKeys, ∃ crypted, m'[e.1]? = some (env.curve.getPubKey e.2, crypted) ∧ env.Encrypts K e.2 crypted := by
  induction mKeys generalizing m with
  | nil =>
      cases h
      exact ⟨fun _ _ => rfl, nofun⟩
  | cons e mKeys ih =>
      obtain ⟨id, key⟩ := e
      rw [encryptFrom] at h
      split at h
      · cases h
      · rename_i crypted hencrypt
        obtain ⟨hne, hdistinct⟩ := List.pairwise_cons.1 hdistinct
        obtain ⟨hframe, hmem⟩ := ih (fun e he => hids e (List.mem_cons_of_mem _ he)) hdistinct h
        have hid : env.curve.getID (env.curve.getPubKey key) = id := hids (id, key) List.mem_cons_self
        rw [hid] at hframe
        refine ⟨fun id' hid' => ?_, fun e he => ?_⟩
        · rw [hframe id' fun e he => hid' e (List.mem_cons_of_mem _ he), PackedMap.getElem?_insert,
            if_neg (hid' (id, key) List.mem_cons_self)]
        · rcases List.mem_cons.1 he with rfl | he
          · refine ⟨crypted, ?_, hencrypt⟩
            rw [hframe id fun e he => (hne e he).symm, PackedMap.getElem?_insert, if_pos rfl]
          · exact hmem e he

end KeyStoreEnv

/-! ## Histories -/

namespace KeyStoreHistory

open KeyStoreEnv CCryptoKeyStore

variable {env : KeyStoreEnv G} {h h' : KeyStoreHistory env.curve.order}

structure Inv (env : KeyStoreEnv G) (h : KeyStoreHistory env.curve.order) : Prop where
  ids : ∀ id key, h.added id = some key → env.curve.getID (env.curve.getPubKey key) = id
  plain : h.store.fUseCrypto = false →
    h.store.mapCryptedKeys = ∅ ∧ h.store.vMasterKey = [] ∧ h.master = none ∧ ∀ id : CKeyID, h.store.mapKeys[id]? = h.added id
  crypted : h.store.fUseCrypto = true → ∃ K, env.HoldsUnder K h.store.mapCryptedKeys h.added ∧
    (h.store.vMasterKey = [] ∨ h.store.vMasterKey = K)
  master : ∀ K, h.master = some K →
    env.HoldsUnder K h.store.mapCryptedKeys h.added ∧ ∃ id key, h.added id = some key

theorem inv_nil : Inv env {} where
  ids := nofun
  plain _ := ⟨rfl, rfl, rfl, fun _ => Std.ExtTreeMap.getElem?_empty⟩
  crypted := nofun
  master := nofun

theorem holdsUnder_empty {K : Bytes} {added : CKeyID → Option (CKey env.curve.order)} (hadded : ∀ id, added id = none) :
    env.HoldsUnder K ∅ added where
  absent _ _ := Std.ExtTreeMap.getElem?_empty
  present id key hkey := by rw [hadded id] at hkey; cases hkey

/-- The store becomes a crypted one only where there is no key in it. -/
theorem Inv.setCrypted (hinv : Inv env h) {fOk : Bool} {store : CCryptoKeyStore env.curve.order}
    (hset : h.store.setCrypted = (fOk, store)) :
    Inv env { h with store } ∧ store.fUseCrypto = (h.store.fUseCrypto || fOk) := by
  rw [CCryptoKeyStore.setCrypted] at hset
  cases huse : h.store.fUseCrypto with
  | true =>
      rw [huse, if_pos rfl] at hset
      cases hset
      exact ⟨hinv, huse⟩
  | false =>
      obtain ⟨hempty, hmasterKey, hmaster, hkeys⟩ := hinv.plain huse
      rw [huse, if_neg Bool.false_ne_true] at hset
      split at hset
      · cases hset
        exact ⟨hinv, huse⟩
      · rename_i hno
        cases hset
        rw [Bool.not_eq_true', Bool.not_eq_false, Std.ExtTreeMap.isEmpty_iff] at hno
        have hadded : ∀ id, h.added id = none := fun id => by
          rw [← hkeys id, hno, Std.ExtTreeMap.getElem?_empty]
        refine ⟨⟨hinv.ids, nofun, fun _ => ?_, hinv.master⟩, rfl⟩
        exact ⟨h.store.vMasterKey, hempty ▸ holdsUnder_empty hadded, .inr rfl⟩

/-- A master key that `Unlock` accepts is the one of the stored keys, or there are none. -/
theorem Inv.unlock (hinv : Inv env h) {K : Bytes} {store : CCryptoKeyStore env.curve.order}
    (hunlock : h.store.unlock env K = some (true, store)) :
    store.fUseCrypto = true ∧ env.HoldsUnder K store.mapCryptedKeys h.added ∧ store.vMasterKey = K ∧
      store.mapCryptedKeys = h.store.mapCryptedKeys := by
  rw [CCryptoKeyStore.unlock] at hunlock
  cases hset : h.store.setCrypted with
  | mk fOk store₁ =>
      obtain ⟨hinv₁, huse₁⟩ := hinv.setCrypted hset
      have hmap : store₁.mapCryptedKeys = h.store.mapCryptedKeys := by
        rw [CCryptoKeyStore.setCrypted] at hset
        split_ifs at hset <;> cases hset <;> rfl
      rw [hset] at hunlock
      cases fOk with
      | false => cases hunlock
      | true =>
          rw [Bool.or_true] at huse₁
          obtain ⟨K₁, hunder, -⟩ := hinv₁.crypted huse₁
          simp only at hunlock
          split at hunlock
          · cases hunlock
          · cases hunlock
          · rename_i hpassed
            cases hunlock
            exact ⟨huse₁, hunder.eq_of_passed hpassed ▸ hunder, rfl, hmap⟩
          · split at hunlock
            · cases hunlock
            · rename_i hempty
              cases hunlock
              rw [Bool.not_eq_true', Bool.not_eq_false, Std.ExtTreeMap.isEmpty_iff] at hempty
              rw [hempty] at hunder
              have hadded : ∀ id, h.added id = none := fun id => by
                cases hid : h.added id with
                | none => rfl
                | some key =>
                    obtain ⟨_, hkey, _⟩ := hunder.present id key hid
                    rw [Std.ExtTreeMap.getElem?_empty] at hkey
                    cases hkey
              exact ⟨huse₁, hempty ▸ holdsUnder_empty hadded, rfl, hmap⟩

/-- A failed `Unlock` leaves the store plain or crypted with no key. -/
theorem Inv.unlock_false (hinv : Inv env h) {K : Bytes} {store : CCryptoKeyStore env.curve.order}
    (hunlock : h.store.unlock env K = some (false, store)) : Inv env { h with store } := by
  rw [CCryptoKeyStore.unlock] at hunlock
  cases hset : h.store.setCrypted with
  | mk fOk store₁ =>
      have hinv₁ := (hinv.setCrypted hset).1
      rw [hset] at hunlock
      cases fOk with
      | false =>
          cases hunlock
          exact hinv₁
      | true =>
          simp only at hunlock
          split at hunlock
          · cases hunlock
          · cases hunlock
            exact hinv₁
          · cases hunlock
          · split at hunlock
            · cases hunlock
              exact hinv₁
            · cases hunlock

theorem addKeyPubKey_false {store store' : CCryptoKeyStore env.curve.order} {key : CKey env.curve.order}
    {pubkey : CPubKey} (hadd : store.addKeyPubKey env key pubkey = (false, store')) : store' = store := by
  rw [CCryptoKeyStore.addKeyPubKey] at hadd
  split at hadd
  · cases hadd
  · rename_i huse
    rw [Bool.not_eq_true', Bool.not_eq_false] at huse
    split at hadd
    · cases hadd
      rfl
    · split at hadd
      · cases hadd
        rfl
      · rw [addCryptedKey, CCryptoKeyStore.setCrypted, huse, if_pos rfl] at hadd
        cases hadd

/-- Two master keys for the same keys are one. -/
theorem holdsUnder_unique {K K' : Bytes} {m : Std.ExtTreeMap CKeyID (CPubKey × Bytes)}
    {added : CKeyID → Option (CKey env.curve.order)} (hunder : env.HoldsUnder K m added)
    (hunder' : env.HoldsUnder K' m added) {id : CKeyID} {key : CKey env.curve.order} (hkey : added id = some key) :
    K' = K := by
  obtain ⟨crypted, hentry, hencrypts⟩ := hunder.present id key hkey
  obtain ⟨crypted', hentry', hencrypts'⟩ := hunder'.present id key hkey
  rw [hentry] at hentry'
  cases hentry'
  exact hencrypts.unique hencrypts'

theorem Inv.addKeyPubKey (hinv : Inv env h) {key : CKey env.curve.order} {store : CCryptoKeyStore env.curve.order}
    (hadd : h.store.addKeyPubKey env key (env.curve.getPubKey key) = (true, store)) :
    Inv env { h with
      store
      added := Function.update h.added (env.curve.getID (env.curve.getPubKey key)) (some key) } := by
  have hids : ∀ id key', Function.update h.added (env.curve.getID (env.curve.getPubKey key)) (some key) id = some key' →
      env.curve.getID (env.curve.getPubKey key') = id := by
    intro id key' hid
    by_cases hsame : id = env.curve.getID (env.curve.getPubKey key)
    · rw [hsame, Function.update_self] at hid
      cases hid
      exact hsame.symm
    · rw [Function.update_of_ne hsame] at hid
      exact hinv.ids id key' hid
  rw [CCryptoKeyStore.addKeyPubKey] at hadd
  cases huse : h.store.fUseCrypto with
  | false =>
      obtain ⟨hempty, hmasterKey, hmaster, hkeys⟩ := hinv.plain huse
      rw [huse, Bool.not_false, if_pos rfl] at hadd
      cases hadd
      refine ⟨hids, fun _ => ⟨hempty, hmasterKey, hmaster, fun id => ?_⟩, fun hcrypted => ?_, fun K hK => ?_⟩
      · show (h.store.mapKeys.insert _ key)[id]? = Function.update h.added _ (some key) id
        rw [PackedMap.getElem?_insert, Function.update_apply, hkeys id]
        simp only [eq_comm]
      · exact absurd hcrypted Bool.false_ne_true
      · rw [hmaster] at hK
        cases hK
  | true =>
      obtain ⟨K, hunder, hmasterKey⟩ := hinv.crypted huse
      rw [huse, Bool.not_true, if_neg Bool.false_ne_true] at hadd
      split at hadd
      · cases hadd
      · rename_i hunlocked
        split at hadd
        · cases hadd
        · rename_i crypted hencrypts
          have hne : h.store.vMasterKey ≠ [] := by
            intro hnil
            rw [isLocked, huse, hnil] at hunlocked
            exact hunlocked rfl
          have hK := hmasterKey.resolve_left hne
          rw [hK] at hencrypts
          rw [addCryptedKey, CCryptoKeyStore.setCrypted, huse, if_pos rfl] at hadd
          cases hadd
          refine ⟨hids, fun hplain => ?_, fun _ => ⟨K, hunder.insert hencrypts, .inr hK⟩, fun K₀ hK₀ => ?_⟩
          · exact absurd (hplain.symm.trans huse) Bool.false_ne_true
          · obtain ⟨hunder₀, id, key', hkey'⟩ := hinv.master K₀ hK₀
            have hsame := holdsUnder_unique hunder hunder₀ hkey'
            exact ⟨hsame ▸ hunder.insert hencrypts, _, key, Function.update_self ..⟩

theorem Inv.encryptKeys (hinv : Inv env h) {K : Bytes} {store : CCryptoKeyStore env.curve.order}
    (hencrypt : h.store.encryptKeys env K = (true, store)) :
    Inv env { h with
      store
      master := if h.store.mapKeys.isEmpty then h.master else some K } := by
  rw [CCryptoKeyStore.encryptKeys] at hencrypt
  split at hencrypt
  · cases hencrypt
  · rename_i hplain
    rw [Bool.or_eq_true, not_or] at hplain
    obtain ⟨hempty, hmasterKey, hmaster, hkeys⟩ := hinv.plain (Bool.eq_false_of_not_eq_true hplain.2)
    split at hencrypt
    · cases hencrypt
    · rename_i m' hfrom
      cases hencrypt
      have hmem : ∀ e, e ∈ h.store.mapKeys.toList ↔ h.added e.1 = some e.2 := fun e => by
        rw [Std.ExtTreeMap.mem_toList_iff_getElem?_eq_some, hkeys e.1]
      have hdistinct : h.store.mapKeys.toList.Pairwise fun e e' => e.1 ≠ e'.1 :=
        Std.ExtTreeMap.distinct_keys_toList.imp fun hne heq => hne (Std.compare_eq_iff_eq.2 heq)
      obtain ⟨hframe, hkeys'⟩ := encryptFrom_true (fun e he => hinv.ids e.1 e.2 ((hmem e).1 he)) hdistinct hfrom
      have hunder : env.HoldsUnder K m' h.added := by
        constructor
        · intro id hid
          rw [hframe id, hempty, Std.ExtTreeMap.getElem?_empty]
          rintro e he rfl
          cases hid.symm.trans ((hmem e).1 he)
        · intro id key hkey
          exact hkeys' (id, key) ((hmem (id, key)).2 hkey)
      refine ⟨hinv.ids, nofun, fun _ => ⟨K, hunder, .inl hmasterKey⟩, fun K₀ hK₀ => ?_⟩
      · dsimp only at hK₀
        split at hK₀
        · rw [hmaster] at hK₀
          cases hK₀
        · rename_i hsome
          cases hK₀
          refine ⟨hunder, ?_⟩
          by_contra hnone
          refine hsome (Std.ExtTreeMap.isEmpty_iff.2 (Std.ExtTreeMap.ext_getElem? fun id => ?_))
          rw [hkeys id, Std.ExtTreeMap.getElem?_empty]
          exact Option.eq_none_iff_forall_ne_some.2 fun key hkey => hnone ⟨id, key, hkey⟩

theorem Inv.step (hinv : Inv env h) {call : KeyStoreCall env.curve.order} {fOk : Bool}
    (hstep : step env call h = some (h', fOk)) (hproper : Proper env h call h' fOk) : Inv env h' := by
  cases call with
  | addKeyPubKey key pubkey =>
      obtain rfl : pubkey = env.curve.getPubKey key := hproper
      rw [KeyStoreHistory.step] at hstep
      split at hstep
      · rename_i store hadd
        cases hstep
        rw [addKeyPubKey_false hadd]
        exact hinv
      · rename_i store hadd
        cases hstep
        exact hinv.addKeyPubKey hadd
  | encryptKeys vMasterKeyIn =>
      rw [KeyStoreHistory.step] at hstep
      split at hstep
      · rename_i store hencrypt
        cases hstep
        have huse : h.store.fUseCrypto = true := hproper.resolve_left Bool.false_ne_true
        rw [CCryptoKeyStore.encryptKeys, huse, Bool.or_true, if_pos rfl] at hencrypt
        cases hencrypt
        exact hinv
      · rename_i store hencrypt
        cases hstep
        exact hinv.encryptKeys hencrypt
  | lockKeyStore =>
      rw [KeyStoreHistory.step, CCryptoKeyStore.lockKeyStore] at hstep
      cases hset : h.store.setCrypted with
      | mk fSet store =>
          obtain ⟨hinv', huse⟩ := hinv.setCrypted hset
          rw [hset] at hstep
          cases fSet with
          | false =>
              cases hstep
              exact hinv'
          | true =>
              cases hstep
              rw [Bool.or_true] at huse
              obtain ⟨K, hunder, _⟩ := hinv'.crypted huse
              exact ⟨hinv'.ids, fun hplain => absurd (hplain.symm.trans huse) Bool.false_ne_true,
                fun _ => ⟨K, hunder, .inl rfl⟩, hinv'.master⟩
  | unlock vMasterKeyIn =>
      rw [KeyStoreHistory.step] at hstep
      split at hstep
      · cases hstep
      · rename_i fUnlocked store hunlock
        cases hstep
        cases fOk with
        | false => exact hinv.unlock_false hunlock
        | true =>
            obtain ⟨huse, hunder, hmasterKey, hmap⟩ := hinv.unlock hunlock
            exact ⟨hinv.ids, fun hplain => absurd (hplain.symm.trans huse) Bool.false_ne_true,
              fun _ => ⟨vMasterKeyIn, hunder, .inr hmasterKey⟩, fun K hK => hmap ▸ hinv.master K hK⟩

/-! ## What is given out -/

/-- The keys of a store that is not locked, and not encrypted or encrypted under its master key. -/
theorem getKey_of_holdsUnder {store : CCryptoKeyStore env.curve.order} {K : Bytes}
    {added : CKeyID → Option (CKey env.curve.order)} (huse : store.fUseCrypto = true)
    (hunder : env.HoldsUnder K store.mapCryptedKeys added) (hmasterKey : store.vMasterKey = K) (id : CKeyID) :
    store.getKey env id = (added id).map some := by
  rw [getKey, huse, Bool.not_true, if_neg Bool.false_ne_true]
  cases hadded : added id with
  | none => rw [hunder.absent id hadded]; rfl
  | some key =>
      obtain ⟨crypted, hentry, hencrypts⟩ := hunder.present id key hadded
      simp only [hentry, hmasterKey, hencrypts.decryptSecret, length_vch, CurveEnv.isCompressed_getPubKey, setKey_vch,
        ne_eq, not_true_eq_false, if_false, Option.map_some]

theorem getKey_of_isLocked {store : CCryptoKeyStore env.curve.order} (hlocked : store.isLocked = true) (id : CKeyID) :
    store.getKey env id = none := by
  rw [isLocked, Bool.and_eq_true, List.isEmpty_iff] at hlocked
  have hdecrypt : ∀ vchCiphertext nIV, env.decryptSecret [] vchCiphertext nIV = none := fun _ _ => rfl
  rw [getKey, hlocked.1, Bool.not_true, if_neg Bool.false_ne_true, hlocked.2]
  cases store.mapCryptedKeys[id]? with
  | none => rfl
  | some entry => simp only [hdecrypt]

/-- What the store keeps. -/
structure Keeps (env : KeyStoreEnv G) (h : KeyStoreHistory env.curve.order) : Prop where
  plain : h.store.fUseCrypto = false → ∀ id, h.store.getKey env id = (h.added id).map some
  locked : h.store.isLocked = true → ∀ id, h.store.getKey env id = none
  unlocked : h.store.isLocked = false → ∀ id, h.store.getKey env id = (h.added id).map some
  unlock : ∀ K store, h.store.unlock env K = some (true, store) → ∀ id, store.getKey env id = (h.added id).map some
  /-- All keys are encrypted under one master key, and with a key in the store no other one is accepted. -/
  oneKey : h.store.fUseCrypto = true → ∃ K, (∀ id vchPubKey crypted,
      h.store.mapCryptedKeys[id]? = some (vchPubKey, crypted) →
        ∃ key, h.added id = some key ∧ vchPubKey = env.curve.getPubKey key ∧ env.Encrypts K key crypted) ∧
    h.store.unlock env K = some (true, { h.store with vMasterKey := K }) ∧
    ∀ K' store, h.store.unlock env K' = some (true, store) → K' = K ∨ ∀ id, h.added id = none
  /-- It is the one with which `EncryptKeys` encrypted the keys. -/
  master : ∀ K, h.master = some K → ∀ K' store, h.store.unlock env K' = some (true, store) → K' = K
  /-- `EncryptKeys` that fails leaves the plain keys where they are, and an encrypted store as it is. -/
  encryptKeys : ∀ K store, h.store.encryptKeys env K = (false, store) →
    store.mapKeys = h.store.mapKeys ∧ (h.store.fUseCrypto = true → store = h.store)

theorem Inv.keeps (hinv : Inv env h) : Keeps env h where
  plain huse id := by
    obtain ⟨_, _, _, hkeys⟩ := hinv.plain huse
    rw [getKey, huse, Bool.not_false, if_pos rfl, hkeys id]
  locked := getKey_of_isLocked
  unlocked hlocked id := by
    cases huse : h.store.fUseCrypto with
    | false =>
        obtain ⟨_, _, _, hkeys⟩ := hinv.plain huse
        rw [getKey, huse, Bool.not_false, if_pos rfl, hkeys id]
    | true =>
        obtain ⟨K, hunder, hmasterKey⟩ := hinv.crypted huse
        rw [isLocked, huse, Bool.true_and, List.isEmpty_eq_false_iff] at hlocked
        exact getKey_of_holdsUnder huse hunder (hmasterKey.resolve_left hlocked) id
  unlock K store hunlock := by
    obtain ⟨huse, hunder, hmasterKey, _⟩ := hinv.unlock hunlock
    exact getKey_of_holdsUnder huse hunder hmasterKey
  oneKey huse := by
    obtain ⟨K, hunder, _⟩ := hinv.crypted huse
    refine ⟨K, fun id vchPubKey crypted hentry => hunder.entry hentry, ?_, fun K' store hunlock => ?_⟩
    · rw [CCryptoKeyStore.unlock, CCryptoKeyStore.setCrypted, huse, if_pos rfl]
      rcases hunder.passed with hpassed | ⟨hnil, _⟩
      · simp only [hpassed]
      · have hempty : h.store.mapCryptedKeys.isEmpty = true := by
          rw [← Std.ExtTreeMap.isEmpty_toList, hnil]
          rfl
        simp only [hnil, unlockFrom, hempty, Bool.not_true, Bool.false_eq_true, if_false]
    · by_cases hkey : ∃ id key, h.added id = some key
      · obtain ⟨id, key, hkey⟩ := hkey
        obtain ⟨_, hunder', _, hmap⟩ := hinv.unlock hunlock
        exact .inl (holdsUnder_unique hunder (hmap ▸ hunder') hkey)
      · exact .inr fun id => Option.eq_none_iff_forall_ne_some.2 fun key hid => hkey ⟨id, key, hid⟩
  master K hK K' store hunlock := by
    obtain ⟨hunder, id, key, hkey⟩ := hinv.master K hK
    obtain ⟨_, hunder', _, hmap⟩ := hinv.unlock hunlock
    exact holdsUnder_unique hunder (hmap ▸ hunder') hkey
  encryptKeys K store hencrypt := by
    rw [CCryptoKeyStore.encryptKeys] at hencrypt
    split at hencrypt
    · cases hencrypt
      exact ⟨rfl, fun _ => rfl⟩
    · rename_i hplain
      rw [Bool.or_eq_true, not_or] at hplain
      split at hencrypt
      · cases hencrypt
        exact ⟨rfl, fun huse => absurd huse hplain.2⟩
      · cases hencrypt

end KeyStoreHistory

open KeyStoreHistory in
/-- Whatever calls are made of a store that is empty at the beginning, it keeps the keys. -/
theorem keyStore_keeps (env : KeyStoreEnv G) (calls : List (KeyStoreCall env.curve.order))
    (h : KeyStoreHistory env.curve.order) (hproper : EventRun.Along (step env) (Proper env) calls {})
    (hrun : EventRun.run (step env) calls {} = some h) : Keeps env h :=
  (hproper.run_invariant (Inv env) (fun _ _ _ _ hinv hstep hp => hinv.step hstep hp) inv_nil hrun).keeps

/-! ## A store with one key -/

/-- A cipher that writes the master key in front. -/
def prefixCipher : Cipher where
  encrypt vMasterKey _ vchPlaintext := some (1 :: (vMasterKey ++ vchPlaintext))
  decrypt vMasterKey _ vchCiphertext :=
    if (vchCiphertext.drop 1).take vMasterKey.length = vMasterKey then
      some ((vchCiphertext.drop 1).drop vMasterKey.length)
    else none
  encrypt_ne_nil := by
    rintro _ _ _ _ ⟨⟩
    exact List.cons_ne_nil _ _
  decrypt_encrypt := by
    rintro key _ plain _ ⟨⟩
    rw [List.drop_one, List.tail_cons, List.take_left, if_pos rfl, List.drop_left]
  decrypt_other := by
    rintro key key' _ plain _ hne ⟨⟩ hdecrypt
    rw [List.drop_one, List.tail_cons] at hdecrypt
    split at hdecrypt
    · rename_i htake
      have hdrop := Option.some.inj hdecrypt
      have hsplit := List.take_append_drop key'.length (key ++ plain)
      rw [htake, hdrop] at hsplit
      exact hne (List.append_cancel_right hsplit)
    · cases hdecrypt

def smallStoreEnv : KeyStoreEnv (ZMod 7) where
  curve := smallCurve
  cipher := prefixCipher
  hash _ := 0

def storedKey : CKey smallStoreEnv.curve.order := (smallKey 0).key

def firstMasterKey : Bytes := List.replicate 32 1

def otherMasterKey : Bytes := List.replicate 32 2

def lockCalls : List (KeyStoreCall smallStoreEnv.curve.order) :=
  [.addKeyPubKey storedKey (smallStoreEnv.curve.getPubKey storedKey), .encryptKeys firstMasterKey,
    .unlock otherMasterKey, .lockKeyStore, .unlock firstMasterKey]

theorem lockCalls_proper : EventRun.Along (KeyStoreHistory.step smallStoreEnv) (KeyStoreHistory.Proper smallStoreEnv)
    lockCalls {} := by
  intro s o hstep
  refine ⟨rfl, fun s' o' hstep' => ⟨?_, fun _ _ _ => ⟨trivial, fun _ _ _ => ⟨trivial, fun _ _ _ => ⟨trivial, trivial⟩⟩⟩⟩⟩
  have hencrypts : (do
      let (s, _) ← KeyStoreHistory.step smallStoreEnv
        (.addKeyPubKey storedKey (smallStoreEnv.curve.getPubKey storedKey)) {}
      let (_, o) ← KeyStoreHistory.step smallStoreEnv (.encryptKeys firstMasterKey) s
      pure o) = some true := by decide
  simp only [hstep, hstep', Option.bind_eq_bind, Option.bind_some] at hencrypts
  exact .inl (Option.some.inj hencrypts)

theorem keyStore_keeps_lockCalls : ∃ h, EventRun.run (KeyStoreHistory.step smallStoreEnv) lockCalls {} = some h ∧
    h.store.isLocked = false ∧ KeyStoreHistory.Keeps smallStoreEnv h := by
  have hlocked : (EventRun.run (KeyStoreHistory.step smallStoreEnv) lockCalls {}).map (·.store.isLocked) =
      some false := by decide
  obtain ⟨h, hrun, hlocked⟩ := Option.map_eq_some_iff.1 hlocked
  exact ⟨h, hrun, hlocked, keyStore_keeps smallStoreEnv lockCalls h lockCalls_proper hrun⟩

/-- `EncryptKeys` of no keys keeps no master key, and `Unlock` accepts another one afterwards. Where it fails at a key,
the keys are not given out any more. -/
theorem keyStore_accepts_other :
    (({} : CCryptoKeyStore smallStoreEnv.curve.order).encryptKeys smallStoreEnv firstMasterKey).1 = true ∧
    ((({} : CCryptoKeyStore smallStoreEnv.curve.order).encryptKeys smallStoreEnv firstMasterKey).2.unlock
      smallStoreEnv otherMasterKey).map Prod.fst = some true ∧
    let store := (({} : CCryptoKeyStore smallStoreEnv.curve.order).addKeyPubKey smallStoreEnv storedKey
      (smallStoreEnv.curve.getPubKey storedKey)).2
    (store.encryptKeys smallStoreEnv []).1 = false ∧ store.getKey smallStoreEnv 0 = some (some storedKey) ∧
      (store.encryptKeys smallStoreEnv []).2.getKey smallStoreEnv 0 = none := by
  decide

end ProCurrency

import Mathlib.Data.ZMod.Basic
import ProCurrency.Hd.ExtKey

/-!
# Watch-only derivation

The public keys that are derived without the secret are those of the secret keys. Whatever overloads a path of
derivations goes through, it comes to the same keys, and the depth is counted modulo 256.
-/

namespace ProCurrency

variable {G : Type} [AddCommGroup G] {curve : CurveEnv G}

/-! ## One key -/

namespace CurveEnv

/-- A key is derived with the public key exactly when it is with the private one, and they belong together. -/
theorem pubkeyTweakAdd_smul [DecidableEq G] (secret : Nat) (tweak : Bytes) :
    curve.pubkeyTweakAdd (secret • curve.generator) tweak =
      (curve.privkeyTweakAdd secret tweak).map (· • curve.generator) := by
  rw [pubkeyTweakAdd, privkeyTweakAdd]
  cases curve.scalar tweak with
  | none => rfl
  | some term =>
      have hzero : secret • curve.generator + term • curve.generator = 0 ↔ (secret + term) % curve.order = 0 := by
        rw [← add_nsmul, smul_eq_zero_iff]
      by_cases h : (secret + term) % curve.order = 0
      · simp only [if_pos h, if_pos (hzero.2 h), Option.map_none]
      · simp only [if_neg h, if_neg (mt hzero.1 h), Option.map_some, smul_add_mod]

theorem privkeyTweakAdd_spec {secret secret' : Nat} {tweak : Bytes}
    (h : curve.privkeyTweakAdd secret tweak = some secret') : 0 < secret' ∧ secret' < curve.order := by
  rw [privkeyTweakAdd] at h
  split at h
  · cases h
  · split at h
    · cases h
    · rename_i hne
      cases h
      exact ⟨Nat.pos_of_ne_zero hne, Nat.mod_lt _ curve.prime_order.pos⟩

/-- The two libraries give the same compressed key. -/
theorem getPubKeyForced_eq {key : CKey curve.order} (hcomp : key.fCompressed = true) :
    curve.getPubKeyForced key true = curve.getPubKey key := by
  rw [getPubKeyForced, getPubKey, ofBeBytes_vch, hcomp, set_serialize]

variable {key key' : CKey curve.order} {cc cc' : Bytes} {nChild : UInt32}

theorem compressed_of_keyDerive (h : curve.keyDerive key cc nChild = some (key', cc')) : key'.fCompressed = true := by
  rw [keyDerive] at h
  simp only at h
  split_ifs at h
  all_goals
    split at h
    · cases h
    · obtain ⟨key₁, hset, heq⟩ := Option.map_eq_some_iff.1 h
      rw [CKey.ofNat] at hset
      split at hset
      · cases hset
        cases heq
        rfl
      · cases hset

/-- A child by the private key and one by the public key belong together, and so do the chain codes. -/
theorem pubKeyDerive_getPubKey [DecidableEq G] (hcomp : key.fCompressed = true) (hchild : nChild >>> 31 = 0) :
    curve.pubKeyDerive (curve.getPubKey key) cc nChild =
      (curve.keyDerive key cc nChild).map fun (keyChild, ccChild) => (curve.getPubKey keyChild, ccChild) := by
  have hpub : curve.getPubKey key = curve.serialize (key.secret • curve.generator) true := by
    rw [getPubKey, hcomp]
  have hlength : (curve.getPubKey key).length = 33 := by rw [hpub, curve.length_serialize]; rfl
  have hvalid : CPubKey.isValid (curve.getPubKey key) = true := by rw [CPubKey.isValid, hlength]; rfl
  have hparse : curve.parse (curve.getPubKey key) = some (key.secret • curve.generator) := by
    rw [hpub, curve.parse_serialize _ _ (smul_secret_ne_zero key)]
  rw [pubKeyDerive, keyDerive]
  simp only [hvalid, hcomp, hchild, hlength, hparse, Bool.not_true, Bool.false_eq_true, if_false, if_true, ne_eq,
    not_true_eq_false, and_false, pubkeyTweakAdd_smul]
  generalize curve.bip32Hash cc nChild ((curve.getPubKey key).headD 0) ((curve.getPubKey key).drop 1) = out
  cases htweak : curve.privkeyTweakAdd key.secret (out.take 32) with
  | none => rfl
  | some secret =>
      have hkey : CKey.ofNat curve.order secret true = some
          ⟨true, secret, (privkeyTweakAdd_spec htweak).1, (privkeyTweakAdd_spec htweak).2⟩ := by
        rw [CKey.ofNat, dif_pos (privkeyTweakAdd_spec htweak)]
      simp only [Option.map_some, hkey, set_serialize]
      rfl

end CurveEnv

/-! ## Paths -/

variable (curve) in
def CExtPubKey.derivePath [DecidableEq G] (epk : CExtPubKey) (path : List UInt32) : Option CExtPubKey :=
  path.foldlM (fun epk nChild => epk.derive curve nChild) epk

variable (curve) in
def CExtKey.derivePath (evk : CExtKey curve.order) (path : List UInt32) : Option (CExtKey curve.order) :=
  path.foldlM (fun evk nChild => evk.derive curve nChild) evk

namespace CExtKey

variable {evk evk' : CExtKey curve.order} {nChild : UInt32}

theorem compressed_of_derive (h : evk.derive curve nChild = some evk') : evk'.key.fCompressed = true := by
  obtain ⟨⟨key, cc⟩, hderive, rfl⟩ := Option.map_eq_some_iff.1 h
  exact CurveEnv.compressed_of_keyDerive hderive

variable [DecidableEq G]

theorem derive_neutered (hcomp : evk.key.fCompressed = true) (hchild : nChild >>> 31 = 0) :
    (evk.neutered curve).derive curve nChild = (evk.derive curve nChild).map (neutered curve) := by
  rw [CExtPubKey.derive, derive, neutered, CurveEnv.pubKeyDerive_getPubKey hcomp hchild, Option.map_map, Option.map_map]
  rfl

theorem derivePath_neutered {path : List UInt32} (hcomp : evk.key.fCompressed = true)
    (hpath : ∀ nChild ∈ path, nChild >>> 31 = 0) :
    (evk.neutered curve).derivePath curve path = (evk.derivePath curve path).map (neutered curve) := by
  induction path generalizing evk with
  | nil => rfl
  | cons nChild path ih =>
      obtain ⟨hchild, hrest⟩ := List.forall_mem_cons.1 hpath
      rw [CExtPubKey.derivePath, derivePath, List.foldlM_cons, List.foldlM_cons, derive_neutered hcomp hchild]
      cases hderive : evk.derive curve nChild with
      | none => rfl
      | some evk₁ => exact ih (compressed_of_derive hderive) hrest

end CExtKey

/-! ## Pairs -/

namespace ExtKeyPair

/-- The public part of the pair is that of the extended key, and its secret too, where it has one. -/
structure Of (kp : ExtKeyPair curve.order) (evk : CExtKey curve.order) : Prop where
  compressed : evk.key.fCompressed = true
  pub : kp.getExtPubKey = evk.neutered curve
  secret : ∀ key, kp.key = some key → key = evk.key

variable {kp kp' : ExtKeyPair curve.order} {evk evk' : CExtKey curve.order} {nChild : UInt32}

theorem of_ofExtKey (hcomp : evk.key.fCompressed = true) : (ofExtKey curve evk).Of evk :=
  ⟨hcomp, rfl, fun _ h => (Option.some.inj h).symm⟩

theorem of_ofExtPubKey (hcomp : evk.key.fCompressed = true) : (ofExtPubKey curve.order (evk.neutered curve)).Of evk :=
  ⟨hcomp, rfl, nofun⟩

theorem Of.neutered (h : kp.Of evk) : kp.neutered.Of evk := ⟨h.compressed, h.pub, nofun⟩

/-- The fields of the pair that the derivations read. -/
theorem Of.fields (h : kp.Of evk) : kp.nDepth = evk.nDepth ∧ kp.vchChainCode = evk.vchChainCode ∧
    kp.pubkey = curve.getPubKey evk.key :=
  ⟨congrArg CExtPubKey.nDepth h.pub, congrArg CExtPubKey.vchChainCode h.pub, congrArg CExtPubKey.pubkey h.pub⟩

theorem Of.deriveExtKey (h : kp.Of evk) (hkey : kp.key.isSome) :
    kp.deriveExtKey curve nChild = evk.derive curve nChild := by
  obtain ⟨key, hkp⟩ := Option.isSome_iff_exists.1 hkey
  obtain ⟨hdepth, hcc, _⟩ := h.fields
  obtain rfl := h.secret key hkp
  rw [ExtKeyPair.deriveExtKey, hkp, hdepth, hcc]
  rfl

/-- The pair can derive the child: the child is not hardened, or the pair has its secret. -/
def CanDerive (kp : ExtKeyPair curve.order) (nChild : UInt32) : Prop := nChild >>> 31 = 0 ∨ kp.key.isSome

variable [DecidableEq G]

theorem Of.deriveExtPubKey (h : kp.Of evk) (hcan : kp.CanDerive nChild) :
    kp.deriveExtPubKey curve nChild = (evk.derive curve nChild).map (CExtKey.neutered curve) := by
  obtain ⟨hdepth, hcc, hpub⟩ := h.fields
  rw [ExtKeyPair.deriveExtPubKey, hdepth, hcc, hpub]
  by_cases hchild : nChild >>> 31 = 0
  · rw [← CExtKey.derive_neutered h.compressed hchild]
    simp only [hchild, if_true]
    rfl
  · obtain ⟨key, hkp⟩ := Option.isSome_iff_exists.1 (hcan.resolve_left hchild)
    obtain rfl := h.secret key hkp
    simp only [hchild, if_false, hkp]
    rw [CExtKey.derive, Option.map_map]
    refine Option.map_congr fun ⟨keyChild, cc⟩ hderive => ?_
    simp only [Function.comp, CExtKey.neutered,
      CurveEnv.getPubKeyForced_eq (CurveEnv.compressed_of_keyDerive hderive)]

theorem Of.deriveSecret (h : kp.Of evk) (hkey : kp.key.isSome) :
    kp.deriveSecret curve.keyOps nChild = (evk.derive curve nChild).map CExtKey.key := by
  obtain ⟨key, hkp⟩ := Option.isSome_iff_exists.1 hkey
  obtain ⟨_, hcc, _⟩ := h.fields
  obtain rfl := h.secret key hkp
  rw [CExtKeyPair.deriveSecret, hkp, hcc, CExtKey.derive, Option.map_map]
  rfl

theorem Of.derivePubKey (h : kp.Of evk) (hcan : kp.CanDerive nChild) :
    kp.derivePubKey curve.keyOps nChild =
      (evk.derive curve nChild).map fun evkChild => curve.getPubKey evkChild.key := by
  obtain ⟨_, hcc, hpub⟩ := h.fields
  rw [CExtKeyPair.derivePubKey]
  by_cases hchild : nChild >>> 31 = 0
  · rw [if_pos hchild, hcc, hpub]
    show (curve.pubKeyDerive _ _ nChild).map Prod.fst = _
    rw [CurveEnv.pubKeyDerive_getPubKey h.compressed hchild, CExtKey.derive, Option.map_map, Option.map_map]
    rfl
  · rw [if_neg hchild, h.deriveSecret (hcan.resolve_left hchild), Option.map_map]
    refine Option.map_congr fun evkChild hderive => ?_
    exact CurveEnv.getPubKeyForced_eq (CExtKey.compressed_of_derive hderive)

/-- What the four overloads give for a child of an extended key. -/
structure OverloadsAgree (kp : ExtKeyPair curve.order) (evk : CExtKey curve.order) (nChild : UInt32) : Prop where
  extKey : kp.deriveExtKey curve nChild = if kp.key.isSome then evk.derive curve nChild else none
  secret : kp.deriveSecret curve.keyOps nChild =
    if kp.key.isSome then (evk.derive curve nChild).map CExtKey.key else none
  extPubKey : kp.deriveExtPubKey curve nChild =
    if nChild >>> 31 = 0 ∨ kp.key.isSome then (evk.derive curve nChild).map (CExtKey.neutered curve) else none
  pubKey : kp.derivePubKey curve.keyOps nChild =
    if nChild >>> 31 = 0 ∨ kp.key.isSome then (evk.derive curve nChild).map fun evkChild => curve.getPubKey evkChild.key
    else none

theorem Of.overloadsAgree (h : kp.Of evk) (nChild : UInt32) : kp.OverloadsAgree evk nChild := by
  refine ⟨?_, ?_, ?_, ?_⟩
  · split
    · rename_i hkey
      exact h.deriveExtKey hkey
    · rename_i hkey
      rw [ExtKeyPair.deriveExtKey, Option.not_isSome_iff_eq_none.1 hkey]
  · split
    · rename_i hkey
      exact h.deriveSecret hkey
    · rename_i hkey
      rw [CExtKeyPair.deriveSecret, Option.not_isSome_iff_eq_none.1 hkey, Option.bind_none]
  · split
    · rename_i hcan
      exact h.deriveExtPubKey hcan
    · rename_i hcan
      obtain ⟨hchild, hkey⟩ := not_or.1 hcan
      simp only [ExtKeyPair.deriveExtPubKey, if_neg hchild, Option.not_isSome_iff_eq_none.1 hkey]
  · split
    · rename_i hcan
      exact h.derivePubKey hcan
    · rename_i hcan
      obtain ⟨hchild, hkey⟩ := not_or.1 hcan
      rw [CExtKeyPair.derivePubKey, if_neg hchild, CExtKeyPair.deriveSecret, Option.not_isSome_iff_eq_none.1 hkey,
        Option.bind_none, Option.map_none]

end ExtKeyPair

/-! ## Mixed paths -/

/-- A step of a path: a child by one of the overloads for extended keys, and a pair again, or the secret dropped. -/
inductive DeriveStep where
  | extKey (nChild : UInt32)
  | extPubKey (nChild : UInt32)
  | neuter

def DeriveStep.child : DeriveStep → Option UInt32
  | extKey nChild => some nChild
  | extPubKey nChild => some nChild
  | neuter => none

namespace ExtKeyPair

variable [DecidableEq G]

variable (curve) in
def deriveStep (kp : ExtKeyPair curve.order) : DeriveStep → Option (ExtKeyPair curve.order)
  | .extKey nChild => (kp.deriveExtKey curve nChild).map (ofExtKey curve)
  | .extPubKey nChild => (kp.deriveExtPubKey curve nChild).map (ofExtPubKey curve.order)
  | .neuter => some kp.neutered

variable (curve) in
def deriveMixed (kp : ExtKeyPair curve.order) (steps : List DeriveStep) : Option (ExtKeyPair curve.order) :=
  steps.foldlM (deriveStep curve) kp

variable {kp kp' : ExtKeyPair curve.order} {evk : CExtKey curve.order}

theorem Of.step (h : kp.Of evk) {step : DeriveStep} (hstep : kp.deriveStep curve step = some kp') :
    ∃ evk', evk.derivePath curve step.child.toList = some evk' ∧ kp'.Of evk' := by
  cases step with
  | neuter =>
      cases hstep
      exact ⟨evk, rfl, h.neutered⟩
  | extKey nChild =>
      obtain ⟨vk, hderive, rfl⟩ := Option.map_eq_some_iff.1 hstep
      rw [(h.overloadsAgree nChild).extKey] at hderive
      split at hderive
      · exact ⟨vk, (bind_pure _).trans hderive, of_ofExtKey (CExtKey.compressed_of_derive hderive)⟩
      · cases hderive
  | extPubKey nChild =>
      obtain ⟨epk, hderive, rfl⟩ := Option.map_eq_some_iff.1 hstep
      rw [(h.overloadsAgree nChild).extPubKey] at hderive
      split at hderive
      · obtain ⟨evk', hevk, rfl⟩ := Option.map_eq_some_iff.1 hderive
        exact ⟨evk', (bind_pure _).trans hevk, of_ofExtPubKey (CExtKey.compressed_of_derive hevk)⟩
      · cases hderive

theorem Of.mixed (h : kp.Of evk) {steps : List DeriveStep} (hsteps : kp.deriveMixed curve steps = some kp') :
    ∃ evk', evk.derivePath curve (steps.filterMap DeriveStep.child) = some evk' ∧ kp'.Of evk' := by
  induction steps generalizing kp evk with
  | nil =>
      cases hsteps
      exact ⟨evk, rfl, h⟩
  | cons step steps ih =>
      rw [deriveMixed, List.foldlM_cons] at hsteps
      obtain ⟨kp₁, hstep, hrest⟩ := Option.bind_eq_some_iff.1 hsteps
      obtain ⟨evk₁, hevk₁, hof⟩ := h.step hstep
      obtain ⟨evk', hevk', hof'⟩ := ih hof hrest
      refine ⟨evk', ?_, hof'⟩
      have hsplit : (step :: steps).filterMap DeriveStep.child = step.child.toList ++ steps.filterMap DeriveStep.child := by
        cases step <;> rfl
      rw [hsplit, CExtKey.derivePath, List.foldlM_append]
      exact Option.bind_eq_some_iff.2 ⟨evk₁, hevk₁, hevk'⟩

end ExtKeyPair

/-! ## The depth -/

namespace CExtKey

theorem nDepth_derive {evk evk' : CExtKey curve.order} {nChild : UInt32} (h : evk.derive curve nChild = some evk') :
    evk'.nDepth = evk.nDepth + 1 := by
  obtain ⟨_, _, rfl⟩ := Option.map_eq_some_iff.1 h
  rfl

theorem nDepth_derivePath {evk evk' : CExtKey curve.order} {path : List UInt32}
    (h : evk.derivePath curve path = some evk') : evk'.nDepth.toNat = (evk.nDepth.toNat + path.length) % 256 := by
  induction path generalizing evk with
  | nil =>
      cases h
      exact (Nat.mod_eq_of_lt (UInt8.toNat_lt _)).symm
  | cons nChild path ih =>
      rw [derivePath, List.foldlM_cons] at h
      obtain ⟨evk₁, hderive, hrest⟩ := Option.bind_eq_some_iff.1 h
      rw [ih hrest, nDepth_derive hderive, UInt8.toNat_add, List.length_cons]
      show ((evk.nDepth.toNat + 1) % 256 + path.length) % 256 = _
      omega

end CExtKey

/-! ## Stored keys -/

namespace CStoredExtKey

variable {PK SK T U : Type}

/-- Two derivations that agree at each number that `DeriveKey` may try. -/
theorem deriveFrom_map {derive : CExtKeyPair PK SK → UInt32 → Option T} {derive' : CExtKeyPair PK SK → UInt32 → Option U}
    {f : T → U} {sek sek' : CStoredExtKey PK SK} {fHardened : Bool}
    (h : ∀ nChild : UInt32, fHardened = true ∨ nChild >>> 31 = 0 → (derive sek.kp nChild).map f = derive' sek'.kp nChild)
    (tries : Nat) (nChildIn : UInt32) :
    (sek.deriveFrom derive fHardened tries nChildIn).map (Prod.map f id) =
      sek'.deriveFrom derive' fHardened tries nChildIn := by
  induction tries generalizing nChildIn with
  | zero => rfl
  | succ tries ih =>
      rw [deriveFrom, deriveFrom]
      by_cases htop : nChildIn >>> 31 = 1
      · simp only [if_pos htop]
        rfl
      · simp only [if_neg htop]
        have hclear : fHardened = true ∨ (if fHardened then hardenedChild nChildIn else nChildIn) >>> 31 = 0 := by
          cases fHardened with
          | true => exact .inl rfl
          | false =>
              rw [top_bit_iff] at htop
              exact .inr ((top_bit_clear_iff nChildIn).2 (Nat.lt_of_not_le htop))
        have hsame := h _ hclear
        cases hderive : derive sek.kp (if fHardened then hardenedChild nChildIn else nChildIn) with
        | none =>
            rw [hderive] at hsame
            simp only [← hsame, Option.map_none]
            exact ih (nChildIn + 1)
        | some keyOut =>
            rw [hderive] at hsame
            simp only [← hsame, Option.map_some]
            rfl

variable [DecidableEq G] {kp : ExtKeyPair curve.order} {evk : CExtKey curve.order}

/-- `DeriveKey` gives the public keys of the private keys that it gives. -/
theorem deriveKey_getPubKey (h : kp.Of evk) (hkey : kp.key.isSome) {sek : CStoredExtKey CPubKey (CKey curve.order)}
    (hsek : sek.kp = kp.toCExtKeyPair) (nChildIn : UInt32) (fHardened : Bool) :
    (sek.deriveKey (CExtKeyPair.deriveSecret curve.keyOps) nChildIn fHardened).map (Prod.map curve.getPubKey id) =
      sek.deriveKey (CExtKeyPair.derivePubKey curve.keyOps) nChildIn fHardened := by
  rw [deriveKey, deriveKey]
  split
  · rfl
  · refine deriveFrom_map (fun nChild _ => ?_) _ _
    rw [hsek, h.deriveSecret hkey, h.derivePubKey (.inr hkey), Option.map_map]
    rfl

omit [DecidableEq G] in
/-- A wallet without the secret is given the same keys. -/
theorem deriveKey_neutered {ops : KeyOps CPubKey (CKey curve.order)} {sek : CStoredExtKey CPubKey (CKey curve.order)}
    (nChildIn : UInt32) :
    { sek with kp := sek.kp.neutered }.deriveKey (CExtKeyPair.derivePubKey ops) nChildIn false =
      sek.deriveKey (CExtKeyPair.derivePubKey ops) nChildIn false := by
  have hmap := @deriveFrom_map _ _ _ _ (CExtKeyPair.derivePubKey ops) (CExtKeyPair.derivePubKey ops) id
    { sek with kp := sek.kp.neutered } sek false
  have hsame : ∀ nChild : UInt32, false = true ∨ nChild >>> 31 = 0 →
      (CExtKeyPair.derivePubKey ops sek.kp.neutered nChild).map id = CExtKeyPair.derivePubKey ops sek.kp nChild := by
    intro nChild hchild
    have hclear := hchild.resolve_left Bool.false_ne_true
    rw [Option.map_id_fun, id, CExtKeyPair.derivePubKey, CExtKeyPair.derivePubKey, if_pos hclear, if_pos hclear]
    rfl
  have h := hmap hsame MAX_DERIVE_TRIES nChildIn
  rw [Prod.map_id, Except.map_id] at h
  simp only [deriveKey, Bool.false_eq_true, false_and, if_false]
  exact h

end CStoredExtKey

/-- A pair whose public key is the compressed one of its secret, as an extended key. -/
theorem ExtKeyPair.of_getExtKey {kp : ExtKeyPair curve.order} {evk : CExtKey curve.order}
    (hkp : kp.getExtKey = some evk) (hcomp : evk.key.fCompressed = true)
    (hpub : kp.pubkey = curve.getPubKeyForced evk.key true) : kp.Of evk := by
  obtain ⟨key, hkey, rfl⟩ := Option.map_eq_some_iff.1 hkp
  refine ⟨hcomp, ?_, fun key' hkey' => Option.some.inj (hkey'.symm.trans hkey)⟩
  rw [ExtKeyPair.getExtPubKey, hpub, CurveEnv.getPubKeyForced_eq hcomp]
  rfl

/-- Without the secret, by any of the overloads and for any stored key, the same keys are derived. The depth is counted
modulo 256. -/
theorem watching_agrees [DecidableEq G] (curve : CurveEnv G) (kp : ExtKeyPair curve.order) (evk : CExtKey curve.order)
    (hkp : kp.getExtKey = some evk) (hcomp : evk.key.fCompressed = true)
    (hpub : kp.pubkey = curve.getPubKeyForced evk.key true) :
    (∀ path : List UInt32, (∀ nChild ∈ path, nChild >>> 31 = 0) →
      kp.neutered.getExtPubKey.derivePath curve path = (evk.derivePath curve path).map (CExtKey.neutered curve)) ∧
    (∀ steps kp', kp.deriveMixed curve steps = some kp' →
      ∃ evk', evk.derivePath curve (steps.filterMap DeriveStep.child) = some evk' ∧
        kp'.getExtPubKey = evk'.neutered curve ∧ (∀ key, kp'.key = some key → key = evk'.key) ∧
        ∀ nChild, kp'.OverloadsAgree evk' nChild) ∧
    (∀ path evk', evk.derivePath curve path = some evk' →
      evk'.nDepth.toNat = (evk.nDepth.toNat + path.length) % 256) ∧
    ∀ sek : CStoredExtKey CPubKey (CKey curve.order), sek.kp = kp.toCExtKeyPair → ∀ nChildIn fHardened,
      (sek.deriveKey (CExtKeyPair.deriveSecret curve.keyOps) nChildIn fHardened).map (Prod.map curve.getPubKey id) =
          sek.deriveKey (CExtKeyPair.derivePubKey curve.keyOps) nChildIn fHardened ∧
        { sek with kp := sek.kp.neutered }.deriveKey (CExtKeyPair.derivePubKey curve.keyOps) nChildIn false =
          sek.deriveKey (CExtKeyPair.derivePubKey curve.keyOps) nChildIn false := by
  have hof := ExtKeyPair.of_getExtKey hkp hcomp hpub
  have hkey : kp.key.isSome := by
    obtain ⟨key, hkey, _⟩ := Option.map_eq_some_iff.1 hkp
    rw [hkey]
    rfl
  refine ⟨fun path hpath => ?_, fun steps kp' hsteps => ?_, fun _ _ => CExtKey.nDepth_derivePath,
    fun sek hsek nChildIn fHardened => ⟨?_, CStoredExtKey.deriveKey_neutered nChildIn⟩⟩
  · rw [hof.neutered.pub]
    exact CExtKey.derivePath_neutered hcomp hpath
  · obtain ⟨evk', hpath, hof'⟩ := hof.mixed hsteps
    exact ⟨evk', hpath, hof'.pub, hof'.secret, hof'.overloadsAgree⟩
  · exact CStoredExtKey.deriveKey_getPubKey hof hkey hsek nChildIn fHardened

/-! ## A small group -/

/-- A group of seven points, and a hash that gives the tweak 1. -/
def smallCurve : CurveEnv (ZMod 7) where
  generator := 1
  order := 7
  serialize P fCompressed :=
    (if fCompressed then 2 else 4) ::
      (List.replicate 31 0 ++ UInt8.ofNat P.val :: List.replicate (if fCompressed then 0 else 32) 0)
  parse vch := some (vch.getD 32 0).toNat
  bip32Hash _ _ _ _ := List.replicate 31 0 ++ [1] ++ List.replicate 32 9
  hash160 _ := 0
  addOrderOf_generator := ZMod.addOrderOf_one 7
  prime_order := by decide
  order_le := by decide
  length_serialize _ fCompressed := by cases fCompressed <;> rfl
  header_serialize _ fCompressed := by cases fCompressed <;> rfl
  parse_serialize := by decide

def smallKey (nDepth : UInt8) : CExtKey smallCurve.order where
  nDepth := nDepth
  vchFingerprint := [0, 0, 0, 0]
  nChild := 0
  vchChainCode := List.replicate 32 9
  key := ⟨true, 3, by decide, by decide⟩

theorem watching_agrees_smallKey :
    (ExtKeyPair.ofExtKey smallCurve (smallKey 0)).neutered.getExtPubKey.derivePath smallCurve [1, 2] =
      ((smallKey 0).derivePath smallCurve [1, 2]).map (CExtKey.neutered smallCurve) := by
  refine (watching_agrees smallCurve (ExtKeyPair.ofExtKey smallCurve (smallKey 0)) (smallKey 0) rfl rfl ?_).1 [1, 2] ?_
  · decide
  · intro nChild hmem
    rcases List.mem_cons.mp hmem with rfl | hmem
    · rfl
    · cases List.mem_singleton.mp hmem
      rfl

/-- The child of a key of depth 255 has depth 0. -/
theorem nDepth_wraps :
    ((smallKey 255).derive smallCurve 1).map CExtKey.nDepth = some 0 ∧
      ¬∀ nChild evk', (smallKey 255).derive smallCurve nChild = some evk' →
        evk'.nDepth.toNat = (smallKey 255).nDepth.toNat + 1 := by
  have hwraps : ((smallKey 255).derive smallCurve 1).map CExtKey.nDepth = some 0 := by decide
  refine ⟨hwraps, fun h => ?_⟩
  obtain ⟨evk', hderive, hdepth⟩ := Option.map_eq_some_iff.1 hwraps
  have hnext := h 1 evk' hderive
  rw [hdepth] at hnext
  cases hnext

end ProCurrency

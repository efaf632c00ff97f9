import ProCurrency.Hd.KeyPathTheorems
import ProCurrency.Hd.Watching

/-!
# The key of a new account

What `CWallet::ExtKeyDeriveNewAccount` (wallet.cpp) derives from the master key. `ExtractExtKeyPath` reads a leading `m`
as a number 0, the loop derives a child for it, and `PathToString` puts another `m` in front.
-/

namespace ProCurrency

open KeyPath ByteCodec

/-- The master key in the wallet, with the fields of the pair that `CStoredExtKey` leaves out. -/
structure MasterKey (order : Nat) where
  sek : CStoredExtKey CPubKey (CKey order)
  nDepth : UInt8
  vchFingerprint : Bytes
  nChild : UInt32

def MasterKey.kp {order : Nat} (master : MasterKey order) : ExtKeyPair order where
  toCExtKeyPair := master.sek.kp
  nDepth := master.nDepth
  vchFingerprint := master.vchFingerprint
  nChild := master.nChild

/-- `sekAccount`. -/
structure AccountKey (order : Nat) where
  kp : ExtKeyPair order
  /-- `mapValue[EKVT_PATH]`. -/
  path : Bytes

/-- Why there is no account key. -/
inductive AccountError
  | locked
  | invalidMaster
  | nextKey (e : DeriveError)
  | path (rv : Nat)
  | derive (nChild : UInt32)
  | invalidKey
deriving DecidableEq

section

variable {G : Type} [AddCommGroup G] (curve : CurveEnv G)

/-- The loop over `vPath`, with `vkWork` and `vAccountPath`. -/
def deriveAlong (vkWork : CExtKey curve.order) (vAccountPath : Bytes) :
    List UInt32 → Except AccountError (CExtKey curve.order × Bytes)
  | [] => .ok (vkWork, vAccountPath)
  | nChild :: vPath =>
      match vkWork.derive curve nChild with
      | none => .error (.derive nChild)
      | some vkOut => deriveAlong vkOut (vAccountPath ++ leBytes 4 nChild.toNat) vPath

/-- `evAccountKey` or `vkOut`, and its path. The path is empty when the caller names none. -/
def deriveFromMaster (master : MasterKey curve.order) (vkWork : CExtKey curve.order) (sPath : Bytes) :
    Except AccountError (CExtKey curve.order × Bytes) :=
  if sPath.length = 0 then
    match master.sek.deriveNextKey (fun _ nChild => master.kp.deriveExtKey curve nChild) true with
    | .error e => .error (.nextKey e)
    | .ok (evAccountKey, nAccount, _) => .ok (evAccountKey, leBytes 4 nAccount.toNat)
  else
    match extractExtKeyPath sPath with
    | .error rv => .error (.path rv)
    | .ok vPath => deriveAlong curve vkWork [] vPath

/-- `ExtKeyDeriveNewAccount`, up to the account key. -/
def deriveAccountKey (fLocked : Bool) (pEkMaster : Option (MasterKey curve.order)) (sPath : Bytes) :
    Except AccountError (AccountKey curve.order) :=
  if fLocked then .error .locked
  else
    match pEkMaster with
    | none => .error .invalidMaster
    | some master =>
        match master.kp.getExtKey with
        | none => .error .invalidMaster
        | some vkWork =>
            match deriveFromMaster curve master vkWork sPath with
            | .error e => .error e
            | .ok (vkOut, path) =>
                let kp := ExtKeyPair.ofExtKey curve vkOut
                if kp.isValidV && CPubKey.isValid kp.pubkey then .ok { kp, path } else .error .invalidKey

/-! ## Paths below the master -/

/-- The numbers below the master; a leading `m` is the master. -/
def pathBelow (sPath : Bytes) (vPath : List UInt32) : List UInt32 := if StartsM sPath then vPath.tail else vPath

/-- The key at a path below the master key. -/
def MasterKey.keyAt (master : MasterKey curve.order) (path : List UInt32) : Option (ExtKeyPair curve.order) :=
  (master.kp.getExtKey.bind fun vk => vk.derivePath curve path).map (ExtKeyPair.ofExtKey curve)

end

variable {G : Type} [AddCommGroup G] {curve : CurveEnv G}

theorem deriveAlong_eq {vkWork vkOut : CExtKey curve.order} {vAccountPath path : Bytes} {vPath : List UInt32}
    (h : deriveAlong curve vkWork vAccountPath vPath = .ok (vkOut, path)) :
    vkWork.derivePath curve vPath = some vkOut ∧ path = vAccountPath ++ pack vPath := by
  induction vPath generalizing vkWork vAccountPath with
  | nil =>
      cases h
      exact ⟨rfl, (List.append_nil _).symm⟩
  | cons nChild vPath ih =>
      rw [deriveAlong] at h
      cases hderive : vkWork.derive curve nChild with
      | none =>
          rw [hderive] at h
          cases h
      | some vk =>
          rw [hderive] at h
          obtain ⟨hpath, rfl⟩ := ih h
          refine ⟨?_, ?_⟩
          · rw [CExtKey.derivePath, List.foldlM_cons, hderive]
            exact hpath
          · rw [List.append_assoc]
            rfl

/-- An account key is the key at the whole of the path that was read, with a child 0 for a leading `m`. -/
theorem deriveAccountKey_keyAt {master : MasterKey curve.order} {sPath : Bytes} {account : AccountKey curve.order}
    (hne : sPath ≠ []) (h : deriveAccountKey curve false (some master) sPath = .ok account) :
    ∃ vPath, extractExtKeyPath sPath = .ok vPath ∧ master.keyAt curve vPath = some account.kp ∧
      account.path = pack vPath := by
  rw [deriveAccountKey, if_neg Bool.false_ne_true] at h
  dsimp only at h
  cases hmaster : master.kp.getExtKey with
  | none =>
      rw [hmaster] at h
      cases h
  | some vkWork =>
      rw [hmaster] at h
      dsimp only at h
      rw [deriveFromMaster, if_neg fun hlength => hne (List.length_eq_zero_iff.mp hlength)] at h
      cases haccept : extractExtKeyPath sPath with
      | error rv =>
          rw [haccept] at h
          cases h
      | ok vPath =>
          rw [haccept] at h
          dsimp only at h
          cases halong : deriveAlong curve vkWork [] vPath with
          | error e =>
              rw [halong] at h
              cases h
          | ok out =>
              obtain ⟨vkOut, path⟩ := out
              obtain ⟨hpath, rfl⟩ := deriveAlong_eq halong
              rw [halong] at h
              dsimp only at h
              split_ifs at h
              cases h
              refine ⟨vPath, rfl, ?_, rfl⟩
              rw [MasterKey.keyAt, hmaster, Option.bind_some, hpath]
              rfl

theorem MasterKey.nDepth_keyAt {master : MasterKey curve.order} {path : List UInt32} {kp : ExtKeyPair curve.order}
    (h : master.keyAt curve path = some kp) : kp.nDepth.toNat = (master.nDepth.toNat + path.length) % 256 := by
  obtain ⟨vk, hvk, rfl⟩ := Option.map_eq_some_iff.mp h
  obtain ⟨vkMaster, hmaster, hpath⟩ := Option.bind_eq_some_iff.mp hvk
  obtain ⟨key, -, rfl⟩ := Option.map_eq_some_iff.mp hmaster
  exact CExtKey.nDepth_derivePath hpath

/-- One level more gives another key. -/
theorem MasterKey.keyAt_cons_ne {master : MasterKey curve.order} {nChild : UInt32} {path : List UInt32}
    {kp kp' : ExtKeyPair curve.order} (h : master.keyAt curve path = some kp)
    (h' : master.keyAt curve (nChild :: path) = some kp') : kp' ≠ kp := by
  rintro rfl
  have hdepth := nDepth_keyAt h
  have hdepth' := nDepth_keyAt h'
  rw [hdepth, List.length_cons] at hdepth'
  omega

/-! ## Reading a path with an `m` in front -/

theorem map_toNat_injective {v v' : List UInt32} (h : (v.map fun n => some n.toNat) = v'.map fun n => some n.toNat) :
    v = v' := by
  refine List.map_injective_iff.mpr ?_ h
  intro n n' hn
  exact UInt32.toNat_inj.mp (Option.some.inj hn)

theorem strtok_m (s : Bytes) : strtok ([109, slash] ++ s) = [109] :: strtok s := by
  have htake : ([109, slash] ++ s).takeWhile (· ≠ 0) = [109] ++ slash :: s.takeWhile (· ≠ 0) := rfl
  rw [strtok, htake, List.splitOn_append_cons_self_of_not_mem (by decide)]
  rfl

/-- With an `m` in front a path is read with a 0 in front. -/
theorem extractExtKeyPath_m {sPath : Bytes} {vPath vPath' : List UInt32} (h : extractExtKeyPath sPath = .ok vPath)
    (h' : extractExtKeyPath ([109, slash] ++ sPath) = .ok vPath') : vPath' = 0 :: vPath := by
  have hvalues := (extractExtKeyPath_ok h').2
  rw [strtok_m, List.map_cons, (extractExtKeyPath_ok h).2] at hvalues
  exact (map_toNat_injective (v := 0 :: vPath) hvalues).symm

/-- A printed path is read with a 0 in front. -/
theorem extractExtKeyPath_of_printed {cH : UInt8} (hmarker : isMarker cH = true) {vPath vPath' : List UInt32} {text : Bytes}
    (htext : pathToString (pack vPath) cH = .ok text) (h : extractExtKeyPath text = .ok vPath') : vPath' = 0 :: vPath := by
  rw [pathToString_pack] at htext
  cases htext
  have hvalues := (extractExtKeyPath_ok h).2
  rw [strtok_printed hmarker, printed_values hmarker] at hvalues
  exact (map_toNat_injective hvalues).symm

theorem ne_nil_of_accepted {sPath : Bytes} {vPath : List UInt32} (h : extractExtKeyPath sPath = .ok vPath) :
    vPath ≠ [] := by
  rintro rfl
  rw [extractExtKeyPath] at h
  split_ifs at h
  cases hparse : parseTokens [] (strtok sPath) with
  | error rv =>
      rw [hparse] at h
      cases h
  | ok vPath =>
      rw [hparse] at h
      dsimp only at h
      split_ifs at h with hlength
      cases h
      exact hlength (Nat.zero_lt_one)

/-- An account key is the key at its path exactly when the path has no `m` in front. The account of the path with an `m`
in front is another one, and so is that of the path that is printed for the account. -/
theorem accountPath_meets_iff (curve : CurveEnv G) (master : MasterKey curve.order) (sPath : Bytes) (vPath : List UInt32)
    (account : AccountKey curve.order) (haccept : extractExtKeyPath sPath = .ok vPath)
    (h : deriveAccountKey curve false (some master) sPath = .ok account) :
    (master.keyAt curve (pathBelow sPath vPath) = some account.kp ↔ ¬StartsM sPath) ∧
    (∀ account', deriveAccountKey curve false (some master) ([109, slash] ++ sPath) = .ok account' →
      account'.kp ≠ account.kp) ∧
    ∀ cH text account', isMarker cH = true → pathToString account.path cH = .ok text →
      deriveAccountKey curve false (some master) text = .ok account' → account'.kp ≠ account.kp := by
  have hne : sPath ≠ [] := by
    rintro rfl
    cases haccept
  obtain ⟨vPath₀, haccept₀, hkey, hpath⟩ := deriveAccountKey_keyAt hne h
  cases Except.ok.inj (haccept₀.symm.trans haccept)
  refine ⟨⟨fun hat hm => ?_, fun hm => ?_⟩, fun account' h' => ?_, fun cH text account' hmarker htext h' => ?_⟩
  · obtain ⟨nChild, rest, hcons⟩ := List.exists_cons_of_ne_nil (ne_nil_of_accepted haccept)
    rw [pathBelow, if_pos hm, hcons, List.tail_cons] at hat
    rw [hcons] at hkey
    exact MasterKey.keyAt_cons_ne hat hkey rfl
  · rw [pathBelow, if_neg hm]
    exact hkey
  · obtain ⟨vPath', haccept', hkey', -⟩ := deriveAccountKey_keyAt (List.cons_ne_nil _ _) h'
    rw [extractExtKeyPath_m haccept haccept'] at hkey'
    exact MasterKey.keyAt_cons_ne hkey hkey'
  · rw [hpath] at htext
    have htextNe : text ≠ [] := by
      rw [pathToString_pack] at htext
      cases htext
      exact List.cons_ne_nil _ _
    obtain ⟨vPath', haccept', hkey', -⟩ := deriveAccountKey_keyAt htextNe h'
    rw [extractExtKeyPath_of_printed hmarker htext haccept'] at hkey'
    exact MasterKey.keyAt_cons_ne hkey hkey'

/-! ## A small master key -/

def smallMaster : MasterKey smallCurve.order where
  sek := { kp := (ExtKeyPair.ofExtKey smallCurve (smallKey 0)).toCExtKeyPair }
  nDepth := 0
  vchFingerprint := [0, 0, 0, 0]
  nChild := 0

theorem accountPath_meets_iff_smallMaster :
    ∃ account, deriveAccountKey smallCurve false (some smallMaster) [49] = .ok account ∧
      smallMaster.keyAt smallCurve [1] = some account.kp := by
  obtain ⟨account, h⟩ : ∃ account, deriveAccountKey smallCurve false (some smallMaster) [49] = .ok account := ⟨_, rfl⟩
  refine ⟨account, h, ?_⟩
  exact (accountPath_meets_iff smallCurve smallMaster [49] [1] account rfl h).1.mpr (by decide)

/-- The strings `1` and `m/1` give two accounts, and the path of the second one is not read again. -/
theorem accountPath_of_m :
    ∃ account account', deriveAccountKey smallCurve false (some smallMaster) [49] = .ok account ∧
      smallMaster.keyAt smallCurve [1] = some account.kp ∧
      deriveAccountKey smallCurve false (some smallMaster) [109, slash, 49] = .ok account' ∧
      account'.kp ≠ account.kp ∧ pathToString account'.path 104 = .ok [109, slash, 48, slash, 49] ∧
      deriveAccountKey smallCurve false (some smallMaster) [109, slash, 48, slash, 49] = .error (.path 6) := by
  refine ⟨_, _, rfl, rfl, rfl, fun hkp => ?_, rfl, rfl⟩
  exact absurd (congrArg ExtKeyPair.nDepth hkp) (by decide)

end ProCurrency

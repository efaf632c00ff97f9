import ProCurrency.Lib.PackedMap
import ProCurrency.Script.Agreement
import ProCurrency.Script.Lemmas.Templates
import ProCurrency.Script.Sign

/-!
# Signatures of a key store

What is assumed of the keys and of the store, and what `Solver` then pushes for a script that is spendable.
-/

namespace ProCurrency

open ByteCodec CScript CBitcoinAddress

/-! ## What is assumed -/

variable {Key : Type} {c : ScriptCrypto} {k : KeyCrypto Key} {store : CKeyStore Key}

/-- `Hash160` has 20 bytes, public keys are written in one of the two ways, and `Sign` makes a signature that verifies,
in DER. With the hash type behind it, it is not the hash of the public key. -/
structure KeyCrypto.Correct (c : ScriptCrypto) (k : KeyCrypto Key) : Prop where
  length_hash160 : ∀ vch, (c.hash160 vch).length = 20
  pubKey : ∀ key, isCompressedOrUncompressedPubKey (k.getPubKey key)
  sign : ∀ key hash, ∃ vchSig, k.sign key hash = some vchSig ∧ c.verify (k.getPubKey key) hash vchSig ∧
    isDERSignature (vchSig ++ [SIGHASH_ALL]) true ∧ vchSig ++ [SIGHASH_ALL] ≠ c.hash160 (k.getPubKey key)

/-- The store has key pairs under the ids of their public keys, and scripts under theirs. -/
structure CKeyStore.Valid (c : ScriptCrypto) (k : KeyCrypto Key) (store : CKeyStore Key) : Prop where
  key : ∀ address, store.haveKey address → ∃ key, store.getKey address = some key ∧
    store.getPubKey address = some (k.getPubKey key) ∧ (k.getPubKey key).getID c = address
  script : ∀ hash subscript, store.getCScript hash = some subscript →
    subscript.getID c = hash ∧ subscript.length ≤ MAX_SCRIPT_ELEMENT_SIZE

/-- A store that calls have made out of an empty one. -/
inductive CBasicKeyStore.Made (c : ScriptCrypto) (k : KeyCrypto Key) : CBasicKeyStore Key → Prop
  | empty : Made c k {}
  | addKey {store : CBasicKeyStore Key} (h : Made c k store) (key : Key) : Made c k (store.addKey c k key)
  | addCScript {store : CBasicKeyStore Key} (h : Made c k store) (redeemScript : CScript) :
      Made c k (store.addCScript c redeemScript).2
  | addWatchOnly {store : CBasicKeyStore Key} (h : Made c k store) (dest : CScript) : Made c k (store.addWatchOnly dest)
  | removeWatchOnly {store : CBasicKeyStore Key} (h : Made c k store) (dest : CScript) :
      Made c k (store.removeWatchOnly dest)

/-- Keys are added with their public keys, and scripts that can be pushed. -/
theorem CBasicKeyStore.Made.valid {store : CBasicKeyStore Key} (h : Made c k store) :
    (store.toKeyStore k).Valid c k := by
  induction h with
  | empty =>
      refine ⟨fun address hhave => ?_, fun hash subscript hsubscript => ?_⟩
      · exact absurd hhave (by simp [toKeyStore])
      · exact absurd hsubscript (by simp [toKeyStore])
  | @addKey store _ key ih =>
      refine ⟨fun address hhave => ?_, ih.script⟩
      have hget : (store.mapKeys.insert ((k.getPubKey key).getID c) key)[address]? =
          if (k.getPubKey key).getID c = address then some key else store.mapKeys[address]? :=
        PackedMap.getElem?_insert _ _ _ _
      change (store.mapKeys.insert ((k.getPubKey key).getID c) key).contains address = true at hhave
      rw [Std.ExtTreeMap.contains_eq_isSome_getElem?, hget] at hhave
      change ∃ key', (store.mapKeys.insert ((k.getPubKey key).getID c) key)[address]? = some key' ∧
        ((store.mapKeys.insert ((k.getPubKey key).getID c) key)[address]?).map k.getPubKey = some (k.getPubKey key') ∧ _
      rw [hget]
      split_ifs at hhave ⊢ with haddress
      · exact ⟨key, rfl, rfl, haddress⟩
      · rw [← Std.ExtTreeMap.contains_eq_isSome_getElem?] at hhave
        exact ih.key address hhave
  | @addCScript store _ redeemScript ih =>
      rw [CBasicKeyStore.addCScript]
      split_ifs with hlength
      · exact ih
      · refine ⟨ih.key, fun hash subscript hsubscript => ?_⟩
        have hget : (store.mapScripts.insert (redeemScript.getID c) redeemScript)[hash]? =
            if redeemScript.getID c = hash then some redeemScript else store.mapScripts[hash]? :=
          PackedMap.getElem?_insert _ _ _ _
        change (store.mapScripts.insert (redeemScript.getID c) redeemScript)[hash]? = some subscript at hsubscript
        rw [hget] at hsubscript
        split_ifs at hsubscript with hid
        · cases hsubscript
          exact ⟨hid, Nat.not_lt.1 hlength⟩
        · exact ih.script hash subscript hsubscript
  | addWatchOnly _ _ ih => exact ⟨ih.key, ih.script⟩
  | removeWatchOnly _ _ ih => exact ⟨ih.key, ih.script⟩

/-- The public keys that are written in a script. -/
def publicKeysOf (script : CScript) : List Bytes :=
  match solver script with
  | some (true, .pubKey, vSolutions) => vSolutions
  | some (true, .multisig, vSolutions) => (vSolutions.drop 1).dropLast
  | _ => []

/-- A public key in the script that has the id of a key in the store is the public key of that key. -/
def CKeyStore.Distinguishes (c : ScriptCrypto) (k : KeyCrypto Key) (store : CKeyStore Key) (script : CScript) : Prop :=
  ∀ vch ∈ publicKeysOf script, ∀ key, store.getKey ((CPubKey.set vch).getID c) = some key →
    CPubKey.set vch = k.getPubKey key

/-- A script hash whose redeem script in the store is a script hash as well. -/
def CKeyStore.NestsScriptHash (store : CKeyStore Key) (script : CScript) : Prop :=
  ∃ scriptID subscript, script = OP_HASH160 :: 20 :: (writeKeyID scriptID ++ [OP_EQUAL]) ∧
    store.getCScript scriptID = some subscript ∧ subscript.isPayToScriptHash

/-! ## The hash that is signed -/

section Hash

variable (txTo : CTransaction) (nIn : Nat) (scriptSig : CScript)

theorem mapIdx_modify {α β : Type} {f : α → α} {g : Nat → α → β} (h : ∀ i a, g i (f a) = g i a) (l : List α) (n : Nat) :
    (l.modify n f).mapIdx g = l.mapIdx g := by
  refine List.ext_getElem? fun i => ?_
  rw [List.getElem?_mapIdx, List.getElem?_mapIdx, List.getElem?_modify]
  cases l[i]? with
  | none => rfl
  | some a =>
      change some (g i (if n = i then f a else a)) = some (g i a)
      split_ifs
      · rw [h]
      · rfl

theorem signatureHash_setScriptSig (scriptCode : CScript) (nHashType : UInt32) :
    (txTo.setScriptSig nIn scriptSig).signatureHash c scriptCode nIn nHashType =
      txTo.signatureHash c scriptCode nIn nHashType := by
  have hvin : ∀ code : CScript,
      ((txTo.setScriptSig nIn scriptSig).vin.mapIdx fun i txin =>
        { txin with scriptSig := if i = nIn then code else [] }) =
        txTo.vin.mapIdx fun i txin => { txin with scriptSig := if i = nIn then code else [] } :=
    fun code => mapIdx_modify (f := fun txin : CTxIn => { txin with scriptSig := scriptSig }) (fun _ _ => rfl) _ _
  have hlength : (txTo.setScriptSig nIn scriptSig).vin.length = txTo.vin.length := List.length_modify _ _ _
  rw [CTransaction.signatureHash, CTransaction.signatureHash, hlength, hvin]
  rfl

theorem signatureChecker_setScriptSig :
    signatureChecker c (txTo.setScriptSig nIn scriptSig) nIn = signatureChecker c txTo nIn := by
  rw [signatureChecker, signatureChecker]
  simp only [signatureHash_setScriptSig]

end Hash

/-! ## A signature that is made -/

section Signed

theorem set_of_isCompressedOrUncompressed {vchPubKey : Bytes} (h : isCompressedOrUncompressedPubKey vchPubKey) :
    CPubKey.set vchPubKey = vchPubKey ∧ 33 ≤ vchPubKey.length ∧ vchPubKey.length ≤ 65 ∧
      vchPubKey.getD 0 0 ≠ 0x30 := by
  cases vchPubKey with
  | nil => cases h
  | cons chHeader vch =>
      rw [isCompressedOrUncompressedPubKey] at h
      split_ifs at h with hshort h4 h2
      · obtain rfl : chHeader = 4 := h4
        have hlen : (4 :: vch : Bytes).length = 65 := of_decide_eq_true h
        exact ⟨if_pos ⟨by decide, hlen.symm⟩, by omega, by omega, (by decide : (4 : UInt8) ≠ 0x30)⟩
      · have hlen : (chHeader :: vch : Bytes).length = 33 := of_decide_eq_true h
        have hgetLen : CPubKey.getLen chHeader = 33 := if_pos h2
        refine ⟨if_pos ⟨by rw [hgetLen]; decide, by rw [hgetLen, hlen]⟩, by omega, by omega, ?_⟩
        rcases h2 with h2 | h2
        · exact h2 ▸ (by decide : (2 : UInt8) ≠ 0x30)
        · exact h2 ▸ (by decide : (3 : UInt8) ≠ 0x30)

theorem isDERSignature_bounds {vchSig : Bytes} (h : isDERSignature vchSig true) :
    9 ≤ vchSig.length ∧ vchSig.length ≤ 73 ∧ vchSig.getD 0 0 = 0x30 := by
  rw [isDERSignature] at h
  split_ifs at h with hlength hheader
  all_goals exact ⟨by omega, by omega, not_not.1 hheader⟩

variable {txTo : CTransaction} {nIn : Nat}

/-- The wallet's interpreter, as a signature is tested with it. -/
abbrev testInterpreter (c : ScriptCrypto) (txTo : CTransaction) (nIn : Nat) : Interpreter :=
  scriptNumInterpreter c (signatureChecker c txTo nIn) STANDARD_SCRIPT_VERIFY_FLAGS

theorem testInterpreter_pushOk (data : Bytes) (opcode : UInt8) : (testInterpreter c txTo nIn).pushOk data opcode := rfl

/-- A signature with the hash type behind it that verifies for a public key. -/
structure IsSigned (c : ScriptCrypto) (hash : UInt256) (vchSig vchPubKey : Bytes) : Prop where
  verifies : ∃ vch, vchSig = vch ++ [SIGHASH_ALL] ∧ c.verify vchPubKey hash vch
  pubKey : isCompressedOrUncompressedPubKey vchPubKey
  der : isDERSignature vchSig true

theorem ne_pubKey_of_isDERSignature {vchSig vchPubKey : Bytes} (hder : isDERSignature vchSig true)
    (hkey : isCompressedOrUncompressedPubKey vchPubKey) : vchSig ≠ vchPubKey := by
  rintro rfl
  exact (set_of_isCompressedOrUncompressed hkey).2.2.2 (isDERSignature_bounds hder).2.2

theorem IsSigned.defined {hash : UInt256} {vchSig vchPubKey : Bytes} (h : IsSigned c hash vchSig vchPubKey) :
    isDefinedHashtypeSignature vchSig := by
  obtain ⟨vch, rfl, _⟩ := h.verifies
  rw [isDefinedHashtypeSignature, List.getLast?_concat]
  decide

/-- What is checked is in order, so that the check has a result. -/
theorem testInterpreter_check {vchSig vchPubKey : Bytes} {scriptCode : CScript} (hder : isDERSignature vchSig true)
    (hdefined : isDefinedHashtypeSignature vchSig) (hkey : isCompressedOrUncompressedPubKey vchPubKey) :
    ((testInterpreter c txTo nIn).check vchSig vchPubKey scriptCode).1 =
      .ok ((signatureChecker c txTo nIn).checkSig vchSig vchPubKey scriptCode) := by
  have hsig : checkSignatureEncodingError c STANDARD_SCRIPT_VERIFY_FLAGS vchSig = .ok () := by
    have hlow : ¬ hasFlag STANDARD_SCRIPT_VERIFY_FLAGS SCRIPT_VERIFY_LOW_S := by decide
    rw [checkSignatureEncodingError, hder, hdefined]
    simp [hlow]
  rw [testInterpreter, scriptNumInterpreter]
  dsimp only
  rw [hsig, checkPubKeyEncodingError_ok hkey]

theorem IsSigned.check {scriptCode : CScript} {vchSig vchPubKey : Bytes}
    (h : IsSigned c (txTo.signatureHash c scriptCode nIn SIGHASH_ALL.toUInt32) vchSig vchPubKey) :
    ((testInterpreter c txTo nIn).check vchSig vchPubKey scriptCode).1 = .ok true := by
  have hset := set_of_isCompressedOrUncompressed h.pubKey
  have hvalid : CPubKey.isValid vchPubKey = true := decide_eq_true (by omega)
  rw [testInterpreter_check h.der h.defined h.pubKey]
  obtain ⟨vch, hsig, hverify⟩ := h.verifies
  rw [signatureChecker]
  dsimp only
  rw [hset.1, hvalid, hsig, List.getLast?_concat, List.dropLast_concat]
  exact congrArg Except.ok hverify

end Signed

/-! ## Solving -/

section Solving

variable {txTo : CTransaction} {nIn calls : Nat} {script : CScript} {vSolutions : List Bytes} (hash : UInt256)

theorem set_eq_of_ne_nil {vch : Bytes} (h : CPubKey.set vch ≠ []) : CPubKey.set vch = vch := by
  cases vch with
  | nil => rfl
  | cons chHeader vch =>
      rw [CPubKey.set] at h ⊢
      split_ifs at h ⊢
      · rfl
      · exact absurd rfl h

/-- The store signs for a key that it has. -/
theorem sign1_of_haveKey (hcorrect : k.Correct c) (hvalid : store.Valid c k) {address : CKeyID}
    (hhave : store.haveKey address) :
    ∃ key vchSig, store.getKey address = some key ∧ store.getPubKey address = some (k.getPubKey key) ∧
      (k.getPubKey key).getID c = address ∧
      (∀ scriptSig, store.sign1 k hash SIGHASH_ALL.toUInt32 address scriptSig = (true, scriptSig ++ push vchSig)) ∧
      IsSigned c hash vchSig (k.getPubKey key) ∧ vchSig ≠ c.hash160 (k.getPubKey key) := by
  obtain ⟨key, hkey, hpubKey, hid⟩ := hvalid.key address hhave
  obtain ⟨vchSig, hsign, hverify, hder, hne⟩ := hcorrect.sign key hash
  refine ⟨key, vchSig ++ [SIGHASH_ALL], hkey, hpubKey, hid, fun scriptSig => ?_,
    ⟨⟨vchSig, rfl, hverify⟩, hcorrect.pubKey key, hder⟩, hne⟩
  rw [CKeyStore.sign1, hkey]
  dsimp only
  rw [hsign]
  rfl

/-- For a public key of a script, it signs with that very key. -/
theorem sign1_of_publicKey (hcorrect : k.Correct c) (hvalid : store.Valid c k)
    (hdistinguishes : store.Distinguishes c k script) {vch : Bytes} (hmem : vch ∈ publicKeysOf script)
    (hhave : store.haveKey ((CPubKey.set vch).getID c)) :
    ∃ vchSig, (∀ scriptSig, store.sign1 k hash SIGHASH_ALL.toUInt32 ((CPubKey.set vch).getID c) scriptSig =
      (true, scriptSig ++ push vchSig)) ∧ IsSigned c hash vchSig vch := by
  obtain ⟨key, vchSig, hkey, _, _, hsign, hsigned, _⟩ := sign1_of_haveKey hash hcorrect hvalid hhave
  have hset := hdistinguishes vch hmem key hkey
  have hlength := (set_of_isCompressedOrUncompressed (hcorrect.pubKey key)).2.1
  have hvch : CPubKey.set vch = vch := set_eq_of_ne_nil (by
    rw [hset]
    exact List.ne_nil_of_length_pos (by omega))
  rw [← hset, hvch] at hsigned
  exact ⟨vchSig, hsign, hsigned⟩

/-- `SignN` signs with the first keys, as many as are required. -/
theorem signNFrom_eq {keys : List Bytes} {nRequired : Nat}
    (hkeys : ∀ key ∈ keys, ∃ vchSig,
      (∀ scriptSig, store.sign1 k hash SIGHASH_ALL.toUInt32 ((CPubKey.set key).getID c) scriptSig =
        (true, scriptSig ++ push vchSig)) ∧ IsSigned c hash vchSig key)
    {nSigned : Nat} (hle : nSigned ≤ nRequired) (scriptSig : CScript) :
    ∃ sigs : List Bytes, store.signNFrom c k hash SIGHASH_ALL.toUInt32 nRequired keys nSigned scriptSig =
      (nSigned + sigs.length, scriptSig ++ sigs.flatMap push) ∧
      List.Forall₂ (IsSigned c hash) sigs (keys.take (nRequired - nSigned)) := by
  induction keys generalizing nSigned scriptSig with
  | nil =>
      refine ⟨[], ?_, ?_⟩
      · rw [CKeyStore.signNFrom, List.flatMap_nil, List.append_nil]
        rfl
      · rw [List.take_nil]
        exact List.Forall₂.nil
  | cons key keys ih =>
      rw [CKeyStore.signNFrom]
      split_ifs with hdone
      · refine ⟨[], ?_, ?_⟩
        · rw [List.flatMap_nil, List.append_nil]
          rfl
        · rw [Nat.sub_eq_zero_of_le hdone, List.take_zero]
          exact List.Forall₂.nil
      · obtain ⟨vchSig, hsign, hsigned⟩ := hkeys key List.mem_cons_self
        obtain ⟨sigs, hfrom, hforall⟩ := ih (fun key hmem => hkeys key (List.mem_cons_of_mem _ hmem))
          (Nat.lt_of_not_le hdone) (scriptSig ++ push vchSig)
        refine ⟨vchSig :: sigs, ?_, ?_⟩
        · rw [hsign]
          dsimp only
          rw [hfrom, List.flatMap_cons, List.append_assoc, Nat.succ_add_eq_add_succ]
          rfl
        · obtain ⟨left, hleft⟩ := Nat.exists_eq_add_of_lt (Nat.lt_of_not_le hdone)
          rw [show nRequired - nSigned = left + 1 by omega, List.take_succ_cons]
          rw [show nRequired - (nSigned + 1) = left by omega] at hforall
          exact List.Forall₂.cons hsigned hforall

/-- What `Solver` pushes for a script spends it. -/
structure Solves (c : ScriptCrypto) (k : KeyCrypto Key) (store : CKeyStore Key) (txTo : CTransaction) (nIn : Nat)
    (script : CScript) (vals : List Bytes) (whichType : TxnOutType) : Prop where
  solve : store.solve c k (txTo.signatureHash c script nIn SIGHASH_ALL.toUInt32) SIGHASH_ALL.toUInt32 script =
    some (true, vals.flatMap push, whichType)
  type : whichType ≠ .scriptHash
  length : vals.length ≤ 17
  sizes : ∀ vch ∈ vals, vch.length ≤ 73
  satisfies : ∀ rest : ScriptStack, rest.length < 800 →
    (evalScriptWith c (testInterpreter c txTo nIn) (vals.reverse ++ rest) script).1 = .ok (vchTrue :: rest)

theorem solves_pubKey (hcorrect : k.Correct c) (hvalid : store.Valid c k)
    (hdistinguishes : store.Distinguishes c k script) {vch : Bytes}
    (hsolver : solver script = some (true, .pubKey, [vch])) {opcode : UInt8}
    (hop : getOp script = some (opcode, vch, [OP_CHECKSIG])) (hsize : isPubKeySize vch)
    (hhave : store.haveKey ((CPubKey.set vch).getID c)) : ∃ vals, Solves c k store txTo nIn script vals .pubKey := by
  have hmem : vch ∈ publicKeysOf script := by
    rw [publicKeysOf, hsolver]
    exact List.mem_singleton_self vch
  obtain ⟨vchSig, hsign, hsigned⟩ := sign1_of_publicKey
    (txTo.signatureHash c script nIn SIGHASH_ALL.toUInt32) hcorrect hvalid hdistinguishes hmem hhave
  have hbounds := isDERSignature_bounds hsigned.der
  have hdelete : script.findAndDelete (push vchSig) = script := by
    refine findAndDelete_push (by omega) (Reads.cons hop (Reads.single (getOp_opcode (by decide) []))) ?_
    intro instr hinstr heq
    simp only [List.mem_cons, List.not_mem_nil, or_false] at hinstr
    rcases hinstr with rfl | rfl
    · exact ne_pubKey_of_isDERSignature hsigned.der hsigned.pubKey heq.symm
    · rw [← heq] at hbounds
      exact absurd hbounds.1 (by decide)
  refine ⟨[vchSig], ?_, by decide, Nat.le_add_left _ _, ?_, fun rest hrest => ?_⟩
  · rw [CKeyStore.solve, hsolver]
    change (some vch).map _ = _
    rw [Option.map_some, hsign, List.flatMap_singleton]
    rfl
  · intro vch' hvch'
    rw [List.mem_singleton.1 hvch']
    exact hbounds.2.1
  · rw [List.reverse_singleton, List.singleton_append,
      evalScript_pubKey testInterpreter_pushOk hop hsize (by omega), hdelete, hsigned.check]
    rfl

theorem solves_pubKeyHash (hcorrect : k.Correct c) (hvalid : store.Valid c k) {keyID : CKeyID}
    (hscript : script ∈ pubKeyHashScripts keyID) (hhave : store.haveKey keyID) :
    ∃ vals, Solves c k store txTo nIn script vals .pubKeyHash := by
  obtain ⟨key, vchSig, _, hpubKey, hid, hsign, hsigned, hne⟩ := sign1_of_haveKey
    (txTo.signatureHash c script nIn SIGHASH_ALL.toUInt32) hcorrect hvalid hhave
  have hhash : c.hash160 (k.getPubKey key) = writeKeyID keyID := by
    rw [← hid, CPubKey.getID, writeKeyID_readKeyID (hcorrect.length_hash160 _)]
  have hset := set_of_isCompressedOrUncompressed (hcorrect.pubKey key)
  have hbounds := isDERSignature_bounds hsigned.der
  have hdelete : script.findAndDelete (push vchSig) = script := by
    obtain ⟨header, hheader, rfl⟩ := List.mem_map.1 hscript
    obtain ⟨opcode, hop⟩ := @getOp_hash _ [OP_EQUALVERIFY, OP_CHECKSIG] _ (length_writeKeyID keyID) hheader
    refine findAndDelete_push (by omega) (Reads.cons (getOp_opcode (by decide) _) (Reads.cons
      (getOp_opcode (by decide) _) (Reads.cons hop (Reads.cons (getOp_opcode (by decide) _) (Reads.single
        (getOp_opcode (by decide) [])))))) ?_
    intro instr hinstr heq
    have hempty : vchSig ≠ [] := List.ne_nil_of_length_pos (by omega)
    simp only [List.mem_cons, List.not_mem_nil, or_false] at hinstr
    rcases hinstr with rfl | rfl | rfl | rfl | rfl
    · exact hempty heq.symm
    · exact hempty heq.symm
    · exact hne (heq.symm.trans hhash.symm)
    · exact hempty heq.symm
    · exact hempty heq.symm
  refine ⟨[vchSig, k.getPubKey key], ?_, by decide, Nat.le_add_left _ _, ?_, fun rest hrest => ?_⟩
  · rw [CKeyStore.solve, solver_pubKeyHash hscript]
    change (some (writeKeyID keyID)).map _ = _
    rw [Option.map_some, uint160OfVch_writeKeyID]
    dsimp only
    rw [hsign]
    dsimp only
    rw [hpubKey, List.flatMap_cons, List.flatMap_singleton]
    rfl
  · intro vch hvch
    simp only [List.mem_cons, List.not_mem_nil, or_false] at hvch
    rcases hvch with rfl | rfl
    · exact hbounds.2.1
    · omega
  · change (evalScriptWith c (testInterpreter c txTo nIn) (k.getPubKey key :: vchSig :: rest) script).1 = _
    rw [evalScript_pubKeyHash testInterpreter_pushOk hscript hhash (by omega), hdelete, hsigned.check]
    rfl

theorem exists_of_forall₂ {α β : Type} {R : α → β → Prop} {l : List α} {l' : List β} (h : List.Forall₂ R l l')
    {a : α} (hmem : a ∈ l) : ∃ b ∈ l', R a b := by
  induction h with
  | nil => cases hmem
  | cons hR _ ih =>
      rcases List.mem_cons.1 hmem with rfl | hmem
      · exact ⟨_, List.mem_cons_self, hR⟩
      · obtain ⟨b, hb, hR⟩ := ih hmem
        exact ⟨b, List.mem_cons_of_mem _ hb, hR⟩

theorem solves_multisig (hcorrect : k.Correct c) (hvalid : store.Valid c k)
    (hdistinguishes : store.Distinguishes c k script) {m : Nat} {keys : List Bytes} (h : IsMultisig script m keys)
    (hsolver : solver script = some (true, .multisig, [UInt8.ofNat m] :: (keys ++ [[UInt8.ofNat keys.length]])))
    (hhave : ∀ key ∈ keys, store.haveKey ((CPubKey.set key).getID c)) :
    ∃ vals, Solves c k store txTo nIn script vals .multisig := by
  have hkeysOf : publicKeysOf script = keys := by
    rw [publicKeysOf, hsolver]
    exact List.dropLast_concat
  have hkeys : ∀ key ∈ keys, ∃ vchSig,
      (∀ scriptSig, store.sign1 k (txTo.signatureHash c script nIn SIGHASH_ALL.toUInt32) SIGHASH_ALL.toUInt32
        ((CPubKey.set key).getID c) scriptSig = (true, scriptSig ++ push vchSig)) ∧
      IsSigned c (txTo.signatureHash c script nIn SIGHASH_ALL.toUInt32) vchSig key := fun key hmem =>
    sign1_of_publicKey _ hcorrect hvalid hdistinguishes (hkeysOf.symm ▸ hmem) (hhave key hmem)
  obtain ⟨sigs, hfrom, hforall⟩ := signNFrom_eq _ hkeys (Nat.zero_le m) [OP_0]
  have hmax := h.max
  have hle := h.le
  have hlength : sigs.length = m := by
    rw [hforall.length_eq, Nat.sub_zero, List.length_take_of_le hle]
  have hkeyOk : ∀ key ∈ keys, isCompressedOrUncompressedPubKey key := fun key hmem => by
    obtain ⟨_, _, hsigned⟩ := hkeys key hmem
    exact hsigned.pubKey
  have hsigOk : ∀ sig ∈ sigs, isDERSignature sig true ∧ isDefinedHashtypeSignature sig := fun sig hmem => by
    obtain ⟨key, _, hsigned⟩ := exists_of_forall₂ hforall hmem
    exact ⟨hsigned.der, hsigned.defined⟩
  refine ⟨[] :: sigs, ?_, by decide, ?_, ?_, fun rest hrest => ?_⟩
  · have hm : (UInt8.ofNat m).toNat = m := UInt8.toNat_ofNat_of_lt' (Nat.lt_of_le_of_lt (hle.trans hmax) (by decide))
    have hdata : (([UInt8.ofNat m] :: (keys ++ [[UInt8.ofNat keys.length]])).drop 1).dropLast = keys :=
      List.dropLast_concat
    have hsignN : store.signN c k (txTo.signatureHash c script nIn SIGHASH_ALL.toUInt32) SIGHASH_ALL.toUInt32
        ([UInt8.ofNat m] :: (keys ++ [[UInt8.ofNat keys.length]])) [OP_0] =
          some (true, [OP_0] ++ sigs.flatMap push) := by
      change some (decide ((store.signNFrom c k _ _ (UInt8.ofNat m).toNat _ 0 [OP_0]).1 = (UInt8.ofNat m).toNat),
        (store.signNFrom c k _ _ (UInt8.ofNat m).toNat _ 0 [OP_0]).2) = _
      rw [hdata, hm, hfrom, hlength, Nat.zero_add, decide_eq_true rfl]
    rw [CKeyStore.solve, hsolver]
    dsimp only
    rw [hsignN]
    rfl
  · rw [List.length_cons]
    omega
  · intro vch hvch
    rcases List.mem_cons.1 hvch with rfl | hmem
    · exact Nat.zero_le _
    · exact (isDERSignature_bounds (hsigOk vch hmem).1).2.1
  · have hdelete : sigs.reverse.foldl (fun scriptCode vchSig => scriptCode.findAndDelete (push vchSig)) script =
        script :=
      h.foldl_findAndDelete fun sig hmem => by
        have hder := (hsigOk sig (List.mem_reverse.1 hmem)).1
        have hbounds := isDERSignature_bounds hder
        exact ⟨by omega, List.ne_nil_of_length_pos (by omega), fun hkey =>
          ne_pubKey_of_isDERSignature hder (hkeyOk sig hkey) rfl⟩
    have hmatches : Matches (testInterpreter c txTo nIn) script sigs keys :=
      Matches.of_forall₂ (hforall.imp fun _ _ hsigned => hsigned.check) (List.take_sublist _ _)
    have hchecks : ∀ sig ∈ sigs.reverse, ∀ key ∈ keys.reverse, ∃ fOk,
        ((testInterpreter c txTo nIn).check sig key script).1 = .ok fOk := fun sig hsig key hkey => by
      obtain ⟨hder, hdefined⟩ := hsigOk sig (List.mem_reverse.1 hsig)
      exact ⟨_, testInterpreter_check hder hdefined (hkeyOk key (List.mem_reverse.1 hkey))⟩
    have hloop := (checkMultisigLoop_iff hchecks).2 hmatches.reverse
    rw [List.reverse_cons, List.append_assoc, List.singleton_append,
      h.evalScript testInterpreter_pushOk (scriptNumInterpreter_counted _ _) (by rw [List.length_reverse, hlength])
        hrest, hdelete, hloop]
    rfl

theorem watched_ne_spendable (script : CScript) : store.watched script ≠ .spendable := by
  rw [CKeyStore.watched]
  split_ifs <;> decide

/-- What is spendable and no script hash is solved. -/
theorem solves_of_isMine (txTo : CTransaction) (nIn : Nat) (hcorrect : k.Correct c) (hvalid : store.Valid c k)
    (hdistinguishes : store.Distinguishes c k script) (hscript : ¬ script.isPayToScriptHash)
    (hmine : store.isMine c calls script = some .spendable) :
    ∃ vals whichType, Solves c k store txTo nIn script vals whichType := by
  have hwatched := @watched_ne_spendable _ store script
  cases calls with
  | zero => cases hmine
  | succ calls =>
      rw [CKeyStore.isMine] at hmine
      rcases hsolver : solver script with _ | ⟨fSolved, whichType, vSolutions⟩
      · rw [hsolver] at hmine
        cases hmine
      · rw [hsolver] at hmine
        cases fSolved with
        | false => exact absurd (Option.some.inj hmine) hwatched
        | true =>
            cases whichType with
            | nonstandard => exact absurd (Option.some.inj hmine) hwatched
            | nullData => exact absurd (Option.some.inj hmine) hwatched
            | pubKey =>
                obtain ⟨opcode, vch, hop, hsize, rfl⟩ := of_solver_pubKey hsolver
                have hkey : (if store.haveKey ((CPubKey.set vch).getID c) then IsMineType.spendable
                    else store.watched script) = .spendable := Option.some.inj hmine
                split_ifs at hkey with hhave
                · obtain ⟨vals, hsolves⟩ := solves_pubKey hcorrect hvalid hdistinguishes hsolver hop hsize hhave
                  exact ⟨vals, _, hsolves⟩
                · exact absurd hkey hwatched
            | pubKeyHash =>
                obtain ⟨keyID, hmem, rfl⟩ := of_solver_pubKeyHash hsolver
                have hkey : (if store.haveKey (uint160OfVch (writeKeyID keyID)) then IsMineType.spendable
                    else store.watched script) = .spendable := Option.some.inj hmine
                rw [uint160OfVch_writeKeyID] at hkey
                split_ifs at hkey with hhave
                · obtain ⟨vals, hsolves⟩ := solves_pubKeyHash hcorrect hvalid hmem hhave
                  exact ⟨vals, _, hsolves⟩
                · exact absurd hkey hwatched
            | scriptHash =>
                obtain ⟨scriptID, rfl, _⟩ := solver_scriptHash_iff.1 hsolver
                exact absurd (isPayToScriptHash_script (length_writeKeyID scriptID)) hscript
            | multisig =>
                obtain ⟨m, keys, h, rfl⟩ := of_solver_multisig hsolver
                have hlength : ([UInt8.ofNat m] :: (keys ++ [[UInt8.ofNat keys.length]])).length = keys.length + 2 := by
                  rw [List.length_cons, List.length_append, List.length_singleton]
                have hbetween : (([UInt8.ofNat m] :: (keys ++ [[UInt8.ofNat keys.length]])).drop 1).take
                    (([UInt8.ofNat m] :: (keys ++ [[UInt8.ofNat keys.length]])).length - 2) = keys := by
                  rw [hlength, List.drop_succ_cons, List.drop_zero]
                  exact List.take_left' (by omega)
                dsimp only at hmine
                rw [hbetween, if_neg (by omega), Option.some.injEq] at hmine
                split_ifs at hmine with hhave
                · have hall := List.length_filter_eq_length_iff.1 hhave
                  obtain ⟨vals, hsolves⟩ := solves_multisig hcorrect hvalid hdistinguishes h hsolver hall
                  exact ⟨vals, _, hsolves⟩
                · exact absurd hmine hwatched

end Solving

end ProCurrency

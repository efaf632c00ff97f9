import ProCurrency.Script.Lemmas.Solves

/-!
# What is mine can be signed

A script that `IsMine` finds spendable is signed, unless it is a script hash of a script hash: `IsMine` follows script
hashes to any depth, and `SignSignature` one.
-/

namespace ProCurrency

open ByteCodec CScript CBitcoinAddress

variable {Key : Type} {c : ScriptCrypto} {k : KeyCrypto Key} {store : CKeyStore Key}

/-! ## Verifying -/

section Verifying

variable {txTo : CTransaction} {nIn : Nat} {script subscript : CScript} {vals : List Bytes} {whichType : TxnOutType}

theorem evalScript_flatMap (c : ScriptCrypto) (txTo : CTransaction) (nIn : Nat)
    (hsizes : ∀ vch ∈ vals, vch.length ≤ MAX_SCRIPT_ELEMENT_SIZE) (hlength : vals.length ≤ 18) :
    ((signatureChecker c txTo nIn).evalScript c STANDARD_SCRIPT_VERIFY_FLAGS [] (vals.flatMap push)).1 =
        .ok vals.reverse ∧ CScript.isPushOnly (vals.flatMap push) :=
  evalScriptWith_flatMap (I := testInterpreter c txTo nIn) testInterpreter_pushOk hsizes hlength

theorem testSolution_of_solves (hscript : ¬ script.isPayToScriptHash)
    (h : Solves c k store txTo nIn script vals whichType) :
    CKeyStore.testSolution c script (txTo.setScriptSig nIn (vals.flatMap push)) nIn (vals.flatMap push) = true := by
  have hsizes : ∀ vch ∈ vals, vch.length ≤ MAX_SCRIPT_ELEMENT_SIZE := fun vch hmem =>
    (h.sizes vch hmem).trans (by decide)
  have hsig := (evalScript_flatMap c txTo nIn hsizes (h.length.trans (by decide))).1
  have hspent : ((signatureChecker c txTo nIn).evalScript c STANDARD_SCRIPT_VERIFY_FLAGS vals.reverse script).1 =
      .ok [vchTrue] := by
    have hsatisfies := h.satisfies [] (by decide)
    rw [List.append_nil] at hsatisfies
    exact hsatisfies
  refine decide_eq_true ?_
  rw [signatureChecker_setScriptSig, BaseSignatureChecker.verifyScript, if_neg fun h => absurd h.1 (by decide), hsig]
  dsimp only
  rw [hspent]
  dsimp only
  rw [if_neg (by decide), if_neg fun h => hscript (Bool.and_eq_true _ _ ▸ h).2]

theorem testSolution_scriptHash {scriptID : CKeyID} (hhash : c.hash160 subscript = writeKeyID scriptID)
    (hlength : subscript.length ≤ MAX_SCRIPT_ELEMENT_SIZE) (h : Solves c k store txTo nIn subscript vals whichType) :
    CKeyStore.testSolution c (OP_HASH160 :: 20 :: (writeKeyID scriptID ++ [OP_EQUAL]))
      (txTo.setScriptSig nIn (vals.flatMap push ++ push subscript)) nIn (vals.flatMap push ++ push subscript) =
        true := by
  have happend : vals.flatMap push ++ push subscript = (vals ++ [subscript]).flatMap push := by
    rw [List.flatMap_append, List.flatMap_singleton]
  have hcount : (vals ++ [subscript]).length ≤ 18 := by
    have hvals := h.length
    rw [List.length_append, List.length_singleton]
    omega
  obtain ⟨hsig, hpushOnly⟩ := @evalScript_flatMap (vals ++ [subscript]) c txTo nIn
    (fun vch hmem => by
      rcases List.mem_append.1 hmem with hmem | hmem
      · exact (h.sizes vch hmem).trans (by decide)
      · rw [List.mem_singleton.1 hmem]
        exact hlength) hcount
  have hstack : (vals ++ [subscript]).reverse = subscript :: vals.reverse := List.reverse_concat
  have hlen : vals.reverse.length < 800 := by
    have hvals := h.length
    rw [List.length_reverse]
    omega
  have houter : ((signatureChecker c txTo nIn).evalScript c STANDARD_SCRIPT_VERIFY_FLAGS (subscript :: vals.reverse)
      (OP_HASH160 :: 20 :: (writeKeyID scriptID ++ [OP_EQUAL]))).1 = .ok (vchTrue :: vals.reverse) := by
    have heval := @evalScript_scriptHash c (testInterpreter c txTo nIn) vals.reverse testInterpreter_pushOk scriptID
      subscript (by omega)
    rw [decide_eq_true hhash] at heval
    exact heval
  have hinner : ((signatureChecker c txTo nIn).evalScript c STANDARD_SCRIPT_VERIFY_FLAGS vals.reverse subscript).1 =
      .ok [vchTrue] := by
    have hsatisfies := h.satisfies [] (by decide)
    rw [List.append_nil] at hsatisfies
    exact hsatisfies
  have hp2sh := isPayToScriptHash_script (length_writeKeyID scriptID)
  refine decide_eq_true ?_
  rw [happend, signatureChecker_setScriptSig, BaseSignatureChecker.verifyScript,
    if_neg fun h => absurd h.1 (by decide), hsig, hstack]
  dsimp only
  rw [houter]
  dsimp only
  rw [if_neg (by decide), if_pos (by rw [hp2sh]; decide), hpushOnly, hinner]
  rfl

end Verifying

/-! ## Signing -/

section Signing

variable {txTo : CTransaction} {nIn calls : Nat} {scriptPubKey : CScript}

theorem signSignature_of_solves (hnIn : nIn < txTo.vin.length) (hscript : ¬ scriptPubKey.isPayToScriptHash)
    {vals : List Bytes} {whichType : TxnOutType} (h : Solves c k store txTo nIn scriptPubKey vals whichType) :
    store.signSignature c k scriptPubKey txTo nIn SIGHASH_ALL.toUInt32 =
      some (true, txTo.setScriptSig nIn (vals.flatMap push)) := by
  rw [CKeyStore.signSignature, if_neg (Nat.not_le.2 hnIn)]
  dsimp only
  rw [h.solve]
  dsimp only
  rw [if_neg h.type, testSolution_of_solves hscript h]

theorem solve_scriptHash (scriptID : CKeyID) (hash : UInt256) (nHashType : UInt32) :
    store.solve c k hash nHashType (OP_HASH160 :: 20 :: (writeKeyID scriptID ++ [OP_EQUAL])) =
      some ((store.getCScript scriptID).isSome, (store.getCScript scriptID).getD [], .scriptHash) := by
  rw [CKeyStore.solve, solver_scriptHash_iff.2 ⟨scriptID, rfl, rfl⟩]
  change (some (writeKeyID scriptID)).map _ = _
  rw [Option.map_some, uint160OfVch_writeKeyID]
  cases store.getCScript scriptID with
  | none => rfl
  | some subscript => rfl

/-- A script hash is spendable when its redeem script is. -/
theorem isMine_scriptHash {scriptID : CKeyID}
    (h : store.isMine c calls (OP_HASH160 :: 20 :: (writeKeyID scriptID ++ [OP_EQUAL])) = some .spendable) :
    ∃ calls' subscript, store.getCScript scriptID = some subscript ∧
      store.isMine c calls' subscript = some .spendable := by
  cases calls with
  | zero => cases h
  | succ calls =>
      rw [CKeyStore.isMine, solver_scriptHash_iff.2 ⟨scriptID, rfl, rfl⟩] at h
      simp only [List.getElem?_cons_zero] at h
      rw [uint160OfVch_writeKeyID] at h
      cases hsubscript : store.getCScript scriptID with
      | none =>
          rw [hsubscript] at h
          exact absurd (Option.some.inj h) (watched_ne_spendable _)
      | some subscript =>
          rw [hsubscript] at h
          obtain ⟨ret, hret, heq⟩ := Option.map_eq_some_iff.1 h
          split_ifs at heq with hspendable
          · exact ⟨calls, subscript, rfl, hspendable ▸ hret⟩
          · exact absurd heq (watched_ne_spendable _)

theorem signSignature_scriptHash (hnIn : nIn < txTo.vin.length) {scriptID : CKeyID} {subscript : CScript}
    (hsubscript : store.getCScript scriptID = some subscript) (hhash : c.hash160 subscript = writeKeyID scriptID)
    (hlength : subscript.length ≤ MAX_SCRIPT_ELEMENT_SIZE) {vals : List Bytes} {whichType : TxnOutType}
    (h : Solves c k store txTo nIn subscript vals whichType) :
    ∃ txTo', store.signSignature c k (OP_HASH160 :: 20 :: (writeKeyID scriptID ++ [OP_EQUAL])) txTo nIn
      SIGHASH_ALL.toUInt32 = some (true, txTo') := by
  have hset : ∀ (txTo : CTransaction) (scriptSig scriptSig' : CScript),
      (txTo.setScriptSig nIn scriptSig).setScriptSig nIn scriptSig' = txTo.setScriptSig nIn scriptSig' := by
    intro txTo scriptSig scriptSig'
    rw [CTransaction.setScriptSig, CTransaction.setScriptSig, CTransaction.setScriptSig, List.modify_modify_eq]
    rfl
  refine ⟨txTo.setScriptSig nIn (vals.flatMap push ++ push subscript), ?_⟩
  rw [CKeyStore.signSignature, if_neg (Nat.not_le.2 hnIn)]
  dsimp only
  rw [solve_scriptHash, hsubscript, Option.isSome_some, Option.getD_some]
  dsimp only
  rw [if_pos rfl, signatureHash_setScriptSig, h.solve]
  dsimp only
  rw [decide_eq_true h.type, hset, testSolution_scriptHash hhash hlength h]
  rfl

theorem signSignature_nested (hnIn : nIn < txTo.vin.length) {scriptID scriptID' : CKeyID}
    (hsubscript : store.getCScript scriptID = some (OP_HASH160 :: 20 :: (writeKeyID scriptID' ++ [OP_EQUAL]))) :
    ∃ txTo', store.signSignature c k (OP_HASH160 :: 20 :: (writeKeyID scriptID ++ [OP_EQUAL])) txTo nIn
      SIGHASH_ALL.toUInt32 = some (false, txTo') := by
  rw [CKeyStore.signSignature, if_neg (Nat.not_le.2 hnIn)]
  dsimp only
  rw [solve_scriptHash, hsubscript, Option.isSome_some, Option.getD_some]
  dsimp only
  rw [if_pos rfl, solve_scriptHash]
  dsimp only
  rw [decide_eq_false (not_not.2 rfl), Bool.and_false, if_neg Bool.false_ne_true]
  exact ⟨_, rfl⟩

end Signing

/-! ## A script hash of a script hash -/

section Nesting

/-- Hashes tell public keys, scripts that pay to one, and other scripts apart by their lengths. -/
def nestingCrypto : ScriptCrypto :=
  { trustingCrypto with
    hash160 := fun vch => List.replicate 20 (if vch.length = 33 then 1 else if vch.length = 35 then 2 else 3) }

def nestingKeys : KeyCrypto Unit where
  getPubKey _ := smallPubKey
  sign _ _ := some smallSignature.dropLast

def keyScript : CScript := push smallPubKey ++ [OP_CHECKSIG]

def hashScript (b : UInt8) : CScript := [OP_HASH160, 20] ++ List.replicate 20 b ++ [OP_EQUAL]

def nestingStore : CKeyStore Unit :=
  (((({} : CBasicKeyStore Unit).addKey nestingCrypto nestingKeys ()).addCScript nestingCrypto keyScript).2.addCScript
    nestingCrypto (hashScript 2)).2.toKeyStore nestingKeys

theorem nestingKeys_correct : nestingKeys.Correct nestingCrypto where
  length_hash160 _ := List.length_replicate
  pubKey _ := (by decide : isCompressedOrUncompressedPubKey smallPubKey)
  sign _ _ := ⟨smallSignature.dropLast, rfl, rfl, by decide,
    (by decide : smallSignature.dropLast ++ [SIGHASH_ALL] ≠ nestingCrypto.hash160 smallPubKey)⟩

theorem nestingStore_valid : nestingStore.Valid nestingCrypto nestingKeys :=
  (((CBasicKeyStore.Made.empty.addKey ()).addCScript keyScript).addCScript (hashScript 2)).valid

theorem nestingStore_distinguishes {scriptPubKey : CScript}
    (h : scriptPubKey = hashScript 2 ∨ scriptPubKey = hashScript 3) (script : CScript)
    (hscript : script = scriptPubKey ∨ ∃ hash, nestingStore.getCScript hash = some script) :
    nestingStore.Distinguishes nestingCrypto nestingKeys script := by
  have hcases : script = keyScript ∨ script = hashScript 2 ∨ script = hashScript 3 := by
    rcases hscript with rfl | ⟨hash, hget⟩
    · exact Or.inr h
    · have hget' : ((((∅ : Std.ExtTreeMap CKeyID CScript).insert (keyScript.getID nestingCrypto) keyScript).insert
          ((hashScript 2).getID nestingCrypto) (hashScript 2)))[hash]? = some script := hget
      rw [PackedMap.getElem?_insert, PackedMap.getElem?_insert, Std.ExtTreeMap.getElem?_empty] at hget'
      split_ifs at hget'
      · exact Or.inr (Or.inl (Option.some.inj hget').symm)
      · exact Or.inl (Option.some.inj hget').symm
  intro vch hmem key _
  rcases hcases with rfl | rfl | rfl
  · have hkeys : ∀ vch ∈ publicKeysOf keyScript, CPubKey.set vch = smallPubKey := by decide +kernel
    exact hkeys vch hmem
  · have hkeys : publicKeysOf (hashScript 2) = [] := by decide +kernel
    rw [hkeys] at hmem
    cases hmem
  · have hkeys : publicKeysOf (hashScript 3) = [] := by decide +kernel
    rw [hkeys] at hmem
    cases hmem

end Nesting

end ProCurrency

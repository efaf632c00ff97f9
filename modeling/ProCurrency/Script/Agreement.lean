import ProCurrency.Script.Interpreter

/-!
# The two interpreters agree

An interpreter refines another one when whatever it accepts, the other one accepts with the same result. The step
lemmas go opcode by opcode up to `EvalScript`, from where on the versions differ in `VerifyScript` alone.
-/

namespace ProCurrency

open ByteCodec

/-! ## Refinement -/

/-- What `I` accepts, `J` accepts. -/
structure Refines (I J : Interpreter) : Prop where
  num : J.num = I.num
  nullDummy : J.nullDummy → I.nullDummy
  pushOk : ∀ data opcode, I.pushOk data opcode → J.pushOk data opcode
  nop : ∀ opcode stack, I.nop opcode stack = .ok () → J.nop opcode stack = .ok ()
  check : ∀ vchSig vchPubKey scriptCode fOk, (I.check vchSig vchPubKey scriptCode).1 = .ok fOk →
    (J.check vchSig vchPubKey scriptCode).1 = .ok fOk

section Refinement

variable {c : ScriptCrypto} {I J : Interpreter}

theorem checkSigOp_refines (h : Refines I J) {fVerify : Bool} {st st' : EvalState}
    (hok : (checkSigOp I fVerify st).1 = .ok st') : (checkSigOp J fVerify st).1 = .ok st' := by
  rw [checkSigOp] at hok ⊢
  split at hok
  · rename_i vchPubKey vchSig rest hstack
    have hcheck := h.check vchSig vchPubKey (st.pbegincodehash.findAndDelete (CScript.push vchSig))
    dsimp only at hok ⊢
    rcases hI : I.check vchSig vchPubKey (st.pbegincodehash.findAndDelete (CScript.push vchSig)) with ⟨e | fOk, n⟩
    · rw [hI] at hok
      cases hok
    · rw [hI] at hok hcheck
      rcases hJ : J.check vchSig vchPubKey (st.pbegincodehash.findAndDelete (CScript.push vchSig)) with ⟨r, m⟩
      rw [hJ] at hcheck
      obtain rfl := hcheck fOk rfl
      exact hok
  · cases hok

theorem checkMultisigLoop_refines (h : Refines I J) {scriptCode : CScript} {keys sigs : List Bytes} {fSuccess : Bool}
    (hok : (checkMultisigLoop I scriptCode keys sigs).1 = .ok fSuccess) :
    (checkMultisigLoop J scriptCode keys sigs).1 = .ok fSuccess := by
  induction keys generalizing sigs with
  | nil => cases sigs <;> exact hok
  | cons vchPubKey keys ih =>
      cases sigs with
      | nil => exact hok
      | cons vchSig sigs =>
          rw [checkMultisigLoop] at hok ⊢
          have hcheck := h.check vchSig vchPubKey scriptCode
          rcases hI : I.check vchSig vchPubKey scriptCode with ⟨e | fOk, n⟩
          · rw [hI] at hok
            cases hok
          · rw [hI] at hok hcheck
            rcases hJ : J.check vchSig vchPubKey scriptCode with ⟨r, m⟩
            rw [hJ] at hcheck
            obtain rfl := hcheck fOk rfl
            dsimp only at hok ⊢
            generalize (if fOk then sigs else vchSig :: sigs) = left at hok ⊢
            split_ifs at hok ⊢
            · exact hok
            · exact ih hok

theorem checkMultisigArgs_refines (h : Refines I J) {fVerify : Bool} {st st' : EvalState} {keys sigs rest : ScriptStack}
    (hok : (checkMultisigArgs I fVerify st keys sigs rest).1 = .ok st') :
    (checkMultisigArgs J fVerify st keys sigs rest).1 = .ok st' := by
  rw [checkMultisigArgs] at hok ⊢
  generalize sigs.foldl (fun scriptCode vchSig => scriptCode.findAndDelete (CScript.push vchSig))
    st.pbegincodehash = scriptCode at hok ⊢
  rcases hI : checkMultisigLoop I scriptCode keys sigs with ⟨e | fSuccess, n⟩
  · rw [hI] at hok
    cases hok
  · have hloop := checkMultisigLoop_refines h (congrArg Prod.fst hI)
    rcases hJ : checkMultisigLoop J scriptCode keys sigs with ⟨r, m⟩
    rw [hJ] at hloop
    cases hloop
    rw [hI] at hok
    cases rest with
    | nil => cases hok
    | cons dummy rest =>
        dsimp only at hok ⊢
        split_ifs at hok ⊢ with hdummy hdummy'
        · rw [Bool.and_eq_true] at hdummy hdummy'
          exact absurd ⟨h.nullDummy hdummy.1, hdummy.2⟩ hdummy'
        · exact hok

theorem checkMultisigOp_refines (h : Refines I J) {fVerify : Bool} {st st' : EvalState}
    (hok : (checkMultisigOp I fVerify st).1 = .ok st') : (checkMultisigOp J fVerify st).1 = .ok st' := by
  rw [checkMultisigOp] at hok ⊢
  rw [h.num]
  rcases hstack : st.stack with _ | ⟨top, stack⟩
  · rw [hstack] at hok
    cases hok
  · rw [hstack] at hok
    dsimp only at hok ⊢
    rcases hcast : castNumber I.num top with e | bn
    · rw [hcast] at hok
      cases hok
    · rw [hcast] at hok
      dsimp only at hok ⊢
      split_ifs at hok ⊢
      rcases hdrop : stack.drop (I.num.getint bn).toNat with _ | ⟨top', afterKeys⟩
      · rw [hdrop] at hok
        cases hok
      · rw [hdrop] at hok
        dsimp only at hok ⊢
        rcases hcast' : castNumber I.num top' with e | bn'
        · rw [hcast'] at hok
          cases hok
        · rw [hcast'] at hok
          dsimp only at hok ⊢
          split_ifs at hok ⊢
          exact checkMultisigArgs_refines h hok

theorem evalOp_refines (h : Refines I J) {opcode : UInt8} {pc : CScript} {st st' : EvalState}
    (hok : (evalOp c I opcode pc st).1 = .ok st') : (evalOp c J opcode pc st).1 = .ok st' := by
  rw [evalOp] at hok ⊢
  rw [h.num]
  split_ifs at hok ⊢
  · exact hok
  · have hnop := h.nop opcode st.stack
    rcases hI : I.nop opcode st.stack with e | _
    · rw [hI] at hok
      cases hok
    · rw [hnop hI]
      rw [hI] at hok
      exact hok
  · exact checkSigOp_refines h hok
  · exact checkMultisigOp_refines h hok
  · exact hok

theorem evalInstruction_refines (h : Refines I J) {opcode : UInt8} {data : Bytes} {pc : CScript} {st st' : EvalState}
    (hok : (evalInstruction c I opcode data pc st).1 = .ok st') :
    (evalInstruction c J opcode data pc st).1 = .ok st' := by
  rw [evalInstruction] at hok ⊢
  split_ifs at hok ⊢ with hpush hmin hmin'
  · rw [Bool.not_eq_true, Bool.not_eq_false'] at hmin'
    rw [h.pushOk _ _ hmin'] at hmin
    cases hmin
  · exact hok
  · exact evalOp_refines h hok
  · exact hok

theorem evalStep_refines (h : Refines I J) {opcode : UInt8} {data : Bytes} {pc : CScript} {st st' : EvalState}
    (hok : (evalStep c I opcode data pc st).1 = .ok st') : (evalStep c J opcode data pc st).1 = .ok st' := by
  rw [evalStep] at hok ⊢
  split_ifs at hok ⊢
  rcases hI : evalInstruction c I opcode data pc (st.countOp opcode) with ⟨e | st₁, n⟩
  · rw [hI] at hok
    cases hok
  · have hinstr := evalInstruction_refines h (congrArg Prod.fst hI)
    rcases hJ : evalInstruction c J opcode data pc (st.countOp opcode) with ⟨r, m⟩
    rw [hJ] at hinstr
    cases hinstr
    rw [hI] at hok
    exact hok

/-! ## A run -/

theorem evalFrom_refines (h : Refines I J) {rounds : Nat} {pc : CScript} {st st' : EvalState}
    (hok : (evalFrom c I rounds pc st).1 = .ok st') : (evalFrom c J rounds pc st).1 = .ok st' := by
  induction rounds generalizing pc st with
  | zero => exact hok
  | succ rounds ih =>
      rw [evalFrom] at hok ⊢
      split_ifs at hok ⊢
      · exact hok
      · rcases hop : pc.getOp with _ | ⟨opcode, data, pc'⟩
        · rw [hop] at hok
          cases hok
        · rw [hop] at hok
          dsimp only at hok ⊢
          rcases hI : evalStep c I opcode data pc' st with ⟨e | st₁, n⟩
          · rw [hI] at hok
            cases hok
          · have hstep := evalStep_refines h (congrArg Prod.fst hI)
            rcases hJ : evalStep c J opcode data pc' st with ⟨r, m⟩
            rw [hJ] at hstep
            cases hstep
            rw [hI] at hok
            exact ih hok

theorem evalScriptWith_refines (h : Refines I J) {stack stack' : ScriptStack} {script : CScript}
    (hok : (evalScriptWith c I stack script).1 = .ok stack') : (evalScriptWith c J stack script).1 = .ok stack' := by
  rw [evalScriptWith] at hok ⊢
  split_ifs at hok ⊢
  rcases hI : evalFrom c I script.length script { stack := stack, pbegincodehash := script } with ⟨e | st₁, n⟩
  · rw [hI] at hok
    cases hok
  · have hrun := evalFrom_refines h (congrArg Prod.fst hI)
    rcases hJ : evalFrom c J script.length script { stack := stack, pbegincodehash := script } with ⟨r, m⟩
    rw [hJ] at hrun
    cases hrun
    rw [hI] at hok
    exact hok

end Refinement

/-! ## The flags -/

/-- The flags under which the versions do the same. -/
structure ComparableFlags (flags : ScriptFlags) : Prop where
  strictEnc : hasFlag flags SCRIPT_VERIFY_STRICTENC
  discourage : hasFlag flags SCRIPT_VERIFY_DISCOURAGE_UPGRADABLE_NOPS
  checkLockTimeVerify : ¬ hasFlag flags SCRIPT_VERIFY_CHECKLOCKTIMEVERIFY
  allowEmptySig : ¬ hasFlag flags SCRIPT_VERIFY_ALLOW_EMPTY_SIG
  fixHashtype : ¬ hasFlag flags SCRIPT_VERIFY_FIX_HASHTYPE
  derSig : ¬ hasFlag flags SCRIPT_VERIFY_DERSIG
  lowS : ¬ hasFlag flags SCRIPT_VERIFY_LOW_S
  sigPushOnly : ¬ hasFlag flags SCRIPT_VERIFY_SIGPUSHONLY
  minimalData : ¬ hasFlag flags SCRIPT_VERIFY_MINIMALDATA

theorem bigNumbers_eq_scriptNumbers : bigNumbers = scriptNumbers false := by
  rw [bigNumbers, scriptNumbers, ScriptNumbers.mk.injEq]
  refine ⟨?_, ?_, ?_⟩
  · funext vch
    exact castToBigNum_eq_ofVch vch
  · funext bn
    exact getint_eq bn
  · funext bn
    exact getvch_eq_serialize bn

section Checks

variable {c : ScriptCrypto} {flags flags' : ScriptFlags} {txTo : CTransaction} {nIn : Nat}

theorem discouragedNop_eq (h : hasFlag flags SCRIPT_VERIFY_DISCOURAGE_UPGRADABLE_NOPS) :
    discouragedNop flags = .error .discourageUpgradableNops := by
  rw [discouragedNop, if_pos h]

theorem derFlags_ne_zero (hstrict : hasFlag flags SCRIPT_VERIFY_STRICTENC) :
    flags &&& (SCRIPT_VERIFY_DERSIG ||| SCRIPT_VERIFY_LOW_S ||| SCRIPT_VERIFY_STRICTENC) ≠ 0 := by
  intro hzero
  have hstrict' : flags &&& SCRIPT_VERIFY_STRICTENC ≠ 0 := by simpa [hasFlag] using hstrict
  apply hstrict'
  calc flags &&& SCRIPT_VERIFY_STRICTENC
      = flags &&& ((SCRIPT_VERIFY_DERSIG ||| SCRIPT_VERIFY_LOW_S ||| SCRIPT_VERIFY_STRICTENC) &&&
          SCRIPT_VERIFY_STRICTENC) := rfl
    _ = 0 := by rw [← UInt32.and_assoc, hzero, UInt32.zero_and]

theorem encoded_of_signature (hstrict : hasFlag flags SCRIPT_VERIFY_STRICTENC) {vchSig : Bytes}
    (hok : checkSignatureEncodingError c flags vchSig = .ok ()) :
    isDERSignature vchSig true ∧ isDefinedHashtypeSignature vchSig := by
  rw [checkSignatureEncodingError] at hok
  split_ifs at hok with hder hlow htype
  refine ⟨?_, ?_⟩
  · by_contra hnot
    exact hder ⟨derFlags_ne_zero hstrict, by simpa using hnot⟩
  · by_contra hnot
    exact htype ⟨hstrict, by simpa using hnot⟩

theorem encoded_of_pubKey (hstrict : hasFlag flags SCRIPT_VERIFY_STRICTENC) {vchPubKey : Bytes}
    (hok : checkPubKeyEncodingError flags vchPubKey = .ok ()) : isCompressedOrUncompressedPubKey vchPubKey := by
  rw [checkPubKeyEncodingError] at hok
  split_ifs at hok with hkey
  by_contra hnot
  exact hkey ⟨hstrict, by simpa using hnot⟩

/-- With `SCRIPT_VERIFY_STRICTENC`, what passes is encoded as both versions ask for. -/
theorem encoded_of_check (checker : BaseSignatureChecker) (hstrict : hasFlag flags SCRIPT_VERIFY_STRICTENC)
    {vchSig vchPubKey : Bytes} {scriptCode : CScript} {fOk : Bool}
    (hok : ((scriptNumInterpreter c checker flags).check vchSig vchPubKey scriptCode).1 = .ok fOk) :
    (isDERSignature vchSig true ∧ isDefinedHashtypeSignature vchSig) ∧ isCompressedOrUncompressedPubKey vchPubKey ∧
      checker.checkSig vchSig vchPubKey scriptCode = fOk := by
  rw [scriptNumInterpreter] at hok
  dsimp only at hok
  rcases hsig : checkSignatureEncodingError c flags vchSig with e | _
  · rw [hsig] at hok
    cases hok
  · rw [hsig] at hok
    rcases hkey : checkPubKeyEncodingError flags vchPubKey with e | _
    · rw [hkey] at hok
      cases hok
    · rw [hkey] at hok
      cases hok
      exact ⟨encoded_of_signature hstrict hsig, encoded_of_pubKey hstrict hkey, rfl⟩

/-- Whatever its own flags are, the version over `CBigNum` accepts such encodings. -/
theorem checkSignatureEncoding_of_encoded {vchSig : Bytes}
    (h : isDERSignature vchSig true ∧ isDefinedHashtypeSignature vchSig) : checkSignatureEncoding flags vchSig := by
  rw [checkSignatureEncoding]
  simp [h.1, h.2]

/-- What the wallet's version accepts, the validation accepts, under fewer flags as well. -/
theorem scriptNum_refines_bigNum (cache : CSignatureCache c) (hstrict : hasFlag flags SCRIPT_VERIFY_STRICTENC)
    (hdiscourage : hasFlag flags SCRIPT_VERIFY_DISCOURAGE_UPGRADABLE_NOPS)
    (hminimal : ¬ hasFlag flags SCRIPT_VERIFY_MINIMALDATA)
    (hdummy : hasFlag flags' SCRIPT_VERIFY_NULLDUMMY → hasFlag flags SCRIPT_VERIFY_NULLDUMMY) :
    Refines (scriptNumInterpreter c (signatureChecker c txTo nIn) flags)
      (bigNumInterpreter cache txTo nIn flags' 0) where
  num := by
    rw [bigNumInterpreter, scriptNumInterpreter, (Bool.not_eq_true _).mp hminimal]
    exact bigNumbers_eq_scriptNumbers
  nullDummy := hdummy
  pushOk _ _ _ := rfl
  nop opcode stack hok := by
    rw [scriptNumInterpreter] at hok
    dsimp only at hok
    rw [discouragedNop_eq hdiscourage] at hok
    cases hok
  check vchSig vchPubKey scriptCode fOk hok := by
    obtain ⟨hsig, hkey, hfOk⟩ := encoded_of_check _ hstrict hok
    have hencoded : checkSignatureEncoding flags' vchSig := checkSignatureEncoding_of_encoded hsig
    rw [bigNumInterpreter]
    simp only [hencoded, hkey, Bool.and_self, Bool.not_true, Bool.and_false, Bool.false_eq_true, if_false, if_true]
    rw [checkSig_zero, hfOk]

theorem encoded_of_checkSignatureEncoding (h : ComparableFlags flags) {vchSig : Bytes}
    (hok : checkSignatureEncoding flags vchSig) :
    isDERSignature vchSig true ∧ isDefinedHashtypeSignature vchSig := by
  rw [checkSignatureEncoding, (Bool.not_eq_true _).mp h.allowEmptySig, (Bool.not_eq_true _).mp h.fixHashtype] at hok
  simpa using hok

/-- The encodings that the validation accepts are no error of the wallet's version. -/
theorem checkSignatureEncodingError_ok (h : ComparableFlags flags) {vchSig : Bytes}
    (hok : checkSignatureEncoding flags vchSig) : checkSignatureEncodingError c flags vchSig = .ok () := by
  obtain ⟨hder, htype⟩ := encoded_of_checkSignatureEncoding h hok
  rw [checkSignatureEncodingError, hder, htype]
  simp [h.lowS]

theorem checkPubKeyEncodingError_ok {vchPubKey : Bytes} (hkey : isCompressedOrUncompressedPubKey vchPubKey) :
    checkPubKeyEncodingError flags vchPubKey = .ok () := by
  rw [checkPubKeyEncodingError, hkey]
  simp

theorem bigNum_refines_scriptNum (cache : CSignatureCache c) (h : ComparableFlags flags) :
    Refines (bigNumInterpreter cache txTo nIn flags 0)
      (scriptNumInterpreter c (signatureChecker c txTo nIn) flags) where
  num := by
    rw [bigNumInterpreter, scriptNumInterpreter, (Bool.not_eq_true _).mp h.minimalData]
    exact bigNumbers_eq_scriptNumbers.symm
  nullDummy := id
  pushOk data opcode _ := by
    rw [scriptNumInterpreter, (Bool.not_eq_true _).mp h.minimalData]
    rfl
  nop opcode stack hok := by
    rw [bigNumInterpreter] at hok
    dsimp only at hok
    rw [discouragedNop_eq h.discourage, (Bool.not_eq_true _).mp h.checkLockTimeVerify] at hok
    split_ifs at hok with hlockTime hdisabled
    exact absurd rfl hdisabled
  check vchSig vchPubKey scriptCode fOk hok := by
    rw [bigNumInterpreter] at hok
    dsimp only at hok
    rw [h.strictEnc, Bool.true_and] at hok
    split_ifs at hok with hnot hencoded
    · rw [Bool.and_eq_true] at hencoded
      rw [scriptNumInterpreter]
      dsimp only
      rw [checkSignatureEncodingError_ok h hencoded.1, checkPubKeyEncodingError_ok hencoded.2, ← checkSig_zero cache]
      exact hok
    · rw [Bool.not_eq_true, Bool.not_eq_false'] at hnot
      exact absurd hnot hencoded

end Checks

/-! ## Both directions -/

section Agreement

variable {c : ScriptCrypto} (cache : CSignatureCache c) {flags flags' : ScriptFlags} {txTo : CTransaction} {nIn : Nat}

theorem evalScript_eq (h : ComparableFlags flags) (stack : ScriptStack) (script : CScript) :
    (evalScript cache txTo nIn flags 0 stack script).1 =
      ((signatureChecker c txTo nIn).evalScript c flags stack script).1.toOption := by
  have hleft : Refines (scriptNumInterpreter c (signatureChecker c txTo nIn) flags)
      (bigNumInterpreter cache txTo nIn flags 0) :=
    scriptNum_refines_bigNum cache h.strictEnc h.discourage h.minimalData id
  have hright : Refines (bigNumInterpreter cache txTo nIn flags 0)
      (scriptNumInterpreter c (signatureChecker c txTo nIn) flags) := bigNum_refines_scriptNum cache h
  rw [evalScript, BaseSignatureChecker.evalScript]
  dsimp only
  rcases hnew : (evalScriptWith c (scriptNumInterpreter c (signatureChecker c txTo nIn) flags) stack script).1 with
    e | stack'
  · rcases hold : (evalScriptWith c (bigNumInterpreter cache txTo nIn flags 0) stack script).1 with e' | stack'
    · rfl
    · rw [evalScriptWith_refines hright hold] at hnew
      cases hnew
  · rw [evalScriptWith_refines hleft hnew]

theorem evalScript_of_checker
    (h : Refines (scriptNumInterpreter c (signatureChecker c txTo nIn) flags)
      (bigNumInterpreter cache txTo nIn flags' 0)) {stack stack' : ScriptStack} {script : CScript}
    (hok : ((signatureChecker c txTo nIn).evalScript c flags stack script).1 = .ok stack') :
    (evalScript cache txTo nIn flags' 0 stack script).1 = some stack' := by
  rw [BaseSignatureChecker.evalScript] at hok
  rw [evalScript]
  dsimp only
  rw [evalScriptWith_refines h hok]
  rfl

theorem verifyScript_of_checker
    (h : Refines (scriptNumInterpreter c (signatureChecker c txTo nIn) flags)
      (bigNumInterpreter cache txTo nIn flags' 0))
    (hp2sh : hasFlag flags' SCRIPT_VERIFY_P2SH = hasFlag flags SCRIPT_VERIFY_P2SH) {scriptSig scriptPubKey : CScript}
    (hok : (signatureChecker c txTo nIn).verifyScript c flags scriptSig scriptPubKey = .ok ()) :
    (verifyScript cache txTo nIn flags' 0 scriptSig scriptPubKey).1 := by
  rw [BaseSignatureChecker.verifyScript] at hok
  rw [verifyScript, hp2sh]
  have hpushOnly : ¬ (hasFlag flags SCRIPT_VERIFY_SIGPUSHONLY ∧ !scriptSig.isPushOnly) := by
    intro hnot
    rw [if_pos hnot] at hok
    cases hok
  rw [if_neg hpushOnly] at hok
  rcases hsig : ((signatureChecker c txTo nIn).evalScript c flags [] scriptSig).1 with e | stackCopy
  · rw [hsig] at hok
    cases hok
  · rw [hsig] at hok
    rw [evalScript_of_checker cache h hsig]
    dsimp only at hok ⊢
    rcases hpub : ((signatureChecker c txTo nIn).evalScript c flags stackCopy scriptPubKey).1 with e | stack
    · rw [hpub] at hok
      cases hok
    · rw [hpub] at hok
      rw [evalScript_of_checker cache h hpub]
      cases stack with
      | nil => cases hok
      | cons back stack =>
          dsimp only at hok ⊢
          split_ifs at hok ⊢
          · cases stackCopy with
            | nil => cases hok
            | cons pubKeySerialized stackCopy =>
                dsimp only at hok ⊢
                rcases hscript : ((signatureChecker c txTo nIn).evalScript c flags stackCopy pubKeySerialized).1 with
                  e | stack'
                · rw [hscript] at hok
                  cases hok
                · rw [hscript] at hok
                  rw [evalScript_of_checker cache h hscript]
                  cases stack' with
                  | nil => cases hok
                  | cons back' stack' =>
                      dsimp only at hok ⊢
                      split_ifs at hok with hback'
                      simpa using hback'
          · rfl

end Agreement

/-- What the wallet checks of its own signature is what the validation accepts, and under flags that both versions know
the two evaluations have one result. -/
theorem interpreters_agree {c : ScriptCrypto} (cache : CSignatureCache c) (txTo : CTransaction) (nIn : Nat) :
    (∀ scriptSig scriptPubKey,
      (signatureChecker c txTo nIn).verifyScript c STANDARD_SCRIPT_VERIFY_FLAGS scriptSig scriptPubKey = .ok () →
        (verifyScript cache txTo nIn STANDARD_SCRIPT_VERIFY_FLAGS 0 scriptSig scriptPubKey).1 ∧
          (verifyScript cache txTo nIn MANDATORY_SCRIPT_VERIFY_FLAGS 0 scriptSig scriptPubKey).1) ∧
      ∀ flags, ComparableFlags flags → ∀ stack script,
        (evalScript cache txTo nIn flags 0 stack script).1 =
          ((signatureChecker c txTo nIn).evalScript c flags stack script).1.toOption := by
  refine ⟨fun scriptSig scriptPubKey hok => ⟨?_, ?_⟩, fun flags hflags => evalScript_eq cache hflags⟩
  · have hrefines : Refines (scriptNumInterpreter c (signatureChecker c txTo nIn) STANDARD_SCRIPT_VERIFY_FLAGS)
        (bigNumInterpreter cache txTo nIn STANDARD_SCRIPT_VERIFY_FLAGS 0) :=
      scriptNum_refines_bigNum cache (by decide) (by decide) (by decide) id
    exact verifyScript_of_checker cache hrefines rfl hok
  · have hrefines : Refines (scriptNumInterpreter c (signatureChecker c txTo nIn) STANDARD_SCRIPT_VERIFY_FLAGS)
        (bigNumInterpreter cache txTo nIn MANDATORY_SCRIPT_VERIFY_FLAGS 0) :=
      scriptNum_refines_bigNum cache (by decide) (by decide) (by decide) (by decide)
    exact verifyScript_of_checker cache hrefines (by decide) hok

/-! ## A signature -/

section Witness

/-- Any signature is good, and every hash is zero. -/
def trustingCrypto : ScriptCrypto where
  ripemd160 := id
  sha1 := id
  sha256 := id
  hash160 := id
  hash _ := 0
  verify _ _ _ := true
  checkLowS _ := true

def emptyCache : CSignatureCache trustingCrypto where
  get _ _ _ := false
  valid _ _ _ h := nomatch h

def spendingTx : CTransaction := ⟨1, 0, [⟨⟨0, 0⟩, [], 0⟩], [], 0⟩

def smallSignature : Bytes := [0x30, 6, 2, 1, 1, 2, 1, 1, 1]

def smallPubKey : Bytes := 2 :: List.replicate 32 0

theorem interpreters_agree_checkSig :
    ((verifyScript emptyCache spendingTx 0 STANDARD_SCRIPT_VERIFY_FLAGS 0 (CScript.push smallSignature)
        (CScript.push smallPubKey ++ [OP_CHECKSIG])).1 ∧
      (verifyScript emptyCache spendingTx 0 MANDATORY_SCRIPT_VERIFY_FLAGS 0 (CScript.push smallSignature)
        (CScript.push smallPubKey ++ [OP_CHECKSIG])).1) ∧
      (evalScript emptyCache spendingTx 0 (SCRIPT_VERIFY_STRICTENC ||| SCRIPT_VERIFY_DISCOURAGE_UPGRADABLE_NOPS) 0
        [smallSignature] (CScript.push smallPubKey ++ [OP_CHECKSIG])).1 =
        ((signatureChecker trustingCrypto spendingTx 0).evalScript trustingCrypto
          (SCRIPT_VERIFY_STRICTENC ||| SCRIPT_VERIFY_DISCOURAGE_UPGRADABLE_NOPS)
          [smallSignature] (CScript.push smallPubKey ++ [OP_CHECKSIG])).1.toOption := by
  obtain ⟨hverify, heval⟩ := interpreters_agree emptyCache spendingTx 0
  refine ⟨hverify _ _ (by decide +kernel), heval _ ?_ _ _⟩
  constructor <;> decide

end Witness

end ProCurrency

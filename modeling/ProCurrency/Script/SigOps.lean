import ProCurrency.Script.Interpreter

/-!
# Signature checks of an evaluation

The calls of `CheckSig` that an evaluation makes are bounded by the count that is read off the text of the script. The
counter trusts the opcode in front of a multisig: it pushes the number of keys whenever the multisig is reached.
-/

namespace ProCurrency

open ByteCodec CScript

variable {c : ScriptCrypto} {I : Interpreter}

/-- A check calls `CheckSig` once at most, and the numbers that opcodes push are read back. -/
structure Interpreter.Counted (I : Interpreter) : Prop where
  check : ∀ vchSig vchPubKey scriptCode, (I.check vchSig vchPubKey scriptCode).2 ≤ 1
  number : ∀ n : Nat, 1 ≤ n → n ≤ 16 → I.num.cast (I.num.getvch n) = some (n : Int) ∧ I.num.getint n = n

/-! ## One opcode -/

theorem checkMultisigLoop_le (h : I.Counted) (scriptCode : CScript) (keys sigs : List Bytes) :
    (checkMultisigLoop I scriptCode keys sigs).2 ≤ keys.length := by
  induction keys generalizing sigs with
  | nil => cases sigs <;> exact Nat.zero_le _
  | cons vchPubKey keys ih =>
      cases sigs with
      | nil => exact Nat.zero_le _
      | cons vchSig sigs =>
          have hcheck := h.check vchSig vchPubKey scriptCode
          rw [checkMultisigLoop, List.length_cons]
          rcases hr : I.check vchSig vchPubKey scriptCode with ⟨e | fOk, n⟩
          · rw [hr] at hcheck
            exact Nat.le_trans hcheck (Nat.le_add_left _ _)
          · rw [hr] at hcheck
            have hn : n ≤ 1 := hcheck
            dsimp only
            generalize (if fOk then sigs else vchSig :: sigs) = left
            split_ifs with hfew
            · exact Nat.le_trans hn (Nat.le_add_left _ _)
            · rw [Nat.add_comm]
              exact Nat.add_le_add (ih left) hn

theorem checkSigOp_le (h : I.Counted) (fVerify : Bool) (st : EvalState) : (checkSigOp I fVerify st).2 ≤ 1 := by
  rw [checkSigOp]
  split
  · rename_i vchPubKey vchSig rest _
    have hcheck := h.check vchSig vchPubKey (st.pbegincodehash.findAndDelete (CScript.push vchSig))
    dsimp only
    rcases hr : I.check vchSig vchPubKey (st.pbegincodehash.findAndDelete (CScript.push vchSig)) with ⟨e | fOk, n⟩
    · rw [hr] at hcheck
      exact hcheck
    · rw [hr] at hcheck
      exact hcheck
  · exact Nat.zero_le _

theorem checkMultisigArgs_le (h : I.Counted) (fVerify : Bool) (st : EvalState) (keys sigs rest : ScriptStack) :
    (checkMultisigArgs I fVerify st keys sigs rest).2 ≤ keys.length := by
  rw [checkMultisigArgs]
  have hloop := checkMultisigLoop_le h (sigs.foldl (fun scriptCode vchSig =>
    scriptCode.findAndDelete (CScript.push vchSig)) st.pbegincodehash) keys sigs
  split
  · rename_i heq
    rw [heq] at hloop
    exact hloop
  · rename_i heq
    rw [heq] at hloop
    split
    · exact hloop
    · split <;> exact hloop

/-- A multisig makes no more calls than the number on top of the stack says. -/
theorem checkMultisigOp_le (h : I.Counted) (fVerify : Bool) (st : EvalState) {n : Nat}
    (hn : ∀ top bn, st.stack.head? = some top → I.num.cast top = some bn → I.num.getint bn ≤ 20 →
      I.num.getint bn ≤ n) : (checkMultisigOp I fVerify st).2 ≤ n := by
  rw [checkMultisigOp]
  split
  · exact Nat.zero_le _
  · rename_i top stack hstack
    split
    · exact Nat.zero_le _
    · rename_i bn hcast
      have hbn : I.num.cast top = some bn := by
        rw [castNumber] at hcast
        split at hcast
        · nomatch hcast
        · rename_i bn' hbn'
          cases hcast
          exact hbn'
      dsimp only
      split_ifs with hcount
      · exact Nat.zero_le _
      · exact Nat.zero_le _
      · have hle := hn top bn (by rw [hstack]; rfl) hbn (by omega)
        split
        · exact Nat.zero_le _
        · split
          · exact Nat.zero_le _
          · split_ifs
            · exact Nat.zero_le _
            · exact Nat.zero_le _
            · refine Nat.le_trans (checkMultisigArgs_le h ..) ?_
              rw [List.length_take]
              omega

/-! ## One instruction -/

/-- After an opcode that pushes a positive number, that number is on top wherever code is executed. -/
def Tracks (I : Interpreter) (lastOpcode : UInt8) (st : EvalState) : Prop :=
  OP_1 ≤ lastOpcode → lastOpcode ≤ OP_16 → st.fExec → st.stack.head? = some (I.num.getvch (decodeOpN lastOpcode))

theorem decodeOpN_bounds {opcode : UInt8} (hlow : OP_1 ≤ opcode) (hhigh : opcode ≤ OP_16) :
    1 ≤ decodeOpN opcode ∧ decodeOpN opcode ≤ 16 := by
  have hlow' : 0x51 ≤ opcode.toNat := UInt8.le_iff_toNat_le.1 hlow
  have hhigh' : opcode.toNat ≤ 0x60 := UInt8.le_iff_toNat_le.1 hhigh
  have hone : OP_1.toNat = 0x51 := rfl
  rw [decodeOpN, hone]
  omega

theorem evalOp_le (h : I.Counted) {lastOpcode opcode : UInt8} {pc : CScript} {st : EvalState}
    (htracks : Tracks I lastOpcode st)
    (hexec : opcode = OP_CHECKMULTISIG ∨ opcode = OP_CHECKMULTISIGVERIFY → st.fExec) :
    (evalOp c I opcode pc st).2 ≤ sigOpsOf true lastOpcode opcode := by
  rw [evalOp]
  split_ifs with hsmall hnop hsig hmulti
  · exact Nat.zero_le _
  · split <;> exact Nat.zero_le _
  · rw [sigOpsOf, if_pos hsig]
    exact checkSigOp_le h _ _
  · rw [sigOpsOf, if_neg hsig, if_pos hmulti]
    split_ifs with hlast
    · obtain ⟨hone, hsixteen⟩ := decodeOpN_bounds hlast.2.1 hlast.2.2
      obtain ⟨hcast, hint⟩ := h.number _ hone hsixteen
      refine checkMultisigOp_le h _ _ fun top bn htop hbn _ => ?_
      have htop' := htracks hlast.2.1 hlast.2.2 (hexec hmulti)
      rw [htop] at htop'
      cases htop'
      rw [hcast] at hbn
      cases hbn
      exact Int.le_of_eq hint
    · exact checkMultisigOp_le h _ _ fun _ _ _ _ hle => hle
  · exact Nat.zero_le _

theorem evalInstruction_le (h : I.Counted) {lastOpcode opcode : UInt8} {data : Bytes} {pc : CScript} {st : EvalState}
    (htracks : Tracks I lastOpcode st) :
    (evalInstruction c I opcode data pc st).2 ≤ sigOpsOf true lastOpcode opcode := by
  rw [evalInstruction]
  split_ifs with hpush hmin hexec
  · exact Nat.zero_le _
  · exact Nat.zero_le _
  · refine evalOp_le h htracks fun hmulti => ?_
    cases hexec with
    | inl hexec => exact hexec
    | inr hcond =>
        obtain rfl | rfl := hmulti
        · exact absurd hcond (by decide)
        · exact absurd hcond (by decide)
  · exact Nat.zero_le _

theorem tracks_countOp {lastOpcode opcode : UInt8} {st : EvalState} (htracks : Tracks I lastOpcode st) :
    Tracks I lastOpcode (st.countOp opcode) := by
  rw [EvalState.countOp]
  split
  · exact htracks
  · exact htracks

/-- A round fails before its instruction, or makes the calls that the instruction makes. -/
theorem evalStep_snd (opcode : UInt8) (data : Bytes) (pc : CScript) (st : EvalState) :
    (evalStep c I opcode data pc st).2 = 0 ∨
      (evalStep c I opcode data pc st).2 = (evalInstruction c I opcode data pc (st.countOp opcode)).2 := by
  rw [evalStep]
  split_ifs
  · exact .inl rfl
  · exact .inl rfl
  · exact .inl rfl
  · refine .inr ?_
    rcases evalInstruction c I opcode data pc (st.countOp opcode) with ⟨e | st', n⟩
    · rfl
    · rfl

theorem evalStep_ok {opcode : UInt8} {data : Bytes} {pc : CScript} {st st' : EvalState}
    (h : (evalStep c I opcode data pc st).1 = .ok st') :
    (evalInstruction c I opcode data pc (st.countOp opcode)).1 = .ok st' := by
  rw [evalStep] at h
  split_ifs at h
  rcases heq : evalInstruction c I opcode data pc (st.countOp opcode) with ⟨e | st'', n⟩
  · rw [heq] at h
    nomatch h
  · rw [heq] at h
    change checkStackSize st'' = .ok st' at h
    rw [checkStackSize] at h
    split_ifs at h
    exact h

theorem evalStep_le (h : I.Counted) {lastOpcode opcode : UInt8} {data : Bytes} {pc : CScript} {st : EvalState}
    (htracks : Tracks I lastOpcode st) : (evalStep c I opcode data pc st).2 ≤ sigOpsOf true lastOpcode opcode := by
  obtain hzero | hinstr := evalStep_snd (c := c) (I := I) opcode data pc st
  · rw [hzero]
    exact Nat.zero_le _
  · rw [hinstr]
    exact evalInstruction_le h (tracks_countOp htracks)

/-! ## Instructions that push -/

/-- What an opcode up to `OP_16` pushes. -/
def pushed (I : Interpreter) (opcode : UInt8) (data : Bytes) : Bytes :=
  if opcode ≤ OP_PUSHDATA4 then data else I.num.getvch ((opcode.toNat : Int) - (OP_1.toNat - 1))

/-- `OP_RESERVED` is the one opcode among them that pushes nothing. -/
theorem eq_reserved {opcode : UInt8} (hopcode : opcode ≤ OP_16) (hlarge : ¬ opcode ≤ OP_PUSHDATA4)
    (hsmall : ¬ isSmallInteger opcode) : opcode = 0x50 := by
  have hhigh : opcode.toNat ≤ 0x60 := UInt8.le_iff_toNat_le.1 hopcode
  have hlow : 0x4e < opcode.toNat := UInt8.lt_iff_toNat_lt.1 (UInt8.not_le.1 hlarge)
  simp only [isSmallInteger, Bool.or_eq_true, Bool.and_eq_true, decide_eq_true_eq, not_or, not_and] at hsmall
  obtain ⟨hnegate, hone⟩ := hsmall
  have hnegate' : opcode.toNat ≠ 0x4f := fun h => hnegate (UInt8.toNat_inj.1 h)
  have hone' : ¬ 0x51 ≤ opcode.toNat := fun h => hone (UInt8.le_iff_toNat_le.2 h) hopcode
  exact UInt8.toNat_inj.1 (show opcode.toNat = 0x50 by omega)

theorem evalStep_push {opcode : UInt8} {data : Bytes} {pc : CScript} {st st' : EvalState} (hexec : st.fExec)
    (hopcode : opcode ≤ OP_16) (h : (evalStep c I opcode data pc st).1 = .ok st') :
    st' = st.setStack (pushed I opcode data :: st.stack) := by
  have hinstr := evalStep_ok h
  rw [EvalState.countOp, if_neg (UInt8.not_lt.2 hopcode), evalInstruction] at hinstr
  rw [pushed]
  split_ifs at hinstr with hpush hmin hcond
  · rw [if_pos hpush.2]
    cases hinstr
    rfl
  · have hlarge : ¬ opcode ≤ OP_PUSHDATA4 := fun hle => hpush ⟨hexec, hle⟩
    rw [if_neg hlarge]
    by_cases hsmall : isSmallInteger opcode
    · rw [evalOp, if_pos hsmall] at hinstr
      cases hinstr
      rfl
    · rw [eq_reserved hopcode hlarge hsmall] at hinstr
      nomatch hinstr
  · exact absurd (.inl hexec) hcond

theorem setStack_cons_tracks {opcode : UInt8} {data : Bytes} {st : EvalState} :
    Tracks I opcode (st.setStack (pushed I opcode data :: st.stack)) := by
  intro hone hsixteen _
  have hlarge : ¬ opcode ≤ OP_PUSHDATA4 := fun hle => absurd (UInt8.le_trans hone hle) (by decide)
  obtain ⟨hlow, _⟩ := decodeOpN_bounds hone hsixteen
  have hnumber : (opcode.toNat : Int) - (OP_1.toNat - 1) = decodeOpN opcode := by
    have hone : OP_1.toNat = 0x51 := rfl
    rw [decodeOpN, hone] at hlow ⊢
    omega
  rw [pushed, if_neg hlarge, hnumber]
  rfl

/-- A round keeps track of the number that it pushes. -/
theorem evalStep_tracks {opcode : UInt8} {data : Bytes} {pc : CScript} {st st' : EvalState}
    (h : (evalStep c I opcode data pc st).1 = .ok st') : Tracks I opcode st' := by
  by_cases hopcode : opcode ≤ OP_16
  · by_cases hexec : st.fExec
    · rw [evalStep_push hexec hopcode h]
      exact setStack_cons_tracks
    · have hinstr := evalStep_ok h
      have hcond : ¬ (OP_IF ≤ opcode ∧ opcode ≤ OP_ENDIF) :=
        fun hcond => absurd (UInt8.le_trans hcond.1 hopcode) (by decide)
      rw [EvalState.countOp, if_neg (UInt8.not_lt.2 hopcode), evalInstruction, if_neg fun hpush => hexec hpush.1,
        if_neg (not_or.2 ⟨hexec, hcond⟩)] at hinstr
      cases hinstr
      exact fun _ _ hexec' => absurd hexec' hexec
  · exact fun _ hsixteen _ => absurd hsixteen hopcode

/-! ## A run -/

theorem evalFrom_le (h : I.Counted) {lastOpcode : UInt8} {rounds : Nat} {pc : CScript} {st : EvalState}
    (htracks : Tracks I lastOpcode st) :
    (evalFrom c I rounds pc st).2 ≤ sigOpCountFrom true lastOpcode rounds pc := by
  induction rounds generalizing lastOpcode pc st with
  | zero => exact Nat.zero_le _
  | succ rounds ih =>
      rw [evalFrom, sigOpCountFrom]
      split
      · exact Nat.zero_le _
      · rcases hop : pc.getOp with _ | ⟨opcode, data, pc'⟩
        · exact Nat.zero_le _
        · have hstep : (evalStep c I opcode data pc' st).2 ≤ sigOpsOf true lastOpcode opcode := evalStep_le h htracks
          dsimp only
          rcases heq : evalStep c I opcode data pc' st with ⟨e | st', n⟩
          · rw [heq] at hstep
            exact Nat.le_trans hstep (Nat.le_add_right _ _)
          · rw [heq] at hstep
            have htracks' : Tracks I opcode st' := evalStep_tracks (by rw [heq])
            exact Nat.add_le_add hstep (ih htracks')

/-- The evaluation of a script calls `CheckSig` no more often than the script counts. -/
theorem evalScriptWith_le (h : I.Counted) (stack : ScriptStack) (script : CScript) :
    (evalScriptWith c I stack script).2 ≤ script.getSigOpCount true := by
  have hrun : (evalFrom c I script.length script { stack := stack, pbegincodehash := script }).2 ≤
      script.getSigOpCount true := evalFrom_le h fun _ hsixteen _ => absurd hsixteen (by decide)
  rw [evalScriptWith]
  split
  · exact Nat.zero_le _
  · rcases heq : evalFrom c I script.length script { stack := stack, pbegincodehash := script } with ⟨e | st', n⟩
    · rw [heq] at hrun
      exact hrun
    · rw [heq] at hrun
      exact hrun

/-! ## The two counts -/

theorem sigOpsOf_accurate_le (lastOpcode opcode : UInt8) :
    sigOpsOf true lastOpcode opcode ≤ sigOpsOf false lastOpcode opcode := by
  rw [sigOpsOf, sigOpsOf]
  split_ifs with hsig hmulti hlast hfalse hfalse
  · exact Nat.le_refl _
  · exact absurd hfalse.1 (by decide)
  · obtain ⟨_, hle⟩ := decodeOpN_bounds hlast.2.1 hlast.2.2
    exact Nat.le_trans hle (by decide)
  · exact absurd hfalse.1 (by decide)
  · exact Nat.le_refl _
  · exact Nat.le_refl _

theorem getSigOpCount_accurate_le (script : CScript) :
    script.getSigOpCount true ≤ script.getSigOpCount false := by
  have hfrom : ∀ (rounds : Nat) (lastOpcode : UInt8) (pc : CScript),
      sigOpCountFrom true lastOpcode rounds pc ≤ sigOpCountFrom false lastOpcode rounds pc := by
    intro rounds
    induction rounds with
    | zero => exact fun _ _ => Nat.le_refl _
    | succ rounds ih =>
        intro lastOpcode pc
        rw [sigOpCountFrom, sigOpCountFrom]
        rcases pc.getOp with _ | ⟨opcode, data, pc'⟩
        · exact Nat.le_refl _
        · exact Nat.add_le_add (sigOpsOf_accurate_le _ _) (ih _ _)
  exact hfrom _ _ _

/-! ## The two interpreters -/

theorem bigNumbers_number : ∀ n < 17,
    bigNumbers.cast (bigNumbers.getvch (n : Nat)) = some (n : Int) ∧ bigNumbers.getint (n : Nat) = n := by
  decide +kernel

theorem scriptNumbers_number (fRequireMinimal : Bool) : ∀ n < 17,
    (scriptNumbers fRequireMinimal).cast ((scriptNumbers fRequireMinimal).getvch (n : Nat)) = some (n : Int) ∧
      (scriptNumbers fRequireMinimal).getint (n : Nat) = n := by
  cases fRequireMinimal <;> decide +kernel

section Interpreters

variable {c : ScriptCrypto} (cache : CSignatureCache c) (txTo : CTransaction) (nIn : Nat) (flags : ScriptFlags)
  (nHashType : UInt32)

theorem bigNumInterpreter_counted : (bigNumInterpreter cache txTo nIn flags nHashType).Counted where
  check vchSig vchPubKey scriptCode := by
    rw [bigNumInterpreter]
    dsimp only
    split_ifs
    · exact Nat.zero_le _
    · exact Nat.le_refl _
    · exact Nat.zero_le _
  number n _ hsixteen := bigNumbers_number n (Nat.lt_succ_of_le hsixteen)

theorem scriptNumInterpreter_counted (checker : BaseSignatureChecker) :
    (scriptNumInterpreter c checker flags).Counted where
  check vchSig vchPubKey scriptCode := by
    rw [scriptNumInterpreter]
    dsimp only
    split
    · exact Nat.zero_le _
    · split
      · exact Nat.zero_le _
      · exact Nat.le_refl _
  number n _ hsixteen := scriptNumbers_number _ n (Nat.lt_succ_of_le hsixteen)

/-! ## The redeem script -/

/-- The bytes of a small number are a script without signature operations. -/
theorem sigOpCount_number : ∀ n < 18, getSigOpCount (bigNumbers.getvch ((n : Nat) - 1)) true = 0 := by
  decide +kernel

theorem sigOpCount_pushed {opcode : UInt8} {data : Bytes} (hopcode : opcode ≤ OP_16) :
    getSigOpCount (pushed (bigNumInterpreter cache txTo nIn flags nHashType) opcode data) true ≤
      getSigOpCount data true := by
  rw [pushed]
  split_ifs with hpush
  · exact Nat.le_refl _
  · have hhigh : opcode.toNat ≤ 0x60 := UInt8.le_iff_toNat_le.1 hopcode
    have hlow : 0x4e < opcode.toNat := UInt8.lt_iff_toNat_lt.1 (UInt8.not_le.1 hpush)
    have hnumber : (opcode.toNat : Int) - (OP_1.toNat - 1) = ((opcode.toNat - 0x4f : Nat) : Int) - 1 := by
      have hone : OP_1.toNat = 0x51 := rfl
      rw [hone]
      omega
    rw [hnumber]
    exact Nat.le_trans (Nat.le_of_eq (sigOpCount_number _ (by omega))) (Nat.zero_le _)

/-- The scan of a script that only pushes follows its evaluation: where the last push is a small number, both the
stack and the scan are left with a script without signature operations. -/
theorem evalFrom_pushOnly {rounds : Nat} (data : Bytes) {pc : CScript} {st st' : EvalState}
    (hpush : isPushOnlyFrom rounds pc) (hexec : st.fExec)
    (hdata : ∀ top ∈ st.stack.head?, getSigOpCount top true ≤ getSigOpCount data true)
    (h : (evalFrom c (bigNumInterpreter cache txTo nIn flags nHashType) rounds pc st).1 = .ok st') :
    ∃ data', lastPushed data rounds pc = some data' ∧
      ∀ top ∈ st'.stack.head?, getSigOpCount top true ≤ getSigOpCount data' true := by
  induction rounds generalizing data pc st with
  | zero =>
      cases h
      exact ⟨data, rfl, hdata⟩
  | succ rounds ih =>
      rw [isPushOnlyFrom] at hpush
      rw [evalFrom] at h
      rw [lastPushed]
      split_ifs at hpush h ⊢ with hempty
      · cases h
        exact ⟨data, rfl, hdata⟩
      · rcases hop : pc.getOp with _ | ⟨opcode, data₁, pc'⟩
        · rw [hop] at h
          nomatch h
        · rw [hop] at hpush h
          dsimp only at hpush h ⊢
          split_ifs at hpush ⊢ with hlarge
          have hopcode := UInt8.not_lt.1 hlarge
          rcases heq : evalStep c (bigNumInterpreter cache txTo nIn flags nHashType) opcode data₁ pc' st with
            ⟨e | st₁, n⟩
          · rw [heq] at h
            nomatch h
          · rw [heq] at h
            have hst : st₁ = _ := evalStep_push hexec hopcode (by rw [heq])
            refine ih data₁ hpush ?_ ?_ h
            · rw [hst]
              exact hexec
            · rw [hst]
              intro top htop
              cases htop
              exact sigOpCount_pushed cache txTo nIn flags nHashType hopcode

theorem evalScriptWith_ok {I : Interpreter} {stack stack' : ScriptStack} {script : CScript}
    (h : (evalScriptWith c I stack script).1 = .ok stack') :
    ∃ st', (evalFrom c I script.length script { stack := stack, pbegincodehash := script }).1 = .ok st' ∧
      st'.stack = stack' := by
  rw [evalScriptWith] at h
  split_ifs at h
  rcases heq : evalFrom c I script.length script { stack := stack, pbegincodehash := script } with ⟨e | st', n⟩
  · rw [heq] at h
    nomatch h
  · rw [heq] at h
    dsimp only at h
    split_ifs at h
    cases h
    exact ⟨st', rfl, rfl⟩

theorem evalScript_pushOnly {scriptSig : CScript} {top : Bytes} {stack : ScriptStack} (hpush : scriptSig.isPushOnly)
    (h : (evalScript cache txTo nIn flags nHashType [] scriptSig).1 = some (top :: stack)) :
    ∃ data, lastPushed [] scriptSig.length scriptSig = some data ∧
      getSigOpCount top true ≤ getSigOpCount data true := by
  rw [evalScript] at h
  dsimp only at h
  rcases heq : (evalScriptWith c (bigNumInterpreter cache txTo nIn flags nHashType) [] scriptSig).1 with e | stack'
  · rw [heq] at h
    cases h
  · rw [heq] at h
    cases h
    obtain ⟨st', hrun, hstack⟩ := evalScriptWith_ok heq
    obtain ⟨data, hlast, htop⟩ := evalFrom_pushOnly cache txTo nIn flags nHashType [] hpush rfl
      (fun _ htop => by cases htop) hrun
    refine ⟨data, hlast, htop top ?_⟩
    rw [hstack]
    rfl

theorem verifyScript_le (scriptSig scriptPubKey : CScript) :
    (verifyScript cache txTo nIn flags nHashType scriptSig scriptPubKey).2 ≤
      scriptPubKey.getP2SHSigOpCount scriptSig := by
  rw [verifyScript]
  split
  · exact Nat.zero_le _
  · rename_i stackCopy hsig
    split
    · exact Nat.zero_le _
    · exact Nat.zero_le _
    · split_ifs with hback hp2sh hpush
      · exact Nat.zero_le _
      · exact Nat.zero_le _
      · cases stackCopy with
        | nil => exact Nat.zero_le _
        | cons pubKeySerialized stackCopy =>
            have hpush' : scriptSig.isPushOnly := by simpa using hpush
            obtain ⟨data, hlast, hdata⟩ := evalScript_pushOnly cache txTo nIn flags nHashType hpush' hsig
            have hscript : scriptPubKey.isPayToScriptHash := (Bool.and_eq_true _ _ ▸ hp2sh).2
            have hcalls : (evalScript cache txTo nIn flags nHashType stackCopy pubKeySerialized).2 ≤
                getSigOpCount pubKeySerialized true :=
              evalScriptWith_le (bigNumInterpreter_counted cache txTo nIn flags nHashType) _ _
            rw [getP2SHSigOpCount, hscript, hlast]
            have hle := Nat.le_trans hcalls hdata
            dsimp only
            split
            · exact hle
            · exact hle
            · exact hle
      · exact Nat.zero_le _

end Interpreters

/-- The counts of signature operations bound the work of an evaluation. -/
theorem checkSigCalls_bounded {c : ScriptCrypto} (cache : CSignatureCache c) (txTo : CTransaction) (nIn : Nat)
    (flags : ScriptFlags) (nHashType : UInt32) :
    (∀ stack script,
      (evalScript cache txTo nIn flags nHashType stack script).2 ≤ script.getSigOpCount true ∧
        (∀ checker : BaseSignatureChecker,
          (checker.evalScript c flags stack script).2 ≤ script.getSigOpCount true) ∧
        script.getSigOpCount true ≤ script.getSigOpCount false) ∧
      ∀ scriptSig scriptPubKey,
        (verifyScript cache txTo nIn flags nHashType scriptSig scriptPubKey).2 ≤
          scriptPubKey.getP2SHSigOpCount scriptSig := by
  refine ⟨fun stack script => ⟨?_, fun checker => ?_, ?_⟩, fun scriptSig scriptPubKey => ?_⟩
  · exact evalScriptWith_le (bigNumInterpreter_counted cache txTo nIn flags nHashType) stack script
  · exact evalScriptWith_le (scriptNumInterpreter_counted flags checker) stack script
  · exact getSigOpCount_accurate_le script
  · exact verifyScript_le cache txTo nIn flags nHashType scriptSig scriptPubKey

end ProCurrency

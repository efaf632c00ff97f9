import ProCurrency.Lib.Conditional
import ProCurrency.Script.Lemmas.Evaluate

/-!
# Conditionals of a script

`EvalScript` (script.cpp) keeps a flag for each conditional that is open, and what it runs is told from the flags. A script
that it accepts is a structured program: a conditional is an opcode, arms with `OP_ELSE` between them, of which every
second one runs, and `OP_ENDIF`. What counts for opcodes that are not executed counts in the structured program too.
-/

namespace ProCurrency

open ByteCodec CScript Conditional

/-! ## Instructions -/

/-- An instruction with the script that follows it. -/
structure Instruction where
  opcode : UInt8
  data : Bytes
  pc : CScript

/-- The instructions of a script; `none` when one cannot be read. -/
def instructionsFrom : Nat → CScript → Option (List Instruction)
  | 0, _ => some []
  | rounds + 1, pc =>
      if pc.isEmpty then some []
      else
        match pc.getOp with
        | none => none
        | some (opcode, data, pc) => (instructionsFrom rounds pc).map (⟨opcode, data, pc⟩ :: ·)

def CScript.instructions (script : CScript) : Option (List Instruction) := instructionsFrom script.length script

def OP_VERIF : UInt8 := 0x65
def OP_VERNOTIF : UInt8 := 0x66

def opKind (opcode : UInt8) : Kind :=
  if opcode = OP_IF ∨ opcode = OP_NOTIF then .cond
  else if opcode = OP_ELSE then .els
  else if opcode = OP_ENDIF then .endif
  else .plain

/-! ## The machine -/

section Machine

variable (c : ScriptCrypto) (I : Interpreter)

/-- What every instruction is held to. Two opcodes are refused wherever they stand. -/
def enterInstruction (a : Instruction) (st : EvalState) : OpResult :=
  let st := st.countOp a.opcode
  if MAX_SCRIPT_ELEMENT_SIZE < a.data.length then .error .pushSize
  else if OP_16 < a.opcode ∧ 201 < st.nOpCount then .error .opCount
  else if isDisabledOpcode a.opcode then .error .disabledOpcode
  else if a.opcode = OP_VERIF ∨ a.opcode = OP_VERNOTIF then .error .badOpcode
  else .ok st

def execInstruction (a : Instruction) (st : EvalState) : OpResult :=
  if a.opcode ≤ OP_PUSHDATA4 then
    if !I.pushOk a.data a.opcode then .error .minimalData else .ok (st.setStack (a.data :: st.stack))
  else (evalOp c I a.opcode a.pc st).1

def testInstruction (a : Instruction) (st : EvalState) : Except ScriptError (Bool × EvalState) :=
  match st.stack with
  | [] => .error .unbalancedConditional
  | x :: rest => .ok (if a.opcode = OP_NOTIF then !castToBool x else castToBool x, st.setStack rest)

/-- A script as a machine over the flags of its open conditionals, which its own state does not have. -/
def scriptMachine : Machine Instruction EvalState ScriptError where
  kind a := opKind a.opcode
  enter := enterInstruction
  exec := execInstruction c I
  test := testInstruction
  leave := checkStackSize
  unbalanced := .unbalancedConditional

end Machine

def EvalState.withFlags (st : EvalState) (flags : List Bool) : EvalState := { st with vfExec := flags }

/-! ## What an opcode does without the flags -/

variable {c : ScriptCrypto} {I : Interpreter} {num : ScriptNumbers} {st st' : EvalState} {flags : List Bool}

/-- A result is carried over to other flags. -/
def OpResult.withFlags (r : OpResult) (flags : List Bool) : OpResult := r.map (·.withFlags flags)

theorem withTop1_withFlags {f f' : Bytes → ScriptStack → OpResult}
    (h : ∀ x rest, f' x rest = (f x rest).withFlags flags) :
    withTop1 (st.withFlags flags) f' = OpResult.withFlags (withTop1 st f) flags := by
  unfold withTop1 EvalState.withFlags
  dsimp only
  cases st.stack with
  | nil => rfl
  | cons x rest => exact h x rest

theorem withTop2_withFlags {f f' : Bytes → Bytes → ScriptStack → OpResult}
    (h : ∀ x1 x2 rest, f' x1 x2 rest = (f x1 x2 rest).withFlags flags) :
    withTop2 (st.withFlags flags) f' = OpResult.withFlags (withTop2 st f) flags := by
  unfold withTop2 EvalState.withFlags
  dsimp only
  split
  · exact h _ _ _
  · rfl

theorem withTop3_withFlags {f f' : Bytes → Bytes → Bytes → ScriptStack → OpResult}
    (h : ∀ x1 x2 x3 rest, f' x1 x2 x3 rest = (f x1 x2 x3 rest).withFlags flags) :
    withTop3 (st.withFlags flags) f' = OpResult.withFlags (withTop3 st f) flags := by
  unfold withTop3 EvalState.withFlags
  dsimp only
  split
  · exact h _ _ _ _
  · rfl

theorem withTop4_withFlags {f f' : Bytes → Bytes → Bytes → Bytes → ScriptStack → OpResult}
    (h : ∀ x1 x2 x3 x4 rest, f' x1 x2 x3 x4 rest = (f x1 x2 x3 x4 rest).withFlags flags) :
    withTop4 (st.withFlags flags) f' = OpResult.withFlags (withTop4 st f) flags := by
  unfold withTop4 EvalState.withFlags
  dsimp only
  split
  · exact h _ _ _ _ _
  · rfl

theorem unaryOp_withFlags (opcode : UInt8) :
    unaryOp num opcode (st.withFlags flags) = OpResult.withFlags (unaryOp num opcode st) flags := by
  refine withTop1_withFlags fun x rest => ?_
  cases castNumber num x <;> rfl

theorem binaryOp_withFlags (opcode : UInt8) :
    binaryOp num opcode (st.withFlags flags) = OpResult.withFlags (binaryOp num opcode st) flags := by
  refine withTop2_withFlags fun x1 x2 rest => ?_
  cases castNumber num x1 with
  | error e => rfl
  | ok bn1 =>
      cases castNumber num x2 with
      | error e => rfl
      | ok bn2 =>
          simp only [bind, Except.bind]
          split
          · split <;> rfl
          · rfl

theorem withinOp_withFlags : withinOp num (st.withFlags flags) = OpResult.withFlags (withinOp num st) flags := by
  refine withTop3_withFlags fun x1 x2 x3 rest => ?_
  cases castNumber num x1 with
  | error e => rfl
  | ok bn1 =>
      cases castNumber num x2 with
      | error e => rfl
      | ok bn2 => cases castNumber num x3 <;> rfl

theorem pickOp_withFlags (fRoll : Bool) :
    pickOp num fRoll (st.withFlags flags) = OpResult.withFlags (pickOp num fRoll st) flags := by
  have hstack : (st.withFlags flags).stack = st.stack := rfl
  rw [pickOp, pickOp, hstack]
  split
  · rfl
  · refine withTop1_withFlags fun x rest => ?_
    cases castNumber num x with
    | error e => rfl
    | ok bn =>
        simp only [bind, Except.bind]
        split
        · rfl
        · split <;> rfl

/-- No opcode but those of the conditionals reads the flags or changes them. -/
theorem plainOp_withFlags {opcode : UInt8} (hkind : opKind opcode = .plain) (pc : CScript) :
    plainOp c num opcode pc (st.withFlags flags) = OpResult.withFlags (plainOp c num opcode pc st) flags := by
  have hstack : (st.withFlags flags).stack = st.stack := rfl
  have haltstack : (st.withFlags flags).altstack = st.altstack := rfl
  unfold plainOp
  split
  -- An opcode takes its operands off the stack and does not look at the state again.
  all_goals first
    | rfl
    | exact absurd hkind (by decide)
    | exact unaryOp_withFlags _
    | exact binaryOp_withFlags _
    | exact withinOp_withFlags
    | exact pickOp_withFlags _
    | exact withTop1_withFlags fun _ _ => rfl
    | exact withTop2_withFlags fun _ _ _ => rfl
    | exact withTop3_withFlags fun _ _ _ _ => rfl
    | exact withTop4_withFlags fun _ _ _ _ _ => rfl
    | (refine withTop1_withFlags fun _ _ => ?_; split <;> rfl)
    | (refine withTop2_withFlags fun _ _ _ => ?_; split <;> rfl)
    | (rw [haltstack]; cases st.altstack <;> rfl)
    | (rw [hstack]; split <;> rfl)

theorem pushResult_withFlags (fVerify fSuccess : Bool) (e : ScriptError) (rest : ScriptStack) :
    pushResult fVerify fSuccess e (st.withFlags flags) rest =
      OpResult.withFlags (pushResult fVerify fSuccess e st rest) flags := by
  cases fVerify <;> cases fSuccess <;> rfl

theorem checkSigOp_withFlags (fVerify : Bool) :
    (checkSigOp I fVerify (st.withFlags flags)).1 = OpResult.withFlags (checkSigOp I fVerify st).1 flags := by
  have hstack : (st.withFlags flags).stack = st.stack := rfl
  have hcode : (st.withFlags flags).pbegincodehash = st.pbegincodehash := rfl
  rw [checkSigOp, checkSigOp, hstack, hcode]
  split
  · rename_i vchPubKey vchSig rest _
    dsimp only
    rcases I.check vchSig vchPubKey (st.pbegincodehash.findAndDelete (CScript.push vchSig)) with ⟨e | fSuccess, n⟩
    · rfl
    · exact pushResult_withFlags fVerify fSuccess _ rest
  · rfl

theorem checkMultisigArgs_withFlags (fVerify : Bool) (keys sigs rest : ScriptStack) :
    (checkMultisigArgs I fVerify (st.withFlags flags) keys sigs rest).1 =
      OpResult.withFlags (checkMultisigArgs I fVerify st keys sigs rest).1 flags := by
  have hcode : (st.withFlags flags).pbegincodehash = st.pbegincodehash := rfl
  rw [checkMultisigArgs, checkMultisigArgs, hcode]
  rcases checkMultisigLoop I (sigs.foldl (fun scriptCode vchSig => scriptCode.findAndDelete (CScript.push vchSig))
    st.pbegincodehash) keys sigs with ⟨e | fSuccess, n⟩
  · rfl
  · cases rest with
    | nil => rfl
    | cons dummy rest =>
        dsimp only
        split
        · rfl
        · exact pushResult_withFlags fVerify fSuccess _ rest

theorem checkMultisigOp_withFlags (fVerify : Bool) :
    (checkMultisigOp I fVerify (st.withFlags flags)).1 = OpResult.withFlags (checkMultisigOp I fVerify st).1 flags := by
  have hstack : (st.withFlags flags).stack = st.stack := rfl
  have hcount : (st.withFlags flags).nOpCount = st.nOpCount := rfl
  rw [checkMultisigOp, checkMultisigOp, hstack, hcount]
  cases st.stack with
  | nil => rfl
  | cons top stack =>
      dsimp only
      cases castNumber I.num top with
      | error e => rfl
      | ok bn =>
          dsimp only
          split_ifs
          · rfl
          · rfl
          · cases stack.drop (I.num.getint bn).toNat with
            | nil => rfl
            | cons top afterKeys =>
                dsimp only
                cases castNumber I.num top with
                | error e => rfl
                | ok bn' =>
                    dsimp only
                    split_ifs
                    · rfl
                    · rfl
                    · exact @checkMultisigArgs_withFlags I { st with nOpCount := _ } flags fVerify _ _ _

theorem evalOp_withFlags {opcode : UInt8} (hkind : opKind opcode = .plain) (pc : CScript) :
    (evalOp c I opcode pc (st.withFlags flags)).1 = OpResult.withFlags (evalOp c I opcode pc st).1 flags := by
  have hstack : (st.withFlags flags).stack = st.stack := rfl
  rw [evalOp, evalOp, hstack]
  split_ifs
  · rfl
  · cases I.nop opcode st.stack <;> rfl
  · exact checkSigOp_withFlags _
  · exact checkMultisigOp_withFlags _
  · exact plainOp_withFlags hkind pc

/-! ## One instruction -/

theorem countOp_withFlags (opcode : UInt8) :
    (st.withFlags flags).countOp opcode = (st.countOp opcode).withFlags flags := by
  unfold EvalState.countOp
  split <;> rfl

/-- An opcode that the flags do not skip is one of the conditionals or one of the two that are refused. -/
theorem opKind_ne_plain {opcode : UInt8} (hlow : OP_IF ≤ opcode) (hhigh : opcode ≤ OP_ENDIF)
    (hverif : ¬ (opcode = OP_VERIF ∨ opcode = OP_VERNOTIF)) : opKind opcode ≠ .plain := by
  have hlow' : 0x63 ≤ opcode.toNat := UInt8.le_iff_toNat_le.1 hlow
  have hhigh' : opcode.toNat ≤ 0x68 := UInt8.le_iff_toNat_le.1 hhigh
  have hall : ∀ n < 0x69, 0x63 ≤ n → ¬ (UInt8.ofNat n = OP_VERIF ∨ UInt8.ofNat n = OP_VERNOTIF) →
      opKind (UInt8.ofNat n) ≠ .plain := by decide
  have h := hall opcode.toNat (by omega) hlow'
  rw [UInt8.ofNat_toNat] at h
  exact h hverif

theorem opKind_cond {opcode : UInt8} (h : opKind opcode = .cond) : opcode = OP_IF ∨ opcode = OP_NOTIF := by
  unfold opKind at h
  split_ifs at h with hcond
  exact hcond

theorem opKind_els {opcode : UInt8} (h : opKind opcode = .els) : opcode = OP_ELSE := by
  unfold opKind at h
  split_ifs at h with _ hels
  exact hels

theorem opKind_endif {opcode : UInt8} (h : opKind opcode = .endif) : opcode = OP_ENDIF := by
  unfold opKind at h
  split_ifs at h with _ _ hendif
  exact hendif

/-- The opcodes of conditionals get to the `switch` whatever the flags are. -/
theorem evalInstruction_between {opcode : UInt8} (hlow : OP_IF ≤ opcode) (hhigh : opcode ≤ OP_ENDIF) (data : Bytes)
    (pc : CScript) (st : EvalState) : evalInstruction c I opcode data pc st = evalOp c I opcode pc st := by
  have hpush : ¬ opcode ≤ OP_PUSHDATA4 := fun hle => absurd (UInt8.le_trans hlow hle) (by decide)
  rw [evalInstruction, if_neg fun h => hpush h.2, if_pos (.inr ⟨hlow, hhigh⟩)]

theorem ifOp_withFlags {a : Instruction} {fNot : Bool} (hnot : fNot = decide (a.opcode = OP_NOTIF)) :
    ifOp fNot (st.withFlags flags) =
      (if active flags then (testInstruction a st).map fun r => (r.2, r.1 :: flags) else .ok (st, false :: flags)).map
        fun r => r.1.withFlags r.2 := by
  have hexec : (st.withFlags flags).fExec = active flags := rfl
  have hstack : (st.withFlags flags).stack = st.stack := rfl
  rw [ifOp, hexec, hstack, testInstruction, hnot]
  cases active flags with
  | false => rfl
  | true =>
      rw [if_pos rfl, if_pos rfl]
      cases st.stack with
      | nil => rfl
      | cons x rest => by_cases h : a.opcode = OP_NOTIF <;> simp only [h] <;> rfl

/-- What the loop does once the checks before an instruction are passed. -/
theorem evalInstruction_withFlags (a : Instruction) (hverif : ¬ (a.opcode = OP_VERIF ∨ a.opcode = OP_VERNOTIF)) :
    (evalInstruction c I a.opcode a.data a.pc (st.withFlags flags)).1 =
      ((scriptMachine c I).act a st flags).map fun r => r.1.withFlags r.2 := by
  obtain ⟨opcode, data, pc⟩ := a
  have hexec : (st.withFlags flags).fExec = active flags := rfl
  cases hkind : opKind opcode with
  | plain =>
      have hk : (scriptMachine c I).kind ⟨opcode, data, pc⟩ = .plain := hkind
      have hskip : ¬ (OP_IF ≤ opcode ∧ opcode ≤ OP_ENDIF) := fun h => opKind_ne_plain h.1 h.2 hverif hkind
      simp only [Machine.act, hk]
      rw [evalInstruction, hexec]
      cases active flags with
      | false =>
          rw [if_neg fun h => Bool.false_ne_true h.1, if_neg fun h => h.elim Bool.false_ne_true hskip,
            if_neg Bool.false_ne_true]
          rfl
      | true =>
          rw [if_pos rfl]
          change _ = Except.map (fun r => r.1.withFlags r.2)
            (Except.map (fun s => (s, flags)) (execInstruction c I ⟨opcode, data, pc⟩ st))
          rw [execInstruction]
          dsimp only
          by_cases hpush : opcode ≤ OP_PUSHDATA4
          · rw [if_pos ⟨rfl, hpush⟩, if_pos hpush]
            split <;> rfl
          · rw [if_neg fun h => hpush h.2, if_pos (.inl rfl), if_neg hpush, evalOp_withFlags hkind]
            cases (evalOp c I opcode pc st).1 <;> rfl
  | cond =>
      have hk : (scriptMachine c I).kind ⟨opcode, data, pc⟩ = .cond := hkind
      simp only [Machine.act, hk]
      obtain rfl | rfl := opKind_cond hkind
      · rw [evalInstruction_between (by decide) (by decide)]
        exact ifOp_withFlags rfl
      · rw [evalInstruction_between (by decide) (by decide)]
        exact ifOp_withFlags rfl
  | els =>
      have hk : (scriptMachine c I).kind ⟨opcode, data, pc⟩ = .els := hkind
      simp only [Machine.act, hk]
      obtain rfl := opKind_els hkind
      rw [evalInstruction_between (by decide) (by decide)]
      cases flags <;> rfl
  | endif =>
      have hk : (scriptMachine c I).kind ⟨opcode, data, pc⟩ = .endif := hkind
      simp only [Machine.act, hk]
      obtain rfl := opKind_endif hkind
      rw [evalInstruction_between (by decide) (by decide)]
      cases flags <;> rfl

/-- A refused opcode ends the evaluation, executed or not. -/
theorem evalInstruction_refused {opcode : UInt8} (h : opcode = OP_VERIF ∨ opcode = OP_VERNOTIF) (data : Bytes)
    (pc : CScript) (st : EvalState) : evalInstruction c I opcode data pc st = (.error .badOpcode, 0) := by
  obtain rfl | rfl := h
  · rw [evalInstruction_between (by decide) (by decide)]
    rfl
  · rw [evalInstruction_between (by decide) (by decide)]
    rfl

/-- A round of the loop is a step of the machine. -/
theorem evalStep_withFlags (a : Instruction) :
    (evalStep c I a.opcode a.data a.pc (st.withFlags flags)).1 =
      ((scriptMachine c I).step a st flags).map fun r => r.1.withFlags r.2 := by
  have henter : (scriptMachine c I).enter a st = enterInstruction a st := rfl
  have hcount : ((st.countOp a.opcode).withFlags flags).nOpCount = (st.countOp a.opcode).nOpCount := rfl
  rw [evalStep, countOp_withFlags, hcount, Machine.step, henter, enterInstruction]
  split_ifs with hpush hops hdisabled hverif
  · rfl
  · rfl
  · rfl
  · rw [evalInstruction_refused hverif]
    rfl
  · have hinstr := @evalInstruction_withFlags c I (st.countOp a.opcode) flags a hverif
    rcases heval : evalInstruction c I a.opcode a.data a.pc ((st.countOp a.opcode).withFlags flags) with ⟨r, n⟩
    rw [heval] at hinstr
    simp only [bind, Except.bind]
    cases hact : (scriptMachine c I).act a (st.countOp a.opcode) flags with
    | error e =>
        rw [hact] at hinstr
        obtain rfl : r = .error e := hinstr
        rfl
    | ok s =>
        rw [hact] at hinstr
        obtain rfl : r = .ok (s.1.withFlags s.2) := hinstr
        have hleave : (scriptMachine c I).leave s.1 = checkStackSize s.1 := rfl
        have hsize : (s.1.withFlags s.2).stack.length + (s.1.withFlags s.2).altstack.length =
            s.1.stack.length + s.1.altstack.length := rfl
        dsimp only
        rw [hleave, checkStackSize, checkStackSize, hsize]
        split <;> rfl

/-! ## The loop -/

/-- A script that can be read runs as the machine does on its instructions. -/
theorem evalFrom_withFlags {rounds : Nat} {pc : CScript} {as : List Instruction} (h : instructionsFrom rounds pc = some as) :
    (evalFrom c I rounds pc (st.withFlags flags)).1 =
      ((scriptMachine c I).run as st flags).map fun r => r.1.withFlags r.2 := by
  induction rounds generalizing pc as st flags with
  | zero =>
      cases h
      rfl
  | succ rounds ih =>
      rw [instructionsFrom] at h
      rw [evalFrom]
      split at h
      · rename_i hempty
        cases h
        rw [if_pos hempty]
        rfl
      · rename_i hempty
        rw [if_neg hempty]
        rcases hop : pc.getOp with _ | ⟨opcode, data, pc'⟩
        · rw [hop] at h
          cases h
        · rw [hop] at h
          obtain ⟨as, has, rfl⟩ := Option.map_eq_some_iff.1 h
          have hstep := @evalStep_withFlags c I st flags ⟨opcode, data, pc'⟩
          rw [Machine.run]
          dsimp only at hstep ⊢
          rcases heval : evalStep c I opcode data pc' (st.withFlags flags) with ⟨r, n⟩
          rw [heval] at hstep
          cases hm : (scriptMachine c I).step ⟨opcode, data, pc'⟩ st flags with
          | error e =>
              rw [hm] at hstep
              obtain rfl : r = .error e := hstep
              rfl
          | ok s =>
              rw [hm] at hstep
              obtain rfl : r = .ok (s.1.withFlags s.2) := hstep
              exact ih has

/-- The evaluation of a script that cannot be read to its end fails. -/
theorem evalFrom_unread {rounds : Nat} {pc : CScript} (h : instructionsFrom rounds pc = none) (st st' : EvalState) :
    (evalFrom c I rounds pc st).1 ≠ .ok st' := by
  induction rounds generalizing pc st with
  | zero => cases h
  | succ rounds ih =>
      rw [instructionsFrom] at h
      rw [evalFrom]
      split at h
      · cases h
      · rename_i hempty
        rw [if_neg hempty]
        rcases hop : pc.getOp with _ | ⟨opcode, data, pc'⟩
        · exact fun hok => by cases hok
        · rw [hop] at h
          dsimp only
          rcases evalStep c I opcode data pc' st with ⟨e | st₁, n⟩
          · exact fun hok => by cases hok
          · exact ih (Option.map_eq_none_iff.1 h) st₁

/-! ## Scripts as structured programs -/

theorem checkStackSize_ok (h : checkStackSize st = .ok st') :
    st' = st ∧ st.stack.length + st.altstack.length ≤ 1000 := by
  rw [checkStackSize] at h
  split_ifs at h with hsize
  cases h
  exact ⟨rfl, Nat.not_lt.1 hsize⟩

/-- The state that an evaluation starts in. -/
def EvalState.start (stack : ScriptStack) (script : CScript) : EvalState where
  stack := stack
  pbegincodehash := script

/-- The structured programs that the instructions of a script make up. -/
abbrev ScriptProg : Type := Prog fun a : Instruction => opKind a.opcode

/-- The stack that a structured program leaves. -/
def ScriptProg.eval (c : ScriptCrypto) (I : Interpreter) (p : ScriptProg) (st : EvalState) : Except ScriptError ScriptStack :=
  ((scriptMachine c I).progRun true p st).map EvalState.stack

theorem evalScriptWith_ok_iff {stack stack' : ScriptStack} {script : CScript} :
    (evalScriptWith c I stack script).1 = .ok stack' ↔ script.length ≤ 10000 ∧
      ∃ st, (evalFrom c I script.length script (.start stack script)).1 = .ok st ∧ st.vfExec = [] ∧ st.stack = stack' := by
  have hstart : EvalState.start stack script = { stack := stack, pbegincodehash := script } := rfl
  rw [evalScriptWith, hstart]
  by_cases hlength : 10000 < script.length
  · rw [if_pos hlength]
    exact ⟨fun h => (by cases h), fun h => absurd h.1 (Nat.not_le.2 hlength)⟩
  rw [if_neg hlength]
  rcases evalFrom c I script.length script { stack := stack, pbegincodehash := script } with ⟨e | st, n⟩
  · refine ⟨fun h => (by cases h), ?_⟩
    rintro ⟨_, _, h, _⟩
    cases h
  · dsimp only
    split_ifs with hflags
    · refine ⟨fun h => (by cases h), ?_⟩
      rintro ⟨_, _, h, hempty, _⟩
      cases h
      exact absurd hempty hflags
    · constructor
      · intro h
        cases h
        exact ⟨Nat.not_lt.1 hlength, st, rfl, not_not.1 hflags, rfl⟩
      · rintro ⟨_, _, h, _, rfl⟩
        cases h
        rfl

/-- `EvalScript` accepts a script with a stack if and only if the script is a structured program written out that leaves
this stack. -/
theorem evalScript_structured (c : ScriptCrypto) (I : Interpreter) (stack stack' : ScriptStack) (script : CScript) :
    (evalScriptWith c I stack script).1 = .ok stack' ↔
      script.length ≤ 10000 ∧ ∃ p : ScriptProg, script.instructions = some p.items ∧
        p.eval c I (.start stack script) = .ok stack' := by
  rw [evalScriptWith_ok_iff]
  refine and_congr_right fun _ => ?_
  cases hread : script.instructions with
  | none =>
      constructor
      · rintro ⟨st, hok, _⟩
        exact absurd hok (evalFrom_unread hread _ st)
      · rintro ⟨p, hp, _⟩
        cases hp
  | some as =>
      have hrun := @evalFrom_withFlags c I (.start stack script) [] _ _ _ hread
      change (evalFrom c I script.length script (.start stack script)).1 = _ at hrun
      rw [hrun]
      constructor
      · rintro ⟨st, hok, hflags, rfl⟩
        obtain ⟨⟨st₁, flags⟩, hm, rfl⟩ := ok_of_map hok
        obtain rfl : flags = [] := hflags
        obtain ⟨p, rfl, hp⟩ := (Machine.run_eq_ok_iff as _ st₁).1 hm
        exact ⟨p, rfl, congrArg (Except.map EvalState.stack) hp⟩
      · rintro ⟨p, hp, heval⟩
        cases hp
        obtain ⟨st, hprog, rfl⟩ := ok_of_map heval
        have hm := (@Machine.run_eq_ok_iff _ _ _ (scriptMachine c I) p.items (.start stack script) st).2 ⟨p, rfl, hprog⟩
        rw [hm]
        exact ⟨st.withFlags [], rfl, rfl, rfl⟩

end ProCurrency

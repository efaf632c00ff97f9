import ProCurrency.Script.SigOps
import ProCurrency.Script.Solver

/-!
# Running a script

A script is read instruction by instruction, and what its instructions do one after another is a relation between the
places in the script and the states there. The loop follows it.
-/

namespace ProCurrency

open ByteCodec CScript

/-! ## Reading -/

/-- The instructions from one place of a script to another. -/
inductive Reads : List (UInt8 × Bytes) → CScript → CScript → Prop
  | nil (pc : CScript) : Reads [] pc pc
  | cons {opcode : UInt8} {data : Bytes} {instrs : List (UInt8 × Bytes)} {pc pc₁ pc' : CScript}
      (hop : getOp pc = some (opcode, data, pc₁)) (hrest : Reads instrs pc₁ pc') :
      Reads ((opcode, data) :: instrs) pc pc'

namespace Reads

variable {instrs instrs' : List (UInt8 × Bytes)} {pc pc₁ pc' : CScript}

theorem single {opcode : UInt8} {data : Bytes} (hop : getOp pc = some (opcode, data, pc')) :
    Reads [(opcode, data)] pc pc' := cons hop (nil pc')

theorem append (h : Reads instrs pc pc₁) (h' : Reads instrs' pc₁ pc') : Reads (instrs ++ instrs') pc pc' := by
  induction h with
  | nil => exact h'
  | cons hop _ ih => exact cons hop (ih h')

end Reads

theorem CScript.getOp_suffix {pc rest : CScript} {opcode : UInt8} {data : Bytes}
    (h : getOp pc = some (opcode, data, rest)) : rest <:+ pc := by
  rcases getOp_cases h with ⟨_, _, hpc⟩ | ⟨_, _, hpc⟩ | ⟨size, _, _, hpc⟩
  · exact ⟨[opcode], hpc.symm⟩
  · exact ⟨opcode :: data, hpc.symm⟩
  · refine ⟨opcode :: (leBytes size data.length ++ data), ?_⟩
    rw [hpc, List.cons_append, List.append_assoc]

/-- What is pushed is in the script, behind a header of five bytes at most. -/
theorem CScript.length_getOp_le {pc rest : CScript} {opcode : UInt8} {data : Bytes}
    (h : getOp pc = some (opcode, data, rest)) : pc.length ≤ 5 + data.length + rest.length := by
  rcases getOp_cases h with ⟨_, _, hpc⟩ | ⟨_, _, hpc⟩ | ⟨size, hsize, _, hpc⟩
  · rw [hpc, List.length_cons]
    omega
  · rw [hpc, List.length_cons, List.length_append]
    omega
  · have hle : size ≤ 4 := by
      unfold pushSize at hsize
      split at hsize <;> cases hsize <;> decide
    rw [hpc, List.length_cons, List.length_append, List.length_append, length_leBytes]
    omega

/-- The place before the end of what is read is not empty. -/
theorem CScript.getOp_ne_nil {pc rest : CScript} {opcode : UInt8} {data : Bytes}
    (h : getOp pc = some (opcode, data, rest)) : pc.isEmpty = false := by
  cases pc with
  | nil => cases h
  | cons _ _ => rfl

/-- An opcode that pushes nothing of the script is not above `OP_PUSHDATA4` when there is data. -/
theorem CScript.getOp_data {pc rest : CScript} {opcode : UInt8} {data : Bytes}
    (h : getOp pc = some (opcode, data, rest)) (hdata : data ≠ []) : opcode ≤ OP_PUSHDATA4 := by
  by_contra hhigh
  cases pc with
  | nil => cases h
  | cons op pc =>
      rcases getOp_cases h with ⟨_, hempty, _⟩ | ⟨hlow, _⟩ | ⟨size, hsize, _⟩
      · exact hdata hempty
      · exact hhigh (UInt8.le_of_lt (UInt8.lt_trans hlow (by decide)))
      · unfold pushSize at hsize
        split at hsize
        · exact hhigh (by decide)
        · exact hhigh (by decide)
        · exact hhigh (by decide)
        · cases hsize

/-! ## Deleting -/

/-- No instruction that is read is a push of what is deleted. -/
theorem CScript.findAndDelete_push {script : CScript} {instrs : List (UInt8 × Bytes)} {vchSig : Bytes}
    (hlength : vchSig.length < 2 ^ 32) (h : Reads instrs script []) (hsig : ∀ instr ∈ instrs, instr.2 ≠ vchSig) :
    script.findAndDelete (push vchSig) = script := by
  have hnil : push vchSig ≠ [] := by
    intro hnil
    obtain ⟨opcode, _, hop⟩ := getOp_push hlength []
    rw [hnil] at hop
    cases hop
  have hfrom : ∀ {instrs pc pc'}, Reads instrs pc pc' → pc' = [] → (∀ instr ∈ instrs, instr.2 ≠ vchSig) →
      ∀ rounds, pc.length < rounds → findAndDeleteFrom (push vchSig) rounds pc = pc := by
    intro instrs pc pc' h
    induction h with
    | nil pc =>
        rintro rfl _ rounds hrounds
        cases rounds with
        | zero => rfl
        | succ rounds => rfl
    | @cons opcode data instrs pc pc₁ pc' hop _ ih =>
        intro hend hdata rounds hrounds
        cases rounds with
        | zero => cases hrounds
        | succ rounds =>
            have hhere : deleteHere (push vchSig) pc.length pc = pc := by
              cases pc.length with
              | zero => rfl
              | succ n =>
                  rw [deleteHere, if_neg]
                  rintro ⟨rest, rfl⟩
                  obtain ⟨opcode', _, hop'⟩ := getOp_push hlength rest
                  rw [hop'] at hop
                  cases hop
                  exact hdata _ List.mem_cons_self rfl
            have hlt := length_getOp hop
            obtain ⟨front, hfront⟩ := getOp_suffix hop
            rw [findAndDeleteFrom, hhere, hop]
            dsimp only
            rw [ih hend (fun instr hmem => hdata instr (List.mem_cons_of_mem _ hmem)) rounds (by omega), ← hfront,
              List.length_append, Nat.add_sub_cancel, List.take_left]
  rw [findAndDelete, if_neg hnil]
  exact hfrom h rfl hsig _ (Nat.lt_succ_self _)

/-! ## Running -/

/-- What the instructions do, from one place of a script to another. -/
inductive Runs (c : ScriptCrypto) (I : Interpreter) : CScript → EvalState → CScript → EvalState → Prop
  | refl (pc : CScript) (st : EvalState) : Runs c I pc st pc st
  | step {opcode : UInt8} {data : Bytes} {pc pc₁ pc' : CScript} {st st₁ st' : EvalState}
      (hop : getOp pc = some (opcode, data, pc₁)) (hstep : (evalStep c I opcode data pc₁ st).1 = .ok st₁)
      (hrest : Runs c I pc₁ st₁ pc' st') : Runs c I pc st pc' st'

section Running

variable {c : ScriptCrypto} {I : Interpreter} {pc pc₁ pc' : CScript} {st st₁ st' : EvalState}

theorem evalFrom_step {opcode : UInt8} {data : Bytes} (hop : getOp pc = some (opcode, data, pc₁))
    (hstep : (evalStep c I opcode data pc₁ st).1 = .ok st₁) (rounds : Nat) :
    (evalFrom c I (rounds + 1) pc st).1 = (evalFrom c I rounds pc₁ st₁).1 := by
  rw [evalFrom, getOp_ne_nil hop, if_neg Bool.false_ne_true, hop]
  dsimp only
  rcases heq : evalStep c I opcode data pc₁ st with ⟨e | st'', n⟩
  · rw [heq] at hstep
    cases hstep
  · rw [heq] at hstep
    cases hstep
    rfl

theorem evalFrom_error {opcode : UInt8} {data : Bytes} {e : ScriptError} (hop : getOp pc = some (opcode, data, pc₁))
    (hstep : (evalStep c I opcode data pc₁ st).1 = .error e) (rounds : Nat) :
    (evalFrom c I (rounds + 1) pc st).1 = .error e := by
  rw [evalFrom, getOp_ne_nil hop, if_neg Bool.false_ne_true, hop]
  dsimp only
  rcases heq : evalStep c I opcode data pc₁ st with ⟨e' | st'', n⟩
  · rw [heq] at hstep
    cases hstep
    rfl
  · rw [heq] at hstep
    cases hstep

namespace Runs

theorem single {opcode : UInt8} {data : Bytes} (hop : getOp pc = some (opcode, data, pc'))
    (hstep : (evalStep c I opcode data pc' st).1 = .ok st') : Runs c I pc st pc' st' :=
  step hop hstep (refl pc' st')

theorem trans (h : Runs c I pc st pc₁ st₁) (h' : Runs c I pc₁ st₁ pc' st') : Runs c I pc st pc' st' := by
  induction h with
  | refl => exact h'
  | step hop hstep _ ih => exact step hop hstep (ih h')

/-- The loop goes on from where the instructions lead, with rounds that suffice for the rest. -/
theorem follows (h : Runs c I pc st pc' st') {rounds : Nat} (hrounds : pc.length ≤ rounds) :
    ∃ rounds', pc'.length ≤ rounds' ∧
      (evalFrom c I rounds pc st).1 = (evalFrom c I rounds' pc' st').1 := by
  induction h generalizing rounds with
  | refl => exact ⟨rounds, hrounds, rfl⟩
  | step hop hstep _ ih =>
      have hlt := length_getOp hop
      cases rounds with
      | zero => omega
      | succ rounds =>
          obtain ⟨rounds', hrounds', heq⟩ := @ih rounds (by omega)
          exact ⟨rounds', hrounds', (evalFrom_step hop hstep rounds).trans heq⟩

end Runs

/-- A script that is run to its end leaves its stack. -/
theorem evalScriptWith_of_runs {stack : ScriptStack} {script : CScript} (hlength : script.length ≤ 10000)
    (h : Runs c I script { stack := stack, pbegincodehash := script } [] st') (hvfExec : st'.vfExec = []) :
    (evalScriptWith c I stack script).1 = .ok st'.stack := by
  obtain ⟨rounds', _, heq⟩ := h.follows (Nat.le_refl _)
  have hend : (evalFrom c I rounds' [] st').1 = .ok st' := by cases rounds' <;> rfl
  rw [hend] at heq
  rw [evalScriptWith, if_neg (Nat.not_lt.2 hlength)]
  rcases hrun : evalFrom c I script.length script { stack := stack, pbegincodehash := script } with ⟨e | st'', n⟩
  · rw [hrun] at heq
    cases heq
  · rw [hrun] at heq
    cases heq
    dsimp only
    rw [if_neg (not_not.2 hvfExec)]

/-- A script that is run up to an instruction that fails. -/
theorem evalScriptWith_of_error {stack : ScriptStack} {script : CScript} {opcode : UInt8} {data : Bytes}
    {e : ScriptError} (hlength : script.length ≤ 10000)
    (h : Runs c I script { stack := stack, pbegincodehash := script } pc' st')
    (hop : getOp pc' = some (opcode, data, pc₁)) (hstep : (evalStep c I opcode data pc₁ st').1 = .error e) :
    (evalScriptWith c I stack script).1 = .error e := by
  obtain ⟨rounds', hrounds', heq⟩ := h.follows (Nat.le_refl _)
  have hlt := length_getOp hop
  obtain ⟨rounds', rfl⟩ := Nat.exists_eq_add_one_of_ne_zero (by omega : rounds' ≠ 0)
  rw [evalFrom_error hop hstep] at heq
  rw [evalScriptWith, if_neg (Nat.not_lt.2 hlength)]
  rcases hrun : evalFrom c I script.length script { stack := stack, pbegincodehash := script } with ⟨e' | st'', n⟩
  · rw [hrun] at heq
    cases heq
    rfl
  · rw [hrun] at heq
    cases heq

end Running

/-! ## Instructions -/

/-- The state of an evaluation without conditionals. -/
def stateAt (script : CScript) (nOpCount : Nat) (stack : ScriptStack) : EvalState where
  stack := stack
  nOpCount := nOpCount
  pbegincodehash := script

section Instructions

variable {c : ScriptCrypto} {I : Interpreter} {script pc pc' : CScript} {n : Nat} {stack stack' : ScriptStack}

theorem checkStackSize_stateAt (h : stack.length ≤ 1000) :
    checkStackSize (stateAt script n stack) = .ok (stateAt script n stack) := by
  rw [checkStackSize, if_neg]
  exact Nat.not_lt.2 h

/-- An instruction that passes the checks in front of the `switch`. -/
theorem evalStep_checked {opcode : UInt8} {data : Bytes} {st : EvalState}
    (hdata : data.length ≤ MAX_SCRIPT_ELEMENT_SIZE)
    (hlimit : ¬ (OP_16 < opcode ∧ 201 < (st.countOp opcode).nOpCount)) (hdisabled : isDisabledOpcode opcode = false) :
    (evalStep c I opcode data pc st).1 =
      (evalInstruction c I opcode data pc (st.countOp opcode)).1.bind checkStackSize := by
  rw [evalStep, if_neg (Nat.not_lt.2 hdata), if_neg hlimit, hdisabled, if_neg Bool.false_ne_true]
  rcases evalInstruction c I opcode data pc (st.countOp opcode) with ⟨e | st', calls⟩
  · rfl
  · rfl

/-- An instruction above `OP_16` is counted and executed. -/
theorem evalStep_stateAt {opcode : UInt8} (hopcode : OP_16 < opcode) (hdisabled : isDisabledOpcode opcode = false)
    (hn : n < 201) :
    (evalStep c I opcode [] pc (stateAt script n stack)).1 =
      (evalOp c I opcode pc (stateAt script (n + 1) stack)).1.bind checkStackSize := by
  have hhigh : ¬ opcode ≤ OP_PUSHDATA4 := fun hle => absurd (UInt8.lt_of_lt_of_le hopcode hle) (by decide)
  have hcount : (stateAt script n stack).countOp opcode = stateAt script (n + 1) stack := if_pos hopcode
  have hexec : (stateAt script (n + 1) stack).fExec := rfl
  rw [evalStep_checked (Nat.zero_le _) (by rw [hcount]; exact fun h => Nat.not_lt.2 hn h.2) hdisabled, hcount,
    evalInstruction, if_neg fun h => hhigh h.2, if_pos (Or.inl hexec)]

theorem isDisabledOpcode_of_le {opcode : UInt8} (h : opcode ≤ OP_16) : isDisabledOpcode opcode = false := by
  by_contra hdisabled
  rw [Bool.not_eq_false] at hdisabled
  have hmem := List.contains_iff_mem.1 hdisabled
  simp only [List.mem_cons, List.not_mem_nil, or_false] at hmem
  rcases hmem with rfl | rfl | rfl | rfl | rfl | rfl | rfl | rfl | rfl | rfl | rfl | rfl | rfl | rfl | rfl
  all_goals exact absurd h (by decide)

/-- An instruction up to `OP_16` that leaves a value more on the stack. -/
theorem evalStep_pushes {opcode : UInt8} {data vch : Bytes} (hopcode : opcode ≤ OP_16)
    (hdata : data.length ≤ MAX_SCRIPT_ELEMENT_SIZE)
    (hvch : (evalInstruction c I opcode data pc (stateAt script n stack)).1 = .ok (stateAt script n (vch :: stack)))
    (hstack : stack.length < 1000) :
    (evalStep c I opcode data pc (stateAt script n stack)).1 = .ok (stateAt script n (vch :: stack)) := by
  have hlow := UInt8.not_lt.2 hopcode
  have hcount : (stateAt script n stack).countOp opcode = stateAt script n stack := if_neg hlow
  rw [evalStep_checked hdata (fun h => hlow h.1) (isDisabledOpcode_of_le hopcode), hcount, hvch]
  exact checkStackSize_stateAt hstack

namespace Runs

theorem push (hpush : ∀ data opcode, I.pushOk data opcode) {opcode : UInt8} {data : Bytes}
    (hop : getOp pc = some (opcode, data, pc')) (hlow : opcode ≤ OP_PUSHDATA4)
    (hdata : data.length ≤ MAX_SCRIPT_ELEMENT_SIZE) (hstack : stack.length < 1000) :
    Runs c I pc (stateAt script n stack) pc' (stateAt script n (data :: stack)) := by
  have hexec : (stateAt script n stack).fExec := rfl
  refine single hop (evalStep_pushes (UInt8.le_trans hlow (by decide)) hdata ?_ hstack)
  rw [evalInstruction, if_pos ⟨hexec, hlow⟩, hpush]
  rfl

/-- The opcode that pushes a number from 1 to 16. -/
theorem number {m : Nat} (hpos : 1 ≤ m) (hmax : m ≤ 16) (hstack : stack.length < 1000) :
    Runs c I (encodeOpN m :: pc) (stateAt script n stack) pc (stateAt script n (I.num.getvch m :: stack)) := by
  have hspec : isSmallInteger (encodeOpN m) = true ∧ OP_PUSHDATA4 < encodeOpN m ∧ encodeOpN m ≤ OP_16 ∧
      ((encodeOpN m).toNat : Int) - (OP_1.toNat - 1) = m := by
    interval_cases m <;> decide
  obtain ⟨hsmall, hhigh, hlow, hnumber⟩ := hspec
  have hexec : (stateAt script n stack).fExec := rfl
  refine single (getOp_opcode hhigh pc) (evalStep_pushes hlow (Nat.zero_le _) ?_ hstack)
  rw [evalInstruction, if_neg fun h => absurd h.2 (UInt8.not_le.2 hhigh), if_pos (Or.inl hexec), evalOp,
    if_pos hsmall, hnumber]
  rfl

/-- An opcode above `OP_16` that does not check signatures. -/
theorem plain {opcode : UInt8} (hopcode : opcode ∈ [OP_DUP, OP_EQUAL, OP_EQUALVERIFY, OP_HASH160]) (hn : n < 201)
    (h : plainOp c I.num opcode pc (stateAt script (n + 1) stack) = .ok (stateAt script (n + 1) stack'))
    (hstack : stack'.length ≤ 1000) :
    Runs c I (opcode :: pc) (stateAt script n stack) pc (stateAt script (n + 1) stack') := by
  have hspec : ∀ opcode ∈ [OP_DUP, OP_EQUAL, OP_EQUALVERIFY, OP_HASH160],
      (OP_16 < opcode ∧ isDisabledOpcode opcode = false ∧ isSmallInteger opcode = false) ∧
        ¬ (OP_NOP1 ≤ opcode ∧ opcode ≤ OP_NOP10) ∧ ¬ (opcode = OP_CHECKSIG ∨ opcode = OP_CHECKSIGVERIFY) ∧
          ¬ (opcode = OP_CHECKMULTISIG ∨ opcode = OP_CHECKMULTISIGVERIFY) := by
    intro opcode hmem
    simp only [List.mem_cons, List.not_mem_nil, or_false] at hmem
    rcases hmem with rfl | rfl | rfl | rfl <;> decide
  obtain ⟨⟨hhigh, hdisabled, hsmall⟩, hnop, hsig, hmultisig⟩ := hspec opcode hopcode
  refine single (getOp_opcode (UInt8.lt_trans (by decide) hhigh) pc) ?_
  rw [evalStep_stateAt hhigh hdisabled hn, evalOp, hsmall, if_neg Bool.false_ne_true, if_neg hnop, if_neg hsig,
    if_neg hmultisig, h]
  exact checkStackSize_stateAt hstack

end Runs

end Instructions

end ProCurrency

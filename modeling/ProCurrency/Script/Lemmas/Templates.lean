import Mathlib.Data.List.Forall2
import ProCurrency.Script.Destinations
import ProCurrency.Script.Lemmas.Evaluate

/-!
# Evaluating the standard scripts

What each type of script leaves of a stack that spends it, for both interpreters.
-/

namespace ProCurrency

open ByteCodec CScript CBitcoinAddress

/-! ## Pushes -/

/-- The instructions from one place to another push these values. -/
inductive Pushes : List Bytes → CScript → CScript → Prop
  | nil (pc : CScript) : Pushes [] pc pc
  | cons {opcode : UInt8} {vch : Bytes} {vals : List Bytes} {pc pc₁ pc' : CScript}
      (hop : getOp pc = some (opcode, vch, pc₁)) (hlow : opcode ≤ OP_PUSHDATA4) (hrest : Pushes vals pc₁ pc') :
      Pushes (vch :: vals) pc pc'

namespace Pushes

variable {vals vals' : List Bytes} {pc pc₁ pc' : CScript}

theorem flatMap (rest : CScript) (hvals : ∀ vch ∈ vals, vch.length < 2 ^ 32) :
    Pushes vals (vals.flatMap CScript.push ++ rest) rest := by
  induction vals with
  | nil => exact nil rest
  | cons vch vals ih =>
      obtain ⟨opcode, hlow, hop⟩ := getOp_push (hvals vch List.mem_cons_self) (vals.flatMap CScript.push ++ rest)
      rw [List.flatMap_cons, List.append_assoc]
      exact cons hop hlow (ih fun vch hmem => hvals vch (List.mem_cons_of_mem _ hmem))

theorem reads (h : Pushes vals pc pc') : ∃ instrs, Reads instrs pc pc' ∧ ∀ instr ∈ instrs, instr.2 ∈ vals := by
  induction h with
  | nil pc => exact ⟨[], Reads.nil pc, List.forall_mem_nil _⟩
  | cons hop _ _ ih =>
      obtain ⟨instrs, hreads, hmem⟩ := ih
      exact ⟨_, Reads.cons hop hreads, List.forall_mem_cons.2
        ⟨List.mem_cons_self, fun instr hinstr => List.mem_cons_of_mem _ (hmem instr hinstr)⟩⟩

theorem length_le {k : Nat} (h : Pushes vals pc pc') (hvals : ∀ vch ∈ vals, vch.length ≤ k) :
    pc.length ≤ vals.length * (5 + k) + pc'.length := by
  induction h with
  | nil => exact Nat.le_add_left _ _
  | @cons _ vch vals _ pc₁ pc' hop _ _ ih =>
      have hvch := hvals vch List.mem_cons_self
      have hrest := ih fun vch hmem => hvals vch (List.mem_cons_of_mem _ hmem)
      have hle := length_getOp_le hop
      rw [List.length_cons, Nat.add_mul, Nat.one_mul]
      omega

theorem isPushOnly (h : Pushes vals pc []) : pc.isPushOnly := by
  have hfrom : ∀ {vals pc pc'}, Pushes vals pc pc' → pc' = [] → ∀ rounds, isPushOnlyFrom rounds pc := by
    intro vals pc pc' h
    induction h with
    | nil pc =>
        rintro rfl rounds
        cases rounds with
        | zero => rfl
        | succ rounds => rfl
    | cons hop hlow _ ih =>
        intro hend rounds
        cases rounds with
        | zero => rfl
        | succ rounds =>
            rw [isPushOnlyFrom, getOp_ne_nil hop, if_neg Bool.false_ne_true, hop]
            dsimp only
            rw [if_neg (UInt8.not_lt.2 (UInt8.le_trans hlow (by decide)))]
            exact ih hend rounds
  exact hfrom h rfl _

variable {c : ScriptCrypto} {I : Interpreter} {script : CScript} {n : Nat} {stack : ScriptStack}

theorem runs (hpush : ∀ data opcode, I.pushOk data opcode) (h : Pushes vals pc pc')
    (hvals : ∀ vch ∈ vals, vch.length ≤ MAX_SCRIPT_ELEMENT_SIZE) (hstack : vals.length + stack.length ≤ 1000) :
    Runs c I pc (stateAt script n stack) pc' (stateAt script n (vals.reverse ++ stack)) := by
  induction h generalizing stack with
  | nil => exact Runs.refl _ _
  | @cons _ vch vals _ _ _ hop hlow _ ih =>
      rw [List.length_cons] at hstack
      have hrest := @ih (vch :: stack) (fun vch hmem => hvals vch (List.mem_cons_of_mem _ hmem))
        (by rw [List.length_cons]; omega)
      rw [List.reverse_cons, List.append_assoc]
      exact (Runs.push hpush hop hlow (hvals vch List.mem_cons_self) (by omega)).trans hrest

/-- A script that pushes values leaves them on the stack. -/
theorem evalScriptWith (hpush : ∀ data opcode, I.pushOk data opcode) (h : Pushes vals script [])
    (hvals : ∀ vch ∈ vals, vch.length ≤ MAX_SCRIPT_ELEMENT_SIZE) (hcount : vals.length ≤ 1000)
    (hlength : script.length ≤ 10000) : (evalScriptWith c I [] script).1 = .ok vals.reverse := by
  have hruns : Runs c I script (stateAt script 0 []) [] (stateAt script 0 (vals.reverse ++ [])) :=
    h.runs hpush hvals hcount
  rw [List.append_nil] at hruns
  exact evalScriptWith_of_runs hlength hruns rfl

end Pushes

section Flat

variable {c : ScriptCrypto} {I : Interpreter} {vals : List Bytes}

/-- The script that pushes these values is evaluated to them. -/
theorem evalScriptWith_flatMap (hpush : ∀ data opcode, I.pushOk data opcode)
    (hsizes : ∀ vch ∈ vals, vch.length ≤ MAX_SCRIPT_ELEMENT_SIZE) (hlength : vals.length ≤ 18) :
    (evalScriptWith c I [] (vals.flatMap push)).1 = .ok vals.reverse ∧ CScript.isPushOnly (vals.flatMap push) := by
  have hmax : MAX_SCRIPT_ELEMENT_SIZE = 520 := rfl
  have hpushes : Pushes vals (vals.flatMap push) [] := by
    have hflat := @Pushes.flatMap vals [] fun vch hmem => by
      have hle := hsizes vch hmem
      omega
    rwa [List.append_nil] at hflat
  have hscript := hpushes.length_le hsizes
  have hmul : vals.length * (5 + MAX_SCRIPT_ELEMENT_SIZE) ≤ 18 * 525 := Nat.mul_le_mul_right 525 hlength
  rw [List.length_nil] at hscript
  exact ⟨hpushes.evalScriptWith hpush hsizes (by omega) (by omega), hpushes.isPushOnly⟩

theorem length_push_le (vch : Bytes) : vch.length ≤ (push vch).length := by
  rw [push]
  split_ifs
  · exact Nat.le_succ _
  all_goals
    rw [List.length_cons, List.length_append]
    omega

/-- A value that is too long is an error. -/
theorem evalScriptWith_flatMap_error (hpush : ∀ data opcode, I.pushOk data opcode)
    (hlong : ¬ ∀ vch ∈ vals, vch.length ≤ MAX_SCRIPT_ELEMENT_SIZE) (hlength : vals.length ≤ 1000) :
    ∃ e, (evalScriptWith c I [] (vals.flatMap push)).1 = .error e := by
  by_cases hsize : (vals.flatMap push).length ≤ 10000
  · cases hfind : vals.find? fun vch => decide (MAX_SCRIPT_ELEMENT_SIZE < vch.length) with
    | none =>
        refine absurd (fun vch hmem => ?_) hlong
        have hshort := List.find?_eq_none.1 hfind vch hmem
        rwa [decide_eq_true_eq, Nat.not_lt] at hshort
    | some vch =>
        obtain ⟨hvch, front, rest, rfl, hfront⟩ := List.find?_eq_some_iff_append.1 hfind
        have hshort : ∀ vch ∈ front, vch.length ≤ MAX_SCRIPT_ELEMENT_SIZE := fun vch hmem => by
          simpa using hfront vch hmem
        rw [List.flatMap_append, List.flatMap_cons] at hsize ⊢
        have hlengths := length_push_le vch
        rw [List.length_append, List.length_append] at hsize
        rw [List.length_append, List.length_cons] at hlength
        have hpushes := @Pushes.flatMap front (push vch ++ rest.flatMap push) fun vch hmem =>
          Nat.lt_of_le_of_lt (hshort vch hmem) (by decide)
        obtain ⟨opcode, _, hop⟩ := @getOp_push vch (by omega) (rest.flatMap push)
        have hruns := @Pushes.runs front _ _ c I (front.flatMap push ++ (push vch ++ rest.flatMap push)) 0 [] hpush
          hpushes hshort (by rw [List.length_nil]; omega)
        refine ⟨.pushSize, evalScriptWith_of_error ?_ hruns hop ?_⟩
        · rw [List.length_append, List.length_append]
          omega
        · rw [evalStep, if_pos (of_decide_eq_true hvch)]
  · exact ⟨.scriptSize, by rw [evalScriptWith, if_pos (Nat.lt_of_not_le hsize)]⟩

end Flat

/-! ## A signature and a key -/

section CheckSig

variable {c : ScriptCrypto} {I : Interpreter} {script pc : CScript} {n : Nat} {stack rest : ScriptStack}
  {vchSig vchPubKey : Bytes}

theorem checkSigOp_stateAt (fVerify : Bool) :
    checkSigOp I fVerify (stateAt script n (vchPubKey :: vchSig :: rest)) =
      match I.check vchSig vchPubKey (script.findAndDelete (push vchSig)) with
      | (.error e, calls) => (.error e, calls)
      | (.ok fSuccess, calls) =>
          (pushResult fVerify fSuccess .checkSigVerify (stateAt script n (vchPubKey :: vchSig :: rest)) rest, calls) := rfl

theorem evalStep_checkSig (hn : n < 201) (hstack : rest.length < 1000) :
    (evalStep c I OP_CHECKSIG [] pc (stateAt script n (vchPubKey :: vchSig :: rest))).1 =
      (I.check vchSig vchPubKey (script.findAndDelete (push vchSig))).1.map fun fSuccess =>
        stateAt script (n + 1) (boolVch fSuccess :: rest) := by
  have hop : (evalOp c I OP_CHECKSIG pc (stateAt script (n + 1) (vchPubKey :: vchSig :: rest))).1 =
      (I.check vchSig vchPubKey (script.findAndDelete (push vchSig))).1.map fun fSuccess =>
        stateAt script (n + 1) (boolVch fSuccess :: rest) := by
    change (checkSigOp I false (stateAt script (n + 1) (vchPubKey :: vchSig :: rest))).1 = _
    rw [checkSigOp_stateAt]
    rcases I.check vchSig vchPubKey (script.findAndDelete (push vchSig)) with ⟨e | fSuccess, calls⟩
    · rfl
    · rfl
  rw [evalStep_stateAt (by decide) (by decide) hn, hop]
  rcases (I.check vchSig vchPubKey (script.findAndDelete (push vchSig))).1 with e | fSuccess
  · rfl
  · exact checkStackSize_stateAt hstack

/-- A script that comes to its last instruction, and what that leaves. -/
theorem evalScriptWith_last {opcode : UInt8} {e : Except ScriptError ScriptStack} (hhigh : OP_PUSHDATA4 < opcode)
    (hlength : script.length ≤ 10000) {stack' : ScriptStack}
    (hruns : Runs c I script (stateAt script 0 stack) [opcode] (stateAt script n stack'))
    (hlast : (evalStep c I opcode [] [] (stateAt script n stack')).1 = e.map (stateAt script (n + 1))) :
    (evalScriptWith c I stack script).1 = e := by
  cases e with
  | error e => exact evalScriptWith_of_error hlength hruns (getOp_opcode hhigh []) hlast
  | ok stack'' => exact evalScriptWith_of_runs hlength (hruns.trans (Runs.single (getOp_opcode hhigh []) hlast)) rfl

theorem evalScript_pubKey (hpush : ∀ data opcode, I.pushOk data opcode) {opcode : UInt8}
    (hop : getOp script = some (opcode, vchPubKey, [OP_CHECKSIG])) (hsize : isPubKeySize vchPubKey)
    (hstack : rest.length < 900) :
    (evalScriptWith c I (vchSig :: rest) script).1 =
      (I.check vchSig vchPubKey (script.findAndDelete (push vchSig))).1.map fun fSuccess =>
        boolVch fSuccess :: rest := by
  simp only [isPubKeySize, Bool.and_eq_true, decide_eq_true_eq] at hsize
  have hlow := getOp_data hop (List.ne_nil_of_length_pos (by omega))
  have hlength := length_getOp_le hop
  have hone : ([OP_CHECKSIG] : CScript).length = 1 := rfl
  have hmax : MAX_SCRIPT_ELEMENT_SIZE = 520 := rfl
  refine evalScriptWith_last (by decide) (by omega)
    (Runs.push hpush hop hlow (by omega) (by rw [List.length_cons]; omega)) ?_
  rw [evalStep_checkSig (by decide) (by omega)]
  rcases (I.check vchSig vchPubKey (script.findAndDelete (push vchSig))).1 with e | fSuccess
  · rfl
  · rfl

theorem evalScript_pubKeyHash (hpush : ∀ data opcode, I.pushOk data opcode) {keyID : CKeyID}
    (hscript : script ∈ pubKeyHashScripts keyID) (hkey : c.hash160 vchPubKey = writeKeyID keyID)
    (hstack : rest.length < 900) :
    (evalScriptWith c I (vchPubKey :: vchSig :: rest) script).1 =
      (I.check vchSig vchPubKey (script.findAndDelete (push vchSig))).1.map fun fSuccess =>
        boolVch fSuccess :: rest := by
  obtain ⟨header, hheader, hshape⟩ := List.mem_map.1 hscript
  obtain ⟨opcode, hop⟩ := @getOp_hash _ [OP_EQUALVERIFY, OP_CHECKSIG] _ (length_writeKeyID keyID) hheader
  have hlow := getOp_data hop (List.ne_nil_of_length_pos (by rw [length_writeKeyID]; decide))
  have hpc := length_getOp_le hop
  have hlength : script.length ≤ 10000 := by
    have htwo : ([OP_EQUALVERIFY, OP_CHECKSIG] : CScript).length = 2 := rfl
    rw [length_writeKeyID] at hpc
    rw [← hshape, List.length_cons, List.length_cons]
    omega
  have hdup : Runs c I script (stateAt script 0 (vchPubKey :: vchSig :: rest))
      (OP_HASH160 :: (header ++ (writeKeyID keyID ++ [OP_EQUALVERIFY, OP_CHECKSIG])))
      (stateAt script 1 (vchPubKey :: vchPubKey :: vchSig :: rest)) := by
    conv =>
      arg 3
      rw [← hshape]
    refine Runs.plain (by decide) (by decide) rfl ?_
    simp only [List.length_cons]
    omega
  have hhash : Runs c I (OP_HASH160 :: (header ++ (writeKeyID keyID ++ [OP_EQUALVERIFY, OP_CHECKSIG])))
      (stateAt script 1 (vchPubKey :: vchPubKey :: vchSig :: rest))
      (header ++ (writeKeyID keyID ++ [OP_EQUALVERIFY, OP_CHECKSIG]))
      (stateAt script 2 (writeKeyID keyID :: vchPubKey :: vchSig :: rest)) := by
    refine Runs.plain (by decide) (by decide) ?_ ?_
    · rw [← hkey]
      rfl
    · simp only [List.length_cons]
      omega
  have hpushed := @Runs.push c I script _ _ 2 (writeKeyID keyID :: vchPubKey :: vchSig :: rest) hpush _ _ hop hlow
    (by rw [length_writeKeyID]; decide) (by simp only [List.length_cons]; omega)
  have hequal : Runs c I [OP_EQUALVERIFY, OP_CHECKSIG]
      (stateAt script 2 (writeKeyID keyID :: writeKeyID keyID :: vchPubKey :: vchSig :: rest)) [OP_CHECKSIG]
      (stateAt script 3 (vchPubKey :: vchSig :: rest)) := by
    refine Runs.plain (by decide) (by decide) (if_pos rfl) ?_
    simp only [List.length_cons]
    omega
  refine evalScriptWith_last (by decide) hlength (hdup.trans (hhash.trans (hpushed.trans hequal))) ?_
  rw [evalStep_checkSig (by decide) (by omega)]
  rcases (I.check vchSig vchPubKey (script.findAndDelete (push vchSig))).1 with e | fSuccess
  · rfl
  · rfl

/-- A script hash compares the script that it is given. -/
theorem evalScript_scriptHash (hpush : ∀ data opcode, I.pushOk data opcode) (scriptID : CKeyID) (subscript : Bytes)
    (hstack : rest.length < 900) :
    (evalScriptWith c I (subscript :: rest) (OP_HASH160 :: 20 :: (writeKeyID scriptID ++ [OP_EQUAL]))).1 =
      .ok (boolVch (c.hash160 subscript = writeKeyID scriptID) :: rest) := by
  have hlen := length_writeKeyID scriptID
  have hop : getOp (20 :: (writeKeyID scriptID ++ [OP_EQUAL])) = some (20, writeKeyID scriptID, [OP_EQUAL]) := by
    have hdirect := @getOp_direct (writeKeyID scriptID) (by rw [hlen]; decide) [OP_EQUAL]
    rw [hlen] at hdirect
    exact hdirect
  generalize hscript : OP_HASH160 :: 20 :: (writeKeyID scriptID ++ [OP_EQUAL]) = script
  have hlength : script.length ≤ 10000 := by
    rw [← hscript, List.length_cons, List.length_cons, List.length_append, hlen]
    decide
  have hhash : Runs c I script (stateAt script 0 (subscript :: rest)) (20 :: (writeKeyID scriptID ++ [OP_EQUAL]))
      (stateAt script 1 (c.hash160 subscript :: rest)) := by
    conv =>
      arg 3
      rw [← hscript]
    refine Runs.plain (by decide) (by decide) rfl ?_
    simp only [List.length_cons]
    omega
  have hpushed := @Runs.push c I script _ _ 1 (c.hash160 subscript :: rest) hpush _ _ hop (by decide)
    (by rw [hlen]; decide) (by simp only [List.length_cons]; omega)
  have hequal : Runs c I [OP_EQUAL] (stateAt script 1 (writeKeyID scriptID :: c.hash160 subscript :: rest)) []
      (stateAt script 2 (boolVch (c.hash160 subscript = writeKeyID scriptID) :: rest)) := by
    refine Runs.plain (by decide) (by decide) rfl ?_
    simp only [List.length_cons]
    omega
  exact evalScriptWith_of_runs hlength (hhash.trans (hpushed.trans hequal)) rfl

end CheckSig

/-! ## Multisig -/

/-- A script with the number of signatures, the keys and their number. -/
structure IsMultisig (script : CScript) (m : Nat) (keys : List Bytes) : Prop where
  pos : 1 ≤ m
  le : m ≤ keys.length
  max : keys.length ≤ 16
  sizes : ∀ key ∈ keys, isPubKeySize key
  shape : ∃ pc, script = encodeOpN m :: pc ∧ Pushes keys pc [encodeOpN keys.length, OP_CHECKMULTISIG]

section Shape

variable {script pc pc₁ rest : CScript} {vSolutions vSolutions' : List Bytes} {rounds : Nat}

/-- The keys that are taken were pushed, and behind them stands the number. -/
theorem takePubKeys_pushes {opcode1 opN : UInt8} {vch1 vchN : Bytes} (hop : getOp pc = some (opcode1, vch1, pc₁))
    (htake : takePubKeys vSolutions opcode1 vch1 rounds pc₁ = (vSolutions', opN, vchN, rest))
    (hN : isSmallIntegerOp opN) :
    ∃ keys pcN, vSolutions' = vSolutions ++ keys ∧ Pushes keys pc pcN ∧ getOp pcN = some (opN, vchN, rest) ∧
      ∀ key ∈ keys, isPubKeySize key := by
  induction rounds generalizing vSolutions opcode1 vch1 pc pc₁ with
  | zero =>
      cases htake
      exact ⟨[], pc, (List.append_nil _).symm, Pushes.nil pc, hop, List.forall_mem_nil _⟩
  | succ rounds ih =>
      rw [takePubKeys] at htake
      split_ifs at htake with hsize
      · cases hnext : getOp pc₁ with
        | none =>
            rw [hnext] at htake
            cases htake
            cases hN
        | some op =>
            obtain ⟨opcode, vch, pc₂⟩ := op
            rw [hnext] at htake
            obtain ⟨keys, pcN, hkeys, hpushes, hopN, hsizes⟩ := ih hnext htake
            have hne : vch1 ≠ [] := by
              rintro rfl
              cases hsize
            refine ⟨vch1 :: keys, pcN, ?_, Pushes.cons hop (getOp_data hop hne) hpushes, hopN,
              List.forall_mem_cons.2 ⟨hsize, hsizes⟩⟩
            rw [hkeys, List.append_assoc]
            rfl
      · cases htake
        exact ⟨[], pc, (List.append_nil _).symm, Pushes.nil pc, hop, List.forall_mem_nil _⟩

/-- A small integer other than zero is one opcode. -/
theorem getOp_smallInteger {opcode : UInt8} {vch : Bytes} (hop : getOp pc = some (opcode, vch, rest))
    (hsmall : isSmallIntegerOp opcode) (hpos : ¬ UInt8.ofNat (decodeOpN opcode) < 1) :
    ∃ m, 1 ≤ m ∧ m ≤ 16 ∧ opcode = encodeOpN m ∧ pc = encodeOpN m :: rest ∧ smallInteger opcode = [UInt8.ofNat m] := by
  have hne : opcode ≠ OP_0 := by
    rintro rfl
    exact hpos (by decide)
  simp only [isSmallIntegerOp, Bool.or_eq_true, Bool.and_eq_true, decide_eq_true_eq] at hsmall
  obtain ⟨hlow, hhigh⟩ := hsmall.resolve_left hne
  obtain ⟨hone, hsixteen⟩ := decodeOpN_bounds hlow hhigh
  have hencode : opcode = encodeOpN (decodeOpN opcode) := by
    rw [encodeOpN, if_neg (by omega)]
    have hle : OP_1.toNat ≤ opcode.toNat := UInt8.le_iff_toNat_le.1 hlow
    have honeN : OP_1.toNat = 81 := rfl
    rw [decodeOpN, honeN, show 81 + (opcode.toNat - (81 - 1)) - 1 = opcode.toNat by omega, UInt8.ofNat_toNat]
  refine ⟨decodeOpN opcode, hone, hsixteen, hencode, ?_, rfl⟩
  rw [← hencode]
  rcases getOp_cases hop with ⟨_, _, hpc⟩ | ⟨hdirect, _⟩ | ⟨size, hsize, _⟩
  · exact hpc
  · exact absurd (UInt8.lt_of_le_of_lt hlow hdirect) (by decide)
  · unfold pushSize at hsize
    split at hsize
    · exact absurd hlow (by decide)
    · exact absurd hlow (by decide)
    · exact absurd hlow (by decide)
    · cases hsize

theorem of_solver_pubKey (h : solver script = some (true, .pubKey, vSolutions)) :
    ∃ opcode vch, getOp script = some (opcode, vch, [OP_CHECKSIG]) ∧ isPubKeySize vch ∧ vSolutions = [vch] := by
  rw [solver] at h
  split_ifs at h
  · cases h
  · obtain ⟨script2, hmem, hmatch⟩ := scanTemplates_found h
    simp only [mTemplates, List.mem_cons, Prod.mk.injEq, reduceCtorEq, false_and, true_and, or_false,
      List.not_mem_nil] at hmem
    rw [hmem] at hmatch
    obtain ⟨opcode, vch, hop, hsize, rfl⟩ := matchTemplate_pubKey.1 hmatch
    exact ⟨opcode, vch, hop, hsize, rfl⟩

theorem scanTemplates_checked {templates : List (TxnOutType × CScript)}
    (h : scanTemplates script templates = some (true, .multisig, vSolutions)) :
    checkMultisig vSolutions = some true := by
  induction templates with
  | nil => cases h
  | cons tplate templates ih =>
      obtain ⟨typeRet, script2⟩ := tplate
      rw [scanTemplates] at h
      cases hmatch : matchTemplate script script2 with
      | none =>
          rw [hmatch] at h
          exact ih h
      | some vSolutions' =>
          rw [hmatch] at h
          dsimp only at h
          split_ifs at h with hmultisig
          · obtain ⟨fRet, hfRet, hcheck⟩ := Option.map_eq_some_iff.1 h
            cases hcheck
            exact hfRet
          · cases h
            exact absurd rfl hmultisig

theorem of_solver_multisig (h : solver script = some (true, .multisig, vSolutions)) :
    ∃ m keys, IsMultisig script m keys ∧ vSolutions = [UInt8.ofNat m] :: (keys ++ [[UInt8.ofNat keys.length]]) := by
  rw [solver] at h
  split_ifs at h
  · cases h
  · have hcheck := scanTemplates_checked h
    obtain ⟨script2, hmem, hmatch⟩ := scanTemplates_found h
    simp only [mTemplates, List.mem_cons, Prod.mk.injEq, reduceCtorEq, false_and, true_and, false_or, or_false,
      List.not_mem_nil] at hmem
    rw [hmem] at hmatch
    obtain ⟨opM, vchM, pc, opcode, vch, next, vSolutions', opN, vchN, hopM, hM, hop, htake, hN, rfl⟩ :=
      matchTemplate_multisig.1 hmatch
    obtain ⟨keys, pcN, rfl, hpushes, hopN, hsizes⟩ := takePubKeys_pushes hop htake hN
    rw [List.append_assoc, List.singleton_append, smallInteger, smallInteger, checkMultisig_eq, Option.some.injEq,
      Bool.not_eq_true', Bool.or_eq_false_iff, Bool.or_eq_false_iff, Bool.or_eq_false_iff, decide_eq_false_iff_not,
      decide_eq_false_iff_not, decide_eq_false_iff_not, decide_eq_false_iff_not] at hcheck
    obtain ⟨⟨⟨hm1, hn1⟩, hnm⟩, hcount⟩ := hcheck
    obtain ⟨m, hmpos, hmmax, rfl, hscript, hmsmall⟩ := getOp_smallInteger hopM hM hm1
    obtain ⟨n, hnpos, hnmax, rfl, hpcN, hnsmall⟩ := getOp_smallInteger hopN hN hn1
    rw [smallInteger, List.cons.injEq] at hmsmall hnsmall
    have hmNat : (UInt8.ofNat m).toNat = m := UInt8.toNat_ofNat_of_lt' (Nat.lt_of_le_of_lt hmmax (by decide))
    have hnNat : (UInt8.ofNat n).toNat = n := UInt8.toNat_ofNat_of_lt' (Nat.lt_of_le_of_lt hnmax (by decide))
    rw [hmsmall.1, hnsmall.1, UInt8.lt_iff_toNat_lt, hmNat, hnNat, Nat.not_lt] at hnm
    rw [hnsmall.1, hnNat, not_not] at hcount
    subst hcount
    refine ⟨m, keys, ⟨hmpos, hnm, hnmax, hsizes, pc, hscript, hpcN ▸ hpushes⟩, ?_⟩
    rw [smallInteger, smallInteger, hmsmall.1, hnsmall.1]
    rfl

end Shape

namespace IsMultisig

variable {c : ScriptCrypto} {I : Interpreter} {script : CScript} {m n : Nat} {keys sigs rest : List Bytes}

theorem length_key_le (h : IsMultisig script m keys) {key : Bytes} (hmem : key ∈ keys) : key.length ≤ 120 := by
  have hsize := h.sizes key hmem
  simp only [isPubKeySize, Bool.and_eq_true, decide_eq_true_eq] at hsize
  exact hsize.2

theorem length_le (h : IsMultisig script m keys) : script.length ≤ 10000 := by
  obtain ⟨pc, rfl, hpushes⟩ := h.shape
  have hle := hpushes.length_le (k := 120) fun key hmem => h.length_key_le hmem
  have hmul : keys.length * (5 + 120) ≤ 16 * 125 := Nat.mul_le_mul_right 125 h.max
  have htwo : ([encodeOpN keys.length, OP_CHECKMULTISIG] : CScript).length = 2 := rfl
  rw [List.length_cons]
  omega

/-- No instruction has other data than a key. -/
theorem reads (h : IsMultisig script m keys) :
    ∃ instrs, Reads instrs script [] ∧ ∀ instr ∈ instrs, instr.2 = [] ∨ instr.2 ∈ keys := by
  obtain ⟨pc, rfl, hpushes⟩ := h.shape
  obtain ⟨instrs, hreads, hmem⟩ := hpushes.reads
  have hm := @encodeOpN_spec m h.pos (h.le.trans h.max)
  have hn := @encodeOpN_spec keys.length (h.pos.trans h.le) h.max
  refine ⟨(encodeOpN m, []) :: (instrs ++ [(encodeOpN keys.length, []), (OP_CHECKMULTISIG, [])]),
    Reads.cons (getOp_opcode hm.2.1 pc) (hreads.append (Reads.cons (getOp_opcode hn.2.1 _) (Reads.single
      (getOp_opcode (by decide) [])))), ?_⟩
  intro instr hinstr
  rcases List.mem_cons.1 hinstr with rfl | hinstr
  · exact Or.inl rfl
  · rcases List.mem_append.1 hinstr with hinstr | hinstr
    · exact Or.inr (hmem instr hinstr)
    · simp only [List.mem_cons, List.not_mem_nil, or_false] at hinstr
      rcases hinstr with rfl | rfl
      · exact Or.inl rfl
      · exact Or.inl rfl

/-- Signatures that are no keys are not in the script. -/
theorem foldl_findAndDelete (h : IsMultisig script m keys)
    (hsigs : ∀ sig ∈ sigs, sig.length < 2 ^ 32 ∧ sig ≠ [] ∧ sig ∉ keys) :
    sigs.foldl (fun scriptCode vchSig => scriptCode.findAndDelete (push vchSig)) script = script := by
  obtain ⟨instrs, hreads, hdata⟩ := h.reads
  induction sigs with
  | nil => rfl
  | cons sig sigs ih =>
      obtain ⟨hlength, hne, hkeys⟩ := hsigs sig List.mem_cons_self
      have hdelete : script.findAndDelete (push sig) = script :=
        findAndDelete_push hlength hreads fun instr hinstr heq => by
          rcases hdata instr hinstr with hnil | hmem
          · exact hne (heq.symm.trans hnil)
          · exact hkeys (heq ▸ hmem)
      rw [List.foldl_cons, hdelete]
      exact ih fun sig hmem => hsigs sig (List.mem_cons_of_mem _ hmem)

theorem runs (h : IsMultisig script m keys) (hpush : ∀ data opcode, I.pushOk data opcode) {stack : ScriptStack}
    (hstack : stack.length ≤ 900) :
    Runs c I script (stateAt script 0 stack) [OP_CHECKMULTISIG]
      (stateAt script 0 (I.num.getvch keys.length :: (keys.reverse ++ I.num.getvch m :: stack))) := by
  obtain ⟨pc, hscript, hpushes⟩ := h.shape
  have hmax := h.max
  have hm : Runs c I script (stateAt script 0 stack) pc (stateAt script 0 (I.num.getvch m :: stack)) := by
    conv =>
      arg 3
      rw [hscript]
    exact Runs.number h.pos (h.le.trans h.max) (by omega)
  have hkeys : Runs c I pc (stateAt script 0 (I.num.getvch m :: stack)) [encodeOpN keys.length, OP_CHECKMULTISIG]
      (stateAt script 0 (keys.reverse ++ I.num.getvch m :: stack)) :=
    hpushes.runs hpush (fun key hmem => (h.length_key_le hmem).trans (by decide)) (by
      rw [List.length_cons]
      omega)
  refine hm.trans (hkeys.trans (Runs.number (h.pos.trans h.le) h.max ?_))
  rw [List.length_append, List.length_reverse, List.length_cons]
  omega

theorem checkMultisigOp (h : IsMultisig script m keys) (hcounted : I.Counted) (hsigs : sigs.length = m) :
    (ProCurrency.checkMultisigOp I false
      (stateAt script 1 (I.num.getvch keys.length :: (keys.reverse ++ I.num.getvch m :: (sigs ++ [] :: rest))))).1 =
      (checkMultisigLoop I (sigs.foldl (fun scriptCode vchSig => scriptCode.findAndDelete (push vchSig)) script)
        keys.reverse sigs).1.map fun fSuccess => stateAt script (1 + keys.length) (boolVch fSuccess :: rest) := by
  have hmax := h.max
  have hpos := h.pos
  have hle := h.le
  obtain ⟨hcastN, hintN⟩ := hcounted.number keys.length (h.pos.trans h.le) h.max
  obtain ⟨hcastM, hintM⟩ := hcounted.number m h.pos (h.le.trans h.max)
  have hlen : keys.reverse.length = keys.length := List.length_reverse
  rw [ProCurrency.checkMultisigOp]
  dsimp only [stateAt]
  rw [castNumber, hcastN]
  dsimp only
  rw [hintN, Int.toNat_natCast, if_neg (by omega), if_neg (by
    show ¬ 201 < 1 + keys.length
    omega), ← hlen, List.drop_left, List.take_left]
  dsimp only
  rw [castNumber, hcastM]
  dsimp only
  rw [hintM, Int.toNat_natCast, if_neg (by omega), if_neg (by
    rw [List.length_append, List.length_cons]
    omega), ← hsigs, List.take_left, List.drop_left, checkMultisigArgs]
  dsimp only
  rcases checkMultisigLoop I (sigs.foldl (fun scriptCode vchSig => scriptCode.findAndDelete (push vchSig)) script)
    keys.reverse sigs with ⟨e | fSuccess, calls⟩
  · rfl
  · dsimp only
    rw [List.length_nil, if_neg (by simp)]
    rfl

/-- The keys and the signatures are compared from their ends. -/
theorem evalScript (h : IsMultisig script m keys) (hpush : ∀ data opcode, I.pushOk data opcode) (hcounted : I.Counted)
    (hsigs : sigs.length = m) (hrest : rest.length < 800) :
    (evalScriptWith c I (sigs ++ [] :: rest) script).1 =
      (checkMultisigLoop I (sigs.foldl (fun scriptCode vchSig => scriptCode.findAndDelete (push vchSig)) script)
        keys.reverse sigs).1.map fun fSuccess => boolVch fSuccess :: rest := by
  have hmax := h.max
  have hle := h.le
  have hstack : (sigs ++ [] :: rest).length ≤ 900 := by
    rw [List.length_append, List.length_cons]
    omega
  have hlast : (evalStep c I OP_CHECKMULTISIG [] [] (stateAt script 0
      (I.num.getvch keys.length :: (keys.reverse ++ I.num.getvch m :: (sigs ++ [] :: rest))))).1 =
      (checkMultisigLoop I (sigs.foldl (fun scriptCode vchSig => scriptCode.findAndDelete (push vchSig)) script)
        keys.reverse sigs).1.map fun fSuccess => stateAt script (1 + keys.length) (boolVch fSuccess :: rest) := by
    rw [evalStep_stateAt (by decide) (by decide) (by decide)]
    change (ProCurrency.checkMultisigOp I false (stateAt script 1
      (I.num.getvch keys.length :: (keys.reverse ++ I.num.getvch m :: (sigs ++ [] :: rest))))).1.bind _ = _
    rw [h.checkMultisigOp hcounted hsigs]
    rcases (checkMultisigLoop I (sigs.foldl (fun scriptCode vchSig => scriptCode.findAndDelete (push vchSig)) script)
      keys.reverse sigs).1 with e | fSuccess
    · rfl
    · refine checkStackSize_stateAt ?_
      rw [List.length_cons]
      omega
  rcases hloop : (checkMultisigLoop I (sigs.foldl (fun scriptCode vchSig =>
    scriptCode.findAndDelete (push vchSig)) script) keys.reverse sigs).1 with e | fSuccess
  · rw [hloop] at hlast
    exact evalScriptWith_of_error h.length_le (h.runs hpush hstack) (getOp_opcode (by decide) []) hlast
  · rw [hloop] at hlast
    exact evalScriptWith_of_runs h.length_le
      ((h.runs hpush hstack).trans (Runs.single (getOp_opcode (by decide) []) hlast)) rfl

end IsMultisig

/-! ## The loop over the keys -/

section Loop

variable {I : Interpreter} {scriptCode : CScript} {keys sigs : List Bytes}

section Order

variable {α β : Type} {R S : α → β → Prop} {as : List α} {bs : List β}

theorem sublistForall₂_of_mem (h : List.SublistForall₂ R as bs) (hRS : ∀ a ∈ as, ∀ b ∈ bs, R a b → S a b) :
    List.SublistForall₂ S as bs := by
  induction h with
  | nil => exact List.SublistForall₂.nil
  | cons hab _ ih =>
      exact List.SublistForall₂.cons (hRS _ List.mem_cons_self _ List.mem_cons_self hab)
        (ih fun a ha b hb => hRS a (List.mem_cons_of_mem _ ha) b (List.mem_cons_of_mem _ hb))
  | cons_right _ ih =>
      exact List.SublistForall₂.cons_right (ih fun a ha b hb => hRS a ha b (List.mem_cons_of_mem _ hb))

theorem sublistForall₂_reverse (h : List.SublistForall₂ R as bs) : List.SublistForall₂ R as.reverse bs.reverse := by
  obtain ⟨bs', hforall, hsub⟩ := List.sublistForall₂_iff.1 h
  exact List.sublistForall₂_iff.2 ⟨bs'.reverse, List.forall₂_reverse_iff.2 hforall, List.reverse_sublist.2 hsub⟩

end Order

/-- The signatures are good for keys in the same order. -/
def Matches (I : Interpreter) (scriptCode : CScript) (sigs keys : List Bytes) : Prop :=
  List.SublistForall₂ (fun vchSig vchPubKey => (I.check vchSig vchPubKey scriptCode).1 = .ok true) sigs keys

theorem Matches.of_forall₂ {keys' : List Bytes}
    (h : List.Forall₂ (fun vchSig vchPubKey => (I.check vchSig vchPubKey scriptCode).1 = .ok true) sigs keys')
    (hsub : keys'.Sublist keys) : Matches I scriptCode sigs keys := List.sublistForall₂_iff.2 ⟨keys', h, hsub⟩

theorem Matches.reverse (h : Matches I scriptCode sigs keys) : Matches I scriptCode sigs.reverse keys.reverse :=
  sublistForall₂_reverse h

theorem Matches.tail {vchSig : Bytes} (h : Matches I scriptCode (vchSig :: sigs) keys) :
    Matches I scriptCode sigs keys := by
  obtain ⟨keys', hforall, hsub⟩ := List.sublistForall₂_iff.1 h
  cases hforall with
  | cons _ hrest => exact of_forall₂ hrest ((List.sublist_cons_self _ _).trans hsub)

theorem Matches.length_le (h : Matches I scriptCode sigs keys) : sigs.length ≤ keys.length := by
  obtain ⟨keys', hforall, hsub⟩ := List.sublistForall₂_iff.1 h
  exact hforall.length_eq ▸ hsub.length_le

theorem checkMultisigLoop_cons {sig key : Bytes} {fOk : Bool} (hok : (I.check sig key scriptCode).1 = .ok fOk) :
    (checkMultisigLoop I scriptCode (key :: keys) (sig :: sigs)).1 =
      if keys.length < (if fOk then sigs else sig :: sigs).length then .ok false
      else (checkMultisigLoop I scriptCode keys (if fOk then sigs else sig :: sigs)).1 := by
  rw [checkMultisigLoop]
  rcases hr : I.check sig key scriptCode with ⟨r, calls⟩
  rw [hr] at hok
  cases hok
  dsimp only
  generalize (if fOk then sigs else sig :: sigs) = left
  split_ifs
  · rfl
  · rfl

/-- Where no check is an error, the loop succeeds for signatures in the order of their keys, and for no others. -/
theorem checkMultisigLoop_iff
    (hcheck : ∀ sig ∈ sigs, ∀ key ∈ keys, ∃ fOk, (I.check sig key scriptCode).1 = .ok fOk) :
    (checkMultisigLoop I scriptCode keys sigs).1 = .ok true ↔ Matches I scriptCode sigs keys := by
  induction keys generalizing sigs with
  | nil =>
      cases sigs with
      | nil => exact ⟨fun _ => List.SublistForall₂.nil, fun _ => rfl⟩
      | cons sig sigs => exact ⟨fun h => (nomatch h), fun h => (nomatch h)⟩
  | cons key keys ih =>
      cases sigs with
      | nil => exact ⟨fun _ => List.SublistForall₂.nil, fun _ => rfl⟩
      | cons sig sigs =>
          have hleft : ∀ left, (∀ sig' ∈ left, sig' ∈ sig :: sigs) →
              ((if keys.length < left.length then (.ok false : Except ScriptError Bool)
                else (checkMultisigLoop I scriptCode keys left).1) = .ok true ↔ Matches I scriptCode left keys) := by
            intro left hmem
            have hih := @ih left fun sig' hsig' key' hkey' =>
              hcheck sig' (hmem sig' hsig') key' (List.mem_cons_of_mem _ hkey')
            split_ifs with hfew
            · exact ⟨fun h => (nomatch h), fun h => absurd h.length_le (Nat.not_le.2 hfew)⟩
            · exact hih
          obtain ⟨fOk, hok⟩ := hcheck sig List.mem_cons_self key List.mem_cons_self
          rw [checkMultisigLoop_cons hok]
          cases fOk with
          | true =>
              rw [if_pos rfl, hleft sigs fun sig' hsig' => List.mem_cons_of_mem _ hsig']
              refine ⟨fun h => List.SublistForall₂.cons hok h, fun h => ?_⟩
              cases h with
              | cons _ h => exact h
              | cons_right h => exact Matches.tail h
          | false =>
              rw [if_neg Bool.false_ne_true, hleft (sig :: sigs) fun sig' hsig' => hsig']
              refine ⟨fun h => List.SublistForall₂.cons_right h, fun h => ?_⟩
              cases h with
              | cons hgood _ =>
                  rw [hok] at hgood
                  cases hgood
              | cons_right h => exact h

end Loop

end ProCurrency

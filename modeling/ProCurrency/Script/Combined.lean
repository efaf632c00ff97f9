import ProCurrency.Lib.GreedyMatching
import ProCurrency.Script.Lemmas.Solves

/-!
# Combining signatures

`CombineSignatures` (script.cpp), with `CombineMultisig`. The values that a script has pushed are listed from the
bottom of the stack. A result is `none` where the code reads outside of a vector or an assertion fails.
-/

namespace ProCurrency

open ByteCodec CBitcoinAddress

def SCRIPT_VERIFY_NONE : ScriptFlags := 0

def pushAll (values : List Bytes) : CScript := values.flatMap CScript.push

/-- The signatures of both sides, as `set<valtype>` has them: in the order of their bytes. -/
def allSigs (sigs1 sigs2 : List Bytes) : List Bytes :=
  (Std.ExtTreeSet.ofList ((sigs1 ++ sigs2).filter fun v => !v.isEmpty) (compare : Bytes → Bytes → Ordering)).toList

section Combine

variable {c : ScriptCrypto} (cache : CSignatureCache c) (txTo : CTransaction) (nIn : Nat)

/-- `CheckSig`, as `CombineMultisig` calls it. -/
def matchesKey (scriptPubKey : CScript) (sig pubkey : Bytes) : Bool :=
  checkSig cache sig pubkey scriptPubKey txTo nIn 0

/-- The loop that puts the signatures into the order of the keys: `nSigsHave` and `result`. -/
def mergeFrom (sigs : Bytes → Option Bytes) (nSigsRequired : Nat) : List Bytes → Nat → CScript → Nat × CScript
  | [], nSigsHave, result => (nSigsHave, result)
  | pubkey :: pubkeys, nSigsHave, result =>
      if nSigsRequired ≤ nSigsHave then (nSigsHave, result)
      else
        match sigs pubkey with
        | none => mergeFrom sigs nSigsRequired pubkeys nSigsHave result
        | some sig => mergeFrom sigs nSigsRequired pubkeys (nSigsHave + 1) (result ++ CScript.push sig)

/-- `CombineMultisig`. Each signature goes to the first key that it matches and that has none. -/
def combineMultisig (scriptPubKey : CScript) (vSolutions sigs1 sigs2 : List Bytes) : Option CScript :=
  if vSolutions.length ≤ 1 then none
  else do
    let nSigsRequired := (← (← vSolutions.head?).head?).toNat
    let pubkeys := (vSolutions.drop 1).take (vSolutions.length - 2)
    let sigs := GreedyMatching.assign (matchesKey cache txTo nIn scriptPubKey) pubkeys (allSigs sigs1 sigs2)
    let (nSigsHave, result) := mergeFrom sigs nSigsRequired pubkeys 0 [OP_0]
    return result ++ List.replicate (nSigsRequired - nSigsHave) OP_0

/-- `CombineSignatures` for solutions. Each call pops a value of both sides, so that their number bounds the calls. -/
def combineFrom : Nat → CScript → TxnOutType → List Bytes → List Bytes → List Bytes → Option CScript
  | calls, scriptPubKey, txType, vSolutions, sigs1, sigs2 =>
      match txType with
      | .nonstandard | .nullData => some (if sigs2.length ≤ sigs1.length then pushAll sigs1 else pushAll sigs2)
      | .pubKey | .pubKeyHash =>
          match sigs1 with
          | [] | [] :: _ => some (pushAll sigs2)
          | _ => some (pushAll sigs1)
      | .scriptHash =>
          match sigs1.getLast?, sigs2.getLast? with
          | none, _ | some [], _ => some (pushAll sigs2)
          | _, none | _, some [] => some (pushAll sigs1)
          | some spk, some _ =>
              match calls with
              | 0 => none
              | calls + 1 =>
                  match solver spk with
                  | none => none
                  | some (_, txType2, vSolutions2) =>
                      (combineFrom calls spk txType2 vSolutions2 sigs1.dropLast sigs2.dropLast).map fun result =>
                        result ++ CScript.push spk
      | .multisig => combineMultisig cache txTo nIn scriptPubKey vSolutions sigs1 sigs2

/-- What `EvalScript` leaves of an empty stack; `failed` tells it where that returns false. -/
def leftStack (failed : CScript → List Bytes) (scriptSig : CScript) : List Bytes :=
  match (evalScript cache ⟨1, 0, [], [], 0⟩ 0 SCRIPT_VERIFY_NONE 0 [] scriptSig).1 with
  | none => failed scriptSig
  | some stack => stack.reverse

def combineSignatures (failed : CScript → List Bytes) (scriptPubKey scriptSig1 scriptSig2 : CScript) :
    Option CScript :=
  let stack1 := leftStack cache failed scriptSig1
  let stack2 := leftStack cache failed scriptSig2
  match solver scriptPubKey with
  | none => none
  | some (_, txType, vSolutions) =>
      combineFrom cache txTo nIn stack1.length scriptPubKey txType vSolutions stack1 stack2

end Combine

end ProCurrency

/-!
## Combined signatures

`CombineSignatures` gives each signature to a key by a check that is weaker than the one of the interpreter. What it
puts together is accepted where the signatures that come first in the order of their bytes pass the stronger one too.
-/

namespace ProCurrency

open ByteCodec CScript CBitcoinAddress

/-! ## What is put together -/

section Merge

variable {sigs : Bytes → Option Bytes} {nSigsRequired : Nat}

theorem mergeFrom_eq (keys : List Bytes) {nSigsHave : Nat} (hle : nSigsHave ≤ nSigsRequired) (result : CScript) :
    mergeFrom sigs nSigsRequired keys nSigsHave result =
      (nSigsHave + ((keys.filterMap sigs).take (nSigsRequired - nSigsHave)).length,
        result ++ pushAll ((keys.filterMap sigs).take (nSigsRequired - nSigsHave))) := by
  induction keys generalizing nSigsHave result with
  | nil =>
      rw [mergeFrom, List.filterMap_nil, List.take_nil, pushAll, List.flatMap_nil, List.append_nil]
      rfl
  | cons pubkey keys ih =>
      rw [mergeFrom]
      split_ifs with hdone
      · rw [Nat.sub_eq_zero_of_le hdone, List.take_zero, pushAll, List.flatMap_nil, List.append_nil]
        rfl
      · cases hsig : sigs pubkey with
        | none =>
            rw [List.filterMap_cons_none hsig]
            exact ih hle result
        | some sig =>
            obtain ⟨left, hleft⟩ := Nat.exists_eq_add_of_lt (Nat.lt_of_not_le hdone)
            dsimp only
            rw [ih (Nat.lt_of_not_le hdone), List.filterMap_cons_some hsig,
              show nSigsRequired - nSigsHave = left + 1 by omega,
              show nSigsRequired - (nSigsHave + 1) = left by omega, List.take_succ_cons, pushAll, pushAll,
              List.flatMap_cons, List.append_assoc, List.length_cons,
              Nat.succ_add_eq_add_succ]

end Merge

/-- The signatures that are put together. An empty one stands for each that is missing. -/
def mergedSigs (m : Nat) (sigs : List Bytes) : List Bytes := sigs.take m ++ List.replicate (m - sigs.length) []

theorem length_mergedSigs (m : Nat) (sigs : List Bytes) : (mergedSigs m sigs).length = m := by
  rw [mergedSigs, List.length_append, List.length_take, List.length_replicate]
  omega

theorem mergedSigs_of_le {m : Nat} {sigs : List Bytes} (h : m ≤ sigs.length) : mergedSigs m sigs = sigs.take m := by
  rw [mergedSigs, Nat.sub_eq_zero_of_le h, List.replicate_zero, List.append_nil]

theorem nodup_allSigs (sigs1 sigs2 : List Bytes) : (allSigs sigs1 sigs2).Nodup := by
  rw [allSigs]
  refine List.Pairwise.imp ?_ Std.ExtTreeSet.distinct_toList
  rintro sig sig' hne rfl
  exact hne Std.ReflCmp.compare_self

section Combined

variable {c : ScriptCrypto} {cache : CSignatureCache c} {txTo : CTransaction} {nIn m : Nat} {script : CScript}
  {keys sigs1 sigs2 : List Bytes} {sigs : Bytes → Option Bytes}

theorem combineMultisig_eq (hm : m < 256)
    (hstable : GreedyMatching.Stable (matchesKey cache txTo nIn script) keys (allSigs sigs1 sigs2) sigs) :
    combineMultisig cache txTo nIn script ([UInt8.ofNat m] :: (keys ++ [[UInt8.ofNat keys.length]])) sigs1 sigs2 =
      some (pushAll ([] :: mergedSigs m (keys.filterMap sigs))) := by
  have hsize : ([UInt8.ofNat m] :: (keys ++ [[UInt8.ofNat keys.length]])).length = keys.length + 2 := by
    rw [List.length_cons, List.length_append, List.length_singleton]
  have hbetween : (([UInt8.ofNat m] :: (keys ++ [[UInt8.ofNat keys.length]])).drop 1).take
      (([UInt8.ofNat m] :: (keys ++ [[UInt8.ofNat keys.length]])).length - 2) = keys := by
    rw [hsize, List.drop_succ_cons, List.drop_zero]
    exact List.take_left' (by omega)
  have hM : (UInt8.ofNat m).toNat = m := UInt8.toNat_ofNat_of_lt' hm
  have hassign : keys.filterMap (GreedyMatching.assign (matchesKey cache txTo nIn script) keys
      (allSigs sigs1 sigs2)) = keys.filterMap sigs :=
    List.filterMap_congr fun key hkey => hstable.assign_eq (nodup_allSigs sigs1 sigs2) key hkey
  have hmissing : m - ((keys.filterMap sigs).take m).length = m - (keys.filterMap sigs).length := by
    rw [List.length_take]
    omega
  have hzeros : List.replicate (m - (keys.filterMap sigs).length) OP_0 =
      pushAll (List.replicate (m - (keys.filterMap sigs).length) []) := by
    rw [pushAll, List.flatMap_replicate]
    exact (List.flatten_replicate_singleton (a := OP_0)).symm
  rw [combineMultisig, if_neg (by omega), hbetween]
  change some ((mergeFrom _ (UInt8.ofNat m).toNat keys 0 [OP_0]).2 ++
    List.replicate ((UInt8.ofNat m).toNat - (mergeFrom _ (UInt8.ofNat m).toNat keys 0 [OP_0]).1) OP_0) = _
  rw [hM, mergeFrom_eq keys (Nat.zero_le m), Nat.sub_zero, hassign, Nat.zero_add]
  dsimp only
  rw [hmissing, hzeros, mergedSigs, List.append_assoc, pushAll, pushAll, ← List.flatMap_append]
  rfl

end Combined

/-! ## What is accepted -/

section Loop

variable {I : Interpreter} {scriptCode : CScript} {encoded keyOk : Bytes → Bool} {good : Bytes → Bytes → Bool}
  {e : ScriptError}

theorem checkMultisigLoop_error {key sig : Bytes} {keys sigs : List Bytes}
    (herror : (I.check sig key scriptCode).1 = .error e) :
    (checkMultisigLoop I scriptCode (key :: keys) (sig :: sigs)).1 = .error e := by
  rw [checkMultisigLoop]
  rcases hr : I.check sig key scriptCode with ⟨r, calls⟩
  rw [hr] at herror
  cases herror
  rfl

theorem checkMultisigLoop_append {keys sigs : List Bytes} (rest : List Bytes)
    (h : (checkMultisigLoop I scriptCode keys sigs).1 = .ok true) :
    (checkMultisigLoop I scriptCode (keys ++ rest) sigs).1 = .ok true := by
  induction keys generalizing sigs with
  | nil =>
      cases sigs with
      | nil => cases rest <;> rfl
      | cons sig sigs => cases h
  | cons key keys ih =>
      cases sigs with
      | nil => rfl
      | cons sig sigs =>
          cases hcheck : (I.check sig key scriptCode).1 with
          | error e =>
              rw [checkMultisigLoop_error hcheck] at h
              cases h
          | ok fOk =>
              rw [checkMultisigLoop_cons hcheck] at h
              rw [List.cons_append, checkMultisigLoop_cons hcheck]
              generalize (if fOk then sigs else sig :: sigs) = left at h ⊢
              by_cases hfew : keys.length < left.length
              · rw [if_pos hfew] at h
                cases h
              · rw [if_neg hfew] at h
                rw [if_neg (by rw [List.length_append]; omega)]
                exact ih h

/-- The loop succeeds when it is through with the signatures in front of the first key that is an error. -/
theorem checkMultisigLoop_front_iff {keys sigs : List Bytes}
    (hcheck : ∀ sig key, (I.check sig key scriptCode).1 =
      if encoded sig && keyOk key then .ok (good sig key) else .error e) :
    (checkMultisigLoop I scriptCode keys sigs).1 = .ok true ↔
      ∃ front rest, keys = front ++ rest ∧ (∀ sig ∈ sigs, encoded sig) ∧ (∀ key ∈ front, keyOk key) ∧
        List.SublistForall₂ (fun sig key => good sig key) sigs front := by
  have hok : ∀ {sig key}, encoded sig → keyOk key → (I.check sig key scriptCode).1 = .ok (good sig key) := by
    intro sig key hsig hkey
    rw [hcheck, hsig, hkey]
    rfl
  constructor
  · intro h
    induction keys generalizing sigs with
    | nil =>
        cases sigs with
        | nil => exact ⟨[], [], rfl, List.forall_mem_nil _, List.forall_mem_nil _, List.SublistForall₂.nil⟩
        | cons sig sigs => cases h
    | cons key keys ih =>
        cases sigs with
        | nil => exact ⟨[], key :: keys, rfl, List.forall_mem_nil _, List.forall_mem_nil _, List.SublistForall₂.nil⟩
        | cons sig sigs =>
            by_cases hencoded : (encoded sig && keyOk key) = true
            · obtain ⟨hsig, hkey⟩ := Bool.and_eq_true_iff.1 hencoded
              rw [checkMultisigLoop_cons (hok hsig hkey)] at h
              by_cases hfew : keys.length < (if good sig key then sigs else sig :: sigs).length
              · rw [if_pos hfew] at h
                cases h
              · rw [if_neg hfew] at h
                obtain ⟨front, rest, hkeys, hsigs, hfront, hgood⟩ := ih h
                have hkeys' : key :: keys = key :: front ++ rest := congrArg (key :: ·) hkeys
                cases hfOk : good sig key with
                | true =>
                    rw [hfOk] at hsigs hgood
                    exact ⟨key :: front, rest, hkeys', List.forall_mem_cons.2 ⟨hsig, hsigs⟩,
                      List.forall_mem_cons.2 ⟨hkey, hfront⟩, List.SublistForall₂.cons hfOk hgood⟩
                | false =>
                    rw [hfOk] at hsigs hgood
                    exact ⟨key :: front, rest, hkeys', hsigs, List.forall_mem_cons.2 ⟨hkey, hfront⟩,
                      List.SublistForall₂.cons_right hgood⟩
            · have herror := hcheck sig key
              rw [if_neg hencoded] at herror
              rw [checkMultisigLoop_error herror] at h
              cases h
  · rintro ⟨front, rest, rfl, hsigs, hfront, hgood⟩
    refine checkMultisigLoop_append rest ((checkMultisigLoop_iff ?_).2 ?_)
    · exact fun sig hsig key hkey => ⟨_, hok (hsigs sig hsig) (hfront key hkey)⟩
    · refine sublistForall₂_of_mem hgood fun sig hsig key hkey hgood => ?_
      rw [hok (hsigs sig hsig) (hfront key hkey), hgood]

end Loop

section Accepted

variable {c : ScriptCrypto} (cache : CSignatureCache c) (txTo : CTransaction) (nIn : Nat)

/-- `EvalScript` with the standard flags. -/
abbrev standardInterpreter : Interpreter :=
  bigNumInterpreter cache txTo nIn STANDARD_SCRIPT_VERIFY_FLAGS 0

/-- The script that is signed: the signatures are deleted from it. -/
def withoutSigs (script : CScript) (sigs : List Bytes) : CScript :=
  sigs.reverse.foldl (fun scriptCode vchSig => scriptCode.findAndDelete (push vchSig)) script

/-- The signatures are canonical and good for keys in their order, which are well formed like all keys behind them. -/
def AcceptedFor (script : CScript) (keys sigs : List Bytes) : Prop :=
  (∀ sig ∈ sigs, checkSignatureEncoding STANDARD_SCRIPT_VERIFY_FLAGS sig) ∧
    ∃ before after, keys = before ++ after ∧ (∀ key ∈ after, isCompressedOrUncompressedPubKey key) ∧
      List.SublistForall₂ (fun sig key => matchesKey cache txTo nIn (withoutSigs script sigs) sig key) sigs after

/-- The scripts of the outputs that a script spends, and what stands behind the signatures then. -/
inductive Spends (c : ScriptCrypto) (script : CScript) : CScript → List Bytes → Prop
  | bare : Spends c script script []
  | redeem (hlength : (c.hash160 script).length = 20) :
      Spends c script (OP_HASH160 :: 20 :: (c.hash160 script ++ [OP_EQUAL])) [script]

variable {cache txTo nIn} {script scriptPubKey : CScript} {keys sigs tail : List Bytes} {m : Nat}

theorem standardInterpreter_check (vchSig vchPubKey : Bytes) (scriptCode : CScript) :
    ((standardInterpreter cache txTo nIn).check vchSig vchPubKey scriptCode).1 =
      if checkSignatureEncoding STANDARD_SCRIPT_VERIFY_FLAGS vchSig && isCompressedOrUncompressedPubKey vchPubKey then
        .ok (matchesKey cache txTo nIn scriptCode vchSig vchPubKey)
      else .error .unknownError := by
  have hstrict : hasFlag STANDARD_SCRIPT_VERIFY_FLAGS SCRIPT_VERIFY_STRICTENC = true := by decide
  rw [standardInterpreter, bigNumInterpreter]
  dsimp only
  rw [hstrict, Bool.true_and]
  cases checkSignatureEncoding STANDARD_SCRIPT_VERIFY_FLAGS vchSig && isCompressedOrUncompressedPubKey vchPubKey with
  | true => rfl
  | false => rfl

theorem standardInterpreter_pushOk (data : Bytes) (opcode : UInt8) :
    (standardInterpreter cache txTo nIn).pushOk data opcode := rfl

theorem length_of_checkSignatureEncoding {sig : Bytes}
    (h : checkSignatureEncoding STANDARD_SCRIPT_VERIFY_FLAGS sig) : 9 ≤ sig.length ∧ sig.length ≤ 73 := by
  have hempty : hasFlag STANDARD_SCRIPT_VERIFY_FLAGS SCRIPT_VERIFY_ALLOW_EMPTY_SIG = false := by decide
  rw [checkSignatureEncoding, hempty, Bool.false_and, if_neg Bool.false_ne_true] at h
  cases hder : isDERSignature sig true with
  | true =>
      have hbounds := isDERSignature_bounds hder
      exact ⟨hbounds.1, hbounds.2.1⟩
  | false =>
      rw [hder] at h
      cases h

/-- No signature is missing when all are canonical. -/
theorem le_of_mergedSigs {m : Nat} {sigs : List Bytes}
    (h : ∀ sig ∈ mergedSigs m sigs, checkSignatureEncoding STANDARD_SCRIPT_VERIFY_FLAGS sig) : m ≤ sigs.length := by
  by_contra hlt
  have hmem : [] ∈ mergedSigs m sigs :=
    List.mem_append_right _ (List.mem_replicate.2 ⟨by omega, rfl⟩)
  exact absurd (length_of_checkSignatureEncoding (h [] hmem)).1 (by decide)

/-- The multisig script itself, on the stack that the signatures leave. -/
theorem evalScript_merged (h : IsMultisig script m keys) (hsigs : sigs.length = m) :
    (evalScript cache txTo nIn STANDARD_SCRIPT_VERIFY_FLAGS 0 (sigs.reverse ++ [[]]) script).1 =
      ((checkMultisigLoop (standardInterpreter cache txTo nIn) (withoutSigs script sigs) keys.reverse
        sigs.reverse).1.map fun fSuccess => [boolVch fSuccess]).toOption :=
  congrArg Except.toOption (h.evalScript standardInterpreter_pushOk (bigNumInterpreter_counted cache txTo nIn _ 0)
    (List.length_reverse.trans hsigs) (by decide))

theorem verifyScript_merged (h : IsMultisig script m keys) (hspends : Spends c script scriptPubKey tail)
    (hsigs : sigs.length = m) :
    (verifyScript cache txTo nIn STANDARD_SCRIPT_VERIFY_FLAGS 0 (pushAll ([] :: (sigs ++ tail))) scriptPubKey).1 ↔
      (∀ vch ∈ sigs ++ tail, vch.length ≤ MAX_SCRIPT_ELEMENT_SIZE) ∧
        (checkMultisigLoop (standardInterpreter cache txTo nIn) (withoutSigs script sigs) keys.reverse
          sigs.reverse).1 = .ok true := by
  have hcount : ([] :: (sigs ++ tail)).length ≤ 18 := by
    have hle := h.le.trans h.max
    rw [List.length_cons, List.length_append]
    cases hspends with
    | bare =>
        rw [List.length_nil]
        omega
    | redeem =>
        rw [List.length_singleton]
        omega
  rw [verifyScript, evalScript]
  dsimp only
  by_cases hsizes : ∀ vch ∈ sigs ++ tail, vch.length ≤ MAX_SCRIPT_ELEMENT_SIZE
  · obtain ⟨heval, hpushOnly⟩ := @evalScriptWith_flatMap c (standardInterpreter cache txTo nIn)
      ([] :: (sigs ++ tail)) standardInterpreter_pushOk (List.forall_mem_cons.2 ⟨Nat.zero_le _, hsizes⟩) hcount
    rw [pushAll, heval, hpushOnly, and_iff_right hsizes, List.reverse_cons, List.reverse_append]
    dsimp only [Except.toOption]
    cases hspends with
    | bare =>
        obtain ⟨pc, hscript, _⟩ := h.shape
        have hp2sh : script.isPayToScriptHash = false := by
          rw [hscript]
          exact isPayToScriptHash_cons (encodeOpN_spec h.pos (h.le.trans h.max)).2.2.2.1 pc
        rw [List.reverse_nil, List.nil_append, evalScript_merged h hsigs, hp2sh, Bool.and_false]
        rcases (checkMultisigLoop (standardInterpreter cache txTo nIn) (withoutSigs script sigs) keys.reverse
          sigs.reverse).1 with e | fSuccess
        · constructor <;> intro h <;> cases h
        · cases fSuccess with
          | false => constructor <;> intro h <;> cases h
          | true => exact ⟨fun _ => rfl, fun _ => rfl⟩
    | redeem hlength =>
        have hhash := writeKeyID_readKeyID hlength
        have houter : (evalScript cache txTo nIn STANDARD_SCRIPT_VERIFY_FLAGS 0 (script :: (sigs.reverse ++ [[]]))
            (OP_HASH160 :: 20 :: (c.hash160 script ++ [OP_EQUAL]))).1 = some (vchTrue :: (sigs.reverse ++ [[]])) := by
          have hscriptHash := @evalScript_scriptHash c (standardInterpreter cache txTo nIn) (sigs.reverse ++ [[]])
            standardInterpreter_pushOk (readKeyID (c.hash160 script)) script (by
              have hle := h.le.trans h.max
              rw [List.length_append, List.length_reverse, List.length_singleton]
              omega)
          rw [hhash, decide_eq_true rfl] at hscriptHash
          exact congrArg Except.toOption hscriptHash
        rw [List.reverse_singleton, List.singleton_append, List.cons_append, houter, isPayToScriptHash_script hlength]
        dsimp only
        rw [evalScript_merged h hsigs]
        rcases (checkMultisigLoop (standardInterpreter cache txTo nIn) (withoutSigs script sigs) keys.reverse
          sigs.reverse).1 with e | fSuccess
        · constructor <;> intro h <;> cases h
        · cases fSuccess with
          | false => constructor <;> intro h <;> cases h
          | true => exact ⟨fun _ => rfl, fun _ => rfl⟩
  · obtain ⟨e, herror⟩ := @evalScriptWith_flatMap_error c (standardInterpreter cache txTo nIn) ([] :: (sigs ++ tail))
      standardInterpreter_pushOk (fun h => hsizes (List.forall_mem_cons.1 h).2) (hcount.trans (by decide))
    rw [pushAll, herror]
    exact ⟨fun h => absurd h Bool.false_ne_true, fun h => absurd h.1 hsizes⟩

theorem loop_accepted_iff :
    (checkMultisigLoop (standardInterpreter cache txTo nIn) (withoutSigs script sigs) keys.reverse
        sigs.reverse).1 = .ok true ↔ AcceptedFor cache txTo nIn script keys sigs := by
  rw [checkMultisigLoop_front_iff fun sig key => standardInterpreter_check sig key (withoutSigs script sigs)]
  constructor
  · rintro ⟨front, rest, hkeys, hsigs, hfront, hgood⟩
    refine ⟨fun sig hmem => hsigs sig (List.mem_reverse.2 hmem), rest.reverse, front.reverse, ?_,
      fun key hmem => hfront key (List.mem_reverse.1 hmem), ?_⟩
    · rw [← List.reverse_append, ← hkeys, List.reverse_reverse]
    · have hreverse := sublistForall₂_reverse hgood
      rwa [List.reverse_reverse] at hreverse
  · rintro ⟨hsigs, before, after, rfl, hafter, hgood⟩
    exact ⟨after.reverse, before.reverse, List.reverse_append, fun sig hmem => hsigs sig (List.mem_reverse.1 hmem),
      fun key hmem => hafter key (List.mem_reverse.1 hmem), sublistForall₂_reverse hgood⟩

end Accepted

/-! ## Combined scripts -/

section Combination

variable {c : ScriptCrypto} (cache : CSignatureCache c) (txTo : CTransaction) (nIn : Nat)

/-- Different keys, as many as are required, have signatures that the interpreter accepts. -/
def EnoughSigned (script : CScript) (m : Nat) (keys vals : List Bytes) : Prop :=
  ∃ signed : List Bytes, signed.Nodup ∧ m ≤ signed.length ∧ ∀ key ∈ signed, key ∈ keys ∧
    ∃ sig ∈ vals, ((standardInterpreter cache txTo nIn).check sig key script).1 = .ok true

/-- The signatures go to the keys in the order of their bytes, and those of the first keys are what is accepted. -/
def Combinable (script : CScript) (m : Nat) (keys sigs1 sigs2 : List Bytes) : Prop :=
  ∃ sigs, GreedyMatching.Stable (matchesKey cache txTo nIn script) keys (allSigs sigs1 sigs2) sigs ∧
    m ≤ (keys.filterMap sigs).length ∧ AcceptedFor cache txTo nIn script keys ((keys.filterMap sigs).take m)

variable {cache txTo nIn} {failed : CScript → List Bytes} {script scriptPubKey scriptSig1 scriptSig2 : CScript}
  {m n : UInt8} {keys sigs1 sigs2 tail : List Bytes} {sigs : Bytes → Option Bytes}

theorem combineSignatures_eq {m : Nat} (h : IsMultisig script m keys)
    (hsolver : solver script = some (true, .multisig, [UInt8.ofNat m] :: (keys ++ [[UInt8.ofNat keys.length]])))
    (hspends : Spends c script scriptPubKey tail) (h1 : leftStack cache failed scriptSig1 = sigs1 ++ tail)
    (h2 : leftStack cache failed scriptSig2 = sigs2 ++ tail)
    (hstable : GreedyMatching.Stable (matchesKey cache txTo nIn script) keys (allSigs sigs1 sigs2) sigs) :
    combineSignatures cache txTo nIn failed scriptPubKey scriptSig1 scriptSig2 =
      some (pushAll ([] :: (mergedSigs m (keys.filterMap sigs) ++ tail))) := by
  have hm : m < 256 := Nat.lt_of_le_of_lt (h.le.trans h.max) (by decide)
  have hmerged := combineMultisig_eq hm hstable
  rw [combineSignatures, h1, h2]
  cases hspends with
  | bare =>
      rw [List.append_nil, List.append_nil, List.append_nil, hsolver]
      dsimp only
      rw [combineFrom]
      exact hmerged
  | redeem hlength =>
      obtain ⟨pc, hscript, _⟩ := h.shape
      have hne : script ≠ [] := by
        rw [hscript]
        exact List.cons_ne_nil _ _
      have houter : solver (OP_HASH160 :: 20 :: (c.hash160 script ++ [OP_EQUAL])) =
          some (true, .scriptHash, [c.hash160 script]) := by
        rw [solver, isPayToScriptHash_script hlength, if_pos rfl]
        exact congrArg (fun vch => some (true, TxnOutType.scriptHash, [vch])) (List.take_left' hlength)
      rw [houter, List.length_append, List.length_singleton]
      dsimp only
      rw [combineFrom, List.getLast?_concat, List.getLast?_concat, List.dropLast_concat, List.dropLast_concat]
      cases script with
      | nil => exact absurd rfl hne
      | cons op pc =>
          dsimp only
          rw [hsolver]
          dsimp only
          rw [combineFrom]
          rw [hmerged, Option.map_some, ← List.cons_append, pushAll, pushAll, List.flatMap_append,
            List.flatMap_singleton]

/-- What is put together is accepted when the signatures that the keys are given are. -/
theorem combineSignatures_accepted_iff
    (hsolver : solver script = some (true, .multisig, [m] :: (keys ++ [[n]])))
    (hspends : Spends c script scriptPubKey tail) (h1 : leftStack cache failed scriptSig1 = sigs1 ++ tail)
    (h2 : leftStack cache failed scriptSig2 = sigs2 ++ tail) :
    (EnoughSigned cache txTo nIn script m.toNat keys (sigs1 ++ sigs2) →
        ∃ result, combineSignatures cache txTo nIn failed scriptPubKey scriptSig1 scriptSig2 = some result ∧
          (verifyScript cache txTo nIn STANDARD_SCRIPT_VERIFY_FLAGS 0 result scriptPubKey).1) ↔
      (EnoughSigned cache txTo nIn script m.toNat keys (sigs1 ++ sigs2) →
        Combinable cache txTo nIn script m.toNat keys sigs1 sigs2 ∧
          ∀ vch ∈ tail, vch.length ≤ MAX_SCRIPT_ELEMENT_SIZE) := by
  obtain ⟨m', keys', h, heq⟩ := of_solver_multisig hsolver
  rw [List.cons.injEq, List.cons.injEq] at heq
  obtain ⟨⟨rfl, _⟩, hkeys⟩ := heq
  obtain ⟨rfl, hn⟩ := List.append_inj' hkeys rfl
  rw [hkeys] at hsolver
  have hm : (UInt8.ofNat m').toNat = m' :=
    UInt8.toNat_ofNat_of_lt' (Nat.lt_of_le_of_lt (h.le.trans h.max) (by decide))
  rw [hm]
  refine imp_congr_right fun _ => ?_
  have haccepted : ∀ {sigs}, GreedyMatching.Stable (matchesKey cache txTo nIn script) keys (allSigs sigs1 sigs2) sigs →
      ((∃ result, combineSignatures cache txTo nIn failed scriptPubKey scriptSig1 scriptSig2 = some result ∧
          (verifyScript cache txTo nIn STANDARD_SCRIPT_VERIFY_FLAGS 0 result scriptPubKey).1) ↔
        (∀ vch ∈ mergedSigs m' (keys.filterMap sigs) ++ tail, vch.length ≤ MAX_SCRIPT_ELEMENT_SIZE) ∧
          AcceptedFor cache txTo nIn script keys (mergedSigs m' (keys.filterMap sigs))) := by
    intro sigs hstable
    rw [combineSignatures_eq h hsolver hspends h1 h2 hstable, ← loop_accepted_iff,
      ← verifyScript_merged h hspends (length_mergedSigs m' _)]
    exact ⟨fun ⟨_, hresult, hverify⟩ => Option.some.inj hresult ▸ hverify, fun hverify => ⟨_, rfl, hverify⟩⟩
  constructor
  · intro hverify
    have hstable : GreedyMatching.Stable (matchesKey cache txTo nIn script) keys (allSigs sigs1 sigs2) _ :=
      GreedyMatching.Stable.assign (nodup_allSigs sigs1 sigs2)
    obtain ⟨hsizes, hsigs⟩ := (haccepted hstable).1 hverify
    have hle := le_of_mergedSigs hsigs.1
    rw [mergedSigs_of_le hle] at hsigs
    exact ⟨⟨_, hstable, hle, hsigs⟩, fun vch hmem => hsizes vch (List.mem_append_right _ hmem)⟩
  · rintro ⟨⟨sigs, hstable, hm, hsigs⟩, htail⟩
    refine (haccepted hstable).2 ?_
    rw [mergedSigs_of_le hm]
    refine ⟨fun vch hmem => ?_, hsigs⟩
    rcases List.mem_append.1 hmem with hmem | hmem
    · exact (length_of_checkSignatureEncoding (hsigs.1 vch hmem)).2.trans (by decide)
    · exact htail vch hmem

end Combination

section Witness

/-- A garbage byte stands in front of the hash type: the check of `CombineMultisig` does not see it. -/
def malleatedSignature : Bytes := [0x30, 6, 2, 1, 1, 2, 1, 1, 0, 1]

def oneOfOne : CScript := OP_1 :: (CScript.push smallPubKey ++ [OP_1, OP_CHECKMULTISIG])

def signedBy (sig : Bytes) : CScript := OP_0 :: CScript.push sig

theorem combineSignatures_accepted_signed :
    ∃ result, combineSignatures emptyCache spendingTx 0 (fun _ => []) oneOfOne (signedBy smallSignature)
        (signedBy []) = some result ∧
      (verifyScript emptyCache spendingTx 0 STANDARD_SCRIPT_VERIFY_FLAGS 0 result oneOfOne).1 := by
  have hstable : GreedyMatching.Stable (matchesKey emptyCache spendingTx 0 oneOfOne) [smallPubKey]
      (allSigs [[], smallSignature] [[], []]) _ := GreedyMatching.Stable.assign (nodup_allSigs _ _)
  refine (@combineSignatures_accepted_iff _ emptyCache spendingTx 0 (fun _ => []) oneOfOne oneOfOne
    (signedBy smallSignature) (signedBy []) 1 1 [smallPubKey] [[], smallSignature] [[], []] [] (by decide +kernel)
    Spends.bare (by decide +kernel) (by decide +kernel)).2 (fun _ => ⟨⟨_, hstable, by decide +kernel, ?_⟩,
      List.forall_mem_nil _⟩) ⟨[smallPubKey], List.nodup_singleton _, Nat.le_refl _, fun key hkey =>
        ⟨hkey, smallSignature, by decide +kernel, by
          rw [List.mem_singleton.1 hkey]
          decide +kernel⟩⟩
  have hsigs : ([smallPubKey].filterMap (GreedyMatching.assign (matchesKey emptyCache spendingTx 0 oneOfOne)
      [smallPubKey] (allSigs [[], smallSignature] [[], []]))).take (1 : UInt8).toNat = [smallSignature] := by
    decide +kernel
  rw [hsigs]
  exact ⟨by decide +kernel, [], [smallPubKey], rfl, by decide +kernel, .cons (by decide +kernel) .nil⟩

/-- The malleated signature comes first and is taken, and the good one is lost. -/
theorem combineSignatures_rejected :
    ¬ ∀ {c : ScriptCrypto} (cache : CSignatureCache c) (txTo : CTransaction) (nIn : Nat)
      (failed : CScript → List Bytes) (script scriptPubKey scriptSig1 scriptSig2 : CScript) (m n : UInt8)
      (keys sigs1 sigs2 tail : List Bytes),
      solver script = some (true, .multisig, [m] :: (keys ++ [[n]])) → Spends c script scriptPubKey tail →
      leftStack cache failed scriptSig1 = sigs1 ++ tail → leftStack cache failed scriptSig2 = sigs2 ++ tail →
      EnoughSigned cache txTo nIn script m.toNat keys (sigs1 ++ sigs2) →
      ∃ result, combineSignatures cache txTo nIn failed scriptPubKey scriptSig1 scriptSig2 = some result ∧
        (verifyScript cache txTo nIn STANDARD_SCRIPT_VERIFY_FLAGS 0 result scriptPubKey).1 := by
  intro hclaim
  obtain ⟨result, hresult, hverify⟩ := hclaim emptyCache spendingTx 0 (fun _ => []) oneOfOne oneOfOne
    (signedBy smallSignature) (signedBy malleatedSignature) 1 1 [smallPubKey] [[], smallSignature]
    [[], malleatedSignature] [] (by decide +kernel) Spends.bare (by decide +kernel) (by decide +kernel)
    ⟨[smallPubKey], List.nodup_singleton _, Nat.le_refl _, fun key hkey => ⟨hkey, smallSignature, by decide +kernel, by
      rw [List.mem_singleton.1 hkey]
      decide +kernel⟩⟩
  have hmerged : combineSignatures emptyCache spendingTx 0 (fun _ => []) oneOfOne (signedBy smallSignature)
      (signedBy malleatedSignature) = some (signedBy malleatedSignature) := by decide +kernel
  rw [hmerged] at hresult
  cases hresult
  exact absurd hverify (by decide +kernel)

end Witness

end ProCurrency

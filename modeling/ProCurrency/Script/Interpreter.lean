import ProCurrency.Script.Number
import ProCurrency.Script.Signature

/-!
# The two interpreters

`EvalScript` and `VerifyScript` (script.cpp), each in two versions: over `CBigNum`, for the validation of blocks and
transactions, and over `CScriptNum` with a `BaseSignatureChecker`, for what the wallet signs. The code of most opcodes
is the same in both and stands here once; what differs is in `Interpreter`. Beside its result an evaluation has the
number of the calls of `CheckSig`. A stack is listed from its top.
-/

namespace ProCurrency

open ByteCodec

def MAX_SCRIPT_ELEMENT_SIZE : Nat := 520

abbrev ScriptStack := List Bytes

def vchFalse : Bytes := []
def vchTrue : Bytes := [1]

def boolVch (f : Bool) : Bytes := if f then vchTrue else vchFalse

/-- `CastToBool`. The last byte can be that of a negative zero. -/
def castToBool : Bytes → Bool
  | [] => false
  | [b] => b ≠ 0 && b ≠ 0x80
  | b :: vch => b ≠ 0 || castToBool vch

/-! ## States -/

/-- The variables of the loop. `vfExec` is listed from its back. -/
structure EvalState where
  stack : ScriptStack
  altstack : ScriptStack := []
  vfExec : List Bool := []
  nOpCount : Nat := 0
  pbegincodehash : CScript

namespace EvalState

def fExec (st : EvalState) : Bool := !st.vfExec.contains false

def setStack (st : EvalState) (stack : ScriptStack) : EvalState := { st with stack := stack }

def countOp (st : EvalState) (opcode : UInt8) : EvalState :=
  if OP_16 < opcode then { st with nOpCount := st.nOpCount + 1 } else st

end EvalState

abbrev OpResult := Except ScriptError EvalState

/-- The numbers of an interpreter; a cast is `none` when it throws. -/
structure ScriptNumbers where
  cast : Bytes → Option Int
  getint : Int → Int
  getvch : Int → Bytes

/-- What the two versions of `EvalScript` do in their own ways. -/
structure Interpreter where
  num : ScriptNumbers
  /-- `CheckMinimalPush`, where it is called. -/
  pushOk : Bytes → UInt8 → Bool
  /-- The opcodes from `OP_NOP1` to `OP_NOP10`, with the stack. -/
  nop : UInt8 → ScriptStack → Except ScriptError Unit
  /-- The encodings and the check of a signature: an error ends the evaluation. -/
  check : Bytes → Bytes → CScript → Except ScriptError Bool × Nat
  /-- `SCRIPT_VERIFY_NULLDUMMY`. -/
  nullDummy : Bool

/-! ## Operands -/

section Operands

variable (st : EvalState)

def withTop1 (f : Bytes → ScriptStack → OpResult) : OpResult :=
  match st.stack with
  | x :: rest => f x rest
  | _ => .error .invalidStackOperation

def withTop2 (f : Bytes → Bytes → ScriptStack → OpResult) : OpResult :=
  match st.stack with
  | x2 :: x1 :: rest => f x1 x2 rest
  | _ => .error .invalidStackOperation

def withTop3 (f : Bytes → Bytes → Bytes → ScriptStack → OpResult) : OpResult :=
  match st.stack with
  | x3 :: x2 :: x1 :: rest => f x1 x2 x3 rest
  | _ => .error .invalidStackOperation

def withTop4 (f : Bytes → Bytes → Bytes → Bytes → ScriptStack → OpResult) : OpResult :=
  match st.stack with
  | x4 :: x3 :: x2 :: x1 :: rest => f x1 x2 x3 x4 rest
  | _ => .error .invalidStackOperation

end Operands

def castNumber (num : ScriptNumbers) (vch : Bytes) : Except ScriptError Int :=
  match num.cast vch with
  | none => .error .unknownError
  | some bn => .ok bn

/-! ## Numeric opcodes -/

def boolNumber (f : Bool) : Int := if f then 1 else 0

def unaryNumber (opcode : UInt8) (bn : Int) : Int :=
  match opcode with
  | OP_1ADD => bn + 1
  | OP_1SUB => bn - 1
  | OP_NEGATE => -bn
  | OP_ABS => if bn < 0 then -bn else bn
  | OP_NOT => boolNumber (bn = 0)
  | _ => boolNumber (bn ≠ 0)

def binaryNumber (opcode : UInt8) (bn1 bn2 : Int) : Int :=
  match opcode with
  | OP_ADD => bn1 + bn2
  | OP_SUB => bn1 - bn2
  | OP_BOOLAND => boolNumber (bn1 ≠ 0 && bn2 ≠ 0)
  | OP_BOOLOR => boolNumber (bn1 ≠ 0 || bn2 ≠ 0)
  | OP_NUMEQUAL | OP_NUMEQUALVERIFY => boolNumber (bn1 = bn2)
  | OP_NUMNOTEQUAL => boolNumber (bn1 ≠ bn2)
  | OP_LESSTHAN => boolNumber (bn1 < bn2)
  | OP_GREATERTHAN => boolNumber (bn1 > bn2)
  | OP_LESSTHANOREQUAL => boolNumber (bn1 ≤ bn2)
  | OP_GREATERTHANOREQUAL => boolNumber (bn1 ≥ bn2)
  | OP_MIN => if bn1 < bn2 then bn1 else bn2
  | _ => if bn1 > bn2 then bn1 else bn2

def unaryOp (num : ScriptNumbers) (opcode : UInt8) (st : EvalState) : OpResult :=
  withTop1 st fun x rest => do
    let bn ← castNumber num x
    .ok (st.setStack (num.getvch (unaryNumber opcode bn) :: rest))

def binaryOp (num : ScriptNumbers) (opcode : UInt8) (st : EvalState) : OpResult :=
  withTop2 st fun x1 x2 rest => do
    let bn1 ← castNumber num x1
    let bn2 ← castNumber num x2
    let vch := num.getvch (binaryNumber opcode bn1 bn2)
    if opcode = OP_NUMEQUALVERIFY then
      if castToBool vch then .ok (st.setStack rest) else .error .numEqualVerify
    else .ok (st.setStack (vch :: rest))

def withinOp (num : ScriptNumbers) (st : EvalState) : OpResult :=
  withTop3 st fun x1 x2 x3 rest => do
    let bn1 ← castNumber num x1
    let bn2 ← castNumber num x2
    let bn3 ← castNumber num x3
    .ok (st.setStack (boolVch (bn2 ≤ bn1 && bn1 < bn3) :: rest))

/-- `OP_PICK` and `OP_ROLL`. -/
def pickOp (num : ScriptNumbers) (fRoll : Bool) (st : EvalState) : OpResult :=
  if st.stack.length < 2 then .error .invalidStackOperation
  else
    withTop1 st fun x rest => do
      let bn ← castNumber num x
      let n := num.getint bn
      if n < 0 then .error .invalidStackOperation
      else
        match rest[n.toNat]? with
        | none => .error .invalidStackOperation
        | some vch => .ok (st.setStack (vch :: if fRoll then rest.eraseIdx n.toNat else rest))

/-! ## The other opcodes -/

/-- `OP_IF` and `OP_NOTIF`. -/
def ifOp (fNot : Bool) (st : EvalState) : OpResult :=
  if st.fExec then
    match st.stack with
    | [] => .error .unbalancedConditional
    | x :: rest =>
        let fValue := if fNot then !castToBool x else castToBool x
        .ok { st with stack := rest, vfExec := fValue :: st.vfExec }
  else .ok { st with vfExec := false :: st.vfExec }

def hashOp (hash : Bytes → Bytes) (st : EvalState) : OpResult :=
  withTop1 st fun x rest => .ok (st.setStack (hash x :: rest))

/-- The opcodes that both versions run the same code for; `pc` is what follows the opcode. -/
def plainOp (c : ScriptCrypto) (num : ScriptNumbers) (opcode : UInt8) (pc : CScript) (st : EvalState) : OpResult :=
  match opcode with
  | OP_NOP => .ok st
  | OP_IF => ifOp false st
  | OP_NOTIF => ifOp true st
  | OP_ELSE =>
      match st.vfExec with
      | [] => .error .unbalancedConditional
      | fValue :: vfExec => .ok { st with vfExec := (!fValue) :: vfExec }
  | OP_ENDIF =>
      match st.vfExec with
      | [] => .error .unbalancedConditional
      | _ :: vfExec => .ok { st with vfExec := vfExec }
  | OP_VERIFY => withTop1 st fun x rest => if castToBool x then .ok (st.setStack rest) else .error .verify
  | OP_RETURN => .error .opReturn
  | OP_TOALTSTACK => withTop1 st fun x rest => .ok { st with stack := rest, altstack := x :: st.altstack }
  | OP_FROMALTSTACK =>
      match st.altstack with
      | [] => .error .invalidAltstackOperation
      | x :: altstack => .ok { st with stack := x :: st.stack, altstack := altstack }
  | OP_2DROP => withTop2 st fun _ _ rest => .ok (st.setStack rest)
  | OP_2DUP => withTop2 st fun x1 x2 rest => .ok (st.setStack (x2 :: x1 :: x2 :: x1 :: rest))
  | OP_3DUP => withTop3 st fun x1 x2 x3 rest => .ok (st.setStack (x3 :: x2 :: x1 :: x3 :: x2 :: x1 :: rest))
  | OP_2OVER => withTop4 st fun x1 x2 x3 x4 rest => .ok (st.setStack (x2 :: x1 :: x4 :: x3 :: x2 :: x1 :: rest))
  | OP_2ROT =>
      match st.stack with
      | x6 :: x5 :: x4 :: x3 :: x2 :: x1 :: rest => .ok (st.setStack (x2 :: x1 :: x6 :: x5 :: x4 :: x3 :: rest))
      | _ => .error .invalidStackOperation
  | OP_2SWAP => withTop4 st fun x1 x2 x3 x4 rest => .ok (st.setStack (x2 :: x1 :: x4 :: x3 :: rest))
  | OP_IFDUP => withTop1 st fun x rest => .ok (st.setStack (if castToBool x then x :: x :: rest else x :: rest))
  | OP_DEPTH => .ok (st.setStack (num.getvch st.stack.length :: st.stack))
  | OP_DROP => withTop1 st fun _ rest => .ok (st.setStack rest)
  | OP_DUP => withTop1 st fun x rest => .ok (st.setStack (x :: x :: rest))
  | OP_NIP => withTop2 st fun _ x2 rest => .ok (st.setStack (x2 :: rest))
  | OP_OVER => withTop2 st fun x1 x2 rest => .ok (st.setStack (x1 :: x2 :: x1 :: rest))
  | OP_PICK => pickOp num false st
  | OP_ROLL => pickOp num true st
  | OP_ROT => withTop3 st fun x1 x2 x3 rest => .ok (st.setStack (x1 :: x3 :: x2 :: rest))
  | OP_SWAP => withTop2 st fun x1 x2 rest => .ok (st.setStack (x1 :: x2 :: rest))
  | OP_TUCK => withTop2 st fun x1 x2 rest => .ok (st.setStack (x2 :: x1 :: x2 :: rest))
  | OP_SIZE => withTop1 st fun x rest => .ok (st.setStack (num.getvch x.length :: x :: rest))
  | OP_EQUAL => withTop2 st fun x1 x2 rest => .ok (st.setStack (boolVch (x1 = x2) :: rest))
  | OP_EQUALVERIFY => withTop2 st fun x1 x2 rest => if x1 = x2 then .ok (st.setStack rest) else .error .equalVerify
  | OP_1ADD | OP_1SUB | OP_NEGATE | OP_ABS | OP_NOT | OP_0NOTEQUAL => unaryOp num opcode st
  | OP_ADD | OP_SUB | OP_BOOLAND | OP_BOOLOR | OP_NUMEQUAL | OP_NUMEQUALVERIFY | OP_NUMNOTEQUAL | OP_LESSTHAN
  | OP_GREATERTHAN | OP_LESSTHANOREQUAL | OP_GREATERTHANOREQUAL | OP_MIN | OP_MAX => binaryOp num opcode st
  | OP_WITHIN => withinOp num st
  | OP_RIPEMD160 => hashOp c.ripemd160 st
  | OP_SHA1 => hashOp c.sha1 st
  | OP_SHA256 => hashOp c.sha256 st
  | OP_HASH160 => hashOp c.hash160 st
  | OP_HASH256 => hashOp (fun x => writeUInt256 (c.hash x)) st
  | OP_CODESEPARATOR => .ok { st with pbegincodehash := pc }
  | _ => .error .badOpcode

/-! ## Signatures -/

/-- What the `VERIFY` form of an opcode does with the result. -/
def pushResult (fVerify fSuccess : Bool) (e : ScriptError) (st : EvalState) (rest : ScriptStack) : OpResult :=
  if fVerify then if fSuccess then .ok (st.setStack rest) else .error e
  else .ok (st.setStack (boolVch fSuccess :: rest))

/-- `OP_CHECKSIG` and `OP_CHECKSIGVERIFY`. -/
def checkSigOp (I : Interpreter) (fVerify : Bool) (st : EvalState) : OpResult × Nat :=
  match st.stack with
  | vchPubKey :: vchSig :: rest =>
      -- Drop the signature, since there's no way for a signature to sign itself
      let scriptCode := st.pbegincodehash.findAndDelete (CScript.push vchSig)
      match I.check vchSig vchPubKey scriptCode with
      | (.error e, n) => (.error e, n)
      | (.ok fSuccess, n) => (pushResult fVerify fSuccess .checkSigVerify st rest, n)
  | _ => (.error .invalidStackOperation, 0)

/-- The loop of `OP_CHECKMULTISIG`, over the signatures and the public keys that are left. -/
def checkMultisigLoop (I : Interpreter) (scriptCode : CScript) :
    List Bytes → List Bytes → Except ScriptError Bool × Nat
  | _, [] => (.ok true, 0)
  | [], _ => (.ok false, 0)
  | vchPubKey :: keys, vchSig :: sigs =>
      match I.check vchSig vchPubKey scriptCode with
      | (.error e, n) => (.error e, n)
      | (.ok fOk, n) =>
          let sigs := if fOk then sigs else vchSig :: sigs
          -- If there are more signatures left than keys left, then too many signatures have failed
          if keys.length < sigs.length then (.ok false, n)
          else
            let r := checkMultisigLoop I scriptCode keys sigs
            (r.1, n + r.2)

/-- The arguments of `OP_CHECKMULTISIG`, once their numbers are known. -/
def checkMultisigArgs (I : Interpreter) (fVerify : Bool) (st : EvalState) (keys sigs rest : ScriptStack) :
    OpResult × Nat :=
  let scriptCode := sigs.foldl (fun scriptCode vchSig => scriptCode.findAndDelete (CScript.push vchSig))
    st.pbegincodehash
  match checkMultisigLoop I scriptCode keys sigs with
  | (.error e, n) => (.error e, n)
  | (.ok fSuccess, n) =>
      match rest with
      | [] => (.error .invalidStackOperation, n)
      | dummy :: rest =>
          if I.nullDummy && dummy.length ≠ 0 then (.error .sigNullDummy, n)
          else (pushResult fVerify fSuccess .checkMultisigVerify st rest, n)

/-- `OP_CHECKMULTISIG` and `OP_CHECKMULTISIGVERIFY`. -/
def checkMultisigOp (I : Interpreter) (fVerify : Bool) (st : EvalState) : OpResult × Nat :=
  match st.stack with
  | [] => (.error .invalidStackOperation, 0)
  | top :: stack =>
      match castNumber I.num top with
      | .error e => (.error e, 0)
      | .ok bn =>
          let nKeysCount := I.num.getint bn
          if nKeysCount < 0 ∨ 20 < nKeysCount then (.error .pubkeyCount, 0)
          else
            let nOpCount := st.nOpCount + nKeysCount.toNat
            if 201 < nOpCount then (.error .opCount, 0)
            else
              match stack.drop nKeysCount.toNat with
              | [] => (.error .invalidStackOperation, 0)
              | top :: afterKeys =>
                  match castNumber I.num top with
                  | .error e => (.error e, 0)
                  | .ok bn =>
                      let nSigsCount := I.num.getint bn
                      if nSigsCount < 0 ∨ nKeysCount < nSigsCount then (.error .sigCount, 0)
                      else if afterKeys.length < nSigsCount.toNat + 1 then (.error .invalidStackOperation, 0)
                      else
                        checkMultisigArgs I fVerify { st with nOpCount := nOpCount } (stack.take nKeysCount.toNat)
                          (afterKeys.take nSigsCount.toNat) (afterKeys.drop nSigsCount.toNat)

/-! ## The loop -/

def isDisabledOpcode (opcode : UInt8) : Bool :=
  [OP_CAT, OP_SUBSTR, OP_LEFT, OP_RIGHT, OP_INVERT, OP_AND, OP_OR, OP_XOR, OP_2MUL, OP_2DIV, OP_MUL, OP_DIV, OP_MOD,
    OP_LSHIFT, OP_RSHIFT].contains opcode

/-- The opcodes that push a number. -/
def isSmallInteger (opcode : UInt8) : Bool := opcode = OP_1NEGATE || OP_1 ≤ opcode && opcode ≤ OP_16

/-- The `switch` over the opcode. -/
def evalOp (c : ScriptCrypto) (I : Interpreter) (opcode : UInt8) (pc : CScript) (st : EvalState) : OpResult × Nat :=
  if isSmallInteger opcode then
    (.ok (st.setStack (I.num.getvch ((opcode.toNat : Int) - (OP_1.toNat - 1)) :: st.stack)), 0)
  else if OP_NOP1 ≤ opcode ∧ opcode ≤ OP_NOP10 then
    match I.nop opcode st.stack with
    | .error e => (.error e, 0)
    | .ok () => (.ok st, 0)
  else if opcode = OP_CHECKSIG ∨ opcode = OP_CHECKSIGVERIFY then checkSigOp I (opcode = OP_CHECKSIGVERIFY) st
  else if opcode = OP_CHECKMULTISIG ∨ opcode = OP_CHECKMULTISIGVERIFY then
    checkMultisigOp I (opcode = OP_CHECKMULTISIGVERIFY) st
  else (plainOp c I.num opcode pc st, 0)

/-- What a round does once the opcode and its operand are known. -/
def evalInstruction (c : ScriptCrypto) (I : Interpreter) (opcode : UInt8) (vchPushValue : Bytes) (pc : CScript)
    (st : EvalState) : OpResult × Nat :=
  if st.fExec ∧ opcode ≤ OP_PUSHDATA4 then
    if !I.pushOk vchPushValue opcode then (.error .minimalData, 0)
    else (.ok (st.setStack (vchPushValue :: st.stack)), 0)
  else if st.fExec ∨ OP_IF ≤ opcode ∧ opcode ≤ OP_ENDIF then evalOp c I opcode pc st
  else (.ok st, 0)

def checkStackSize (st : EvalState) : OpResult :=
  if 1000 < st.stack.length + st.altstack.length then .error .stackSize else .ok st

/-- A round of the loop, for the instruction that was read. -/
def evalStep (c : ScriptCrypto) (I : Interpreter) (opcode : UInt8) (vchPushValue : Bytes) (pc : CScript)
    (st : EvalState) : OpResult × Nat :=
  let st := st.countOp opcode
  if MAX_SCRIPT_ELEMENT_SIZE < vchPushValue.length then (.error .pushSize, 0)
  else if OP_16 < opcode ∧ 201 < st.nOpCount then (.error .opCount, 0)
  else if isDisabledOpcode opcode then (.error .disabledOpcode, 0)
  else
    match evalInstruction c I opcode vchPushValue pc st with
    | (.error e, n) => (.error e, n)
    | (.ok st, n) => (checkStackSize st, n)

/-- The loop. Each instruction takes a byte at least, so that the length of the script bounds the rounds. -/
def evalFrom (c : ScriptCrypto) (I : Interpreter) : Nat → CScript → EvalState → OpResult × Nat
  | 0, _, st => (.ok st, 0)
  | rounds + 1, pc, st =>
      if pc.isEmpty then (.ok st, 0)
      else
        match pc.getOp with
        | none => (.error .badOpcode, 0)
        | some (opcode, vchPushValue, pc) =>
            match evalStep c I opcode vchPushValue pc st with
            | (.error e, n) => (.error e, n)
            | (.ok st, n) =>
                let r := evalFrom c I rounds pc st
                (r.1, n + r.2)

def evalScriptWith (c : ScriptCrypto) (I : Interpreter) (stack : ScriptStack) (script : CScript) :
    Except ScriptError ScriptStack × Nat :=
  if 10000 < script.length then (.error .scriptSize, 0)
  else
    match evalFrom c I script.length script { stack := stack, pbegincodehash := script } with
    | (.error e, n) => (.error e, n)
    | (.ok st, n) => (if st.vfExec ≠ [] then .error .unbalancedConditional else .ok st.stack, n)

namespace CScript

def isPushOnlyFrom : Nat → CScript → Bool
  | 0, _ => true
  | rounds + 1, pc =>
      if pc.isEmpty then true
      else
        match getOp pc with
        | none => false
        | some (opcode, _, pc) => if OP_16 < opcode then false else isPushOnlyFrom rounds pc

def isPushOnly (script : CScript) : Bool := isPushOnlyFrom script.length script

end CScript

/-! ## Over CBigNum -/

section CBigNum

variable {c : ScriptCrypto} (cache : CSignatureCache c) (txTo : CTransaction) (nIn : Nat) (flags : ScriptFlags)
  (nHashType : UInt32)

def bigNumbers : ScriptNumbers where
  cast vch := castToBigNum vch nDefaultMaxNumSize
  getint := CBigNum.getint
  getvch := ProCurrency.getvch

/-- `CheckSignatureEncoding(vchSig, flags)`. -/
def checkSignatureEncoding (vchSig : Bytes) : Bool :=
  if hasFlag flags SCRIPT_VERIFY_ALLOW_EMPTY_SIG && vchSig.isEmpty then true
  else if !isDERSignature vchSig true then false
  else if !hasFlag flags SCRIPT_VERIFY_FIX_HASHTYPE && !isDefinedHashtypeSignature vchSig then false
  else true

/-- `CheckLockTime`. The input is one of the transaction's. -/
def checkLockTime (nLockTime : Int) : Bool :=
  let txLockTime : Int := txTo.nLockTime.toNat
  let threshold : Int := LOCKTIME_THRESHOLD
  if ¬ (txLockTime < threshold ∧ nLockTime < threshold ∨ threshold ≤ txLockTime ∧ threshold ≤ nLockTime) then false
  else if txLockTime < nLockTime then false
  else
    match txTo.vin[nIn]? with
    | none => false
    | some txin => !txin.isFinal

/-- `OP_CHECKLOCKTIMEVERIFY`, where it is enabled. -/
def checkLockTimeVerify (stack : ScriptStack) : Except ScriptError Unit :=
  match stack with
  | [] => .error .unknownError
  | x :: _ =>
      match castToBigNum x 5 with
      | none => .error .unknownError
      | some nLockTime =>
          if nLockTime < 0 ∨ !checkLockTime txTo nIn nLockTime then .error .unknownError else .ok ()

def discouragedNop : Except ScriptError Unit :=
  if hasFlag flags SCRIPT_VERIFY_DISCOURAGE_UPGRADABLE_NOPS then .error .discourageUpgradableNops else .ok ()

/-- This version has no case for `OP_NOP10`. Its errors have no codes. -/
def bigNumInterpreter : Interpreter where
  num := bigNumbers
  pushOk _ _ := true
  nop opcode stack :=
    if opcode = OP_CHECKLOCKTIMEVERIFY then
      if !hasFlag flags SCRIPT_VERIFY_CHECKLOCKTIMEVERIFY then discouragedNop flags
      else checkLockTimeVerify txTo nIn stack
    else if opcode = OP_NOP10 then .error .badOpcode
    else discouragedNop flags
  check vchSig vchPubKey scriptCode :=
    let fEncoded := checkSignatureEncoding flags vchSig && isCompressedOrUncompressedPubKey vchPubKey
    if hasFlag flags SCRIPT_VERIFY_STRICTENC && !fEncoded then (.error .unknownError, 0)
    else if fEncoded then (.ok (checkSig cache vchSig vchPubKey scriptCode txTo nIn nHashType), 1)
    else (.ok false, 0)
  nullDummy := hasFlag flags SCRIPT_VERIFY_NULLDUMMY

/-- `EvalScript(stack, script, txTo, nIn, flags, nHashType)`: the stack when it returns true. -/
def evalScript (stack : ScriptStack) (script : CScript) : Option ScriptStack × Nat :=
  let r := evalScriptWith c (bigNumInterpreter cache txTo nIn flags nHashType) stack script
  (r.1.toOption, r.2)

/-- `VerifyScript(scriptSig, scriptPubKey, txTo, nIn, flags, nHashType)`, with the calls of `CheckSig` that the
evaluation of the redeem script makes. -/
def verifyScript (scriptSig scriptPubKey : CScript) : Bool × Nat :=
  match (evalScript cache txTo nIn flags nHashType [] scriptSig).1 with
  | none => (false, 0)
  | some stackCopy =>
      match (evalScript cache txTo nIn flags nHashType stackCopy scriptPubKey).1 with
      | none | some [] => (false, 0)
      | some (back :: _) =>
          if !castToBool back then (false, 0)
          else if hasFlag flags SCRIPT_VERIFY_P2SH && scriptPubKey.isPayToScriptHash then
            if !scriptSig.isPushOnly then (false, 0)
            else
              match stackCopy with
              -- Not reached: `scriptPubKey` has hashed the top of this stack.
              | [] => (false, 0)
              | pubKeySerialized :: stackCopy =>
                  let r := evalScript cache txTo nIn flags nHashType stackCopy pubKeySerialized
                  match r.1 with
                  | none | some [] => (false, r.2)
                  | some (back :: _) => (castToBool back, r.2)
          else (true, 0)

end CBigNum

/-! ## Over CScriptNum -/

section CScriptNum

variable (c : ScriptCrypto) (checker : BaseSignatureChecker) (flags : ScriptFlags)

def scriptNumbers (fRequireMinimal : Bool) : ScriptNumbers where
  cast vch := CScriptNum.ofVch vch fRequireMinimal
  getint := CScriptNum.getint
  getvch := CScriptNum.serialize

def checkMinimalPush (data : Bytes) (opcode : UInt8) : Bool :=
  match data with
  | [] => opcode = 0
  | [b] =>
      if 1 ≤ b ∧ b ≤ 16 then opcode = OP_1 + (b - 1)
      else if b = 0x81 then opcode = OP_1NEGATE
      else opcode.toNat = 1
  | _ =>
      if data.length ≤ 75 then opcode.toNat = data.length
      else if data.length ≤ 255 then opcode = OP_PUSHDATA1
      else if data.length ≤ 65535 then opcode = OP_PUSHDATA2
      else true

/-- `CheckSignatureEncoding(vchSig, flags, serror)`. -/
def checkSignatureEncodingError (vchSig : Bytes) : Except ScriptError Unit :=
  if flags &&& (SCRIPT_VERIFY_DERSIG ||| SCRIPT_VERIFY_LOW_S ||| SCRIPT_VERIFY_STRICTENC) ≠ 0 ∧
      !isDERSignature vchSig true then .error .sigDer
  else if hasFlag flags SCRIPT_VERIFY_LOW_S ∧ !(isDERSignature vchSig true && c.checkLowS vchSig.dropLast) then
    .error .unknownError
  else if hasFlag flags SCRIPT_VERIFY_STRICTENC ∧ !isDefinedHashtypeSignature vchSig then .error .sigHashtype
  else .ok ()

/-- `CheckPubKeyEncoding(vchPubKey, flags, serror)`. -/
def checkPubKeyEncodingError (vchPubKey : Bytes) : Except ScriptError Unit :=
  if hasFlag flags SCRIPT_VERIFY_STRICTENC ∧ !isCompressedOrUncompressedPubKey vchPubKey then .error .pubkeyType
  else .ok ()

def scriptNumInterpreter : Interpreter where
  num := scriptNumbers (hasFlag flags SCRIPT_VERIFY_MINIMALDATA)
  pushOk vchPushValue opcode := !hasFlag flags SCRIPT_VERIFY_MINIMALDATA || checkMinimalPush vchPushValue opcode
  nop _ _ := discouragedNop flags
  check vchSig vchPubKey scriptCode :=
    match checkSignatureEncodingError c flags vchSig with
    | .error e => (.error e, 0)
    | .ok () =>
        match checkPubKeyEncodingError flags vchPubKey with
        | .error e => (.error e, 0)
        | .ok () => (.ok (checker.checkSig vchSig vchPubKey scriptCode), 1)
  nullDummy := hasFlag flags SCRIPT_VERIFY_NULLDUMMY

namespace BaseSignatureChecker

/-- `EvalScript(stack, script, flags, checker, serror)`. -/
def evalScript (stack : ScriptStack) (script : CScript) : Except ScriptError ScriptStack × Nat :=
  evalScriptWith c (scriptNumInterpreter c checker flags) stack script

/-- `VerifyScript(scriptSig, scriptPubKey, flags, checker, serror)`. -/
def verifyScript (scriptSig scriptPubKey : CScript) : Except ScriptError Unit :=
  if hasFlag flags SCRIPT_VERIFY_SIGPUSHONLY ∧ !scriptSig.isPushOnly then .error .sigPushOnly
  else
    match (checker.evalScript c flags [] scriptSig).1 with
    | .error e => .error e
    | .ok stackCopy =>
        match (checker.evalScript c flags stackCopy scriptPubKey).1 with
        | .error e => .error e
        | .ok [] => .error .evalFalse
        | .ok (back :: _) =>
            if !castToBool back then .error .evalFalse
            else if hasFlag flags SCRIPT_VERIFY_P2SH && scriptPubKey.isPayToScriptHash then
              if !scriptSig.isPushOnly then .error .sigPushOnly
              else
                match stackCopy with
                -- The assertion: `scriptPubKey` has hashed the top of this stack.
                | [] => .error .unknownError
                | pubKeySerialized :: stackCopy =>
                    match (checker.evalScript c flags stackCopy pubKeySerialized).1 with
                    | .error e => .error e
                    | .ok [] => .error .evalFalse
                    | .ok (back :: _) => if !castToBool back then .error .evalFalse else .ok ()
            else .ok ()

end BaseSignatureChecker

end CScriptNum

end ProCurrency

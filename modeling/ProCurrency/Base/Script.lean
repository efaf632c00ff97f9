import Mathlib.Algebra.GroupWithZero.Nat
import ProCurrency.Base.Transaction

/-!
# Signature operations of a script

`CScript::GetOp2`, `CScript::GetSigOpCount` (script.h, script.cpp) and `GetLegacySigOpCount` (main.cpp).
-/

namespace ProCurrency

open ByteCodec

/-! ## Opcodes -/

@[match_pattern] def OP_PUSHDATA1 : UInt8 := 0x4c
@[match_pattern] def OP_PUSHDATA2 : UInt8 := 0x4d
@[match_pattern] def OP_PUSHDATA4 : UInt8 := 0x4e
@[match_pattern] def OP_1NEGATE : UInt8 := 0x4f
@[match_pattern] def OP_1 : UInt8 := 0x51
@[match_pattern] def OP_16 : UInt8 := 0x60
@[match_pattern] def OP_NOP : UInt8 := 0x61
@[match_pattern] def OP_IF : UInt8 := 0x63
@[match_pattern] def OP_NOTIF : UInt8 := 0x64
@[match_pattern] def OP_ELSE : UInt8 := 0x67
@[match_pattern] def OP_ENDIF : UInt8 := 0x68
@[match_pattern] def OP_VERIFY : UInt8 := 0x69
@[match_pattern] def OP_RETURN : UInt8 := 0x6a
@[match_pattern] def OP_TOALTSTACK : UInt8 := 0x6b
@[match_pattern] def OP_FROMALTSTACK : UInt8 := 0x6c
@[match_pattern] def OP_2DROP : UInt8 := 0x6d
@[match_pattern] def OP_2DUP : UInt8 := 0x6e
@[match_pattern] def OP_3DUP : UInt8 := 0x6f
@[match_pattern] def OP_2OVER : UInt8 := 0x70
@[match_pattern] def OP_2ROT : UInt8 := 0x71
@[match_pattern] def OP_2SWAP : UInt8 := 0x72
@[match_pattern] def OP_IFDUP : UInt8 := 0x73
@[match_pattern] def OP_DEPTH : UInt8 := 0x74
@[match_pattern] def OP_DROP : UInt8 := 0x75
@[match_pattern] def OP_DUP : UInt8 := 0x76
@[match_pattern] def OP_NIP : UInt8 := 0x77
@[match_pattern] def OP_OVER : UInt8 := 0x78
@[match_pattern] def OP_PICK : UInt8 := 0x79
@[match_pattern] def OP_ROLL : UInt8 := 0x7a
@[match_pattern] def OP_ROT : UInt8 := 0x7b
@[match_pattern] def OP_SWAP : UInt8 := 0x7c
@[match_pattern] def OP_TUCK : UInt8 := 0x7d
@[match_pattern] def OP_CAT : UInt8 := 0x7e
@[match_pattern] def OP_SUBSTR : UInt8 := 0x7f
@[match_pattern] def OP_LEFT : UInt8 := 0x80
@[match_pattern] def OP_RIGHT : UInt8 := 0x81
@[match_pattern] def OP_SIZE : UInt8 := 0x82
@[match_pattern] def OP_INVERT : UInt8 := 0x83
@[match_pattern] def OP_AND : UInt8 := 0x84
@[match_pattern] def OP_OR : UInt8 := 0x85
@[match_pattern] def OP_XOR : UInt8 := 0x86
@[match_pattern] def OP_EQUAL : UInt8 := 0x87
@[match_pattern] def OP_EQUALVERIFY : UInt8 := 0x88
@[match_pattern] def OP_1ADD : UInt8 := 0x8b
@[match_pattern] def OP_1SUB : UInt8 := 0x8c
@[match_pattern] def OP_2MUL : UInt8 := 0x8d
@[match_pattern] def OP_2DIV : UInt8 := 0x8e
@[match_pattern] def OP_NEGATE : UInt8 := 0x8f
@[match_pattern] def OP_ABS : UInt8 := 0x90
@[match_pattern] def OP_NOT : UInt8 := 0x91
@[match_pattern] def OP_0NOTEQUAL : UInt8 := 0x92
@[match_pattern] def OP_ADD : UInt8 := 0x93
@[match_pattern] def OP_SUB : UInt8 := 0x94
@[match_pattern] def OP_MUL : UInt8 := 0x95
@[match_pattern] def OP_DIV : UInt8 := 0x96
@[match_pattern] def OP_MOD : UInt8 := 0x97
@[match_pattern] def OP_LSHIFT : UInt8 := 0x98
@[match_pattern] def OP_RSHIFT : UInt8 := 0x99
@[match_pattern] def OP_BOOLAND : UInt8 := 0x9a
@[match_pattern] def OP_BOOLOR : UInt8 := 0x9b
@[match_pattern] def OP_NUMEQUAL : UInt8 := 0x9c
@[match_pattern] def OP_NUMEQUALVERIFY : UInt8 := 0x9d
@[match_pattern] def OP_NUMNOTEQUAL : UInt8 := 0x9e
@[match_pattern] def OP_LESSTHAN : UInt8 := 0x9f
@[match_pattern] def OP_GREATERTHAN : UInt8 := 0xa0
@[match_pattern] def OP_LESSTHANOREQUAL : UInt8 := 0xa1
@[match_pattern] def OP_GREATERTHANOREQUAL : UInt8 := 0xa2
@[match_pattern] def OP_MIN : UInt8 := 0xa3
@[match_pattern] def OP_MAX : UInt8 := 0xa4
@[match_pattern] def OP_WITHIN : UInt8 := 0xa5
@[match_pattern] def OP_RIPEMD160 : UInt8 := 0xa6
@[match_pattern] def OP_SHA1 : UInt8 := 0xa7
@[match_pattern] def OP_SHA256 : UInt8 := 0xa8
@[match_pattern] def OP_HASH160 : UInt8 := 0xa9
@[match_pattern] def OP_HASH256 : UInt8 := 0xaa
@[match_pattern] def OP_CODESEPARATOR : UInt8 := 0xab
@[match_pattern] def OP_CHECKSIG : UInt8 := 0xac
@[match_pattern] def OP_CHECKSIGVERIFY : UInt8 := 0xad
@[match_pattern] def OP_CHECKMULTISIG : UInt8 := 0xae
@[match_pattern] def OP_CHECKMULTISIGVERIFY : UInt8 := 0xaf
@[match_pattern] def OP_NOP1 : UInt8 := 0xb0
@[match_pattern] def OP_CHECKLOCKTIMEVERIFY : UInt8 := 0xb1
@[match_pattern] def OP_NOP3 : UInt8 := 0xb2
@[match_pattern] def OP_NOP9 : UInt8 := 0xb8
@[match_pattern] def OP_NOP10 : UInt8 := 0xb9
@[match_pattern] def OP_ANON_MARKER : UInt8 := 0xb9
@[match_pattern] def OP_INVALIDOPCODE : UInt8 := 0xff

/-! ## Reading a script -/

namespace CScript

/-- `GetOp2`: the opcode, what it pushes and the rest of the script. What is left of a script has less than `2 ^ 32`
bytes here; `getOp2` has the cast to 32 bits. -/
def getOp : CScript → Option (UInt8 × List UInt8 × CScript)
  | [] => none
  | opcode :: pc =>
      if OP_PUSHDATA4 < opcode then some (opcode, [], pc)
      else
        let sized : Option (Nat × List UInt8) :=
          if opcode < OP_PUSHDATA1 then some (opcode.toNat, pc)
          else if opcode = OP_PUSHDATA1 then readLe 1 pc
          else if opcode = OP_PUSHDATA2 then readLe 2 pc
          else readLe 4 pc
        match sized with
        | none => none
        | some (nSize, pc) =>
            if pc.length < nSize then none else some (opcode, pc.take nSize, pc.drop nSize)

/-- `DecodeOP_N`. -/
def decodeOpN (opcode : UInt8) : Nat := opcode.toNat - (OP_1.toNat - 1)

/-- What one opcode adds to the count. -/
def sigOpsOf (fAccurate : Bool) (lastOpcode opcode : UInt8) : Nat :=
  if opcode = OP_CHECKSIG ∨ opcode = OP_CHECKSIGVERIFY then 1
  else if opcode = OP_CHECKMULTISIG ∨ opcode = OP_CHECKMULTISIGVERIFY then
    if fAccurate ∧ OP_1 ≤ lastOpcode ∧ lastOpcode ≤ OP_16 then decodeOpN lastOpcode else 20
  else 0

/-- The loop of `GetSigOpCount`. Each opcode takes a byte at least, so that the length of the script bounds the
rounds. -/
def sigOpCountFrom (fAccurate : Bool) (lastOpcode : UInt8) : Nat → CScript → Nat
  | 0, _ => 0
  | rounds + 1, pc =>
      match getOp pc with
      | none => 0
      | some (opcode, _, pc) =>
          sigOpsOf fAccurate lastOpcode opcode + sigOpCountFrom fAccurate opcode rounds pc

def getSigOpCount (script : CScript) (fAccurate : Bool) : Nat :=
  sigOpCountFrom fAccurate OP_INVALIDOPCODE script.length script

def isPayToScriptHash (script : CScript) : Bool :=
  script.length == 23 && script.getD 0 0 == OP_HASH160 && script.getD 1 0 == 0x14 &&
    script.getD 22 0 == OP_EQUAL

/-- What `scriptSig` pushes last; `none` when it does anything else than to push. -/
def lastPushed (data : List UInt8) : Nat → CScript → Option (List UInt8)
  | 0, _ => some data
  | rounds + 1, pc =>
      if pc.isEmpty then some data
      else match getOp pc with
        | none => none
        | some (opcode, data, pc) => if OP_16 < opcode then none else lastPushed data rounds pc

/-- `GetSigOpCount` with the script that spends it. -/
def getP2SHSigOpCount (script scriptSig : CScript) : Nat :=
  if !script.isPayToScriptHash then script.getSigOpCount true
  else
    match lastPushed [] scriptSig.length scriptSig with
    | none => 0
    | some data => getSigOpCount data true

/-! ## The rounds suffice -/

theorem length_readLe {size nSize : Nat} {s rest : List UInt8} (h : readLe size s = some (nSize, rest)) :
    rest.length ≤ s.length := by
  rw [readLe, readBytes] at h
  split_ifs at h with hlt
  cases h
  rw [List.length_drop]
  exact Nat.sub_le _ _

theorem length_getOp {script pc : CScript} {opcode : UInt8} {data : List UInt8}
    (h : getOp script = some (opcode, data, pc)) : pc.length < script.length := by
  cases script with
  | nil => cases h
  | cons op rest =>
      have hsized : ∀ {nSize : Nat} {s : List UInt8} (_ : s.length ≤ rest.length),
          (if s.length < nSize then none else some (op, s.take nSize, s.drop nSize)) =
            some (opcode, data, pc) → pc.length < (op :: rest).length := by
        intro nSize s hs h
        split_ifs at h
        cases h
        rw [List.length_drop, List.length_cons]
        omega
      simp only [getOp] at h
      split_ifs at h with _ h1 h2 h3
      · cases h
        exact Nat.lt_succ_self _
      · exact hsized (Nat.le_refl _) h
      · cases hr : readLe 1 rest with
        | none => simp [hr] at h
        | some r => rw [hr] at h; exact hsized (length_readLe hr) h
      · cases hr : readLe 2 rest with
        | none => simp [hr] at h
        | some r => rw [hr] at h; exact hsized (length_readLe hr) h
      · cases hr : readLe 4 rest with
        | none => simp [hr] at h
        | some r => rw [hr] at h; exact hsized (length_readLe hr) h

end CScript

namespace CTransaction

def getLegacySigOpCount (tx : CTransaction) : Nat :=
  (tx.vin.map fun txin => txin.scriptSig.getSigOpCount false).sum +
    (tx.vout.map fun txout => txout.scriptPubKey.getSigOpCount false).sum

end CTransaction

end ProCurrency

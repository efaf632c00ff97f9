import ProCurrency.Encoding.Destination
import ProCurrency.Script.Signature

/-!
# Destinations of a script

`Solver`, `ExtractDestination`, `ExtractDestinations`, `GetScriptForDestination` and `GetScriptForMultisig`
(script.cpp). A result is `none` where the code reads outside of a vector.
-/

namespace ProCurrency

open ByteCodec CBitcoinAddress

def MAX_OP_RETURN_RELAY : Nat := 48

/-! ## Templates -/

def OP_0 : UInt8 := 0x00
def OP_SMALLDATA : UInt8 := 0xf9
def OP_SMALLINTEGER : UInt8 := 0xfa
def OP_PUBKEYS : UInt8 := 0xfb
def OP_PUBKEYHASH : UInt8 := 0xfd
def OP_PUBKEY : UInt8 := 0xfe

/-- `txnouttype`. -/
inductive TxnOutType
  | nonstandard
  | pubKey
  | pubKeyHash
  | scriptHash
  | multisig
  | nullData
deriving DecidableEq

/-- In the order of the `multimap`. -/
def mTemplates : List (TxnOutType × CScript) :=
  [(.pubKey, [OP_PUBKEY, OP_CHECKSIG]),
   (.pubKeyHash, [OP_DUP, OP_HASH160, OP_PUBKEYHASH, OP_EQUALVERIFY, OP_CHECKSIG]),
   (.multisig, [OP_SMALLINTEGER, OP_PUBKEYS, OP_SMALLINTEGER, OP_CHECKMULTISIG]),
   (.nullData, [OP_RETURN]),
   (.nullData, [OP_RETURN, OP_SMALLDATA]),
   (.nullData, [OP_RETURN, OP_SMALLDATA, OP_RETURN, OP_SMALLDATA])]

/-- `sizeof(uint160)`. -/
def SIZE_OF_UINT160 : Nat := 20

def isPubKeySize (vch : Bytes) : Bool := 33 ≤ vch.length && vch.length ≤ 120

def isSmallIntegerOp (opcode : UInt8) : Bool := opcode = OP_0 || OP_1 ≤ opcode && opcode ≤ OP_16

/-- The inner loop for `OP_PUBKEYS`. When a read fails the cursor is left somewhere, and `OP_INVALIDOPCODE` is no opcode
that a template goes on with. -/
def takePubKeys (vSolutions : List Bytes) (opcode1 : UInt8) (vch1 : Bytes) :
    Nat → CScript → List Bytes × UInt8 × Bytes × CScript
  | 0, pc1 => (vSolutions, opcode1, vch1, pc1)
  | rounds + 1, pc1 =>
      if isPubKeySize vch1 then
        match CScript.getOp pc1 with
        | none => (vSolutions ++ [vch1], OP_INVALIDOPCODE, [], pc1)
        | some (opcode, vch, pc1) => takePubKeys (vSolutions ++ [vch1]) opcode vch rounds pc1
      else (vSolutions, opcode1, vch1, pc1)

/-- One opcode of the script against one of the template; `none` when they do not match. -/
def matchOp (vSolutions : List Bytes) (opcode1 : UInt8) (vch1 : Bytes) (opcode2 : UInt8) (vch2 : Bytes) :
    Option (List Bytes) :=
  if opcode2 = OP_PUBKEY then if !isPubKeySize vch1 then none else some (vSolutions ++ [vch1])
  else if opcode2 = OP_PUBKEYHASH then if vch1.length ≠ SIZE_OF_UINT160 then none else some (vSolutions ++ [vch1])
  else if opcode2 = OP_SMALLINTEGER then
    if isSmallIntegerOp opcode1 then some (vSolutions ++ [[UInt8.ofNat (CScript.decodeOpN opcode1)]]) else none
  else if opcode2 = OP_SMALLDATA then if MAX_OP_RETURN_RELAY < vch1.length then none else some vSolutions
  else if opcode1 ≠ opcode2 ∨ vch1 ≠ vch2 then none
  else some vSolutions

/-- The loop over the opcodes. Each round takes a byte of the template at least. -/
def matchFrom (vSolutions : List Bytes) : Nat → CScript → CScript → Option (List Bytes)
  | 0, _, _ => none
  | rounds + 1, pc1, pc2 =>
      if pc1 = [] ∧ pc2 = [] then some vSolutions
      else
        match CScript.getOp pc1, CScript.getOp pc2 with
        | some (opcode1, vch1, pc1), some (opcode2, vch2, pc2) =>
            if opcode2 = OP_PUBKEYS then
              let (vSolutions, opcode1, vch1, pc1) := takePubKeys vSolutions opcode1 vch1 (pc1.length + 1) pc1
              match CScript.getOp pc2 with
              | none => none
              | some (opcode2, vch2, pc2) =>
                  match matchOp vSolutions opcode1 vch1 opcode2 vch2 with
                  | none => none
                  | some vSolutions => matchFrom vSolutions rounds pc1 pc2
            else
              match matchOp vSolutions opcode1 vch1 opcode2 vch2 with
              | none => none
              | some vSolutions => matchFrom vSolutions rounds pc1 pc2
        | _, _ => none

def matchTemplate (script1 script2 : CScript) : Option (List Bytes) :=
  matchFrom [] (script2.length + 1) script1 script2

/-- "Additional checks for TX_MULTISIG". -/
def checkMultisig (vSolutions : List Bytes) : Option Bool := do
  let m ← (← vSolutions.head?).head?
  let n ← (← vSolutions.getLast?).head?
  return !(m < 1 || n < 1 || n < m || (vSolutions.length : Int) - 2 ≠ n.toNat)

/-! ## Solver -/

/-- What `Solver` returns, with `typeRet` and `vSolutionsRet`. -/
abbrev Solved := Bool × TxnOutType × List Bytes

def scanTemplates (script1 : CScript) : List (TxnOutType × CScript) → Option Solved
  | [] => some (false, .nonstandard, [])
  | (typeRet, script2) :: templates =>
      match matchTemplate script1 script2 with
      | none => scanTemplates script1 templates
      | some vSolutions =>
          if typeRet = .multisig then (checkMultisig vSolutions).map fun fRet => (fRet, typeRet, vSolutions)
          else some (true, typeRet, vSolutions)

def solver (scriptPubKey : CScript) : Option Solved :=
  if scriptPubKey.isPayToScriptHash then some (true, .scriptHash, [(scriptPubKey.drop 2).take 20])
  else scanTemplates scriptPubKey mTemplates

/-! ## Destinations -/

/-- `uint160(vch)`. -/
def uint160OfVch (vch : Bytes) : CKeyID := if vch.length = SIZE_OF_UINT160 then readKeyID vch else 0

/-- `CPubKey::GetID`. -/
def CPubKey.getID (c : ScriptCrypto) (pubkey : CPubKey) : CKeyID := readKeyID (c.hash160 pubkey)

section Destinations

variable {order : Nat} (c : ScriptCrypto)

/-- `ExtractDestination`; the inner `none` when it returns false. -/
def extractDestination (scriptPubKey : CScript) : Option (Option (Destination order)) :=
  match solver scriptPubKey with
  | none => none
  | some (false, _, _) => some none
  | some (true, whichType, vSolutions) =>
      match whichType with
      | .pubKey => vSolutions[0]?.map fun vch => some (.keyID (CPubKey.getID c (CPubKey.set vch)))
      | .pubKeyHash => vSolutions[0]?.map fun vch => some (.keyID (uint160OfVch vch))
      | .scriptHash => vSolutions[0]?.map fun vch => some (.scriptID (uint160OfVch vch))
      | _ => some none

/-- The result of `ExtractDestinations`, with `typeRet`, `addressRet` and `nRequiredRet` when it is true. -/
abbrev Extracted (order : Nat) := TxnOutType × List (Destination order) × Nat

def extractDestinations (scriptPubKey : CScript) : Option (Option (Extracted order)) :=
  match solver scriptPubKey with
  | none => none
  | some (false, _, _) => some none
  | some (true, .nullData, _) => some none
  | some (true, .multisig, vSolutions) => do
      let nRequired ← (← vSolutions.head?).head?
      let keys := (vSolutions.drop 1).take (vSolutions.length - 2)
      return some (.multisig, keys.map fun vch => .keyID (CPubKey.getID c (CPubKey.set vch)), nRequired.toNat)
  | some (true, typeRet, _) => do
      match ← extractDestination c scriptPubKey with
      | none => return none
      | some address => return some (typeRet, [address], 1)

/-- `GetScriptForDestination`. -/
def getScriptForDestination : Destination order → CScript
  | .keyID keyID => [OP_DUP, OP_HASH160] ++ 20 :: writeKeyID keyID ++ [OP_EQUALVERIFY, OP_CHECKSIG]
  | .scriptID scriptID => [OP_HASH160] ++ 20 :: writeKeyID scriptID ++ [OP_EQUAL]
  | _ => []

/-- `EncodeOP_N`, for what its assertion lets through. -/
def encodeOpN (n : Nat) : UInt8 := if n = 0 then OP_0 else UInt8.ofNat (OP_1.toNat + n - 1)

def getScriptForMultisig (nRequired : Nat) (keys : List CPubKey) : CScript :=
  encodeOpN nRequired :: (keys.flatMap CScript.push ++ [encodeOpN keys.length, OP_CHECKMULTISIG])

end Destinations

/-! ## Single opcodes -/

namespace CScript

theorem getOp_opcode {opcode : UInt8} (h : OP_PUSHDATA4 < opcode) (pc : CScript) :
    getOp (opcode :: pc) = some (opcode, [], pc) := if_pos h

/-- The number of bytes that the length takes. -/
def pushSize : UInt8 → Option Nat
  | OP_PUSHDATA1 => some 1
  | OP_PUSHDATA2 => some 2
  | OP_PUSHDATA4 => some 4
  | _ => none

theorem pushOpcode_cases {opcode : UInt8} (h : ¬ OP_PUSHDATA4 < opcode) :
    opcode < OP_PUSHDATA1 ∨ opcode = OP_PUSHDATA1 ∨ opcode = OP_PUSHDATA2 ∨ opcode = OP_PUSHDATA4 := by
  rw [UInt8.not_lt, UInt8.le_iff_toNat_le] at h
  rw [UInt8.lt_iff_toNat_lt, ← UInt8.toNat_inj, ← UInt8.toNat_inj, ← UInt8.toNat_inj]
  have hhigh : opcode.toNat ≤ 0x4e := h
  change opcode.toNat < 0x4c ∨ opcode.toNat = 0x4c ∨ opcode.toNat = 0x4d ∨ opcode.toNat = 0x4e
  omega

theorem pushSize_of_lt {opcode : UInt8} (h : opcode < OP_PUSHDATA1) : pushSize opcode = none := by
  unfold pushSize
  split
  · exact absurd h (by decide)
  · exact absurd h (by decide)
  · exact absurd h (by decide)
  · rfl

theorem lt_of_pushSize {opcode : UInt8} (h : ¬ OP_PUSHDATA4 < opcode) (hsize : pushSize opcode = none) :
    opcode < OP_PUSHDATA1 := by
  rcases pushOpcode_cases h with hlt | rfl | rfl | rfl
  · exact hlt
  · cases hsize
  · cases hsize
  · cases hsize

theorem not_lt_of_pushSize {opcode : UInt8} {size : Nat} (hsize : pushSize opcode = some size) :
    ¬ OP_PUSHDATA4 < opcode := by
  unfold pushSize at hsize
  split at hsize
  · decide
  · decide
  · decide
  · cases hsize

/-- The operand of a push, in terms of what comes after the opcode. -/
def sizedOperand (opcode : UInt8) (s : Bytes) : Option (Nat × Bytes) :=
  match pushSize opcode with
  | none => some (opcode.toNat, s)
  | some size => readLe size s

theorem getOp_cons {opcode : UInt8} (h : ¬ OP_PUSHDATA4 < opcode) (s : Bytes) :
    getOp (opcode :: s) = match sizedOperand opcode s with
      | none => none
      | some (nSize, s) => if s.length < nSize then none else some (opcode, s.take nSize, s.drop nSize) := by
  have hsized : sizedOperand opcode s =
      if opcode < OP_PUSHDATA1 then some (opcode.toNat, s)
      else if opcode = OP_PUSHDATA1 then readLe 1 s
      else if opcode = OP_PUSHDATA2 then readLe 2 s
      else readLe 4 s := by
    rw [sizedOperand]
    rcases pushOpcode_cases h with hlt | rfl | rfl | rfl
    · rw [pushSize_of_lt hlt, if_pos hlt]
    · rfl
    · rfl
    · rfl
  rw [hsized, getOp, if_neg h]
  rfl

/-- The three kinds of opcodes. -/
theorem getOp_cases {pc rest : CScript} {opcode : UInt8} {vch : Bytes} (h : getOp pc = some (opcode, vch, rest)) :
    (OP_PUSHDATA4 < opcode ∧ vch = [] ∧ pc = opcode :: rest) ∨
      (opcode < OP_PUSHDATA1 ∧ opcode.toNat = vch.length ∧ pc = opcode :: (vch ++ rest)) ∨
      ∃ size, pushSize opcode = some size ∧ vch.length < 256 ^ size ∧
        pc = opcode :: (leBytes size vch.length ++ (vch ++ rest)) := by
  cases pc with
  | nil => cases h
  | cons op pc =>
      by_cases h4 : OP_PUSHDATA4 < op
      · rw [getOp_opcode h4] at h
        cases h
        exact Or.inl ⟨h4, rfl, rfl⟩
      · rw [getOp_cons h4] at h
        cases hsized : sizedOperand op pc with
        | none => rw [hsized] at h; cases h
        | some r =>
            obtain ⟨nSize, s⟩ := r
            rw [hsized] at h
            dsimp only at h
            split_ifs at h with hlt
            cases h
            have hlen : (s.take nSize).length = nSize := List.length_take_of_le (Nat.not_lt.1 hlt)
            have hs := List.take_append_drop nSize s
            rw [sizedOperand] at hsized
            cases hsize : pushSize opcode with
            | none =>
                rw [hsize] at hsized
                cases hsized
                exact Or.inr (Or.inl ⟨lt_of_pushSize h4 hsize, hlen.symm, by rw [hs]⟩)
            | some size =>
                rw [hsize] at hsized
                obtain ⟨hpc, hbound⟩ := readLe_eq_some hsized
                exact Or.inr (Or.inr ⟨size, rfl, hlen.symm ▸ hbound, by rw [hlen, hs, hpc]⟩)

theorem getOp_direct {vch : Bytes} (h : vch.length < OP_PUSHDATA1.toNat) (rest : CScript) :
    getOp (UInt8.ofNat vch.length :: (vch ++ rest)) = some (UInt8.ofNat vch.length, vch, rest) := by
  have h' : vch.length < 76 := h
  have hlen : (UInt8.ofNat vch.length).toNat = vch.length := UInt8.toNat_ofNat_of_lt' (Nat.lt_trans h (by decide))
  have hlow : UInt8.ofNat vch.length < OP_PUSHDATA1 := UInt8.lt_iff_toNat_lt.2 (by rw [hlen]; exact h)
  have hnot : ¬ OP_PUSHDATA4 < UInt8.ofNat vch.length := by
    rw [UInt8.not_lt, UInt8.le_iff_toNat_le, hlen]
    exact Nat.le_of_lt (Nat.lt_of_lt_of_le h' (by decide))
  rw [getOp, if_neg hnot, if_pos hlow]
  dsimp only
  rw [hlen, if_neg (by rw [List.length_append]; omega), List.take_left, List.drop_left]

theorem getOp_long {opcode : UInt8} {size : Nat} {vch : Bytes} (hsize : pushSize opcode = some size)
    (h : vch.length < 256 ^ size) (rest : CScript) :
    getOp (opcode :: (leBytes size vch.length ++ (vch ++ rest))) = some (opcode, vch, rest) := by
  have hnot : ¬ (vch ++ rest).length < vch.length := by rw [List.length_append]; omega
  have hsized : sizedOperand opcode (leBytes size vch.length ++ (vch ++ rest)) = some (vch.length, vch ++ rest) := by
    rw [sizedOperand, hsize]
    exact readLe_append h (vch ++ rest)
  rw [getOp_cons (not_lt_of_pushSize hsize), hsized]
  dsimp only
  rw [if_neg hnot, List.take_left, List.drop_left]

/-- What is pushed is read back. -/
theorem getOp_push {vch : Bytes} (h : vch.length < 2 ^ 32) (rest : CScript) :
    ∃ opcode, opcode ≤ OP_PUSHDATA4 ∧ getOp (push vch ++ rest) = some (opcode, vch, rest) := by
  rw [push]
  split_ifs with hdirect h1 h2
  · refine ⟨_, ?_, getOp_direct hdirect rest⟩
    rw [UInt8.le_iff_toNat_le, UInt8.toNat_ofNat_of_lt' (Nat.lt_trans hdirect (by decide))]
    exact Nat.le_of_lt (Nat.lt_of_lt_of_le hdirect (by decide))
  · rw [List.cons_append, List.append_assoc]
    exact ⟨_, by decide, getOp_long rfl (by omega) rest⟩
  · rw [List.cons_append, List.append_assoc]
    exact ⟨_, by decide, getOp_long rfl (by omega) rest⟩
  · rw [List.cons_append, List.append_assoc]
    exact ⟨_, by decide, getOp_long rfl (by omega) rest⟩

end CScript

/-! ## Matching -/

section Matching

variable {vSolutions r : List Bytes} {rounds : Nat} {pc1 pc2 : CScript}

theorem matchFrom_nil : matchFrom vSolutions (rounds + 1) pc1 [] = some r ↔ pc1 = [] ∧ vSolutions = r := by
  cases pc1 with
  | nil =>
      rw [matchFrom, if_pos ⟨rfl, rfl⟩, Option.some.injEq, eq_self, true_and]
  | cons op pc =>
      rw [matchFrom, if_neg fun h => List.cons_ne_nil _ _ h.1]
      constructor
      · intro h
        cases hop : CScript.getOp (op :: pc) with
        | none => rw [hop] at h; cases h
        | some _ => rw [hop] at h; cases h
      · rintro ⟨h, _⟩
        cases h

/-- One round, for an opcode of the template other than `OP_PUBKEYS`. -/
theorem matchFrom_cons {opcode2 : UInt8} (hop2 : OP_PUSHDATA4 < opcode2) (hkeys : opcode2 ≠ OP_PUBKEYS) :
    matchFrom vSolutions (rounds + 1) pc1 (opcode2 :: pc2) = some r ↔
      ∃ opcode1 vch1 rest vSolutions', CScript.getOp pc1 = some (opcode1, vch1, rest) ∧
        matchOp vSolutions opcode1 vch1 opcode2 [] = some vSolutions' ∧
          matchFrom vSolutions' rounds rest pc2 = some r := by
  rw [matchFrom, if_neg fun h => List.cons_ne_nil _ _ h.2, CScript.getOp_opcode hop2]
  cases hop1 : CScript.getOp pc1 with
  | none =>
      refine ⟨fun h => (nomatch h), ?_⟩
      rintro ⟨opcode1, vch1, rest, vSolutions', h, _⟩
      cases h
  | some op =>
      obtain ⟨opcode1, vch1, rest⟩ := op
      dsimp only
      rw [if_neg hkeys]
      cases hmatch : matchOp vSolutions opcode1 vch1 opcode2 [] with
      | none =>
          refine ⟨fun h => (nomatch h), ?_⟩
          rintro ⟨_, _, _, vSolutions', h, h', _⟩
          cases h
          rw [hmatch] at h'
          cases h'
      | some vSolutions' =>
          refine ⟨fun h => ⟨_, _, _, _, rfl, hmatch, h⟩, ?_⟩
          rintro ⟨_, _, _, _, h, h', h''⟩
          cases h
          rw [hmatch] at h'
          cases h'
          exact h''

/-- An opcode that stands for itself. -/
structure IsPlain (opcode2 : UInt8) : Prop where
  high : OP_PUSHDATA4 < opcode2
  pubKey : opcode2 ≠ OP_PUBKEY
  pubKeyHash : opcode2 ≠ OP_PUBKEYHASH
  smallInteger : opcode2 ≠ OP_SMALLINTEGER
  smallData : opcode2 ≠ OP_SMALLDATA
  pubKeys : opcode2 ≠ OP_PUBKEYS

theorem isPlain_of_lt {opcode2 : UInt8} (hlow : OP_PUSHDATA4 < opcode2) (hhigh : opcode2 < OP_SMALLDATA) :
    IsPlain opcode2 := by
  have hne : ∀ {op : UInt8}, OP_SMALLDATA ≤ op → opcode2 ≠ op := fun hle heq => by
    rw [heq] at hhigh
    exact absurd hhigh (UInt8.not_lt.2 hle)
  exact ⟨hlow, hne (by decide), hne (by decide), hne (by decide), hne (by decide), hne (by decide)⟩

theorem matchOp_plain {opcode1 opcode2 : UInt8} {vch1 : Bytes} (h : IsPlain opcode2) :
    matchOp vSolutions opcode1 vch1 opcode2 [] = some r ↔ opcode1 = opcode2 ∧ vch1 = [] ∧ vSolutions = r := by
  rw [matchOp, if_neg h.pubKey, if_neg h.pubKeyHash, if_neg h.smallInteger, if_neg h.smallData]
  split_ifs with hne
  · refine ⟨False.elim, ?_⟩
    rintro ⟨h1, h2, _⟩
    rcases hne with hne | hne
    · exact absurd h1 hne
    · exact absurd h2 hne
  · have heq := not_or.1 hne
    rw [Option.some.injEq]
    exact ⟨fun h => ⟨not_not.1 heq.1, not_not.1 heq.2, h⟩, fun h => h.2.2⟩

theorem matchFrom_plain {opcode2 : UInt8} (h : IsPlain opcode2) :
    matchFrom vSolutions (rounds + 1) pc1 (opcode2 :: pc2) = some r ↔
      ∃ rest, pc1 = opcode2 :: rest ∧ matchFrom vSolutions rounds rest pc2 = some r := by
  rw [matchFrom_cons h.high h.pubKeys]
  constructor
  · rintro ⟨opcode1, vch1, rest, vSolutions', hop, hmatch, hrest⟩
    obtain ⟨rfl, rfl, rfl⟩ := (matchOp_plain h).1 hmatch
    rcases CScript.getOp_cases hop with ⟨_, _, hpc⟩ | ⟨hlow, _⟩ | ⟨size, hsize, _⟩
    · exact ⟨rest, hpc, hrest⟩
    · have hlt : OP_PUSHDATA4 < OP_PUSHDATA1 := UInt8.lt_trans h.high hlow
      exact absurd hlt (by decide)
    · have hhigh := h.high
      unfold CScript.pushSize at hsize
      split at hsize
      · exact absurd hhigh (by decide)
      · exact absurd hhigh (by decide)
      · exact absurd hhigh (by decide)
      · cases hsize
  · rintro ⟨rest, rfl, hrest⟩
    exact ⟨opcode2, [], rest, vSolutions, CScript.getOp_opcode h.high rest, (matchOp_plain h).2 ⟨rfl, rfl, rfl⟩, hrest⟩

theorem matchFrom_pubKey :
    matchFrom vSolutions (rounds + 1) pc1 (OP_PUBKEY :: pc2) = some r ↔
      ∃ opcode1 vch1 rest, CScript.getOp pc1 = some (opcode1, vch1, rest) ∧ isPubKeySize vch1 ∧
        matchFrom (vSolutions ++ [vch1]) rounds rest pc2 = some r := by
  rw [matchFrom_cons (by decide) (by decide)]
  constructor
  · rintro ⟨opcode1, vch1, rest, vSolutions', hop, hmatch, hrest⟩
    rw [matchOp, if_pos rfl] at hmatch
    split_ifs at hmatch with hsize
    cases hmatch
    exact ⟨opcode1, vch1, rest, hop, by simpa using hsize, hrest⟩
  · rintro ⟨opcode1, vch1, rest, hop, hsize, hrest⟩
    refine ⟨opcode1, vch1, rest, _, hop, ?_, hrest⟩
    rw [matchOp, if_pos rfl, hsize]
    rfl

theorem matchFrom_pubKeyHash :
    matchFrom vSolutions (rounds + 1) pc1 (OP_PUBKEYHASH :: pc2) = some r ↔
      ∃ opcode1 vch1 rest, CScript.getOp pc1 = some (opcode1, vch1, rest) ∧ vch1.length = SIZE_OF_UINT160 ∧
        matchFrom (vSolutions ++ [vch1]) rounds rest pc2 = some r := by
  rw [matchFrom_cons (by decide) (by decide)]
  constructor
  · rintro ⟨opcode1, vch1, rest, vSolutions', hop, hmatch, hrest⟩
    rw [matchOp, if_neg (by decide), if_pos rfl] at hmatch
    split_ifs at hmatch with hsize
    cases hmatch
    exact ⟨opcode1, vch1, rest, hop, not_not.1 hsize, hrest⟩
  · rintro ⟨opcode1, vch1, rest, hop, hsize, hrest⟩
    refine ⟨opcode1, vch1, rest, _, hop, ?_, hrest⟩
    rw [matchOp, if_neg (by decide), if_pos rfl, if_neg (not_not.2 hsize)]

/-- What a small integer is remembered as. -/
def smallInteger (opcode1 : UInt8) : Bytes := [UInt8.ofNat (CScript.decodeOpN opcode1)]

theorem matchOp_smallInteger {opcode1 : UInt8} {vch1 : Bytes} :
    matchOp vSolutions opcode1 vch1 OP_SMALLINTEGER [] = some r ↔
      isSmallIntegerOp opcode1 ∧ vSolutions ++ [smallInteger opcode1] = r := by
  rw [matchOp, if_neg (by decide), if_neg (by decide), if_pos rfl]
  split_ifs with hsmall
  · rw [Option.some.injEq]
    exact (and_iff_right hsmall).symm
  · exact ⟨fun h => (nomatch h), fun h => absurd h.1 hsmall⟩

theorem matchFrom_smallInteger :
    matchFrom vSolutions (rounds + 1) pc1 (OP_SMALLINTEGER :: pc2) = some r ↔
      ∃ opcode1 vch1 rest, CScript.getOp pc1 = some (opcode1, vch1, rest) ∧ isSmallIntegerOp opcode1 ∧
        matchFrom (vSolutions ++ [smallInteger opcode1]) rounds rest pc2 = some r := by
  rw [matchFrom_cons (by decide) (by decide)]
  constructor
  · rintro ⟨opcode1, vch1, rest, vSolutions', hop, hmatch, hrest⟩
    obtain ⟨hsmall, rfl⟩ := matchOp_smallInteger.1 hmatch
    exact ⟨opcode1, vch1, rest, hop, hsmall, hrest⟩
  · rintro ⟨opcode1, vch1, rest, hop, hsmall, hrest⟩
    exact ⟨opcode1, vch1, rest, _, hop, matchOp_smallInteger.2 ⟨hsmall, rfl⟩, hrest⟩

/-- One round, for the keys and the number that follows them. -/
theorem matchFrom_pubKeys :
    matchFrom vSolutions (rounds + 1) pc1 (OP_PUBKEYS :: OP_SMALLINTEGER :: pc2) = some r ↔
      ∃ opcode vch next vSolutions' opcode1 vch1 rest, CScript.getOp pc1 = some (opcode, vch, next) ∧
        takePubKeys vSolutions opcode vch (next.length + 1) next = (vSolutions', opcode1, vch1, rest) ∧
        isSmallIntegerOp opcode1 ∧ matchFrom (vSolutions' ++ [smallInteger opcode1]) rounds rest pc2 = some r := by
  have hkeys : CScript.getOp (OP_PUBKEYS :: OP_SMALLINTEGER :: pc2) = some (OP_PUBKEYS, [], OP_SMALLINTEGER :: pc2) :=
    CScript.getOp_opcode (by decide) _
  have hinteger : CScript.getOp (OP_SMALLINTEGER :: pc2) = some (OP_SMALLINTEGER, [], pc2) :=
    CScript.getOp_opcode (by decide) _
  rw [matchFrom, if_neg fun h => List.cons_ne_nil _ _ h.2, hkeys]
  cases hop1 : CScript.getOp pc1 with
  | none =>
      refine ⟨fun h => (nomatch h), ?_⟩
      rintro ⟨opcode, vch, next, _, _, _, _, h, _⟩
      cases h
  | some op =>
      obtain ⟨opcode, vch, next⟩ := op
      dsimp only
      rw [if_pos rfl, hinteger]
      rcases htake : takePubKeys vSolutions opcode vch (next.length + 1) next with ⟨vSolutions', opcode1, vch1, rest⟩
      dsimp only
      constructor
      · intro h
        cases hmatch : matchOp vSolutions' opcode1 vch1 OP_SMALLINTEGER [] with
        | none => rw [hmatch] at h; cases h
        | some vSolutions'' =>
            rw [hmatch] at h
            obtain ⟨hsmall, rfl⟩ := matchOp_smallInteger.1 hmatch
            exact ⟨opcode, vch, next, _, _, _, _, rfl, htake, hsmall, h⟩
      · rintro ⟨_, _, _, _, _, _, _, hop, htake', hsmall, hrest⟩
        cases hop
        rw [htake] at htake'
        cases htake'
        rw [matchOp_smallInteger.2 ⟨hsmall, rfl⟩]
        exact hrest

end Matching

/-! ## The templates -/

section Templates

variable {script : CScript} {r : List Bytes}

theorem matchTemplate_pubKey :
    matchTemplate script [OP_PUBKEY, OP_CHECKSIG] = some r ↔
      ∃ opcode vch, CScript.getOp script = some (opcode, vch, [OP_CHECKSIG]) ∧ isPubKeySize vch ∧ [vch] = r := by
  have hCheckSig := @isPlain_of_lt OP_CHECKSIG (by decide) (by decide)
  rw [matchTemplate]
  simp only [List.length_cons, List.length_nil, matchFrom_pubKey, matchFrom_plain hCheckSig, matchFrom_nil]
  constructor
  · rintro ⟨opcode, vch, rest, hop, hsize, pc, rfl, rfl, rfl⟩
    exact ⟨opcode, vch, hop, hsize, rfl⟩
  · rintro ⟨opcode, vch, hop, hsize, rfl⟩
    exact ⟨opcode, vch, _, hop, hsize, [], rfl, rfl, rfl⟩

theorem matchTemplate_pubKeyHash :
    matchTemplate script [OP_DUP, OP_HASH160, OP_PUBKEYHASH, OP_EQUALVERIFY, OP_CHECKSIG] = some r ↔
      ∃ opcode vch rest, script = OP_DUP :: OP_HASH160 :: rest ∧
        CScript.getOp rest = some (opcode, vch, [OP_EQUALVERIFY, OP_CHECKSIG]) ∧ vch.length = SIZE_OF_UINT160 ∧
        [vch] = r := by
  have hDup := @isPlain_of_lt OP_DUP (by decide) (by decide)
  have hHash160 := @isPlain_of_lt OP_HASH160 (by decide) (by decide)
  have hEqualVerify := @isPlain_of_lt OP_EQUALVERIFY (by decide) (by decide)
  have hCheckSig := @isPlain_of_lt OP_CHECKSIG (by decide) (by decide)
  rw [matchTemplate]
  simp only [List.length_cons, List.length_nil, matchFrom_pubKeyHash, matchFrom_plain hDup, matchFrom_plain hHash160,
    matchFrom_plain hEqualVerify, matchFrom_plain hCheckSig, matchFrom_nil]
  constructor
  · rintro ⟨_, rfl, rest, rfl, opcode, vch, _, hop, hsize, _, rfl, pc, rfl, rfl, rfl⟩
    exact ⟨opcode, vch, rest, rfl, hop, hsize, rfl⟩
  · rintro ⟨opcode, vch, rest, rfl, hop, hsize, rfl⟩
    exact ⟨_, rfl, _, rfl, opcode, vch, _, hop, hsize, _, rfl, _, rfl, rfl, rfl⟩

theorem matchTemplate_multisig :
    matchTemplate script [OP_SMALLINTEGER, OP_PUBKEYS, OP_SMALLINTEGER, OP_CHECKMULTISIG] = some r ↔
      ∃ opM vchM pc opcode vch next vSolutions opN vchN, CScript.getOp script = some (opM, vchM, pc) ∧
        isSmallIntegerOp opM ∧ CScript.getOp pc = some (opcode, vch, next) ∧
        takePubKeys [smallInteger opM] opcode vch (next.length + 1) next =
          (vSolutions, opN, vchN, [OP_CHECKMULTISIG]) ∧
        isSmallIntegerOp opN ∧ vSolutions ++ [smallInteger opN] = r := by
  have hCheckMultisig := @isPlain_of_lt OP_CHECKMULTISIG (by decide) (by decide)
  rw [matchTemplate]
  simp only [List.length_cons, List.length_nil, matchFrom_smallInteger, matchFrom_pubKeys,
    matchFrom_plain hCheckMultisig, matchFrom_nil, List.nil_append]
  constructor
  · rintro ⟨opM, vchM, pc, hopM, hM, opcode, vch, next, vSolutions, opN, vchN, _, hop, htake, hN, rest, rfl, rfl, rfl⟩
    exact ⟨opM, vchM, pc, opcode, vch, next, vSolutions, opN, vchN, hopM, hM, hop, htake, hN, rfl⟩
  · rintro ⟨opM, vchM, pc, opcode, vch, next, vSolutions, opN, vchN, hopM, hM, hop, htake, hN, rfl⟩
    exact ⟨opM, vchM, pc, hopM, hM, opcode, vch, next, vSolutions, opN, vchN, _, hop, htake, hN, [], rfl, rfl, rfl⟩

/-- The keys are added after what there is. -/
theorem takePubKeys_append (rounds : Nat) (vSolutions : List Bytes) (opcode1 : UInt8) (vch1 : Bytes) (pc1 : CScript) :
    ∃ keys, (takePubKeys vSolutions opcode1 vch1 rounds pc1).1 = vSolutions ++ keys ∧
      ∀ key ∈ keys, isPubKeySize key := by
  induction rounds generalizing vSolutions opcode1 vch1 pc1 with
  | zero => exact ⟨[], (List.append_nil _).symm, List.forall_mem_nil _⟩
  | succ rounds ih =>
      rw [takePubKeys]
      split_ifs with hsize
      · cases CScript.getOp pc1 with
        | none => exact ⟨[vch1], rfl, by simpa using hsize⟩
        | some op =>
            obtain ⟨opcode, vch, rest⟩ := op
            obtain ⟨keys, hkeys, hsizes⟩ := ih (vSolutions ++ [vch1]) opcode vch rest
            refine ⟨vch1 :: keys, ?_, List.forall_mem_cons.2 ⟨hsize, hsizes⟩⟩
            rw [hkeys, List.append_assoc]
            rfl
      · exact ⟨[], (List.append_nil _).symm, List.forall_mem_nil _⟩

/-- A multisig script is its two numbers with keys between them. -/
theorem solutions_of_multisig
    (h : matchTemplate script [OP_SMALLINTEGER, OP_PUBKEYS, OP_SMALLINTEGER, OP_CHECKMULTISIG] = some r) :
    ∃ opM keys opN, isSmallIntegerOp opM ∧ isSmallIntegerOp opN ∧ (∀ key ∈ keys, isPubKeySize key) ∧
      r = smallInteger opM :: (keys ++ [smallInteger opN]) := by
  obtain ⟨opM, _, _, opcode, vch, next, vSolutions, opN, _, _, hM, _, htake, hN, rfl⟩ := matchTemplate_multisig.1 h
  obtain ⟨keys, hkeys, hsizes⟩ := takePubKeys_append (next.length + 1) [smallInteger opM] opcode vch next
  rw [htake] at hkeys
  refine ⟨opM, keys, opN, hM, hN, hsizes, ?_⟩
  dsimp only at hkeys
  rw [hkeys]
  rfl

theorem checkMultisig_eq (m n : UInt8) (keys : List Bytes) :
    checkMultisig ([m] :: (keys ++ [[n]])) = some !(m < 1 || n < 1 || n < m || keys.length ≠ n.toNat) := by
  have hlast : ([m] :: (keys ++ [[n]])).getLast? = some [n] := by
    rw [← List.cons_append, List.getLast?_concat]
  have hlength : ((([m] :: (keys ++ [[n]])).length : Int) - 2 ≠ n.toNat) ↔ keys.length ≠ n.toNat := by
    rw [List.length_cons, List.length_append, List.length_singleton, ne_eq, ne_eq, not_iff_not]
    omega
  rw [checkMultisig, hlast]
  change some (!(decide (m < 1) || decide (n < 1) || decide (n < m) ||
    decide ((([m] :: (keys ++ [[n]])).length : Int) - 2 ≠ n.toNat))) = _
  rw [decide_eq_decide.2 hlength]

end Templates

/-! ## What is found -/

section Scan

variable {script : CScript} {templates : List (TxnOutType × CScript)}

theorem scanTemplates_cons_none {typeRet : TxnOutType} {script2 : CScript} (h : matchTemplate script script2 = none) :
    scanTemplates script ((typeRet, script2) :: templates) = scanTemplates script templates := by
  rw [scanTemplates, h]

theorem scanTemplates_cons_some {typeRet : TxnOutType} {script2 : CScript} {vSolutions : List Bytes}
    (htype : typeRet ≠ .multisig) (h : matchTemplate script script2 = some vSolutions) :
    scanTemplates script ((typeRet, script2) :: templates) = some (true, typeRet, vSolutions) := by
  rw [scanTemplates, h]
  exact if_neg htype

/-- What is found is a match of a template of that type. -/
theorem scanTemplates_found {typeRet : TxnOutType} {vSolutions : List Bytes}
    (h : scanTemplates script templates = some (true, typeRet, vSolutions)) :
    ∃ script2, (typeRet, script2) ∈ templates ∧ matchTemplate script script2 = some vSolutions := by
  induction templates with
  | nil => cases h
  | cons tplate templates ih =>
      obtain ⟨typeRet', script2⟩ := tplate
      rw [scanTemplates] at h
      cases hmatch : matchTemplate script script2 with
      | none =>
          rw [hmatch] at h
          obtain ⟨script2', hmem, hfound⟩ := ih h
          exact ⟨script2', List.mem_cons_of_mem _ hmem, hfound⟩
      | some vSolutions' =>
          rw [hmatch] at h
          dsimp only at h
          split_ifs at h with hmultisig
          · obtain ⟨fRet, _, hcheck⟩ := Option.map_eq_some_iff.1 h
            cases hcheck
            exact ⟨script2, List.mem_cons_self, hmatch⟩
          · cases h
            exact ⟨script2, List.mem_cons_self, hmatch⟩

/-- The two numbers that are checked are there. -/
theorem scanTemplates_isSome
    (h : ∀ script2, (TxnOutType.multisig, script2) ∈ templates →
      script2 = [OP_SMALLINTEGER, OP_PUBKEYS, OP_SMALLINTEGER, OP_CHECKMULTISIG]) :
    (scanTemplates script templates).isSome := by
  induction templates with
  | nil => rfl
  | cons tplate templates ih =>
      obtain ⟨typeRet, script2⟩ := tplate
      have hrest := ih fun script2 hmem => h script2 (List.mem_cons_of_mem _ hmem)
      rw [scanTemplates]
      cases hmatch : matchTemplate script script2 with
      | none => exact hrest
      | some vSolutions =>
          dsimp only
          split_ifs with hmultisig
          · rw [h script2 (hmultisig ▸ List.mem_cons_self)] at hmatch
            obtain ⟨opM, keys, opN, _, _, _, rfl⟩ := solutions_of_multisig hmatch
            rw [smallInteger, smallInteger, checkMultisig_eq]
            rfl
          · rfl

end Scan

end ProCurrency

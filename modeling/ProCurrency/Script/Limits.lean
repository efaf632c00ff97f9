import ProCurrency.Script.Agreement
import ProCurrency.Script.Structured

/-!
# What an evaluation can use up

The limits of `EvalScript` (script.cpp) hold in every state of every evaluation: the sizes of the stacks and of their
elements, the opcodes that count, the conditionals that are open, and with them the calls of `CheckSig`.
-/

namespace ProCurrency

open ByteCodec CScript Conditional

/-! ## Sizes -/

/-- No element is longer than what may be pushed. -/
def ShortElements (stack : ScriptStack) : Prop := ∀ x ∈ stack, x.length ≤ MAX_SCRIPT_ELEMENT_SIZE

@[simp] theorem shortElements_nil : ShortElements [] := fun _ h => by cases h

@[simp] theorem shortElements_cons {x : Bytes} {stack : ScriptStack} :
    ShortElements (x :: stack) ↔ x.length ≤ MAX_SCRIPT_ELEMENT_SIZE ∧ ShortElements stack := List.forall_mem_cons

/-- The lengths of the digests. -/
structure ScriptCrypto.Digests (c : ScriptCrypto) : Prop where
  ripemd160 : ∀ x, (c.ripemd160 x).length = 20
  sha1 : ∀ x, (c.sha1 x).length = 20
  sha256 : ∀ x, (c.sha256 x).length = 32
  hash160 : ∀ x, (c.hash160 x).length = 20

/-- An operand has 31 bits and a sign, and a number of two more bits takes a few bytes. -/
structure ScriptNumbers.Narrow (num : ScriptNumbers) : Prop where
  cast : ∀ x n, num.cast x = some n → n.natAbs < 2 ^ 31
  getvch : ∀ n : Int, n.natAbs < 2 ^ 33 → (num.getvch n).length ≤ MAX_SCRIPT_ELEMENT_SIZE

variable {c : ScriptCrypto} {I : Interpreter} {num : ScriptNumbers} {st st' : EvalState}

/-- What an opcode that is not a signature check leaves of the sizes. -/
structure PlainEffect (st st' : EvalState) : Prop where
  stack : ShortElements st'.stack
  altstack : ShortElements st'.altstack
  nOpCount : st'.nOpCount = st.nOpCount
  vfExec : st'.vfExec.length ≤ st.vfExec.length + 1

/-! ## Operands -/

theorem withTop1_ok {f : Bytes → ScriptStack → OpResult} (h : withTop1 st f = .ok st') :
    ∃ x rest, st.stack = x :: rest ∧ f x rest = .ok st' := by
  unfold withTop1 at h
  split at h
  · exact ⟨_, _, ‹_›, h⟩
  · cases h

theorem withTop2_ok {f : Bytes → Bytes → ScriptStack → OpResult} (h : withTop2 st f = .ok st') :
    ∃ x1 x2 rest, st.stack = x2 :: x1 :: rest ∧ f x1 x2 rest = .ok st' := by
  unfold withTop2 at h
  split at h
  · exact ⟨_, _, _, ‹_›, h⟩
  · cases h

theorem withTop3_ok {f : Bytes → Bytes → Bytes → ScriptStack → OpResult} (h : withTop3 st f = .ok st') :
    ∃ x1 x2 x3 rest, st.stack = x3 :: x2 :: x1 :: rest ∧ f x1 x2 x3 rest = .ok st' := by
  unfold withTop3 at h
  split at h
  · exact ⟨_, _, _, _, ‹_›, h⟩
  · cases h

/-! ## Numbers -/

theorem castNumber_ok {x : Bytes} {n : Int} (h : castNumber num x = .ok n) : num.cast x = some n := by
  rw [castNumber] at h
  split at h
  · cases h
  · rename_i hcast
    cases h
    exact hcast

theorem natAbs_boolNumber (f : Bool) : (boolNumber f).natAbs < 2 ^ 33 := by cases f <;> decide

theorem natAbs_unaryNumber (opcode : UInt8) {n : Int} (h : n.natAbs < 2 ^ 31) :
    (unaryNumber opcode n).natAbs < 2 ^ 33 := by
  unfold unaryNumber
  split
  · omega
  · omega
  · omega
  · split <;> omega
  · exact natAbs_boolNumber _
  · exact natAbs_boolNumber _

theorem natAbs_binaryNumber (opcode : UInt8) {n1 n2 : Int} (h1 : n1.natAbs < 2 ^ 31) (h2 : n2.natAbs < 2 ^ 31) :
    (binaryNumber opcode n1 n2).natAbs < 2 ^ 33 := by
  unfold binaryNumber
  split
  all_goals first
    | exact natAbs_boolNumber _
    | omega

theorem length_boolVch (f : Bool) : (boolVch f).length ≤ MAX_SCRIPT_ELEMENT_SIZE := by cases f <;> decide

section Plain

variable (hs : ShortElements st.stack) (ha : ShortElements st.altstack)

include ha

theorem PlainEffect.setStack {stack : ScriptStack} (h : ShortElements stack) : PlainEffect st (st.setStack stack) where
  stack := h
  altstack := ha
  nOpCount := rfl
  vfExec := Nat.le_succ _

include hs

theorem withTop1_effect {f : Bytes → ScriptStack → ScriptStack}
    (hf : ∀ x rest, x.length ≤ MAX_SCRIPT_ELEMENT_SIZE → ShortElements rest → ShortElements (f x rest))
    (h : withTop1 st (fun x rest => .ok (st.setStack (f x rest))) = .ok st') : PlainEffect st st' := by
  obtain ⟨x, rest, hstack, h⟩ := withTop1_ok h
  rw [hstack] at hs
  cases h
  exact .setStack ha (hf x rest (shortElements_cons.1 hs).1 (shortElements_cons.1 hs).2)

theorem withTop2_effect {f : Bytes → Bytes → ScriptStack → ScriptStack}
    (hf : ∀ x1 x2 rest, ShortElements (x2 :: x1 :: rest) → ShortElements (f x1 x2 rest))
    (h : withTop2 st (fun x1 x2 rest => .ok (st.setStack (f x1 x2 rest))) = .ok st') : PlainEffect st st' := by
  obtain ⟨x1, x2, rest, hstack, h⟩ := withTop2_ok h
  rw [hstack] at hs
  cases h
  exact .setStack ha (hf x1 x2 rest hs)

theorem withTop3_effect {f : Bytes → Bytes → Bytes → ScriptStack → ScriptStack}
    (hf : ∀ x1 x2 x3 rest, ShortElements (x3 :: x2 :: x1 :: rest) → ShortElements (f x1 x2 x3 rest))
    (h : withTop3 st (fun x1 x2 x3 rest => .ok (st.setStack (f x1 x2 x3 rest))) = .ok st') : PlainEffect st st' := by
  obtain ⟨x1, x2, x3, rest, hstack, h⟩ := withTop3_ok h
  rw [hstack] at hs
  cases h
  exact .setStack ha (hf x1 x2 x3 rest hs)

theorem withTop4_effect {f : Bytes → Bytes → Bytes → Bytes → ScriptStack → ScriptStack}
    (hf : ∀ x1 x2 x3 x4 rest, ShortElements (x4 :: x3 :: x2 :: x1 :: rest) → ShortElements (f x1 x2 x3 x4 rest))
    (h : withTop4 st (fun x1 x2 x3 x4 rest => .ok (st.setStack (f x1 x2 x3 x4 rest))) = .ok st') :
    PlainEffect st st' := by
  unfold withTop4 at h
  split at h
  · rename_i hstack
    rw [hstack] at hs
    cases h
    exact .setStack ha (hf _ _ _ _ _ hs)
  · cases h

theorem hashOp_effect {hash : Bytes → Bytes} (hhash : ∀ x, (hash x).length ≤ 32) (h : hashOp hash st = .ok st') :
    PlainEffect st st' :=
  withTop1_effect hs ha (fun x _ _ hrest => shortElements_cons.2 ⟨Nat.le_trans (hhash x) (by decide), hrest⟩) h

theorem ifOp_effect {fNot : Bool} (h : ifOp fNot st = .ok st') : PlainEffect st st' := by
  rw [ifOp] at h
  split at h
  · split at h
    · cases h
    · rename_i x rest hstack
      rw [hstack, shortElements_cons] at hs
      cases h
      exact ⟨hs.2, ha, rfl, Nat.le_refl _⟩
  · cases h
    exact ⟨hs, ha, rfl, Nat.le_refl _⟩

theorem withinOp_effect (h : withinOp num st = .ok st') : PlainEffect st st' := by
  obtain ⟨x1, x2, x3, rest, hstack, h⟩ := withTop3_ok h
  rw [hstack, shortElements_cons, shortElements_cons, shortElements_cons] at hs
  obtain ⟨bn1, _, h⟩ := ok_of_bind h
  obtain ⟨bn2, _, h⟩ := ok_of_bind h
  obtain ⟨bn3, _, h⟩ := ok_of_bind h
  cases h
  exact .setStack ha (shortElements_cons.2 ⟨length_boolVch _, hs.2.2.2⟩)

theorem pickOp_effect {fRoll : Bool} (h : pickOp num fRoll st = .ok st') : PlainEffect st st' := by
  rw [pickOp] at h
  by_cases hfew : st.stack.length < 2
  · rw [if_pos hfew] at h
    cases h
  rw [if_neg hfew] at h
  obtain ⟨x, rest, hstack, h⟩ := withTop1_ok h
  rw [hstack, shortElements_cons] at hs
  obtain ⟨bn, _, h⟩ := ok_of_bind h
  dsimp only at h
  split at h
  · cases h
  split at h
  · cases h
  · rename_i vch hget
    cases h
    refine .setStack ha (shortElements_cons.2 ⟨hs.2 vch (List.mem_of_getElem? hget), ?_⟩)
    cases fRoll with
    | true => exact fun y hy => hs.2 y (List.mem_of_mem_eraseIdx hy)
    | false => exact hs.2

variable (hnum : num.Narrow)

include hnum

theorem unaryOp_effect {opcode : UInt8} (h : unaryOp num opcode st = .ok st') : PlainEffect st st' := by
  obtain ⟨x, rest, hstack, h⟩ := withTop1_ok h
  rw [hstack, shortElements_cons] at hs
  obtain ⟨bn, hcast, h⟩ := ok_of_bind h
  cases h
  refine .setStack ha (shortElements_cons.2 ⟨?_, hs.2⟩)
  exact hnum.getvch _ (natAbs_unaryNumber opcode (hnum.cast x bn (castNumber_ok hcast)))

theorem binaryOp_effect {opcode : UInt8} (h : binaryOp num opcode st = .ok st') : PlainEffect st st' := by
  obtain ⟨x1, x2, rest, hstack, h⟩ := withTop2_ok h
  rw [hstack, shortElements_cons, shortElements_cons] at hs
  obtain ⟨bn1, hcast1, h⟩ := ok_of_bind h
  obtain ⟨bn2, hcast2, h⟩ := ok_of_bind h
  dsimp only at h
  split_ifs at h
  · cases h
    exact .setStack ha hs.2.2
  · cases h
    refine .setStack ha (shortElements_cons.2 ⟨?_, hs.2.2⟩)
    exact hnum.getvch _ (natAbs_binaryNumber opcode (hnum.cast x1 bn1 (castNumber_ok hcast1))
      (hnum.cast x2 bn2 (castNumber_ok hcast2)))

end Plain

/-- The opcodes that both versions run the same code for keep the sizes. -/
theorem plainOp_effect (hc : c.Digests) (hnum : num.Narrow) (hs : ShortElements st.stack)
    (ha : ShortElements st.altstack) (hsize : st.stack.length ≤ 1000) {opcode : UInt8} {pc : CScript}
    (h : plainOp c num opcode pc st = .ok st') : PlainEffect st st' := by
  have hdigest : ∀ x, (writeUInt256 (c.hash x)).length ≤ 32 := fun x => Nat.le_of_eq (length_leBytes 32 _)
  have hlength : ∀ n ≤ 1000, (num.getvch (n : Nat)).length ≤ MAX_SCRIPT_ELEMENT_SIZE :=
    fun n hn => hnum.getvch n (by rw [Int.natAbs_natCast]; omega)
  unfold plainOp at h
  split at h
  -- An opcode drops, moves or copies its operands, or pushes what is short in itself.
  all_goals first
    | (cases h; done)
    | exact unaryOp_effect hs ha hnum h
    | exact binaryOp_effect hs ha hnum h
    | exact withinOp_effect hs ha h
    | exact pickOp_effect hs ha h
    | exact ifOp_effect hs ha h
    | exact hashOp_effect hs ha (fun x => Nat.le_trans (Nat.le_of_eq (hc.ripemd160 x)) (by decide)) h
    | exact hashOp_effect hs ha (fun x => Nat.le_trans (Nat.le_of_eq (hc.sha1 x)) (by decide)) h
    | exact hashOp_effect hs ha (fun x => Nat.le_of_eq (hc.sha256 x)) h
    | exact hashOp_effect hs ha (fun x => Nat.le_trans (Nat.le_of_eq (hc.hash160 x)) (by decide)) h
    | exact hashOp_effect hs ha hdigest h
    | exact withTop1_effect hs ha (fun _ _ _ hrest => hrest) h
    | exact withTop1_effect hs ha (fun _ _ hx hrest => shortElements_cons.2 ⟨hx, shortElements_cons.2 ⟨hx, hrest⟩⟩) h
    | exact withTop2_effect hs ha (fun _ _ _ hall => by simp_all [length_boolVch]) h
    | exact withTop3_effect hs ha (fun _ _ _ _ hall => by simp_all) h
    | exact withTop4_effect hs ha (fun _ _ _ _ _ hall => by simp_all) h
    | skip
  · -- OP_NOP
    cases h
    exact .setStack ha hs
  · -- OP_ELSE
    split at h
    · cases h
    · rename_i hflags
      cases h
      exact ⟨hs, ha, rfl, by rw [hflags]; exact Nat.le_succ _⟩
  · -- OP_ENDIF
    split at h
    · cases h
    · rename_i hflags
      cases h
      exact ⟨hs, ha, rfl, by rw [hflags]; exact Nat.le_succ_of_le (Nat.le_succ _)⟩
  · -- OP_VERIFY
    obtain ⟨x, rest, hstack, h⟩ := withTop1_ok h
    rw [hstack, shortElements_cons] at hs
    split_ifs at h
    cases h
    exact .setStack ha hs.2
  · -- OP_TOALTSTACK
    obtain ⟨x, rest, hstack, h⟩ := withTop1_ok h
    rw [hstack, shortElements_cons] at hs
    cases h
    exact ⟨hs.2, shortElements_cons.2 ⟨hs.1, ha⟩, rfl, Nat.le_succ _⟩
  · -- OP_FROMALTSTACK
    split at h
    · cases h
    · rename_i haltstack
      rw [haltstack, shortElements_cons] at ha
      cases h
      exact ⟨shortElements_cons.2 ⟨ha.1, hs⟩, ha.2, rfl, Nat.le_succ _⟩
  · -- OP_2ROT
    split at h
    · rename_i hstack
      rw [hstack] at hs
      cases h
      exact .setStack ha (by simp_all)
    · cases h
  · -- OP_IFDUP
    refine withTop1_effect hs ha (fun x rest hx hrest => ?_) h
    split
    · exact shortElements_cons.2 ⟨hx, shortElements_cons.2 ⟨hx, hrest⟩⟩
    · exact shortElements_cons.2 ⟨hx, hrest⟩
  · -- OP_DEPTH
    cases h
    exact .setStack ha (shortElements_cons.2 ⟨hlength _ hsize, hs⟩)
  · -- OP_SIZE
    refine withTop1_effect hs ha (fun x rest hx hrest => ?_) h
    exact shortElements_cons.2 ⟨hlength _ (Nat.le_trans hx (by decide)), shortElements_cons.2 ⟨hx, hrest⟩⟩
  · -- OP_EQUALVERIFY
    obtain ⟨x1, x2, rest, hstack, h⟩ := withTop2_ok h
    rw [hstack, shortElements_cons, shortElements_cons] at hs
    split_ifs at h
    cases h
    exact .setStack ha hs.2.2
  · -- OP_CODESEPARATOR
    cases h
    exact ⟨hs, ha, rfl, Nat.le_succ _⟩

/-! ## Signature checks -/

/-- What an opcode does that counts its calls of `CheckSig`: they do not go over the opcodes that count. -/
structure CheckEffect (st : EvalState) (r : OpResult × Nat) : Prop where
  calls : st.nOpCount ≤ 201 → st.nOpCount + r.2 ≤ 201
  ok : ∀ st', r.1 = .ok st' → ShortElements st'.stack ∧ st'.altstack = st.altstack ∧ st'.vfExec = st.vfExec ∧
    st.nOpCount + r.2 ≤ st'.nOpCount ∧ (st.nOpCount ≤ 201 → st'.nOpCount ≤ 201)

theorem CheckEffect.error (st : EvalState) (e : ScriptError) : CheckEffect st (.error e, 0) where
  calls h := h
  ok st' h := by cases h

theorem pushResult_ok {fVerify fSuccess : Bool} {e : ScriptError} {rest : ScriptStack} (hrest : ShortElements rest)
    (h : pushResult fVerify fSuccess e st rest = .ok st') : ∃ stack, st' = st.setStack stack ∧ ShortElements stack := by
  rw [pushResult] at h
  split_ifs at h
  · cases h
    exact ⟨_, rfl, hrest⟩
  · cases h
    exact ⟨_, rfl, shortElements_cons.2 ⟨length_boolVch _, hrest⟩⟩

/-- The opcode of a single check has been counted, and may make one call for itself. -/
theorem checkSigOp_ok {fVerify : Bool} (hs : ShortElements st.stack)
    (h : (checkSigOp I fVerify st).1 = .ok st') : ∃ stack, st' = st.setStack stack ∧ ShortElements stack := by
  rw [checkSigOp] at h
  split at h
  · rename_i vchPubKey vchSig rest hstack
    rw [hstack, shortElements_cons, shortElements_cons] at hs
    dsimp only at h
    rcases hr : I.check vchSig vchPubKey (st.pbegincodehash.findAndDelete (CScript.push vchSig)) with ⟨e | fSuccess, n⟩
    · rw [hr] at h
      cases h
    · rw [hr] at h
      exact pushResult_ok hs.2.2 h
  · cases h

theorem checkMultisigArgs_effect (hI : I.Counted) {fVerify : Bool} {nOpCount : Nat} {keys sigs rest : ScriptStack}
    (hrest : ShortElements rest) (hcount : st.nOpCount + keys.length ≤ nOpCount) (hmax : nOpCount ≤ 201) :
    CheckEffect st (checkMultisigArgs I fVerify { st with nOpCount := nOpCount } keys sigs rest) where
  calls _ := by
    have hle := checkMultisigArgs_le hI fVerify { st with nOpCount := nOpCount } keys sigs rest
    omega
  ok st' h := by
    have hle := checkMultisigArgs_le hI fVerify { st with nOpCount := nOpCount } keys sigs rest
    have hresult : ∃ stack, st' = { st with nOpCount := nOpCount }.setStack stack ∧ ShortElements stack := by
      rw [checkMultisigArgs] at h
      split at h
      · cases h
      · split at h
        · cases h
        · rename_i dummy rest
          split at h
          · cases h
          · exact pushResult_ok (shortElements_cons.1 hrest).2 h
    obtain ⟨stack, rfl, hstack⟩ := hresult
    refine ⟨hstack, rfl, rfl, ?_, fun _ => hmax⟩
    change st.nOpCount + _ ≤ nOpCount
    omega

/-- The keys of a multisig are counted before any of them is tried. -/
theorem checkMultisigOp_effect (hI : I.Counted) (fVerify : Bool) (hs : ShortElements st.stack) :
    CheckEffect st (checkMultisigOp I fVerify st) := by
  rw [checkMultisigOp]
  cases hstack : st.stack with
  | nil => exact .error st _
  | cons top stack =>
      rw [hstack, shortElements_cons] at hs
      dsimp only
      cases castNumber I.num top with
      | error e => exact .error st e
      | ok bn =>
          dsimp only
          split_ifs with hkeys hops
          · exact .error st _
          · exact .error st _
          · cases hdrop : stack.drop (I.num.getint bn).toNat with
            | nil => exact .error st _
            | cons top' afterKeys =>
                have hafter : ShortElements afterKeys := fun x hx =>
                  hs.2 x (List.mem_of_mem_drop (hdrop ▸ List.mem_cons_of_mem top' hx))
                dsimp only
                cases castNumber I.num top' with
                | error e => exact .error st e
                | ok bn' =>
                    dsimp only
                    split_ifs
                    · exact .error st _
                    · exact .error st _
                    · refine checkMultisigArgs_effect hI (fun x hx => hafter x (List.mem_of_mem_drop hx)) ?_ (by omega)
                      rw [List.length_take]
                      omega

/-! ## One instruction -/

/-- The limits, in a state between two instructions. -/
structure EvalState.Limited (st : EvalState) : Prop where
  stack : ShortElements st.stack
  altstack : ShortElements st.altstack
  size : st.stack.length + st.altstack.length ≤ 1000
  nOpCount : st.nOpCount ≤ 201
  vfExec : st.vfExec.length ≤ st.nOpCount

/-- What an instruction leaves of the limits, before the size of the stacks is checked. -/
structure InstructionEffect (st : EvalState) (r : OpResult × Nat) : Prop where
  calls : st.nOpCount + r.2 ≤ 201
  ok : ∀ st', r.1 = .ok st' → ShortElements st'.stack ∧ ShortElements st'.altstack ∧ st.nOpCount + r.2 ≤ st'.nOpCount ∧
    st'.nOpCount ≤ 201 ∧ st'.vfExec.length ≤ st'.nOpCount

/-- The state once the opcode is counted. -/
theorem countOp_limited {opcode : UInt8} (h : st.Limited) (hcount : OP_16 < opcode → st.nOpCount < 201) :
    (st.countOp opcode).Limited ∧ st.nOpCount ≤ (st.countOp opcode).nOpCount ∧ (st.countOp opcode).vfExec = st.vfExec ∧
      (OP_16 < opcode → (st.countOp opcode).nOpCount = st.nOpCount + 1) := by
  unfold EvalState.countOp
  split
  · rename_i hop
    exact ⟨⟨h.stack, h.altstack, h.size, hcount hop, Nat.le_succ_of_le h.vfExec⟩, Nat.le_succ _, rfl, fun _ => rfl⟩
  · rename_i hop
    exact ⟨h, Nat.le_refl _, rfl, fun hop' => absurd hop' hop⟩

theorem OP_16_lt_of_opKind {opcode : UInt8} (h : opKind opcode ≠ .plain) : OP_16 < opcode := by
  cases hkind : opKind opcode with
  | plain => exact absurd hkind h
  | cond => obtain rfl | rfl := opKind_cond hkind <;> decide
  | els => rw [opKind_els hkind]; decide
  | endif => rw [opKind_endif hkind]; decide

theorem plainOp_vfExec {opcode : UInt8} {pc : CScript} (hkind : opKind opcode = .plain)
    (h : plainOp c num opcode pc st = .ok st') : st'.vfExec = st.vfExec := by
  have hframe := @plainOp_withFlags c num st st.vfExec opcode hkind pc
  have hself : st.withFlags st.vfExec = st := rfl
  rw [hself, h] at hframe
  injection hframe with hst
  rw [hst]
  rfl

theorem natAbs_smallInteger (opcode : UInt8) : ((opcode.toNat : Int) - (OP_1.toNat - 1)).natAbs < 2 ^ 33 := by
  have hlt := opcode.toNat_lt
  have hone : OP_1.toNat = 0x51 := rfl
  rw [hone]
  omega

/-- The `switch` keeps the limits. -/
theorem evalOp_effect (hc : c.Digests) (hI : I.Counted) (hnum : I.num.Narrow) {opcode : UInt8} {pc : CScript}
    (h : st.Limited) (hcount : OP_16 < opcode → st.nOpCount < 201) :
    InstructionEffect st (evalOp c I opcode pc (st.countOp opcode)) := by
  obtain ⟨h₁, hle, hflags, hop⟩ := countOp_limited h hcount
  generalize st.countOp opcode = st₁ at h₁ hle hflags hop ⊢
  have hmax := h₁.nOpCount
  rw [evalOp]
  split_ifs with hsmall hnop hsig hmulti
  · refine ⟨h.nOpCount, fun st' hok => ?_⟩
    cases hok
    exact ⟨shortElements_cons.2 ⟨hnum.getvch _ (natAbs_smallInteger opcode), h₁.stack⟩, h₁.altstack, hle, hmax, h₁.vfExec⟩
  · cases I.nop opcode st₁.stack with
    | error e => exact ⟨h.nOpCount, fun st' hok => by cases hok⟩
    | ok _ =>
        refine ⟨h.nOpCount, fun st' hok => ?_⟩
        cases hok
        exact ⟨h₁.stack, h₁.altstack, hle, hmax, h₁.vfExec⟩
  · have hop := hop (by obtain rfl | rfl := hsig <;> decide)
    have hcalls := checkSigOp_le hI (decide (opcode = OP_CHECKSIGVERIFY)) st₁
    refine ⟨by omega, fun st' hok => ?_⟩
    obtain ⟨stack, rfl, hstack⟩ := checkSigOp_ok h₁.stack hok
    refine ⟨hstack, h₁.altstack, ?_, hmax, h₁.vfExec⟩
    change st.nOpCount + _ ≤ st₁.nOpCount
    omega
  · have heffect := checkMultisigOp_effect hI (decide (opcode = OP_CHECKMULTISIGVERIFY)) h₁.stack
    refine ⟨Nat.le_trans (Nat.add_le_add_right hle _) (heffect.calls hmax), fun st' hok => ?_⟩
    obtain ⟨hstack, haltstack, hvfExec, hcalls, hmax'⟩ := heffect.ok st' hok
    refine ⟨hstack, haltstack ▸ h₁.altstack, Nat.le_trans (Nat.add_le_add_right hle _) hcalls, hmax' hmax, ?_⟩
    rw [hvfExec]
    exact Nat.le_trans h₁.vfExec (Nat.le_trans (Nat.le_add_right _ _) hcalls)
  · refine ⟨h.nOpCount, fun st' hok => ?_⟩
    have hsize := h₁.size
    have heffect := plainOp_effect hc hnum h₁.stack h₁.altstack (by omega) hok
    refine ⟨heffect.stack, heffect.altstack, heffect.nOpCount ▸ hle, heffect.nOpCount ▸ hmax, ?_⟩
    rw [heffect.nOpCount]
    by_cases hkind : opKind opcode = .plain
    · rw [plainOp_vfExec hkind hok]
      exact h₁.vfExec
    · have hop := hop (OP_16_lt_of_opKind hkind)
      have hlength := heffect.vfExec
      rw [hflags] at hlength
      have hflags' := h.vfExec
      omega

theorem evalInstruction_effect (hc : c.Digests) (hI : I.Counted) (hnum : I.num.Narrow) {opcode : UInt8} {data : Bytes}
    {pc : CScript} (h : st.Limited) (hdata : data.length ≤ MAX_SCRIPT_ELEMENT_SIZE)
    (hcount : OP_16 < opcode → st.nOpCount < 201) :
    InstructionEffect st (evalInstruction c I opcode data pc (st.countOp opcode)) := by
  obtain ⟨h₁, hle, _⟩ := countOp_limited h hcount
  rw [evalInstruction]
  split_ifs
  · exact ⟨h.nOpCount, fun st' hok => by cases hok⟩
  · refine ⟨h.nOpCount, fun st' hok => ?_⟩
    cases hok
    exact ⟨shortElements_cons.2 ⟨hdata, h₁.stack⟩, h₁.altstack, hle, h₁.nOpCount, h₁.vfExec⟩
  · exact evalOp_effect hc hI hnum h hcount
  · refine ⟨h.nOpCount, fun st' hok => ?_⟩
    cases hok
    exact ⟨h₁.stack, h₁.altstack, hle, h₁.nOpCount, h₁.vfExec⟩

/-- A round keeps the limits, and makes as many calls of `CheckSig` as it counts opcodes at most. -/
theorem evalStep_limited (hc : c.Digests) (hI : I.Counted) (hnum : I.num.Narrow) {opcode : UInt8} {data : Bytes}
    {pc : CScript} (h : st.Limited) :
    st.nOpCount + (evalStep c I opcode data pc st).2 ≤ 201 ∧ ∀ st', (evalStep c I opcode data pc st).1 = .ok st' →
      st'.Limited ∧ st.nOpCount + (evalStep c I opcode data pc st).2 ≤ st'.nOpCount := by
  rw [evalStep]
  split_ifs with hpush hops hdisabled
  · exact ⟨h.nOpCount, fun st' hok => by cases hok⟩
  · exact ⟨h.nOpCount, fun st' hok => by cases hok⟩
  · exact ⟨h.nOpCount, fun st' hok => by cases hok⟩
  · have hcount : OP_16 < opcode → st.nOpCount < 201 := by
      intro hop
      have hle := fun hgt => hops ⟨hop, hgt⟩
      rw [EvalState.countOp, if_pos hop] at hle
      exact Nat.lt_of_succ_le (Nat.not_lt.1 hle)
    obtain ⟨hcalls, hok⟩ := @evalInstruction_effect c I st hc hI hnum opcode data pc h (Nat.not_lt.1 hpush) hcount
    rcases heq : evalInstruction c I opcode data pc (st.countOp opcode) with ⟨e | st₁, n⟩
    · rw [heq] at hcalls
      exact ⟨hcalls, fun st' hst' => by cases hst'⟩
    · rw [heq] at hcalls hok
      refine ⟨hcalls, fun st' hst' => ?_⟩
      obtain ⟨rfl, hsize⟩ := checkStackSize_ok hst'
      obtain ⟨hstack, haltstack, hle, hmax, hvfExec⟩ := hok st' rfl
      exact ⟨⟨hstack, haltstack, hsize, hmax, hvfExec⟩, hle⟩

/-! ## A run -/

theorem Runs.limited (hc : c.Digests) (hI : I.Counted) (hnum : I.num.Narrow) {pc pc' : CScript}
    (hrun : Runs c I pc st pc' st') (h : st.Limited) : st'.Limited := by
  induction hrun with
  | refl => exact h
  | step _ hstep _ ih => exact ih ((evalStep_limited hc hI hnum h).2 _ hstep).1

theorem evalFrom_limited (hc : c.Digests) (hI : I.Counted) (hnum : I.num.Narrow) {rounds : Nat} {pc : CScript}
    (h : st.Limited) : st.nOpCount + (evalFrom c I rounds pc st).2 ≤ 201 ∧
      ∀ st', (evalFrom c I rounds pc st).1 = .ok st' → st'.Limited := by
  have hstop : ∀ st', (.ok st : OpResult) = .ok st' → st'.Limited := fun st' hok => by cases hok; exact h
  induction rounds generalizing pc st with
  | zero => exact ⟨h.nOpCount, hstop⟩
  | succ rounds ih =>
      rw [evalFrom]
      split
      · exact ⟨h.nOpCount, hstop⟩
      · rcases pc.getOp with _ | ⟨opcode, data, pc'⟩
        · exact ⟨h.nOpCount, fun st' hok => by cases hok⟩
        · obtain ⟨hcalls, hok⟩ := @evalStep_limited c I st hc hI hnum opcode data pc' h
          dsimp only
          rcases heq : evalStep c I opcode data pc' st with ⟨e | st₁, n⟩
          · rw [heq] at hcalls
            exact ⟨hcalls, fun st' hok => by cases hok⟩
          · rw [heq] at hok
            obtain ⟨h₁, hle⟩ := hok st₁ rfl
            obtain ⟨hrest, hlimited⟩ := @ih st₁ pc' h₁ fun st' hok => by cases hok; exact h₁
            dsimp only at hle ⊢
            exact ⟨by omega, hlimited⟩

/-! ## The numbers of the two interpreters -/

theorem natAbs_setVch {vch : Bytes} (h : vch.length ≤ 4) : (CScriptNum.setVch vch).natAbs < 2 ^ 31 := by
  induction vch using List.reverseRecOn with
  | nil => decide
  | append_singleton vch back _ =>
      rw [List.length_append, List.length_singleton] at h
      have hlow := ofLeBytes_lt vch
      have hback := back.toNat_lt
      have hpow : 256 ^ vch.length ≤ 256 ^ 3 := Nat.pow_le_pow_right (by decide) (by omega)
      have hbound : ∀ n < 128, ofLeBytes vch + 256 ^ vch.length * n < 2 ^ 31 := by
        intro n hn
        have hmul : 256 ^ vch.length * (n + 1) ≤ 256 ^ 3 * 128 := Nat.mul_le_mul hpow hn
        rw [Nat.mul_succ] at hmul
        omega
      rw [setVch_concat]
      split
      · rename_i hneg
        have hge : 128 ≤ back.toNat := UInt8.le_iff_toNat_le.1 hneg
        have hcast : ((ofLeBytes vch : Int) + 256 ^ vch.length * (back.toNat - 0x80)) =
            (ofLeBytes vch + 256 ^ vch.length * (back.toNat - 128) : Nat) := by
          push_cast [Nat.cast_sub hge]
          rfl
        rw [hcast, Int.natAbs_neg, Int.natAbs_natCast]
        exact hbound _ (by omega)
      · rename_i hpos
        have hlt : back.toNat < 128 := Nat.not_le.1 fun hle => hpos (UInt8.le_iff_toNat_le.2 hle)
        have hcast : ((ofLeBytes vch : Int) + 256 ^ vch.length * back.toNat) =
            (ofLeBytes vch + 256 ^ vch.length * back.toNat : Nat) := by push_cast; rfl
        rw [hcast, Int.natAbs_natCast]
        exact hbound _ hlt

theorem natAbs_ofVch {vch : Bytes} {fRequireMinimal : Bool} {n : Int}
    (h : CScriptNum.ofVch vch fRequireMinimal = some n) : n.natAbs < 2 ^ 31 := by
  rw [CScriptNum.ofVch] at h
  split_ifs at h with hlength
  cases h
  exact natAbs_setVch (Nat.not_lt.1 hlength)

theorem length_addSign_le (neg : Bool) (result : Bytes) : (CScriptNum.addSign neg result).length ≤ result.length + 1 := by
  rw [CScriptNum.addSign]
  cases hlast : result.getLast? with
  | none => exact Nat.le_succ _
  | some back =>
      dsimp only
      split
      · rw [List.length_append]
        exact Nat.le_refl _
      · cases neg with
        | false => exact Nat.le_succ _
        | true =>
            rw [if_pos rfl, List.length_append, List.length_dropLast, List.length_singleton]
            omega

theorem length_serialize {n : Int} (h : n.natAbs < 2 ^ 33) : (CScriptNum.serialize n).length ≤ 6 := by
  rw [CScriptNum.serialize]
  split_ifs with hzero
  · exact Nat.zero_le _
  · obtain ⟨j, hj, hlow, _⟩ := length_digits_eq_succ (Int.natAbs_pos.2 hzero)
    have hj' : j ≤ 4 := by
      by_contra hlarge
      have hpow : 256 ^ 5 ≤ 256 ^ j := Nat.pow_le_pow_right (by decide) (by omega)
      omega
    have hlength : ((Nat.digits 256 n.natAbs).map UInt8.ofNat).length ≤ 5 := by
      rw [List.length_map, hj]
      omega
    exact Nat.le_trans (length_addSign_le _ _) (Nat.succ_le_succ hlength)

theorem scriptNumbers_narrow (fRequireMinimal : Bool) : (scriptNumbers fRequireMinimal).Narrow where
  cast _ _ h := natAbs_ofVch h
  getvch _ h := Nat.le_trans (length_serialize h) (by decide)

theorem bigNumbers_narrow : bigNumbers.Narrow := bigNumbers_eq_scriptNumbers ▸ scriptNumbers_narrow false

/-! ## The limits -/

/-- What an evaluation of a script that starts with this stack keeps to. -/
structure KeepsLimits (c : ScriptCrypto) (I : Interpreter) (stack : ScriptStack) (script : CScript) : Prop where
  state : ∀ pc st, Runs c I script (.start stack script) pc st → st.Limited
  calls : (evalScriptWith c I stack script).2 ≤ 201
  result : ∀ stack', (evalScriptWith c I stack script).1 = .ok stack' → ShortElements stack' ∧ stack'.length ≤ 1000

theorem evalScriptWith_keepsLimits (hc : c.Digests) (hI : I.Counted) (hnum : I.num.Narrow) {stack : ScriptStack}
    (hstack : ShortElements stack) (hsize : stack.length ≤ 1000) (script : CScript) : KeepsLimits c I stack script := by
  have hstart : (EvalState.start stack script).Limited := ⟨hstack, shortElements_nil, hsize, Nat.zero_le _, Nat.zero_le _⟩
  obtain ⟨hcalls, hlimited⟩ := @evalFrom_limited c I _ hc hI hnum script.length script hstart
  refine ⟨fun pc st hrun => hrun.limited hc hI hnum hstart, ?_, fun stack' hok => ?_⟩
  · rw [EvalState.start, Nat.zero_add] at hcalls
    rw [evalScriptWith]
    split_ifs
    · exact Nat.zero_le _
    · rcases heq : evalFrom c I script.length script { stack := stack, pbegincodehash := script } with ⟨e | st, n⟩
      · rw [heq] at hcalls
        exact hcalls
      · rw [heq] at hcalls
        exact hcalls
  · obtain ⟨_, st, hrun, _, rfl⟩ := evalScriptWith_ok_iff.1 hok
    have hst := hlimited st hrun
    have hsize' := hst.size
    exact ⟨hst.stack, by omega⟩

/-- Whichever of the two interpreters runs a script, the limits hold in every state of the evaluation, it calls `CheckSig`
201 times at most, and an evaluation that follows with the stack that is left starts within the limits again. -/
theorem evalScript_limits (c : ScriptCrypto) (hc : c.Digests) (cache : CSignatureCache c) (checker : BaseSignatureChecker)
    (txTo : CTransaction) (nIn : Nat) (flags : ScriptFlags) (nHashType : UInt32) (stack : ScriptStack)
    (hstack : ShortElements stack) (hsize : stack.length ≤ 1000) (script : CScript) :
    KeepsLimits c (bigNumInterpreter cache txTo nIn flags nHashType) stack script ∧
      KeepsLimits c (scriptNumInterpreter c checker flags) stack script :=
  ⟨evalScriptWith_keepsLimits hc (bigNumInterpreter_counted cache txTo nIn flags nHashType) bigNumbers_narrow hstack hsize
      script,
    evalScriptWith_keepsLimits hc (scriptNumInterpreter_counted flags checker) (scriptNumbers_narrow _) hstack hsize script⟩

section Witness

/-- Digests of zeros, and signatures that are never good. -/
def zeroCrypto : ScriptCrypto where
  ripemd160 _ := List.replicate 20 0
  sha1 _ := List.replicate 20 0
  sha256 _ := List.replicate 32 0
  hash160 _ := List.replicate 20 0
  hash _ := 0
  verify _ _ _ := false
  checkLowS _ := false

def zeroCache : CSignatureCache zeroCrypto where
  get _ _ _ := false
  valid _ _ _ h := by cases h

theorem evalScript_limits_multisig :
    KeepsLimits zeroCrypto (bigNumInterpreter zeroCache spendingTx 0 0 0) [[], [1, 2]] [OP_DUP, OP_1, OP_CHECKMULTISIG] ∧
      KeepsLimits zeroCrypto (scriptNumInterpreter zeroCrypto ⟨fun _ _ _ => false⟩ 0) [[], [1, 2]]
        [OP_DUP, OP_1, OP_CHECKMULTISIG] :=
  evalScript_limits zeroCrypto ⟨fun _ => rfl, fun _ => rfl, fun _ => rfl, fun _ => rfl⟩ zeroCache ⟨fun _ _ _ => false⟩
    spendingTx 0 0 0 [[], [1, 2]] (by simp [MAX_SCRIPT_ELEMENT_SIZE]) (by decide) [OP_DUP, OP_1, OP_CHECKMULTISIG]

end Witness

end ProCurrency

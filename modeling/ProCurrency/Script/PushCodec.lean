import ProCurrency.Lib.EventRun
import ProCurrency.Script.Combined

/-!
# Walking a script

`GetOp2` with its iterator, and the loops that walk a script with it (script.h, script.cpp). An iterator is a position.
A read that is not inside of the script is `none`.
-/

namespace ProCurrency

open ByteCodec MeasuredLoop

/-! ## One instruction -/

/-- What `GetOp2` leaves, in its result, its references and the iterator. -/
structure OpRead where
  fRet : Bool
  opcodeRet : UInt8
  vchRet : Bytes
  pc : Nat
deriving DecidableEq

namespace CScript

variable (script : CScript)

def bytesAt (pc size : Nat) : Option Bytes :=
  if pc + size ≤ script.length then some ((script.drop pc).take size) else none

def opFailed (pc : Nat) : OpRead := ⟨false, OP_INVALIDOPCODE, [], pc⟩

/-- `nSize` and the iterator behind it; the inner `none` is a size that is cut off. -/
def operandSize (opcode : UInt8) (pc : Nat) : Option (Option (Nat × Nat)) :=
  match pushSize opcode with
  | none => some (some (opcode.toNat, pc))
  | some size =>
      if script.length - pc < size then some none
      else (bytesAt script pc size).map fun bs => some (ofLeBytes bs, pc + size)

/-- `GetOp2`. What is left of the script is compared as an `unsigned int`. -/
def getOp2 (pc : Nat) : Option OpRead :=
  if script.length ≤ pc then some (opFailed pc)
  else
    match script[pc]? with
    | none => none
    | some opcode =>
        if OP_PUSHDATA4 < opcode then some ⟨true, opcode, [], pc + 1⟩
        else
          match operandSize script opcode (pc + 1) with
          | none => none
          | some none => some (opFailed (pc + 1))
          | some (some (nSize, pc)) =>
              if script.length < pc ∨ (script.length - pc) % 2 ^ 32 < nSize then some (opFailed pc)
              else (bytesAt script pc nSize).map fun vch => ⟨true, opcode, vch, pc + nSize⟩

end CScript

/-! ## The loops -/

section Loops

variable {σ ρ : Type} (script : CScript)

/-- A round of `while (pc < end())` that begins with `GetOp`: `finish` after the last one, `fail` where `GetOp` returns
false, and `body` for what it has read. -/
def opRound (finish fail : σ → ρ) (body : OpRead → σ → σ ⊕ ρ) : Nat × σ → Option ((Nat × σ) ⊕ ρ)
  | (pc, st) =>
      if pc < script.length then
        (CScript.getOp2 script pc).map fun r =>
          if r.fRet then
            match body r st with
            | .inl st => .inl (r.pc, st)
            | .inr res => .inr res
          else .inr (fail st)
      else some (.inr (finish st))

/-- The loop of `EvalScript`. -/
def evalRound (c : ScriptCrypto) (I : Interpreter) : Nat × EvalState → Option ((Nat × EvalState) ⊕ OpResult) :=
  opRound script .ok (fun _ => .error .badOpcode) fun r st =>
    match (evalStep c I r.opcodeRet r.vchRet (script.drop r.pc) st).1 with
    | .ok st => .inl st
    | .error e => .inr (.error e)

/-- The loop of `GetSigOpCount`: `n` and `lastOpcode`. -/
def sigOpRound (fAccurate : Bool) : Nat × (UInt32 × UInt8) → Option ((Nat × (UInt32 × UInt8)) ⊕ UInt32) :=
  opRound script Prod.fst Prod.fst fun r (n, lastOpcode) =>
    .inl (n + UInt32.ofNat (CScript.sigOpsOf fAccurate lastOpcode r.opcodeRet), r.opcodeRet)

/-- The loop of `GetSigOpCount` over a `scriptSig`, which leaves what is pushed last. -/
def lastPushedRound : Nat × Bytes → Option ((Nat × Bytes) ⊕ Option Bytes) :=
  opRound script some (fun _ => none) fun r _ => if OP_16 < r.opcodeRet then .inr none else .inl r.vchRet

def isPushOnlyRound : Nat × Unit → Option ((Nat × Unit) ⊕ Bool) :=
  opRound script (fun _ => true) (fun _ => false) fun r _ => if OP_16 < r.opcodeRet then .inr false else .inl ()

/-- Whether an instruction has the shortest form for what it pushes. -/
def isCanonicalPush (opcode : UInt8) (data : Bytes) : Bool :=
  if OP_16 < opcode then true
  else if opcode < OP_PUSHDATA1 ∧ OP_0 < opcode ∧ data.length = 1 ∧ data.getD 0 0 ≤ 16 then false
  else if opcode = OP_PUSHDATA1 ∧ data.length < OP_PUSHDATA1.toNat then false
  else if opcode = OP_PUSHDATA2 ∧ data.length ≤ 0xff then false
  else if opcode = OP_PUSHDATA4 ∧ data.length ≤ 0xffff then false
  else true

def hasCanonicalPushesRound : Nat × Unit → Option ((Nat × Unit) ⊕ Bool) :=
  opRound script (fun _ => true) (fun _ => false) fun r _ =>
    if isCanonicalPush r.opcodeRet r.vchRet then .inl () else .inr false

end Loops

/-- A round of `FindAndDelete`, for a `b` that is not empty: a deletion, or else a call of `GetOp`. The state is the
script, the iterator and `nFound`. -/
def findAndDeleteRound (b : CScript) : CScript × Nat × Nat → Option ((CScript × Nat × Nat) ⊕ (CScript × Nat))
  | (script, pc, nFound) =>
      let found : Option Bool :=
        if b.length ≤ script.length - pc then (CScript.bytesAt script pc b.length).map (· == b) else some false
      match found with
      | none => none
      | some true => some (.inl (script.take pc ++ script.drop (pc + b.length), pc, nFound + 1))
      | some false =>
          (CScript.getOp2 script pc).map fun r =>
            if r.fRet then .inl (script, r.pc, nFound) else .inr (script, nFound)

/-- `GetOp2` called over and over: what it has read, and where it ends. -/
def walkRound (script : CScript) : Nat × List Bytes → Option ((Nat × List Bytes) ⊕ (Nat × List Bytes))
  | (pc, vchs) =>
      (CScript.getOp2 script pc).map fun r => if r.fRet then .inl (r.pc, vchs ++ [r.vchRet]) else .inr (r.pc, vchs)

/-! ## Positions and what comes from them on -/

namespace CScript

variable {script : CScript} {pc : Nat} {opcode : UInt8}

theorem bytesAt_eq {size : Nat} (hpc : pc ≤ script.length) (h : size ≤ script.length - pc) :
    bytesAt script pc size = some ((script.drop pc).take size) := if_pos (by omega)

/-- A size is read inside of the script, and the iterator stays in it. -/
theorem operandSize_cases (opcode : UInt8) (hpc : pc ≤ script.length) :
    (operandSize script opcode pc = some none ∧ sizedOperand opcode (script.drop pc) = none) ∨
      ∃ nSize pc', pc ≤ pc' ∧ pc' ≤ script.length ∧ operandSize script opcode pc = some (some (nSize, pc')) ∧
        sizedOperand opcode (script.drop pc) = some (nSize, script.drop pc') := by
  rw [operandSize, sizedOperand]
  cases pushSize opcode with
  | none => exact Or.inr ⟨opcode.toNat, pc, Nat.le_refl pc, hpc, rfl, rfl⟩
  | some size =>
      dsimp only
      rw [readLe, readBytes, List.length_drop]
      split_ifs with hcut
      · exact Or.inl ⟨rfl, rfl⟩
      · have hsize := Nat.not_lt.1 hcut
        refine Or.inr ⟨ofLeBytes ((script.drop pc).take size), pc + size, Nat.le_add_right _ _, by omega, ?_, ?_⟩
        · rw [bytesAt_eq hpc hsize, Option.map_some]
        · rw [List.drop_drop]

/-- The three outcomes. What is left of a long script may seem to be too short for a push. -/
theorem getOp2_cases (hpc : pc ≤ script.length) :
    (getOp (script.drop pc) = none ∧ ∃ pc', pc' ≤ script.length ∧ getOp2 script pc = some (opFailed pc')) ∨
      ∃ opcode vch rest, getOp (script.drop pc) = some (opcode, vch, rest) ∧
        ((OP_PUSHDATA4 < opcode ∨ vch.length ≤ (vch.length + rest.length) % 2 ^ 32) ∧
            getOp2 script pc = some ⟨true, opcode, vch, script.length - rest.length⟩ ∨
          (¬ OP_PUSHDATA4 < opcode ∧ (vch.length + rest.length) % 2 ^ 32 < vch.length) ∧
            ∃ pc', pc' ≤ script.length ∧ getOp2 script pc = some (opFailed pc')) := by
  rw [getOp2]
  by_cases hend : script.length ≤ pc
  · rw [if_pos hend, List.drop_eq_nil_of_le hend]
    exact Or.inl ⟨rfl, pc, hpc, rfl⟩
  · have hlt : pc < script.length := Nat.not_le.1 hend
    rw [if_neg hend, List.getElem?_eq_getElem hlt, List.drop_eq_getElem_cons hlt]
    dsimp only
    by_cases hhigh : OP_PUSHDATA4 < script[pc]
    · have hrest : script.length - (script.drop (pc + 1)).length = pc + 1 := by
        rw [List.length_drop, Nat.sub_sub_self hlt]
      rw [if_pos hhigh]
      refine Or.inr ⟨script[pc], [], script.drop (pc + 1), getOp_opcode hhigh _, Or.inl ⟨Or.inl hhigh, ?_⟩⟩
      rw [hrest]
    · rw [if_neg hhigh, getOp_cons hhigh]
      rcases operandSize_cases script[pc] hlt with ⟨hcut, hsized⟩ | ⟨nSize, pc', hle, hpc', hsize, hsized⟩
      · rw [hcut, hsized]
        exact Or.inl ⟨rfl, pc + 1, hlt, rfl⟩
      · rw [hsize, hsized]
        dsimp only
        rw [List.length_drop]
        by_cases hroom : script.length - pc' < nSize
        · have hmod : (script.length - pc') % 2 ^ 32 < nSize := Nat.lt_of_le_of_lt (Nat.mod_le _ _) hroom
          rw [if_pos hroom, if_pos (Or.inr hmod)]
          exact Or.inl ⟨rfl, pc', hpc', rfl⟩
        · have hdata : ((script.drop pc').take nSize).length = nSize := by
            rw [List.length_take, List.length_drop, Nat.min_eq_left (Nat.not_lt.1 hroom)]
          have hrest : ((script.drop pc').drop nSize).length = script.length - pc' - nSize := by
            rw [List.length_drop, List.length_drop]
          have hsum : nSize + (script.length - pc' - nSize) = script.length - pc' :=
            Nat.add_sub_cancel' (Nat.not_lt.1 hroom)
          rw [if_neg hroom]
          refine Or.inr ⟨script[pc], _, _, rfl, ?_⟩
          rw [hdata, hrest, hsum]
          by_cases hmod : (script.length - pc') % 2 ^ 32 < nSize
          · rw [if_pos (Or.inr hmod)]
            exact Or.inr ⟨⟨hhigh, hmod⟩, pc', hpc', rfl⟩
          · have hnext : script.length - (script.length - pc' - nSize) = pc' + nSize := by omega
            have hinside : ¬ (script.length < pc' ∨ (script.length - pc') % 2 ^ 32 < nSize) := by
              rintro (hout | hshort)
              · exact absurd hpc' (Nat.not_le.2 hout)
              · exact hmod hshort
            rw [if_neg hinside, bytesAt_eq hpc' (Nat.not_lt.1 hroom), hnext]
            exact Or.inl ⟨Or.inr (Nat.not_lt.1 hmod), rfl⟩

/-- No read is outside of the script; a call that succeeds moves the iterator on. -/
theorem getOp2_inside (hpc : pc ≤ script.length) :
    ∃ r, getOp2 script pc = some r ∧ r.pc ≤ script.length ∧ (r.fRet → pc < r.pc) := by
  rcases getOp2_cases hpc with ⟨_, pc', hpc', hread⟩ | ⟨opcode, vch, rest, hop, ⟨_, hread⟩ | ⟨_, pc', hpc', hread⟩⟩
  · exact ⟨_, hread, hpc', fun h => (nomatch h)⟩
  · refine ⟨_, hread, Nat.sub_le _ _, fun _ => ?_⟩
    have hless := length_getOp hop
    rw [List.length_drop] at hless
    change pc < script.length - rest.length
    omega
  · exact ⟨_, hread, hpc', fun h => (nomatch h)⟩

end CScript

/-! ## Every loop comes to its end -/

section Ends

variable {script : CScript} {pc : Nat}

theorem opRound_ends {σ ρ : Type} (finish fail : σ → ρ) (body : OpRead → σ → σ ⊕ ρ) (st : σ) :
    Ends (opRound script finish fail body) (0, st) := by
  refine @ends_of_measure _ _ _ (0, st) (fun s => script.length - s.1) (fun s => s.1 ≤ script.length) ?_ (Nat.zero_le _)
  rintro ⟨pc, st⟩ hpc
  rw [opRound]
  split_ifs with hlt
  · obtain ⟨r, hread, hinside, hmove⟩ := CScript.getOp2_inside hpc
    rw [hread, Option.map_some]
    by_cases hret : r.fRet = true
    · have hless := hmove hret
      rw [if_pos hret]
      cases body r st with
      | inl st' =>
          refine Or.inl ⟨(r.pc, st'), rfl, hinside, ?_⟩
          dsimp only
          omega
      | inr res => exact Or.inr ⟨res, rfl⟩
    · rw [if_neg hret]
      exact Or.inr ⟨_, rfl⟩
  · exact Or.inr ⟨_, rfl⟩

theorem findAndDelete_ends {b : CScript} (hb : b ≠ []) : Ends (findAndDeleteRound b) (script, 0, 0) := by
  refine @ends_of_measure _ _ _ (script, 0, 0) (fun s => s.1.length - s.2.1) (fun s => s.2.1 ≤ s.1.length) ?_
    (Nat.zero_le _)
  rintro ⟨script, pc, nFound⟩ hpc
  change pc ≤ script.length at hpc
  have hsize : 0 < b.length := List.length_pos_iff.2 hb
  have hgetOp : (∃ s', ((CScript.getOp2 script pc).map fun r =>
        if r.fRet then Sum.inl (script, r.pc, nFound) else Sum.inr (script, nFound)) = some (.inl s') ∧
      s'.2.1 ≤ s'.1.length ∧ s'.1.length - s'.2.1 < script.length - pc) ∨
      ∃ r, ((CScript.getOp2 script pc).map fun r =>
        if r.fRet then Sum.inl (script, r.pc, nFound) else Sum.inr (script, nFound)) = some (.inr r) := by
    obtain ⟨r, hread, hinside, hmove⟩ := CScript.getOp2_inside hpc
    rw [hread, Option.map_some]
    by_cases hret : r.fRet = true
    · have hless := hmove hret
      rw [if_pos hret]
      refine Or.inl ⟨(script, r.pc, nFound), rfl, hinside, ?_⟩
      dsimp only
      omega
    · rw [if_neg hret]
      exact Or.inr ⟨_, rfl⟩
  rw [findAndDeleteRound]
  by_cases hroom : b.length ≤ script.length - pc
  · rw [if_pos hroom, CScript.bytesAt_eq hpc hroom, Option.map_some]
    cases (script.drop pc).take b.length == b with
    | true =>
        have hlength : (script.take pc ++ script.drop (pc + b.length)).length = script.length - b.length := by
          rw [List.length_append, List.length_take, List.length_drop]
          omega
        refine Or.inl ⟨_, rfl, ?_, ?_⟩
        · change pc ≤ _
          rw [hlength]
          omega
        · change (script.take pc ++ script.drop (pc + b.length)).length - pc < script.length - pc
          rw [hlength]
          omega
    | false => exact hgetOp
  · rw [if_neg hroom]
    exact hgetOp

end Ends

/-! ## Walking what was pushed -/

/-- Calling `GetOp2` over and over gives the values, and ends at the end of the script. -/
def WalksBack (values : List Bytes) : Prop :=
  ∃ rounds, iterate (walkRound (pushAll values)) rounds (0, []) = some ((pushAll values).length, values)

/-- For each value, what is left of the script from the value on is not too short modulo `2 ^ 32`. -/
def Fits : List Bytes → Prop
  | [] => True
  | v :: vs => v.length ≤ (v.length + (pushAll vs).length) % 2 ^ 32 ∧ Fits vs

theorem pushAll_cons (v : Bytes) (vs : List Bytes) : pushAll (v :: vs) = CScript.push v ++ pushAll vs :=
  List.flatMap_cons

/-- The walk reads all the values that are left, or else less. -/
theorem walk_rounds {script front : CScript} {vs : List Bytes} (hvs : ∀ v ∈ vs, v.length < 2 ^ 32)
    (hscript : script = front ++ pushAll vs) (acc : List Bytes) :
    ∃ pc vchs, iterate (walkRound script) (vs.length + 1) (front.length, acc) = some (pc, acc ++ vchs) ∧
      (Fits vs → pc = script.length ∧ vchs = vs) ∧ (vchs = vs → Fits vs) := by
  induction vs generalizing front acc with
  | nil =>
      have hlength : script.length = front.length := by
        rw [hscript]
        exact congrArg List.length (List.append_nil front)
      have hend : CScript.getOp2 script front.length = some (CScript.opFailed front.length) :=
        if_pos (Nat.le_of_eq hlength)
      have hleave : walkRound script (front.length, acc) = some (.inr (front.length, acc)) := by
        rw [walkRound, hend]
        rfl
      exact ⟨front.length, [], by rw [iterate_leave hleave, List.append_nil], fun _ => ⟨hlength.symm, rfl⟩, fun _ => trivial⟩
  | cons v vs ih =>
      obtain ⟨hv, hvs⟩ := List.forall_mem_cons.1 hvs
      have hpc : front.length ≤ script.length := by
        rw [hscript, List.length_append]
        exact Nat.le_add_right _ _
      have hdrop : script.drop front.length = CScript.push v ++ pushAll vs := by
        rw [hscript, List.drop_left, pushAll_cons]
      obtain ⟨opcode, hlow, hop⟩ := CScript.getOp_push hv (pushAll vs)
      rw [← hdrop] at hop
      rcases CScript.getOp2_cases hpc with ⟨hnone, _⟩ | ⟨opcode', vch, rest, hop', hread⟩
      · rw [hop] at hnone
        cases hnone
      · rw [hop] at hop'
        cases hop'
        rcases hread with ⟨hroom, hread⟩ | ⟨⟨_, hshort⟩, pc', _, hread⟩
        · have hfits : v.length ≤ (v.length + (pushAll vs).length) % 2 ^ 32 :=
            hroom.resolve_left (UInt8.not_lt.2 hlow)
          have hnext : script.length - (pushAll vs).length = (front ++ CScript.push v).length := by
            rw [hscript, pushAll_cons, ← List.append_assoc, List.length_append, Nat.add_sub_cancel]
          have hround : walkRound script (front.length, acc) =
              some (.inl ((front ++ CScript.push v).length, acc ++ [v])) := by
            rw [walkRound, hread, hnext]
            rfl
          have hscript' : script = front ++ CScript.push v ++ pushAll vs := by
            rw [hscript, pushAll_cons, List.append_assoc]
          obtain ⟨pc, vchs, hwalk, hback, hall⟩ := ih hvs hscript' (acc ++ [v])
          refine ⟨pc, v :: vchs, ?_, ?_, ?_⟩
          · rw [List.length_cons, iterate_next hround, hwalk, List.append_assoc]
            rfl
          · rintro ⟨_, hrest⟩
            obtain ⟨hend, hvchs⟩ := hback hrest
            exact ⟨hend, congrArg (v :: ·) hvchs⟩
          · intro h
            exact ⟨hfits, hall (List.cons.inj h).2⟩
        · have hround : walkRound script (front.length, acc) = some (.inr (pc', acc)) := by
            rw [walkRound, hread]
            rfl
          refine ⟨pc', [], by rw [iterate_leave hround, List.append_nil], ?_, fun h => (nomatch h)⟩
          rintro ⟨hfits, _⟩
          exact absurd hshort (Nat.not_lt.2 hfits)

theorem walksBack_iff {values : List Bytes} (h : ∀ v ∈ values, v.length < 2 ^ 32) : WalksBack values ↔ Fits values := by
  obtain ⟨pc, vchs, hwalk, hback, hall⟩ := @walk_rounds (pushAll values) [] values h rfl []
  rw [List.nil_append] at hwalk
  constructor
  · rintro ⟨rounds, hrounds⟩
    have hsame := iterate_unique hwalk hrounds
    exact hall (congrArg Prod.snd hsame)
  · intro hfits
    obtain ⟨rfl, rfl⟩ := hback hfits
    exact ⟨_, hwalk⟩

/-- A script of less than `2 ^ 32` bytes is walked back. -/
theorem fits_of_length_lt {values : List Bytes} (h : (pushAll values).length < 2 ^ 32) : Fits values := by
  induction values with
  | nil => trivial
  | cons v vs ih =>
      have hpush := length_push_le v
      rw [pushAll_cons, List.length_append] at h
      refine ⟨?_, ih (by omega)⟩
      rw [Nat.mod_eq_of_lt (by omega)]
      exact Nat.le_add_right _ _

/-! ## The codec and the loops -/

/-- From any position in the script, `GetOp2` reads inside of it and fails or moves on. -/
def ReadsInside (script : CScript) : Prop :=
  ∀ pc ≤ script.length, ∃ r, CScript.getOp2 script pc = some r ∧ r.pc ≤ script.length ∧ (r.fRet = false ∨ pc < r.pc)

/-- Each loop over the script comes to its end. -/
structure ScansEnd (script : CScript) : Prop where
  evalScript : ∀ c I stack, Ends (evalRound script c I) (0, { stack := stack, pbegincodehash := script })
  findAndDelete : ∀ b ≠ [], Ends (findAndDeleteRound b) (script, 0, 0)
  getSigOpCount : ∀ fAccurate, Ends (sigOpRound script fAccurate) (0, 0, OP_INVALIDOPCODE)
  lastPushed : Ends (lastPushedRound script) (0, [])
  isPushOnly : Ends (isPushOnlyRound script) (0, ())
  hasCanonicalPushes : Ends (hasCanonicalPushesRound script) (0, ())

theorem readsInside (script : CScript) : ReadsInside script := by
  intro pc hpc
  obtain ⟨r, hread, hinside, hmove⟩ := CScript.getOp2_inside hpc
  refine ⟨r, hread, hinside, ?_⟩
  cases hret : r.fRet with
  | false => exact Or.inl rfl
  | true => exact Or.inr (hmove hret)

theorem scansEnd (script : CScript) : ScansEnd script where
  evalScript _ _ _ := opRound_ends _ _ _ _
  findAndDelete _ hb := findAndDelete_ends hb
  getSigOpCount _ := opRound_ends _ _ _ _
  lastPushed := opRound_ends _ _ _ _
  isPushOnly := opRound_ends _ _ _ _
  hasCanonicalPushes := opRound_ends _ _ _ _

/-- The values come back exactly where no push seems to be cut off modulo `2 ^ 32`. Every script is read inside, and
walked to an end. -/
theorem pushCodec_walks_iff (values : List Bytes) (h : ∀ v ∈ values, v.length < 2 ^ 32) :
    (WalksBack values ↔ Fits values) ∧ ∀ script, ReadsInside script ∧ ScansEnd script :=
  ⟨walksBack_iff h, fun script => ⟨readsInside script, scansEnd script⟩⟩

theorem pushCodec_walks_short : WalksBack [[], [7], [1, 2]] := by
  have hsize : ∀ v ∈ ([[], [7], [1, 2]] : List Bytes), v.length < 2 ^ 32 := by decide
  exact (pushCodec_walks_iff [[], [7], [1, 2]] hsize).1.2 (fits_of_length_lt (by decide))

/-- After the header of the first value `2 ^ 32` bytes are left. -/
theorem not_walksBack {v w : Bytes} (hv : v.length = 100) (hw : w.length = 2 ^ 32 - 105) :
    (∀ u ∈ [v, w], u.length < 2 ^ 32) ∧ ¬ WalksBack [v, w] := by
  have hsizes : ∀ u ∈ [v, w], u.length < 2 ^ 32 := by
    intro u hu
    rcases List.mem_pair.1 hu with rfl | rfl
    · omega
    · omega
  have hdirect : ¬ w.length < OP_PUSHDATA1.toNat := by
    rw [hw]
    decide
  have hpush : (pushAll [w]).length = 2 ^ 32 - 100 := by
    rw [pushAll_cons, CScript.push, if_neg hdirect, if_neg (by omega), if_neg (by omega), List.length_append,
      List.length_cons, List.length_append, length_leBytes, hw]
    rfl
  refine ⟨hsizes, fun h => ?_⟩
  have hfits := ((walksBack_iff hsizes).1 h).1
  rw [hv, hpush] at hfits
  exact absurd hfits (by decide)

theorem pushCodec_not_walked : ¬ ∀ values : List Bytes, (∀ v ∈ values, v.length < 2 ^ 32) → WalksBack values := by
  intro h
  obtain ⟨hsizes, hnot⟩ := @not_walksBack (List.replicate 100 0) (List.replicate (2 ^ 32 - 105) 0)
    List.length_replicate List.length_replicate
  exact hnot (h _ hsizes)

end ProCurrency

import ProCurrency.Script.Solver

/-!
# Scripts and destinations

What `ExtractDestination` returns for the scripts that are built, and which scripts it returns a destination for.
-/

namespace ProCurrency

open ByteCodec CBitcoinAddress

/-! ## Key hashes -/

/-- The scripts that push a key hash with one of the four opcodes that can. -/
def pubKeyHashScripts (keyID : CKeyID) : List CScript :=
  [[20], [OP_PUSHDATA1, 20], [OP_PUSHDATA2, 20, 0], [OP_PUSHDATA4, 20, 0, 0, 0]].map fun header =>
    OP_DUP :: OP_HASH160 :: (header ++ (writeKeyID keyID ++ [OP_EQUALVERIFY, OP_CHECKSIG]))

theorem isPayToScriptHash_cons {op : UInt8} (h : op ≠ OP_HASH160) (rest : CScript) :
    CScript.isPayToScriptHash (op :: rest) = false := by
  have hop : (op == OP_HASH160) = false := beq_false_of_ne h
  rw [CScript.isPayToScriptHash, List.getD_cons_zero, hop, Bool.and_false, Bool.false_and, Bool.false_and]

theorem matchTemplate_pubKey_opcode {op : UInt8} (h : OP_PUSHDATA4 < op) (rest : CScript) :
    matchTemplate (op :: rest) [OP_PUBKEY, OP_CHECKSIG] = none := by
  refine Option.eq_none_iff_forall_ne_some.2 fun r hmatch => ?_
  obtain ⟨opcode, vch, hop, hsize, _⟩ := matchTemplate_pubKey.1 hmatch
  rw [CScript.getOp_opcode h] at hop
  cases hop
  cases hsize

theorem matchTemplate_pubKeyHash_opcode {op : UInt8} (h : op ≠ OP_DUP) (rest : CScript) :
    matchTemplate (op :: rest) [OP_DUP, OP_HASH160, OP_PUBKEYHASH, OP_EQUALVERIFY, OP_CHECKSIG] = none := by
  refine Option.eq_none_iff_forall_ne_some.2 fun r hmatch => ?_
  obtain ⟨_, _, _, hscript, _⟩ := matchTemplate_pubKeyHash.1 hmatch
  exact h (List.cons.inj hscript).1

theorem getOp_hash {vch rest : Bytes} {header : CScript} (hlength : vch.length = SIZE_OF_UINT160)
    (hheader : header ∈ [[20], [OP_PUSHDATA1, 20], [OP_PUSHDATA2, 20, 0], [OP_PUSHDATA4, 20, 0, 0, 0]]) :
    ∃ opcode, CScript.getOp (header ++ (vch ++ rest)) = some (opcode, vch, rest) := by
  have hlength' : vch.length = 20 := hlength
  have hdirect := @CScript.getOp_direct vch (by rw [hlength']; decide) rest
  have hlong : ∀ opcode size, CScript.pushSize opcode = some size → 20 < 256 ^ size →
      CScript.getOp (opcode :: (leBytes size 20 ++ (vch ++ rest))) = some (opcode, vch, rest) :=
    fun opcode size hsize hlt => hlength' ▸ CScript.getOp_long hsize (hlength'.symm ▸ hlt) rest
  rw [hlength'] at hdirect
  simp only [List.mem_cons, List.not_mem_nil, or_false] at hheader
  rcases hheader with rfl | rfl | rfl | rfl
  · exact ⟨_, hdirect⟩
  · exact ⟨_, hlong OP_PUSHDATA1 1 rfl (by decide)⟩
  · exact ⟨_, hlong OP_PUSHDATA2 2 rfl (by decide)⟩
  · exact ⟨_, hlong OP_PUSHDATA4 4 rfl (by decide)⟩

theorem header_of_getOp {pc vch rest : Bytes} {opcode : UInt8} (hlength : vch.length = SIZE_OF_UINT160)
    (h : CScript.getOp pc = some (opcode, vch, rest)) :
    ∃ header ∈ [[20], [OP_PUSHDATA1, 20], [OP_PUSHDATA2, 20, 0], [OP_PUSHDATA4, 20, 0, 0, 0]],
      pc = header ++ (vch ++ rest) := by
  have hlength' : vch.length = 20 := hlength
  rcases CScript.getOp_cases h with ⟨_, hempty, _⟩ | ⟨_, hop, hpc⟩ | ⟨size, hsize, _, hpc⟩
  · rw [hempty] at hlength'
    cases hlength'
  · rw [hlength'] at hop
    obtain rfl : opcode = 20 := UInt8.toNat_inj.1 hop
    exact ⟨[20], List.mem_cons_self, hpc⟩
  · rw [hlength'] at hpc
    unfold CScript.pushSize at hsize
    split at hsize
    · cases hsize
      exact ⟨[OP_PUSHDATA1, 20], by decide, hpc⟩
    · cases hsize
      exact ⟨[OP_PUSHDATA2, 20, 0], by decide, hpc⟩
    · cases hsize
      exact ⟨[OP_PUSHDATA4, 20, 0, 0, 0], by decide, hpc⟩
    · cases hsize

theorem solver_pubKeyHash {keyID : CKeyID} {script : CScript} (h : script ∈ pubKeyHashScripts keyID) :
    solver script = some (true, .pubKeyHash, [writeKeyID keyID]) := by
  obtain ⟨header, hheader, rfl⟩ := List.mem_map.1 h
  obtain ⟨opcode, hop⟩ := @getOp_hash _ [OP_EQUALVERIFY, OP_CHECKSIG] _ (length_writeKeyID keyID) hheader
  rw [solver, isPayToScriptHash_cons (by decide), if_neg Bool.false_ne_true, mTemplates,
    scanTemplates_cons_none (matchTemplate_pubKey_opcode (by decide) _)]
  exact scanTemplates_cons_some (by decide)
    (matchTemplate_pubKeyHash.2 ⟨opcode, _, _, rfl, hop, length_writeKeyID keyID, rfl⟩)

/-- Only these are found to be a key hash. -/
theorem of_solver_pubKeyHash {script : CScript} {vSolutions : List Bytes}
    (h : solver script = some (true, .pubKeyHash, vSolutions)) :
    ∃ keyID, script ∈ pubKeyHashScripts keyID ∧ vSolutions = [writeKeyID keyID] := by
  rw [solver] at h
  split_ifs at h
  · cases h
  · obtain ⟨script2, hmem, hmatch⟩ := scanTemplates_found h
    simp only [mTemplates, List.mem_cons, Prod.mk.injEq, reduceCtorEq, false_and, true_and, false_or, or_false,
      List.not_mem_nil] at hmem
    rw [hmem] at hmatch
    obtain ⟨opcode, vch, rest, rfl, hop, hlength, rfl⟩ := matchTemplate_pubKeyHash.1 hmatch
    obtain ⟨header, hheader, rfl⟩ := header_of_getOp hlength hop
    refine ⟨readKeyID vch, List.mem_map.2 ⟨header, hheader, ?_⟩, ?_⟩
    · rw [writeKeyID_readKeyID hlength]
    · rw [writeKeyID_readKeyID hlength]

theorem uint160OfVch_writeKeyID (keyID : CKeyID) : uint160OfVch (writeKeyID keyID) = keyID :=
  (if_pos (length_writeKeyID keyID)).trans (readKeyID_writeKeyID keyID)

/-! ## Script hashes -/

theorem isPayToScriptHash_script {vch : Bytes} (h : vch.length = 20) :
    CScript.isPayToScriptHash (OP_HASH160 :: 20 :: (vch ++ [OP_EQUAL])) := by
  have hlast : (OP_HASH160 :: 20 :: (vch ++ [OP_EQUAL])).getD 22 0 = OP_EQUAL := by
    rw [List.getD_cons_succ, List.getD_cons_succ, List.getD_append_right _ _ _ _ (by omega), h]
    rfl
  rw [CScript.isPayToScriptHash, hlast]
  simp [h]

theorem of_isPayToScriptHash {script : CScript} (h : script.isPayToScriptHash) :
    ∃ vch : Bytes, vch.length = 20 ∧ script = OP_HASH160 :: 20 :: (vch ++ [OP_EQUAL]) := by
  rw [CScript.isPayToScriptHash] at h
  simp only [Bool.and_eq_true, beq_iff_eq] at h
  obtain ⟨⟨⟨hlength, h0⟩, h1⟩, h22⟩ := h
  obtain ⟨op0, op1, rest, rfl⟩ : ∃ op0 op1 rest, script = op0 :: op1 :: rest := by
    match script, hlength with
    | op0 :: op1 :: rest, _ => exact ⟨op0, op1, rest, rfl⟩
  have hrest : rest.length = 21 := by simpa using hlength
  have hne : rest ≠ [] := List.ne_nil_of_length_pos (by omega)
  have hsplit := List.dropLast_append_getLast hne
  have hinit : rest.dropLast.length = 20 := by rw [List.length_dropLast, hrest]
  rw [List.getD_cons_succ, List.getD_cons_succ, ← hsplit, List.getD_append_right _ _ _ _ (by omega), hinit] at h22
  have hlast : rest.getLast hne = OP_EQUAL := h22
  rw [hlast] at hsplit
  obtain rfl : op0 = OP_HASH160 := h0
  obtain rfl : op1 = 20 := h1
  exact ⟨rest.dropLast, hinit, by rw [hsplit]⟩

/-- This is the one script that is found to be a script hash. -/
theorem solver_scriptHash_iff {script : CScript} {vSolutions : List Bytes} :
    solver script = some (true, .scriptHash, vSolutions) ↔
      ∃ scriptID, script = OP_HASH160 :: 20 :: (writeKeyID scriptID ++ [OP_EQUAL]) ∧
        vSolutions = [writeKeyID scriptID] := by
  constructor
  · intro h
    rw [solver] at h
    split_ifs at h with hp2sh
    · obtain ⟨vch, hlength, rfl⟩ := of_isPayToScriptHash hp2sh
      cases h
      refine ⟨readKeyID vch, ?_, ?_⟩
      · rw [writeKeyID_readKeyID hlength]
      · rw [writeKeyID_readKeyID hlength]
        exact congrArg (· :: []) (List.take_left' hlength)
    · obtain ⟨script2, hmem, _⟩ := scanTemplates_found h
      simp only [mTemplates, List.mem_cons, Prod.mk.injEq, reduceCtorEq, false_and, or_self, List.not_mem_nil] at hmem
  · rintro ⟨scriptID, rfl, rfl⟩
    rw [solver, isPayToScriptHash_script (length_writeKeyID scriptID), if_pos rfl]
    exact congrArg (fun vch => some (true, TxnOutType.scriptHash, [vch])) (List.take_left' (length_writeKeyID scriptID))

/-- No script leads outside of a vector. -/
theorem solver_isSome (script : CScript) : (solver script).isSome := by
  rw [solver]
  split_ifs
  · rfl
  · refine scanTemplates_isSome fun script2 hmem => ?_
    simpa [mTemplates] using hmem

/-! ## Multisig -/

theorem encodeOpN_spec {n : Nat} (hpos : 1 ≤ n) (hmax : n ≤ 16) :
    isSmallIntegerOp (encodeOpN n) ∧ OP_PUSHDATA4 < encodeOpN n ∧ encodeOpN n ≠ OP_DUP ∧ encodeOpN n ≠ OP_HASH160 ∧
      smallInteger (encodeOpN n) = [UInt8.ofNat n] := by
  interval_cases n
  all_goals decide

/-- The keys that are pushed are taken, up to the number behind them. -/
theorem takePubKeys_pushed {keys : List Bytes} {opN : UInt8} (hkeys : ∀ key ∈ keys, isPubKeySize key)
    (hopN : OP_PUSHDATA4 < opN) (vSolutions : List Bytes) (opcode1 : UInt8) {vch1 : Bytes} (hvch1 : isPubKeySize vch1)
    (rest : CScript) {rounds : Nat} (hrounds : (keys.flatMap CScript.push ++ opN :: rest).length < rounds) :
    takePubKeys vSolutions opcode1 vch1 rounds (keys.flatMap CScript.push ++ opN :: rest) =
      (vSolutions ++ vch1 :: keys, opN, [], rest) := by
  induction keys generalizing vSolutions opcode1 vch1 rounds with
  | nil =>
      obtain ⟨rounds, rfl⟩ := Nat.exists_eq_add_one_of_ne_zero (Nat.ne_of_gt (Nat.zero_lt_of_lt hrounds))
      rw [takePubKeys, if_pos hvch1, List.flatMap_nil, List.nil_append, CScript.getOp_opcode hopN]
      cases rounds <;> rfl
  | cons key keys ih =>
      obtain ⟨rounds, rfl⟩ := Nat.exists_eq_add_one_of_ne_zero (Nat.ne_of_gt (Nat.zero_lt_of_lt hrounds))
      have hkey := hkeys key List.mem_cons_self
      have hsize : key.length ≤ 120 := (Bool.and_eq_true _ _ ▸ hkey).2 |> of_decide_eq_true
      obtain ⟨opcode, _, hop⟩ := @CScript.getOp_push key (by omega) (keys.flatMap CScript.push ++ opN :: rest)
      rw [List.flatMap_cons, List.append_assoc] at hrounds ⊢
      rw [takePubKeys, if_pos hvch1, hop]
      dsimp only
      have hlt := CScript.length_getOp hop
      rw [ih (fun key hmem => hkeys key (List.mem_cons_of_mem _ hmem)) _ _ hkey (by omega), List.append_assoc]
      rfl

theorem solver_multisig {m : Nat} {keys : List CPubKey} (hpos : 1 ≤ m) (hm : m ≤ keys.length)
    (hmax : keys.length ≤ 16) (hkeys : ∀ key ∈ keys, isPubKeySize key) :
    solver (getScriptForMultisig m keys) =
      some (true, .multisig, [UInt8.ofNat m] :: (keys ++ [[UInt8.ofNat keys.length]])) := by
  obtain ⟨hsmallM, hhighM, hdupM, hhashM, hintM⟩ := @encodeOpN_spec m hpos (by omega)
  obtain ⟨hsmallN, hhighN, _, _, hintN⟩ := @encodeOpN_spec keys.length (by omega) hmax
  have hmatch : matchTemplate (getScriptForMultisig m keys)
      [OP_SMALLINTEGER, OP_PUBKEYS, OP_SMALLINTEGER, OP_CHECKMULTISIG] =
        some ([UInt8.ofNat m] :: (keys ++ [[UInt8.ofNat keys.length]])) := by
    cases keys with
    | nil => exact absurd hm (Nat.not_le_of_lt hpos)
    | cons key keys =>
        have hkey := hkeys key List.mem_cons_self
        have hsize : key.length ≤ 120 := (Bool.and_eq_true _ _ ▸ hkey).2 |> of_decide_eq_true
        obtain ⟨opcode, _, hop⟩ := @CScript.getOp_push key (by omega)
          (keys.flatMap CScript.push ++ [encodeOpN (key :: keys).length, OP_CHECKMULTISIG])
        refine matchTemplate_multisig.2 ⟨_, _, _, opcode, _, _, _, _, _, CScript.getOp_opcode hhighM _, hsmallM, ?_,
          takePubKeys_pushed (fun key hmem => hkeys key (List.mem_cons_of_mem _ hmem)) hhighN _ _ hkey _
            (Nat.lt_succ_self _), hsmallN, ?_⟩
        · rw [List.flatMap_cons, List.append_assoc]
          exact hop
        · rw [hintM, hintN]
          rfl
  have hcheck : checkMultisig ([UInt8.ofNat m] :: (keys ++ [[UInt8.ofNat keys.length]])) = some true := by
    have hM : (UInt8.ofNat m).toNat = m := UInt8.toNat_ofNat_of_lt' (Nat.lt_of_le_of_lt (hm.trans hmax) (by decide))
    have hN : (UInt8.ofNat keys.length).toNat = keys.length :=
      UInt8.toNat_ofNat_of_lt' (Nat.lt_of_le_of_lt hmax (by decide))
    have hone : (1 : UInt8).toNat = 1 := rfl
    have hm1 : ¬ UInt8.ofNat m < 1 := by rw [UInt8.lt_iff_toNat_lt, hM, hone]; omega
    have hn1 : ¬ UInt8.ofNat keys.length < 1 := by rw [UInt8.lt_iff_toNat_lt, hN, hone]; omega
    have hnm : ¬ UInt8.ofNat keys.length < UInt8.ofNat m := by rw [UInt8.lt_iff_toNat_lt, hN, hM]; omega
    rw [checkMultisig_eq, hN, decide_eq_false hm1, decide_eq_false hn1, decide_eq_false hnm,
      decide_eq_false (not_not.2 rfl)]
    rfl
  rw [solver, getScriptForMultisig, isPayToScriptHash_cons hhashM, if_neg Bool.false_ne_true, mTemplates,
    scanTemplates_cons_none (matchTemplate_pubKey_opcode hhighM _),
    scanTemplates_cons_none (matchTemplate_pubKeyHash_opcode hdupM _), scanTemplates]
  rw [getScriptForMultisig] at hmatch
  rw [hmatch]
  dsimp only
  rw [if_pos rfl, hcheck]
  rfl

/-! ## Destinations -/

section Destinations

variable {order : Nat} (c : ScriptCrypto)

theorem extractDestination_keyID {keyID : CKeyID} {script : CScript} (h : script ∈ pubKeyHashScripts keyID) :
    extractDestination c script = some (some (.keyID keyID : Destination order)) := by
  rw [extractDestination, solver_pubKeyHash h]
  exact congrArg (fun id => some (some (Destination.keyID id))) (uint160OfVch_writeKeyID keyID)

theorem extractDestination_scriptID (scriptID : CKeyID) :
    extractDestination c (getScriptForDestination (.scriptID scriptID : Destination order)) =
      some (some (.scriptID scriptID : Destination order)) := by
  have hsolver : solver (getScriptForDestination (.scriptID scriptID : Destination order)) =
      some (true, .scriptHash, [writeKeyID scriptID]) := solver_scriptHash_iff.2 ⟨scriptID, rfl, rfl⟩
  rw [extractDestination, hsolver]
  exact congrArg (fun id => some (some (Destination.scriptID id))) (uint160OfVch_writeKeyID scriptID)

theorem getScriptForDestination_mem (keyID : CKeyID) :
    getScriptForDestination (.keyID keyID : Destination order) ∈ pubKeyHashScripts keyID := List.mem_cons_self

/-- A script through which a key hash is returned is one of the four. -/
theorem mem_pubKeyHashScripts {keyID : CKeyID} {script : CScript} {vSolutions : List Bytes}
    (hsolver : solver script = some (true, .pubKeyHash, vSolutions))
    (h : extractDestination c script = some (some (.keyID keyID : Destination order))) :
    script ∈ pubKeyHashScripts keyID := by
  obtain ⟨keyID', hmem, _⟩ := of_solver_pubKeyHash hsolver
  rw [extractDestination_keyID c hmem] at h
  cases h
  exact hmem

theorem eq_getScriptForDestination {scriptID : CKeyID} {script : CScript} {vSolutions : List Bytes}
    (hsolver : solver script = some (true, .scriptHash, vSolutions))
    (h : extractDestination c script = some (some (.scriptID scriptID : Destination order))) :
    script = getScriptForDestination (.scriptID scriptID : Destination order) := by
  obtain ⟨scriptID', rfl, _⟩ := solver_scriptHash_iff.1 hsolver
  have hback := @extractDestination_scriptID order c scriptID'
  rw [getScriptForDestination] at hback
  rw [show OP_HASH160 :: 20 :: (writeKeyID scriptID' ++ [OP_EQUAL]) =
    [OP_HASH160] ++ 20 :: writeKeyID scriptID' ++ [OP_EQUAL] from rfl, hback] at h
  cases h
  rfl

/-- Keys are the keys of the script, and their number is what its last number says. -/
theorem extractDestinations_multisig {m : Nat} {keys : List CPubKey} (hpos : 1 ≤ m) (hm : m ≤ keys.length)
    (hmax : keys.length ≤ 16)
    (hkeys : ∀ key ∈ keys, CPubKey.set key = key ∧ (key.length = 33 ∨ key.length = 65)) :
    extractDestinations c (getScriptForMultisig m keys) =
      some (some (.multisig, keys.map fun key => (.keyID (CPubKey.getID c key) : Destination order), m)) := by
  have hsizes : ∀ key ∈ keys, isPubKeySize key := fun key hmem => by
    rw [isPubKeySize, Bool.and_eq_true, decide_eq_true_eq, decide_eq_true_eq]
    have hlength := (hkeys key hmem).2
    omega
  have hM : (UInt8.ofNat m).toNat = m := UInt8.toNat_ofNat_of_lt' (Nat.lt_of_le_of_lt (hm.trans hmax) (by decide))
  have hbetween : (([UInt8.ofNat m] :: (keys ++ [[UInt8.ofNat keys.length]])).drop 1).take
      (([UInt8.ofNat m] :: (keys ++ [[UInt8.ofNat keys.length]])).length - 2) = keys := by
    rw [List.length_cons, List.length_append, List.length_singleton, List.drop_succ_cons, List.drop_zero]
    exact List.take_left' (by omega)
  have hids : keys.map (fun vch => (.keyID (CPubKey.getID c (CPubKey.set vch)) : Destination order)) =
      keys.map fun key => .keyID (CPubKey.getID c key) :=
    List.map_congr_left fun key hmem => by rw [(hkeys key hmem).1]
  rw [extractDestinations, solver_multisig hpos hm hmax hsizes]
  dsimp only
  rw [hbetween, hids]
  change some (some (_, _, (UInt8.ofNat m).toNat)) = _
  rw [hM]

/-- Destinations are what their scripts are found to be, multisig scripts give back their keys, and the scripts of an
address are known: one for a script hash, and four for a key hash, one for each opcode that can push it. -/
theorem destinations_inverse :
    (∀ keyID, extractDestination c (getScriptForDestination (.keyID keyID : Destination order)) =
        some (some (.keyID keyID : Destination order))) ∧
      (∀ scriptID, extractDestination c (getScriptForDestination (.scriptID scriptID : Destination order)) =
        some (some (.scriptID scriptID : Destination order))) ∧
      (∀ (m : Nat) (keys : List CPubKey), 1 ≤ m → m ≤ keys.length → keys.length ≤ 16 →
        (∀ key ∈ keys, CPubKey.set key = key ∧ (key.length = 33 ∨ key.length = 65)) →
        extractDestinations c (getScriptForMultisig m keys) =
          some (some (.multisig, keys.map fun key => (.keyID (CPubKey.getID c key) : Destination order), m))) ∧
      (∀ script keyID, (∃ vSolutions, solver script = some (true, .pubKeyHash, vSolutions)) ∧
          extractDestination c script = some (some (.keyID keyID : Destination order)) ↔
        script ∈ pubKeyHashScripts keyID) ∧
      (∀ script scriptID, (∃ vSolutions, solver script = some (true, .scriptHash, vSolutions)) ∧
          extractDestination c script = some (some (.scriptID scriptID : Destination order)) ↔
        script = getScriptForDestination (.scriptID scriptID : Destination order)) ∧
      ∀ script, (solver script).isSome := by
  refine ⟨fun keyID => extractDestination_keyID c (getScriptForDestination_mem keyID), extractDestination_scriptID c,
    fun m keys => extractDestinations_multisig c, fun script keyID => ⟨?_, ?_⟩, fun script scriptID => ⟨?_, ?_⟩,
    solver_isSome⟩
  · rintro ⟨⟨vSolutions, hsolver⟩, h⟩
    exact mem_pubKeyHashScripts c hsolver h
  · exact fun h => ⟨⟨_, solver_pubKeyHash h⟩, extractDestination_keyID c h⟩
  · rintro ⟨⟨vSolutions, hsolver⟩, h⟩
    exact eq_getScriptForDestination c hsolver h
  · rintro rfl
    exact ⟨⟨_, solver_scriptHash_iff.2 ⟨scriptID, rfl, rfl⟩⟩, extractDestination_scriptID c scriptID⟩

end Destinations

/-- The script that pushes a hash of zeros with `OP_PUSHDATA1`. -/
def longerScript : CScript :=
  [OP_DUP, OP_HASH160, OP_PUSHDATA1, 20] ++ List.replicate 20 0 ++ [OP_EQUALVERIFY, OP_CHECKSIG]

theorem longerScript_extracted :
    (∃ vSolutions, solver longerScript = some (true, .pubKeyHash, vSolutions)) ∧
      (∀ c, extractDestination c longerScript = some (some (.keyID 0 : Destination 7))) ∧
      longerScript ≠ getScriptForDestination (.keyID 0 : Destination 7) := by
  have hmem : longerScript ∈ pubKeyHashScripts 0 := by decide
  exact ⟨⟨_, solver_pubKeyHash hmem⟩, fun c => extractDestination_keyID c hmem, by decide⟩

end ProCurrency

import Mathlib.Data.List.GetD
import ProCurrency.Encoding.Base58

/-!
# Stealth addresses

`CStealthAddress` (stealth.cpp) and the checksum of hash.cpp. The decoder steps over the number of the spend keys, and
does not look at what follows the first of them.
-/

namespace ProCurrency

open ByteCodec

/-! ## Checksums -/

/-- `BitcoinChecksum`, as the bytes that its number is copied to. -/
def bitcoinChecksum (hash : Bytes → UInt256) (p : Bytes) : Bytes :=
  if p = [] then List.replicate 4 0 else checksum58 hash p

def appendChecksum (hash : Bytes → UInt256) (data : Bytes) : Bytes := data ++ bitcoinChecksum hash data

def verifyChecksum (hash : Bytes → UInt256) (data : Bytes) : Bool :=
  if data.length < 4 then false
  else bitcoinChecksum hash (data.take (data.length - 4)) = data.drop (data.length - 4)

theorem length_bitcoinChecksum (hash : Bytes → UInt256) (p : Bytes) : (bitcoinChecksum hash p).length = 4 := by
  rw [bitcoinChecksum]
  split
  · exact List.length_replicate
  · exact length_checksum58 hash p

theorem length_appendChecksum (hash : Bytes → UInt256) (data : Bytes) :
    (appendChecksum hash data).length = data.length + 4 := by
  rw [appendChecksum, List.length_append, length_bitcoinChecksum]

theorem verifyChecksum_iff (hash : Bytes → UInt256) (data : Bytes) :
    verifyChecksum hash data = true ↔ ∃ body, data = appendChecksum hash body := by
  rw [verifyChecksum]
  constructor
  · intro h
    split at h
    · cases h
    · refine ⟨data.take (data.length - 4), ?_⟩
      rw [appendChecksum, of_decide_eq_true h, List.take_append_drop]
  · rintro ⟨body, rfl⟩
    rw [length_appendChecksum, if_neg (Nat.not_lt.mpr (Nat.le_add_left 4 _)), Nat.add_sub_cancel, appendChecksum,
      List.take_left, List.drop_left]
    exact decide_eq_true rfl

/-! ## The address -/

/-- `base58Prefixes[STEALTH_ADDRESS]`, which is the same on all networks. -/
def stealthPrefix : Bytes := [125]

structure CStealthAddress where
  options : UInt8
  scan_pubkey : Bytes
  spend_pubkey : Bytes
  deriving DecidableEq

namespace CStealthAddress

def setEncoded (hash : Bytes → UInt256) (encodedAddress : Bytes) : Option CStealthAddress :=
  match decodeBase58 encodedAddress with
  | none => none
  | some raw =>
      if verifyChecksum hash raw = false then none
      else if raw.length < 1 + 1 + 33 + 1 + 33 + 1 + 1 + 4 then none
      else if raw.getD 0 0 ≠ stealthPrefix.getD 0 0 then none
      else
        some
          { options := raw.getD 1 0
            scan_pubkey := (raw.drop 2).take 33
            spend_pubkey := (raw.drop 36).take 33 }

/-- The bytes before the checksum: one spend key, no signatures and an empty prefix. -/
def payload (addr : CStealthAddress) : Bytes :=
  stealthPrefix ++ addr.options :: addr.scan_pubkey ++ 1 :: addr.spend_pubkey ++ [0, 0]

/-- `Encoded`; `none` when the assertion of `EncodeBase58` fails. -/
def encoded (hash : Bytes → UInt256) (addr : CStealthAddress) : Option Bytes :=
  encodeBase58 (appendChecksum hash addr.payload)

end CStealthAddress

/-- `IsStealthAddress`. -/
def isStealthAddress (hash : Bytes → UInt256) (encodedAddress : Bytes) : Bool :=
  match decodeBase58 encodedAddress with
  | none => false
  | some raw =>
      if verifyChecksum hash raw = false then false
      else if raw.length < 1 + 1 + 33 + 1 + 33 + 1 + 1 + 4 then false
      else raw.getD 0 0 = stealthPrefix.getD 0 0

namespace CStealthAddress

variable {hash : Bytes → UInt256} {addr : CStealthAddress} {str raw : Bytes}

theorem isStealthAddress_iff : isStealthAddress hash str = true ↔ ∃ addr, setEncoded hash str = some addr := by
  rw [isStealthAddress, setEncoded]
  cases decodeBase58 str with
  | none => simp
  | some raw =>
      dsimp only
      split_ifs <;> simp_all

/-! ## Payloads -/

/-- Both keys are compressed. -/
def Compressed (addr : CStealthAddress) : Prop := addr.scan_pubkey.length = 33 ∧ addr.spend_pubkey.length = 33

theorem length_payload (h : addr.Compressed) : addr.payload.length = 71 := by
  rw [payload]
  simp only [stealthPrefix, List.length_append, List.length_cons, List.length_nil, h.1, h.2]

/-- The address that is read from bytes. -/
def ofRaw (raw : Bytes) : CStealthAddress where
  options := raw.getD 1 0
  scan_pubkey := (raw.drop 2).take 33
  spend_pubkey := (raw.drop 36).take 33

theorem setEncoded_eq_some : setEncoded hash str = some addr ↔
    ∃ raw, decodeBase58 str = some raw ∧ verifyChecksum hash raw = true ∧ 75 ≤ raw.length ∧
      raw.getD 0 0 = 125 ∧ addr = ofRaw raw := by
  rw [setEncoded]
  cases decodeBase58 str with
  | none => simp
  | some raw =>
      dsimp only
      constructor
      · intro h
        split_ifs at h with hsum hlength hversion
        · cases h
          exact ⟨raw, rfl, Bool.eq_true_of_not_eq_false hsum, Nat.le_of_not_lt hlength, not_not.mp hversion, rfl⟩
      · rintro ⟨raw', hraw, hsum, hlength, hversion, rfl⟩
        cases hraw
        have hversion' : raw.getD 0 0 = stealthPrefix.getD 0 0 := hversion
        rw [if_neg (by rw [hsum]; exact Bool.true_eq_false.mp), if_neg (Nat.not_lt.mpr hlength),
          if_neg fun hne => hne hversion']
        rfl

/-! ## The parts of the bytes -/

section Parts

variable {version options number q r : UInt8} {scan spend tail : Bytes}

theorem payload_append (addr : CStealthAddress) (tail : Bytes) : addr.payload ++ tail =
    125 :: addr.options :: (addr.scan_pubkey ++ 1 :: (addr.spend_pubkey ++ 0 :: 0 :: tail)) := by
  simp [payload, stealthPrefix]

theorem ofRaw_parts (hscan : scan.length = 33) (hspend : spend.length = 33) :
    ofRaw (version :: options :: (scan ++ number :: (spend ++ tail))) = ⟨options, scan, spend⟩ := by
  have hdrop : (version :: options :: (scan ++ number :: (spend ++ tail))).drop 36 = spend ++ tail := by
    change (scan ++ number :: (spend ++ tail)).drop 34 = spend ++ tail
    rw [List.append_cons]
    exact List.drop_left' (by rw [List.length_append, hscan]; rfl)
  rw [ofRaw, hdrop, List.take_left' hspend]
  change CStealthAddress.mk options ((scan ++ number :: (spend ++ tail)).take 33) spend = _
  rw [List.take_left' hscan]

theorem getD_number (hscan : scan.length = 33) : (version :: options :: (scan ++ number :: tail)).getD 35 0 = number := by
  change (scan ++ number :: tail).getD 33 0 = number
  rw [List.getD_append_right scan _ 0 33 (Nat.le_of_eq hscan), hscan]
  rfl

theorem getD_rest (hscan : scan.length = 33) (hspend : spend.length = 33) (i : Nat) :
    (version :: options :: (scan ++ number :: (spend ++ tail))).getD (69 + i) 0 = tail.getD i 0 := by
  have hi : 69 + i = 67 + i + 1 + 1 := by omega
  rw [hi, List.getD_cons_succ, List.getD_cons_succ, List.append_cons, ← List.append_assoc,
    List.getD_append_right _ _ 0 _ (by simp only [List.length_append, List.length_singleton, hscan, hspend]; omega)]
  congr 1
  simp only [List.length_append, List.length_singleton, hscan, hspend]
  omega

theorem exists_parts {body : Bytes} (h : body.length = 71) : ∃ version options scan number spend q r,
    scan.length = 33 ∧ spend.length = 33 ∧ body = version :: options :: (scan ++ number :: (spend ++ [q, r])) := by
  match body, h with
  | version :: options :: rest, h =>
      rw [List.length_cons, List.length_cons] at h
      obtain ⟨number, after, hafter⟩ := List.exists_cons_of_length_pos
        (show 0 < (rest.drop 33).length by rw [List.length_drop]; omega)
      have hlength := congrArg List.length hafter
      rw [List.length_drop, List.length_cons] at hlength
      obtain ⟨q, r, hlast⟩ := List.length_eq_two.mp
        (show (after.drop 33).length = 2 by rw [List.length_drop]; omega)
      refine ⟨version, options, rest.take 33, number, after.take 33, q, r, ?_, ?_, ?_⟩
      · rw [List.length_take]
        omega
      · rw [List.length_take]
        omega
      · rw [← hlast, List.take_append_drop, ← hafter, List.take_append_drop]

end Parts

/-! ## There and back -/

theorem ofRaw_appendChecksum (h : addr.Compressed) : ofRaw (appendChecksum hash addr.payload) = addr := by
  rw [appendChecksum, payload_append]
  exact ofRaw_parts h.1 h.2

theorem decodeBase58_encoded (h : encoded hash addr = some str) :
    decodeBase58 str = some (appendChecksum hash addr.payload) := by
  rw [encoded] at h
  rw [decodeBase58_encodeBase58 h, Option.some.injEq, dropWhile_zero_eq_self_iff, appendChecksum, payload_append]
  simp

theorem setEncoded_encoded (haddr : addr.Compressed) (h : encoded hash addr = some str) :
    setEncoded hash str = some addr := by
  refine setEncoded_eq_some.mpr ⟨_, decodeBase58_encoded h, (verifyChecksum_iff hash _).mpr ⟨_, rfl⟩, ?_, ?_, ?_⟩
  · rw [length_appendChecksum, length_payload haddr]
  · rw [appendChecksum, payload_append]
    rfl
  · exact (ofRaw_appendChecksum haddr).symm

/-- The bytes of an address with one spend key, no signatures and no prefix, and nothing behind the checksum. -/
structure Plain (raw : Bytes) : Prop where
  length : raw.length = 75
  spendKeys : raw.getD 35 0 = 1
  signatures : raw.getD 69 0 = 0
  prefixLength : raw.getD 70 0 = 0

theorem compressed_ofRaw (h : 75 ≤ raw.length) : (ofRaw raw).Compressed := by
  constructor
  · change ((raw.drop 2).take 33).length = 33
    rw [List.length_take, List.length_drop]
    omega
  · change ((raw.drop 36).take 33).length = 33
    rw [List.length_take, List.length_drop]
    omega

theorem plain_iff (hsum : verifyChecksum hash raw = true) (hlength : 75 ≤ raw.length) (hversion : raw.getD 0 0 = 125) :
    Plain raw ↔ appendChecksum hash (ofRaw raw).payload = raw := by
  constructor
  · intro hplain
    obtain ⟨body, rfl⟩ := (verifyChecksum_iff hash raw).mp hsum
    have hbody := hplain.length
    rw [length_appendChecksum] at hbody
    obtain ⟨version, options, scan, number, spend, q, r, hscan, hspend, rfl⟩ :=
      exists_parts (Nat.add_right_cancel hbody : body.length = 71)
    have hnumber := hplain.spendKeys
    have hsignatures := hplain.signatures
    have hprefix := hplain.prefixLength
    simp only [appendChecksum, List.cons_append, List.append_assoc] at hversion hnumber hsignatures hprefix
    rw [getD_number hscan] at hnumber
    have hq := (getD_rest hscan hspend 0).symm.trans hsignatures
    have hr := (getD_rest hscan hspend 1).symm.trans hprefix
    change version = 125 at hversion
    change q = 0 at hq
    change r = 0 at hr
    subst hversion hnumber hq hr
    have hpayload : (ofRaw (appendChecksum hash (125 :: options :: (scan ++ 1 :: (spend ++ [0, 0]))))).payload =
        125 :: options :: (scan ++ 1 :: (spend ++ [0, 0])) := by
      rw [appendChecksum]
      simp only [List.cons_append, List.append_assoc]
      rw [ofRaw_parts hscan hspend]
      simp [payload, stealthPrefix]
    rw [hpayload]
  · intro heq
    have haddr := compressed_ofRaw hlength
    generalize ofRaw raw = addr at heq haddr
    subst heq
    constructor
    · rw [length_appendChecksum, length_payload haddr]
    · rw [appendChecksum, payload_append]
      exact getD_number haddr.1
    · rw [appendChecksum, payload_append]
      exact getD_rest haddr.1 haddr.2 0
    · rw [appendChecksum, payload_append]
      exact getD_rest haddr.1 haddr.2 1

/-- The accepted texts that are the text of the address they give. -/
theorem encoded_eq_trim_iff (h : setEncoded hash str = some addr) : encoded hash addr = some (trim str) ↔
    0 ∉ str ∧ (trim str).head? ≠ some (pszBase58.getD 0 0) ∧ ∀ raw, decodeBase58 str = some raw → Plain raw := by
  obtain ⟨raw, hraw, hsum, hlength, hversion, rfl⟩ := setEncoded_eq_some.mp h
  have hreencodes := reencodesTo_iff str
  simp only [ReencodesTo, hraw, Option.some.injEq, forall_eq', reduceCtorEq, false_or] at hreencodes ⊢
  rw [plain_iff hsum hlength hversion]
  constructor
  · intro hencoded
    have hback := decodeBase58_encoded hencoded
    -- The text is that of digits, so it has no zero, and no one in front.
    obtain ⟨_, ds, hds, hhead, -, htext⟩ := trim_of_decodeBase58 hback
    rw [encoded, htext, Option.some.injEq] at hencoded
    have hzero : (0 : UInt8) ∉ str := fun hmem =>
      (not_isspace_of_mem_text58 hds (hencoded ▸ mem_trim hmem rfl)).2 rfl
    have hone : (trim str).head? ≠ some (pszBase58.getD 0 0) := hencoded ▸ head?_text58 hds hhead
    refine ⟨hzero, hone, ?_⟩
    have hkeep : raw.dropWhile (· = 0) = raw := by
      rw [dropWhile_zero_eq_self_iff]
      cases raw with
      | nil => simp
      | cons version rest =>
          change version = 125 at hversion
          rw [hversion]
          simp
    have hraw' := decodeBase58_encodeBase58 (hreencodes.mpr ⟨hzero, hone⟩)
    rw [hback, hkeep] at hraw'
    exact Option.some.inj hraw'
  · rintro ⟨hzero, hone, heq⟩
    rw [encoded, heq]
    exact hreencodes.mpr ⟨hzero, hone⟩

/-- The codec restores every address, and a text that it accepts is that of the address exactly where nothing in it is
passed over. -/
theorem stealthAddress_codec (hash : Bytes → UInt256) :
    (∀ addr : CStealthAddress, addr.scan_pubkey.length = 33 → addr.spend_pubkey.length = 33 →
      ∃ str, encoded hash addr = some str ∧ setEncoded hash str = some addr) ∧
    ∀ str addr, setEncoded hash str = some addr → (encoded hash addr = some (trim str) ↔
      0 ∉ str ∧ (trim str).head? ≠ some (pszBase58.getD 0 0) ∧ ∀ raw, decodeBase58 str = some raw → Plain raw) := by
  constructor
  · intro addr hscan hspend
    exact ⟨_, encodeBase58_eq _, setEncoded_encoded ⟨hscan, hspend⟩ (encodeBase58_eq _)⟩
  · intro str addr h
    exact encoded_eq_trim_iff h

theorem stealthAddress_codec_keys : ∃ str, encoded (fun _ => 0) ⟨0, List.replicate 33 2, List.replicate 33 3⟩ = some str ∧
    setEncoded (fun _ => 0) str = some ⟨0, List.replicate 33 2, List.replicate 33 3⟩ :=
  (stealthAddress_codec fun _ => 0).1 ⟨0, List.replicate 33 2, List.replicate 33 3⟩ rfl rfl

/-- An address with two spend keys is read as one with the first of them. -/
theorem setEncoded_twoSpendKeys :
    ∃ str, encodeBase58 (appendChecksum (fun _ => 0) (125 :: 0 :: (List.replicate 33 2 ++ 2 :: (List.replicate 33 2 ++
        (List.replicate 33 3 ++ [0, 0]))))) = some str ∧
      ∃ addr, setEncoded (fun _ => 0) str = some addr ∧ encoded (fun _ => 0) addr ≠ some (trim str) := by
  generalize (fun _ => 0 : Bytes → UInt256) = hash
  obtain ⟨raw, hraw⟩ : ∃ raw, raw = appendChecksum hash (125 :: 0 :: (List.replicate 33 2 ++ 2 :: (List.replicate 33 2 ++
    (List.replicate 33 3 ++ [0, 0])))) := ⟨_, rfl⟩
  rw [← hraw]
  refine ⟨_, encodeBase58_eq raw, ofRaw raw, ?_⟩
  have hdecode : decodeBase58 (List.replicate (raw.takeWhile (· = 0)).length (pszBase58.getD 0 0) ++
      text58 (Radix.beDigits 58 (valueOf raw))) = some raw := by
    rw [decodeBase58_encodeBase58 (encodeBase58_eq raw), Option.some.injEq, dropWhile_zero_eq_self_iff, hraw]
    exact fun h => absurd (Option.some.inj h) (by decide)
  have hset : setEncoded hash (List.replicate (raw.takeWhile (· = 0)).length (pszBase58.getD 0 0) ++
      text58 (Radix.beDigits 58 (valueOf raw))) = some (ofRaw raw) := by
    refine setEncoded_eq_some.mpr ⟨raw, hdecode, ?_, ?_, ?_, rfl⟩
    · exact (verifyChecksum_iff hash raw).mpr ⟨_, hraw⟩
    · rw [hraw, length_appendChecksum]
      decide
    · rw [hraw]
      rfl
  refine ⟨hset, fun hencoded => ?_⟩
  have hplain := ((encoded_eq_trim_iff hset).mp hencoded).2.2 raw hdecode
  have hnumber := hplain.spendKeys
  rw [hraw, appendChecksum] at hnumber
  simp only [List.cons_append, List.append_assoc] at hnumber
  rw [getD_number List.length_replicate] at hnumber
  exact absurd hnumber (by decide)

end CStealthAddress

end ProCurrency

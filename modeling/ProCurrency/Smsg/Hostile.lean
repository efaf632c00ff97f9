import ProCurrency.Smsg.RoundTrip

/-!
# Payloads of strangers

The end of `SecureMsgDecrypt` (smessage.cpp), from the decrypted payload on, with every length that its sender may
have written there. The result is `none` where the code reads outside the payload, or writes outside
`msg.vchMessage`.
-/

namespace ProCurrency

open ByteCodec Buffer

variable {SK PT : Type}

/-! ## Decompressing -/

/-- `LZ4_decompress_safe` (lz4.c) into an output of negative size: the literals of the first token do not fit, and what
comes back is less by one than minus the bytes that were read. -/
def lz4NegativeOutput : Bytes → Option Int
  | [] => none
  | token :: ip =>
      let nRun := if token >>> 4 = 15 then min ip.length ((ip.takeWhile (· = 255)).length + 1) else 0
      some (-((1 + nRun : Nat) : Int) - 1)

/-- The result of `LZ4_decompress_safe`, with what it has written when it succeeds. The first token is read before
anything is checked. -/
def lz4Decode (c : SmsgCrypto SK PT) (pMsgData : Bytes) (lenPlain : UInt32) : Option (Int × Bytes) :=
  if lenPlain.toNat < 2 ^ 31 then
    match pMsgData with
    | [] => none
    | _ :: _ =>
        match c.lz4DecompressSafe pMsgData lenPlain.toNat with
        | none => some (-1, [])
        | some text => some (text.length, text)
  else (lz4NegativeOutput pMsgData).map fun rv => (rv, [])

/-- `(int) lenPlain`. -/
def signedLength (lenPlain : UInt32) : Int := Int.bmod lenPlain.toNat (2 ^ 32)

/-- The text is in the buffer, and `vchMessage[lenPlain]` becomes zero. -/
def terminate (vchMessage text : Bytes) (lenPlain : UInt32) : Option (Except Nat Bytes) :=
  if text.length ≤ vchMessage.length ∧ lenPlain.toNat < vchMessage.length then
    some (.ok ((patch vchMessage 0 text).set lenPlain.toNat 0))
  else none

/-- From `msg.vchMessage.resize` on; `fResizes` tells for which sizes there is memory. -/
def decodeMessage (c : SmsgCrypto SK PT) (fResizes : Nat → Bool) (vchMessage pMsgData : Bytes) (lenPlain : UInt32) :
    Option (Except Nat Bytes) :=
  let nSize := (lenPlain + 1).toNat
  if 0 < nSize ∧ fResizes nSize = false then some (.error 8)
  else
    let vchMessage := vchMessage.takeD nSize 0
    if 128 < lenPlain.toNat then
      -- `&msg.vchMessage[0]` of an empty vector
      if nSize = 0 then none
      else
        match lz4Decode c pMsgData lenPlain with
        | none => none
        | some (rv, text) => if rv ≠ signedLength lenPlain then some (.error 1) else terminate vchMessage text lenPlain
    else
      match readAt pMsgData 0 lenPlain.toNat with
      | none => none
      | some text => terminate vchMessage text lenPlain

/-- The bytes before the data of the message. -/
def payloadHeader (vchPayload : Bytes) : Nat := if vchPayload.head? = some 250 then 9 else SMSG_PL_HDR_LEN

def payloadLength (vchPayload : Bytes) : Option UInt32 := readU32At vchPayload (payloadHeader vchPayload - 4)

def payloadData (vchPayload : Bytes) : Bytes := vchPayload.drop (payloadHeader vchPayload)

/-- The part of `SecureMsgDecrypt` after `crypter.Decrypt`. -/
def openPayload (c : SmsgCrypto SK PT) (net : Network) (fResizes : Nat → Bool) (vchPayload : Bytes)
    (msg : MessageData) : Option (Except Nat MessageDecrypted) :=
  match payloadLength vchPayload with
  | none => none
  | some lenPlain =>
      match decodeMessage c fResizes msg.vchMessage (payloadData vchPayload) lenPlain with
      | none => none
      | some (.error rv) => some (.error rv)
      | some (.ok vchMessage) =>
          let msg := { msg with vchMessage }
          if vchPayload.head? = some 250 then some (.ok ⟨{ msg with sFromAddress := anon }, none⟩)
          else checkSender c net vchPayload vchMessage.dropLast msg

/-! ## Safety -/

/-- The text of a payload: so many bytes of its data, or of what its data decompress to. -/
def HoldsText (c : SmsgCrypto SK PT) (pMsgData : Bytes) (lenPlain : Nat) (text : Bytes) : Prop :=
  text.length = lenPlain ∧
    if 128 < lenPlain then lenPlain < 2 ^ 31 ∧ c.lz4DecompressSafe pMsgData lenPlain = some text
    else text = pMsgData.take lenPlain

/-- Nothing outside is read or written, and a message that is returned is the text of the payload. -/
def OpensSafely (c : SmsgCrypto SK PT) (net : Network) (fResizes : Nat → Bool) (vchPayload : Bytes)
    (msg : MessageData) : Prop :=
  ∃ r, openPayload c net fResizes vchPayload msg = some r ∧
    ∀ d, r = .ok d → ∃ lenPlain text, payloadLength vchPayload = some lenPlain ∧
      HoldsText c (payloadData vchPayload) lenPlain.toNat text ∧ d.msg.vchMessage = text ++ [0]

/-- A negative length that is the result of the decompressor, from a sender whose signature of whatever is in the
buffer is good. -/
def Forged (c : SmsgCrypto SK PT) (net : Network) (vchPayload : Bytes) (lenPlain : UInt32) (msg : MessageData) : Prop :=
  lz4NegativeOutput (payloadData vchPayload) = some (signedLength lenPlain) ∧
    (vchPayload.head? = some 250 ∨
      ∃ d, checkSender c net vchPayload (msg.vchMessage.takeD lenPlain.toNat 0)
        { msg with vchMessage := msg.vchMessage.takeD lenPlain.toNat 0 ++ [0] } = some (.ok d))

/-- The lengths of a payload are what its bytes allow. -/
def Contained (c : SmsgCrypto SK PT) (net : Network) (fResizes : Nat → Bool) (vchPayload : Bytes)
    (msg : MessageData) : Prop :=
  ∃ lenPlain, payloadLength vchPayload = some lenPlain ∧ lenPlain.toNat + 1 < 2 ^ 32 ∧
    (fResizes (lenPlain.toNat + 1) = false ∨
      if 128 < lenPlain.toNat then
        payloadData vchPayload ≠ [] ∧ (lenPlain.toNat < 2 ^ 31 ∨ ¬ Forged c net vchPayload lenPlain msg)
      else lenPlain.toNat ≤ (payloadData vchPayload).length)

/-! ## Lengths -/

variable {c : SmsgCrypto SK PT} {net : Network} {fResizes : Nat → Bool} {vchPayload : Bytes} {msg : MessageData}
  {lenPlain : UInt32}

theorem signedLength_of_lt (h : lenPlain.toNat < 2 ^ 31) : signedLength lenPlain = lenPlain.toNat := by
  have hlow : -(((2 ^ 32 : Nat) : Int) / 2) ≤ (lenPlain.toNat : Int) := by omega
  have hhigh : (lenPlain.toNat : Int) < (((2 ^ 32 : Nat) : Int) + 1) / 2 := by omega
  exact Int.bmod_eq_of_le hlow hhigh

theorem toNat_succ (h : lenPlain.toNat + 1 < 2 ^ 32) : (lenPlain + 1).toNat = lenPlain.toNat + 1 := by
  have hone : (1 : UInt32).toNat = 1 := rfl
  have hadd := UInt32.toNat_add lenPlain 1
  rw [hone] at hadd
  exact hadd.trans (Nat.mod_eq_of_lt h)

/-- The length that wraps leaves no buffer. -/
theorem toNat_succ_of_max (h : ¬ lenPlain.toNat + 1 < 2 ^ 32) : (lenPlain + 1).toNat = 0 := by
  have hlt := lenPlain.toNat_lt
  have hmax : lenPlain.toNat + 1 = 2 ^ 32 := by omega
  have hone : (1 : UInt32).toNat = 1 := rfl
  rw [UInt32.toNat_add, hone, hmax, Nat.mod_self]

/-! ## The buffer -/

theorem set_takeD (vchMessage : Bytes) (n : Nat) :
    (vchMessage.takeD (n + 1) 0).set n 0 = vchMessage.takeD n 0 ++ [0] := by
  induction n generalizing vchMessage with
  | zero => rfl
  | succ n ih =>
      rw [List.takeD_succ, List.set_cons_succ, ih, List.takeD_succ, List.cons_append]

/-- A text of the right length fills the buffer. -/
theorem terminate_text {text : Bytes} (h : text.length = lenPlain.toNat) (vchMessage : Bytes) :
    terminate (vchMessage.takeD (lenPlain.toNat + 1) 0) text lenPlain = some (.ok (text ++ [0])) := by
  have hsize : (vchMessage.takeD (lenPlain.toNat + 1) 0).length = lenPlain.toNat + 1 := List.takeD_length _ _ _
  obtain ⟨last, hlast⟩ : ∃ last, (vchMessage.takeD (lenPlain.toNat + 1) 0).drop text.length = [last] := by
    refine List.length_eq_one_iff.1 ?_
    rw [List.length_drop, hsize, h]
    omega
  rw [terminate, if_pos ⟨by omega, by omega⟩, patch, List.take_zero, List.nil_append, Nat.zero_add, hlast, ← h,
    List.set_append_right _ _ (Nat.le_refl _), Nat.sub_self]
  rfl

theorem terminate_nothing (vchMessage : Bytes) (lenPlain : UInt32) :
    terminate (vchMessage.takeD (lenPlain.toNat + 1) 0) [] lenPlain =
      some (.ok (vchMessage.takeD lenPlain.toNat 0 ++ [0])) := by
  have hsize : (vchMessage.takeD (lenPlain.toNat + 1) 0).length = lenPlain.toNat + 1 := List.takeD_length _ _ _
  rw [terminate, if_pos ⟨Nat.zero_le _, by omega⟩, patch, List.take_zero]
  exact congrArg (fun buf => some (Except.ok buf)) (set_takeD vchMessage lenPlain.toNat)

/-! ## The sender -/

/-- The check of the sender ends, and leaves the text as it is. -/
theorem checkSender_spec (c : SmsgCrypto SK PT) (net : Network) (vchPayload text : Bytes) (msg : MessageData) :
    ∃ r, checkSender c net vchPayload text msg = some r ∧ ∀ d, r = .ok d → d.msg.vchMessage = msg.vchMessage := by
  unfold checkSender
  dsimp only
  split_ifs with hvalid hkey haddress
  · exact ⟨_, rfl, fun d hd => nomatch hd⟩
  · exact ⟨_, rfl, fun d hd => nomatch hd⟩
  · exact ⟨_, rfl, fun d hd => nomatch hd⟩
  · obtain ⟨str, hstr⟩ := CBitcoinAddress.exists_toString c.hash
      (CBitcoinAddress.setKeyID net (readKeyID (slice vchPayload 1 20)))
    rw [hstr]
    refine ⟨_, rfl, fun d hd => ?_⟩
    cases hd
    rfl

/-! ## The decoder -/

theorem lz4Decode_of_lt (c : SmsgCrypto SK PT) {pMsgData : Bytes} (hint : lenPlain.toNat < 2 ^ 31)
    (hdata : pMsgData ≠ []) :
    lz4Decode c pMsgData lenPlain =
      match c.lz4DecompressSafe pMsgData lenPlain.toNat with
      | none => some (-1, [])
      | some text => some ((text.length : Int), text) := by
  obtain ⟨token, ip, rfl⟩ := List.exists_cons_of_ne_nil hdata
  unfold lz4Decode
  exact if_pos hint

theorem lz4Decode_of_not_lt (c : SmsgCrypto SK PT) (pMsgData : Bytes) (hint : ¬ lenPlain.toNat < 2 ^ 31) :
    lz4Decode c pMsgData lenPlain = (lz4NegativeOutput pMsgData).map fun rv => (rv, []) := by
  unfold lz4Decode
  exact if_neg hint

/-- The first token is read in any case. -/
theorem lz4Decode_nil (c : SmsgCrypto SK PT) (lenPlain : UInt32) : lz4Decode c [] lenPlain = none := by
  by_cases hint : lenPlain.toNat < 2 ^ 31
  · unfold lz4Decode
    exact if_pos hint
  · rw [lz4Decode_of_not_lt c [] hint]
    rfl

/-- What `decodeMessage` does once there is a buffer. -/
theorem decodeMessage_of_resizes {vchMessage pMsgData : Bytes} (hsize : lenPlain.toNat + 1 < 2 ^ 32)
    (hresizes : fResizes (lenPlain.toNat + 1) = true) :
    decodeMessage c fResizes vchMessage pMsgData lenPlain =
      if 128 < lenPlain.toNat then
        match lz4Decode c pMsgData lenPlain with
        | none => none
        | some (rv, text) =>
            if rv ≠ signedLength lenPlain then some (.error 1)
            else terminate (vchMessage.takeD (lenPlain.toNat + 1) 0) text lenPlain
      else
        match readAt pMsgData 0 lenPlain.toNat with
        | none => none
        | some text => terminate (vchMessage.takeD (lenPlain.toNat + 1) 0) text lenPlain := by
  rw [decodeMessage, toNat_succ hsize, hresizes, if_neg (fun h => Bool.noConfusion h.2)]
  dsimp only
  split_ifs with hlong hzero
  · exact hzero.elim
  · rfl
  · rfl

/-- A text that is the payload's is what is opened. -/
theorem openPayload_of_decoded {text : Bytes} (hlen : payloadLength vchPayload = some lenPlain)
    (htext : HoldsText c (payloadData vchPayload) lenPlain.toNat text)
    (h : decodeMessage c fResizes msg.vchMessage (payloadData vchPayload) lenPlain = some (.ok (text ++ [0]))) :
    OpensSafely c net fResizes vchPayload msg := by
  rw [OpensSafely, openPayload, hlen]
  dsimp only
  rw [h]
  dsimp only
  split_ifs with hanon
  · refine ⟨_, rfl, fun d hd => ⟨lenPlain, text, rfl, htext, ?_⟩⟩
    cases hd
    rfl
  · obtain ⟨r, hr, hkeeps⟩ := checkSender_spec c net vchPayload (text ++ [0]).dropLast
      { msg with vchMessage := text ++ [0] }
    exact ⟨r, hr, fun d hd => ⟨lenPlain, text, rfl, htext, hkeeps d hd⟩⟩

theorem openPayload_of_error {rv : Nat} (hlen : payloadLength vchPayload = some lenPlain)
    (h : decodeMessage c fResizes msg.vchMessage (payloadData vchPayload) lenPlain = some (.error rv)) :
    OpensSafely c net fResizes vchPayload msg := by
  rw [OpensSafely, openPayload, hlen]
  dsimp only
  rw [h]
  exact ⟨_, rfl, fun d hd => nomatch hd⟩

theorem not_opensSafely_of_none (hlen : payloadLength vchPayload = some lenPlain)
    (h : decodeMessage c fResizes msg.vchMessage (payloadData vchPayload) lenPlain = none) :
    ¬ OpensSafely c net fResizes vchPayload msg := by
  rintro ⟨r, hr, _⟩
  rw [openPayload, hlen] at hr
  dsimp only at hr
  rw [h] at hr
  cases hr

/-! ## The three kinds of lengths -/

theorem opensSafely_plain (hlen : payloadLength vchPayload = some lenPlain) (hsize : lenPlain.toNat + 1 < 2 ^ 32)
    (hresizes : fResizes (lenPlain.toNat + 1) = true) (hshort : ¬ 128 < lenPlain.toNat) :
    OpensSafely c net fResizes vchPayload msg ↔ lenPlain.toNat ≤ (payloadData vchPayload).length := by
  have hdecode := @decodeMessage_of_resizes _ _ c fResizes lenPlain msg.vchMessage (payloadData vchPayload) hsize hresizes
  rw [if_neg hshort] at hdecode
  constructor
  · intro hsafe
    by_contra hout
    rw [readAt_eq_none (by omega)] at hdecode
    exact not_opensSafely_of_none hlen hdecode hsafe
  · intro hin
    have htext : ((payloadData vchPayload).take lenPlain.toNat).length = lenPlain.toNat := List.length_take_of_le hin
    rw [readAt_eq_some (by omega), List.drop_zero] at hdecode
    dsimp only at hdecode
    rw [terminate_text htext] at hdecode
    exact openPayload_of_decoded hlen ⟨htext, by rw [if_neg hshort]⟩ hdecode

theorem opensSafely_compressed (hlen : payloadLength vchPayload = some lenPlain)
    (hresizes : fResizes (lenPlain.toNat + 1) = true) (hlong : 128 < lenPlain.toNat) (hint : lenPlain.toNat < 2 ^ 31) :
    OpensSafely c net fResizes vchPayload msg ↔ payloadData vchPayload ≠ [] := by
  have hdecode := @decodeMessage_of_resizes _ _ c fResizes lenPlain msg.vchMessage (payloadData vchPayload) (by omega)
    hresizes
  rw [if_pos hlong, signedLength_of_lt hint] at hdecode
  constructor
  · intro hsafe hempty
    rw [hempty, lz4Decode_nil] at hdecode
    refine not_opensSafely_of_none hlen ?_ hsafe
    rw [hempty]
    exact hdecode
  · intro hdata
    rw [lz4Decode_of_lt c hint hdata] at hdecode
    cases hlz4 : c.lz4DecompressSafe (payloadData vchPayload) lenPlain.toNat with
    | none =>
        rw [hlz4] at hdecode
        dsimp only at hdecode
        rw [if_pos (by omega)] at hdecode
        exact openPayload_of_error hlen hdecode
    | some text =>
        rw [hlz4] at hdecode
        dsimp only at hdecode
        by_cases htext : text.length = lenPlain.toNat
        · rw [if_neg (not_not.2 (congrArg Nat.cast htext)), terminate_text htext] at hdecode
          exact openPayload_of_decoded hlen ⟨htext, by rw [if_pos hlong]; exact ⟨hint, hlz4⟩⟩ hdecode
        · rw [if_pos fun h => htext (Int.ofNat_inj.1 h)] at hdecode
          exact openPayload_of_error hlen hdecode

theorem opensSafely_negative (hlen : payloadLength vchPayload = some lenPlain) (hsize : lenPlain.toNat + 1 < 2 ^ 32)
    (hresizes : fResizes (lenPlain.toNat + 1) = true) (hint : ¬ lenPlain.toNat < 2 ^ 31) :
    OpensSafely c net fResizes vchPayload msg ↔
      payloadData vchPayload ≠ [] ∧ ¬ Forged c net vchPayload lenPlain msg := by
  have hlong : 128 < lenPlain.toNat := by omega
  have hdecode := @decodeMessage_of_resizes _ _ c fResizes lenPlain msg.vchMessage (payloadData vchPayload) hsize hresizes
  rw [if_pos hlong, lz4Decode_of_not_lt c _ hint] at hdecode
  cases hdata : payloadData vchPayload with
  | nil =>
      rw [hdata] at hdecode
      refine ⟨fun hsafe => (not_opensSafely_of_none hlen ?_ hsafe).elim, fun h => (h.1 rfl).elim⟩
      rw [hdata]
      exact hdecode
  | cons token ip =>
      obtain ⟨rv, hrv⟩ : ∃ rv, lz4NegativeOutput (payloadData vchPayload) = some rv := by
        rw [hdata]
        exact ⟨_, rfl⟩
      rw [hrv, Option.map_some] at hdecode
      dsimp only at hdecode
      by_cases hsame : rv = signedLength lenPlain
      · rw [if_neg (not_not.2 hsame), terminate_nothing] at hdecode
        -- Whatever the buffer held is taken for the text.
        have hnot : ∀ d, openPayload c net fResizes vchPayload msg = some (.ok d) →
            ¬ OpensSafely c net fResizes vchPayload msg := by
          rintro d hd ⟨r, hr, hok⟩
          rw [hd, Option.some.injEq] at hr
          obtain ⟨lenPlain', text, hlen', htext, _⟩ := hok d hr.symm
          rw [hlen, Option.some.injEq] at hlen'
          subst lenPlain'
          have hheld := htext.2
          rw [if_pos hlong] at hheld
          exact hint hheld.1
        have hopen : openPayload c net fResizes vchPayload msg =
            if vchPayload.head? = some 250 then
              some (.ok ⟨{ msg with vchMessage := msg.vchMessage.takeD lenPlain.toNat 0 ++ [0], sFromAddress := anon },
                none⟩)
            else checkSender c net vchPayload (msg.vchMessage.takeD lenPlain.toNat 0)
              { msg with vchMessage := msg.vchMessage.takeD lenPlain.toNat 0 ++ [0] } := by
          rw [openPayload, hlen]
          dsimp only
          rw [hdecode]
          dsimp only
          rw [List.dropLast_concat]
        constructor
        · refine fun hsafe => ⟨List.cons_ne_nil _ _, fun hforged => ?_⟩
          rcases hforged.2 with hanon | ⟨d, hd⟩
          · rw [if_pos hanon] at hopen
            exact hnot _ hopen hsafe
          · by_cases hanon : vchPayload.head? = some 250
            · rw [if_pos hanon] at hopen
              exact hnot _ hopen hsafe
            · rw [if_neg hanon, hd] at hopen
              exact hnot _ hopen hsafe
        · rintro ⟨_, hforged⟩
          have hanon : ¬ vchPayload.head? = some 250 :=
            fun hanon => hforged ⟨hrv.trans (congrArg some hsame), Or.inl hanon⟩
          rw [if_neg hanon] at hopen
          obtain ⟨r, hr, _⟩ := checkSender_spec c net vchPayload (msg.vchMessage.takeD lenPlain.toNat 0)
            { msg with vchMessage := msg.vchMessage.takeD lenPlain.toNat 0 ++ [0] }
          refine ⟨r, hopen.trans hr, fun d hd => ?_⟩
          rw [hd] at hr
          exact (hforged ⟨hrv.trans (congrArg some hsame), Or.inr ⟨d, hr⟩⟩).elim
      · rw [if_pos hsame] at hdecode
        refine ⟨fun _ => ⟨List.cons_ne_nil _ _, fun hforged => ?_⟩, fun _ => openPayload_of_error hlen hdecode⟩
        rw [Forged, hrv, Option.some.injEq] at hforged
        exact hsame hforged.1

/-- A payload is opened safely exactly when its lengths are what its bytes allow. -/
theorem opensSafely_iff (c : SmsgCrypto SK PT) (net : Network) (fResizes : Nat → Bool) (vchPayload : Bytes)
    (msg : MessageData) : OpensSafely c net fResizes vchPayload msg ↔ Contained c net fResizes vchPayload msg := by
  cases hlen : payloadLength vchPayload with
  | none =>
      constructor
      · rintro ⟨r, hr, _⟩
        rw [openPayload, hlen] at hr
        cases hr
      · rintro ⟨lenPlain, h, _⟩
        rw [hlen] at h
        cases h
  | some lenPlain =>
      have hcontained : Contained c net fResizes vchPayload msg ↔ lenPlain.toNat + 1 < 2 ^ 32 ∧
          (fResizes (lenPlain.toNat + 1) = false ∨
            if 128 < lenPlain.toNat then
              payloadData vchPayload ≠ [] ∧ (lenPlain.toNat < 2 ^ 31 ∨ ¬ Forged c net vchPayload lenPlain msg)
            else lenPlain.toNat ≤ (payloadData vchPayload).length) := by
        constructor
        · rintro ⟨lenPlain', h, hrest⟩
          rw [hlen, Option.some.injEq] at h
          subst lenPlain'
          exact hrest
        · exact fun h => ⟨lenPlain, hlen, h⟩
      rw [hcontained]
      by_cases hsize : lenPlain.toNat + 1 < 2 ^ 32
      · rw [and_iff_right hsize]
        cases hresizes : fResizes (lenPlain.toNat + 1) with
        | false =>
            have herror : decodeMessage c fResizes msg.vchMessage (payloadData vchPayload) lenPlain = some (.error 8) := by
              rw [decodeMessage, toNat_succ hsize, hresizes]
              exact if_pos ⟨Nat.succ_pos _, rfl⟩
            exact iff_of_true (openPayload_of_error hlen herror) (Or.inl rfl)
        | true =>
            rw [or_iff_right Bool.noConfusion]
            split_ifs with hlong
            · by_cases hint : lenPlain.toNat < 2 ^ 31
              · rw [opensSafely_compressed hlen hresizes hlong hint]
                exact (and_iff_left (Or.inl hint)).symm
              · rw [opensSafely_negative hlen hsize hresizes hint, or_iff_right hint]
            · exact opensSafely_plain hlen hsize hresizes hlong
      · refine iff_of_false (not_opensSafely_of_none hlen ?_) fun h => hsize h.1
        have hlong : 128 < lenPlain.toNat := by omega
        rw [decodeMessage, toNat_succ_of_max hsize, if_neg fun h => Nat.lt_irrefl 0 h.1]
        dsimp only
        rw [if_pos hlong, if_pos rfl]

/-- A message of a stranger that promises 100 bytes and has none. -/
theorem opensSafely_promised :
    ¬ OpensSafely byteCrypto .testnet (fun _ => true) [250, 0, 0, 0, 0, 100, 0, 0, 0] ⟨0, [], [], []⟩ := by
  rw [opensSafely_iff]
  rintro ⟨lenPlain, hlen, _, hrest⟩
  have h100 : lenPlain = 100 := (Option.some.inj hlen).symm
  rw [h100] at hrest
  rcases hrest with hresizes | hin
  · cases hresizes
  · exact absurd hin (Nat.not_succ_le_zero 99)

end ProCurrency

import Mathlib.Algebra.GroupWithZero.Nat
import Mathlib.Data.List.Infix
import ProCurrency.Net.Transport

/-!
# Messages through a socket

What a `CNetMessage` holds of a message of which it has absorbed a number of bytes, and what the peer holds of a
sequence of messages.
-/

namespace ProCurrency

open ByteCodec

namespace CMessageHeader

theorem length_serialize (hdr : CMessageHeader) : hdr.serialize.length = HEADER_SIZE := by
  rw [serialize, List.length_append, List.length_append, List.length_append, hdr.length_messageStart,
    hdr.length_command, length_leBytes, length_leBytes]
  rfl

theorem unserialize_serialize (hdr : CMessageHeader) : unserialize hdr.serialize = some (hdr, []) := by
  have hstart : Buffer.slice hdr.serialize 0 MESSAGE_START_SIZE = hdr.pchMessageStart :=
    Buffer.slice_append_left (l := []) rfl hdr.length_messageStart _
  have hcommand : Buffer.slice hdr.serialize MESSAGE_START_SIZE COMMAND_SIZE = hdr.pchCommand :=
    Buffer.slice_append_left hdr.length_messageStart hdr.length_command _
  have hnames : (hdr.pchMessageStart ++ hdr.pchCommand).length = MESSAGE_SIZE_OFFSET := by
    rw [List.length_append, hdr.length_messageStart, hdr.length_command, MESSAGE_SIZE_OFFSET]
  have hsize : Buffer.slice hdr.serialize MESSAGE_SIZE_OFFSET 4 = leBytes 4 hdr.nMessageSize.toNat := by
    rw [serialize, ← List.append_assoc]
    exact Buffer.slice_append_left hnames (length_leBytes 4 _) _
  have hchecksum : Buffer.slice hdr.serialize CHECKSUM_OFFSET 4 = leBytes 4 hdr.nChecksum.toNat := by
    have hfront : (hdr.pchMessageStart ++ hdr.pchCommand ++ leBytes 4 hdr.nMessageSize.toNat).length =
        CHECKSUM_OFFSET := by
      rw [List.length_append, hnames, length_leBytes, CHECKSUM_OFFSET]
    rw [serialize, ← List.append_assoc, ← List.append_assoc, ← List.append_nil (leBytes 4 hdr.nChecksum.toNat)]
    exact Buffer.slice_append_left hfront (length_leBytes 4 _) _
  have hnumber : ∀ n : UInt32, UInt32.ofNat (ofLeBytes (leBytes 4 n.toNat)) = n := by
    intro n
    rw [ofLeBytes_leBytes (show n.toNat < 256 ^ 4 from n.toNat_lt), UInt32.ofNat_toNat]
  rw [unserialize, dif_neg (by rw [length_serialize]; exact Nat.lt_irrefl _)]
  simp only [hstart, hcommand, hsize, hchecksum, hnumber, Option.some.injEq, Prod.mk.injEq, true_and]
  exact List.drop_eq_nil_of_le (Nat.le_of_eq hdr.length_serialize)

end CMessageHeader

/-- A complete message. -/
structure NetMessage where
  hdr : CMessageHeader
  payload : List UInt8
  size_eq : hdr.nMessageSize.toNat = payload.length
  size_le : payload.length ≤ MAX_SIZE

namespace NetMessage

def bytes (m : NetMessage) : List UInt8 := m.hdr.serialize ++ m.payload

/-- What a peer that has absorbed it holds. -/
def received (m : NetMessage) : CNetMessage where
  inData := true
  hdrbuf := []
  hdr := m.hdr
  nHdrPos := 24
  vRecv := m.payload
  nDataPos := m.payload.length

theorem length_bytes (m : NetMessage) : m.bytes.length = 24 + m.payload.length := by
  rw [bytes, List.length_append, m.hdr.length_serialize]
  rfl

theorem bytes_take (m : NetMessage) : m.bytes.take 24 = m.hdr.serialize := List.take_left' m.hdr.length_serialize

theorem bytes_drop (m : NetMessage) (d : Nat) : m.bytes.drop (24 + d) = m.payload.drop d := by
  have hheader : m.bytes.drop 24 = m.payload := List.drop_left' m.hdr.length_serialize
  rw [← List.drop_drop, hheader]

theorem complete_received (m : NetMessage) : m.received.complete = true := by
  rw [CNetMessage.complete, received, m.size_eq]
  exact decide_eq_true rfl

end NetMessage

namespace CNetMessage

/-- The first `j` bytes of the message are absorbed. -/
inductive PartOf (m : NetMessage) : Nat → CNetMessage → Prop where
  | header {j : Nat} {hdrbuf : List UInt8} {hdr : CMessageHeader} (hlt : j < 24) (hlength : hdrbuf.length = 24)
      (hbuf : hdrbuf.take j = m.bytes.take j) : PartOf m j ⟨false, hdrbuf, hdr, j, [], 0⟩
  | data {d : Nat} {vRecv : List UInt8} (hle : d ≤ m.payload.length) (hd : d ≤ vRecv.length)
      (hlength : vRecv.length ≤ m.payload.length) (hbuf : vRecv.take d = m.payload.take d) :
      PartOf m (24 + d) ⟨true, [], m.hdr, 24, vRecv, d⟩

variable {m : NetMessage} {j : Nat} {msg : CNetMessage} {env : TransportEnv}

theorem PartOf.new : PartOf m 0 (.new env) := .header (by decide) (List.length_replicate ..) rfl

theorem PartOf.le (h : PartOf m j msg) : j ≤ m.bytes.length := by
  rw [m.length_bytes]
  cases h with
  | header hlt => exact Nat.le_trans (Nat.le_of_lt hlt) (Nat.le_add_right _ _)
  | data hle => exact Nat.add_le_add_left hle 24

theorem PartOf.incomplete (h : PartOf m j msg) (hj : j < m.bytes.length) : msg.complete = false := by
  rw [m.length_bytes] at hj
  cases h with
  | header => rfl
  | @data d vRecv =>
      have hne : m.payload.length ≠ d := by omega
      rw [complete, m.size_eq]
      exact beq_false_of_ne hne

theorem PartOf.eq_received (h : PartOf m j msg) (hj : j = m.bytes.length) : msg = m.received := by
  rw [m.length_bytes] at hj
  cases h with
  | header hlt => omega
  | @data d vRecv hle hd hlength hbuf =>
      obtain rfl : d = m.payload.length := by omega
      rw [List.take_of_length_le hlength, List.take_length] at hbuf
      rw [hbuf, NetMessage.received]

/-! ## One round -/

theorem uintSub_of_le {a b : Nat} (hb : b ≤ a) (ha : a < 2 ^ 32) : uintSub a b = a - b := by
  rw [uintSub]
  omega

theorem memcpy_of_le {buf bs : List UInt8} {pos : Nat} (h : pos + bs.length ≤ buf.length) :
    memcpy buf pos bs = .ok (Buffer.patch buf pos bs) := if_pos h

/-- The bytes that are copied are the next ones of what is sent. -/
theorem take_eq_of_prefix {bs l more : List UInt8} {n : Nat} (h : bs <+: l ++ more) (hn : n ≤ bs.length)
    (hl : n ≤ l.length) : bs.take n = l.take n := by
  obtain ⟨tail, htail⟩ := h
  have htake : (bs ++ tail).take n = bs.take n := List.take_append_of_le_length hn
  rw [← htake, htail, List.take_append_of_le_length hl]

/-- A copy to the end of what is absorbed. -/
theorem take_patch_next {buf l bs : List UInt8} {pos n : Nat} (hpos : pos ≤ buf.length)
    (hbuf : buf.take pos = l.take pos) (hbs : bs = (l.drop pos).take n) (hlength : bs.length = n) :
    (Buffer.patch buf pos bs).take (pos + n) = l.take (pos + n) := by
  have htake : (Buffer.patch buf pos bs).take (pos + bs.length) = buf.take pos ++ bs := Buffer.take_patch_add hpos
  rw [hlength, hbuf, hbs, ← List.take_add] at htake
  rw [hbs]
  exact htake

theorem length_resize {buf : List UInt8} {size : Nat} : (resize buf size).length = size := by
  rw [resize, List.length_append, List.length_take, List.length_replicate]
  omega

theorem take_resize {buf : List UInt8} {size d : Nat} (hbuf : d ≤ buf.length) (hsize : d ≤ size) :
    (resize buf size).take d = buf.take d := by
  rw [resize, List.take_append_of_le_length (by rw [List.length_take]; omega), List.take_take, Nat.min_eq_left hsize]

variable {pch more : List UInt8}

theorem readHeader_partOf {hdrbuf : List UInt8} {hdr : CMessageHeader} (hlt : j < 24) (hlength : hdrbuf.length = 24)
    (hbuf : hdrbuf.take j = m.bytes.take j) (hpch : pch <+: m.bytes.drop j ++ more) :
    ∃ msg, readHeader ⟨false, hdrbuf, hdr, j, [], 0⟩ pch = .ok (msg, some (min (24 - j) pch.length)) ∧
      PartOf m (j + min (24 - j) pch.length) msg := by
  have hbytes := m.length_bytes
  have hrest : (24 - j) ≤ (m.bytes.drop j).length := by rw [List.length_drop]; omega
  have hcopy := take_eq_of_prefix hpch (Nat.min_le_right (24 - j) pch.length)
    (Nat.le_trans (Nat.min_le_left _ _) hrest)
  have hcopied : (pch.take (min (24 - j) pch.length)).length = min (24 - j) pch.length :=
    List.length_take_of_le (Nat.min_le_right _ _)
  have hfits : j + (pch.take (min (24 - j) pch.length)).length ≤ hdrbuf.length := by rw [hcopied]; omega
  have htaken := take_patch_next (by omega) hbuf hcopy hcopied
  have hpatched := Buffer.length_patch hfits
  simp only [readHeader, uintSub_of_le (Nat.le_of_lt hlt) (by decide : 24 < 2 ^ 32), memcpy_of_le hfits]
  split_ifs with hmore
  · exact ⟨_, rfl, .header hmore (hpatched.trans hlength) htaken⟩
  · have hfull : j + min (24 - j) pch.length = 24 := by omega
    have hheader : Buffer.patch hdrbuf j (pch.take (min (24 - j) pch.length)) = m.hdr.serialize := by
      rw [hfull, List.take_of_length_le (Nat.le_of_eq (hpatched.trans hlength)), m.bytes_take] at htaken
      exact htaken
    have hsize : ¬MAX_SIZE < m.hdr.nMessageSize.toNat := by
      rw [m.size_eq]
      exact Nat.not_lt.2 m.size_le
    rw [hheader, m.hdr.unserialize_serialize]
    simp only [if_neg hsize, hfull]
    exact ⟨_, rfl, .data (d := 0) (Nat.zero_le _) (Nat.zero_le _) (Nat.zero_le _) rfl⟩

theorem readData_partOf {d : Nat} {vRecv : List UInt8} (hle : d ≤ m.payload.length) (hd : d ≤ vRecv.length)
    (hlength : vRecv.length ≤ m.payload.length) (hbuf : vRecv.take d = m.payload.take d)
    (hpch : pch <+: m.bytes.drop (24 + d) ++ more) :
    ∃ msg, readData ⟨true, [], m.hdr, 24, vRecv, d⟩ pch = .ok (msg, some (min (m.payload.length - d) pch.length)) ∧
      PartOf m (24 + d + min (m.payload.length - d) pch.length) msg := by
  have hmax : m.payload.length ≤ 0x02000000 := m.size_le
  rw [m.bytes_drop] at hpch
  have hsub : uintSub m.hdr.nMessageSize.toNat d = m.payload.length - d := by
    rw [m.size_eq, uintSub_of_le hle (by omega)]
  have hcopy := take_eq_of_prefix hpch (Nat.min_le_right (m.payload.length - d) pch.length)
    (by rw [List.length_drop]; exact Nat.min_le_left _ _)
  have hcopied : (pch.take (min (m.payload.length - d) pch.length)).length = min (m.payload.length - d) pch.length :=
    List.length_take_of_le (Nat.min_le_right _ _)
  simp only [readData, hsub]
  generalize hn : min (m.payload.length - d) pch.length = n at hcopy hcopied ⊢
  generalize hgrown : (if vRecv.length < d + n then
      resize vRecv (min m.hdr.nMessageSize.toNat ((d + n + 256 * 1024) % 2 ^ 32)) else vRecv) = grown
  have hspec : d + n ≤ grown.length ∧ grown.length ≤ m.payload.length ∧ grown.take d = m.payload.take d := by
    rw [← hgrown, m.size_eq, Nat.mod_eq_of_lt (by omega)]
    split_ifs with hsmall
    · rw [length_resize, take_resize hd (by omega)]
      exact ⟨by omega, Nat.min_le_left _ _, hbuf⟩
    · exact ⟨Nat.not_lt.1 hsmall, hlength, hbuf⟩
  obtain ⟨hroom, htotal, hkept⟩ := hspec
  have hfits : d + (pch.take n).length ≤ grown.length := by rw [hcopied]; exact hroom
  have hpatched := Buffer.length_patch hfits
  rw [memcpy_of_le hfits]
  refine ⟨_, rfl, ?_⟩
  rw [Nat.add_assoc]
  exact .data (by omega) (by omega) (by omega) (take_patch_next (by omega) hkept hcopy hcopied)

/-- A round absorbs a byte at least, and none that is not of the message. -/
theorem absorb_partOf (h : PartOf m j msg) (hj : j < m.bytes.length) (hpch : pch <+: m.bytes.drop j ++ more)
    (hne : pch ≠ []) :
    ∃ msg' handled, msg.absorb pch = .ok (msg', some handled) ∧ 0 < handled ∧ handled ≤ pch.length ∧
      PartOf m (j + handled) msg' := by
  have hpos := List.length_pos_of_ne_nil hne
  rw [m.length_bytes] at hj
  cases h with
  | header hlt hlength hbuf =>
      obtain ⟨msg', hread, hpart⟩ := readHeader_partOf hlt hlength hbuf hpch
      exact ⟨msg', _, hread, by omega, Nat.min_le_right _ _, hpart⟩
  | data hle hd hlength hbuf =>
      obtain ⟨msg', hread, hpart⟩ := readData_partOf hle hd hlength hbuf hpch
      exact ⟨msg', _, hread, by omega, Nat.min_le_right _ _, hpart⟩

/-! ## A sequence of messages -/

/-- `vRecvMsg` when some messages are absorbed, and the first `j` bytes of the ones after them. -/
inductive Holds (done : List NetMessage) : List NetMessage → Nat → List CNetMessage → Prop where
  | between {todo : List NetMessage} : Holds done todo 0 (done.map NetMessage.received)
  | within {m : NetMessage} {rest : List NetMessage} {j : Nat} {msg : CNetMessage} (hpart : PartOf m j msg)
      (hj : j < m.bytes.length) :
      Holds done (m :: rest) j (done.map NetMessage.received ++ [msg])

variable {done todo rest : List NetMessage} {vRecvMsg : List CNetMessage}

theorem Holds.le (h : Holds done todo j vRecvMsg) : j ≤ (todo.flatMap NetMessage.bytes).length := by
  cases h with
  | between => exact Nat.zero_le _
  | within _ hj =>
      rw [List.flatMap_cons, List.length_append]
      exact Nat.le_trans (Nat.le_of_lt hj) (Nat.le_add_right _ _)

theorem Holds.lt (h : Holds done (m :: rest) j vRecvMsg) : j < m.bytes.length := by
  cases h with
  | between => rw [m.length_bytes]; omega
  | within _ hj => exact hj

theorem Holds.eq_or (h : Holds done todo j vRecvMsg) :
    vRecvMsg = done.map NetMessage.received ∨
      ∃ msg, vRecvMsg = done.map NetMessage.received ++ [msg] ∧ msg.complete = false := by
  cases h with
  | between => exact .inl rfl
  | within hpart hj => exact .inr ⟨_, rfl, hpart.incomplete hj⟩

theorem Holds.eq_of_nil (h : Holds done [] j vRecvMsg) : vRecvMsg = done.map NetMessage.received := by
  cases h with
  | between => rfl

/-- More messages may come. -/
theorem Holds.append (h : Holds done todo j vRecvMsg) (more : List NetMessage) :
    Holds done (todo ++ more) j vRecvMsg := by
  cases h with
  | between => exact .between
  | within hpart hj => exact .within hpart hj

theorem current_holds (env : TransportEnv) (h : Holds done (m :: rest) j vRecvMsg) :
    ∃ msg, current env vRecvMsg = (done.map NetMessage.received, msg) ∧ PartOf m j msg ∧ j < m.bytes.length := by
  cases h with
  | between =>
      refine ⟨.new env, ?_, .new, by rw [m.length_bytes]; omega⟩
      rw [current]
      cases hlast : (done.map NetMessage.received).getLast? with
      | none => rfl
      | some msg =>
          obtain ⟨m', _, rfl⟩ := List.mem_map.1 (List.mem_of_getLast? hlast)
          simp only [m'.complete_received, if_true]
  | within hpart hj =>
      refine ⟨_, ?_, hpart, hj⟩
      rw [current, List.getLast?_concat, List.dropLast_concat]
      simp only [hpart.incomplete hj, Bool.false_eq_true, if_false]

/-- The message that has taken the bytes of a round is one that goes on, or the next one that is absorbed. -/
theorem PartOf.holds (done rest : List NetMessage) (h : PartOf m j msg) :
    ∃ done' todo' j', Holds done' todo' j' (done.map NetMessage.received ++ [msg]) ∧
      done' ++ todo' = done ++ m :: rest ∧
      (todo'.flatMap NetMessage.bytes).drop j' = ((m :: rest).flatMap NetMessage.bytes).drop j := by
  rcases Nat.lt_or_ge j m.bytes.length with hj | hj
  · exact ⟨done, m :: rest, j, .within h hj, rfl, rfl⟩
  · have hlast := Nat.le_antisymm h.le hj
    refine ⟨done ++ [m], rest, 0, ?_, by rw [List.append_assoc, List.singleton_append], ?_⟩
    · rw [h.eq_received hlast, ← List.map_singleton, ← List.map_append]
      exact .between
    · rw [List.flatMap_cons, List.drop_left' hlast.symm, List.drop_zero]

/-- Whatever part of the messages to come is received, `ReceiveMsgBytes` ends well and holds it. -/
theorem receiveMsgBytes_holds (env : TransportEnv) {rounds : Nat} (h : Holds done todo j vRecvMsg)
    (hpch : pch <+: (todo.flatMap NetMessage.bytes).drop j) (hrounds : pch.length ≤ rounds) :
    ∃ vRecvMsg' done' todo' j', receiveMsgBytes env rounds vRecvMsg pch = .ok (true, vRecvMsg') ∧
      Holds done' todo' j' vRecvMsg' ∧ done' ++ todo' = done ++ todo ∧
      (todo'.flatMap NetMessage.bytes).drop j' = ((todo.flatMap NetMessage.bytes).drop j).drop pch.length := by
  induction rounds generalizing done todo j vRecvMsg pch with
  | zero =>
      obtain rfl := List.length_eq_zero_iff.1 (Nat.le_zero.1 hrounds)
      exact ⟨vRecvMsg, done, todo, j, by rw [receiveMsgBytes], h, rfl, rfl⟩
  | succ rounds ih =>
      cases pch with
      | nil => exact ⟨vRecvMsg, done, todo, j, by rw [receiveMsgBytes], h, rfl, rfl⟩
      | cons b bs =>
          cases todo with
          | nil =>
              rw [List.flatMap_nil, List.drop_nil] at hpch
              cases List.prefix_nil.1 hpch
          | cons m rest =>
              obtain ⟨msg, hcurrent, hpart, hj⟩ := current_holds env h
              have hnext : b :: bs <+: m.bytes.drop j ++ rest.flatMap NetMessage.bytes := by
                rw [← List.drop_append_of_le_length (Nat.le_of_lt hj), ← List.flatMap_cons]
                exact hpch
              obtain ⟨msg', handled, habsorb, hpos, hle, hpart'⟩ := absorb_partOf hpart hj hnext (List.cons_ne_nil b bs)
              obtain ⟨done₁, todo₁, j₁, hholds, hsame, hleft⟩ := PartOf.holds done rest hpart'
              rw [← List.drop_drop] at hleft
              have hshort : ((b :: bs).drop handled).length ≤ rounds := by
                rw [List.length_drop]
                omega
              obtain ⟨vRecvMsg', done', todo', j', hloop, hholds', hsame', hleft'⟩ :=
                ih hholds (hleft ▸ List.IsPrefix.drop hpch handled) hshort
              refine ⟨vRecvMsg', done', todo', j', ?_, hholds', hsame'.trans hsame, ?_⟩
              · rw [receiveMsgBytes, hcurrent]
                simp only [habsorb]
                exact hloop
              · rw [hleft', hleft, List.drop_drop, List.length_drop, Nat.add_sub_cancel' hle]

end CNetMessage

/-!
## Writing messages to a socket

What is written and what is still queued are the bytes that were queued, and the offset and the size that a node
keeps are those of its queue.
-/

open CMessageHeader

/-! ## Sealing a message -/

namespace NetMessage

/-- The header of the message that `EndMessage` queues. -/
def pushedHeader (env : TransportEnv) (pszCommand payload : List UInt8) : CMessageHeader :=
  { CMessageHeader.new env pszCommand (UInt32.ofNat payload.length) with
    nChecksum := UInt32.ofNat (ofLeBytes ((writeUInt256 (env.hash payload)).take 4)) }

def pushed (env : TransportEnv) (pszCommand payload : List UInt8) (hsize : payload.length ≤ MAX_SIZE) : NetMessage where
  hdr := pushedHeader env pszCommand payload
  payload := payload
  size_eq := by
    have hlt : payload.length < 2 ^ 32 := Nat.lt_of_le_of_lt hsize (by decide)
    exact UInt32.toNat_ofNat_of_lt' hlt
  size_le := hsize

end NetMessage

namespace SendQueue

variable {env : TransportEnv} {pszCommand payload : List UInt8}

/-- The bytes of a message, its two numbers apart. -/
theorem serialize_append (env : TransportEnv) (pszCommand : List UInt8) {hdr : CMessageHeader}
    (hstart : hdr.pchMessageStart = env.messageStart)
    (hcommand : hdr.pchCommand = strncpy pszCommand) :
    hdr.serialize ++ payload = (env.messageStart ++ strncpy pszCommand) ++ (leBytes 4 hdr.nMessageSize.toNat ++
      (leBytes 4 hdr.nChecksum.toNat ++ payload)) := by
  simp only [serialize, hstart, hcommand, List.append_assoc]

theorem toNat_checksum (bs : List UInt8) : (UInt32.ofNat (ofLeBytes (bs.take 4))).toNat = ofLeBytes (bs.take 4) := by
  have hlt := ofLeBytes_lt (bs.take 4)
  have hpow : 256 ^ (bs.take 4).length ≤ 256 ^ 4 := Nat.pow_le_pow_right (by decide) (List.length_take_le _ _)
  exact UInt32.toNat_ofNat_of_lt' (Nat.lt_of_lt_of_le hlt hpow)

/-- A part of a buffer is written over. -/
theorem memcpy_append_left {l c bs : List UInt8} {pos : Nat} (hl : l.length = pos) (hsize : bs.length = c.length)
    (r : List UInt8) : memcpy (l ++ (c ++ r)) pos bs = .ok (l ++ (bs ++ r)) := by
  have hle : pos + bs.length ≤ (l ++ (c ++ r)).length := by
    rw [List.length_append, List.length_append]
    omega
  rw [CNetMessage.memcpy_of_le hle, Buffer.patch_append_left hl hsize]

theorem sealMessage_spec (hsize : payload.length ≤ MAX_SIZE) :
    sealMessage env ((CMessageHeader.new env pszCommand 0).serialize ++ payload) =
      .ok (NetMessage.pushed env pszCommand payload hsize).bytes := by
  have hnames : (env.messageStart ++ strncpy pszCommand).length = MESSAGE_SIZE_OFFSET := by
    rw [List.length_append, env.length_messageStart, length_strncpy, MESSAGE_SIZE_OFFSET]
  have hlength : ((CMessageHeader.new env pszCommand 0).serialize ++ payload).length - HEADER_SIZE = payload.length := by
    rw [List.length_append, length_serialize, Nat.add_sub_cancel_left]
  have hbytes : (NetMessage.pushed env pszCommand payload hsize).bytes =
      (env.messageStart ++ strncpy pszCommand) ++ (leBytes 4 (UInt32.ofNat payload.length).toNat ++
        (leBytes 4 (ofLeBytes ((writeUInt256 (env.hash payload)).take 4)) ++ payload)) := by
    rw [NetMessage.bytes, ← toNat_checksum]
    exact serialize_append env pszCommand rfl rfl
  rw [sealMessage, hlength, hbytes, serialize_append env pszCommand rfl rfl,
    memcpy_append_left hnames (by rw [length_leBytes, length_leBytes])]
  generalize env.messageStart ++ strncpy pszCommand = names at hnames ⊢
  have hfront : (names ++ leBytes 4 (UInt32.ofNat payload.length).toNat).length = CHECKSUM_OFFSET := by
    rw [List.length_append, hnames, length_leBytes, CHECKSUM_OFFSET]
  have hheader : (names ++ leBytes 4 (UInt32.ofNat payload.length).toNat ++
      leBytes 4 (CMessageHeader.new env pszCommand 0).nChecksum.toNat).length = HEADER_SIZE := by
    rw [List.length_append, hfront, length_leBytes, HEADER_SIZE]
  rw [← List.append_assoc names, ← List.append_assoc names]
  dsimp only
  have hdrop : (names ++ leBytes 4 (UInt32.ofNat payload.length).toNat ++
      leBytes 4 (CMessageHeader.new env pszCommand 0).nChecksum.toNat ++ payload).drop HEADER_SIZE = payload :=
    List.drop_left' hheader
  rw [List.append_assoc] at hdrop
  have hlong : ¬(names ++ leBytes 4 (UInt32.ofNat payload.length).toNat ++
      (leBytes 4 (CMessageHeader.new env pszCommand 0).nChecksum.toNat ++ payload)).length < CHECKSUM_OFFSET + 4 := by
    rw [← List.append_assoc, List.length_append, hheader, HEADER_SIZE]
    omega
  rw [hdrop, if_neg hlong]
  exact memcpy_append_left hfront (by rw [length_leBytes, length_leBytes]) payload

/-! ## The queue -/

/-- The offset lies inside the first entry. -/
def OffsetOk (nSendOffset : Nat) : List (List UInt8) → Prop
  | [] => nSendOffset = 0
  | data :: _ => nSendOffset < data.length

/-- What a node keeps while its queue is `it`. -/
structure Consistent (node : SendQueue) (it : List (List UInt8)) : Prop where
  nonempty : ∀ data ∈ it, 0 < data.length
  offset : OffsetOk node.nSendOffset it
  size : node.nSendSize = it.flatten.length

/-- The bytes that are queued and not sent. -/
def unsent (node : SendQueue) : List UInt8 := node.vSendMsg.flatten.drop node.nSendOffset

theorem Consistent.tail {node : SendQueue} {data : List UInt8} {it : List (List UInt8)}
    (h : node.Consistent (data :: it)) :
    Consistent { node with nSendOffset := 0, nSendSize := node.nSendSize - data.length } it := by
  obtain ⟨_, hrest⟩ := List.forall_mem_cons.1 h.nonempty
  refine ⟨hrest, ?_, ?_⟩
  · cases it with
    | nil => rfl
    | cons data' it => exact hrest data' List.mem_cons_self
  · have hsize := h.size
    rw [List.flatten_cons, List.length_append] at hsize
    show node.nSendSize - data.length = it.flatten.length
    omega

/-- No assertion fails, and what is sent is the front of what was to be sent. -/
theorem sendFrom_spec {node : SendQueue} {it : List (List UInt8)} (answers : List SendAnswer)
    (h : node.Consistent it) :
    ∃ node' out, node.sendFrom answers it = .ok (node', out) ∧ node'.Consistent node'.vSendMsg ∧
      node'.ssSend = node.ssSend ∧ out ++ node'.unsent = it.flatten.drop node.nSendOffset := by
  induction it generalizing node answers with
  | nil =>
      have hoffset : node.nSendOffset = 0 := h.offset
      have hsize : node.nSendSize = 0 := h.size
      refine ⟨{ node with vSendMsg := [] }, [], ?_, ⟨h.nonempty, h.offset, h.size⟩, rfl, ?_⟩
      · rw [sendFrom, if_neg (not_not.2 hoffset), if_neg (not_not.2 hsize)]
      · rw [unsent, List.nil_append]
  | cons data it ih =>
      have hoffset : node.nSendOffset < data.length := h.offset
      have hstays : ∀ fDisconnect, ({ node with vSendMsg := data :: it, fDisconnect } : SendQueue).unsent =
          (data :: it).flatten.drop node.nSendOffset := fun _ => rfl
      rw [sendFrom, if_neg (Nat.not_le.2 hoffset)]
      cases node.send answers with
      | wouldBlock => exact ⟨_, [], rfl, ⟨h.nonempty, h.offset, h.size⟩, rfl, hstays _⟩
      | failed => exact ⟨_, [], rfl, ⟨h.nonempty, h.offset, h.size⟩, rfl, hstays _⟩
      | taken n =>
          have hunsent : (data.drop node.nSendOffset).length = data.length - node.nSendOffset := List.length_drop
          have hflat : (data :: it).flatten.drop node.nSendOffset = data.drop node.nSendOffset ++ it.flatten := by
            rw [List.flatten_cons, List.drop_append_of_le_length (Nat.le_of_lt hoffset)]
          simp only
          split_ifs with hzero hfull
          · exact ⟨_, [], rfl, ⟨h.nonempty, h.offset, h.size⟩, rfl, hstays _⟩
          · obtain ⟨node', out, hsend, hcons, hss, hout⟩ := ih answers.tail h.tail
            rw [hsend]
            refine ⟨node', _, rfl, hcons, hss, ?_⟩
            rw [List.append_assoc, hout, List.take_of_length_le (by omega), hflat]
            rfl
          · refine ⟨_, _, rfl, ⟨h.nonempty, ?_, h.size⟩, rfl, ?_⟩
            · show node.nSendOffset + min n (data.drop node.nSendOffset).length < data.length
              omega
            · rw [unsent, hflat]
              show _ ++ (data ++ it.flatten).drop (node.nSendOffset + _) = _
              rw [← List.drop_drop, List.drop_append_of_le_length (Nat.le_of_lt hoffset),
                List.drop_append_of_le_length (Nat.min_le_right _ _), ← List.append_assoc, List.take_append_drop]

/-- A node between two calls. -/
structure Ready (node : SendQueue) : Prop where
  consistent : node.Consistent node.vSendMsg
  ssSend : node.ssSend = []

theorem Ready.start : Ready .start := ⟨⟨fun _ h => absurd h List.not_mem_nil, rfl, rfl⟩, rfl⟩

variable {node : SendQueue}

theorem Ready.socketSendData (h : node.Ready) (answers : List SendAnswer) :
    ∃ node' out, node.socketSendData answers = .ok (node', out) ∧ node'.Ready ∧ out ++ node'.unsent = node.unsent := by
  obtain ⟨node', out, hsend, hcons, hss, hout⟩ := sendFrom_spec answers h.consistent
  exact ⟨node', out, hsend, ⟨hcons, hss.trans h.ssSend⟩, hout⟩

/-- One more entry. -/
theorem Consistent.push {data : List UInt8} (h : node.Consistent node.vSendMsg) (hdata : 0 < data.length) :
    Consistent
      { node with ssSend := [], vSendMsg := node.vSendMsg ++ [data], nSendSize := node.nSendSize + data.length }
      (node.vSendMsg ++ [data]) := by
  refine ⟨fun data' hmem => ?_, ?_, ?_⟩
  · rcases List.mem_append.1 hmem with hmem | hmem
    · exact h.nonempty data' hmem
    · exact List.mem_singleton.1 hmem ▸ hdata
  · have hoffset := h.offset
    cases hq : node.vSendMsg with
    | nil =>
        rw [hq] at hoffset
        show node.nSendOffset < data.length
        rw [show node.nSendOffset = 0 from hoffset]
        exact hdata
    | cons data' it =>
        rw [hq] at hoffset
        exact hoffset
  · have hsize := h.size
    rw [List.flatten_append, List.length_append, List.flatten_singleton]
    show node.nSendSize + data.length = _
    omega

theorem offset_le (h : node.Consistent node.vSendMsg) : node.nSendOffset ≤ node.vSendMsg.flatten.length := by
  have hoffset := h.offset
  cases hq : node.vSendMsg with
  | nil =>
      rw [hq] at hoffset
      exact Nat.le_of_eq hoffset
  | cons data it =>
      rw [hq] at hoffset
      rw [List.flatten_cons, List.length_append]
      exact Nat.le_trans (Nat.le_of_lt hoffset) (Nat.le_add_right _ _)

/-- A message that is pushed comes after all that is to be sent. -/
theorem Ready.pushMessage (h : node.Ready) (env : TransportEnv) (pszCommand : List UInt8)
    (hsize : payload.length ≤ MAX_SIZE) (answers : List SendAnswer) :
    ∃ node' out, node.pushMessage env pszCommand payload false answers = .ok (node', out) ∧ node'.Ready ∧
      out ++ node'.unsent = node.unsent ++ (NetMessage.pushed env pszCommand payload hsize).bytes := by
  have hpos : 0 < (NetMessage.pushed env pszCommand payload hsize).bytes.length := by
    rw [NetMessage.length_bytes]
    omega
  have hss : ((CMessageHeader.new env pszCommand 0).serialize ++ payload).length ≠ 0 := by
    rw [List.length_append, length_serialize, HEADER_SIZE]
    omega
  have hcons := h.consistent.push hpos
  generalize hnode' : ({ node with
    ssSend := []
    vSendMsg := node.vSendMsg ++ [(NetMessage.pushed env pszCommand payload hsize).bytes]
    nSendSize := node.nSendSize + (NetMessage.pushed env pszCommand payload hsize).bytes.length } : SendQueue) =
    node' at hcons
  have hready : node'.Ready := ⟨by rw [← hnode'] at hcons ⊢; exact hcons, by rw [← hnode']⟩
  have hunsent : node'.unsent = node.unsent ++ (NetMessage.pushed env pszCommand payload hsize).bytes := by
    rw [← hnode', unsent, unsent, List.flatten_append, List.flatten_singleton,
      List.drop_append_of_le_length (offset_le h.consistent)]
  have hpush : node.pushMessage env pszCommand payload false answers =
      if node.vSendMsg.isEmpty then node'.socketSendData answers else .ok (node', []) := by
    rw [SendQueue.pushMessage, beginMessage, h.ssSend]
    simp only [List.length_nil, ne_eq, not_true_eq_false, if_false, endMessage, Bool.false_eq_true, hss,
      sealMessage_spec hsize, hnode']
  rw [hpush]
  split
  · obtain ⟨node'', out, hsend, hready', hout⟩ := hready.socketSendData answers
    exact ⟨node'', out, hsend, hready', hout.trans hunsent⟩
  · exact ⟨node', [], rfl, hready, hunsent⟩

/-- A message that is dropped leaves the node as it was. -/
theorem Ready.pushMessage_dropped (h : node.Ready) (env : TransportEnv) (pszCommand payload : List UInt8)
    (answers : List SendAnswer) :
    node.pushMessage env pszCommand payload true answers = .ok (node, []) := by
  have hss := h.ssSend
  obtain ⟨_, vSendMsg, nSendOffset, nSendSize, fDisconnect⟩ := node
  cases hss
  rfl

end SendQueue

end ProCurrency

/-!
## The transport does not depend on how the bytes are cut

However a socket takes the messages of a node and however their bytes come to the peer, the peer holds a front of
them, and all of them once all bytes have come.
-/

namespace ProCurrency

open CNetMessage

/-- A header and the bytes that go with it. -/
abbrev NetContent := CMessageHeader × List UInt8

def NetMessage.content (m : NetMessage) : NetContent := (m.hdr, m.payload)

def CNetMessage.content (msg : CNetMessage) : NetContent := (msg.hdr, msg.vRecv)

namespace LinkEvent

/-- No payload is longer than a message may be. -/
def Fits : LinkEvent → Prop
  | pushMessage _ payload fDrop _ => fDrop = false → payload.length ≤ MAX_SIZE
  | socketSendData _ => True
  | receive _ => True

/-- What `EndMessage` queues in the event. -/
def queued (env : TransportEnv) : LinkEvent → List NetContent
  | pushMessage pszCommand payload false _ => [(NetMessage.pushedHeader env pszCommand payload, payload)]
  | _ => []

end LinkEvent

namespace Link

variable {queue done todo : List NetMessage} {j : Nat} {link : Link}

/-- The peer holds a front of the messages, and the bytes of the rest are on the way. -/
structure Carries (done todo : List NetMessage) (j : Nat) (link : Link) : Prop where
  ready : link.node.Ready
  holds : Holds done todo j link.vRecvMsg
  rest : link.wire ++ link.node.unsent = (todo.flatMap NetMessage.bytes).drop j

theorem Carries.start : Carries [] [] 0 start := ⟨.start, .between, rfl⟩

/-- One step, whatever it is, goes well. -/
theorem Carries.step (env : TransportEnv) (h : Carries done todo j link) {event : LinkEvent} (hfits : event.Fits) :
    ∃ link' done' todo' j', link.step env event = .ok link' ∧ Carries done' todo' j' link' ∧
      (done' ++ todo').map NetMessage.content = (done ++ todo).map NetMessage.content ++ event.queued env := by
  cases event with
  | pushMessage pszCommand payload fDrop answers =>
      cases fDrop with
      | true =>
          refine ⟨_, done, todo, j, ?_, h, (List.append_nil _).symm⟩
          rw [Link.step, h.ready.pushMessage_dropped env pszCommand payload answers]
          simp only [List.append_nil]
      | false =>
          have hsize := hfits rfl
          obtain ⟨node, out, hpush, hready, hout⟩ :=
            h.ready.pushMessage env pszCommand hsize answers
          refine ⟨{ link with node, wire := link.wire ++ out }, done,
            todo ++ [NetMessage.pushed env pszCommand payload hsize], j, by rw [Link.step, hpush],
            ⟨hready, h.holds.append _, ?_⟩, ?_⟩
          · rw [List.flatMap_append, List.drop_append_of_le_length h.holds.le, ← h.rest, List.append_assoc, hout,
              List.append_assoc, List.flatMap_singleton]
          · rw [← List.append_assoc, List.map_append, List.map_singleton]
            rfl
  | socketSendData answers =>
      obtain ⟨node, out, hsend, hready, hout⟩ := h.ready.socketSendData answers
      refine ⟨{ link with node, wire := link.wire ++ out }, done, todo, j, by rw [Link.step, hsend],
        ⟨hready, h.holds, ?_⟩, (List.append_nil _).symm⟩
      rw [← h.rest, List.append_assoc, hout]
  | receive nBytes =>
      have hprefix : link.wire.take nBytes <+: (todo.flatMap NetMessage.bytes).drop j := by
        rw [← h.rest]
        exact (List.take_prefix _ _).trans (List.prefix_append _ _)
      obtain ⟨vRecvMsg, done', todo', j', hreceive, hholds, hsame, hleft⟩ :=
        receiveMsgBytes_holds env h.holds hprefix (Nat.le_refl _)
      refine ⟨{ link with wire := link.wire.drop nBytes, vRecvMsg }, done', todo', j', ?_, ⟨h.ready, hholds, ?_⟩, ?_⟩
      · rw [Link.step]
        simp only [hreceive]
      · rw [hleft, ← h.rest, List.length_take]
        rcases Nat.le_total nBytes link.wire.length with hle | hle
        · rw [Nat.min_eq_left hle, List.drop_append_of_le_length hle]
        · rw [Nat.min_eq_right hle, List.drop_left, List.drop_eq_nil_of_le hle, List.nil_append]
      · rw [hsame]
        exact (List.append_nil _).symm

theorem Carries.run (env : TransportEnv) (h : Carries done todo j link) {events : List LinkEvent}
    (hfits : ∀ event ∈ events, event.Fits) :
    ∃ link' done' todo' j', link.run env events = .ok link' ∧ Carries done' todo' j' link' ∧
      (done' ++ todo').map NetMessage.content =
        (done ++ todo).map NetMessage.content ++ events.flatMap (LinkEvent.queued env) := by
  induction events generalizing link done todo j with
  | nil => exact ⟨link, done, todo, j, rfl, h, (List.append_nil _).symm⟩
  | cons event events ih =>
      obtain ⟨hevent, hevents⟩ := List.forall_mem_cons.1 hfits
      obtain ⟨link₁, done₁, todo₁, j₁, hstep, hcarries, hqueue⟩ := h.step env hevent
      obtain ⟨link', done', todo', j', hrun, hcarries', hqueue'⟩ := ih hcarries hevents
      refine ⟨link', done', todo', j', by rw [Link.run, hstep]; exact hrun, hcarries', ?_⟩
      rw [hqueue', hqueue, List.append_assoc, List.flatMap_cons]

/-- What the peer holds of a queue of messages: some of them, in their order, and of the next one a part as long as
bytes of it are under way. -/
structure Delivers (queue : List NetContent) (link : Link) (vDone : List CNetMessage) (rest : List NetContent) :
    Prop where
  queue : vDone.map CNetMessage.content ++ rest = queue
  complete : ∀ msg ∈ vDone, msg.complete
  current : link.vRecvMsg = vDone ∨ ∃ msg, link.vRecvMsg = vDone ++ [msg] ∧ msg.complete = false
  missing : ∀ next more, rest = next :: more →
    (more.map fun content => CMessageHeader.HEADER_SIZE + content.2.length).sum <
      (link.wire ++ link.node.unsent).length

theorem length_flatMap_bytes (todo : List NetMessage) :
    (todo.flatMap NetMessage.bytes).length =
      ((todo.map NetMessage.content).map fun content => CMessageHeader.HEADER_SIZE + content.2.length).sum := by
  induction todo with
  | nil => rfl
  | cons m todo ih =>
      rw [List.flatMap_cons, List.length_append, ih, m.length_bytes]
      rfl

theorem Carries.delivers (h : Carries done todo j link) :
    Delivers ((done ++ todo).map NetMessage.content) link (done.map NetMessage.received)
      (todo.map NetMessage.content) := by
  have hdone : ∀ msg ∈ done.map NetMessage.received, msg.complete := by
    intro msg hmsg
    obtain ⟨m, _, rfl⟩ := List.mem_map.1 hmsg
    exact m.complete_received
  refine ⟨?_, hdone, h.holds.eq_or, fun next more hrest => ?_⟩
  · rw [List.map_append, List.map_map]
    rfl
  · cases todo with
    | nil => cases hrest
    | cons m todo =>
        cases hrest
        rw [← length_flatMap_bytes]
        have hj := h.holds.lt
        rw [h.rest, List.flatMap_cons, List.drop_append_of_le_length (Nat.le_of_lt hj), List.length_append,
          List.length_drop]
        omega

/-- Nothing is under way any more. -/
theorem Delivers.all {queue rest : List NetContent} {vDone : List CNetMessage}
    (h : Delivers queue link vDone rest) (hsent : link.node.vSendMsg = [])
    (hwire : link.wire = []) : rest = [] := by
  cases rest with
  | nil => rfl
  | cons next more =>
      have hmissing := h.missing next more rfl
      rw [hwire, SendQueue.unsent, hsent] at hmissing
      simp at hmissing

/-- Every run goes well: no copy leaves its buffer, every loop ends, every assertion holds and the peer keeps the
connection. In the state that it ends in, the peer holds what was queued as far as the bytes have come. -/
theorem run_delivers (env : TransportEnv) (events : List LinkEvent) (hfits : ∀ event ∈ events, event.Fits) :
    ∃ link, start.run env events = .ok link ∧
      (∃ vDone rest, Delivers (events.flatMap (LinkEvent.queued env)) link vDone rest) ∧
      (link.node.vSendMsg = [] → link.wire = [] →
        (∀ msg ∈ link.vRecvMsg, msg.complete) ∧
          link.vRecvMsg.map CNetMessage.content = events.flatMap (LinkEvent.queued env)) := by
  obtain ⟨link, done, todo, j, hrun, hcarries, hqueue⟩ := Carries.start.run env hfits
  have hdelivers := hcarries.delivers
  rw [hqueue, List.append_nil, List.map_nil, List.nil_append] at hdelivers
  refine ⟨link, hrun, ⟨_, _, hdelivers⟩, fun hsent hwire => ?_⟩
  have hrest := hdelivers.all hsent hwire
  have htodo : todo = [] := List.map_eq_nil_iff.1 hrest
  subst htodo
  rw [hcarries.holds.eq_of_nil]
  exact ⟨hdelivers.complete, by rw [← hdelivers.queue, List.map_nil, List.append_nil]⟩

/-- A network whose hash is zero. -/
def zeroHashEnv : TransportEnv where
  messageStart := [1, 2, 3, 4]
  hash _ := 0
  length_messageStart := rfl

/-- Two messages, one without a payload, that are cut inside their headers. -/
def cutEvents : List LinkEvent :=
  [.pushMessage [118] [] false [.taken 7], .pushMessage [112] [5, 6, 7] false [], .receive 3,
    .socketSendData [.taken 40, .taken 9], .receive 30, .socketSendData [.taken 90], .receive 90]

theorem run_delivers_cutEvents :
    ∃ link, start.run zeroHashEnv cutEvents = .ok link ∧
      (∃ vDone rest, Delivers (cutEvents.flatMap (LinkEvent.queued zeroHashEnv)) link vDone rest) ∧
      (link.node.vSendMsg = [] → link.wire = [] →
        (∀ msg ∈ link.vRecvMsg, msg.complete) ∧
          link.vRecvMsg.map CNetMessage.content = cutEvents.flatMap (LinkEvent.queued zeroHashEnv)) := by
  refine run_delivers zeroHashEnv cutEvents ?_
  simp [cutEvents, LinkEvent.Fits, MAX_SIZE]

end Link

end ProCurrency

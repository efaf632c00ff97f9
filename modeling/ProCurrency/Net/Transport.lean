import ProCurrency.Codec.Serialize
import ProCurrency.Lib.Buffer

/-!
# The transport of messages

`CMessageHeader` (protocol.h), `CNetMessage` and `ReceiveMsgBytes`, `BeginMessage`, `EndMessage` and `SocketSendData`
(net.h, net.cpp): a node queues messages and writes them to its socket in parts, and a peer puts them together from
the parts in which they come. A copy past the end of a buffer, an assertion that fails and a loop that does not end
are faults.
-/

namespace ProCurrency

open ByteCodec

inductive TransportFault where
  | overrun
  | assertion
  | unfinished
  /-- `ReceiveMsgBytes` returns false, and its caller closes the connection. -/
  | refused
deriving DecidableEq, Repr

/-- A copy to a place in a buffer. -/
def memcpy (buf : List UInt8) (pos : Nat) (bs : List UInt8) : Except TransportFault (List UInt8) :=
  if pos + bs.length ≤ buf.length then .ok (Buffer.patch buf pos bs) else .error .overrun

/-- `resize`: what is new is zero. -/
def resize (buf : List UInt8) (size : Nat) : List UInt8 := buf.take size ++ List.replicate (size - buf.length) 0

/-! ## Headers -/

namespace CMessageHeader

def MESSAGE_START_SIZE : Nat := 4

def COMMAND_SIZE : Nat := 12

def MESSAGE_SIZE_OFFSET : Nat := MESSAGE_START_SIZE + COMMAND_SIZE

def CHECKSUM_OFFSET : Nat := MESSAGE_SIZE_OFFSET + 4

def HEADER_SIZE : Nat := CHECKSUM_OFFSET + 4

end CMessageHeader

structure CMessageHeader where
  pchMessageStart : List UInt8
  pchCommand : List UInt8
  nMessageSize : UInt32
  nChecksum : UInt32
  length_messageStart : pchMessageStart.length = CMessageHeader.MESSAGE_START_SIZE
  length_command : pchCommand.length = CMessageHeader.COMMAND_SIZE
deriving DecidableEq

/-- What two nodes of a network share. -/
structure TransportEnv where
  messageStart : List UInt8
  hash : List UInt8 → UInt256
  length_messageStart : messageStart.length = CMessageHeader.MESSAGE_START_SIZE

namespace CMessageHeader

/-- `strncpy`: up to the zero that ends the name, and filled up with zeros. -/
def strncpy (pszCommand : List UInt8) : List UInt8 :=
  let name := (pszCommand.takeWhile (· ≠ 0)).take COMMAND_SIZE
  name ++ List.replicate (COMMAND_SIZE - name.length) 0

theorem length_strncpy (pszCommand : List UInt8) : (strncpy pszCommand).length = COMMAND_SIZE := by
  have hle : ((pszCommand.takeWhile (· ≠ 0)).take COMMAND_SIZE).length ≤ COMMAND_SIZE := List.length_take_le _ _
  rw [strncpy, List.length_append, List.length_replicate]
  omega

/-- `CMessageHeader(pszCommand, nMessageSizeIn)`. -/
def new (env : TransportEnv) (pszCommand : List UInt8) (nMessageSizeIn : UInt32) : CMessageHeader where
  pchMessageStart := env.messageStart
  pchCommand := strncpy pszCommand
  nMessageSize := nMessageSizeIn
  nChecksum := 0
  length_messageStart := env.length_messageStart
  length_command := length_strncpy pszCommand

/-- `CMessageHeader()`. -/
def default (env : TransportEnv) : CMessageHeader where
  pchMessageStart := env.messageStart
  pchCommand := [0, 1] ++ List.replicate 10 0
  nMessageSize := -1
  nChecksum := 0
  length_messageStart := env.length_messageStart
  length_command := rfl

def serialize (hdr : CMessageHeader) : List UInt8 :=
  hdr.pchMessageStart ++ (hdr.pchCommand ++ (leBytes 4 hdr.nMessageSize.toNat ++ leBytes 4 hdr.nChecksum.toNat))

def unserialize : Reader CMessageHeader := fun s =>
  if h : s.length < HEADER_SIZE then none
  else
    let pchMessageStart := Buffer.slice s 0 MESSAGE_START_SIZE
    let pchCommand := Buffer.slice s MESSAGE_START_SIZE COMMAND_SIZE
    have hlen : HEADER_SIZE ≤ s.length := Nat.le_of_not_lt h
    some
      ({ pchMessageStart
         pchCommand
         nMessageSize := UInt32.ofNat (ofLeBytes (Buffer.slice s MESSAGE_SIZE_OFFSET 4))
         nChecksum := UInt32.ofNat (ofLeBytes (Buffer.slice s CHECKSUM_OFFSET 4))
         length_messageStart := Buffer.length_slice (Nat.le_trans (by decide) hlen)
         length_command := Buffer.length_slice (Nat.le_trans (by decide) hlen) }, s.drop HEADER_SIZE)

end CMessageHeader

/-! ## Receiving -/

structure CNetMessage where
  /-- Parsing the header (false) or the data (true). -/
  inData : Bool
  hdrbuf : List UInt8
  hdr : CMessageHeader
  nHdrPos : Nat
  vRecv : List UInt8
  nDataPos : Nat
deriving DecidableEq

namespace CNetMessage

def new (env : TransportEnv) : CNetMessage where
  inData := false
  hdrbuf := List.replicate 24 0
  hdr := .default env
  nHdrPos := 0
  vRecv := []
  nDataPos := 0

def complete (msg : CNetMessage) : Bool := msg.inData && msg.hdr.nMessageSize.toNat == msg.nDataPos

/-- `a - b` of unsigned 32-bit numbers. -/
def uintSub (a b : Nat) : Nat := (a + (2 ^ 32 - b % 2 ^ 32)) % 2 ^ 32

/-- `readHeader`: the message, and what is returned; `none` is -1. -/
def readHeader (msg : CNetMessage) (pch : List UInt8) : Except TransportFault (CNetMessage × Option Nat) :=
  let nRemaining := uintSub 24 msg.nHdrPos
  let nCopy := min nRemaining pch.length
  match memcpy msg.hdrbuf msg.nHdrPos (pch.take nCopy) with
  | .error fault => .error fault
  | .ok hdrbuf =>
      let msg := { msg with hdrbuf, nHdrPos := msg.nHdrPos + nCopy }
      if msg.nHdrPos < 24 then .ok (msg, some nCopy)
      else
        match CMessageHeader.unserialize hdrbuf with
        | none => .ok (msg, none)
        | some (hdr, hdrbuf) =>
            if MAX_SIZE < hdr.nMessageSize.toNat then .ok ({ msg with hdr, hdrbuf }, none)
            else .ok ({ msg with hdr, hdrbuf, inData := true }, some nCopy)

def readData (msg : CNetMessage) (pch : List UInt8) : Except TransportFault (CNetMessage × Option Nat) :=
  let nRemaining := uintSub msg.hdr.nMessageSize.toNat msg.nDataPos
  let nCopy := min nRemaining pch.length
  let vRecv :=
    if msg.vRecv.length < msg.nDataPos + nCopy then
      -- up to 256 KiB ahead, but never more than the total message size
      resize msg.vRecv (min msg.hdr.nMessageSize.toNat ((msg.nDataPos + nCopy + 256 * 1024) % 2 ^ 32))
    else msg.vRecv
  match memcpy vRecv msg.nDataPos (pch.take nCopy) with
  | .error fault => .error fault
  | .ok vRecv => .ok ({ msg with vRecv, nDataPos := msg.nDataPos + nCopy }, some nCopy)

/-- What absorbs the next bytes of the network. -/
def absorb (msg : CNetMessage) (pch : List UInt8) : Except TransportFault (CNetMessage × Option Nat) :=
  if !msg.inData then msg.readHeader pch else msg.readData pch

/-- The current incomplete message, or a new one, and the messages before it. -/
def current (env : TransportEnv) (vRecvMsg : List CNetMessage) : List CNetMessage × CNetMessage :=
  match vRecvMsg.getLast? with
  | none => (vRecvMsg, .new env)
  | some msg => if msg.complete then (vRecvMsg, .new env) else (vRecvMsg.dropLast, msg)

/-- `ReceiveMsgBytes`: what it returns, and `vRecvMsg`. -/
def receiveMsgBytes (env : TransportEnv) : Nat → List CNetMessage → List UInt8 →
    Except TransportFault (Bool × List CNetMessage)
  | _, vRecvMsg, [] => .ok (true, vRecvMsg)
  | 0, _, _ :: _ => .error .unfinished
  | rounds + 1, vRecvMsg, b :: bs =>
      let pch := b :: bs
      let (before, msg) := current env vRecvMsg
      match msg.absorb pch with
      | .error fault => .error fault
      | .ok (msg, none) => .ok (false, before ++ [msg])
      | .ok (msg, some handled) => receiveMsgBytes env rounds (before ++ [msg]) (pch.drop handled)

end CNetMessage

/-! ## Sending -/

/-- What `send` does: it takes as many bytes as it can, up to a number of them, or it fails, for now or for good. -/
inductive SendAnswer where
  | taken (nBytes : Nat)
  | wouldBlock
  | failed
deriving DecidableEq, Repr

/-- The side of a `CNode` that sends. -/
structure SendQueue where
  ssSend : List UInt8
  vSendMsg : List (List UInt8)
  /-- Offset inside the first entry of `vSendMsg` already sent. -/
  nSendOffset : Nat
  /-- Total size of all entries of `vSendMsg`. -/
  nSendSize : Int
  fDisconnect : Bool
deriving DecidableEq, Repr

namespace SendQueue

def start : SendQueue where
  ssSend := []
  vSendMsg := []
  nSendOffset := 0
  nSendSize := 0
  fDisconnect := false

/-- A socket that is closed takes nothing. -/
def send (node : SendQueue) (answers : List SendAnswer) : SendAnswer :=
  if node.fDisconnect then .failed else answers.headD .wouldBlock

/-- The loop of `SocketSendData`, from the entry `it` on: the node, without the entries that are sent, and the bytes
that the socket took. -/
def sendFrom (node : SendQueue) (answers : List SendAnswer) : List (List UInt8) →
    Except TransportFault (SendQueue × List UInt8)
  | [] =>
      if node.nSendOffset ≠ 0 then .error .assertion
      else if node.nSendSize ≠ 0 then .error .assertion
      else .ok ({ node with vSendMsg := [] }, [])
  | data :: it =>
      if data.length ≤ node.nSendOffset then .error .assertion
      else
        let unsent := data.drop node.nSendOffset
        match node.send answers with
        | .taken n =>
            let nBytes := min n unsent.length
            if nBytes = 0 then .ok ({ node with vSendMsg := data :: it }, [])
            else if node.nSendOffset + nBytes = data.length then
              match sendFrom { node with nSendOffset := 0, nSendSize := node.nSendSize - data.length } answers.tail it with
              | .error fault => .error fault
              | .ok (node, out) => .ok (node, unsent.take nBytes ++ out)
            else
              .ok ({ node with vSendMsg := data :: it, nSendOffset := node.nSendOffset + nBytes }, unsent.take nBytes)
        | .wouldBlock => .ok ({ node with vSendMsg := data :: it }, [])
        | .failed => .ok ({ node with vSendMsg := data :: it, fDisconnect := true }, [])

def socketSendData (node : SendQueue) (answers : List SendAnswer) : Except TransportFault (SendQueue × List UInt8) :=
  node.sendFrom answers node.vSendMsg

def beginMessage (env : TransportEnv) (node : SendQueue) (pszCommand : List UInt8) :
    Except TransportFault SendQueue :=
  if node.ssSend.length ≠ 0 then .error .assertion
  else .ok { node with ssSend := (CMessageHeader.new env pszCommand 0).serialize }

def abortMessage (node : SendQueue) : SendQueue := { node with ssSend := [] }

/-- The size and the checksum, written over those of the header in `ssSend`. -/
def sealMessage (env : TransportEnv) (ssSend : List UInt8) : Except TransportFault (List UInt8) :=
  let nSize := UInt32.ofNat (ssSend.length - CMessageHeader.HEADER_SIZE)
  match memcpy ssSend CMessageHeader.MESSAGE_SIZE_OFFSET (leBytes 4 nSize.toNat) with
  | .error fault => .error fault
  | .ok ssSend =>
      let hash := env.hash (ssSend.drop CMessageHeader.HEADER_SIZE)
      let nChecksum := ofLeBytes ((writeUInt256 hash).take 4)
      if ssSend.length < CMessageHeader.CHECKSUM_OFFSET + 4 then .error .assertion
      else memcpy ssSend CMessageHeader.CHECKSUM_OFFSET (leBytes 4 nChecksum)

/-- `EndMessage`; `fDrop` is the answer of `-dropmessagestest`. -/
def endMessage (env : TransportEnv) (node : SendQueue) (fDrop : Bool) (answers : List SendAnswer) :
    Except TransportFault (SendQueue × List UInt8) :=
  if fDrop then .ok (node.abortMessage, [])
  else if node.ssSend.length = 0 then .ok (node, [])
  else
    match sealMessage env node.ssSend with
    | .error fault => .error fault
    | .ok data =>
        let fFirst := node.vSendMsg.isEmpty
        let node :=
          { node with
            ssSend := []
            vSendMsg := node.vSendMsg ++ [data]
            nSendSize := node.nSendSize + data.length }
        if fFirst then node.socketSendData answers else .ok (node, [])

/-- `PushMessage`: what the arguments are written to is `payload`. -/
def pushMessage (env : TransportEnv) (node : SendQueue) (pszCommand payload : List UInt8) (fDrop : Bool)
    (answers : List SendAnswer) : Except TransportFault (SendQueue × List UInt8) :=
  match node.beginMessage env pszCommand with
  | .error fault => .error fault
  | .ok node => { node with ssSend := node.ssSend ++ payload }.endMessage env fDrop answers

end SendQueue

/-! ## A connection -/

/-- A node, what its socket took and the peer has not read, and the peer. -/
structure Link where
  node : SendQueue
  wire : List UInt8
  vRecvMsg : List CNetMessage
deriving DecidableEq

inductive LinkEvent where
  | pushMessage (pszCommand payload : List UInt8) (fDrop : Bool) (answers : List SendAnswer)
  | socketSendData (answers : List SendAnswer)
  /-- The peer reads as many bytes as there are, up to a number of them. -/
  | receive (nBytes : Nat)

namespace Link

def start : Link where
  node := .start
  wire := []
  vRecvMsg := []

def step (env : TransportEnv) (link : Link) : LinkEvent → Except TransportFault Link
  | .pushMessage pszCommand payload fDrop answers =>
      match link.node.pushMessage env pszCommand payload fDrop answers with
      | .error fault => .error fault
      | .ok (node, out) => .ok { link with node, wire := link.wire ++ out }
  | .socketSendData answers =>
      match link.node.socketSendData answers with
      | .error fault => .error fault
      | .ok (node, out) => .ok { link with node, wire := link.wire ++ out }
  | .receive nBytes =>
      let pch := link.wire.take nBytes
      -- each round takes a byte at least
      match CNetMessage.receiveMsgBytes env pch.length link.vRecvMsg pch with
      | .error fault => .error fault
      | .ok (false, _) => .error .refused
      | .ok (true, vRecvMsg) => .ok { link with wire := link.wire.drop nBytes, vRecvMsg }

def run (env : TransportEnv) (link : Link) : List LinkEvent → Except TransportFault Link
  | [] => .ok link
  | event :: events =>
      match link.step env event with
      | .error fault => .error fault
      | .ok link => run env link events

end Link

end ProCurrency

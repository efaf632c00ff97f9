import ProCurrency.Smsg.Store

/-!
# Secure messages between nodes

The handlers of `SecureMsgReceiveData`, `SecureMsgReceive` and `SecureMsgSendData`, and a pass of `ThreadSecureMsg`
with the peers. Where a handler reads outside the buffer that it was given, the result is `none`.
-/

namespace ProCurrency

open ByteCodec

/-- The commands with their data. -/
inductive SmsgMessage
  | smsgInv (vchData : Bytes)
  | smsgShow (vchData : Bytes)
  | smsgHave (vchData : Bytes)
  | smsgWant (vchData : Bytes)
  | smsgMsg (vchData : Bytes)
  | smsgMatch (vchData : Bytes)
  | smsgPing
  | smsgPong
  | smsgDisabled
  | smsgIgnore (vchData : Bytes)
  | unknown
deriving DecidableEq

/-- `CNode::smsgData`. -/
structure SecMsgNode where
  lastSeen : Int := 0
  lastMatched : Int := 0
  ignoreUntil : Int := 0
  fEnabled : Bool := false
deriving DecidableEq

def SecMsgNode.ignore (ignoreUntil : Int) (smsgData : SecMsgNode) : SecMsgNode := { smsgData with ignoreUntil }

/-- What a handler finds around it: the clock, the wallet, and how the writes of each round end. -/
structure SmsgCall where
  hmac : HmacSha256
  now : Int
  fLocked : Bool
  store : Nat → WriteOutcome
  unscanned : Nat → WriteOutcome

/-- What a handler leaves behind. `rounds` are the elements of the buffer that its loop has taken. -/
structure SmsgHandled where
  fRet : Bool
  st : SmsgState
  smsgData : SecMsgNode
  pushed : List SmsgMessage := []
  nMisbehavior : Nat := 0
  rounds : Nat := 0

def u32Bytes (n : UInt32) : Bytes := leBytes 4 n.toNat

def tokenBytes (token : SecMsgToken) : Bytes := i64Bytes token.timestamp ++ token.sample

/-! ## smsgInv -/

structure InvLoop where
  st : SmsgState
  vchDataOut : Bytes := []
  nShowBuckets : UInt32 := 0
  nLocked : Nat := 0
  nMisbehavior : Nat := 0
  rounds : Nat := 0

/-- One header of an inventory. -/
def invBucket (now time : Int) (ncontent hash : UInt32) (l : InvLoop) : InvLoop :=
  if time < now - SMSG_RETENTION then
    if time < now - SMSG_RETENTION - SMSG_TIME_LEEWAY then { l with nMisbehavior := l.nMisbehavior + 1 } else l
  else if time > now + SMSG_TIME_LEEWAY then { l with nMisbehavior := l.nMisbehavior + 1 }
  else if ncontent < 1 then l
  else
    let bkt := l.st.bucketAt time
    let l := { l with st := l.st.touch time }
    if bkt.nLockCount > 0 then { l with nLocked := l.nLocked + 1 }
    else if bkt.setTokens.size < ncontent.toNat ∨ bkt.setTokens.size = ncontent.toNat ∧ bkt.hash ≠ hash then
      { l with vchDataOut := l.vchDataOut ++ i64Bytes time, nShowBuckets := l.nShowBuckets + 1 }
    else l

def invLoop (now : Int) (vchData : Bytes) : Nat → Nat → InvLoop → Option InvLoop
  | 0, _, l => some l
  | n + 1, p, l => do
      let time ← readI64At vchData p
      let ncontent ← readU32At vchData (p + 8)
      let hash ← readU32At vchData (p + 12)
      invLoop now vchData n (p + 16) { invBucket now time ncontent hash l with rounds := l.rounds + 1 }

def receiveInv (call : SmsgCall) (vchData : Bytes) (smsgData : SecMsgNode) (st : SmsgState) : Option SmsgHandled :=
  if vchData.length < 4 then some { fRet := false, st, smsgData, nMisbehavior := 1 }
  else if call.now < smsgData.ignoreUntil then some { fRet := false, st, smsgData }
  else do
    let nInvBuckets ← readU32At vchData 0
    if nInvBuckets.toNat > SMSG_RETENTION / SMSG_BUCKET_LEN + 1 then
      some { fRet := false, st, smsgData, nMisbehavior := 1 }
    else if vchData.length < (4 + nInvBuckets * 16).toNat then
      some { fRet := false, st, smsgData, nMisbehavior := 1 }
    else
      let l ← invLoop call.now vchData nInvBuckets.toNat 4 { st }
      let pushed :=
        if l.vchDataOut ≠ [] then [.smsgShow (u32Bytes l.nShowBuckets ++ l.vchDataOut)]
        else if l.nLocked < 1 then [.smsgMatch (i64Bytes call.now)]
        else []
      some { fRet := true, st := l.st, smsgData, pushed, nMisbehavior := l.nMisbehavior, rounds := l.rounds }

/-! ## smsgShow -/

def haveMessage (time : Int) (bkt : SecMsgBucket) : SmsgMessage :=
  .smsgHave (i64Bytes time ++ bkt.setTokens.keys.flatMap tokenBytes)

def showLoop (vchData : Bytes) (st : SmsgState) : Nat → Nat → List SmsgMessage → Option (List SmsgMessage)
  | 0, _, pushed => some pushed
  | n + 1, pIn, pushed => do
      let time ← readI64At vchData pIn
      match st.smsgBuckets[time]? with
      | none => showLoop vchData st n (pIn + 8) pushed
      | some bkt => showLoop vchData st n (pIn + 8) (pushed ++ [haveMessage time bkt])

def receiveShow (vchData : Bytes) (smsgData : SecMsgNode) (st : SmsgState) : Option SmsgHandled :=
  if vchData.length < 4 then some { fRet := false, st, smsgData }
  else do
    let nBuckets ← readU32At vchData 0
    if vchData.length < (4 + nBuckets * 8).toNat then some { fRet := false, st, smsgData }
    else
      let pushed ← showLoop vchData st nBuckets.toNat 4 []
      some { fRet := true, st, smsgData, pushed, rounds := nBuckets.toNat }

/-! ## smsgHave -/

def readTokenAt (vchData : Bytes) (p : Nat) : Option SecMsgToken := do
  let timestamp ← readI64At vchData p
  let sample ← readAt vchData (p + 8) 8
  some ⟨timestamp, sample⟩

/-- The tokens of the peer that this node does not have, as they came. -/
def haveLoop (vchData : Bytes) (tokenSet : Std.ExtTreeMap SecMsgToken Nat) : Nat → Nat → Bytes → Option Bytes
  | 0, _, vchDataOut => some vchDataOut
  | n + 1, p, vchDataOut => do
      let token ← readTokenAt vchData p
      if token ∈ tokenSet then haveLoop vchData tokenSet n (p + 16) vchDataOut
      else
        let bs ← readAt vchData p 16
        haveLoop vchData tokenSet n (p + 16) (vchDataOut ++ bs)

def receiveHave (call : SmsgCall) (id : NodeId) (vchData : Bytes) (smsgData : SecMsgNode) (st : SmsgState) :
    Option SmsgHandled :=
  if vchData.length < 8 then some { fRet := false, st, smsgData }
  else do
    let n := (vchData.length - 8) / 16
    let time ← readI64At vchData 0
    if time < call.now - SMSG_RETENTION then some { fRet := false, st, smsgData }
    else if time > call.now + SMSG_TIME_LEEWAY then some { fRet := false, st, smsgData, nMisbehavior := 1 }
    else
      let bkt := st.bucketAt time
      let st := st.touch time
      if bkt.nLockCount > 0 then some { fRet := false, st, smsgData }
      else
        let vchDataOut ← haveLoop vchData bkt.setTokens n 8 []
        if vchDataOut ≠ [] then
          let st := st.setBucket time { bkt with nLockCount := 3, nLockPeerId := id }
          some { fRet := true, st, smsgData, pushed := [.smsgWant (vchData.take 8 ++ vchDataOut)], rounds := n }
        else some { fRet := true, st, smsgData, rounds := n }

/-! ## smsgWant -/

structure WantLoop where
  vchBunch : Bytes := []
  nBunch : Nat := 0
  rounds : Nat := 0

/-- The message of a token that this node has, if its file gives it back. -/
def wantMessage (st : SmsgState) (token : SecMsgToken) (offset : Nat) (l : WantLoop) : WantLoop :=
  match secureMsgRetrieve token offset st with
  | some vchOne => { l with vchBunch := l.vchBunch ++ vchOne, nBunch := l.nBunch + 1 }
  | none => l

def wantLoop (vchData : Bytes) (st : SmsgState) (tokenSet : Std.ExtTreeMap SecMsgToken Nat) :
    Nat → Nat → WantLoop → Option WantLoop
  | 0, _, l => some l
  | n + 1, p, l => do
      let token ← readTokenAt vchData p
      let l := { l with rounds := l.rounds + 1 }
      match tokenSet[token]? with
      | none => wantLoop vchData st tokenSet n (p + 16) l
      | some offset =>
          let l := wantMessage st token offset l
          if 500 ≤ l.nBunch ∨ 96000 ≤ 12 + l.vchBunch.length then some l
          else wantLoop vchData st tokenSet n (p + 16) l

def receiveWant (vchData : Bytes) (smsgData : SecMsgNode) (st : SmsgState) : Option SmsgHandled :=
  if vchData.length < 8 then some { fRet := false, st, smsgData }
  else do
    let n := (vchData.length - 8) / 16
    let time ← readI64At vchData 0
    match st.smsgBuckets[time]? with
    | none => some { fRet := false, st, smsgData }
    | some bkt =>
        let l ← wantLoop vchData st bkt.setTokens n 8 {}
        let pushed :=
          if l.nBunch > 0 then [.smsgMsg (u32Bytes (UInt32.ofNat l.nBunch) ++ i64Bytes time ++ l.vchBunch)] else []
        some { fRet := true, st, smsgData, pushed, rounds := l.rounds }

/-! ## smsgMsg -/

structure MsgLoop where
  st : SmsgState
  nMisbehavior : Nat := 0
  rounds : Nat := 0

/-- The difference of a `size_t` and a `uint32_t`. -/
def sizeSub (size : Nat) (n : UInt32) : Nat := if n.toNat ≤ size then size - n.toNat else size + 2 ^ 64 - n.toNat

/-- The header at `n`. -/
def readHeaderAt (vchData : Bytes) (n : Nat) : Option SecureMessageHeader :=
  (readAt vchData n SMSG_HDR_LEN).bind fun bs => (readHeader bs).map Prod.fst

/-- `SecureMsgStore` and `SecureMsgScanMessage` of one message of a bunch. -/
def storeMessage (call : SmsgCall) (i : Nat) (pHeader : SecureMessageHeader) (pPayload : Bytes) (st : SmsgState) :
    Nat × SmsgState :=
  match secureMsgStore call.now (call.store i) pHeader pPayload false st with
  | (0, st) => (0, secureMsgScanMessage call.now call.fLocked (call.unscanned i) pHeader pPayload st)
  | (rv, st) => (rv, st)

def msgLoop (call : SmsgCall) (vchData : Bytes) : Nat → UInt32 → MsgLoop → Option MsgLoop
  | 0, _, l => some l
  | left + 1, n, l =>
      if sizeSub vchData.length n < SMSG_HDR_LEN then some l
      else do
        let smsg ← readHeaderAt vchData n.toNat
        let nPayload := smsg.nPayload
        let pPayload := readAt vchData (n.toNat + SMSG_HDR_LEN) nPayload
        match ← secureMsgValidate call.hmac smsg nPayload pPayload with
        | 0 =>
            let pPayload ← pPayload
            match storeMessage call l.rounds smsg pPayload l.st with
            | (0, st) =>
                msgLoop call vchData left (n + UInt32.ofNat SMSG_HDR_LEN + UInt32.ofNat nPayload)
                  { l with st, rounds := l.rounds + 1 }
            | (_, st) => some { l with st, rounds := l.rounds + 1 }
        | rv =>
            msgLoop call vchData left n
              { l with nMisbehavior := l.nMisbehavior + if rv = 2 then 10 else 1, rounds := l.rounds + 1 }

/-- The bucket that a bunch is for, when nothing is stored from it. -/
def refuseBunch (bktTime : Int) (st : SmsgState) : SmsgState :=
  match st.smsgBuckets[bktTime]? with
  | none => st
  | some bkt => st.setBucket bktTime { bkt with nLockCount := 0 }

/-- The bucket that a bunch is for, after its messages. -/
def finishBunch (now bktTime : Int) (st : SmsgState) : SmsgState :=
  match st.smsgBuckets[bktTime]? with
  | none => st
  | some bkt => st.setBucket bktTime (SecMsgBucket.hashBucket { bkt with nLockCount := 0, nLockPeerId := 0 } now)

/-- `SecureMsgReceive`. -/
def secureMsgReceive (call : SmsgCall) (vchData : Bytes) (st : SmsgState) : Option MsgLoop :=
  if vchData.length < 12 then some { st }
  else do
    let nBunch ← readU32At vchData 0
    let bktTime ← readI64At vchData 4
    if outsideWindow call.now bktTime then some { st }
    else if nBunch = 0 ∨ nBunch > 500 then some { st := refuseBunch bktTime st, nMisbehavior := 1 }
    else
      let l ← msgLoop call vchData nBunch.toNat 12 { st }
      some { l with st := finishBunch call.now bktTime l.st }

/-! ## All commands -/

/-- `SecureMsgReceiveData`. -/
def secureMsgReceiveData (call : SmsgCall) (id : NodeId) (smsgData : SecMsgNode) (st : SmsgState) :
    SmsgMessage → Option SmsgHandled
  | .smsgInv vchData => receiveInv call vchData smsgData st
  | .smsgShow vchData => receiveShow vchData smsgData st
  | .smsgHave vchData => receiveHave call id vchData smsgData st
  | .smsgWant vchData => receiveWant vchData smsgData st
  | .smsgMsg vchData =>
      (secureMsgReceive call vchData st).map fun l =>
        { fRet := true, st := l.st, smsgData, nMisbehavior := l.nMisbehavior, rounds := l.rounds }
  | .smsgMatch vchData =>
      if vchData.length < 8 then some { fRet := false, st, smsgData, nMisbehavior := 1 }
      else some { fRet := true, st, smsgData }
  | .smsgPing => some { fRet := true, st, smsgData, pushed := [.smsgPong] }
  | .smsgPong => some { fRet := true, st, smsgData := { smsgData with fEnabled := true } }
  | .smsgDisabled => some { fRet := true, st, smsgData := { smsgData with fEnabled := false } }
  | .smsgIgnore vchData =>
      if vchData.length < 8 then some { fRet := false, st, smsgData, nMisbehavior := 1 }
      else do
        let time ← readI64At vchData 0
        some { fRet := true, st, smsgData := smsgData.ignore time }
  | .unknown => some { fRet := true, st, smsgData }

/-! ## Sending -/

/-- The buckets of an inventory: those that changed since it was last sent, and are not empty. -/
def shownBuckets (lastMatched : Int) (st : SmsgState) : List (Int × SecMsgBucket) :=
  st.smsgBuckets.toList.filter fun (_, bkt) => ¬ (bkt.timeChanged < lastMatched ∨ bkt.setTokens.size < 1)

def bucketHeader (bkt : Int × SecMsgBucket) : Bytes :=
  i64Bytes bkt.1 ++ u32Bytes (UInt32.ofNat bkt.2.setTokens.size) ++ u32Bytes bkt.2.hash

def invMessage (shown : List (Int × SecMsgBucket)) : SmsgMessage :=
  .smsgInv (u32Bytes (UInt32.ofNat shown.length) ++ shown.flatMap bucketHeader)

/-- `SecureMsgSendData`. -/
def secureMsgSendData (now : Int) (smsgData : SecMsgNode) (st : SmsgState) : SecMsgNode × List SmsgMessage :=
  if smsgData.lastSeen = 0 then ({ smsgData with lastSeen := now }, [.smsgPing])
  else if !smsgData.fEnabled || now - smsgData.lastSeen < SMSG_SEND_DELAY || now < smsgData.ignoreUntil then
    (smsgData, [])
  else
    let shown := shownBuckets smsgData.lastMatched st
    ({ smsgData with lastSeen := now, lastMatched := now }, if shown ≠ [] then [invMessage shown] else [])

/-! ## The node -/

structure SmsgNode where
  st : SmsgState := {}
  vNodes : Std.ExtTreeMap NodeId SecMsgNode := ∅

/-- The owner of a lock that has run out is ignored, if it is still connected. -/
def ignorePeer (now : Int) (vNodes : Std.ExtTreeMap NodeId SecMsgNode) (lock : Int × NodeId) :
    Std.ExtTreeMap NodeId SecMsgNode :=
  match vNodes[lock.2]? with
  | none => vNodes
  | some pnode => vNodes.insert lock.2 (pnode.ignore (now + SMSG_TIME_IGNORE))

def ignoreMessage (now : Int) (vNodes : Std.ExtTreeMap NodeId SecMsgNode) (lock : Int × NodeId) :
    Option (NodeId × SmsgMessage) :=
  if lock.2 ∈ vNodes then some (lock.2, .smsgIgnore (i64Bytes (now + SMSG_TIME_IGNORE))) else none

/-- One pass of `ThreadSecureMsg`. -/
def threadSecureMsg (now : Int) (fRemovesDat fRemovesWl : Int → Bool) (node : SmsgNode) :
    SmsgNode × List (NodeId × SmsgMessage) :=
  let vTimedOutLocks := timedOutLocks now node.st
  ({ st := expireBuckets now fRemovesDat fRemovesWl node.st
     vNodes := vTimedOutLocks.foldl (ignorePeer now) node.vNodes },
    vTimedOutLocks.filterMap (ignoreMessage now node.vNodes))

/-- What can happen to a node: a message of a peer, the sending to a peer, a pass of the thread, a message of its own,
a scan of the files, and a peer that comes or goes. -/
inductive SmsgEvent
  | receive (call : SmsgCall) (pfrom : NodeId) (msg : SmsgMessage)
  | send (now : Int) (pto : NodeId)
  | tick (now : Int) (fRemovesDat fRemovesWl : Int → Bool)
  | store (now : Int) (io : WriteOutcome) (smsg : SecureMessage) (fUpdateBucket : Bool)
  | scanBuckets (fSecMsgEnabled fLocked : Bool) (now : Int) (itd : List (SmsgFile × ScanOutcome))
  | walletUnlocked (fSecMsgEnabled fLocked : Bool) (now : Int) (itd : List (SmsgFile × ScanOutcome))
  | connect (id : NodeId)
  | disconnect (id : NodeId)

/-- One event at a node, with the messages that go out. -/
def SmsgNode.step : SmsgEvent → SmsgNode → Option (SmsgNode × List (NodeId × SmsgMessage))
  | .receive call pfrom msg, node => do
      let smsgData ← node.vNodes[pfrom]?
      let r ← secureMsgReceiveData call pfrom smsgData node.st msg
      some ({ st := r.st, vNodes := node.vNodes.insert pfrom r.smsgData }, r.pushed.map fun m => (pfrom, m))
  | .send now pto, node => do
      let smsgData ← node.vNodes[pto]?
      let (smsgData, pushed) := secureMsgSendData now smsgData node.st
      some ({ node with vNodes := node.vNodes.insert pto smsgData }, pushed.map fun m => (pto, m))
  | .tick now fRemovesDat fRemovesWl, node => some (threadSecureMsg now fRemovesDat fRemovesWl node)
  | .store now io smsg fUpdateBucket, node =>
      some ({ node with st := (secureMsgStore now io smsg.header smsg.pPayload fUpdateBucket node.st).2 }, [])
  | .scanBuckets fSecMsgEnabled fLocked now itd, node =>
      some ({ node with st := secureMsgScanBuckets fSecMsgEnabled fLocked now itd node.st }, [])
  | .walletUnlocked fSecMsgEnabled fLocked now itd, node =>
      some ({ node with st := secureMsgWalletUnlocked fSecMsgEnabled fLocked now itd node.st }, [])
  | .connect id, node => some ({ node with vNodes := node.vNodes.insert id {} }, [])
  | .disconnect id, node => some ({ node with vNodes := node.vNodes.erase id }, [])

end ProCurrency

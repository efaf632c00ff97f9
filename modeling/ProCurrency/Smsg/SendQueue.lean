import ProCurrency.Smsg.RoundTrip

/-!
# The send queue

`SecureMsgSend` and what `ThreadSecureMsgPow` erases (smessage.cpp). A key of the database is packed from a prefix, the
timestamp of the message and the address that its payload was allocated at.
-/

namespace ProCurrency

open ByteCodec CBitcoinAddress

variable {SK PT : Type}

/-! ## Sending -/

/-- `SecMsgStored`; `status` and `folderId` are not set. -/
structure SecMsgStored where
  timeReceived : Int
  sAddrTo : Bytes
  sAddrOutbox : Bytes
  vchMessage : Bytes

/-- The entries under keys of 18 bytes. -/
abbrev SmsgDb := Bytes → Option SecMsgStored

def qm : Bytes := ['q', 'm'].map fun c => UInt8.ofNat c.toNat
def sm : Bytes := ['s', 'm'].map fun c => UInt8.ofNat c.toNat
def sNone : Bytes := ['N', 'o', 'n', 'e'].map fun c => UInt8.ofNat c.toNat

/-- `chKey`: the eight bytes from `&smsg.pPayload` on are those of the pointer. -/
def chKey (sPrefix : Bytes) (smsg : SecureMessageHeader) (pPayload : UInt64) : Bytes :=
  sPrefix ++ (smsg.field 7 8 ++ leBytes 8 pPayload.toNat)

/-- What `SecureMsgEncrypt` gets from the clock, draws at random, and finds in fresh memory. -/
structure SmsgDraws (SK : Type) where
  now : Int
  iv : Bytes
  keyR : SK
  smsg : SecureMessageHeader

/-- A call of `SecureMsgSend`, with what it meets. -/
structure SendCall (SK : Type) where
  fLocked : Bool
  addressFrom : Bytes
  addressTo : Bytes
  message : Bytes
  draws : SmsgDraws SK
  drawsOutbox : SmsgDraws SK
  /-- Where `SecureMsgEncrypt` allocates the two payloads. -/
  pPayload : UInt64
  pPayloadOutbox : UInt64
  getTime : Int
  getTimeOutbox : Int
  /-- There is memory for `vchMessage`. -/
  fResizes : Bool
  fResizesOutbox : Bool
  /-- The database opens, and `WriteSmesg` returns true. -/
  fWrites : Bool
  fWritesOutbox : Bool
  /-- The addresses of `mapAddressBook`, with `IsDestMine`. -/
  mapAddressBook : List (Bytes × Bool)

structure SmsgEnv (SK PT : Type) where
  crypto : SmsgCrypto SK PT
  net : Network
  keys : SmsgKeys SK

/-- "get first owned address". -/
def outboxAddress (hash : Bytes → UInt256) (addressOutbox : Bytes) : List (Bytes × Bool) → Bytes
  | [] => addressOutbox
  | (address, fMine) :: rest =>
      if !fMine then outboxAddress hash addressOutbox rest
      else if (setString hash address).isNone then outboxAddress hash address rest
      else address

namespace SendCall

variable (env : SmsgEnv SK PT) (call : SendCall SK)

def encrypt (draws : SmsgDraws SK) (addressTo : Bytes) : Except Nat (SecureMessageHeader × Bytes) :=
  secureMsgEncrypt env.crypto env.net env.keys draws.now draws.iv draws.keyR draws.smsg call.addressFrom addressTo
    call.message

def addressOutbox : Bytes := outboxAddress env.crypto.hash sNone call.mapAddressBook

def queued (smsg : SecureMessageHeader) (pPayload : Bytes) : Bytes × SecMsgStored :=
  (chKey qm smsg call.pPayload, ⟨call.getTime, call.addressTo, [], smsg.bytes ++ pPayload⟩)

def outboxed (smsg : SecureMessageHeader) (pPayload : Bytes) : Bytes × SecMsgStored :=
  (chKey sm smsg call.pPayloadOutbox,
    ⟨call.getTimeOutbox, call.addressTo, call.addressOutbox env, smsg.bytes ++ pPayload⟩)

/-- The copy for the outbox. -/
def sendOutbox : Nat × List (Bytes × SecMsgStored) :=
  if call.addressOutbox env = sNone then (0, [])
  else
    match call.encrypt env call.drawsOutbox (call.addressOutbox env) with
    | .error _ => (0, [])
    | .ok (smsgForOutbox, pPayload) =>
        if !call.fResizesOutbox then (8, [])
        else if call.fWritesOutbox then (0, [call.outboxed env smsgForOutbox pPayload])
        else (0, [])

/-- `SecureMsgSend`: what it returns, and what it writes. -/
def send : Nat × List (Bytes × SecMsgStored) :=
  if call.fLocked then (1, [])
  else if (if call.addressFrom = anon then SMSG_MAX_AMSG_BYTES else SMSG_MAX_MSG_BYTES) < call.message.length then
    (1, [])
  else
    match call.encrypt env call.draws call.addressTo with
    | .error rv => (rv, [])
    | .ok (smsg, pPayload) =>
        if !call.fResizes then (8, [])
        else
          let outbox := call.sendOutbox env
          (outbox.1, (if call.fWrites then [call.queued smsg pPayload] else []) ++ outbox.2)

end SendCall

/-- `WriteSmesg`. -/
def writeSmesg (db : SmsgDb) (entry : Bytes × SecMsgStored) : SmsgDb := Function.update db entry.1 (some entry.2)

/-! ## Runs -/

inductive QueueEvent (SK : Type)
  | send (call : SendCall SK)
  /-- The proof of work of the message that was read at `chKey` is done. -/
  | pow (chKey : Bytes)

/-- One event. `NextSmesg` reads keys with the prefix of the queue only. -/
def queueStep (env : SmsgEnv SK PT) (db : SmsgDb) : QueueEvent SK → SmsgDb
  | .send call => (call.send env).2.foldl writeSmesg db
  | .pow chKey => if chKey.take 2 = qm then Function.update db chKey none else db

def queueRun (env : SmsgEnv SK PT) (db : SmsgDb) (events : List (QueueEvent SK)) : SmsgDb :=
  events.foldl (queueStep env) db

/-- One new entry in the queue and one in the outbox. -/
def AddsBoth (db db' : SmsgDb) : Prop :=
  ∃ q o, q.1.take 2 = qm ∧ o.1.take 2 = sm ∧ db q.1 = none ∧ db o.1 = none ∧
    db' = writeSmesg (writeSmesg db q) o

/-- Both databases can be written, and there is an address of one's own that the copy is encrypted for. -/
def SendCall.Writable (env : SmsgEnv SK PT) (call : SendCall SK) : Prop :=
  call.fWrites ∧ call.fWritesOutbox ∧ call.addressOutbox env ≠ sNone ∧
    ∃ r, call.encrypt env call.drawsOutbox (call.addressOutbox env) = .ok r

/-- No key is in the database already. -/
def SendCall.Fresh (env : SmsgEnv SK PT) (used : Bytes → Prop) (call : SendCall SK) : Prop :=
  ∀ entry ∈ (call.send env).2, ¬ used entry.1

/-- The steps of a run: each send that succeeds can write, and no key is used twice. -/
def Regular (env : SmsgEnv SK PT) (used : Bytes → Prop) : List (QueueEvent SK) → Prop
  | [] => True
  | .send call :: events =>
      call.Fresh env used ∧ ((call.send env).1 = 0 → call.Writable env) ∧
        Regular env (fun k => used k ∨ ∃ entry ∈ (call.send env).2, entry.1 = k) events
  | .pow _ :: events => Regular env used events

/-! ## Keys -/

variable {env : SmsgEnv SK PT} {call : SendCall SK} {db : SmsgDb}

theorem take_chKey {sPrefix : Bytes} (h : sPrefix.length = 2) (smsg : SecureMessageHeader) (pPayload : UInt64) :
    (chKey sPrefix smsg pPayload).take 2 = sPrefix := List.take_left' h

namespace SendCall

theorem sendOutbox_cases (env : SmsgEnv SK PT) (call : SendCall SK) :
    (call.sendOutbox env).2 = [] ∧ ¬ ((call.sendOutbox env).1 = 0 ∧ call.fWritesOutbox ∧
        call.addressOutbox env ≠ sNone ∧ ∃ r, call.encrypt env call.drawsOutbox (call.addressOutbox env) = .ok r) ∨
      ∃ smsg pPayload, call.encrypt env call.drawsOutbox (call.addressOutbox env) = .ok (smsg, pPayload) ∧
        call.addressOutbox env ≠ sNone ∧ call.fWritesOutbox ∧
        call.sendOutbox env = (0, [call.outboxed env smsg pPayload]) := by
  rw [sendOutbox]
  by_cases hnone : call.addressOutbox env = sNone
  · rw [if_pos hnone]
    exact Or.inl ⟨rfl, fun h => h.2.2.1 hnone⟩
  · rw [if_neg hnone]
    cases hencrypt : call.encrypt env call.drawsOutbox (call.addressOutbox env) with
    | error rv => exact Or.inl ⟨rfl, fun h => by obtain ⟨r, hr⟩ := h.2.2.2; cases hr⟩
    | ok r =>
        obtain ⟨smsg, pPayload⟩ := r
        cases hmemory : call.fResizesOutbox with
        | false =>
            refine Or.inl ⟨rfl, fun h => ?_⟩
            have height : (8 : Nat) = 0 := h.1
            cases height
        | true =>
            cases hwrites : call.fWritesOutbox with
            | false => exact Or.inl ⟨rfl, fun h => Bool.noConfusion h.2.1⟩
            | true => exact Or.inr ⟨smsg, pPayload, rfl, hnone, rfl, rfl⟩

/-- What is written is at most an entry of the queue and one of the outbox. -/
theorem send_sublist (env : SmsgEnv SK PT) (call : SendCall SK) :
    ∃ q o : Bytes × SecMsgStored, q.1.take 2 = qm ∧ o.1.take 2 = sm ∧ List.Sublist (call.send env).2 [q, o] := by
  have hq := fun smsg => take_chKey (rfl : qm.length = 2) smsg call.pPayload
  have ho := fun smsg => take_chKey (rfl : sm.length = 2) smsg call.pPayloadOutbox
  have hnothing : ∃ q o : Bytes × SecMsgStored, q.1.take 2 = qm ∧ o.1.take 2 = sm ∧ List.Sublist [] [q, o] :=
    ⟨call.queued call.draws.smsg [], call.outboxed env call.draws.smsg [], hq _, ho _, List.nil_sublist _⟩
  by_cases hlocked : call.fLocked
  · rw [send, if_pos hlocked]
    exact hnothing
  · rw [send, if_neg hlocked]
    by_cases hlong : (if call.addressFrom = anon then SMSG_MAX_AMSG_BYTES else SMSG_MAX_MSG_BYTES) < call.message.length
    · rw [if_pos hlong]
      exact hnothing
    · rw [if_neg hlong]
      cases call.encrypt env call.draws call.addressTo with
      | error rv => exact hnothing
      | ok r =>
          obtain ⟨smsg, pPayload⟩ := r
          cases call.fResizes with
          | false => exact hnothing
          | true =>
              have hqueue : List.Sublist (if call.fWrites then [call.queued smsg pPayload] else [])
                  [call.queued smsg pPayload] := by
                split_ifs
                · exact List.Sublist.refl _
                · exact List.nil_sublist _
              rcases call.sendOutbox_cases env with ⟨hempty, _⟩ | ⟨smsg', pPayload', _, _, _, hsend⟩
              · refine ⟨call.queued smsg pPayload, call.outboxed env call.draws.smsg [], hq _, ho _, ?_⟩
                change List.Sublist (_ ++ (call.sendOutbox env).2) _
                rw [hempty]
                exact hqueue.append (List.nil_sublist [call.outboxed env call.draws.smsg []])
              · refine ⟨call.queued smsg pPayload, call.outboxed env smsg' pPayload', hq _, ho _, ?_⟩
                change List.Sublist (_ ++ (call.sendOutbox env).2) _
                rw [hsend]
                exact hqueue.append (List.Sublist.refl [call.outboxed env smsg' pPayload'])

/-! ### Errors -/

theorem bind_ne_zero {α β : Type} {x : Except Nat α} {f : α → Except Nat β} (hx : x ≠ .error 0)
    (hf : ∀ a, f a ≠ .error 0) : x >>= f ≠ .error 0 := by
  cases x with
  | error rv => exact fun h => hx (congrArg Except.error (Except.error.inj h))
  | ok a => exact hf a

theorem smsgKeyID_ne_zero {hash : Bytes → UInt256} {net : Network} {errString errKeyID : Nat} {address : Bytes}
    (hString : errString ≠ 0) (hKeyID : errKeyID ≠ 0) : smsgKeyID hash net errString errKeyID address ≠ .error 0 := by
  rw [smsgKeyID]
  cases setString hash address with
  | none => exact fun h => hString (Except.error.inj h)
  | some coinAddr =>
      dsimp only
      cases coinAddr.getKeyID net with
      | none => exact fun h => hKeyID (Except.error.inj h)
      | some ckid =>
          intro h
          cases h

theorem senderKeyID_ne_zero {hash : Bytes → UInt256} {net : Network} {addressFrom : Bytes} :
    senderKeyID hash net addressFrom ≠ .error 0 := by
  rw [senderKeyID]
  split_ifs
  · intro h
    cases h
  · cases hid : smsgKeyID hash net 3 4 addressFrom with
    | error rv =>
        refine fun h => smsgKeyID_ne_zero (by decide) (by decide) (hid.trans ?_)
        exact congrArg Except.error (Except.error.inj h)
    | ok ckid =>
        intro h
        cases h

theorem encryptedPayload_ne_zero {c : SmsgCrypto SK PT} {net : Network} {keys : SmsgKeys SK} {ckidFrom : Option CKeyID}
    {message : Bytes} : encryptedPayload c net keys ckidFrom message ≠ .error 0 := by
  refine bind_ne_zero ?_ fun pMsgData => ?_
  · rw [compressMessage]
    split_ifs
    · intro h
      cases h
    · intro h
      cases h
    · intro h
      cases h
  · cases ckidFrom with
    | none =>
        intro h
        cases h
    | some ckidFrom =>
        dsimp only
        cases keys.getKey ckidFrom with
        | none =>
            intro h
            cases h
        | some keyFrom =>
            intro h
            cases h

theorem sealMessage_ne_zero {c : SmsgCrypto SK PT} {vchP vchPayload : Bytes} {smsg : SecureMessageHeader} :
    sealMessage c vchP vchPayload smsg ≠ .error 0 := by
  rw [sealMessage]
  cases c.aesEncrypt (messageKeys c vchP).1 smsg.iv vchPayload with
  | none =>
      intro h
      cases h
  | some vchCiphertext =>
      dsimp only
      split
      · intro h
        cases h
      · intro h
        cases h

/-- An error is never told as success. -/
theorem encrypt_ne_zero (env : SmsgEnv SK PT) (call : SendCall SK) (draws : SmsgDraws SK) (addressTo : Bytes) :
    call.encrypt env draws addressTo ≠ .error 0 := by
  have hfour : (4 : Nat) ≠ 0 := by decide
  rw [encrypt, secureMsgEncrypt]
  by_cases hlong : (if call.addressFrom = anon then SMSG_MAX_AMSG_BYTES else SMSG_MAX_MSG_BYTES) < call.message.length
  · rw [if_pos hlong]
    intro h
    cases h
  · rw [if_neg hlong]
    refine bind_ne_zero senderKeyID_ne_zero fun ckidFrom =>
      bind_ne_zero (smsgKeyID_ne_zero hfour hfour) fun ckidDest => ?_
    cases env.keys.getDestKey ckidDest with
    | none =>
        intro h
        cases h
    | some cpkDestK =>
        dsimp only
        cases env.crypto.setPubKey cpkDestK with
        | none =>
            intro h
            cases h
        | some ecKeyK =>
            dsimp only
            split_ifs
            · intro h
              cases h
            · intro h
              cases h
            · exact bind_ne_zero encryptedPayload_ne_zero fun vchPayload => sealMessage_ne_zero

/-- What a send that returns 0 writes. -/
theorem send_of_zero (h : (call.send env).1 = 0) :
    ∃ smsg pPayload, call.encrypt env call.draws call.addressTo = .ok (smsg, pPayload) ∧
      (call.sendOutbox env).1 = 0 ∧
      (call.send env).2 =
        (if call.fWrites then [call.queued smsg pPayload] else []) ++ (call.sendOutbox env).2 := by
  rw [send] at h ⊢
  by_cases hlocked : call.fLocked
  · rw [if_pos hlocked] at h
    cases h
  · rw [if_neg hlocked] at h ⊢
    by_cases hlong : (if call.addressFrom = anon then SMSG_MAX_AMSG_BYTES else SMSG_MAX_MSG_BYTES) < call.message.length
    · rw [if_pos hlong] at h
      cases h
    · rw [if_neg hlong] at h ⊢
      cases hencrypt : call.encrypt env call.draws call.addressTo with
      | error rv =>
          rw [hencrypt] at h
          have hzero : rv = 0 := h
          rw [hzero] at hencrypt
          exact absurd hencrypt (encrypt_ne_zero env call call.draws call.addressTo)
      | ok r =>
          obtain ⟨smsg, pPayload⟩ := r
          rw [hencrypt] at h
          cases hmemory : call.fResizes with
          | false =>
              rw [hmemory] at h
              cases h
          | true =>
              rw [hmemory] at h
              exact ⟨smsg, pPayload, rfl, h, rfl⟩

/-- A send that returns 0 writes an entry to the queue and one to the outbox exactly when it can. -/
theorem send_writes_iff (h : (call.send env).1 = 0) :
    (∃ q o : Bytes × SecMsgStored, q.1.take 2 = qm ∧ o.1.take 2 = sm ∧ (call.send env).2 = [q, o]) ↔
      call.Writable env := by
  obtain ⟨smsg, pPayload, _, hzero, hwrites⟩ := send_of_zero h
  rw [hwrites]
  constructor
  · rintro ⟨q, o, _, _, hboth⟩
    have hlength := congrArg List.length hboth
    rcases call.sendOutbox_cases env with ⟨hempty, _⟩ | ⟨smsg', pPayload', hencrypt, hnone, hcan, hsend⟩
    · rw [hempty, List.append_nil] at hlength
      split_ifs at hlength
      · cases hlength
    · rw [hsend] at hlength
      refine ⟨?_, hcan, hnone, _, hencrypt⟩
      by_contra hcannot
      rw [if_neg hcannot] at hlength
      cases hlength
  · rintro ⟨hqueue, hcan, hnone, hencrypt⟩
    rcases call.sendOutbox_cases env with ⟨_, hcannot⟩ | ⟨smsg', pPayload', _, _, _, hsend⟩
    · exact absurd ⟨hzero, hcan, hnone, hencrypt⟩ hcannot
    · rw [if_pos hqueue, hsend]
      exact ⟨_, _, take_chKey rfl _ _, take_chKey rfl _ _, rfl⟩

end SendCall

/-! ## The database -/

theorem writeSmesg_of_ne {entry : Bytes × SecMsgStored} {key : Bytes} (h : entry.1 ≠ key) :
    writeSmesg db entry key = db key := Function.update_of_ne (Ne.symm h) ..

theorem writeSmesg_self (db : SmsgDb) (entry : Bytes × SecMsgStored) : writeSmesg db entry entry.1 = some entry.2 :=
  Function.update_self ..

theorem foldl_writeSmesg_of_not_mem {entries : List (Bytes × SecMsgStored)} {key : Bytes}
    (h : ∀ entry ∈ entries, entry.1 ≠ key) (db : SmsgDb) : entries.foldl writeSmesg db key = db key := by
  induction entries generalizing db with
  | nil => rfl
  | cons entry entries ih =>
      obtain ⟨hentry, hentries⟩ := List.forall_mem_cons.1 h
      rw [List.foldl_cons, ih hentries, writeSmesg_of_ne hentry]

theorem foldl_writeSmesg_of_mem {entries : List (Bytes × SecMsgStored)} {entry : Bytes × SecMsgStored}
    (hnodup : (entries.map Prod.fst).Nodup) (h : entry ∈ entries) (db : SmsgDb) :
    entries.foldl writeSmesg db entry.1 = some entry.2 := by
  induction entries generalizing db with
  | nil => cases h
  | cons first entries ih =>
      obtain ⟨hfirst, hentries⟩ := List.nodup_cons.1 hnodup
      rw [List.foldl_cons]
      rcases List.mem_cons.1 h with rfl | hmem
      · have hnot : ∀ entry' ∈ entries, entry'.1 ≠ entry.1 :=
          fun entry' hmem heq => hfirst (List.mem_map.2 ⟨entry', hmem, heq⟩)
        rw [foldl_writeSmesg_of_not_mem hnot, writeSmesg_self]
      · exact ih hentries hmem _

theorem qm_ne_sm : qm ≠ sm := by decide

theorem SendCall.send_nodup (env : SmsgEnv SK PT) (call : SendCall SK) : ((call.send env).2.map Prod.fst).Nodup := by
  obtain ⟨q, o, hq, ho, hsub⟩ := call.send_sublist env
  refine (hsub.map Prod.fst).nodup ?_
  rw [List.map_cons, List.map_singleton, List.nodup_cons]
  refine ⟨fun h => ?_, List.nodup_singleton _⟩
  rw [List.mem_singleton] at h
  rw [h, ho] at hq
  exact qm_ne_sm hq.symm

theorem exists_entry_of_added {key : Bytes} (hbefore : db key = none)
    (hafter : queueStep env db (.send call) key ≠ none) : ∃ entry ∈ (call.send env).2, entry.1 = key := by
  by_contra hnot
  refine hafter (Eq.trans ?_ hbefore)
  exact foldl_writeSmesg_of_not_mem (fun entry hmem heq => hnot ⟨entry, hmem, heq⟩) db

/-- A send that returns 0 adds both entries exactly when it can write and its keys are new. -/
theorem addsBoth_iff (h : (call.send env).1 = 0) :
    AddsBoth db (queueStep env db (.send call)) ↔ call.Writable env ∧ call.Fresh env fun key => db key ≠ none := by
  constructor
  · rintro ⟨q, o, hq, ho, hqnone, honone, hdb⟩
    have hne : q.1 ≠ o.1 := fun heq => qm_ne_sm (by rw [← hq, ← ho, heq])
    have hqsome : queueStep env db (.send call) q.1 ≠ none := by
      rw [hdb, writeSmesg_of_ne (Ne.symm hne), writeSmesg_self]
      exact Option.some_ne_none _
    have hosome : queueStep env db (.send call) o.1 ≠ none := by
      rw [hdb, writeSmesg_self]
      exact Option.some_ne_none _
    obtain ⟨q₁, hq₁, hqkey⟩ := exists_entry_of_added hqnone hqsome
    obtain ⟨o₁, ho₁, hokey⟩ := exists_entry_of_added honone hosome
    obtain ⟨q₂, o₂, hq₂, ho₂, hsub⟩ := call.send_sublist env
    have hqsame : q₁ = q₂ := by
      rcases List.mem_cons.1 (hsub.subset hq₁) with heq | hmem
      · exact heq
      · rw [List.mem_singleton.1 hmem] at hqkey
        rw [← hqkey, ho₂] at hq
        exact absurd hq.symm qm_ne_sm
    have hosame : o₁ = o₂ := by
      rcases List.mem_cons.1 (hsub.subset ho₁) with heq | hmem
      · rw [heq] at hokey
        rw [← hokey, hq₂] at ho
        exact absurd ho qm_ne_sm
      · exact List.mem_singleton.1 hmem
    have hlength : 2 ≤ (call.send env).2.length := by
      by_contra hshort
      have hone : (call.send env).2.length ≤ 1 := by omega
      obtain ⟨i, hi, rfl⟩ := List.mem_iff_getElem.1 hq₁
      obtain ⟨j, hj, rfl⟩ := List.mem_iff_getElem.1 ho₁
      obtain rfl : i = j := by omega
      exact hne (hqkey.symm.trans hokey)
    have hwrites : (call.send env).2 = [q₂, o₂] := hsub.eq_of_length_le hlength
    refine ⟨(SendCall.send_writes_iff h).1 ⟨q₂, o₂, hq₂, ho₂, hwrites⟩, fun entry hmem hused => ?_⟩
    rw [hwrites] at hmem
    rcases List.mem_cons.1 hmem with rfl | hmem
    · rw [← hqsame, hqkey] at hused
      exact hused hqnone
    · rw [List.mem_singleton.1 hmem, ← hosame, hokey] at hused
      exact hused honone
  · rintro ⟨hwritable, hfresh⟩
    obtain ⟨q, o, hq, ho, hwrites⟩ := (SendCall.send_writes_iff h).2 hwritable
    rw [SendCall.Fresh, hwrites] at hfresh
    refine ⟨q, o, hq, ho, not_not.1 (hfresh q List.mem_cons_self),
      not_not.1 (hfresh o (List.mem_cons_of_mem _ List.mem_cons_self)), ?_⟩
    rw [queueStep, hwrites]
    rfl

/-! ## The whole run -/

/-- The keys that are used once the events are over. -/
def usedAfter (env : SmsgEnv SK PT) (used : Bytes → Prop) (events : List (QueueEvent SK)) (key : Bytes) : Prop :=
  used key ∨ ∃ call, QueueEvent.send call ∈ events ∧ ∃ entry ∈ (call.send env).2, entry.1 = key

theorem usedAfter_send {used : Bytes → Prop} {events : List (QueueEvent SK)} :
    usedAfter env (fun key => used key ∨ ∃ entry ∈ (call.send env).2, entry.1 = key) events =
      usedAfter env used (.send call :: events) := by
  funext key
  refine propext ⟨?_, ?_⟩
  · rintro ((hused | hentry) | ⟨call', hmem, hentry⟩)
    · exact Or.inl hused
    · exact Or.inr ⟨call, List.mem_cons_self, hentry⟩
    · exact Or.inr ⟨call', List.mem_cons_of_mem _ hmem, hentry⟩
  · rintro (hused | ⟨call', hmem, hentry⟩)
    · exact Or.inl (Or.inl hused)
    · rcases List.mem_cons.1 hmem with heq | hmem
      · cases heq
        exact Or.inl (Or.inr hentry)
      · exact Or.inr ⟨call', hmem, hentry⟩

theorem usedAfter_pow {used : Bytes → Prop} {events : List (QueueEvent SK)} {chKey : Bytes} :
    usedAfter env used events = usedAfter env used (.pow chKey :: events) := by
  funext key
  refine propext (or_congr_right ⟨?_, ?_⟩)
  · rintro ⟨call, hmem, hentry⟩
    exact ⟨call, List.mem_cons_of_mem _ hmem, hentry⟩
  · rintro ⟨call, hmem, hentry⟩
    rcases List.mem_cons.1 hmem with heq | hmem
    · cases heq
    · exact ⟨call, hmem, hentry⟩

theorem regular_append {used : Bytes → Prop} {events events' : List (QueueEvent SK)}
    (h : Regular env used (events ++ events')) : Regular env (usedAfter env used events) events' := by
  induction events generalizing used with
  | nil =>
      have hsame : usedAfter env used ([] : List (QueueEvent SK)) = used := by
        funext key
        exact propext (or_iff_left fun ⟨_, hmem, _⟩ => nomatch hmem)
      rw [hsame]
      exact h
  | cons event events ih =>
      cases event with
      | send call =>
          rw [← usedAfter_send]
          exact ih h.2.2
      | pow chKey =>
          rw [← usedAfter_pow]
          exact ih h

/-- What is in the database has been there or has been written. -/
theorem usedAfter_of_queueRun {events : List (QueueEvent SK)} {key : Bytes} (h : queueRun env db events key ≠ none) :
    usedAfter env (fun key => db key ≠ none) events key := by
  induction events generalizing db with
  | nil => exact Or.inl h
  | cons event events ih =>
      rcases @ih (queueStep env db event) h with hstep | ⟨call, hmem, hentry⟩
      · cases event with
        | send call =>
            by_cases hbefore : db key = none
            · exact Or.inr ⟨call, List.mem_cons_self, exists_entry_of_added hbefore hstep⟩
            · exact Or.inl hbefore
        | pow chKey =>
            refine Or.inl fun hnone => hstep ?_
            rw [queueStep]
            split_ifs
            · by_cases hsame : key = chKey
              · rw [hsame, Function.update_self]
              · rw [Function.update_of_ne hsame, hnone]
            · exact hnone
      · exact Or.inr ⟨call, List.mem_cons_of_mem _ hmem, hentry⟩

/-- What the sends of a run have added stays, each under a key of its own, until its proof of work is done. -/
structure Kept (env : SmsgEnv SK PT) (db : SmsgDb) (events : List (QueueEvent SK)) : Prop where
  adds : ∀ before call after, events = before ++ .send call :: after → (call.send env).1 = 0 →
    AddsBoth (queueRun env db before) (queueRun env db (before ++ [.send call]))
  apart : ∀ before call between call' after, events = before ++ .send call :: (between ++ .send call' :: after) →
    ∀ entry ∈ (call.send env).2, ∀ entry' ∈ (call'.send env).2, entry.1 ≠ entry'.1
  kept : ∀ before call after, events = before ++ .send call :: after → ∀ entry ∈ (call.send env).2,
    .pow entry.1 ∉ after → queueRun env db events entry.1 = some entry.2

/-- A key that is in use is not written again, and only its own proof of work erases it. -/
theorem queueRun_of_used {used : Bytes → Prop} {events : List (QueueEvent SK)} {key : Bytes}
    (hregular : Regular env used events) (hused : used key) (hpow : .pow key ∉ events) :
    queueRun env db events key = db key := by
  induction events generalizing db used with
  | nil => rfl
  | cons event events ih =>
      have hrest : .pow key ∉ events := fun hmem => hpow (List.mem_cons_of_mem _ hmem)
      cases event with
      | send call =>
          obtain ⟨hfresh, _, hregular⟩ := hregular
          refine (@ih (queueStep env db (.send call)) _ hregular (Or.inl hused) hrest).trans ?_
          exact foldl_writeSmesg_of_not_mem (fun entry hmem heq => hfresh entry hmem (heq ▸ hused)) db
      | pow chKey =>
          have hother : key ≠ chKey := fun heq => hpow (heq ▸ List.mem_cons_self)
          refine (@ih (queueStep env db (.pow chKey)) _ hregular hused hrest).trans ?_
          rw [queueStep]
          split_ifs
          · exact Function.update_of_ne hother ..
          · rfl

def byteSmsgEnv : SmsgEnv UInt8 UInt8 := ⟨byteCrypto, .main, byteKeys⟩

/-- A message to key 5, with a copy for key 3; the payload of the queue is allocated at `pPayload`. -/
def byteCall (message : Bytes) (pPayload : UInt64) : SendCall UInt8 where
  fLocked := false
  addressFrom := anon
  addressTo := addressOfFive
  message
  draws := ⟨1500000000, List.replicate 16 0, 7, zeroHeader⟩
  drawsOutbox := ⟨1500000000, List.replicate 16 0, 7, zeroHeader⟩
  pPayload
  pPayloadOutbox := 4096
  getTime := 1500000000
  getTimeOutbox := 1500000000
  fResizes := true
  fResizesOutbox := true
  fWrites := true
  fWritesOutbox := true
  mapAddressBook := [(addressOfThree, true)]

theorem byteCall_writable : (byteCall [104, 105] 64).Writable byteSmsgEnv := by
  refine ⟨rfl, rfl, by decide +kernel, ?_⟩
  have hok : ((byteCall [104, 105] 64).encrypt byteSmsgEnv (byteCall [104, 105] 64).drawsOutbox
      ((byteCall [104, 105] 64).addressOutbox byteSmsgEnv)).toOption.isSome := by decide +kernel
  cases hencrypt : (byteCall [104, 105] 64).encrypt byteSmsgEnv (byteCall [104, 105] 64).drawsOutbox
      ((byteCall [104, 105] 64).addressOutbox byteSmsgEnv) with
  | error rv =>
      rw [hencrypt] at hok
      cases hok
  | ok r => exact ⟨r, rfl⟩

end ProCurrency

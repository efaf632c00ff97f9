import ProCurrency.Smsg.Lemmas.Bunch

/-!
# Reading inside the buffer

`smsgInv`, `smsgHave` and `smsgWant` never read outside what the peer has sent. The size check of `smsgShow` wraps
around at 2^32, and the length of a payload in `smsgMsg` is not compared with what is left of the buffer.
-/

namespace ProCurrency

open ByteCodec SmsgState

/-- How many elements fit in the buffer of a message. -/
def elementsThatFit : SmsgMessage → Nat
  | .smsgInv vchData => (vchData.length - 4) / 16
  | .smsgShow vchData => (vchData.length - 4) / 8
  | .smsgHave vchData | .smsgWant vchData => (vchData.length - 8) / 16
  | .smsgMsg vchData => (vchData.length - 12) / SMSG_HDR_LEN
  | _ => 0

/-- The handler stays inside its buffer, and its loop takes no more elements than fit. -/
def StaysInBounds (call : SmsgCall) (id : NodeId) (smsgData : SecMsgNode) (st : SmsgState) (msg : SmsgMessage) : Prop :=
  ∃ r, secureMsgReceiveData call id smsgData st msg = some r ∧ r.rounds ≤ elementsThatFit msg

variable {call : SmsgCall} {id : NodeId} {smsgData : SecMsgNode} {st : SmsgState} {vchData : Bytes}

theorem readI64At_isSome (vchData : Bytes) (p : Nat) (h : p + 8 ≤ vchData.length) :
    ∃ time, readI64At vchData p = some time :=
  ⟨_, by rw [readI64At, readAt_eq_some h, Option.map_some]⟩

theorem readU32At_isSome (vchData : Bytes) (p : Nat) (h : p + 4 ≤ vchData.length) : ∃ n, readU32At vchData p = some n :=
  ⟨_, by rw [readU32At, readAt_eq_some h, Option.map_some]⟩

theorem readTokenAt_isSome (vchData : Bytes) (p : Nat) (h : p + 16 ≤ vchData.length) :
    ∃ token, readTokenAt vchData p = some token := by
  obtain ⟨timestamp, htimestamp⟩ := readI64At_isSome vchData p (by omega)
  refine ⟨⟨timestamp, (vchData.drop (p + 8)).take 8⟩, ?_⟩
  rw [readTokenAt, htimestamp, readAt_eq_some (by omega)]
  rfl

/-! ## smsgInv, smsgHave and smsgWant -/

theorem invLoop_isSome (now : Int) (n p : Nat) (l : InvLoop) (h : p + 16 * n ≤ vchData.length) :
    ∃ l', invLoop now vchData n p l = some l' ∧ l'.rounds = l.rounds + n := by
  induction n generalizing p l with
  | zero => exact ⟨l, rfl, rfl⟩
  | succ n ih =>
      obtain ⟨time, htime⟩ := readI64At_isSome vchData p (by omega)
      obtain ⟨ncontent, hncontent⟩ := readU32At_isSome vchData (p + 8) (by omega)
      obtain ⟨hash, hhash⟩ := readU32At_isSome vchData (p + 12) (by omega)
      simp only [invLoop, htime, hncontent, hhash, Option.bind_eq_bind, Option.bind_some]
      obtain ⟨l', hl', hrounds⟩ :=
        ih (p + 16) { invBucket now time ncontent hash l with rounds := l.rounds + 1 } (by omega)
      exact ⟨l', hl', hrounds.trans (by dsimp only; omega)⟩

theorem receiveInv_staysInBounds : StaysInBounds call id smsgData st (.smsgInv vchData) := by
  simp only [StaysInBounds, secureMsgReceiveData, receiveInv, Option.bind_eq_bind, elementsThatFit]
  split
  · exact ⟨_, rfl, Nat.zero_le _⟩
  · next hsize =>
      split
      · exact ⟨_, rfl, Nat.zero_le _⟩
      · obtain ⟨nInvBuckets, hread⟩ := readU32At_isSome vchData 0 (by omega)
        rw [hread, Option.bind_some]
        split
        · exact ⟨_, rfl, Nat.zero_le _⟩
        · next hmany =>
            -- with so few buckets the product does not wrap around
            have hfew : nInvBuckets.toNat ≤ 289 := by
              simp only [SMSG_RETENTION, SMSG_BUCKET_LEN] at hmany
              omega
            have hneed : (4 + nInvBuckets * 16).toNat = 4 + 16 * nInvBuckets.toNat := by
              simp only [UInt32.toNat_add, UInt32.toNat_mul, UInt32.reduceToNat]
              omega
            rw [hneed]
            split
            · exact ⟨_, rfl, Nat.zero_le _⟩
            · next hshort =>
                obtain ⟨l, hl, hrounds⟩ := invLoop_isSome call.now nInvBuckets.toNat 4 { st } (Nat.not_lt.1 hshort)
                rw [hl, Option.bind_some]
                refine ⟨_, rfl, ?_⟩
                dsimp only at hrounds ⊢
                omega

theorem haveLoop_isSome (tokenSet : Std.ExtTreeMap SecMsgToken Nat) (n p : Nat) (vchDataOut : Bytes)
    (h : p + 16 * n ≤ vchData.length) : ∃ out, haveLoop vchData tokenSet n p vchDataOut = some out := by
  induction n generalizing p vchDataOut with
  | zero => exact ⟨vchDataOut, rfl⟩
  | succ n ih =>
      obtain ⟨token, htoken⟩ := readTokenAt_isSome vchData p (by omega)
      simp only [haveLoop, htoken, Option.bind_eq_bind, Option.bind_some]
      split
      · exact ih (p + 16) vchDataOut (by omega)
      · rw [readAt_eq_some (by omega), Option.bind_some]
        exact ih (p + 16) _ (by omega)

theorem receiveHave_staysInBounds : StaysInBounds call id smsgData st (.smsgHave vchData) := by
  simp only [StaysInBounds, secureMsgReceiveData, receiveHave, Option.bind_eq_bind, elementsThatFit]
  split
  · exact ⟨_, rfl, Nat.zero_le _⟩
  · next hsize =>
      obtain ⟨time, htime⟩ := readI64At_isSome vchData 0 (by omega)
      rw [htime, Option.bind_some]
      split
      · exact ⟨_, rfl, Nat.zero_le _⟩
      · split
        · exact ⟨_, rfl, Nat.zero_le _⟩
        · split
          · exact ⟨_, rfl, Nat.zero_le _⟩
          · have hlen : 8 + 16 * ((vchData.length - 8) / 16) ≤ vchData.length := by omega
            obtain ⟨out, hout⟩ := haveLoop_isSome (st.bucketAt time).setTokens _ 8 [] hlen
            rw [hout, Option.bind_some]
            split
            · exact ⟨_, rfl, Nat.le_refl _⟩
            · exact ⟨_, rfl, Nat.le_refl _⟩

theorem wantMessage_rounds (st : SmsgState) (token : SecMsgToken) (offset : Nat) (l : WantLoop) :
    (wantMessage st token offset l).rounds = l.rounds := by
  rw [wantMessage]
  split <;> rfl

theorem wantLoop_isSome (st : SmsgState) (tokenSet : Std.ExtTreeMap SecMsgToken Nat) (n p : Nat)
    (l : WantLoop) (h : p + 16 * n ≤ vchData.length) :
    ∃ l', wantLoop vchData st tokenSet n p l = some l' ∧ l'.rounds ≤ l.rounds + n := by
  induction n generalizing p l with
  | zero => exact ⟨l, rfl, Nat.le_refl _⟩
  | succ n ih =>
      obtain ⟨token, htoken⟩ := readTokenAt_isSome vchData p (by omega)
      simp only [wantLoop, htoken, Option.bind_eq_bind, Option.bind_some]
      split
      · obtain ⟨l', hl', hrounds⟩ := ih (p + 16) { l with rounds := l.rounds + 1 } (by omega)
        exact ⟨l', hl', Nat.le_trans hrounds (by dsimp only; omega)⟩
      · next offset _ =>
          have hwant := wantMessage_rounds st token offset { l with rounds := l.rounds + 1 }
          split
          · exact ⟨_, rfl, by rw [hwant]; dsimp only; omega⟩
          · obtain ⟨l', hl', hrounds⟩ :=
              ih (p + 16) (wantMessage st token offset { l with rounds := l.rounds + 1 }) (by omega)
            refine ⟨l', hl', Nat.le_trans hrounds ?_⟩
            rw [hwant]
            dsimp only
            omega

theorem receiveWant_staysInBounds : StaysInBounds call id smsgData st (.smsgWant vchData) := by
  simp only [StaysInBounds, secureMsgReceiveData, receiveWant, Option.bind_eq_bind, elementsThatFit]
  split
  · exact ⟨_, rfl, Nat.zero_le _⟩
  · next hsize =>
      obtain ⟨time, htime⟩ := readI64At_isSome vchData 0 (by omega)
      rw [htime, Option.bind_some]
      split
      · exact ⟨_, rfl, Nat.zero_le _⟩
      · next bkt _ =>
          have hlen : 8 + 16 * ((vchData.length - 8) / 16) ≤ vchData.length := by omega
          obtain ⟨l, hl, hrounds⟩ := wantLoop_isSome st bkt.setTokens _ 8 {} hlen
          rw [hl, Option.bind_some]
          exact ⟨_, rfl, Nat.le_trans hrounds (by simp)⟩

/-! ## smsgShow -/

theorem showLoop_isSome_iff (st : SmsgState) (n pIn : Nat) (pushed : List SmsgMessage) :
    (∃ pushed', showLoop vchData st n pIn pushed = some pushed') ↔ n = 0 ∨ pIn + 8 * n ≤ vchData.length := by
  induction n generalizing pIn pushed with
  | zero => exact ⟨fun _ => .inl rfl, fun _ => ⟨pushed, rfl⟩⟩
  | succ n ih =>
      simp only [showLoop, Option.bind_eq_bind]
      by_cases hlen : pIn + 8 ≤ vchData.length
      · obtain ⟨time, htime⟩ := readI64At_isSome vchData pIn hlen
        rw [htime, Option.bind_some]
        split
        · rw [ih]
          omega
        · rw [ih]
          omega
      · rw [readI64At, readAt_eq_none (Nat.not_le.1 hlen)]
        simp only [Option.map_none, Option.bind_none]
        constructor
        · rintro ⟨_, ⟨⟩⟩
        · omega

/-- The buckets that are asked for are there, when the size check lets them pass. -/
def ShowFits (vchData : Bytes) : Prop :=
  ∀ nBuckets, readU32At vchData 0 = some nBuckets → (4 + nBuckets * 8).toNat ≤ vchData.length →
    4 + 8 * nBuckets.toNat ≤ vchData.length

theorem receiveShow_staysInBounds_iff : StaysInBounds call id smsgData st (.smsgShow vchData) ↔ ShowFits vchData := by
  simp only [StaysInBounds, secureMsgReceiveData, receiveShow, Option.bind_eq_bind, elementsThatFit, ShowFits]
  split
  · next hsize =>
      refine iff_of_true ⟨_, rfl, Nat.zero_le _⟩ fun nBuckets hread => ?_
      rw [readU32At, readAt_eq_none (by omega)] at hread
      cases hread
  · next hsize =>
      obtain ⟨nBuckets, hread⟩ := readU32At_isSome vchData 0 (by omega)
      simp only [hread, Option.bind_some, Option.some.injEq]
      split
      · next hshort =>
          refine iff_of_true ⟨_, rfl, Nat.zero_le _⟩ ?_
          rintro _ rfl hneed
          exact absurd hneed (Nat.not_le.2 hshort)
      · next hneed =>
          have hneed := Nat.not_lt.1 hneed
          have hloop := @showLoop_isSome_iff vchData st nBuckets.toNat 4 []
          constructor
          · rintro ⟨r, hr, -⟩ _ rfl -
            obtain ⟨pushed, hpushed, -⟩ := Option.bind_eq_some_iff.1 hr
            rcases hloop.1 ⟨pushed, hpushed⟩ with hzero | hlen
            · omega
            · exact hlen
          · intro hfits
            have hlen := hfits nBuckets rfl hneed
            obtain ⟨pushed, hpushed⟩ := hloop.2 (.inr hlen)
            rw [hpushed, Option.bind_some]
            refine ⟨_, rfl, ?_⟩
            dsimp only
            omega

/-! ## smsgMsg -/

/-- A bunch whose messages are taken, and how many it says to have. -/
structure BunchTaken (call : SmsgCall) (vchData : Bytes) (nBunch : UInt32) (bktTime : Int) : Prop where
  size : 12 ≤ vchData.length
  count : readU32At vchData 0 = some nBunch
  time : readI64At vchData 4 = some bktTime
  inWindow : InWindow call.now bktTime
  notEmpty : nBunch ≠ 0
  notMany : ¬ nBunch > 500

/-- A payload that is read lies inside the buffer, and a message that is refused is not met too often. -/
structure ElementFits (call : SmsgCall) (vchData : Bytes) (nBunch : Nat) (n : Nat) (pHeader : SecureMessageHeader) :
    Prop where
  payload : pHeader.version.head? = some 1 → pHeader.nPayload ≤ SMSG_MAX_MSG_WORST →
    n + SMSG_HDR_LEN + pHeader.nPayload ≤ vchData.length
  refused : ∀ rv, validateAt call vchData n pHeader = some (rv + 1) → nBunch ≤ (vchData.length - 12) / SMSG_HDR_LEN

/-- Every element that the walk over the bunch comes to from here fits. -/
def BunchFits (call : SmsgCall) (vchData : Bytes) (nBunch i n : Nat) (st : SmsgState) : Prop :=
  ∀ j m st', BunchReaches call vchData i n st j m st' → j < nBunch →
    ∀ pHeader : SecureMessageHeader, readAt vchData m SMSG_HDR_LEN = some pHeader.bytes →
      ElementFits call vchData nBunch m pHeader

def MsgFits (call : SmsgCall) (vchData : Bytes) (st : SmsgState) : Prop :=
  ∀ nBunch bktTime, BunchTaken call vchData nBunch bktTime → BunchFits call vchData nBunch.toNat 0 12 st

/-- What holds at the round `i` of the loop. -/
structure LoopAt (vchData : Bytes) (nBunch : Nat) (left : Nat) (n : UInt32) (l : MsgLoop) : Prop where
  count : l.rounds + left = nBunch
  notMany : nBunch ≤ 500
  inBuffer : n.toNat ≤ vchData.length
  passed : 12 + SMSG_HDR_LEN * l.rounds ≤ n.toNat
  noWrap : n.toNat ≤ 12 + (SMSG_HDR_LEN + SMSG_MAX_MSG_WORST) * l.rounds

theorem LoopAt.start {nBunch : UInt32} {bktTime : Int} (h : BunchTaken call vchData nBunch bktTime) :
    LoopAt vchData nBunch.toNat nBunch.toNat 12 { st } where
  count := Nat.zero_add _
  notMany := Nat.not_lt.1 h.notMany
  inBuffer := h.size
  passed := Nat.le_refl _
  noWrap := Nat.le_refl _

variable {nBunch left : Nat} {n : UInt32} {l : MsgLoop}

theorem LoopAt.next {smsg : SecureMessage} (h : LoopAt vchData nBunch (left + 1) n l)
    (hmsg : MessageAt vchData n.toNat smsg) (hsize : smsg.header.nPayload ≤ SMSG_MAX_MSG_WORST) (st' : SmsgState) :
    (n + UInt32.ofNat SMSG_HDR_LEN + UInt32.ofNat smsg.header.nPayload).toNat = n.toNat + smsg.bytes.length ∧
      LoopAt vchData nBunch left (n + UInt32.ofNat SMSG_HDR_LEN + UInt32.ofNat smsg.header.nPayload)
        { l with st := st', rounds := l.rounds + 1 } := by
  have hcount := h.count
  have hmany := h.notMany
  obtain ⟨hnext, hwrap⟩ := toNat_next (i := l.rounds) (by omega) h.noWrap hsize
  refine ⟨hnext, ?_, hmany, ?_, ?_, ?_⟩
  · dsimp only
    omega
  · rw [hnext]
    exact hmsg.length_le
  · have hpassed := h.passed
    rw [hnext, smsg.length_bytes]
    dsimp only
    rw [Nat.mul_succ]
    omega
  · rw [hnext]
    exact hwrap

/-- The elements that are taken so far fit in the buffer. -/
theorem LoopAt.rounds_le (h : LoopAt vchData nBunch left n l) : l.rounds ≤ (vchData.length - 12) / SMSG_HDR_LEN := by
  have hpassed := Nat.le_trans h.passed h.inBuffer
  rw [Nat.le_div_iff_mul_le (by decide), Nat.mul_comm]
  omega

theorem LoopAt.succ_rounds_le (h : LoopAt vchData nBunch left n l) (hlen : n.toNat + SMSG_HDR_LEN ≤ vchData.length) :
    l.rounds + 1 ≤ (vchData.length - 12) / SMSG_HDR_LEN := by
  have hpassed := h.passed
  rw [Nat.le_div_iff_mul_le (by decide), Nat.mul_comm, Nat.mul_succ]
  omega

theorem msgLoop_staysInBounds (h : LoopAt vchData nBunch left n l)
    (hfits : BunchFits call vchData nBunch l.rounds n.toNat l.st) :
    ∃ l', msgLoop call vchData left n l = some l' ∧ l'.rounds ≤ (vchData.length - 12) / SMSG_HDR_LEN := by
  induction left generalizing n l with
  | zero => exact ⟨l, rfl, h.rounds_le⟩
  | succ left ih =>
      have hcount := h.count
      by_cases hlen : n.toNat + SMSG_HDR_LEN ≤ vchData.length
      · obtain ⟨pHeader, hheader⟩ := exists_headerAt hlen
        have helement := hfits l.rounds n.toNat l.st (.refl _ _ _) (by omega) pHeader hheader
        cases hvalid : validateAt call vchData n.toNat pHeader with
        | none =>
            obtain ⟨hversion, hsize, hpayload⟩ := validateAt_eq_none_iff.1 hvalid
            exact absurd (helement.payload hversion hsize) (Nat.not_le.2 hpayload)
        | some rv =>
            cases rv with
            | zero =>
                obtain ⟨smsg, rfl, hmsg, hsize⟩ := validateAt_eq_zero hheader hvalid
                by_cases hstores : StoreSucceeds call.now (call.store l.rounds) smsg l.st
                · rw [msgLoop_stores hmsg hvalid hstores]
                  obtain ⟨hnext, hat⟩ := h.next hmsg hsize (storeMessage call l.rounds smsg.header smsg.pPayload l.st).2
                  refine ih hat fun j m st' hreach => hfits j m st' (.next hmsg hvalid hstores ?_)
                  rw [← hnext]
                  exact hreach
                · rw [msgLoop_not_stores hmsg hvalid hstores]
                  exact ⟨_, rfl, h.succ_rounds_le hlen⟩
            | succ rv =>
                obtain ⟨l', hl', hrounds, -⟩ := msgLoop_invalid (left + 1) l hheader hvalid
                refine ⟨l', hl', ?_⟩
                rw [hrounds, hcount]
                exact helement.refused rv hvalid
      · exact ⟨l, msgLoop_short (Nat.not_le.1 hlen) h.inBuffer, h.rounds_le⟩

theorem bunchFits_of_msgLoop {l' : MsgLoop} (h : LoopAt vchData nBunch left n l)
    (hloop : msgLoop call vchData left n l = some l') (hrounds : l'.rounds ≤ (vchData.length - 12) / SMSG_HDR_LEN) :
    BunchFits call vchData nBunch l.rounds n.toNat l.st := by
  intro j m st' hreach
  generalize hi : l.rounds = i at hreach
  generalize hn : n.toNat = n0 at hreach
  generalize hst : l.st = st at hreach
  induction hreach generalizing left n l with
  | refl i n0 st =>
      subst hi hn hst
      intro hj pHeader hheader
      have hcount := h.count
      obtain ⟨left, rfl⟩ : ∃ left', left = left' + 1 := ⟨left - 1, by omega⟩
      rw [msgLoop_succ hheader] at hloop
      refine ⟨fun hversion hsize => ?_, fun rv hrv => ?_⟩
      · by_contra hpayload
        rw [validateAt_eq_none_iff.2 ⟨hversion, hsize, Nat.not_le.1 hpayload⟩] at hloop
        cases hloop
      · rw [← msgLoop_succ hheader] at hloop
        obtain ⟨l'', hl'', hrounds', -⟩ := msgLoop_invalid (left + 1) l hheader hrv
        obtain rfl := Option.some.inj (hloop.symm.trans hl'')
        omega
  | @next i n0 j m st st' smsg hmsg hvalid hstores hreach ih =>
      subst hi hn hst
      intro hj
      have hcount := h.count
      have hle : l.rounds < nBunch := by
        have hmono : l.rounds + 1 ≤ j := hreach.le
        omega
      obtain ⟨left, rfl⟩ : ∃ left', left = left' + 1 := ⟨left - 1, by omega⟩
      obtain ⟨smsg', hheader, -, hsize⟩ := validateAt_eq_zero hmsg.header hvalid
      obtain ⟨hnext, hat⟩ := h.next hmsg hsize (storeMessage call l.rounds smsg.header smsg.pPayload l.st).2
      rw [msgLoop_stores hmsg hvalid hstores] at hloop
      exact ih hat hloop rfl hnext rfl hj

theorem receiveMsg_staysInBounds_iff :
    StaysInBounds call id smsgData st (.smsgMsg vchData) ↔ MsgFits call vchData st := by
  have hrounds : StaysInBounds call id smsgData st (.smsgMsg vchData) ↔
      ∃ l, secureMsgReceive call vchData st = some l ∧ l.rounds ≤ (vchData.length - 12) / SMSG_HDR_LEN := by
    simp [StaysInBounds, secureMsgReceiveData, elementsThatFit]
  rw [hrounds]
  simp only [secureMsgReceive, Option.bind_eq_bind]
  split
  · next hsize => exact iff_of_true ⟨_, rfl, Nat.zero_le _⟩ fun _ _ htaken => absurd htaken.size (by omega)
  · next hsize =>
      obtain ⟨nBunch, hcount⟩ := readU32At_isSome vchData 0 (by omega)
      obtain ⟨bktTime, htime⟩ := readI64At_isSome vchData 4 (by omega)
      have hunique {nBunch' : UInt32} {bktTime' : Int} (htaken : BunchTaken call vchData nBunch' bktTime') :
          nBunch' = nBunch ∧ bktTime' = bktTime :=
        ⟨Option.some.inj (htaken.count.symm.trans hcount), Option.some.inj (htaken.time.symm.trans htime)⟩
      rw [hcount, htime, Option.bind_some, Option.bind_some]
      split
      · next hout =>
          refine iff_of_true ⟨_, rfl, Nat.zero_le _⟩ fun _ _ htaken => ?_
          obtain ⟨rfl, rfl⟩ := hunique htaken
          rw [outsideWindow_eq_false_iff.2 htaken.inWindow] at hout
          cases hout
      · next hin =>
          split
          · next hrefused =>
              refine iff_of_true ⟨_, rfl, Nat.zero_le _⟩ fun _ _ htaken => ?_
              obtain ⟨rfl, rfl⟩ := hunique htaken
              exact (hrefused.elim htaken.notEmpty htaken.notMany).elim
          · next htakes =>
              obtain ⟨hnotEmpty, hnotMany⟩ := not_or.1 htakes
              have htaken : BunchTaken call vchData nBunch bktTime :=
                ⟨Nat.not_lt.1 hsize, hcount, htime, outsideWindow_eq_false_iff.1 (Bool.not_eq_true _ ▸ hin),
                  hnotEmpty, hnotMany⟩
              have hstart : LoopAt vchData nBunch.toNat nBunch.toNat 12 { st } := .start htaken
              constructor
              · rintro ⟨l, hl, hrounds⟩ nBunch' bktTime' htaken'
                obtain ⟨rfl, rfl⟩ := hunique htaken'
                obtain ⟨l', hl', hl⟩ := Option.bind_eq_some_iff.1 hl
                obtain rfl := Option.some.inj hl
                exact bunchFits_of_msgLoop hstart hl' hrounds
              · intro hfits
                obtain ⟨l, hl, hrounds⟩ := msgLoop_staysInBounds hstart (hfits nBunch bktTime htaken)
                rw [hl, Option.bind_some]
                exact ⟨_, rfl, hrounds⟩

/-! ## All messages -/

/-- What a peer must send for the handlers to stay in bounds. -/
def ElementsFit (call : SmsgCall) (st : SmsgState) : SmsgMessage → Prop
  | .smsgShow vchData => ShowFits vchData
  | .smsgMsg vchData => MsgFits call vchData st
  | _ => True

/-- The handlers stay inside the buffer of a peer exactly if its elements fit. -/
theorem receiveData_staysInBounds_iff (call : SmsgCall) (id : NodeId) (smsgData : SecMsgNode) (st : SmsgState)
    (msg : SmsgMessage) : StaysInBounds call id smsgData st msg ↔ ElementsFit call st msg := by
  cases msg with
  | smsgInv vchData => exact iff_of_true receiveInv_staysInBounds trivial
  | smsgShow vchData => exact receiveShow_staysInBounds_iff
  | smsgHave vchData => exact iff_of_true receiveHave_staysInBounds trivial
  | smsgWant vchData => exact iff_of_true receiveWant_staysInBounds trivial
  | smsgMsg vchData => exact receiveMsg_staysInBounds_iff
  | smsgMatch vchData =>
      refine iff_of_true ?_ trivial
      simp only [StaysInBounds, secureMsgReceiveData]
      split
      · exact ⟨_, rfl, Nat.zero_le _⟩
      · exact ⟨_, rfl, Nat.zero_le _⟩
  | smsgPing => exact iff_of_true ⟨_, rfl, Nat.zero_le _⟩ trivial
  | smsgPong => exact iff_of_true ⟨_, rfl, Nat.zero_le _⟩ trivial
  | smsgDisabled => exact iff_of_true ⟨_, rfl, Nat.zero_le _⟩ trivial
  | smsgIgnore vchData =>
      refine iff_of_true ?_ trivial
      simp only [StaysInBounds, secureMsgReceiveData, Option.bind_eq_bind]
      split
      · exact ⟨_, rfl, Nat.zero_le _⟩
      · next hsize =>
          obtain ⟨time, htime⟩ := readI64At_isSome vchData 0 (by omega)
          rw [htime, Option.bind_some]
          exact ⟨_, rfl, Nat.zero_le _⟩
  | unknown => exact iff_of_true ⟨_, rfl, Nat.zero_le _⟩ trivial

/-- A `smsgShow` of four bytes that asks for 2^29 buckets. -/
theorem not_staysInBounds_show :
    ¬ StaysInBounds (.refusing 600000) 1 {} {} (.smsgShow [0, 0, 0, 32]) := by
  rw [receiveShow_staysInBounds_iff]
  intro hfits
  have hlen := hfits (2 ^ 29) (by decide) (by decide)
  exact absurd hlen (by decide)

end ProCurrency

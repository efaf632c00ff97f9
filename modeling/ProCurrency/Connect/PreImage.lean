import ProCurrency.Connect.Inputs

/-!
# What ring signatures sign

The bytes that `GetTxnPreImage` (wallet.cpp) hashes. They hold no counts, and of every input the bytes in which a
ring of the first layout has its public keys. A ring of the second layout has them further back.
-/

namespace ProCurrency

open ByteCodec PrefixCode

/-! ## The bytes -/

namespace CTxIn

/-- What the loop takes from a `scriptSig`. -/
def hashedRing (txin : CTxIn) : Bytes := (txin.scriptSig.drop 2).take (txin.extractRingSize * EC_COMPRESSED_SIZE)

def writePreImage (txin : CTxIn) : Bytes :=
  writeUInt256 txin.prevout.hash ++ leBytes 4 txin.prevout.n.toNat ++ txin.hashedRing

/-- The script is as long as the loop asks for. -/
def HoldsRing (txin : CTxIn) : Prop := 2 + txin.extractRingSize * EC_COMPRESSED_SIZE ≤ txin.scriptSig.length

/-- The layout in which `CheckAnonInputs` reads the ring; `none` when there is no ring that it takes. -/
def ringLayout (txin : CTxIn) : Option RingSigType :=
  if txin.isAnonInput then ringSigTypeOf txin.extractRingSize txin.scriptSig else none

/-- The public keys of the ring. -/
def ringMembers (txin : CTxIn) : List Bytes :=
  match txin.ringLayout with
  | none => []
  | some type =>
      (List.range txin.extractRingSize).map
        (partOf (ringPubkeys txin.extractRingSize txin.scriptSig type) EC_COMPRESSED_SIZE)

/-- Both scripts have the ring where it is hashed, or none has one. -/
def ReadAlike (txin txin' : CTxIn) : Prop :=
  txin.ringLayout = txin'.ringLayout ∧ txin.ringLayout ≠ some .RING_SIG_2

end CTxIn

namespace CTransaction

/-- The bytes that `GetTxnPreImage` hashes; `none` when a script is too small. -/
def preImageBytes (tx : CTransaction) : Option Bytes :=
  if tx.vin.any fun txin => txin.scriptSig.length < 2 + txin.extractRingSize * EC_COMPRESSED_SIZE then none
  else
    some (leBytes 4 (tx.nVersion % 2 ^ 32).toNat ++ leBytes 4 tx.nTime.toNat ++ tx.vin.flatMap CTxIn.writePreImage ++
      tx.vout.flatMap CTxOut.write ++ leBytes 4 tx.nLockTime.toNat)

/-- The size of a script is a 64-bit number. -/
def Sized (tx : CTransaction) : Prop := ∀ txout ∈ tx.vout, txout.scriptPubKey.length < 2 ^ 64

/-- Two transactions are the same in all that a signature should commit to. -/
structure SameCommitted (tx tx' : CTransaction) : Prop where
  nVersion : tx.nVersion = tx'.nVersion
  nTime : tx.nTime = tx'.nTime
  nLockTime : tx.nLockTime = tx'.nLockTime
  prevouts : tx.vin.map CTxIn.prevout = tx'.vin.map CTxIn.prevout
  keyImages : tx.vin.map CTxIn.extractKeyImage = tx'.vin.map CTxIn.extractKeyImage
  ringMembers : tx.vin.map CTxIn.ringMembers = tx'.vin.map CTxIn.ringMembers
  vout : tx.vout = tx'.vout

end CTransaction

theorem ConnectEnv.getTxnPreImage_eq {G : Type} (env : ConnectEnv G) (tx : CTransaction) :
    env.getTxnPreImage tx = tx.preImageBytes.map env.ring.hash := by
  rw [getTxnPreImage, CTransaction.preImageBytes]
  dsimp only
  split_ifs <;> rfl

/-! ## Inputs and outputs -/

theorem COutPoint.ext_of_toNat {prevout prevout' : COutPoint} (hhash : prevout.hash = prevout'.hash)
    (hn : prevout.n.toNat = prevout'.n.toNat) : prevout = prevout' := by
  cases prevout
  cases prevout'
  obtain rfl : _ = _ := hhash
  obtain rfl := UInt32.toNat_inj.mp hn
  rfl

theorem writeOutPoint_splitsOff :
    SplitsOff (fun _ => True) (fun txin : CTxIn => writeUInt256 txin.prevout.hash ++ leBytes 4 txin.prevout.n.toNat)
      CTxIn.prevout := by
  refine splitsOff_of_length 36 (fun txin _ => ?_) fun txin txin' _ _ h => ?_
  · rw [List.length_append, writeUInt256, length_leBytes, length_leBytes]
  · obtain ⟨hhash, hn⟩ := List.append_inj h (by rw [writeUInt256, writeUInt256, length_leBytes, length_leBytes])
    exact COutPoint.ext_of_toNat (writeUInt256_injective hhash)
      (leBytes_injective txin.prevout.n.toNat_lt txin'.prevout.n.toNat_lt hn)

/-- The prevout says how many bytes of the ring there are. -/
theorem writePreImage_splitsOff :
    SplitsOff CTxIn.HoldsRing CTxIn.writePreImage fun txin => (txin.prevout, txin.hashedRing) := by
  refine SplitsOff.append (fun txin txin' _ _ => writeOutPoint_splitsOff txin txin' trivial trivial)
    fun txin txin' hring hring' hprevout s s' h => ?_
  have hsize : txin.extractRingSize = txin'.extractRingSize := by
    rw [CTxIn.extractRingSize, CTxIn.extractRingSize, hprevout]
  refine List.append_inj h ?_
  rw [CTxIn.HoldsRing] at hring hring'
  rw [hsize] at hring
  rw [CTxIn.hashedRing, CTxIn.hashedRing, hsize, List.length_take, List.length_take, List.length_drop, List.length_drop]
  omega

theorem CTxOut.write_splitsOff :
    SplitsOff (fun txout : CTxOut => txout.scriptPubKey.length < 2 ^ 64) CTxOut.write id := by
  have hvalue : SplitsOff (fun txout : CTxOut => txout.scriptPubKey.length < 2 ^ 64)
      (fun txout => leBytes 8 txout.nValue.toUInt64.toNat) CTxOut.nValue := by
    refine splitsOff_of_length 8 (fun txout _ => length_leBytes 8 _) fun txout txout' _ _ h => ?_
    have hnat := leBytes_injective txout.nValue.toUInt64.toNat_lt txout'.nValue.toUInt64.toNat_lt h
    exact Int64.toBitVec.inj (congrArg UInt64.toBitVec (UInt64.toNat_inj.mp hnat))
  refine SplitsOff.imp (hvalue.append fun txout txout' hsize hsize' _ =>
    writeBytes_splitsOff txout.scriptPubKey txout'.scriptPubKey hsize hsize') fun txout txout' h => ?_
  obtain ⟨hvalue, hscript⟩ := Prod.mk.inj h
  cases txout
  cases txout'
  obtain rfl : _ = _ := hvalue
  obtain rfl : _ = _ := hscript
  rfl

/-! ## Transactions -/

theorem holdsRing_of_preImageBytes {tx : CTransaction} {bytes : Bytes} (h : tx.preImageBytes = some bytes) :
    ∀ txin ∈ tx.vin, txin.HoldsRing := by
  rw [CTransaction.preImageBytes] at h
  split_ifs at h with hany
  intro txin htxin
  by_contra hsmall
  rw [CTxIn.HoldsRing, Nat.not_le] at hsmall
  exact hany (List.any_eq_true.mpr ⟨txin, htxin, decide_eq_true hsmall⟩)

/-- The parts of the bytes whose places are known. -/
theorem preImageBytes_eq {tx tx' : CTransaction} {bytes : Bytes} (h : tx.preImageBytes = some bytes)
    (h' : tx'.preImageBytes = some bytes) :
    tx.nTime = tx'.nTime ∧ tx.nLockTime = tx'.nLockTime ∧
      tx.vin.flatMap CTxIn.writePreImage ++ tx.vout.flatMap CTxOut.write =
        tx'.vin.flatMap CTxIn.writePreImage ++ tx'.vout.flatMap CTxOut.write := by
  rw [CTransaction.preImageBytes] at h h'
  split_ifs at h
  split_ifs at h'
  have heq := (Option.some.inj h).trans (Option.some.inj h').symm
  obtain ⟨hfront, hlock⟩ := List.append_inj' heq (by rw [length_leBytes, length_leBytes])
  rw [List.append_assoc, List.append_assoc, List.append_assoc, List.append_assoc] at hfront
  obtain ⟨-, hfront⟩ := List.append_inj hfront (by rw [length_leBytes, length_leBytes])
  obtain ⟨htime, hmiddle⟩ := List.append_inj hfront (by rw [length_leBytes, length_leBytes])
  exact ⟨UInt32.toNat_inj.mp (leBytes_injective tx.nTime.toNat_lt tx'.nTime.toNat_lt htime),
    UInt32.toNat_inj.mp (leBytes_injective tx.nLockTime.toNat_lt tx'.nLockTime.toNat_lt hlock), hmiddle⟩

/-- A ring of the first layout lies in the bytes that are hashed. -/
theorem partOf_hashedRing {txin : CTxIn} {i : Nat} (hi : i < txin.extractRingSize) :
    partOf (txin.scriptSig.drop 2) EC_COMPRESSED_SIZE i = partOf txin.hashedRing EC_COMPRESSED_SIZE i := by
  have hsize : i * EC_COMPRESSED_SIZE + EC_COMPRESSED_SIZE ≤ txin.extractRingSize * EC_COMPRESSED_SIZE := by
    rw [← Nat.succ_mul]
    exact Nat.mul_le_mul_right _ hi
  rw [partOf, partOf, CTxIn.hashedRing, List.drop_take, List.take_take, min_eq_left (by omega)]

theorem ringMembers_of_readAlike {txin txin' : CTxIn} (hprevout : txin.prevout = txin'.prevout)
    (hring : txin.hashedRing = txin'.hashedRing) (halike : txin.ReadAlike txin') :
    txin.ringMembers = txin'.ringMembers := by
  obtain ⟨hlayout, hfirst⟩ := halike
  have hsize : txin.extractRingSize = txin'.extractRingSize := by
    rw [CTxIn.extractRingSize, CTxIn.extractRingSize, hprevout]
  rw [CTxIn.ringMembers, CTxIn.ringMembers, ← hlayout]
  cases htype : txin.ringLayout with
  | none => rfl
  | some type =>
      cases type with
      | RING_SIG_2 => exact absurd htype hfirst
      | RING_SIG_1 =>
          dsimp only [ringPubkeys]
          rw [← hsize]
          refine List.map_congr_left fun i hi => ?_
          have hi := List.mem_range.mp hi
          rw [partOf_hashedRing hi, partOf_hashedRing (hsize ▸ hi), hring]

/-- Two transactions with the same bytes are the same in all that they should commit to exactly when they have as
many inputs, and the same members where a ring is not read from the bytes that are hashed. -/
theorem sameCommitted_iff {tx tx' : CTransaction} {bytes : Bytes} (hanon : tx.nVersion = ANON_TXN_VERSION)
    (hanon' : tx'.nVersion = ANON_TXN_VERSION) (hsized : tx.Sized) (hsized' : tx'.Sized)
    (h : tx.preImageBytes = some bytes) (h' : tx'.preImageBytes = some bytes) :
    tx.SameCommitted tx' ↔ tx.vin.length = tx'.vin.length ∧
      ∀ p ∈ tx.vin.zip tx'.vin, p.1.ReadAlike p.2 ∨ p.1.ringMembers = p.2.ringMembers := by
  constructor
  · intro hsame
    have hlength : tx.vin.length = tx'.vin.length := by
      have hmap := congrArg List.length hsame.prevouts
      rwa [List.length_map, List.length_map] at hmap
    refine ⟨hlength, fun p hp => .inr ?_⟩
    obtain ⟨i, hi, rfl⟩ := List.mem_iff_getElem.mp hp
    rw [List.getElem_zip]
    have hmember := congrArg (fun l => l[i]?) hsame.ringMembers
    rw [List.length_zip, hlength, min_self] at hi
    simpa [hi, hlength ▸ hi] using hmember
  · rintro ⟨hlength, hrings⟩
    obtain ⟨htime, hlock, hmiddle⟩ := preImageBytes_eq h h'
    obtain ⟨hviews, hvout⟩ := writePreImage_splitsOff.flatMap (holdsRing_of_preImageBytes h)
      (holdsRing_of_preImageBytes h') hlength hmiddle
    have hvout := CTxOut.write_splitsOff.flatMap_eq (fun txout hnil => ?_) hsized hsized' hvout
    · have hprevouts : tx.vin.map CTxIn.prevout = tx'.vin.map CTxIn.prevout := by
        have hmap := congrArg (List.map Prod.fst) hviews
        rwa [List.map_map, List.map_map] at hmap
      refine ⟨hanon.trans hanon'.symm, htime, hlock, hprevouts, ?_, ?_, ?_⟩
      · have hmap := congrArg (List.map fun p : COutPoint => writeUInt256 p.hash ++ [p.n.toUInt8]) hprevouts
        rwa [List.map_map, List.map_map] at hmap
      · refine List.ext_getElem (by rw [List.length_map, List.length_map, hlength]) fun i hi hi' => ?_
        rw [List.length_map] at hi hi'
        rw [List.getElem_map, List.getElem_map]
        have hview := congrArg (fun l => l[i]?) hviews
        simp only [List.getElem?_map, List.getElem?_eq_getElem hi, List.getElem?_eq_getElem hi', Option.map_some,
          Option.some.injEq, Prod.mk.injEq] at hview
        obtain ⟨hprevout, hring⟩ := hview
        have hi'' : i < (tx.vin.zip tx'.vin).length := by
          rw [List.length_zip]
          exact lt_min hi hi'
        have hp := hrings _ (List.getElem_mem hi'')
        rw [List.getElem_zip] at hp
        rcases hp with halike | hmembers
        · exact ringMembers_of_readAlike hprevout hring halike
        · exact hmembers
      · rwa [List.map_id, List.map_id] at hvout
    · have hempty := congrArg List.length hnil
      rw [CTxOut.write, List.length_append, length_leBytes, List.length_nil] at hempty
      omega

/-! ## Bytes that do not commit -/

/-- A ring of two, in the first layout or in the second, with its keys and the rest of the script. -/
def ringInput (type : RingSigType) (key sig : UInt8) : CTxIn where
  prevout := ⟨1, 0x00020002⟩
  scriptSig :=
    [OP_RETURN, OP_ANON_MARKER] ++ match type with
      | .RING_SIG_1 => List.replicate 66 key ++ List.replicate 128 sig
      | .RING_SIG_2 => List.replicate 96 sig ++ List.replicate 66 key
  nSequence := 0xffffffff

/-- A ring of one, whose bytes are also those of an output. -/
def outputLikeInput : CTxIn where
  prevout := ⟨1 + 60 <<< 64, 0x00010002⟩
  scriptSig := [OP_RETURN, OP_ANON_MARKER] ++ List.replicate 97 3
  nSequence := 0xffffffff

def inputLikeOutput : CTxOut where
  nValue := 1
  scriptPubKey := List.replicate 23 0 ++ [2, 0, 1, 0] ++ List.replicate 33 3

def anonTx (vin : List CTxIn) (vout : List CTxOut) : CTransaction where
  nVersion := ANON_TXN_VERSION
  nTime := 0
  vin := vin
  vout := vout
  nLockTime := 0

/-- The ring of the second layout can be changed, and an input can be read as an output. -/
theorem preImageBytes_not_committed :
    (∃ bytes, (anonTx [ringInput .RING_SIG_2 2 0] []).preImageBytes = some bytes ∧
      (anonTx [ringInput .RING_SIG_2 3 0] []).preImageBytes = some bytes ∧
      ¬ (anonTx [ringInput .RING_SIG_2 2 0] []).SameCommitted (anonTx [ringInput .RING_SIG_2 3 0] [])) ∧
    ∃ bytes, (anonTx [ringInput .RING_SIG_1 2 0, outputLikeInput] []).preImageBytes = some bytes ∧
      (anonTx [ringInput .RING_SIG_1 2 0] [inputLikeOutput]).preImageBytes = some bytes ∧
      ¬ (anonTx [ringInput .RING_SIG_1 2 0, outputLikeInput] []).SameCommitted
        (anonTx [ringInput .RING_SIG_1 2 0] [inputLikeOutput]) := by
  constructor
  · obtain ⟨bytes, hbytes⟩ := Option.isSome_iff_exists.mp
      (show (anonTx [ringInput .RING_SIG_2 2 0] []).preImageBytes.isSome by decide +kernel)
    have heq : (anonTx [ringInput .RING_SIG_2 2 0] []).preImageBytes =
        (anonTx [ringInput .RING_SIG_2 3 0] []).preImageBytes := by decide +kernel
    have hmembers : [ringInput .RING_SIG_2 2 0].map CTxIn.ringMembers ≠
        [ringInput .RING_SIG_2 3 0].map CTxIn.ringMembers := by decide +kernel
    exact ⟨bytes, hbytes, heq ▸ hbytes, fun hsame => hmembers hsame.ringMembers⟩
  · obtain ⟨bytes, hbytes⟩ := Option.isSome_iff_exists.mp
      (show (anonTx [ringInput .RING_SIG_1 2 0, outputLikeInput] []).preImageBytes.isSome by decide +kernel)
    have heq : (anonTx [ringInput .RING_SIG_1 2 0, outputLikeInput] []).preImageBytes =
        (anonTx [ringInput .RING_SIG_1 2 0] [inputLikeOutput]).preImageBytes := by decide +kernel
    exact ⟨bytes, hbytes, heq ▸ hbytes, fun hsame => absurd (congrArg List.length hsame.prevouts) (by decide)⟩

/-- Other signatures under the same ring. -/
theorem sameCommitted_iff_ringInput :
    (anonTx [ringInput .RING_SIG_1 2 0] []).SameCommitted (anonTx [ringInput .RING_SIG_1 2 1] []) ↔
      1 = 1 ∧ ∀ p ∈ [(ringInput .RING_SIG_1 2 0, ringInput .RING_SIG_1 2 1)],
        p.1.ReadAlike p.2 ∨ p.1.ringMembers = p.2.ringMembers := by
  obtain ⟨bytes, hbytes⟩ := Option.isSome_iff_exists.mp
    (show (anonTx [ringInput .RING_SIG_1 2 0] []).preImageBytes.isSome by decide +kernel)
  have heq : (anonTx [ringInput .RING_SIG_1 2 0] []).preImageBytes =
      (anonTx [ringInput .RING_SIG_1 2 1] []).preImageBytes := by decide +kernel
  exact sameCommitted_iff rfl rfl (fun _ h => by cases h) (fun _ h => by cases h) hbytes (heq ▸ hbytes)

end ProCurrency

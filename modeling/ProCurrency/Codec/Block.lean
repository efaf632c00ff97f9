import ProCurrency.Bloom.Filter
import ProCurrency.Connect.Block

/-!
# Blocks in bytes

What `IMPLEMENT_SERIALIZE` makes of `COutPoint`, `CTxIn`, `CTxOut` (core.h), `CTransaction`, `CBlockHeader` and
`CBlock` (main.h): the readers beside the writers, and the sizes.
-/

namespace ProCurrency

open ByteCodec

def SER_DISK : UInt32 := (1 : UInt32) <<< 1
def SER_GETHASH : UInt32 := (1 : UInt32) <<< 2
def SER_BLOCKHEADERONLY : UInt32 := (1 : UInt32) <<< 17

def readUInt32 : Reader UInt32 := fun s => (readLe 4 s).map fun r => (UInt32.ofNat r.1, r.2)

def readInt64 : Reader Int64 := fun s => (readLe 8 s).map fun r => ((UInt64.ofNat r.1).toInt64, r.2)

/-! ## Readers -/

def COutPoint.read : Reader COutPoint := fun s => do
  let (hash, s) ← readUInt256 s
  let (n, s) ← readUInt32 s
  some ({ hash, n }, s)

namespace CTxIn

def write (txin : CTxIn) : Bytes :=
  txin.prevout.write ++ writeVector writeUChar txin.scriptSig ++ leBytes 4 txin.nSequence.toNat

def read : Reader CTxIn := fun s => do
  let (prevout, s) ← COutPoint.read s
  let (scriptSig, s) ← readVector readUChar s
  let (nSequence, s) ← readUInt32 s
  some ({ prevout, scriptSig, nSequence }, s)

end CTxIn

def CTxOut.read : Reader CTxOut := fun s => do
  let (nValue, s) ← readInt64 s
  let (scriptPubKey, s) ← readVector readUChar s
  some ({ nValue, scriptPubKey }, s)

def CTransaction.read : Reader CTransaction := fun s => do
  let (nVersion, s) ← readLeInt 4 s
  let (nTime, s) ← readUInt32 s
  let (vin, s) ← readVector CTxIn.read s
  let (vout, s) ← readVector CTxOut.read s
  let (nLockTime, s) ← readUInt32 s
  some ({ nVersion, nTime, vin, vout, nLockTime }, s)

namespace CBlock

/-- The bytes of the `CBlockHeader`. -/
def writeHeader (block : CBlock) : Bytes :=
  leInt 4 block.nVersion ++ writeUInt256 block.hashPrevBlock ++ writeUInt256 block.hashMerkleRoot ++
    leBytes 4 block.nTime.toNat ++ leBytes 4 block.nBits.toNat ++ leBytes 4 block.nNonce.toNat

/-- A header, in a block that has nothing else. -/
def readHeader : Reader CBlock := fun s => do
  let (nVersion, s) ← readLeInt 4 s
  let (hashPrevBlock, s) ← readUInt256 s
  let (hashMerkleRoot, s) ← readUInt256 s
  let (nTime, s) ← readUInt32 s
  let (nBits, s) ← readUInt32 s
  let (nNonce, s) ← readUInt32 s
  some ({ nVersion, hashPrevBlock, hashMerkleRoot, nTime, nBits, nNonce, vtx := [], vchBlockSig := [] }, s)

def headerOnly (nType : UInt32) : Bool := nType &&& (SER_GETHASH ||| SER_BLOCKHEADERONLY) ≠ 0

def write (nType : UInt32) (block : CBlock) : Bytes :=
  if headerOnly nType then block.writeHeader
  else
    block.writeHeader ++ writeVector CTransaction.write block.vtx ++ writeVector writeUChar block.vchBlockSig

def read (nType : UInt32) : Reader CBlock := fun s => do
  let (header, s) ← readHeader s
  if headerOnly nType then some (header, s)
  else
    let (vtx, s) ← readVector CTransaction.read s
    let (vchBlockSig, s) ← readVector readUChar s
    some ({ header with vtx, vchBlockSig }, s)

end CBlock

/-! ## Exact readers -/

theorem exact_readVector {α : Type} {Ok : α → Prop} {write : α → List UInt8} {read : Reader α}
    (h : Exact Ok write read) :
    Exact (fun v => v.length ≤ MAX_SIZE ∧ ∀ a ∈ v, Ok a) (writeVector write) (readVector read) := by
  intro s v rest
  constructor
  · intro heq
    rw [readVector] at heq
    cases hsize : readCompactSize s with
    | none => rw [hsize] at heq; cases heq
    | some r =>
        obtain ⟨nSize, s'⟩ := r
        rw [hsize] at heq
        obtain ⟨hmax, hs⟩ := readCompactSize_eq_some hsize
        obtain ⟨⟨hlength, hv⟩, hs'⟩ := (exact_readMany h nSize s' v rest).1 heq
        dsimp only at hs'
        rw [writeVector, List.append_assoc, ← hs', hlength]
        exact ⟨⟨hlength ▸ hmax, hv⟩, hs⟩
  · rintro ⟨⟨hmax, hv⟩, rfl⟩
    exact readVector_append hmax (fun a ha => h.read_append (hv a ha)) rest

theorem exact_readUChar : Exact (fun _ => True) writeUChar readUChar := by
  intro s b rest
  constructor
  · intro h
    cases s with
    | nil => cases h
    | cons b s =>
        cases h
        exact ⟨trivial, rfl⟩
  · rintro ⟨-, rfl⟩
    rfl

theorem exact_readUInt32 : Exact (fun _ => True) (fun n : UInt32 => leBytes 4 n.toNat) readUInt32 := by
  apply (exact_readLe 4).map
  · intro k hk
    exact UInt32.toNat_ofNat_of_lt' hk
  · intro n
    exact ⟨n.toNat_lt, UInt32.ofNat_toNat⟩

theorem exact_readInt64 : Exact (fun _ => True) (fun n : Int64 => leBytes 8 n.toUInt64.toNat) readInt64 := by
  apply @Exact.map _ _ _ _ _ (exact_readLe 8) (fun k => (UInt64.ofNat k).toInt64) fun n => n.toUInt64.toNat
  · intro k hk
    rw [UInt64.toUInt64_toInt64]
    exact UInt64.toNat_ofNat_of_lt' hk
  · intro n
    refine ⟨n.toUInt64.toNat_lt, ?_⟩
    rw [UInt64.ofNat_toNat, Int64.toInt64_toUInt64]

theorem exact_readUInt256 : Exact (fun _ => True) writeUInt256 readUInt256 := by
  have hread : readUInt256 = fun s => (readLe 32 s).map fun r => (BitVec.ofNat 256 r.1, r.2) := by
    funext s
    rw [readUInt256]
    cases readLe 32 s <;> rfl
  rw [hread]
  apply @Exact.map _ _ _ _ _ (exact_readLe 32) (BitVec.ofNat 256) fun n => n.toNat
  · intro k hk
    rw [BitVec.toNat_ofNat]
    exact Nat.mod_eq_of_lt hk
  · intro n
    exact ⟨n.isLt, BitVec.ofNat_toNat 256 n⟩

theorem exact_readOutPoint : Exact (fun _ => True) COutPoint.write COutPoint.read := by
  intro s prevout rest
  simp only [COutPoint.read, Option.bind_eq_bind, Option.bind_eq_some_iff, Prod.exists, exact_readUInt256 _ _ _,
    exact_readUInt32 _ _ _, Option.some.injEq, Prod.mk.injEq, true_and]
  constructor
  · rintro ⟨hash, _, rfl, n, _, rfl, rfl, rfl⟩
    exact (List.append_assoc _ _ _).symm
  · rintro rfl
    exact ⟨prevout.hash, _, List.append_assoc _ _ _, prevout.n, rest, rfl, rfl, rfl⟩

/-- An `int` of the source. -/
def IsInt32 (n : Int) : Prop := -2 ^ 31 ≤ n ∧ n < 2 ^ 31

theorem exact_readInt32 : Exact IsInt32 (leInt 4) (readLeInt 4) := by
  apply (exact_readLeInt 4).congr
  · intro n
    rw [IsInt32]
    omega
  · intro n
    rfl

theorem exact_readBytes : Exact (fun v => v.length ≤ MAX_SIZE) (writeVector writeUChar) (readVector readUChar) := by
  apply (exact_readVector exact_readUChar).congr
  · intro v
    exact and_iff_left fun _ _ => trivial
  · intro v
    rfl

theorem exact_readTxIn : Exact (fun txin => txin.scriptSig.length ≤ MAX_SIZE) CTxIn.write CTxIn.read := by
  intro s txin rest
  simp only [CTxIn.read, Option.bind_eq_bind, Option.bind_eq_some_iff, Prod.exists, exact_readOutPoint _ _ _,
    exact_readBytes _ _ _, exact_readUInt32 _ _ _, Option.some.injEq, Prod.mk.injEq, true_and]
  constructor
  · rintro ⟨prevout, _, rfl, scriptSig, _, ⟨hscript, rfl⟩, nSequence, _, rfl, rfl, rfl⟩
    simp only [CTxIn.write, List.append_assoc]
    exact ⟨hscript, trivial⟩
  · rintro ⟨hscript, rfl⟩
    simp only [CTxIn.write, List.append_assoc]
    exact ⟨txin.prevout, _, rfl, txin.scriptSig, _, ⟨hscript, rfl⟩, txin.nSequence, rest, rfl, rfl, rfl⟩

theorem exact_readTxOut : Exact (fun txout => txout.scriptPubKey.length ≤ MAX_SIZE) CTxOut.write CTxOut.read := by
  intro s txout rest
  simp only [CTxOut.read, Option.bind_eq_bind, Option.bind_eq_some_iff, Prod.exists, exact_readInt64 _ _ _,
    exact_readBytes _ _ _, Option.some.injEq, Prod.mk.injEq, true_and]
  constructor
  · rintro ⟨nValue, _, rfl, scriptPubKey, _, ⟨hscript, rfl⟩, rfl, rfl⟩
    simp only [CTxOut.write, List.append_assoc]
    exact ⟨hscript, trivial⟩
  · rintro ⟨hscript, rfl⟩
    simp only [CTxOut.write, List.append_assoc]
    exact ⟨txout.nValue, _, rfl, txout.scriptPubKey, rest, ⟨hscript, rfl⟩, rfl, rfl⟩

/-- The writer of the hashes is this one. -/
theorem CTransaction.write_eq (tx : CTransaction) :
    tx.write = leInt 4 tx.nVersion ++ leBytes 4 tx.nTime.toNat ++ writeVector CTxIn.write tx.vin ++
      writeVector CTxOut.write tx.vout ++ leBytes 4 tx.nLockTime.toNat := rfl

/-! ## What can be read -/

structure CTransaction.WellFormed (tx : CTransaction) : Prop where
  nVersion : IsInt32 tx.nVersion
  vin : tx.vin.length ≤ MAX_SIZE
  scriptSig : ∀ txin ∈ tx.vin, txin.scriptSig.length ≤ MAX_SIZE
  vout : tx.vout.length ≤ MAX_SIZE
  scriptPubKey : ∀ txout ∈ tx.vout, txout.scriptPubKey.length ≤ MAX_SIZE

structure CBlock.WellFormed (block : CBlock) : Prop where
  nVersion : IsInt32 block.nVersion
  vtx : block.vtx.length ≤ MAX_SIZE
  txs : ∀ tx ∈ block.vtx, tx.WellFormed
  vchBlockSig : block.vchBlockSig.length ≤ MAX_SIZE

theorem exact_readTransaction : Exact CTransaction.WellFormed CTransaction.write CTransaction.read := by
  intro s tx rest
  simp only [CTransaction.read, Option.bind_eq_bind, Option.bind_eq_some_iff, Prod.exists, exact_readInt32 _ _ _,
    exact_readUInt32 _ _ _, exact_readVector exact_readTxIn _ _ _, exact_readVector exact_readTxOut _ _ _,
    Option.some.injEq, Prod.mk.injEq, true_and]
  constructor
  · rintro ⟨nVersion, _, ⟨hversion, rfl⟩, nTime, _, rfl, vin, _, ⟨⟨hvin, hsig⟩, rfl⟩, vout, _, ⟨⟨hvout, hkey⟩, rfl⟩,
      nLockTime, _, rfl, rfl, rfl⟩
    simp only [CTransaction.write_eq, List.append_assoc]
    exact ⟨⟨hversion, hvin, hsig, hvout, hkey⟩, trivial⟩
  · rintro ⟨htx, rfl⟩
    simp only [CTransaction.write_eq, List.append_assoc]
    exact ⟨tx.nVersion, _, ⟨htx.nVersion, rfl⟩, tx.nTime, _, rfl, tx.vin, _, ⟨⟨htx.vin, htx.scriptSig⟩, rfl⟩,
      tx.vout, _, ⟨⟨htx.vout, htx.scriptPubKey⟩, rfl⟩, tx.nLockTime, rest, rfl, rfl, rfl⟩

/-- The header of a block, as a block. -/
def CBlock.header (block : CBlock) : CBlock := { block with vtx := [], vchBlockSig := [] }

theorem exact_readHeader :
    Exact (fun block => IsInt32 block.nVersion ∧ block.header = block) CBlock.writeHeader CBlock.readHeader := by
  intro s block rest
  simp only [CBlock.readHeader, Option.bind_eq_bind, Option.bind_eq_some_iff, Prod.exists, exact_readInt32 _ _ _,
    exact_readUInt32 _ _ _, exact_readUInt256 _ _ _, Option.some.injEq, Prod.mk.injEq, true_and]
  constructor
  · rintro ⟨nVersion, _, ⟨hversion, rfl⟩, hashPrevBlock, _, rfl, hashMerkleRoot, _, rfl, nTime, _, rfl, nBits, _, rfl,
      nNonce, _, rfl, rfl, rfl⟩
    simp only [CBlock.writeHeader, List.append_assoc]
    exact ⟨⟨hversion, rfl⟩, trivial⟩
  · rintro ⟨⟨hversion, hheader⟩, rfl⟩
    simp only [CBlock.writeHeader, List.append_assoc]
    exact ⟨block.nVersion, _, ⟨hversion, rfl⟩, block.hashPrevBlock, _, rfl, block.hashMerkleRoot, _, rfl, block.nTime,
      _, rfl, block.nBits, _, rfl, block.nNonce, rest, rfl, hheader, rfl⟩

namespace CBlock

/-- A block that is read whole, or only its header. -/
def ReadAs (nType : UInt32) (block : CBlock) : Prop :=
  if headerOnly nType then IsInt32 block.nVersion ∧ block.header = block else block.WellFormed

theorem wellFormed_split {block : CBlock} : block.WellFormed ↔
    IsInt32 block.nVersion ∧ (block.vtx.length ≤ MAX_SIZE ∧ ∀ tx ∈ block.vtx, tx.WellFormed) ∧
      block.vchBlockSig.length ≤ MAX_SIZE := by
  constructor
  · rintro ⟨hversion, hlength, htxs, hsig⟩
    exact ⟨hversion, ⟨hlength, htxs⟩, hsig⟩
  · rintro ⟨hversion, ⟨hlength, htxs⟩, hsig⟩
    exact ⟨hversion, hlength, htxs, hsig⟩

/-- A block is accepted from its own bytes only, and every such block from them. -/
theorem exact_read (nType : UInt32) : Exact (ReadAs nType) (CBlock.write nType) (CBlock.read nType) := by
  intro s block rest
  rw [ReadAs, CBlock.write]
  simp only [CBlock.read, Option.bind_eq_bind, Option.bind_eq_some_iff, Prod.exists, exact_readHeader _ _ _]
  by_cases hheader : headerOnly nType
  · simp only [hheader, if_true, Option.some.injEq, Prod.mk.injEq]
    constructor
    · rintro ⟨header, _, ⟨hok, rfl⟩, rfl, rfl⟩
      exact ⟨hok, rfl⟩
    · rintro ⟨hok, rfl⟩
      exact ⟨block, rest, ⟨hok, rfl⟩, rfl, rfl⟩
  · simp only [hheader, Bool.false_eq_true, if_false, Option.bind_eq_some_iff, Prod.exists,
      exact_readVector exact_readTransaction _ _ _, exact_readBytes _ _ _, Option.some.injEq, Prod.mk.injEq,
      wellFormed_split]
    constructor
    · rintro ⟨header, _, ⟨⟨hversion, -⟩, rfl⟩, vtx, _, ⟨hvtx, rfl⟩, vchBlockSig, _, ⟨hsig, rfl⟩, rfl, rfl⟩
      simp only [List.append_assoc]
      exact ⟨⟨hversion, hvtx, hsig⟩, rfl⟩
    · rintro ⟨⟨hversion, hvtx, hsig⟩, rfl⟩
      simp only [List.append_assoc]
      exact ⟨block.header, _, ⟨⟨hversion, rfl⟩, rfl⟩, block.vtx, _, ⟨hvtx, rfl⟩, block.vchBlockSig, rest, ⟨hsig, rfl⟩,
        rfl, rfl⟩

end CBlock

/-! ## Sizes -/

theorem length_writeUInt256 (n : UInt256) : (writeUInt256 n).length = 32 := length_leBytes 32 n.toNat

theorem length_writeBytes (v : Bytes) : (writeVector writeUChar v).length = CTransaction.sizeOfScript v := by
  rw [writeVector, writeUChar_flatMap, List.length_append]
  rfl

theorem length_writeVector {α : Type} (write : α → List UInt8) (v : List α) : (writeVector write v).length =
    CTransaction.getSizeOfCompactSize v.length + (v.map fun a => (write a).length).sum := by
  rw [writeVector, List.length_append, List.length_flatMap]
  rfl

theorem CTxIn.length_write (txin : CTxIn) : txin.write.length = 36 + CTransaction.sizeOfScript txin.scriptSig + 4 := by
  rw [CTxIn.write, COutPoint.write, List.length_append, List.length_append, List.length_append, length_writeUInt256,
    length_leBytes, length_leBytes, length_writeBytes]

theorem CTxOut.length_write (txout : CTxOut) :
    txout.write.length = 8 + CTransaction.sizeOfScript txout.scriptPubKey := by
  rw [CTxOut.write, List.length_append, length_leBytes, length_writeBytes]

/-- `GetSerializeSize` counts what is written. -/
theorem CTransaction.length_write (tx : CTransaction) : tx.write.length = tx.getSerializeSize := by
  simp only [write_eq, List.length_append, length_leBytes, length_writeVector, CTxIn.length_write,
    CTxOut.length_write, getSerializeSize, leInt]

theorem CBlock.length_writeHeader (block : CBlock) : block.writeHeader.length = 80 := by
  simp only [writeHeader, List.length_append, length_leBytes, length_writeUInt256, leInt]

theorem CBlock.length_write {nType : UInt32} (block : CBlock) (h : headerOnly nType = false) :
    (block.write nType).length = block.getSerializeSize := by
  have hsig : (writeVector writeUChar block.vchBlockSig).length =
      CTransaction.getSizeOfCompactSize block.vchBlockSig.length + block.vchBlockSig.length :=
    length_writeBytes block.vchBlockSig
  have htxs := length_writeVector CTransaction.write block.vtx
  simp only [CTransaction.length_write] at htxs
  rw [write, h, if_neg Bool.false_ne_true, List.length_append, List.length_append, length_writeHeader, htxs, hsig,
    getSerializeSize]

/-! ## Blocks that are small enough -/

/-- The numbers that are an `int` in the source. -/
structure CBlock.IntFields (block : CBlock) : Prop where
  nVersion : IsInt32 block.nVersion
  txs : ∀ tx ∈ block.vtx, IsInt32 tx.nVersion

theorem length_le_writeVector {α : Type} {write : α → List UInt8} {v : List α}
    (hpos : ∀ a ∈ v, 1 ≤ (write a).length) : v.length ≤ (writeVector write v).length := by
  have hsum := List.length_le_sum_of_one_le (v.map fun a => (write a).length) (by
    intro k hk
    obtain ⟨a, ha, rfl⟩ := List.mem_map.1 hk
    exact hpos a ha)
  rw [List.length_map] at hsum
  rw [length_writeVector]
  omega

theorem length_write_le {α : Type} (write : α → List UInt8) {v : List α} {a : α} (h : a ∈ v) :
    (write a).length ≤ (writeVector write v).length := by
  have hle := List.le_sum_of_mem (List.mem_map_of_mem (f := fun a => (write a).length) h)
  rw [length_writeVector]
  omega

theorem length_le_sizeOfScript (script : CScript) : script.length ≤ CTransaction.sizeOfScript script :=
  Nat.le_add_left _ _

/-- No vector of a transaction is longer than the transaction. -/
theorem CTransaction.wellFormed_of_size {tx : CTransaction} (hversion : IsInt32 tx.nVersion)
    (hsize : tx.getSerializeSize ≤ MAX_SIZE) : tx.WellFormed := by
  rw [← length_write, write_eq] at hsize
  simp only [List.length_append] at hsize
  have hvin : tx.vin.length ≤ (writeVector CTxIn.write tx.vin).length :=
    length_le_writeVector fun txin _ => by rw [CTxIn.length_write]; omega
  have hvout : tx.vout.length ≤ (writeVector CTxOut.write tx.vout).length :=
    length_le_writeVector fun txout _ => by rw [CTxOut.length_write]; omega
  refine ⟨hversion, by omega, fun txin htxin => ?_, by omega, fun txout htxout => ?_⟩
  · have hle := length_write_le CTxIn.write htxin
    have hscript := length_le_sizeOfScript txin.scriptSig
    rw [CTxIn.length_write] at hle
    omega
  · have hle := length_write_le CTxOut.write htxout
    have hscript := length_le_sizeOfScript txout.scriptPubKey
    rw [CTxOut.length_write] at hle
    omega

theorem CBlock.wellFormed_of_size {block : CBlock} (hint : block.IntFields)
    (hsize : block.getSerializeSize ≤ MAX_SIZE) : block.WellFormed := by
  have htxs := length_writeVector CTransaction.write block.vtx
  simp only [CTransaction.length_write] at htxs
  rw [getSerializeSize, ← htxs] at hsize
  have hvtx : block.vtx.length ≤ (writeVector CTransaction.write block.vtx).length :=
    length_le_writeVector fun tx _ => by rw [CTransaction.length_write, CTransaction.getSerializeSize]; omega
  refine ⟨hint.nVersion, by omega, fun tx htx => ?_, by omega⟩
  have hle := length_write_le CTransaction.write htx
  rw [CTransaction.length_write] at hle
  exact CTransaction.wellFormed_of_size (hint.txs tx htx) (by omega)

/-- The header of a block that was written whole. -/
theorem CBlock.read_header {nType : UInt32} (hheader : headerOnly nType = true) {block : CBlock}
    (hversion : IsInt32 block.nVersion) (rest : Bytes) : CBlock.read nType (block.write SER_DISK ++ rest) =
      some (block.header, (block.write SER_DISK).drop 80 ++ rest) := by
  have hdisk : headerOnly SER_DISK = false := rfl
  have hsplit : block.write SER_DISK = block.writeHeader ++ (block.write SER_DISK).drop 80 := by
    rw [CBlock.write, hdisk, if_neg Bool.false_ne_true, List.append_assoc, ← length_writeHeader block, List.drop_left]
  have hwrite : block.header.write nType = block.writeHeader := if_pos hheader
  refine (exact_read nType _ _ _).2 ⟨?_, ?_⟩
  · rw [ReadAs, if_pos hheader]
    exact ⟨hversion, rfl⟩
  · rw [hwrite, ← List.append_assoc, ← hsplit]

/-- A block is read from its own bytes and from no others, whole or, where `nType` asks for no more, its header. A block
of at most `MAX_SIZE` bytes can be read back from as many bytes as `GetSerializeSize` says. -/
theorem CBlock.serialization_exact (nType : UInt32) :
    (∀ s block rest, CBlock.read nType s = some (block, rest) ↔
      block.ReadAs nType ∧ s = block.write nType ++ rest) ∧
    ∀ block : CBlock, block.IntFields → block.getSerializeSize ≤ MAX_SIZE → ∀ rest,
      if headerOnly nType then
        CBlock.read nType (block.write SER_DISK ++ rest) =
          some (block.header, (block.write SER_DISK).drop 80 ++ rest)
      else CBlock.read nType (block.write SER_DISK ++ rest) = some (block, rest) ∧
        (block.write SER_DISK).length = block.getSerializeSize := by
  refine ⟨exact_read nType, fun block hint hsize rest => ?_⟩
  by_cases hheader : headerOnly nType = true
  · rw [if_pos hheader]
    exact read_header hheader hint.nVersion rest
  · rw [if_neg hheader]
    refine ⟨(exact_read nType _ _ _).2 ⟨?_, ?_⟩, length_write block rfl⟩
    · rw [ReadAs, if_neg hheader]
      exact wellFormed_of_size hint hsize
    · have hdisk : headerOnly SER_DISK = false := rfl
      rw [CBlock.write, CBlock.write, hdisk, if_neg Bool.false_ne_true, if_neg hheader]

end ProCurrency

import ProCurrency.Codec.Block
import ProCurrency.Connect.Lemmas.Index
import ProCurrency.Net.Transport

/-!
# Block files

`OpenBlockFile` and `AppendBlockFile` (main.cpp), for the files of whole blocks, `CBlock::WriteToDisk`,
`CBlock::ReadFromDisk` and `CTransaction::ReadFromDisk` (main.h).
-/

namespace ProCurrency

open ByteCodec

/-- What is known of the network, and of the hash. -/
structure BlockFileEnv where
  params : CChainParams
  messageStart : Bytes
  length_messageStart : messageStart.length = CMessageHeader.MESSAGE_START_SIZE
  blockHash : CBlock → UInt256

/-- The files by their numbers. -/
structure BlockFiles where
  files : UInt32 → Option Bytes
  nCurrentBlockFile : UInt32

/-- The size from which a file gets no more blocks. -/
def BLOCK_FILE_FULL : Nat := 0x7F000000 - MAX_SIZE

namespace BlockFiles

/-- `OpenBlockFile`, to read: what the file has from the position on. -/
def openRead (d : BlockFiles) (nFile nBlockPos : UInt32) : Option Bytes :=
  if nFile < 1 ∨ nFile = -1 then none
  else
    match d.files nFile with
    | none => none
    | some file => some (if nBlockPos ≠ 0 then file.drop nBlockPos.toNat else file)

/-- `OpenBlockFile`, to append: a file that is not there is made. -/
def openAppend (d : BlockFiles) (nFile : UInt32) : Option (Bytes × BlockFiles) :=
  if nFile < 1 ∨ nFile = -1 then none
  else
    let file := (d.files nFile).getD []
    some (file, { d with files := Function.update d.files nFile (some file) })

/-- The loop of `AppendBlockFile`, over the numbers that are left. -/
def appendFrom : Nat → BlockFiles → Option (UInt32 × Bytes) × BlockFiles
  | 0, d => (none, d)
  | left + 1, d =>
      match d.openAppend d.nCurrentBlockFile with
      | none => (none, d)
      | some (file, d) =>
          if file.length < BLOCK_FILE_FULL then (some (d.nCurrentBlockFile, file), d)
          else appendFrom left { d with nCurrentBlockFile := d.nCurrentBlockFile + 1 }

/-- `AppendBlockFile`: the first file from the current one on that is not full. -/
def appendBlockFile (d : BlockFiles) : Option (UInt32 × Bytes) × BlockFiles :=
  appendFrom (0xffffffff - d.nCurrentBlockFile.toNat) d

/-- What `WriteToDisk` appends. -/
def record (env : BlockFileEnv) (block : CBlock) : Bytes :=
  env.messageStart ++ leBytes 4 block.getSerializeSize ++ block.write SER_DISK

/-- `CBlock::WriteToDisk`: the file and the position of the block. A write that fails leaves some of the first bytes
behind, and the exception is the caller's. -/
def writeToDisk (env : BlockFileEnv) (d : BlockFiles) (fFail : Option Nat) (block : CBlock) :
    Option (UInt32 × UInt32) × BlockFiles :=
  match d.appendBlockFile with
  | (none, d) => (none, d)
  | (some (nFileRet, file), d) =>
      let append (bytes : Bytes) : BlockFiles :=
        { d with files := Function.update d.files nFileRet (some (file ++ bytes)) }
      match fFail with
      | some written => (none, append ((record env block).take written))
      | none =>
          let nBlockPosRet := UInt32.ofNat (file ++ env.messageStart ++ leBytes 4 block.getSerializeSize).length
          (some (nFileRet, nBlockPosRet), append (record env block))

/-- `CBlock::ReadFromDisk`. -/
def readFromDisk (env : BlockFileEnv) (d : BlockFiles) (nFile nBlockPos : UInt32) (fReadTransactions : Bool) :
    Option CBlock :=
  match d.openRead nFile nBlockPos with
  | none => none
  | some filein =>
      let nType := if fReadTransactions then SER_DISK else SER_DISK ||| SER_BLOCKHEADERONLY
      match CBlock.read nType filein with
      | none => none
      | some (block, _) =>
          if fReadTransactions && block.isProofOfWork &&
              !checkProofOfWork env.params (env.blockHash block) block.nBits then none
          else some block

/-- `CTransaction::ReadFromDisk`. -/
def readTx (d : BlockFiles) (pos : CDiskTxPos) : Option CTransaction :=
  match d.openRead pos.nFile 0 with
  | none => none
  | some filein =>
      match CTransaction.read (filein.drop pos.nTxPos.toNat) with
      | none => none
      | some (tx, _) => some tx

end BlockFiles

/-! ## What files hold -/

namespace BlockFiles

variable {env : BlockFileEnv} {d d' d'' : BlockFiles} {nFile nBlockPos : UInt32} {bytes : Bytes} {block : CBlock}

/-- Files only get longer. -/
def Grows (d d' : BlockFiles) : Prop :=
  ∀ nFile file, d.files nFile = some file → ∃ more, d'.files nFile = some (file ++ more)

theorem Grows.refl (d : BlockFiles) : Grows d d := by
  intro nFile file hfile
  exact ⟨[], by rw [List.append_nil, hfile]⟩

theorem Grows.trans (h : Grows d d') (h' : Grows d' d'') : Grows d d'' := by
  intro nFile file hfile
  obtain ⟨more, hmore⟩ := h nFile file hfile
  obtain ⟨more', hmore'⟩ := h' nFile (file ++ more) hmore
  exact ⟨more ++ more', by rw [hmore', List.append_assoc]⟩

/-- A file that is made, or gets more bytes. -/
theorem grows_update {file : Bytes} (h : (d.files nFile).getD [] = file) (more : Bytes) (n : UInt32) :
    Grows d ⟨Function.update d.files nFile (some (file ++ more)), n⟩ := by
  intro k file' hfile'
  rcases Decidable.em (k = nFile) with rfl | hne
  · rw [hfile', Option.getD_some] at h
    exact ⟨more, by rw [h]; exact Function.update_self ..⟩
  · refine ⟨[], ?_⟩
    rw [List.append_nil, ← hfile']
    exact Function.update_of_ne hne ..

/-- Bytes that a file has at a position. -/
def Holds (d : BlockFiles) (nFile nBlockPos : UInt32) (bytes : Bytes) : Prop :=
  ¬ (nFile < 1 ∨ nFile = -1) ∧
    ∃ pre post, d.files nFile = some (pre ++ bytes ++ post) ∧ pre.length = nBlockPos.toNat

theorem Holds.mono (h : Holds d nFile nBlockPos bytes) (hgrows : Grows d d') : Holds d' nFile nBlockPos bytes := by
  obtain ⟨hnumber, pre, post, hfile, hpos⟩ := h
  obtain ⟨more, hmore⟩ := hgrows nFile _ hfile
  exact ⟨hnumber, pre, post ++ more, by rw [hmore, List.append_assoc], hpos⟩

/-- A part of the bytes, further on. -/
theorem Holds.part {front back : Bytes} (h : Holds d nFile nBlockPos (front ++ bytes ++ back)) {pos : UInt32}
    (hpos : pos.toNat = nBlockPos.toNat + front.length) : Holds d nFile pos bytes := by
  obtain ⟨hnumber, pre, post, hfile, hpre⟩ := h
  refine ⟨hnumber, pre ++ front, back ++ post, ?_, ?_⟩
  · rw [hfile]
    simp only [List.append_assoc]
  · rw [List.length_append, hpre, hpos]

theorem Holds.openRead (h : Holds d nFile nBlockPos bytes) : ∃ post, d.openRead nFile nBlockPos = some (bytes ++ post) := by
  obtain ⟨hnumber, pre, post, hfile, hpos⟩ := h
  refine ⟨post, ?_⟩
  rw [BlockFiles.openRead, if_neg hnumber, hfile]
  dsimp only
  split_ifs with hzero
  · rw [List.append_assoc, ← hpos, List.drop_left]
  · rw [not_not] at hzero
    rw [hzero] at hpos
    rw [List.length_eq_zero_iff.1 hpos, List.nil_append]

/-! ## Writing -/

theorem openAppend_spec {file : Bytes} (h : d.openAppend nFile = some (file, d')) :
    ¬ (nFile < 1 ∨ nFile = -1) ∧ Grows d d' ∧ d'.files nFile = some file ∧ (d.files nFile).getD [] = file ∧
      d'.nCurrentBlockFile = d.nCurrentBlockFile ∧ ∀ k, k ≠ nFile → d'.files k = d.files k := by
  rw [openAppend] at h
  split_ifs at h with hnumber
  cases h
  have hgrows := grows_update (@rfl _ ((d.files nFile).getD [])) [] d.nCurrentBlockFile
  rw [List.append_nil] at hgrows
  exact ⟨hnumber, hgrows, Function.update_self .., rfl, rfl, fun k hne => Function.update_of_ne hne ..⟩

/-- The file that is found is as it was, and it is not full. -/
theorem appendFrom_spec {left : Nat} {r : Option (UInt32 × Bytes)} (h : appendFrom left d = (r, d')) :
    Grows d d' ∧ ∀ nFile file, r = some (nFile, file) →
      ¬ (nFile < 1 ∨ nFile = -1) ∧ d'.files nFile = some file ∧ (d.files nFile).getD [] = file ∧
        file.length < BLOCK_FILE_FULL := by
  induction left generalizing d with
  | zero =>
      cases h
      exact ⟨.refl _, fun nFile file hr => by cases hr⟩
  | succ left ih =>
      rw [appendFrom] at h
      cases hopen : d.openAppend d.nCurrentBlockFile with
      | none =>
          rw [hopen] at h
          cases h
          exact ⟨.refl _, fun nFile file hr => by cases hr⟩
      | some opened =>
          obtain ⟨file₁, d₁⟩ := opened
          obtain ⟨hnumber, hgrows, hfile₁, hold₁, hcurrent, hothers⟩ := openAppend_spec hopen
          rw [hopen] at h
          dsimp only at h
          split_ifs at h with hroom
          · cases h
            refine ⟨hgrows, fun nFile file hr => ?_⟩
            cases hr
            rw [hcurrent]
            exact ⟨hnumber, hfile₁, hold₁, hroom⟩
          · obtain ⟨hrest, hspec⟩ := ih h
            refine ⟨hgrows.trans hrest, fun nFile file hr => ?_⟩
            obtain ⟨hnumber', hfile, hold, hroom'⟩ := hspec nFile file hr
            refine ⟨hnumber', hfile, ?_, hroom'⟩
            change (d₁.files nFile).getD [] = file at hold
            rcases Decidable.em (nFile = d.nCurrentBlockFile) with rfl | hne
            · rwa [hold₁, ← Option.getD_some (a := file₁) (b := []), ← hfile₁]
            · rwa [← hothers nFile hne]

theorem record_eq (env : BlockFileEnv) (block : CBlock) :
    record env block = env.messageStart ++ leBytes 4 block.getSerializeSize ++ block.write SER_DISK := rfl

/-- What a call that gives a position has left there. -/
theorem writeToDisk_spec {fFail : Option Nat} {r : Option (UInt32 × UInt32)}
    (h : d.writeToDisk env fFail block = (r, d')) :
    Grows d d' ∧ ∀ nFile nBlockPos, r = some (nFile, nBlockPos) →
      Holds d' nFile nBlockPos (block.write SER_DISK) ∧
        nBlockPos.toNat = ((d.files nFile).getD []).length + 8 ∧ nBlockPos.toNat < BLOCK_FILE_FULL + 8 := by
  rw [writeToDisk] at h
  rcases happend : d.appendBlockFile with ⟨_ | ⟨nFileRet, file⟩, d₁⟩
  · rw [happend] at h
    cases h
    exact ⟨(appendFrom_spec happend).1, fun nFile nBlockPos hr => by cases hr⟩
  · obtain ⟨hgrows, hspec⟩ := appendFrom_spec happend
    obtain ⟨hnumber, hfile, hold, hroom⟩ := hspec nFileRet file rfl
    have hfile' : (d₁.files nFileRet).getD [] = file := by rw [hfile, Option.getD_some]
    rw [happend] at h
    cases fFail with
    | some written =>
        cases h
        exact ⟨hgrows.trans (grows_update hfile' _ _), fun nFile nBlockPos hr => by cases hr⟩
    | none =>
        cases h
        refine ⟨hgrows.trans (grows_update hfile' _ _), fun nFile nBlockPos hr => ?_⟩
        cases hr
        have hlength : (file ++ env.messageStart ++ leBytes 4 block.getSerializeSize).length = file.length + 8 := by
          rw [List.length_append, List.length_append, env.length_messageStart, length_leBytes,
            CMessageHeader.MESSAGE_START_SIZE]
        have hpos : (UInt32.ofNat (file.length + 8)).toNat = file.length + 8 := by
          have hfull : BLOCK_FILE_FULL = 0x7D000000 := rfl
          exact UInt32.toNat_ofNat_of_lt' (show file.length + 8 < 2 ^ 32 by omega)
        rw [hlength]
        refine ⟨⟨hnumber, file ++ env.messageStart ++ leBytes 4 block.getSerializeSize, [], ?_, ?_⟩, ?_, ?_⟩
        · rw [List.append_nil]
          change Function.update d₁.files nFileRet _ nFileRet = _
          rw [Function.update_self, record_eq]
          simp only [List.append_assoc]
        · rw [hlength, hpos]
        · rw [hpos, hold]
        · rw [hpos]
          exact Nat.add_lt_add_right hroom 8

/-! ## Reading -/

/-- A block that is read with its transactions has the work that it claims. -/
def passes (env : BlockFileEnv) (block : CBlock) : Bool :=
  !block.isProofOfWork || checkProofOfWork env.params (env.blockHash block) block.nBits

theorem Holds.readFromDisk (h : Holds d nFile nBlockPos (block.write SER_DISK)) (hok : block.WellFormed) :
    d.readFromDisk env nFile nBlockPos true = (if passes env block then some block else none) ∧
      d.readFromDisk env nFile nBlockPos false = some block.header := by
  obtain ⟨post, hopen⟩ := h.openRead
  have hread := (CBlock.exact_read SER_DISK).read_append (a := block) hok post
  have hheader := @CBlock.read_header (SER_DISK ||| SER_BLOCKHEADERONLY) rfl block hok.nVersion post
  rw [BlockFiles.readFromDisk, BlockFiles.readFromDisk, hopen, passes]
  dsimp only
  rw [if_pos rfl, hread, if_neg Bool.false_ne_true, hheader]
  refine ⟨?_, rfl⟩
  dsimp only
  cases block.isProofOfWork with
  | false => rfl
  | true =>
      cases checkProofOfWork env.params (env.blockHash block) block.nBits with
      | false => rfl
      | true => rfl

theorem Holds.readTx {tx : CTransaction} {pos : CDiskTxPos} (h : Holds d pos.nFile pos.nTxPos tx.write)
    (hok : tx.WellFormed) : d.readTx pos = some tx := by
  obtain ⟨hnumber, pre, post, hfile, hpos⟩ := h
  have hread := exact_readTransaction.read_append hok post
  rw [BlockFiles.readTx, BlockFiles.openRead, if_neg hnumber, hfile]
  dsimp only
  rw [if_neg (not_not_intro rfl), ← hpos, List.append_assoc, List.drop_left, hread]

/-- The bytes of a transaction among those of its block. -/
theorem write_split {pre post : List CTransaction} {tx : CTransaction} (hvtx : block.vtx = pre ++ tx :: post) :
    ∃ front back, block.write SER_DISK = front ++ tx.write ++ back ∧
      front.length = 80 + CTransaction.getSizeOfCompactSize block.vtx.length +
        (pre.map CTransaction.getSerializeSize).sum := by
  refine ⟨block.writeHeader ++ (writeCompactSize block.vtx.length ++ pre.flatMap CTransaction.write),
    post.flatMap CTransaction.write ++ writeVector writeUChar block.vchBlockSig, ?_, ?_⟩
  · have hwrite : block.write SER_DISK = block.writeHeader ++ writeVector CTransaction.write block.vtx ++
        writeVector writeUChar block.vchBlockSig := rfl
    have htxs : block.vtx.flatMap CTransaction.write =
        pre.flatMap CTransaction.write ++ (tx.write ++ post.flatMap CTransaction.write) := by
      rw [hvtx, List.flatMap_append, List.flatMap_cons]
    rw [hwrite, writeVector, htxs]
    simp only [List.append_assoc]
  · have hsizes : pre.map (fun tx => tx.write.length) = pre.map CTransaction.getSerializeSize :=
      List.map_congr_left fun tx _ => CTransaction.length_write tx
    rw [List.length_append, List.length_append, CBlock.length_writeHeader, List.length_flatMap, hsizes, Nat.add_assoc]
    rfl

end BlockFiles

/-! ## Blocks with their positions -/

/-- A block with the position that `WriteToDisk` gave. -/
structure StoredBlock where
  nFile : UInt32
  nBlockPos : UInt32
  block : CBlock

/-- What `ConnectBlock` counts up for the transaction behind `pre`. -/
def StoredBlock.txPos (b : StoredBlock) (pre : List CTransaction) : CDiskTxPos where
  nFile := b.nFile
  nBlockPos := b.nBlockPos
  nTxPos := b.nBlockPos + UInt32.ofNat (80 + CTransaction.getSizeOfCompactSize b.block.vtx.length +
    (pre.map CTransaction.getSerializeSize).sum)

variable {d d' : BlockFiles} {b : StoredBlock}

/-- The bytes of the block are at its position, which leaves room for all of them below 2 GiB. -/
structure StoredBlock.In (b : StoredBlock) (d : BlockFiles) : Prop where
  holds : d.Holds b.nFile b.nBlockPos (b.block.write SER_DISK)
  intFields : b.block.IntFields
  size : b.block.getSerializeSize ≤ MAX_BLOCK_SIZE
  room : b.nBlockPos.toNat < BLOCK_FILE_FULL + 8

/-- Each position of the block and of its transactions leads to what is there. -/
structure StoredBlock.ReadsBack (env : BlockFileEnv) (d : BlockFiles) (b : StoredBlock) : Prop where
  block : d.readFromDisk env b.nFile b.nBlockPos true = if BlockFiles.passes env b.block then some b.block else none
  header : d.readFromDisk env b.nFile b.nBlockPos false = some b.block.header
  txs : ∀ pre tx post, b.block.vtx = pre ++ tx :: post → d.readTx (b.txPos pre) = some tx

theorem StoredBlock.In.mono (h : b.In d) (hgrows : d.Grows d') : b.In d' :=
  ⟨h.holds.mono hgrows, h.intFields, h.size, h.room⟩

theorem StoredBlock.In.wellFormed (h : b.In d) : b.block.WellFormed :=
  CBlock.wellFormed_of_size h.intFields (Nat.le_trans h.size (by decide))

/-- No position overflows. -/
theorem StoredBlock.In.toNat_txPos (h : b.In d) {pre : List CTransaction} {tx : CTransaction}
    {front back : Bytes} (hwrite : b.block.write SER_DISK = front ++ tx.write ++ back)
    (hfront : front.length = 80 + CTransaction.getSizeOfCompactSize b.block.vtx.length +
      (pre.map CTransaction.getSerializeSize).sum) :
    (b.txPos pre).nTxPos.toNat = b.nBlockPos.toNat + front.length := by
  have hlength := CBlock.length_write b.block (show CBlock.headerOnly SER_DISK = false from rfl)
  have hsize := h.size
  have hroom := h.room
  have hfull : BLOCK_FILE_FULL = 0x7D000000 := rfl
  have hmax : MAX_BLOCK_SIZE = 20000000 := rfl
  rw [hwrite, List.length_append, List.length_append] at hlength
  have hoffset : (UInt32.ofNat front.length).toNat = front.length :=
    UInt32.toNat_ofNat_of_lt' (show front.length < 2 ^ 32 by omega)
  rw [StoredBlock.txPos, ← hfront, UInt32.toNat_add, hoffset]
  omega

/-- A transaction of the block is where its position says. -/
theorem StoredBlock.In.tx (h : b.In d) {pre post : List CTransaction} {tx : CTransaction}
    (hvtx : b.block.vtx = pre ++ tx :: post) :
    d.Holds b.nFile (b.txPos pre).nTxPos tx.write ∧ tx.WellFormed ∧ 80 ≤ (b.txPos pre).nTxPos.toNat := by
  obtain ⟨front, back, hwrite, hfront⟩ := BlockFiles.write_split hvtx
  have hpos := h.toNat_txPos hwrite hfront
  have hholds := h.holds
  rw [hwrite] at hholds
  have htx : tx ∈ b.block.vtx := by
    rw [hvtx]
    exact List.mem_append_right pre List.mem_cons_self
  exact ⟨hholds.part hpos, h.wellFormed.txs tx htx, by omega⟩

theorem StoredBlock.In.readsBack (h : b.In d) (env : BlockFileEnv) : b.ReadsBack env d := by
  obtain ⟨hblock, hheader⟩ := @BlockFiles.Holds.readFromDisk env _ _ _ _ h.holds h.wellFormed
  refine ⟨hblock, hheader, fun pre tx post hvtx => ?_⟩
  obtain ⟨hholds, hok, _⟩ := h.tx hvtx
  exact hholds.readTx hok

end ProCurrency

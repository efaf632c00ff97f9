import Mathlib.Data.List.Sort
import ProCurrency.Connect.Block
import ProCurrency.Script.Signature
import ProCurrency.Target.Theorems

/-!
# Block templates

`CreateNewBlock` (miner.cpp) with `fProofOfStake` set: the transactions of the memory pool are taken in the order of a
priority queue, as far as they fit, and their fees are summed up. `none` is an exception that the source throws, a
failed assertion, or an access outside a container.
-/

namespace ProCurrency

open ByteCodec

/-- The arithmetic of `double`. -/
structure DoubleOps (D : Type) where
  ofInt : Int → D
  add : D → D → D
  mul : D → D → D
  div : D → D → D
  lt : D → D → Bool
  eq : D → D → Bool

structure MinerEnv (G D : Type) where
  connect : ConnectEnv G
  double : DoubleOps D
  nBlockMaxSize : Nat
  nBlockPrioritySize : Nat
  nBlockMinSize : Nat
  nMinTxFee : Int64
  coinbaseFlags : CScript

/-! ## Scripts and times -/

/-- `CBigNum(n).getvch()` of a positive number. -/
def CBigNum.getvch (n : Nat) : Bytes :=
  leBytes (Nat.log2 n / 8 + 1) n ++ if Nat.log2 n % 8 = 7 then [0] else []

/-- `CScript() << n` for a positive `int`. -/
def CScript.pushInt (n : Nat) : CScript :=
  if n ≤ 16 then [OP_1 - 1 + UInt8.ofNat n]
  else UInt8.ofNat (CBigNum.getvch n).length :: CBigNum.getvch n

/-- `IsFinal()`, at the best height and the adjusted time. -/
def CTransaction.isFinal (nBestHeight nAdjustedTime : Int) (tx : CTransaction) : Bool :=
  if tx.nLockTime = 0 then true
  else if (tx.nLockTime.toNat : Int) <
      (if tx.nLockTime.toNat < LOCKTIME_THRESHOLD then nBestHeight else nAdjustedTime) then true
  else tx.vin.all CTxIn.isFinal

/-- `GetMedianTimePast`, over the entries from the block back. -/
def getMedianTimePast (pindex : List CBlockIndex) : Int :=
  let times := ((pindex.take 11).map CBlockIndex.getBlockTime).mergeSort
  times.getD (times.length / 2) 0

def getPastTimeLimit (params : CChainParams) (pindexPrev : CBlockIndex) (pprev : List CBlockIndex) : Int :=
  if params.isProtocolV1 pindexPrev.nHeight then getMedianTimePast (pindexPrev :: pprev) else pindexPrev.getBlockTime

def CBlock.getMaxTransactionTime (block : CBlock) : Nat :=
  block.vtx.foldl (fun maxTransactionTime tx => max maxTransactionTime tx.nTime.toNat) 0

/-! ## Priorities -/

/-- A transaction that waits for others of the pool. Its fee is not known. -/
structure COrphan (D : Type) where
  ptx : CTransaction
  setDependsOn : List UInt256
  dPriority : D
  dFeePerKb : D

structure TxPriority (D : Type) where
  dPriority : D
  dFeePerKb : D
  nFee : Int64
  ptx : CTransaction

variable {G D : Type}

/-- `TxPriorityCompare`. -/
def TxPriority.less (double : DoubleOps D) (byFee : Bool) (a b : TxPriority D) : Bool :=
  if byFee then
    if double.eq a.dFeePerKb b.dFeePerKb then double.lt a.dPriority b.dPriority
    else double.lt a.dFeePerKb b.dFeePerKb
  else
    if double.eq a.dPriority b.dPriority then double.lt a.dFeePerKb b.dFeePerKb
    else double.lt a.dPriority b.dPriority

/-- The front of the heap, a greatest entry, and the others. -/
def popHeap (double : DoubleOps D) (byFee : Bool) : List (TxPriority D) → Option (TxPriority D × List (TxPriority D))
  | [] => none
  | e :: es =>
      match popHeap double byFee es with
      | none => some (e, [])
      | some (front, rest) =>
          if e.less double byFee front then some (front, e :: rest) else some (e, front :: rest)

/-- What the loop over the inputs of a pool transaction finds. -/
structure InputScan (D : Type) where
  /-- `setDependsOn` of `porphan`, where there is one. -/
  porphan : Option (List UInt256)
  /-- The entries that are added to `mapDependers`. -/
  dependers : List UInt256
  dPriority : D
  nTotalIn : Int64
  fMissingInputs : Bool

/-- What the loop over the pool has collected. An orphan is told by the place of its transaction in the pool. -/
structure PoolScan (D : Type) where
  vOrphan : List (Nat × COrphan D)
  mapDependers : UInt256 → List Nat
  vecPriority : List (TxPriority D)

/-- The block that is assembled, behind its coinbase. -/
structure Assembly (D : Type) where
  vtx : List CTransaction
  mapTestPool : MapTestPool
  nBlockSize : Nat
  nBlockSigOps : Nat
  nFees : Int64
  fSortedByFee : Bool
  vOrphan : List (Nat × COrphan D)
  vecPriority : List (TxPriority D)

/-- `vOrphan`, with an orphan at its end where the transaction has to wait. -/
def addOrphan (vOrphan : List (Nat × COrphan D)) (i : Nat) (ptx : CTransaction) (porphan : Option (List UInt256))
    (dPriority dFeePerKb : D) : List (Nat × COrphan D) :=
  match porphan with
  | none => vOrphan
  | some setDependsOn => vOrphan ++ [(i, { ptx, setDependsOn, dPriority, dFeePerKb })]

/-- An orphan in its place. -/
def setOrphan (i : Nat) (orphan : COrphan D) : List (Nat × COrphan D) → List (Nat × COrphan D)
  | [] => []
  | p :: vOrphan => if p.1 = i then (i, orphan) :: vOrphan else p :: setOrphan i orphan vOrphan

/-- The orphans that depend on a transaction that was added; one that waits for no other goes to the queue. An orphan
that is not there any more is followed through a dangling pointer. -/
def releaseOrphans (hash : UInt256) (vOrphan : List (Nat × COrphan D)) (vecPriority : List (TxPriority D)) :
    List Nat → Option (List (Nat × COrphan D) × List (TxPriority D))
  | [] => some (vOrphan, vecPriority)
  | i :: is =>
      match vOrphan.lookup i with
      | none => none
      | some orphan =>
          if orphan.setDependsOn = [] then releaseOrphans hash vOrphan vecPriority is
          else
            let orphan := { orphan with setDependsOn := orphan.setDependsOn.erase hash }
            let vOrphan := setOrphan i orphan vOrphan
            if orphan.setDependsOn = [] then
              releaseOrphans hash vOrphan (vecPriority ++ [⟨orphan.dPriority, orphan.dFeePerKb, 0, orphan.ptx⟩]) is
            else releaseOrphans hash vOrphan vecPriority is

namespace ConnectEnv

/-- `ReadFromDisk(txdb, prevout, txindex)`. -/
def readPrev (env : ConnectEnv G) (s : ConnectStore) (prevout : COutPoint) : Option (CTxIndex × CTxOut) :=
  match s.txIndex prevout.hash with
  | none => none
  | some txindex =>
      match env.readTx txindex.pos with
      | none => none
      | some txPrev => (txPrev.vout[prevout.n.toNat]?).map (txindex, ·)

/-- The node when the miner connects inputs: signatures are verified at every height. -/
def miner (env : ConnectEnv G) : ConnectEnv G := { env with nTotalBlocksEstimate := env.nBestHeight }

end ConnectEnv

namespace MinerEnv

variable (m : MinerEnv G D)

/-- The loop over the inputs. -/
def scanInputs (s : ConnectStore) (tx : CTransaction) (scan : InputScan D) : List CTxIn → Option (InputScan D)
  | [] => some scan
  | txin :: vin =>
      if tx.spendsAnon txin then scanInputs s tx scan vin
      else match m.connect.readPrev s txin.prevout with
        | none =>
            match m.connect.mempoolTx txin.prevout.hash with
            | none => some { scan with porphan := none, fMissingInputs := true }
            | some txPrev =>
                match txPrev.vout[txin.prevout.n.toNat]? with
                | none => none
                | some txout =>
                    scanInputs s tx
                      { scan with
                        porphan := some ((scan.porphan.getD []).insert txin.prevout.hash)
                        dependers := scan.dependers ++ [txin.prevout.hash]
                        nTotalIn := scan.nTotalIn + txout.nValue } vin
        | some (txindex, txout) =>
            let nConf := m.connect.getDepthInMainChain txindex
            scanInputs s tx
              { scan with
                dPriority := m.double.add scan.dPriority
                  (m.double.mul (m.double.ofInt txout.nValue.toInt) (m.double.ofInt nConf))
                nTotalIn := scan.nTotalIn + txout.nValue } vin

/-- `mapDependers` with an orphan for each of some transactions. -/
def addDependers (mapDependers : UInt256 → List Nat) (i : Nat) (hashes : List UInt256) : UInt256 → List Nat :=
  hashes.foldl (fun mapDependers hash => Function.update mapDependers hash (mapDependers hash ++ [i])) mapDependers

variable [AddCommGroup G]

/-- What ring coins add to `nTotalIn`; `none` is a check that fails. -/
def scanAnon (s : ConnectStore) (tx : CTransaction) : Option Int64 :=
  if tx.nVersion == ANON_TXN_VERSION then
    match m.connect.checkAnonInputs s false tx with
    | (false, _) => none
    | (true, nSumAnon) => some nSumAnon
  else some 0

/-- One round of the loop over the pool, at the transaction in place `i`. -/
def scanTx (s : ConnectStore) (i : Nat) (tx : CTransaction) (scan : PoolScan D) : Option (PoolScan D) :=
  if tx.isCoinBase || tx.isCoinStake || !tx.isFinal m.connect.nBestHeight m.connect.nAdjustedTime then some scan
  else
    match m.scanInputs s tx ⟨none, [], m.double.ofInt 0, 0, false⟩ tx.vin with
    | none => none
    | some inputs =>
        let mapDependers := addDependers scan.mapDependers i inputs.dependers
        let addOrphan := addOrphan scan.vOrphan i tx inputs.porphan
        if inputs.fMissingInputs then some { scan with mapDependers }
        else
          match m.scanAnon s tx with
          | none => some { scan with mapDependers, vOrphan := addOrphan (m.double.ofInt 0) (m.double.ofInt 0) }
          | some nSumAnon =>
              match tx.getValueOut with
              | none => none
              | some nValueOut =>
                  let nTxSize := m.double.ofInt tx.getSerializeSize
                  let dPriority := m.double.div inputs.dPriority nTxSize
                  let nFee := inputs.nTotalIn + nSumAnon - nValueOut
                  let dFeePerKb := m.double.div (m.double.ofInt nFee.toInt)
                    (m.double.div nTxSize (m.double.ofInt 1000))
                  match inputs.porphan with
                  | some _ => some { scan with mapDependers, vOrphan := addOrphan dPriority dFeePerKb }
                  | none =>
                      some { scan with
                        mapDependers, vecPriority := scan.vecPriority ++ [⟨dPriority, dFeePerKb, nFee, tx⟩] }

/-- The loop over the pool, from the place `i` on. -/
def scanPool (s : ConnectStore) (i : Nat) (scan : PoolScan D) : List CTransaction → Option (PoolScan D)
  | [] => some scan
  | tx :: mapTx =>
      match m.scanTx s i tx scan with
      | none => none
      | some scan => scanPool s (i + 1) scan mapTx

/-! ## Assembling -/

/-- The fee of an entry of the queue. One that comes from an orphan has none yet, and it is computed; the answer
`none` in it is a transaction that is left out. -/
def entryFee (s : ConnectStore) (inputs : MapPrevTx) (entry : TxPriority D) : Option (Option Int64) :=
  if entry.nFee = 0 then
    match entry.ptx.getValueIn inputs, entry.ptx.getValueOut with
    | some nValueIn, some nValueOut =>
        some ((m.scanAnon s entry.ptx).map fun nSumAnon => nValueIn - nValueOut + nSumAnon)
    | _, _ => none
  else some (some entry.nFee)

/-- The tests that need no inputs. -/
def fits (nCoinbaseTime : UInt32) (a : Assembly D) (entry : TxPriority D) : Bool :=
  let tx := entry.ptx
  let nTxSize := tx.getSerializeSize
  if m.nBlockMaxSize ≤ a.nBlockSize + nTxSize then false
  else if MAX_BLOCK_SIGOPS ≤ a.nBlockSigOps + tx.getLegacySigOpCount then false
  else if m.connect.nAdjustedTime < tx.nTime.toNat ∨ nCoinbaseTime < tx.nTime then false
  else if a.fSortedByFee ∧ m.double.lt entry.dFeePerKb (m.double.ofInt m.nMinTxFee.toInt) ∧
      m.nBlockMinSize ≤ a.nBlockSize + nTxSize then
    false
  else true

/-- The order by fee, from the priority size on, or when no priority is high any more. -/
def sortedByFee (a : Assembly D) (entry : TxPriority D) : Bool :=
  a.fSortedByFee || (m.nBlockPrioritySize ≤ a.nBlockSize + entry.ptx.getSerializeSize ||
    m.double.lt entry.dPriority (m.double.ofInt (100000000 * 144 / 250)))

/-- The block with a transaction added, and the orphans that waited for it. -/
def addTx (mapDependers : UInt256 → List Nat) (a : Assembly D) (tx : CTransaction) (nFee : Int64) (nTxSigOps : Nat)
    (mapTestPool : MapTestPool) : Option (Assembly D) :=
  let hash := m.connect.txHash tx
  match releaseOrphans hash a.vOrphan a.vecPriority (mapDependers hash) with
  | none => none
  | some (vOrphan, vecPriority) =>
      some { a with
        vtx := a.vtx ++ [tx]
        mapTestPool := Function.update mapTestPool hash (some (.new ⟨1, 1, 1⟩ tx.vout.length))
        nBlockSize := a.nBlockSize + tx.getSerializeSize
        nBlockSigOps := a.nBlockSigOps + nTxSigOps
        nFees := a.nFees + nFee
        vOrphan
        vecPriority }

/-- One round of the loop that fills the block, at the entry that was taken off the queue. -/
def takeEntry (s : ConnectStore) (pindexPrev : CBlockIndex) (pprev : List CBlockIndex) (nCoinbaseTime : UInt32)
    (mapDependers : UInt256 → List Nat) (a : Assembly D) (entry : TxPriority D) : Option (Assembly D) :=
  let tx := entry.ptx
  if !m.fits nCoinbaseTime a entry then some a
  else
    let a := { a with fSortedByFee := m.sortedByFee a entry }
    match m.connect.fetchInputs s a.mapTestPool tx with
    | none => some a
    | some inputs =>
        match m.entryFee s inputs entry with
        | none => none
        | some none => some a
        | some (some nFee) =>
            if nFee < tx.getMinFee then some a
            else
              match tx.getP2SHSigOpCount inputs with
              | none => none
              | some nP2SHSigOps =>
                  let nTxSigOps := tx.getLegacySigOpCount + nP2SHSigOps
                  if MAX_BLOCK_SIGOPS ≤ a.nBlockSigOps + nTxSigOps then some a
                  else
                    match m.connect.miner.connectInputs s inputs a.mapTestPool ⟨1, 1, 1⟩ pindexPrev pprev
                      MANDATORY_SCRIPT_VERIFY_FLAGS tx with
                    | none => some a
                    | some mapTestPool => m.addTx mapDependers a tx nFee nTxSigOps mapTestPool

/-- The loop that fills the block. Each round takes an entry off the queue, and an orphan comes to it once, so that
their number bounds the rounds. -/
def fillBlock (s : ConnectStore) (pindexPrev : CBlockIndex) (pprev : List CBlockIndex) (nCoinbaseTime : UInt32)
    (mapDependers : UInt256 → List Nat) : Nat → Assembly D → Option (Assembly D)
  | rounds, a =>
      match popHeap m.double a.fSortedByFee a.vecPriority with
      | none => some a
      | some (entry, vecPriority) =>
          match rounds with
          | 0 => none
          | rounds + 1 =>
              match m.takeEntry s pindexPrev pprev nCoinbaseTime mapDependers { a with vecPriority } entry with
              | none => none
              | some a => fillBlock s pindexPrev pprev nCoinbaseTime mapDependers rounds a

/-- The coinbase of a proof-of-stake block, at the time of its construction. -/
def stakeCoinbase (nHeight : Int) : CTransaction where
  nVersion := 1
  nTime := UInt32.ofInt m.connect.nAdjustedTime
  vin :=
    [{ prevout := .null
       scriptSig := CScript.pushInt nHeight.toNat ++ m.coinbaseFlags
       nSequence := -1 }]
  vout := [{ nValue := 0, scriptPubKey := [] }]
  nLockTime := 0

/-- `CreateNewBlock(pwallet, true, &nFees)`: the block, and `nFees`. -/
def createNewBlock (s : ConnectStore) (pindexPrev : CBlockIndex) (pprev : List CBlockIndex)
    (mapTx : List CTransaction) : Option (CBlock × Int64) :=
  let nHeight := pindexPrev.nHeight + 1
  let coinbase := m.stakeCoinbase nHeight
  if 100 < (CScript.pushInt nHeight.toNat ++ m.coinbaseFlags).length then none
  else
    match getNextTargetRequired m.connect.params (pindexPrev :: pprev) true, m.scanPool s 0 ⟨[], fun _ => [], []⟩ mapTx with
    | some nBits, some scan =>
        let start : Assembly D :=
          { vtx := [], mapTestPool := fun _ => none, nBlockSize := 1000, nBlockSigOps := 100, nFees := 0
            fSortedByFee := m.nBlockPrioritySize ≤ 0, vOrphan := scan.vOrphan, vecPriority := scan.vecPriority }
        match m.fillBlock s pindexPrev pprev coinbase.nTime scan.mapDependers
          (scan.vecPriority.length + scan.vOrphan.length) start with
        | none => none
        | some a =>
            let block : CBlock :=
              { nVersion := if m.connect.params.isProtocolV1 nHeight then 6 else 7
                hashPrevBlock := pindexPrev.hashBlock
                hashMerkleRoot := 0
                nTime := 0
                nBits
                nNonce := 0
                vtx := coinbase :: a.vtx }
            let nTime := max (getPastTimeLimit m.connect.params pindexPrev pprev + 1) block.getMaxTransactionTime
            some ({ block with nTime := UInt32.ofInt nTime }, a.nFees)
    | _, _ => none

end MinerEnv

end ProCurrency

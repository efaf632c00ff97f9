import ProCurrency.Chain.BestChain
import ProCurrency.Kernel.StakeModifier
import ProCurrency.Orphans.BlockPool

/-!
# The block index in memory and on disk

`CBlock::AddToBlockIndex`, with `SetBestChain` and `Reorganize` as in `Chain/BestChain`, over the records of
`WriteBlockIndex` (main.cpp, txdb-leveldb.cpp). A record is kept as the one that reading it back gives. What waits in the
batch is told from what is on the disk; writes into the batch do not fail. `none` is a null pointer that is followed.
-/

namespace ProCurrency

/-- `CBlockIndex::GetBlockTrust`. -/
def getBlockTrust (nBits : UInt32) : UInt256 :=
  let bnTarget := CBigNum.setCompact nBits
  if bnTarget ≤ 0 then 0 else BitVec.ofInt 256 (2 ^ 256 / (bnTarget + 1))

structure Supply where
  nMint : Int64 := 0
  nMoneySupply : Int64 := 0
  nTokenSupply : Int64 := 0
  deriving Repr, DecidableEq

/-- The fields of `CBlockIndex` that a pointer of `Base/BlockIndex` does not carry, but for `pnext`. -/
structure IndexFields where
  supply : Supply := {}
  prevoutStake : COutPoint := .null
  nStakeTime : UInt32 := 0
  hashProof : UInt256 := 0
  nVersion : Int := 0
  hashMerkleRoot : UInt256 := 0
  nNonce : UInt32 := 0
  deriving Repr, DecidableEq

/-- What is stored of an entry under its hash. -/
structure CDiskBlockIndex where
  hashNext : UInt256
  nFile : UInt32
  nBlockPos : UInt32
  nHeight : Int
  nFlags : UInt32
  nStakeModifier : UInt64
  bnStakeModifierV2 : UInt256
  fields : IndexFields
  hashPrev : UInt256
  nTime : UInt32
  nBits : UInt32
  deriving Repr, DecidableEq

/-- The stake is stored with a proof-of-stake entry only. -/
def CDiskBlockIndex.new (pindex : CBlockIndex) (pprev : List CBlockIndex) (fields : IndexFields) (hashNext : UInt256) :
    CDiskBlockIndex where
  hashNext := hashNext
  nFile := pindex.nFile
  nBlockPos := pindex.nBlockPos
  nHeight := pindex.nHeight
  nFlags := pindex.nFlags
  nStakeModifier := pindex.nStakeModifier
  bnStakeModifierV2 := pindex.bnStakeModifierV2
  fields := if pindex.isProofOfStake then fields else { fields with prevoutStake := .null, nStakeTime := 0 }
  hashPrev := getBlockHash pprev
  nTime := pindex.nTime
  nBits := pindex.nBits

structure IndexRecords where
  blockIndex : Std.ExtTreeMap UInt256 CDiskBlockIndex
  hashBestChain : Option UInt256

structure IndexNode where
  mem : ChainMemory
  mapBlockIndex : UInt256 → Option (List CBlockIndex)
  /-- Of the entries, by their hashes. -/
  fields : UInt256 → IndexFields
  setStakeSeen : Finset (COutPoint × UInt32)
  /-- On the disk, and through the handle. -/
  disk : IndexRecords
  batch : IndexRecords

/-- What a call meets. Of `chain` the blocks that are read, connected and disconnected and the commits are used. -/
structure IndexOutcomes where
  chain : Outcomes
  /-- What `ConnectBlock` counts. -/
  supply : List CBlockIndex → Supply

/-- What a call of `AddToBlockIndex` is given and meets. -/
structure BlockOutcomes extends IndexOutcomes where
  nFile : UInt32
  nBlockPos : UInt32
  hashProof : UInt256
  /-- `ComputeNextStakeModifier`. -/
  nextStakeModifier : Option (UInt64 × Bool)
  bnStakeModifierV2 : UInt256
  /-- The commit of the new entry. -/
  fIndexCommits : Bool

namespace IndexNode

/-! ## The handle -/

/-- `if (!step) return false;`, and then `next`. -/
def andThen (step : Option (Bool × IndexNode)) (next : IndexNode → Option (Bool × IndexNode)) :
    Option (Bool × IndexNode) :=
  match step with
  | none => none
  | some (false, st) => some (false, st)
  | some (true, st) => next st

/-- `TxnBegin`, and `TxnAbort`: the handle reads what is on the disk. -/
def dropBatch (st : IndexNode) : IndexNode := { st with batch := st.disk }

def writeHashBestChain (st : IndexNode) (hash : UInt256) : IndexNode :=
  { st with batch := { st.batch with hashBestChain := some hash } }

/-- `WriteBlockIndex`, with `hashNext` set. -/
def writeBlockIndex (st : IndexNode) (hashNext : UInt256) : List CBlockIndex → IndexNode
  | [] => st
  | pindex :: pprev =>
      let diskindex := CDiskBlockIndex.new pindex pprev (st.fields pindex.hashBlock) hashNext
      { st with batch := { st.batch with blockIndex := st.batch.blockIndex.insert pindex.hashBlock diskindex } }

/-- `pnext->GetBlockHash()`, or 0. -/
def hashNext (st : IndexNode) (pindex : List CBlockIndex) : UInt256 := (st.mem.pnext (getBlockHash pindex)).getD 0

/-- The links of `Reorganize` and `SetBestChainInner`. -/
def relinked (st : IndexNode) (vDisconnect vConnect : List (List CBlockIndex)) : IndexNode :=
  { st with mem := { st.mem with pnext := relink vDisconnect vConnect st.mem.pnext } }

def setSupply (st : IndexNode) (hash : UInt256) (supply : Supply) : IndexNode :=
  { st with fields := Function.update st.fields hash { st.fields hash with supply } }

section SetBestChain

variable (env : ChainEnv) (outcomes : IndexOutcomes)

/-! ## Blocks -/

def readBlock (pindex : List CBlockIndex) : Option CBlock := readBlockFromDisk env outcomes.chain pindex

def disconnectBlock (st : IndexNode) (block : CBlock) (pindex : List CBlockIndex) : Option (Bool × IndexNode) :=
  if outcomes.chain.disconnects block pindex then some (true, st.writeBlockIndex 0 pindex.tail) else some (false, st)

/-- The block and the one before it are written. -/
def connectBlock (st : IndexNode) (block : CBlock) (pindex : List CBlockIndex) : Option (Bool × IndexNode) :=
  if outcomes.chain.connects block pindex then
    let st := st.setSupply (getBlockHash pindex) (outcomes.supply pindex)
    let st := st.writeBlockIndex (st.hashNext pindex) pindex
    some (true, st.writeBlockIndex (getBlockHash pindex) pindex.tail)
  else some (false, st)

def commit (st : IndexNode) (pindexNew : List CBlockIndex) : Option (Bool × IndexNode) :=
  if outcomes.chain.commitFails pindexNew then some (false, st.dropBatch) else some (true, { st with disk := st.batch })

/-! ## Reorganisation -/

def disconnectAll (st : IndexNode) : List (List CBlockIndex) → Option (Bool × IndexNode)
  | [] => some (true, st)
  | pindex :: vDisconnect =>
      match readBlock env outcomes pindex with
      | none => some (false, st)
      | some block =>
          andThen (st.disconnectBlock outcomes block pindex) fun st => disconnectAll st vDisconnect

def connectAll (st : IndexNode) : List (List CBlockIndex) → Option (Bool × IndexNode)
  | [] => some (true, st)
  | pindex :: vConnect =>
      match readBlock env outcomes pindex with
      | none => some (false, st)
      | some block => andThen (st.connectBlock outcomes block pindex) fun st => connectAll st vConnect

def reorganize (st : IndexNode) (pindexNew : List CBlockIndex) : Option (Bool × IndexNode) :=
  match findFork st.mem.pindexBest pindexNew with
  | none => some (false, st)
  | some pfork =>
      let vDisconnect := branchTo pfork st.mem.pindexBest
      let vConnect := (branchTo pfork pindexNew).reverse
      andThen (st.disconnectAll env outcomes vDisconnect) fun st =>
        andThen (st.connectAll env outcomes vConnect) fun st =>
          andThen ((st.writeHashBestChain (getBlockHash pindexNew)).commit outcomes pindexNew) fun st =>
            some (true, st.relinked vDisconnect vConnect)

/-! ## The best chain -/

/-- A block that is refused drops the transaction, as does a commit that fails. -/
def setBestChainInner (st : IndexNode) (block : CBlock) (pindexNew : List CBlockIndex) : Option (Bool × IndexNode) :=
  match st.connectBlock outcomes block pindexNew with
  | none => none
  | some (false, st) => some (false, st.dropBatch)
  | some (true, st) =>
      andThen ((st.writeHashBestChain (env.blockHash block)).commit outcomes pindexNew) fun st =>
        match pindexNew with
        | _ :: _ :: _ => some (true, st.relinked [] [pindexNew])
        | _ => none

/-- The loop over the postponed blocks, which ends at the first block that fails. -/
def connectPostponed (st : IndexNode) : List (List CBlockIndex) → Option IndexNode
  | [] => some st
  | pindex :: rest =>
      match readBlock env outcomes pindex with
      | none => some st
      | some block =>
          match st.dropBatch.setBestChainInner env outcomes block pindex with
          | none => none
          | some (false, st) => some st
          | some (true, st) => connectPostponed st rest

/-- The end of `SetBestChain`. -/
def newBestBlock (st : IndexNode) (hash : UInt256) : List CBlockIndex → Option (Bool × IndexNode)
  | [] => none
  | pindex :: pprev =>
      some (true,
        { st with
          mem := { st.mem with
            hashBestChain := hash
            pindexBest := pindex :: pprev
            nBestHeight := pindex.nHeight
            nBestChainTrust := pindex.nChainTrust } })

def setBestChain (st : IndexNode) (block : CBlock) (pindexNew : List CBlockIndex) : Option (Bool × IndexNode) :=
  let hash := env.blockHash block
  let st := st.dropBatch
  if st.mem.pindexGenesisBlock = [] ∧ hash = env.hashGenesisBlock then
    andThen ((st.writeHashBestChain hash).commit outcomes pindexNew) fun st =>
      newBestBlock { st with mem := { st.mem with pindexGenesisBlock := pindexNew } } hash pindexNew
  else if block.hashPrevBlock = st.mem.hashBestChain then
    andThen (st.setBestChainInner env outcomes block pindexNew) fun st => st.newBestBlock hash pindexNew
  else
    match st.mem.pindexBest with
    | [] => none
    | pindexBest :: _ =>
        match postpone pindexBest.nChainTrust pindexNew with
        | (vpindexSecondary, pindexIntermediate) =>
            match st.reorganize env outcomes pindexIntermediate with
            | none => none
            | some (false, st) => some (false, st.dropBatch)
            | some (true, st) =>
                match st.connectPostponed env outcomes vpindexSecondary.reverse with
                | none => none
                | some st => st.newBestBlock hash pindexNew

end SetBestChain

/-! ## New blocks -/

section AddToBlockIndex

variable (env : ChainEnv) (outcomes : BlockOutcomes)

/-- `mapBlockIndex.find(hashPrevBlock)`; `[]` when there is none. -/
def prevEntry (st : IndexNode) (block : CBlock) : List CBlockIndex := (st.mapBlockIndex block.hashPrevBlock).getD []

/-- `pprev ? pprev->nChainTrust : 0`. -/
def prevTrust : List CBlockIndex → UInt256
  | [] => 0
  | pprev :: _ => pprev.nChainTrust

def newEntry (block : CBlock) (stakeModifier : UInt64 × Bool) (pprev : List CBlockIndex) : CBlockIndex where
  hashBlock := env.blockHash block
  nFile := outcomes.nFile
  nBlockPos := outcomes.nBlockPos
  nChainTrust := prevTrust pprev + getBlockTrust block.nBits
  nHeight := match pprev with
    | [] => 0
    | p :: _ => p.nHeight + 1
  nFlags := (if block.isProofOfStake then BLOCK_PROOF_OF_STAKE else 0) |||
    (if (env.blockHash block).toNat % 2 = 1 then BLOCK_STAKE_ENTROPY else 0) |||
    if stakeModifier.2 then BLOCK_STAKE_MODIFIER else 0
  nStakeModifier := stakeModifier.1
  bnStakeModifierV2 := outcomes.bnStakeModifierV2
  nTime := block.nTime
  nBits := block.nBits

def newFields (block : CBlock) : IndexFields where
  prevoutStake := block.getProofOfStake.1
  nStakeTime := block.getProofOfStake.2
  hashProof := outcomes.hashProof
  nVersion := block.nVersion
  hashMerkleRoot := block.hashMerkleRoot
  nNonce := block.nNonce

/-- `mapBlockIndex.insert`, of an entry without a `pnext`. -/
def insertEntry (st : IndexNode) (block : CBlock) (pindexNew : List CBlockIndex) : IndexNode :=
  let hash := env.blockHash block
  { st with
    mem := { st.mem with pnext := Function.update st.mem.pnext hash none }
    mapBlockIndex := Function.update st.mapBlockIndex hash (some pindexNew)
    fields := Function.update st.fields hash (newFields outcomes block)
    setStakeSeen := if block.isProofOfStake then insert block.getProofOfStake st.setStakeSeen else st.setStakeSeen }

/-- The entry in memory, and its record in a transaction of its own. -/
def recordEntry (st : IndexNode) (block : CBlock) (pindexNew : List CBlockIndex) : IndexNode :=
  let st := st.insertEntry env outcomes block pindexNew
  st.dropBatch.writeBlockIndex (st.hashNext pindexNew) pindexNew

def addToBlockIndex (st : IndexNode) (block : CBlock) : Option (Bool × IndexNode) :=
  if st.mapBlockIndex (env.blockHash block) ≠ none then some (false, st)
  else
    match outcomes.nextStakeModifier with
    | none => some (false, st)
    | some stakeModifier =>
        let pindex := newEntry env outcomes block stakeModifier (st.prevEntry block)
        let pindexNew := pindex :: st.prevEntry block
        let st := st.recordEntry env outcomes block pindexNew
        if outcomes.fIndexCommits then
          let st := { st with disk := st.batch }
          if st.mem.nBestChainTrust < pindex.nChainTrust then
            st.setBestChain env outcomes.toIndexOutcomes block pindexNew
          else some (true, st)
        else some (false, st.dropBatch)

end AddToBlockIndex

/-! ## The start -/

def empty : IndexNode where
  mem :=
    { pindexGenesisBlock := []
      hashBestChain := 0
      pindexBest := []
      nBestHeight := -1
      nBestChainTrust := 0
      pnext := fun _ => none }
  mapBlockIndex _ := none
  fields _ := {}
  setStakeSeen := ∅
  disk := ⟨∅, none⟩
  batch := ⟨∅, none⟩

end IndexNode

/-- The network, with its genesis block. -/
structure IndexEnv extends ChainEnv where
  genesisBlock : CBlock
  hash_genesis : blockHash genesisBlock = hashGenesisBlock
  trust_genesis : 0 < getBlockTrust genesisBlock.nBits

/-- The end of `LoadBlockIndex` in main.cpp, when there is nothing on the disk. -/
def IndexNode.loadGenesis (env : IndexEnv) (outcomes : BlockOutcomes) : Option IndexNode :=
  match IndexNode.empty.addToBlockIndex env.toChainEnv outcomes env.genesisBlock with
  | some (true, st) => some st
  | _ => none

/-!
## Loading the block index

`InsertBlockIndex` and `CTxDB::LoadBlockIndex` (txdb-leveldb.cpp), up to the check of the last blocks. A pointer is the
hash under which its object was inserted, so that an object that is erased from `mapBlockIndex` is still there.
-/

/-- A `CBlockIndex` that has been made by `InsertBlockIndex`. -/
structure IndexObject where
  entry : CBlockIndex
  fields : IndexFields := {}
  pprev : Option UInt256 := none
  pnext : Option UInt256 := none
  deriving Repr, DecidableEq

structure LoadedIndex where
  objects : Std.ExtTreeMap UInt256 IndexObject
  mapBlockIndex : UInt256 → Bool
  setStakeSeen : Finset (COutPoint × UInt32)
  pindexGenesisBlock : Option UInt256
  hashBestChain : UInt256
  pindexBest : Option UInt256
  nBestHeight : Int
  nBestChainTrust : UInt256
  /-- The blocks that go to `AddOrphanBlock`. -/
  vOrphanBlocks : List CBlock

namespace LoadedIndex

def empty : LoadedIndex where
  objects := ∅
  mapBlockIndex _ := false
  setStakeSeen := ∅
  pindexGenesisBlock := none
  hashBestChain := 0
  pindexBest := none
  nBestHeight := -1
  nBestChainTrust := 0
  vOrphanBlocks := []

/-! ## The scan -/

def insertBlockIndex (li : LoadedIndex) (hash : UInt256) : Option UInt256 × LoadedIndex :=
  if hash = 0 then (none, li)
  else if li.mapBlockIndex hash then (some hash, li)
  else
    (some hash,
      { li with
        objects := li.objects.insert hash { entry := { hashBlock := hash } }
        mapBlockIndex := Function.update li.mapBlockIndex hash true })

/-- One round of the scan. The object of a block whose hash is 0 would be a null pointer. -/
def loadRecord (env : ChainEnv) (li : LoadedIndex) (blockHash : UInt256) (diskindex : CDiskBlockIndex) :
    Option LoadedIndex :=
  match li.insertBlockIndex blockHash with
  | (none, _) => none
  | (some pindexNew, li) =>
      match li.insertBlockIndex diskindex.hashPrev with
      | (pprev, li) =>
          match li.insertBlockIndex diskindex.hashNext with
          | (pnext, li) =>
              let entry : CBlockIndex :=
                { hashBlock := pindexNew
                  nFile := diskindex.nFile
                  nBlockPos := diskindex.nBlockPos
                  nHeight := diskindex.nHeight
                  nFlags := diskindex.nFlags
                  nStakeModifier := diskindex.nStakeModifier
                  bnStakeModifierV2 := diskindex.bnStakeModifierV2
                  nTime := diskindex.nTime
                  nBits := diskindex.nBits }
              let fields := diskindex.fields
              some
                { li with
                  objects := li.objects.insert pindexNew { entry, fields, pprev, pnext }
                  pindexGenesisBlock :=
                    if li.pindexGenesisBlock = none ∧ blockHash = env.hashGenesisBlock then some pindexNew
                    else li.pindexGenesisBlock
                  setStakeSeen :=
                    if entry.isProofOfStake then insert (fields.prevoutStake, fields.nStakeTime) li.setStakeSeen
                    else li.setStakeSeen }

def loadRecords (env : ChainEnv) (li : LoadedIndex) : List (UInt256 × CDiskBlockIndex) → Option LoadedIndex
  | [] => some li
  | (blockHash, diskindex) :: rest =>
      match li.loadRecord env blockHash diskindex with
      | none => none
      | some li => loadRecords env li rest

/-! ## The chain trust -/

/-- One round of the loop over `vSortedByHeight`. -/
def loadTrust (env : ChainEnv) (readBlock : UInt32 → UInt32 → Option CBlock) (li : LoadedIndex) (hash : UInt256) :
    LoadedIndex :=
  match li.objects[hash]? with
  | none => li
  | some pindex =>
      if pindex.pprev = none ∧ hash ≠ env.hashGenesisBlock ∨ li.nBestHeight < pindex.entry.nHeight then
        { li with
          mapBlockIndex := Function.update li.mapBlockIndex hash false
          vOrphanBlocks :=
            match readBlock pindex.entry.nFile pindex.entry.nBlockPos with
            | none => li.vOrphanBlocks
            | some block =>
                if li.nBestHeight < pindex.entry.nHeight ∧ env.blockHash block = hash then li.vOrphanBlocks ++ [block]
                else li.vOrphanBlocks }
      else
        let nPrevTrust : UInt256 :=
          match pindex.pprev.bind fun hashPrev => li.objects[hashPrev]? with
          | none => 0
          | some pprev => pprev.entry.nChainTrust
        let nChainTrust := nPrevTrust + getBlockTrust pindex.entry.nBits
        { li with objects := li.objects.insert hash { pindex with entry := { pindex.entry with nChainTrust } } }

/-- `vSortedByHeight`. Entries of one height stand in the order of their pointers, which is left open here: none of them
is read for another. -/
def sortedByHeight (li : LoadedIndex) : List UInt256 :=
  (li.objects.toList.mergeSort fun a b => a.2.entry.nHeight ≤ b.2.entry.nHeight).map Prod.fst

/-- `none` is a return of false, or a null pointer that is followed. -/
def loadBlockIndex (env : ChainEnv) (readBlock : UInt32 → UInt32 → Option CBlock) (disk : IndexRecords) :
    Option LoadedIndex :=
  match empty.loadRecords env disk.blockIndex.toList with
  | none => none
  | some li =>
      match disk.hashBestChain with
      | none => if li.pindexGenesisBlock = none then some li else none
      | some hashBestChain =>
          match li.mapBlockIndex hashBestChain, li.objects[hashBestChain]? with
          | true, some best =>
              let li := { li with hashBestChain, pindexBest := some hashBestChain, nBestHeight := best.entry.nHeight }
              let li := li.sortedByHeight.foldl (loadTrust env readBlock) li
              match li.objects[hashBestChain]? with
              | none => none
              | some best => some { li with nBestChainTrust := best.entry.nChainTrust }
          | _, _ => none

end LoadedIndex

end ProCurrency

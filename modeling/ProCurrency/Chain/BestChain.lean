import ProCurrency.Base.Transaction
import ProCurrency.Lib.ParentTree
import ProCurrency.Store.TxDb

/-!
# The best chain

`CBlock::SetBestChain`, `CBlock::SetBestChainInner` and `Reorganize` (main.cpp), over the handle of
`Store/TxDb`. What a call meets outside them is in `Outcomes`: what the block files give, which blocks
`ConnectBlock` and `DisconnectBlock` refuse, what they write, and which commits fail. `none` as a result is a
failed assertion or a null pointer that is followed.
-/

namespace ProCurrency

/-- The key of `WriteHashBestChain`. -/
def hashBestChainKey : Bytes :=
  writeVector writeUChar ("hashBestChain".toList.map fun c => UInt8.ofNat c.toNat)

/-- The globals of main.cpp. A null pointer is `[]`. -/
structure ChainMemory where
  pindexGenesisBlock : List CBlockIndex
  hashBestChain : UInt256
  pindexBest : List CBlockIndex
  nBestHeight : Int
  nBestChainTrust : UInt256
  /-- The `pnext` of the entries, by their hashes. -/
  pnext : UInt256 → Option UInt256

/-- The globals with a handle on the store. The last two fields record what no part of the node stores: the
blocks that are connected by committed transactions, and what a commit would make of them. -/
structure ChainState where
  mem : ChainMemory
  txdb : CTxDB
  connected : UInt256 → Bool
  pendingConnected : UInt256 → Bool

/-- What one call meets. Each block is read, connected or disconnected once in a call, so that what happens to
it is a function of the block. -/
structure Outcomes where
  readBlock : UInt32 → UInt32 → Option CBlock
  connects : CBlock → List CBlockIndex → Bool
  disconnects : CBlock → List CBlockIndex → Bool
  /-- Written through the handle, into its transaction. -/
  batchWrites : List CBlockIndex → WriteBatch
  /-- Written past the handle, by the wallets and by `InvalidChainFound`. -/
  diskWrites : List CBlockIndex → WriteBatch
  commitFails : List CBlockIndex → Bool
  diskWrites_other : ∀ pindex, ∀ c ∈ diskWrites pindex, c.effect hashBestChainKey = none

theorem Outcomes.no_diskWrites :
    ∀ _ : List CBlockIndex, ∀ c ∈ ([] : WriteBatch), c.effect hashBestChainKey = none := by
  simp

/-- What `SetBestChain` reads of the network and of hash.h. -/
structure ChainEnv where
  hashGenesisBlock : UInt256
  blockHash : CBlock → UInt256

namespace ChainState

/-! ## The handle -/

/-- `if (!step) return false;`, and then `next`. -/
def andThen (step : Option (Bool × ChainState)) (next : ChainState → Option (Bool × ChainState)) :
    Option (Bool × ChainState) :=
  match step with
  | none => none
  | some (false, st) => some (false, st)
  | some (true, st) => next st

def txnBegin (st : ChainState) : Option (Bool × ChainState) :=
  match st.txdb.txnBegin with
  | none => none
  | some (ok, txdb) => some (ok, { st with txdb, pendingConnected := st.connected })

def txnCommit (st : ChainState) (fFail : Bool) : Option (Bool × ChainState) :=
  match st.txdb.txnCommit fFail with
  | none => none
  | some (ok, txdb) =>
      some (ok, { st with txdb, connected := if ok then st.pendingConnected else st.connected })

def txnAbort (st : ChainState) : Option (Bool × ChainState) :=
  match st.txdb.txnAbort with
  | none => none
  | some (ok, txdb) => some (ok, { st with txdb })

def writeHashBestChain (st : ChainState) (hash : UInt256) : Option (Bool × ChainState) :=
  match st.txdb.write hashBestChainKey (writeUInt256 hash) false with
  | none => none
  | some (ok, txdb) => some (ok, { st with txdb })

def writeAll (txdb : CTxDB) : WriteBatch → Option CTxDB
  | [] => some txdb
  | c :: cs =>
      match txdb.change c false with
      | none => none
      | some (_, txdb) => writeAll txdb cs

/-- Writes of other handles. -/
def writeDisk (st : ChainState) (cs : WriteBatch) : ChainState :=
  { st with
    txdb := { st.txdb with
      pdb := { st.txdb.pdb with content := Overlay.applyAll st.txdb.pdb.content cs } } }

end ChainState

/-- `GetBlockHash` of a pointer. -/
def getBlockHash : List CBlockIndex → UInt256
  | [] => 0
  | pindex :: _ => pindex.hashBlock

/-- `CBlock::ReadFromDisk`, for an entry of the index. -/
def readBlockFromDisk (env : ChainEnv) (outcomes : Outcomes) : List CBlockIndex → Option CBlock
  | [] => none
  | pindex :: _ =>
      match outcomes.readBlock pindex.nFile pindex.nBlockPos with
      | none => none
      | some block => if env.blockHash block = pindex.hashBlock then some block else none

namespace ChainState

def connectBlock (outcomes : Outcomes) (st : ChainState) (block : CBlock) (pindex : List CBlockIndex) :
    Option (Bool × ChainState) :=
  match writeAll st.txdb (outcomes.batchWrites pindex) with
  | none => none
  | some txdb =>
      let fConnect := outcomes.connects block pindex
      some (fConnect,
        { st with
          txdb
          pendingConnected := fun hash =>
            if fConnect ∧ hash = getBlockHash pindex then true else st.pendingConnected hash }.writeDisk
          (outcomes.diskWrites pindex))

def disconnectBlock (outcomes : Outcomes) (st : ChainState) (block : CBlock) (pindex : List CBlockIndex) :
    Option (Bool × ChainState) :=
  match writeAll st.txdb (outcomes.batchWrites pindex) with
  | none => none
  | some txdb =>
      some (outcomes.disconnects block pindex,
        { st with
          txdb
          pendingConnected := fun hash =>
            if hash = getBlockHash pindex then false else st.pendingConnected hash }.writeDisk
          (outcomes.diskWrites pindex))

end ChainState

/-! ## The fork -/

/-- The inner loop: back from `plonger` until it is not above the height. -/
def lowerTo (nHeight : Int) : List CBlockIndex → List CBlockIndex
  | [] => []
  | plonger :: pprev => if nHeight < plonger.nHeight then lowerTo nHeight pprev else plonger :: pprev

/-- The search for the fork; `none` when it runs into a null pointer. -/
def findFork : List CBlockIndex → List CBlockIndex → Option (List CBlockIndex)
  | [], _ => none
  | pfork :: pprev, plonger =>
      if pfork :: pprev = plonger then some plonger
      else
        match lowerTo pfork.nHeight plonger with
        | [] => none
        | plonger :: rest =>
            if pfork :: pprev = plonger :: rest then some (plonger :: rest)
            else findFork pprev (plonger :: rest)

/-- The entries from `pindex` back to `pfork`, which is not one of them. -/
def branchTo (pfork : List CBlockIndex) : List CBlockIndex → List (List CBlockIndex)
  | [] => []
  | pindex :: pprev =>
      if pindex :: pprev = pfork then [] else (pindex :: pprev) :: branchTo pfork pprev

/-- The entries that are connected after the reorganisation, and the one it goes to. -/
def postpone (nBestTrust : UInt256) : List CBlockIndex → List (List CBlockIndex) × List CBlockIndex
  | pindex :: pprev :: rest =>
      if nBestTrust < pprev.nChainTrust then
        match postpone nBestTrust (pprev :: rest) with
        | (vpindexSecondary, pindexIntermediate) =>
            ((pindex :: pprev :: rest) :: vpindexSecondary, pindexIntermediate)
      else ([], pindex :: pprev :: rest)
  | pindexIntermediate => ([], pindexIntermediate)

/-- `pprev->pnext = NULL` for what is disconnected, then `pprev->pnext = pindex` for what is connected. -/
def relink (vDisconnect vConnect : List (List CBlockIndex)) (pnext : UInt256 → Option UInt256) :
    UInt256 → Option UInt256 :=
  let unlink pnext (pindex : List CBlockIndex) : UInt256 → Option UInt256 := fun hash =>
    if pindex.tail ≠ [] ∧ hash = getBlockHash pindex.tail then none else pnext hash
  let link pnext (pindex : List CBlockIndex) : UInt256 → Option UInt256 := fun hash =>
    if pindex.tail ≠ [] ∧ hash = getBlockHash pindex.tail then some (getBlockHash pindex) else pnext hash
  vConnect.foldl link (vDisconnect.foldl unlink pnext)

/-! ## Reorganisation -/

section SetBestChain

variable (env : ChainEnv) (outcomes : Outcomes)

open ChainState

def disconnectAll (st : ChainState) : List (List CBlockIndex) → Option (Bool × ChainState)
  | [] => some (true, st)
  | pindex :: vDisconnect =>
      match readBlockFromDisk env outcomes pindex with
      | none => some (false, st)
      | some block =>
          andThen (st.disconnectBlock outcomes block pindex) fun st => disconnectAll st vDisconnect

def connectAll (st : ChainState) : List (List CBlockIndex) → Option (Bool × ChainState)
  | [] => some (true, st)
  | pindex :: vConnect =>
      match readBlockFromDisk env outcomes pindex with
      | none => some (false, st)
      | some block =>
          andThen (st.connectBlock outcomes block pindex) fun st => connectAll st vConnect

/-- `Reorganize`. The memory pool, which takes back the disconnected transactions, is left out. -/
def reorganize (st : ChainState) (pindexNew : List CBlockIndex) : Option (Bool × ChainState) :=
  match findFork st.mem.pindexBest pindexNew with
  | none => some (false, st)
  | some pfork =>
      let vDisconnect := branchTo pfork st.mem.pindexBest
      let vConnect := (branchTo pfork pindexNew).reverse
      andThen (disconnectAll env outcomes st vDisconnect) fun st =>
        andThen (connectAll env outcomes st vConnect) fun st =>
          andThen (st.writeHashBestChain (getBlockHash pindexNew)) fun st =>
            andThen (st.txnCommit (outcomes.commitFails pindexNew)) fun st =>
              some (true,
                { st with mem := { st.mem with pnext := relink vDisconnect vConnect st.mem.pnext } })

/-! ## The best chain -/

/-- `TxnAbort` and `InvalidChainFound`. -/
def abandon (st : ChainState) (pindexNew : List CBlockIndex) : Option (Bool × ChainState) :=
  match st.txnAbort with
  | none => none
  | some (_, st) => some (false, st.writeDisk (outcomes.diskWrites pindexNew))

def setBestChainInner (st : ChainState) (block : CBlock) (pindexNew : List CBlockIndex) :
    Option (Bool × ChainState) :=
  let connected := andThen (st.connectBlock outcomes block pindexNew) fun st =>
    st.writeHashBestChain (env.blockHash block)
  match connected with
  | none => none
  | some (false, st) => abandon outcomes st pindexNew
  | some (true, st) =>
      andThen (st.txnCommit (outcomes.commitFails pindexNew)) fun st =>
        match pindexNew with
        | _ :: _ :: _ =>
            some (true, { st with mem := { st.mem with pnext := relink [] [pindexNew] st.mem.pnext } })
        | _ => none

/-- The loop over the postponed blocks, in the order in which they are connected. It ends at the first block
that fails, and does not say so. -/
def connectPostponed (st : ChainState) : List (List CBlockIndex) → Option ChainState
  | [] => some st
  | pindex :: rest =>
      match readBlockFromDisk env outcomes pindex with
      | none => some st
      | some block =>
          match st.txnBegin with
          | none => none
          | some (false, st) => some st
          | some (true, st) =>
              match setBestChainInner env outcomes st block pindex with
              | none => none
              | some (false, st) => some st
              | some (true, st) => connectPostponed st rest

/-- The end of `SetBestChain`. -/
def newBestBlock (st : ChainState) (hash : UInt256) (pindexNew : List CBlockIndex) :
    Option (Bool × ChainState) :=
  match pindexNew with
  | [] => none
  | pindex :: pprev =>
      some (true,
        { st with
          mem := { st.mem with
            hashBestChain := hash
            pindexBest := pindex :: pprev
            nBestHeight := pindex.nHeight
            nBestChainTrust := pindex.nChainTrust } })

def setBestChain (st : ChainState) (block : CBlock) (pindexNew : List CBlockIndex) :
    Option (Bool × ChainState) :=
  let hash := env.blockHash block
  andThen st.txnBegin fun st =>
    if st.mem.pindexGenesisBlock = [] ∧ hash = env.hashGenesisBlock then
      match st.writeHashBestChain hash with
      | none => none
      | some (_, st) =>
          andThen (st.txnCommit (outcomes.commitFails pindexNew)) fun st =>
            newBestBlock { st with mem := { st.mem with pindexGenesisBlock := pindexNew } } hash pindexNew
    else if block.hashPrevBlock = st.mem.hashBestChain then
      andThen (setBestChainInner env outcomes st block pindexNew) fun st =>
        newBestBlock st hash pindexNew
    else
      match st.mem.pindexBest with
      | [] => none
      | pindexBest :: _ =>
          match postpone pindexBest.nChainTrust pindexNew with
          | (vpindexSecondary, pindexIntermediate) =>
              match reorganize env outcomes st pindexIntermediate with
              | none => none
              | some (false, st) => abandon outcomes st pindexNew
              | some (true, st) =>
                  match connectPostponed env outcomes st vpindexSecondary.reverse with
                  | none => none
                  | some st => newBestBlock st hash pindexNew

end SetBestChain

end ProCurrency

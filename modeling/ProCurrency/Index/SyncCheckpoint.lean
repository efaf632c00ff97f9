import ProCurrency.Index.Node

/-!
# The rolling checkpoint

`AutoSelectSyncCheckpoint`, `AutoSelectSyncThinCheckpoint` and `CheckSync` (checkpoints.cpp), and `CBlock::AcceptBlock`
(main.cpp), of which the checks that are not about the block index are given. `none` is a null pointer that is followed.
-/

namespace ProCurrency

def nCheckpointSpan : Int := 500

/-- The loop of `AutoSelectSyncCheckpoint`, from the entry that it has reached. -/
def searchBack (nBestHeight : Int) : List CBlockIndex → List CBlockIndex
  | pindex :: pprev :: rest =>
      if nBestHeight < pindex.nHeight + nCheckpointSpan then searchBack nBestHeight (pprev :: rest)
      else pindex :: pprev :: rest
  | pindex => pindex

def autoSelectSyncCheckpoint (pindexBest : List CBlockIndex) : Option (List CBlockIndex) :=
  match pindexBest with
  | [] => none
  | best :: _ => some (searchBack best.nHeight pindexBest)

/-- The loop for a thin node reads the height of `pindexBest` too. -/
def autoSelectSyncThinCheckpoint (pindexBest : List CBlockIndex) :
    List CBlockThinIndex → Option (List CBlockThinIndex)
  | [] => none
  | [pindex] => some [pindex]
  | pindex :: pprev :: rest =>
      match pindexBest with
      | [] => none
      | best :: _ =>
          if best.nHeight < pindex.nHeight + nCheckpointSpan then
            autoSelectSyncThinCheckpoint pindexBest (pprev :: rest)
          else some (pindex :: pprev :: rest)

/-- `fFull` is `nNodeMode == NT_FULL`. -/
def checkSync (fFull : Bool) (pindexBest : List CBlockIndex) (pindexBestHeader : List CBlockThinIndex) (nHeight : Int) :
    Option Bool :=
  if fFull then
    match autoSelectSyncCheckpoint pindexBest with
    | some (pindexSync :: _) => some (pindexSync.nHeight < nHeight)
    | _ => none
  else
    match autoSelectSyncThinCheckpoint pindexBest pindexBestHeader with
    | some (pindexSync :: _) => some (pindexSync.nHeight < nHeight)
    | _ => none

/-- On a thin node, where `pindexBest` is null, the check ends in a null pointer after the genesis block. -/
theorem checkSync_thin (pindex pprev : CBlockThinIndex) (rest : List CBlockThinIndex) (nHeight : Int) :
    checkSync false [] (pindex :: pprev :: rest) nHeight = none := rfl

/-- What a call of `AcceptBlock` meets. -/
structure AcceptOutcomes extends BlockOutcomes where
  /-- The checks of the version, the times, the target, the transactions, the hardened checkpoints, the proof and the
  height in the coinbase. -/
  fChecked : Bool
  fReindexing : Bool
  /-- The block file. -/
  fWritten : Bool

namespace IndexNode

def acceptBlock (env : ChainEnv) (outcomes : AcceptOutcomes) (st : IndexNode) (block : CBlock) :
    Option (Bool × IndexNode) :=
  if st.mapBlockIndex (env.blockHash block) ≠ none then some (false, st)
  else
    match st.mapBlockIndex block.hashPrevBlock with
    | none => some (false, st)
    | some [] => none
    | some (pindexPrev :: _) =>
        if outcomes.fChecked = false then some (false, st)
        else
          match checkSync true st.mem.pindexBest [] (pindexPrev.nHeight + 1) with
          | none => none
          | some false => some (false, st)
          | some true =>
              if outcomes.fReindexing then some (true, st)
              else if outcomes.fWritten = false then some (false, st)
              else st.addToBlockIndex env outcomes.toBlockOutcomes block

end IndexNode

/-- One block that is given to `AcceptBlock`. -/
structure AcceptCall where
  block : CBlock
  outcomes : AcceptOutcomes

/-- `AcceptBlock` as a step of a node. -/
def AcceptCall.step (env : ChainEnv) (call : AcceptCall) (st : IndexNode) : Option (IndexNode × Bool) :=
  match st.acceptBlock env call.outcomes call.block with
  | none => none
  | some (ok, st') => some (st', ok)

end ProCurrency

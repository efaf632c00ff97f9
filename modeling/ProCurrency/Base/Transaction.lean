import ProCurrency.Codec.Serialize

/-!
# Transactions and blocks

`COutPoint`, `CTxIn`, `CTxOut` (core.h), `CTransaction`, `CDiskTxPos`, `CTxIndex` and `CBlock` (main.h).
-/

namespace ProCurrency

open ByteCodec

abbrev CScript := List UInt8

structure COutPoint where
  hash : UInt256
  n : UInt32
  deriving Repr, DecidableEq

namespace COutPoint

def null : COutPoint where
  hash := 0
  n := -1

def isNull (prevout : COutPoint) : Bool := prevout.hash = 0 && prevout.n = -1

end COutPoint

structure CTxIn where
  prevout : COutPoint
  scriptSig : CScript
  nSequence : UInt32
  deriving Repr, DecidableEq

def CTxIn.isFinal (txin : CTxIn) : Bool := txin.nSequence == -1

structure CTxOut where
  nValue : Int64
  scriptPubKey : CScript
  deriving Repr, DecidableEq

namespace CTxOut

def null : CTxOut where
  nValue := -1
  scriptPubKey := []

def isEmpty (txout : CTxOut) : Bool := txout.nValue = 0 && txout.scriptPubKey.isEmpty

def write (txout : CTxOut) : List UInt8 :=
  leBytes 8 txout.nValue.toUInt64.toNat ++ writeVector writeUChar txout.scriptPubKey

end CTxOut

structure CTransaction where
  nVersion : Int
  nTime : UInt32
  vin : List CTxIn
  vout : List CTxOut
  nLockTime : UInt32
  deriving Repr, DecidableEq

namespace CTransaction

def isCoinBase (tx : CTransaction) : Bool :=
  match tx.vin with
  | [txin] => txin.prevout.isNull && 1 ≤ tx.vout.length
  | _ => false

def isCoinStake (tx : CTransaction) : Bool :=
  match tx.vin, tx.vout with
  | txin :: _, txout :: _ :: _ => !txin.prevout.isNull && txout.isEmpty
  | _, _ => false

end CTransaction

structure CDiskTxPos where
  nFile : UInt32
  nBlockPos : UInt32
  nTxPos : UInt32
  deriving Repr, DecidableEq

structure CTxIndex where
  pos : CDiskTxPos
  vSpent : List CDiskTxPos
  deriving Repr, DecidableEq

structure CBlock where
  nVersion : Int
  hashPrevBlock : UInt256
  hashMerkleRoot : UInt256
  nTime : UInt32
  nBits : UInt32
  nNonce : UInt32
  vtx : List CTransaction
  vchBlockSig : List UInt8 := []
  deriving Repr, DecidableEq

namespace CBlock

def isProofOfStake (block : CBlock) : Bool :=
  match block.vtx with
  | _ :: tx :: _ => tx.isCoinStake
  | _ => false

end CBlock

end ProCurrency

/-!
## Block index entries

`CBlockIndex` and `CBlockThinIndex` (main.h). A pointer to an entry is the list of the entries from it
back to the genesis block: its tail is `pprev`, and `[]` is the null pointer. The defaults are those of
the constructor `CBlockIndex()`.
-/

namespace ProCurrency

structure CBlockIndex where
  hashBlock : UInt256 := 0
  nFile : UInt32 := 0
  nBlockPos : UInt32 := 0
  nChainTrust : UInt256 := 0
  nHeight : Int := 0
  nFlags : UInt32 := 0
  nStakeModifier : UInt64 := 0
  bnStakeModifierV2 : UInt256 := 0
  nTime : UInt32 := 0
  nBits : UInt32 := 0
  deriving Repr, DecidableEq

structure CBlockThinIndex where
  nHeight : Int
  nFlags : UInt32
  nTime : UInt32
  nBits : UInt32
  deriving Repr, DecidableEq

def BLOCK_PROOF_OF_STAKE : UInt32 := 1

def BLOCK_STAKE_MODIFIER : UInt32 := 4

namespace CBlockIndex

def isProofOfStake (b : CBlockIndex) : Bool := b.nFlags &&& BLOCK_PROOF_OF_STAKE != 0

def generatedStakeModifier (b : CBlockIndex) : Bool := b.nFlags &&& BLOCK_STAKE_MODIFIER != 0

def getBlockTime (b : CBlockIndex) : Int := b.nTime.toNat

/-- The entry that a thin node keeps for the same header. -/
def toThin (b : CBlockIndex) : CBlockThinIndex where
  nHeight := b.nHeight
  nFlags := b.nFlags
  nTime := b.nTime
  nBits := b.nBits

end CBlockIndex

namespace CBlockThinIndex

def isProofOfStake (b : CBlockThinIndex) : Bool := b.nFlags &&& BLOCK_PROOF_OF_STAKE != 0

def getBlockTime (b : CBlockThinIndex) : Int := b.nTime.toNat

end CBlockThinIndex

/-- `IsConfirmedInNPrevBlocks`, from the entry the walk has reached. -/
def isConfirmedInNPrevBlocks (txindex : CTxIndex) (pindexFrom : CBlockIndex) (nMaxDepth : Int) :
    List CBlockIndex → Option Int
  | [] => none
  | pindex :: pprev =>
      if nMaxDepth ≤ pindexFrom.nHeight - pindex.nHeight then none
      else if pindex.nBlockPos = txindex.pos.nBlockPos ∧ pindex.nFile = txindex.pos.nFile then
        some (pindexFrom.nHeight - pindex.nHeight)
      else isConfirmedInNPrevBlocks txindex pindexFrom nMaxDepth pprev

end ProCurrency

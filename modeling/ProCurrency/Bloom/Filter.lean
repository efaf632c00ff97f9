import ProCurrency.Connect.Store
import ProCurrency.Lib.BitStream
import ProCurrency.Lib.EventRun
import ProCurrency.Script.Destinations
import ProCurrency.Script.Interpreter

/-!
# Bloom filters

`MurmurHash3` (hash.cpp), `CBloomFilter` (bloom.cpp, bloom.h) and the messages `filterload`, `filteradd` and
`filterclear` (main.cpp). An operation is `none` where the code divides by zero.
-/

namespace ProCurrency

open ByteCodec

def MAX_BLOOM_FILTER_SIZE : Nat := 36000
def MAX_HASH_FUNCS : UInt32 := 50

def BLOOM_UPDATE_ALL : UInt8 := 1
def BLOOM_UPDATE_P2PUBKEY_ONLY : UInt8 := 2
def BLOOM_UPDATE_MASK : UInt8 := 3
def BLOOM_ACCEPT_STEALTH : UInt8 := 4

/-! ## MurmurHash3 -/

def rotl32 (x r : UInt32) : UInt32 := (x <<< r) ||| (x >>> (32 - r))

/-- What becomes of a block, or of the tail, before it goes into `h1`. -/
def mixBlock (k1 : UInt32) : UInt32 := rotl32 (k1 * 0xcc9e2d51) 15 * 0x1b873593

/-- The body and the tail. -/
def murmurBlocks (h1 : UInt32) : Bytes → UInt32
  | b0 :: b1 :: b2 :: b3 :: rest =>
      murmurBlocks (rotl32 (h1 ^^^ mixBlock (UInt32.ofNat (ofLeBytes [b0, b1, b2, b3]))) 13 * 5 + 0xe6546b64) rest
  | [] => h1
  | tail => h1 ^^^ mixBlock (UInt32.ofNat (ofLeBytes tail))

def murmurHash3 (nHashSeed : UInt32) (vDataToHash : Bytes) : UInt32 :=
  let h1 := murmurBlocks nHashSeed vDataToHash ^^^ UInt32.ofNat vDataToHash.length
  let h1 := (h1 ^^^ (h1 >>> 16)) * 0x85ebca6b
  let h1 := (h1 ^^^ (h1 >>> 13)) * 0xc2b2ae35
  h1 ^^^ (h1 >>> 16)

example : murmurHash3 0 [0x00, 0x11, 0x22, 0x33, 0x44, 0x55, 0x66, 0x77, 0x88] = 0xb4698def := by decide +kernel

/-! ## Filters -/

structure CBloomFilter where
  vData : Bytes
  isFull : Bool
  isEmpty : Bool
  nHashFuncs : UInt32
  nTweak : UInt32
  nFlags : UInt8
deriving DecidableEq

def COutPoint.write (outpoint : COutPoint) : Bytes := writeUInt256 outpoint.hash ++ leBytes 4 outpoint.n.toNat

namespace CBloomFilter

/-- `Hash`: the bit that a hash function gives to a key. -/
def hash (f : CBloomFilter) (nHashNum : Nat) (vDataToHash : Bytes) : Option Nat :=
  if f.vData.length * 8 = 0 then none
  else some ((murmurHash3 (UInt32.ofNat nHashNum * 0xFBA4C795 + f.nTweak) vDataToHash).toNat % (f.vData.length * 8))

/-- The loop of `insert` over the hash functions. -/
def setBits (f : CBloomFilter) (vKey : Bytes) : List Nat → Option CBloomFilter
  | [] => some f
  | i :: is =>
      match f.hash i vKey with
      | none => none
      | some nIndex => setBits { f with vData := BitMarks.mark f.vData nIndex } vKey is

def insert (f : CBloomFilter) (vKey : Bytes) : Option CBloomFilter :=
  if f.isFull then some f
  else (f.setBits vKey (List.range f.nHashFuncs.toNat)).map fun f => { f with isEmpty := false }

/-- The loop of `contains` over the hash functions. -/
def checkBits (f : CBloomFilter) (vKey : Bytes) : List Nat → Option Bool
  | [] => some true
  | i :: is =>
      match f.hash i vKey with
      | none => none
      | some nIndex => if !BitMarks.marked f.vData nIndex then some false else checkBits f vKey is

def contains (f : CBloomFilter) (vKey : Bytes) : Option Bool :=
  if f.isFull then some true
  else if f.isEmpty then some false
  else f.checkBits vKey (List.range f.nHashFuncs.toNat)

def isWithinSizeConstraints (f : CBloomFilter) : Bool :=
  f.vData.length ≤ MAX_BLOOM_FILTER_SIZE && f.nHashFuncs ≤ MAX_HASH_FUNCS

def updateEmptyFull (f : CBloomFilter) : CBloomFilter :=
  { f with isFull := f.vData.all (· == 0xff), isEmpty := f.vData.all (· == 0) }

end CBloomFilter

/-! ## Transactions -/

def CTransaction.getHash (c : ScriptCrypto) (tx : CTransaction) : UInt256 := c.hash tx.write

/-- The two opcodes of an output that `HasStealthOutput` looks for. -/
def CTxOut.isStealthOutput (txout : CTxOut) : Bool :=
  match CScript.getOp txout.scriptPubKey with
  | none => false
  | some (opCode, _, itScript) =>
      if opCode ≠ OP_RETURN then false
      else
        match CScript.getOp itScript with
        | none => false
        | some (_, vchEphemPK, _) => vchEphemPK.length = EC_COMPRESSED_SIZE

def CTransaction.hasStealthOutput (tx : CTransaction) : Bool :=
  tx.vout.any fun txout => !(tx.nVersion = ANON_TXN_VERSION && txout.isAnonOutput) && txout.isStealthOutput

namespace CBloomFilter

/-- Whether `fFound` is set after the data of an opcode of an output. -/
def findData (c : ScriptCrypto) (f : CBloomFilter) (fFound : Bool) (data : Bytes) : Option Bool := do
  let fFound ←
    if data.length = 33 ∧ (c.hash160 data).length ≠ 0 then do
      let found ← f.contains (c.hash160 data)
      pure (fFound || found)
    else pure fFound
  if !fFound && data.length ≠ 0 then f.contains data else pure fFound

/-- The loop over the opcodes of an output. Whether it comes to the update, after which it ends. -/
def scanOutput (c : ScriptCrypto) (f : CBloomFilter) (fFound : Bool) : Nat → CScript → Option Bool
  | 0, _ => some false
  | rounds + 1, pc =>
      match CScript.getOp pc with
      | none => some false
      | some (_, data, pc) =>
          match f.findData c fFound data with
          | none => none
          | some true => some true
          | some false => scanOutput c f false rounds pc

/-- Whether the flags ask for the outpoint of an output that is found. -/
def updates (f : CBloomFilter) (scriptPubKey : CScript) : Option Bool :=
  if f.nFlags &&& BLOOM_UPDATE_MASK = BLOOM_UPDATE_ALL then some true
  else if f.nFlags &&& BLOOM_UPDATE_MASK = BLOOM_UPDATE_P2PUBKEY_ONLY then
    (solver scriptPubKey).map fun (solved, type, _) => solved && (type = .pubKey || type = .multisig)
  else some false

/-- What the loop over the outputs leaves, with the outputs whose outpoints it inserts. -/
structure OutputScan where
  filter : CBloomFilter
  fFound : Bool
  inserted : List Nat

def scanOutputs (c : ScriptCrypto) (hash : UInt256) (i : Nat) (f : CBloomFilter) (fFound : Bool) :
    List CTxOut → Option OutputScan
  | [] => some { filter := f, fFound, inserted := [] }
  | txout :: vout => do
      if ← f.scanOutput c fFound txout.scriptPubKey.length txout.scriptPubKey then
        if ← f.updates txout.scriptPubKey then
          let f ← f.insert (COutPoint.write { hash, n := UInt32.ofNat i })
          let rest ← scanOutputs c hash (i + 1) f true vout
          return { rest with inserted := i :: rest.inserted }
        else scanOutputs c hash (i + 1) f true vout
      else scanOutputs c hash (i + 1) f fFound vout

/-- The loop over the opcodes of an input. -/
def scanInput (f : CBloomFilter) : Nat → CScript → Option Bool
  | 0, _ => some false
  | rounds + 1, pc =>
      match CScript.getOp pc with
      | none => some false
      | some (_, data, pc) => do
          if data.length ≠ 0 then
            if ← f.contains data then return true
            scanInput f rounds pc
          else scanInput f rounds pc

def scanInputs (f : CBloomFilter) : List CTxIn → Option Bool
  | [] => some false
  | txin :: vin => do
      if ← f.contains txin.prevout.write then return true
      if ← f.scanInput txin.scriptSig.length txin.scriptSig then return true
      scanInputs f vin

/-- What `IsRelevantAndUpdate` leaves and returns. -/
structure Tested where
  filter : CBloomFilter
  relevant : Bool
  inserted : List Nat := []
deriving DecidableEq

/-- Whether the transaction matches before its outputs are looked at. -/
def findHash (c : ScriptCrypto) (f : CBloomFilter) (tx : CTransaction) : Option Bool :=
  if f.nFlags &&& BLOOM_ACCEPT_STEALTH ≠ 0 ∧ tx.hasStealthOutput then some true
  else f.contains (writeUInt256 (tx.getHash c))

def isRelevantAndUpdate (c : ScriptCrypto) (f : CBloomFilter) (tx : CTransaction) : Option Tested :=
  if f.isFull then some { filter := f, relevant := true }
  else if f.isEmpty then some { filter := f, relevant := false }
  else do
    let fFound ← f.findHash c tx
    let scan ← scanOutputs c (tx.getHash c) 0 f fFound tx.vout
    if scan.fFound then return { filter := scan.filter, relevant := true, inserted := scan.inserted }
    let relevant ← scan.filter.scanInputs tx.vin
    return { filter := scan.filter, relevant, inserted := scan.inserted }

end CBloomFilter

/-! ## Messages -/

def NT_FULL : Nat := 1
def NT_THIN : Nat := 2
def NT_UNKNOWN : Nat := 3

def THIN_SUPPORT : UInt64 := 2
def THIN_STEALTH : UInt64 := 8

/-- What the node offers, and when it drops a peer. -/
structure FilterEnv where
  nLocalServices : UInt64
  banscore : Int

/-- The fields of a `CNode` that the messages use. -/
structure FilterNode where
  fLocal : Bool
  nTypeInd : Nat
  nMisbehavior : Int
  fDisconnect : Bool
  fRelayTxes : Bool
  pfilter : Option CBloomFilter
deriving DecidableEq

namespace FilterNode

/-- `Misbehaving`, without the ban of the address. -/
def misbehaving (env : FilterEnv) (node : FilterNode) (howmuch : Int) : FilterNode :=
  if node.fLocal then node
  else
    { node with
      nMisbehavior := node.nMisbehavior + howmuch
      fDisconnect := node.fDisconnect || node.nMisbehavior + howmuch ≥ env.banscore }

def setNodeType (env : FilterEnv) (node : FilterNode) (nTypeInd : Nat) : Bool × FilterNode :=
  if nTypeInd < NT_FULL ∨ NT_UNKNOWN ≤ nTypeInd then (false, { node with fDisconnect := true })
  else if nTypeInd ≠ NT_FULL ∧ env.nLocalServices &&& THIN_SUPPORT = 0 then (false, { node with fDisconnect := true })
  else (true, { node with nTypeInd })

/-- "full nodes won't use filters, if a node does it is NT_THIN" -/
def becomeThin (env : FilterEnv) (node : FilterNode) : Bool × FilterNode :=
  if node.nTypeInd = NT_FULL then node.setNodeType env NT_THIN else (true, node)

/-- `filterload`. A filter that is read is full, and what `isEmpty` is does not matter. -/
def filterload (env : FilterEnv) (node : FilterNode) (vData : Bytes) (nHashFuncs nTweak : UInt32) (nFlags : UInt8) :
    Bool × FilterNode :=
  let (fThin, node) := node.becomeThin env
  if !fThin then (false, node)
  else
    let filter : CBloomFilter := { vData, isFull := true, isEmpty := false, nHashFuncs, nTweak, nFlags }
    let (filter, node) :=
      if !filter.isWithinSizeConstraints then (filter, node.misbehaving env 100)
      else if filter.nFlags &&& BLOOM_ACCEPT_STEALTH ≠ 0 ∧ env.nLocalServices &&& THIN_STEALTH = 0 then
        ({ filter with nFlags := filter.nFlags &&& ~~~BLOOM_ACCEPT_STEALTH }, node)
      else (filter, node)
    (true, { node with pfilter := some filter.updateEmptyFull, fRelayTxes := true })

def filteradd (env : FilterEnv) (node : FilterNode) (vData : Bytes) : Option (Bool × FilterNode) :=
  let (fThin, node) := node.becomeThin env
  if !fThin then some (false, node)
  else if vData.length > MAX_SCRIPT_ELEMENT_SIZE then some (true, node.misbehaving env 100)
  else
    match node.pfilter with
    | none => some (true, node.misbehaving env 100)
    | some filter => do
        if ← filter.contains vData then return (true, node)
        let filter ← filter.insert vData
        return (true, { node with pfilter := some filter.updateEmptyFull })

def filterclear (node : FilterNode) : FilterNode := { node with pfilter := none, fRelayTxes := true }

/-- A test of a transaction, which is made where there is a filter. -/
def test (c : ScriptCrypto) (node : FilterNode) (tx : CTransaction) : Option (FilterNode × Option CBloomFilter.Tested) :=
  match node.pfilter with
  | none => some (node, none)
  | some filter => do
      let tested ← filter.isRelevantAndUpdate c tx
      return ({ node with pfilter := some tested.filter }, some tested)

end FilterNode

end ProCurrency

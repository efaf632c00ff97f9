import Mathlib.Algebra.Group.Basic
import ProCurrency.Base.BigNum
import ProCurrency.Codec.Serialize

/-!
# Ring signatures

The two verification functions of ringsig.cpp. The curve of OpenSSL is a commutative group with its
encodings as parameters, and so is the hash of `CHashWriter` and `Hash`. Allocation does not fail. The
byte arrays are as long as the callers have checked. The results are those of the source: 0 is accepted, 1
is an error, 2 is a signature that does not verify.
-/

namespace ProCurrency

def EC_SECRET_SIZE : Nat := 32

def EC_COMPRESSED_SIZE : Nat := 33

/-- `ringsigType`. -/
inductive RingSigType where
  | RING_SIG_1
  | RING_SIG_2
  deriving Repr, DecidableEq

/-- What ringsig.cpp takes from elsewhere. -/
structure RingSigEnv (G : Type) where
  generator : G
  bnOrder : Nat
  oct2point : List UInt8 → Option G
  point2oct : G → List UInt8
  /-- The point with this x-coordinate and an even y-coordinate. -/
  setCompressedCoordinates : Nat → Option G
  hash : List UInt8 → UInt256
  /-- `Params().IsProtocolVFork1(nBestHeight)`. -/
  fVFork1 : Bool

/-- The part `i` of an array of parts. -/
def partOf (p : List UInt8) (size i : Nat) : List UInt8 := (p.drop (i * size)).take size

def bin2bn (p : List UInt8) : Nat := CBigNum.ofBeBytes p

/-- `BN_mod_sub`. -/
def bnModSub (a b m : Nat) : Int := ((a : Int) - b) % m

namespace RingSigEnv

variable {G : Type} (env : RingSigEnv G)

/-- A hash as the source reads it: `BN_bin2bn(hash.begin(), 32)`. -/
def hashToBn (p : List UInt8) : Nat := bin2bn (writeUInt256 (env.hash p))

/-- `EC_POINT_bn2point` of `BN_bin2bn`: leading zero bytes are lost on the way. -/
def bin2point (p : List UInt8) : Option G :=
  match p.dropWhile (· = 0) with
  | [] => none
  | b :: p => env.oct2point (b :: p)

def point2oct33 (pt : G) : Option (List UInt8) :=
  let oct := env.point2oct pt
  if oct.length = EC_COMPRESSED_SIZE then some oct else none

/-- The loop of `hashToEC`, with the tries that are left. -/
def firstPointFrom : Nat → Nat → Option G
  | 0, _ => none
  | count + 1, bnTmp =>
      match env.setCompressedCoordinates bnTmp with
      | some pt => some pt
      | none => firstPointFrom count (bnTmp + 1)

variable [AddCommGroup G]

def hashToEC (p : List UInt8) (fNew : Bool) : Option G :=
  let bnTmp := env.hashToBn p
  if fNew || env.fVFork1 then env.firstPointFrom 100 bnTmp
  else some (bnTmp • env.generator)

/-! ## The first scheme -/

/-- One round of `verifyRingSignature`: the challenge of the member, and its points `L` and `R`. -/
def ringMember (ptKi : G) (pPubkeys pSigc pSigr : List UInt8) (i : Nat) : Option (Nat × List UInt8) := do
  let bnC := bin2bn (partOf pSigc EC_SECRET_SIZE i)
  let bnR := bin2bn (partOf pSigr EC_SECRET_SIZE i)
  let ptPk ← env.bin2point (partOf pPubkeys EC_COMPRESSED_SIZE i)
  let ptL := bnC • ptPk + bnR • env.generator
  let ptT3 ← env.hashToEC (partOf pPubkeys EC_COMPRESSED_SIZE i) false
  let ptR := bnC • ptKi + bnR • ptT3
  let octL ← env.point2oct33 ptL
  let octR ← env.point2oct33 ptR
  return (bnC, octL ++ octR)

/-- What the rounds add up: the challenges, and the bytes that go into the hash. -/
structure RingSum where
  bnSum : Nat
  ssCommitHash : List UInt8

/-- The rounds of `verifyRingSignature`, for the members that are left. -/
def ringRounds (bnOrder : Nat) (member : Nat → Option (Nat × List UInt8)) :
    List Nat → RingSum → Option RingSum
  | [], s => some s
  | i :: is, s =>
      match member i with
      | none => none
      | some (bnC, tempData) =>
          ringRounds bnOrder member is
            { bnSum := (s.bnSum + bnC) % bnOrder, ssCommitHash := s.ssCommitHash ++ tempData }

def verifyRingSignature (keyImage : List UInt8) (txnHash : UInt256) (nRingSize : Nat)
    (pPubkeys pSigc pSigr : List UInt8) : Nat :=
  match env.oct2point (keyImage.take EC_COMPRESSED_SIZE) with
  | none => 1
  | some ptKi =>
      match ringRounds env.bnOrder (env.ringMember ptKi pPubkeys pSigc pSigr) (List.range nRingSize)
        { bnSum := 0, ssCommitHash := writeUInt256 txnHash } with
      | none => 1
      | some s =>
          let bnH := env.hashToBn s.ssCommitHash % env.bnOrder
          if bnModSub bnH s.bnSum env.bnOrder = 0 then 0 else 2

/-! ## The second scheme -/

/-- One round of `verifyRingSignatureAB`: the next challenge. -/
def ringMemberAB (ptKi : G) (tmpPkHash : UInt256) (pPubkeys pSigS : List UInt8) (i bnC : Nat) :
    Option Nat := do
  let bnS := bin2bn (partOf pSigS EC_SECRET_SIZE i)
  let ptPk ← env.oct2point (partOf pPubkeys EC_COMPRESSED_SIZE i)
  let octE ← env.point2oct33 (bnS • env.generator + bnC • ptPk)
  let ptT2 ← env.hashToEC (partOf pPubkeys EC_COMPRESSED_SIZE i) false
  let octF ← env.point2oct33 (bnS • ptT2 + bnC • ptKi)
  return env.hashToBn (writeUInt256 tmpPkHash ++ (octE ++ octF)) % env.bnOrder

/-- The rounds of `verifyRingSignatureAB`, for the members that are left. -/
def ringRoundsAB (member : Nat → Nat → Option Nat) : List Nat → Nat → Option Nat
  | [], bnC => some bnC
  | i :: is, bnC =>
      match member i bnC with
      | none => none
      | some bnC => ringRoundsAB member is bnC

/-- `verifyRingSignatureAB`. The hash of the transaction is a parameter that the function never reads. -/
def verifyRingSignatureAB (keyImage : List UInt8) (_txnHash : UInt256) (nRingSize : Nat)
    (pPubkeys sigC pSigS : List UInt8) : Nat :=
  if sigC.length ≠ EC_SECRET_SIZE then 1
  else if keyImage.length ≠ EC_COMPRESSED_SIZE then 1
  else
    let tmpPkHash := env.hash ((List.range nRingSize).flatMap fun i => partOf pPubkeys EC_COMPRESSED_SIZE i)
    match env.oct2point (keyImage.take EC_COMPRESSED_SIZE) with
    | none => 1
    | some ptKi =>
        let bnC1 := bin2bn sigC
        match ringRoundsAB (env.ringMemberAB ptKi tmpPkHash pPubkeys pSigS) (List.range nRingSize) bnC1 with
        | none => 1
        | some bnC => if bnModSub bnC bnC1 env.bnOrder = 0 then 0 else 2

end RingSigEnv

/-! ## Both schemes -/

/-- A key image, a ring and a signature: the challenges and the responses, or one challenge and the
responses. -/
structure RingSignature where
  keyImage : List UInt8
  nRingSize : Nat
  pPubkeys : List UInt8
  sigC : List UInt8
  sigR : List UInt8

def RingSigEnv.verify {G : Type} [AddCommGroup G] (env : RingSigEnv G) (type : RingSigType)
    (sig : RingSignature) (txnHash : UInt256) : Nat :=
  match type with
  | .RING_SIG_1 =>
      env.verifyRingSignature sig.keyImage txnHash sig.nRingSize sig.pPubkeys sig.sigC sig.sigR
  | .RING_SIG_2 =>
      env.verifyRingSignatureAB sig.keyImage txnHash sig.nRingSize sig.pPubkeys sig.sigC sig.sigR

/-!
## Making ring signatures

`generateKeyImage`, `generateRingSignature`, `generateRingSignatureAB` (ringsig.cpp) and `GenerateRandomSecret`
(stealth.cpp). `none` as a result is one that is not zero. A signature array is the list of its parts; a part is
zero until it is written.
-/

/-! ## Secrets -/

/-- `ec_secret`. -/
abbrev EcSecret := { e : List UInt8 // e.length = EC_SECRET_SIZE }

namespace EcSecret

def zero : EcSecret := ⟨List.replicate EC_SECRET_SIZE 0, List.length_replicate⟩

def bn (s : EcSecret) : Nat := bin2bn s.val

/-- `BN_bn2bin` to the end of a part, when the number is not too long for it. -/
def ofBn (n : Nat) : Option EcSecret :=
  if n < 256 ^ EC_SECRET_SIZE then some ⟨CBigNum.beBytes EC_SECRET_SIZE n, CBigNum.length_beBytes _ n⟩ else none

end EcSecret

def sigBytes (parts : List EcSecret) : List UInt8 := parts.flatMap Subtype.val

def MIN_SECRET : UInt256 := 16000

def MAX_SECRET : UInt256 := 0xfffffffffffffffffffffffffffffffebaaedce6af48a03bbfd25e8cd0364140

/-- The tries of `GenerateRandomSecret` that are left. -/
def randomSecretFrom (RAND_bytes : Nat → Option UInt256) (i : Nat) : Nat → Option EcSecret
  | 0 => none
  | tries + 1 =>
      match RAND_bytes i with
      | none => none
      | some test =>
          if MIN_SECRET < test ∧ test < MAX_SECRET then
            some ⟨writeUInt256 test, ByteCodec.length_leBytes _ _⟩
          else randomSecretFrom RAND_bytes (i + 1) tries

def generateRandomSecret (RAND_bytes : Nat → Option UInt256) : Option EcSecret :=
  randomSecretFrom RAND_bytes 0 32

/-- What `RAND_bytes` gives at each try: for `ks` or `alpha`, and for the two secrets of each other member. -/
structure RingRandom where
  own : Nat → Option UInt256
  k1 : Nat → Nat → Option UInt256
  k2 : Nat → Nat → Option UInt256

namespace RingSigEnv

variable {G : Type} (env : RingSigEnv G) [AddCommGroup G]

/-! ## Key images -/

/-- `generateKeyImage`. The point goes through a big number, which loses leading zero bytes. -/
def generateKeyImage (publicKey : List UInt8) (secret : EcSecret) : Option (List UInt8) :=
  if publicKey.length ≠ EC_COMPRESSED_SIZE then none
  else do
    let hG ← env.hashToEC publicKey true
    let keyImage := (env.point2oct (secret.bn • hG)).dropWhile (· = 0)
    if keyImage.length = EC_COMPRESSED_SIZE then some keyImage else none

/-! ## The first scheme -/

/-- What the rounds of `generateRingSignature` leave. -/
structure SignSum where
  pSigc : List EcSecret
  pSigr : List EcSecret
  bnSum : Nat
  ssCommitHash : List UInt8

/-- One round of `generateRingSignature`. -/
def signMember (rand : RingRandom) (nSecretOffset bnKS : Nat) (ptKi : G) (pPubkeys : List UInt8) (i : Nat)
    (s : SignSum) : Option SignSum :=
  if i = nSecretOffset then do
    let ptT1 ← env.hashToEC (partOf pPubkeys EC_COMPRESSED_SIZE i) false
    let octL ← env.point2oct33 (bnKS • env.generator)
    let octR ← env.point2oct33 (bnKS • ptT1)
    return { s with
      pSigc := s.pSigc ++ [EcSecret.zero]
      pSigr := s.pSigr ++ [EcSecret.zero]
      ssCommitHash := s.ssCommitHash ++ (octL ++ octR) }
  else do
    let scData1 ← generateRandomSecret (rand.k1 i)
    let scData2 ← generateRandomSecret (rand.k2 i)
    let bnK1 := scData1.bn
    let bnK2 := scData2.bn
    let ptPk ← env.bin2point (partOf pPubkeys EC_COMPRESSED_SIZE i)
    let ptL := bnK1 • ptPk + bnK2 • env.generator
    let ptT3 ← env.hashToEC (partOf pPubkeys EC_COMPRESSED_SIZE i) false
    let ptR := bnK1 • ptKi + bnK2 • ptT3
    let octL ← env.point2oct33 ptL
    let octR ← env.point2oct33 ptR
    return {
      pSigc := s.pSigc ++ [scData1]
      pSigr := s.pSigr ++ [scData2]
      bnSum := (s.bnSum + bnK1) % env.bnOrder
      ssCommitHash := s.ssCommitHash ++ (octL ++ octR) }

/-- The rounds for the members that are left. -/
def signRounds (member : Nat → SignSum → Option SignSum) : List Nat → SignSum → Option SignSum
  | [], s => some s
  | i :: is, s =>
      match member i s with
      | none => none
      | some s => signRounds member is s

def generateRingSignature (rand : RingRandom) (keyImage : List UInt8) (txnHash : UInt256)
    (nRingSize nSecretOffset : Nat) (secret : EcSecret) (pPubkeys : List UInt8) :
    Option (List UInt8 × List UInt8) := do
  let scData1 ← generateRandomSecret rand.own
  let bnKS := scData1.bn
  let ptKi ← env.oct2point (keyImage.take EC_COMPRESSED_SIZE)
  let s ← signRounds (env.signMember rand nSecretOffset bnKS ptKi pPubkeys) (List.range nRingSize)
    { pSigc := [], pSigr := [], bnSum := 0, ssCommitHash := writeUInt256 txnHash }
  let bnH := env.hashToBn s.ssCommitHash % env.bnOrder
  let bnC := (bnModSub bnH s.bnSum env.bnOrder).toNat
  let sigc ← EcSecret.ofBn bnC
  let sigr ← EcSecret.ofBn (bnModSub bnKS (bnC * secret.bn) env.bnOrder).toNat
  return (sigBytes (s.pSigc.set nSecretOffset sigc), sigBytes (s.pSigr.set nSecretOffset sigr))

/-! ## The second scheme -/

/-- The random parts of `pSigS`. -/
def randomParts (rand : RingRandom) (nSecretOffset : Nat) : List Nat → Option (List EcSecret)
  | [] => some []
  | i :: is =>
      match if i = nSecretOffset then some EcSecret.zero else generateRandomSecret (rand.k1 i) with
      | none => none
      | some part =>
          match randomParts rand nSecretOffset is with
          | none => none
          | some parts => some (part :: parts)

/-- The state of the loop of `generateRingSignatureAB`. -/
structure SignAB where
  pSigS : List EcSecret
  sigC : List UInt8
  bnC : Nat
  bnCj : Nat

/-- The response of the member that signs. -/
def closeAB (nSecretOffset bnA : Nat) (secret : EcSecret) (st : SignAB) : Option SignAB := do
  let bnS ← EcSecret.ofBn (bnModSub bnA (st.bnCj * secret.bn) env.bnOrder).toNat
  return { st with pSigS := st.pSigS.set nSecretOffset bnS }

/-- The rest of a round, which makes the challenge of the member `i` as the verification does. -/
def signRoundAB (nSecretOffset : Nat) (ptKi : G) (tmpPkHash : UInt256) (pPubkeys : List UInt8) (ib i : Nat)
    (st : SignAB) : Option SignAB := do
  let bnC ← env.ringMemberAB ptKi tmpPkHash pPubkeys (sigBytes st.pSigS) ib st.bnC
  let bnCj := if i = nSecretOffset then bnC else st.bnCj
  let sigC ← if i = 0 then (EcSecret.ofBn bnC).map Subtype.val else some st.sigC
  return { st with sigC, bnC, bnCj }

/-- The rounds that are left, from the round `k` on. -/
def signRoundsAB (nRingSize nSecretOffset bnA : Nat) (secret : EcSecret) (ptKi : G) (tmpPkHash : UInt256)
    (pPubkeys : List UInt8) : Nat → Nat → Nat → Nat → SignAB → Option SignAB
  | _, _, _, 0, st => some st
  | k, ib, i, rounds + 1, st =>
      match if k = nRingSize - 1 then env.closeAB nSecretOffset bnA secret st else some st with
      | none => none
      | some st =>
          if k = nRingSize - 1 ∧ nSecretOffset ≠ nRingSize - 1 then some st
          else
            match env.signRoundAB nSecretOffset ptKi tmpPkHash pPubkeys ib i st with
            | none => none
            | some st =>
                signRoundsAB nRingSize nSecretOffset bnA secret ptKi tmpPkHash pPubkeys (k + 1) i
                  ((i + 1) % nRingSize) rounds st

/-- `generateRingSignatureAB`. It does not read the hash of the transaction either. -/
def generateRingSignatureAB (rand : RingRandom) (keyImage : List UInt8) (_txnHash : UInt256)
    (nRingSize nSecretOffset : Nat) (secret : EcSecret) (pPubkeys : List UInt8) :
    Option (List UInt8 × List UInt8) :=
  if 200 ≤ nRingSize then none
  else do
    let sAlpha ← generateRandomSecret rand.own
    let pSigS ← randomParts rand nSecretOffset (List.range nRingSize)
    let tmpPkHash := env.hash ((List.range nRingSize).flatMap fun i => partOf pPubkeys EC_COMPRESSED_SIZE i)
    let ptKi ← env.oct2point (keyImage.take EC_COMPRESSED_SIZE)
    let bnA := sAlpha.bn
    let ptT3 ← env.hashToEC (partOf pPubkeys EC_COMPRESSED_SIZE nSecretOffset) false
    let octL ← env.point2oct33 (bnA • env.generator)
    let octR ← env.point2oct33 (bnA • ptT3)
    let bnC := env.hashToBn (writeUInt256 tmpPkHash ++ (octL ++ octR)) % env.bnOrder
    let st ← env.signRoundsAB nRingSize nSecretOffset bnA secret ptKi tmpPkHash pPubkeys 0
      ((nSecretOffset + 1) % nRingSize) ((nSecretOffset + 2) % nRingSize) nRingSize
      { pSigS, sigC := [], bnC, bnCj := 0 }
    return (st.sigC, sigBytes st.pSigS)

end RingSigEnv

end ProCurrency

import ProCurrency.Base.BigNum

/-!
# Chain parameters

The fork heights and the proof limits of the three networks (chainparams.h, chainparams.cpp). What a
network's constructor does not set is zero, since the parameter objects are static.
-/

namespace ProCurrency

def COIN : Int := 100000000

def CENT : Int64 := 1000000

/-- 75000000000 coins. -/
def MAX_MONEY : Int64 := 7500000000000000000

structure CChainParams where
  nStartPosv2Block : Int
  nStartPosvFork1Block : Int
  nStartPosvFork2Block : Int
  bnProofOfWorkLimit : CBigNum
  bnProofOfStakeLimit : CBigNum
  bnProofOfStakeLimitV2 : CBigNum
  bnProofOfStakeLimitVFork1 : CBigNum
  bnProofOfStakeLimitVFork2 : CBigNum

namespace CChainParams

def isProtocolV1 (params : CChainParams) (nHeight : Int) : Bool := nHeight < params.nStartPosv2Block

def isProtocolV2 (params : CChainParams) (nHeight : Int) : Bool := nHeight > params.nStartPosv2Block

def isProtocolVFork1 (params : CChainParams) (nHeight : Int) : Bool :=
  nHeight > params.nStartPosvFork1Block

def isProtocolVFork2 (params : CChainParams) (nHeight : Int) : Bool :=
  nHeight > params.nStartPosvFork2Block

def proofOfWorkLimit (params : CChainParams) : CBigNum := params.bnProofOfWorkLimit

def proofOfStakeLimit (params : CChainParams) (nHeight : Int) : CBigNum :=
  if params.isProtocolV2 nHeight then params.bnProofOfStakeLimitV2 else params.bnProofOfStakeLimit

def proofOfStakeLimitVFork2 (params : CChainParams) (nHeight : Int) : CBigNum :=
  if params.isProtocolVFork2 nHeight then params.bnProofOfStakeLimitVFork2
  else params.bnProofOfStakeLimitVFork1

/-- `~uint256(0) >> n`. -/
def limitShiftedBy (n : Nat) : CBigNum := ((2 ^ 256 - 1) / 2 ^ n : Nat)

def mainParams : CChainParams where
  nStartPosv2Block := 920
  nStartPosvFork1Block := 30000
  nStartPosvFork2Block := 440000
  bnProofOfWorkLimit := limitShiftedBy 20
  bnProofOfStakeLimit := limitShiftedBy 20
  bnProofOfStakeLimitV2 := limitShiftedBy 34
  bnProofOfStakeLimitVFork1 := limitShiftedBy 34
  bnProofOfStakeLimitVFork2 := limitShiftedBy 40

def testNetParams : CChainParams where
  nStartPosv2Block := 2000
  nStartPosvFork1Block := 3000
  nStartPosvFork2Block := 0
  bnProofOfWorkLimit := limitShiftedBy 16
  bnProofOfStakeLimit := limitShiftedBy 20
  bnProofOfStakeLimitV2 := limitShiftedBy 16
  bnProofOfStakeLimitVFork1 := 0
  bnProofOfStakeLimitVFork2 := 0

def regTestParams : CChainParams where
  nStartPosv2Block := -1
  nStartPosvFork1Block := -1
  nStartPosvFork2Block := 0
  bnProofOfWorkLimit := limitShiftedBy 1
  bnProofOfStakeLimit := limitShiftedBy 20
  bnProofOfStakeLimitV2 := limitShiftedBy 16
  bnProofOfStakeLimitVFork1 := 0
  bnProofOfStakeLimitVFork2 := 0

end CChainParams

/-- `CChainParams::Network`. -/
inductive Network where
  | main
  | testnet
  | regtest
  deriving Repr, DecidableEq

/-- `Params()` after `SelectParams`. -/
def Network.params : Network → CChainParams
  | .main => .mainParams
  | .testnet => .testNetParams
  | .regtest => .regTestParams

end ProCurrency

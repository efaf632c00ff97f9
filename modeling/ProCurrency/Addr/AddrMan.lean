import Mathlib.Data.Finset.Sort
import Mathlib.Data.Fintype.Card
import ProCurrency.Codec.Serialize
import ProCurrency.Lib.SwapIndex

/-!
# Addresses and the address manager

`CNetAddr` and `CService` (netbase.h, netbase.cpp) and `CAddress` (protocol.h), as far as the address manager uses
them.
-/

namespace ProCurrency

/-- The 16 bytes `ip`, in network byte order. -/
abbrev CNetAddr := Vector UInt8 16

structure CService where
  addr : CNetAddr
  port : UInt16
deriving DecidableEq

structure CAddress extends CService where
  nServices : UInt64
  nTime : UInt32
  nLastTry : Int := 0
deriving DecidableEq

/-- `CAddress()`. -/
def CAddress.null : CAddress where
  addr := Vector.replicate 16 0
  port := 0
  nServices := 1
  nTime := 100000000

def NET_UNROUTABLE : UInt8 := 0

def NET_IPV4 : UInt8 := 1

def NET_IPV6 : UInt8 := 2

def NET_TOR : UInt8 := 3

def NET_I2P : UInt8 := 4

def pchIPv4 : List UInt8 := [0, 0, 0, 0, 0, 0, 0, 0, 0, 0, 0xff, 0xff]

def pchOnionCat : List UInt8 := [0xFD, 0x87, 0xD8, 0x7E, 0xEB, 0x43]

def pchGarliCat : List UInt8 := [0xFD, 0x60, 0xDB, 0x4D, 0xDD, 0xB5]

namespace CNetAddr

variable (ip : CNetAddr)

def getByte (n : Nat) : UInt8 := ip.toList.getD (15 - n) 0

/-- `memcmp` with the bytes, from the given place on. -/
def startsWith (vch : List UInt8) (n : Nat := 0) : Bool := (ip.toList.drop n).take vch.length == vch

def isIPv4 : Bool := startsWith ip pchIPv4

def isTor : Bool := startsWith ip pchOnionCat

def isI2P : Bool := startsWith ip pchGarliCat

def isRFC1918 : Bool :=
  isIPv4 ip && (getByte ip 3 == 10 || (getByte ip 3 == 192 && getByte ip 2 == 168) ||
    (getByte ip 3 == 172 && (getByte ip 2 ≥ 16 && getByte ip 2 ≤ 31)))

def isRFC2544 : Bool := isIPv4 ip && getByte ip 3 == 198 && (getByte ip 2 == 18 || getByte ip 2 == 19)

def isRFC3927 : Bool := isIPv4 ip && (getByte ip 3 == 169 && getByte ip 2 == 254)

def isRFC6598 : Bool := isIPv4 ip && getByte ip 3 == 100 && getByte ip 2 ≥ 64 && getByte ip 2 ≤ 127

def isRFC5737 : Bool :=
  isIPv4 ip && ((getByte ip 3 == 192 && getByte ip 2 == 0 && getByte ip 1 == 2) ||
    (getByte ip 3 == 198 && getByte ip 2 == 51 && getByte ip 1 == 100) ||
    (getByte ip 3 == 203 && getByte ip 2 == 0 && getByte ip 1 == 113))

def isRFC3849 : Bool :=
  getByte ip 15 == 0x20 && getByte ip 14 == 0x01 && getByte ip 13 == 0x0D && getByte ip 12 == 0xB8

def isRFC3964 : Bool := getByte ip 15 == 0x20 && getByte ip 14 == 0x02

def isRFC6052 : Bool := startsWith ip [0, 0x64, 0xFF, 0x9B, 0, 0, 0, 0, 0, 0, 0, 0]

def isRFC4380 : Bool := getByte ip 15 == 0x20 && getByte ip 14 == 0x01 && getByte ip 13 == 0 && getByte ip 12 == 0

def isRFC4862 : Bool := startsWith ip [0xFE, 0x80, 0, 0, 0, 0, 0, 0]

def isRFC4193 : Bool := (getByte ip 15 &&& 0xFE) == 0xFC

def isRFC6145 : Bool := startsWith ip [0, 0, 0, 0, 0, 0, 0, 0, 0xFF, 0xFF, 0, 0]

def isRFC4843 : Bool :=
  getByte ip 15 == 0x20 && getByte ip 14 == 0x01 && getByte ip 13 == 0x00 && (getByte ip 12 &&& 0xF0) == 0x10

def isLocal : Bool :=
  (isIPv4 ip && (getByte ip 3 == 127 || getByte ip 3 == 0)) ||
    startsWith ip [0, 0, 0, 0, 0, 0, 0, 0, 0, 0, 0, 0, 0, 0, 0, 1]

def isValid : Bool :=
  !(startsWith ip (pchIPv4.drop 3)) && !(startsWith ip (List.replicate 16 0)) && !(isRFC3849 ip) &&
    !(isIPv4 ip && (startsWith ip (List.replicate 4 0xFF) 12 || startsWith ip (List.replicate 4 0) 12))

def isRoutable : Bool :=
  isValid ip && !(isRFC1918 ip || isRFC2544 ip || isRFC3927 ip || isRFC4862 ip || isRFC6598 ip || isRFC5737 ip ||
    (isRFC4193 ip && !(isTor ip) && !(isI2P ip)) || isRFC4843 ip || isLocal ip)

/-- The class, and the bits from the byte on. The last byte is filled up with ones. -/
def groupOf (nClass : UInt8) (nStartByte nBits : Nat) : List UInt8 :=
  nClass :: (List.range (nBits / 8)).map (fun n => getByte ip (15 - (nStartByte + n))) ++
    if nBits % 8 > 0 then
      [getByte ip (15 - (nStartByte + nBits / 8)) ||| UInt8.ofNat ((1 <<< (nBits % 8)) - 1)]
    else []

def getGroup : List UInt8 :=
  let nClass := if isLocal ip then 255 else NET_IPV6
  if !(isRoutable ip) then groupOf ip NET_UNROUTABLE 0 0
  else if isIPv4 ip || isRFC6145 ip || isRFC6052 ip then groupOf ip NET_IPV4 12 16
  else if isRFC3964 ip then groupOf ip NET_IPV4 2 16
  else if isRFC4380 ip then [NET_IPV4, getByte ip 3 ^^^ 0xFF, getByte ip 2 ^^^ 0xFF]
  else if isTor ip then groupOf ip NET_TOR 6 4
  else if isI2P ip then groupOf ip NET_I2P 6 4
  else if getByte ip 15 == 0x20 && getByte ip 14 == 0x01 && getByte ip 13 == 0x04 && getByte ip 12 == 0x70 then
    groupOf ip nClass 0 36
  else groupOf ip nClass 0 32

end CNetAddr

/-- `CService::GetKey`. -/
def CService.getKey (service : CService) : List UInt8 :=
  service.addr.toList ++ [UInt8.ofNat (service.port.toNat / 0x100), UInt8.ofNat (service.port.toNat % 0x100)]

/-!
## The address manager

`CAddrInfo` and `CAddrMan` (addrman.h, addrman.cpp). Each call is given its random numbers and the time. An assertion
that fails, and a look-up of an entry that is not there, is `none`. The ids are not bounded here.
-/

def ADDRMAN_TRIED_BUCKET_COUNT : Nat := 64

def ADDRMAN_TRIED_BUCKET_SIZE : Nat := 64

def ADDRMAN_NEW_BUCKET_COUNT : Nat := 256

def ADDRMAN_NEW_BUCKET_SIZE : Nat := 64

def ADDRMAN_TRIED_BUCKETS_PER_GROUP : Nat := 4

def ADDRMAN_NEW_BUCKETS_PER_SOURCE_GROUP : Nat := 32

def ADDRMAN_NEW_BUCKETS_PER_ADDRESS : Int := 4

def ADDRMAN_TRIED_ENTRIES_INSPECT_ON_EVICT : Nat := 4

def ADDRMAN_HORIZON_DAYS : Int := 30

def ADDRMAN_RETRIES : Int := 3

def ADDRMAN_MAX_FAILURES : Int := 10

def ADDRMAN_MIN_FAIL_DAYS : Int := 7

def ADDRMAN_GETADDR_MAX_PCT : Nat := 23

def ADDRMAN_GETADDR_MAX : Nat := 2500

/-- `GetRandInt`, with what the source of random numbers gives. -/
def getRandInt (nRand nMax : Nat) : Nat := if nMax = 0 then 0 else nRand % nMax

structure CAddrInfo extends CAddress where
  source : CNetAddr
  nLastSuccess : Int := 0
  nAttempts : Int := 0
  nRefCount : Int := 0
  fInTried : Bool := false
  nRandomPos : Nat

namespace CAddrInfo

/-- `Hash` and `Get64`, of what is written to a stream. -/
def hash64 (hash : List UInt8 → UInt256) (ss : List UInt8) : Nat := (hash ss).toNat % 2 ^ 64

def getTriedBucket (hash : List UInt8 → UInt256) (info : CAddrInfo) (nKey : List UInt8) :
    Fin ADDRMAN_TRIED_BUCKET_COUNT :=
  let hash1 := hash64 hash (writeVector writeUChar nKey ++ writeVector writeUChar info.getKey)
  let hash2 := hash64 hash (writeVector writeUChar nKey ++ writeVector writeUChar info.addr.getGroup ++
    ByteCodec.leBytes 8 (hash1 % ADDRMAN_TRIED_BUCKETS_PER_GROUP))
  ⟨hash2 % ADDRMAN_TRIED_BUCKET_COUNT, Nat.mod_lt _ (by decide)⟩

def getNewBucket (hash : List UInt8 → UInt256) (info : CAddrInfo) (nKey : List UInt8) (src : CNetAddr) :
    Fin ADDRMAN_NEW_BUCKET_COUNT :=
  let hash1 := hash64 hash (writeVector writeUChar nKey ++ writeVector writeUChar info.addr.getGroup ++
    writeVector writeUChar src.getGroup)
  let hash2 := hash64 hash (writeVector writeUChar nKey ++ writeVector writeUChar src.getGroup ++
    ByteCodec.leBytes 8 (hash1 % ADDRMAN_NEW_BUCKETS_PER_SOURCE_GROUP))
  ⟨hash2 % ADDRMAN_NEW_BUCKET_COUNT, Nat.mod_lt _ (by decide)⟩

def isTerrible (info : CAddrInfo) (nNow : Int) : Bool :=
  if info.nLastTry ≠ 0 ∧ info.nLastTry ≥ nNow - 60 then false
  else if (info.nTime.toNat : Int) > nNow + 10 * 60 then true
  else if info.nTime = 0 ∨ nNow - info.nTime.toNat > ADDRMAN_HORIZON_DAYS * 86400 then true
  else if info.nLastSuccess = 0 ∧ info.nAttempts ≥ ADDRMAN_RETRIES then true
  else if nNow - info.nLastSuccess > ADDRMAN_MIN_FAIL_DAYS * 86400 ∧ info.nAttempts ≥ ADDRMAN_MAX_FAILURES then true
  else false

end CAddrInfo

structure CAddrMan where
  nKey : List UInt8
  nIdCount : Nat := 0
  mapInfo : Std.ExtTreeMap Nat CAddrInfo := ∅
  mapAddr : Std.ExtTreeMap CNetAddr Nat := ∅
  vRandom : List Nat := []
  nTried : Int := 0
  vvTried : Fin ADDRMAN_TRIED_BUCKET_COUNT → List Nat := fun _ => []
  nNew : Int := 0
  vvNew : Fin ADDRMAN_NEW_BUCKET_COUNT → Finset Nat := fun _ => ∅

namespace CAddrMan

def find (am : CAddrMan) (addr : CNetAddr) : Option (Nat × CAddrInfo) :=
  match am.mapAddr[addr]? with
  | none => none
  | some nId => (am.mapInfo[nId]?).map (nId, ·)

/-- `Create`: the manager and the id. -/
def create (am : CAddrMan) (addr : CAddress) (addrSource : CNetAddr) : CAddrMan × Nat :=
  let nId := am.nIdCount
  let info : CAddrInfo := { addr with nLastTry := 0, source := addrSource, nRandomPos := am.vRandom.length }
  ({ am with
      nIdCount := nId + 1
      mapInfo := am.mapInfo.insert nId info
      mapAddr := am.mapAddr.insert addr.addr nId
      vRandom := am.vRandom ++ [nId] }, nId)

/-- A change of the entry of an id. -/
def modifyInfo (am : CAddrMan) (nId : Nat) (change : CAddrInfo → CAddrInfo) : CAddrMan :=
  { am with mapInfo := am.mapInfo.modify nId change }

def swapRandom (am : CAddrMan) (nRndPos1 nRndPos2 : Nat) : Option CAddrMan :=
  if nRndPos1 = nRndPos2 then some am
  else
    match am.vRandom[nRndPos1]?, am.vRandom[nRndPos2]? with
    | some nId1, some nId2 =>
        if nId1 ∈ am.mapInfo ∧ nId2 ∈ am.mapInfo then
          let am := am.modifyInfo nId1 fun info => { info with nRandomPos := nRndPos2 }
          let am := am.modifyInfo nId2 fun info => { info with nRandomPos := nRndPos1 }
          some { am with vRandom := SwapIndex.swapped am.vRandom nRndPos1 nRndPos2 nId1 nId2 }
        else none
    | _, _ => none

/-! ## Evictions -/

/-- The bucket while `SelectTried` shuffles it, with `nOldest` and `nOldestPos`. -/
structure Selection where
  vTried : List Nat
  oldest : Option (Nat × Nat) := none

def selectTriedStep (am : CAddrMan) (rand : Nat → Nat) (sel : Selection) (i : Nat) : Option Selection :=
  if i < sel.vTried.length then
    let nPos := getRandInt (rand i) (sel.vTried.length - i) + i
    match sel.vTried[nPos]?, sel.vTried[i]? with
    | some nTemp, some nFirst =>
        let vTried := (sel.vTried.set nPos nFirst).set i nTemp
        match sel.oldest with
        | none => some { vTried, oldest := some (nTemp, nPos) }
        | some (nOldest, nOldestPos) =>
            match am.mapInfo[nTemp]?, am.mapInfo[nOldest]? with
            | some info, some infoOldest =>
                if info.nLastSuccess < infoOldest.nLastSuccess then some { vTried, oldest := some (nTemp, nPos) }
                else some { vTried, oldest := some (nOldest, nOldestPos) }
            | _, _ => none
    | _, _ => none
  else some sel

def selectTried (am : CAddrMan) (rand : Nat → Nat) (nKBucket : Fin ADDRMAN_TRIED_BUCKET_COUNT) : Option Selection :=
  (List.range ADDRMAN_TRIED_ENTRIES_INSPECT_ON_EVICT).foldlM (am.selectTriedStep rand) { vTried := am.vvTried nKBucket }

/-- A new bucket gives up an entry: without references it is deleted. -/
def releaseNew (am : CAddrMan) (nId : Nat) : Option CAddrMan :=
  match am.mapInfo[nId]? with
  | none => none
  | some info =>
      let am := am.modifyInfo nId fun info => { info with nRefCount := info.nRefCount - 1 }
      if info.nRefCount - 1 = 0 then
        if am.vRandom = [] then none
        else
          match am.swapRandom info.nRandomPos (am.vRandom.length - 1) with
          | none => none
          | some am =>
              some { am with
                vRandom := am.vRandom.dropLast
                mapAddr := am.mapAddr.erase info.addr
                mapInfo := am.mapInfo.erase nId
                nNew := am.nNew - 1 }
      else some am

/-- The first loop of `ShrinkNew`. -/
def firstTerrible (am : CAddrMan) (nNow : Int) : List Nat → Option (Option Nat)
  | [] => some none
  | nId :: vNew =>
      match am.mapInfo[nId]? with
      | none => none
      | some info => if info.isTerrible nNow then some (some nId) else firstTerrible am nNow vNew

/-- The second one, with `nI` and `nOldest`. -/
def oldestNew (am : CAddrMan) (n : List Nat) : List Nat → Nat → Option Nat → Option (Option Nat)
  | [], _, nOldest => some nOldest
  | nId :: vNew, nI, nOldest =>
      if nI ∈ n then
        match nOldest with
        | none => oldestNew am n vNew (nI + 1) (some nId)
        | some nOld =>
            match am.mapInfo[nId]?, am.mapInfo[nOld]? with
            | some info, some infoOldest =>
                oldestNew am n vNew (nI + 1) (some (if info.nTime < infoOldest.nTime then nId else nOld))
            | _, _ => none
      else oldestNew am n vNew (nI + 1) nOldest

def shrinkNew (am : CAddrMan) (rand : Nat → Nat) (nNow : Int) (nUBucket : Fin ADDRMAN_NEW_BUCKET_COUNT) :
    Option CAddrMan :=
  let vNew := (am.vvNew nUBucket).sort (· ≤ ·)
  let erased (nId : Nat) : Option CAddrMan :=
    match am.releaseNew nId with
    | none => none
    | some am => some { am with vvNew := Function.update am.vvNew nUBucket ((am.vvNew nUBucket).erase nId) }
  match am.firstTerrible nNow vNew with
  | none => none
  | some (some nId) => erased nId
  | some none =>
      let n := (List.range 4).map fun i => getRandInt (rand i) vNew.length
      match am.oldestNew n vNew 0 none with
      | none => none
      | some none => none
      | some (some nOldest) => erased nOldest

/-- What `ShrinkNew` does with the entry that it picks. -/
def eraseNew (am : CAddrMan) (nUBucket : Fin ADDRMAN_NEW_BUCKET_COUNT) (nId : Nat) : Option CAddrMan :=
  match am.releaseNew nId with
  | none => none
  | some am => some { am with vvNew := Function.update am.vvNew nUBucket ((am.vvNew nUBucket).erase nId) }

theorem eraseNew_eq (am : CAddrMan) (nUBucket : Fin ADDRMAN_NEW_BUCKET_COUNT) (nId : Nat) :
    am.eraseNew nUBucket nId = (am.releaseNew nId).map fun am : CAddrMan =>
      { am with vvNew := Function.update am.vvNew nUBucket ((am.vvNew nUBucket).erase nId) } := by
  rw [eraseNew]
  cases am.releaseNew nId <;> rfl

variable (hash : List UInt8 → UInt256)

/-- The end of `MakeTried`: the entry gets its place in a tried bucket. -/
def enterTried (am : CAddrMan) (rand : Nat → Nat) (nId : Nat) (info : CAddrInfo)
    (nOrigin : Fin ADDRMAN_NEW_BUCKET_COUNT) : Option CAddrMan :=
  let nKBucket := info.getTriedBucket hash am.nKey
  if (am.vvTried nKBucket).length < ADDRMAN_TRIED_BUCKET_SIZE then
    let am := am.modifyInfo nId fun info => { info with fInTried := true }
    some { am with
      vvTried := Function.update am.vvTried nKBucket (am.vvTried nKBucket ++ [nId])
      nTried := am.nTried + 1 }
  else
    match am.selectTried rand nKBucket with
    | some { vTried, oldest := some (_, nPos) } =>
        match vTried[nPos]? with
        | none => none
        | some nIdOld =>
            match am.mapInfo[nIdOld]? with
            | none => none
            | some infoOld =>
                let nUBucket := infoOld.getNewBucket hash am.nKey infoOld.source
                let am := am.modifyInfo nIdOld fun info => { info with fInTried := false, nRefCount := 1 }
                let nUBucket := if (am.vvNew nUBucket).card < ADDRMAN_NEW_BUCKET_SIZE then nUBucket else nOrigin
                let am := am.modifyInfo nId fun info => { info with fInTried := true }
                some { am with
                  vvNew := Function.update am.vvNew nUBucket (insert nIdOld (am.vvNew nUBucket))
                  nNew := am.nNew + 1
                  vvTried := Function.update am.vvTried nKBucket (vTried.set nPos nId) }
    | _ => none

def makeTried (am : CAddrMan) (rand : Nat → Nat) (nId : Nat) (nOrigin : Fin ADDRMAN_NEW_BUCKET_COUNT) :
    Option CAddrMan :=
  if nId ∉ am.vvNew nOrigin then none
  else
    let nErased := (Finset.univ.filter fun n => nId ∈ am.vvNew n).card
    let am := am.modifyInfo nId fun info => { info with nRefCount := info.nRefCount - nErased }
    let am := { am with vvNew := fun n => (am.vvNew n).erase nId, nNew := am.nNew - 1 }
    match am.mapInfo[nId]? with
    | none => none
    | some info => if info.nRefCount ≠ 0 then none else am.enterTried hash rand nId info nOrigin

/-! ## The calls -/

/-- The bucket that comes `n` places after `nRnd`. -/
def bucketAfter (nRnd n : Nat) : Fin ADDRMAN_NEW_BUCKET_COUNT :=
  ⟨(n + nRnd) % ADDRMAN_NEW_BUCKET_COUNT, Nat.mod_lt _ (by decide)⟩

/-- `Good_`. -/
def good (am : CAddrMan) (rand : Nat → Nat) (addr : CService) (nTime : Int) : Option CAddrMan :=
  match am.find addr.addr with
  | none => some am
  | some (nId, info) =>
      if info.toCService ≠ addr then some am
      else
        let am := am.modifyInfo nId fun info =>
          { info with nLastSuccess := nTime, nLastTry := nTime, nTime := UInt32.ofInt nTime, nAttempts := 0 }
        if info.fInTried then some am
        else
          let nRnd := getRandInt (rand 0) ADDRMAN_NEW_BUCKET_COUNT
          match ((List.range ADDRMAN_NEW_BUCKET_COUNT).map (bucketAfter nRnd)).find? fun nB => nId ∈ am.vvNew nB with
          | none => some am
          | some nUBucket => am.makeTried hash (fun i => rand (i + 1)) nId nUBucket

/-- The end of `Add_`: the entry is put into the bucket that its source selects. -/
def addRef (am : CAddrMan) (rand : Nat → Nat) (nNow : Int) (nId : Nat) (source : CNetAddr) : Option CAddrMan :=
  match am.mapInfo[nId]? with
  | none => none
  | some info =>
      let nUBucket := info.getNewBucket hash am.nKey source
      if nId ∈ am.vvNew nUBucket then some am
      else
        let am := am.modifyInfo nId fun info => { info with nRefCount := info.nRefCount + 1 }
        match
          if (am.vvNew nUBucket).card = ADDRMAN_NEW_BUCKET_SIZE then am.shrinkNew rand nNow nUBucket else some am
        with
        | none => none
        | some am => some { am with vvNew := Function.update am.vvNew nUBucket (insert nId (am.vvNew nUBucket)) }

/-- The time that `Add_` gives to an entry that it has already. -/
def updatedTime (pinfo : CAddrInfo) (addr : CAddress) (nTimePenalty nNow : Int) : UInt32 :=
  let fCurrentlyOnline := nNow - addr.nTime.toNat < 24 * 60 * 60
  let nUpdateInterval : Int := if fCurrentlyOnline then 60 * 60 else 24 * 60 * 60
  if addr.nTime ≠ 0 ∧
      (pinfo.nTime = 0 ∨ (pinfo.nTime.toNat : Int) < addr.nTime.toNat - nUpdateInterval - nTimePenalty) then
    UInt32.ofInt (max 0 (addr.nTime.toNat - nTimePenalty))
  else pinfo.nTime

/-- `Add_`. -/
def add (am : CAddrMan) (rand : Nat → Nat) (nNow : Int) (addr : CAddress) (source : CNetAddr) (nTimePenalty : Int) :
    Option (CAddrMan × Bool) :=
  if !addr.addr.isRoutable then some (am, false)
  else
    match am.find addr.addr with
    | some (nId, pinfo) =>
        let nTime := updatedTime pinfo addr nTimePenalty nNow
        let am := am.modifyInfo nId fun info => { info with nTime, nServices := info.nServices ||| addr.nServices }
        if addr.nTime = 0 ∨ (nTime ≠ 0 ∧ addr.nTime ≤ nTime) then some (am, false)
        else if pinfo.fInTried then some (am, false)
        else if pinfo.nRefCount = ADDRMAN_NEW_BUCKETS_PER_ADDRESS then some (am, false)
        else
          let nFactor := 2 ^ pinfo.nRefCount.toNat
          if nFactor > 1 ∧ getRandInt (rand 0) nFactor ≠ 0 then some (am, false)
          else (am.addRef hash (fun i => rand (i + 1)) nNow nId source).map (·, false)
    | none =>
        let (am, nId) := am.create addr source
        let am := am.modifyInfo nId fun info =>
          { info with nTime := UInt32.ofInt (max 0 (info.nTime.toNat - nTimePenalty)) }
        let am := { am with nNew := am.nNew + 1 }
        (am.addRef hash rand nNow nId source).map (·, true)

/-- `Attempt_`. -/
def attempt (am : CAddrMan) (addr : CService) (nTime : Int) : CAddrMan :=
  match am.find addr.addr with
  | none => am
  | some (nId, info) =>
      if info.toCService ≠ addr then am
      else am.modifyInfo nId fun info => { info with nLastTry := nTime, nAttempts := info.nAttempts + 1 }

/-- `Connected_`. -/
def connected (am : CAddrMan) (addr : CService) (nTime : Int) : CAddrMan :=
  match am.find addr.addr with
  | none => am
  | some (nId, info) =>
      if info.toCService ≠ addr then am
      else
        let nUpdateInterval := 20 * 60
        if nTime - info.nTime.toNat > nUpdateInterval then
          am.modifyInfo nId fun info => { info with nTime := UInt32.ofInt nTime }
        else am

/-- The loops of `Select_` over the ids of random buckets. Whether the chance of an entry is good enough, which the
source computes in floating numbers, is `accept`. -/
def selectFrom (am : CAddrMan) (rand : Nat → Nat) (accept : Nat → CAddrInfo → Bool) (buckets : List (List Nat)) :
    Nat → Nat → Option CAddress
  | 0, _ => some .null
  | nTries + 1, i =>
      let v := buckets.getD (getRandInt (rand (2 * i)) buckets.length) []
      if v.length = 0 then selectFrom am rand accept buckets nTries (i + 1)
      else
        match v[getRandInt (rand (2 * i + 1)) v.length]? with
        | none => none
        | some nId =>
            match am.mapInfo[nId]? with
            | none => none
            | some info =>
                if accept i info then some info.toCAddress
                else selectFrom am rand accept buckets nTries (i + 1)

/-- `Select_`, with `fUseTried` for the choice between the tables. -/
def select (am : CAddrMan) (fTestNet : Bool) (rand : Nat → Nat) (fUseTried : Bool) (accept : Nat → CAddrInfo → Bool) :
    Option CAddress :=
  if am.vRandom.length = 0 then some .null
  else
    let nTries := if fTestNet then 100 else 100000
    if fUseTried then
      am.selectFrom rand accept ((List.finRange ADDRMAN_TRIED_BUCKET_COUNT).map am.vvTried) nTries 0
    else
      am.selectFrom rand accept
        ((List.finRange ADDRMAN_NEW_BUCKET_COUNT).map fun n => (am.vvNew n).sort (· ≤ ·)) nTries 0

def getAddrStep (rand : Nat → Nat) (s : CAddrMan × List CAddress) (n : Nat) : Option (CAddrMan × List CAddress) :=
  let (am, vAddr) := s
  let nRndPos := getRandInt (rand n) (am.vRandom.length - n) + n
  match am.swapRandom n nRndPos with
  | none => none
  | some am =>
      match am.vRandom[n]? with
      | none => none
      | some nId =>
          match am.mapInfo[nId]? with
          | none => none
          | some info => some (am, vAddr ++ [info.toCAddress])

/-- `GetAddr_`. -/
def getAddr (am : CAddrMan) (rand : Nat → Nat) : Option (CAddrMan × List CAddress) :=
  let nNodes := min (ADDRMAN_GETADDR_MAX_PCT * am.vRandom.length / 100) ADDRMAN_GETADDR_MAX
  (List.range nNodes).foldlM (getAddrStep rand) (am, [])

/-! ## Check -/

/-- What `Check_` finds wrong with an entry. -/
def checkInfo (am : CAddrMan) (n : Nat) (info : CAddrInfo) : Option Int :=
  if info.fInTried ∧ info.nLastSuccess = 0 then some (-1)
  else if info.fInTried ∧ info.nRefCount ≠ 0 then some (-2)
  else if ¬info.fInTried ∧ (info.nRefCount < 0 ∨ info.nRefCount > ADDRMAN_NEW_BUCKETS_PER_ADDRESS) then some (-3)
  else if ¬info.fInTried ∧ info.nRefCount = 0 then some (-4)
  else if (am.mapAddr[info.addr]?).getD 0 ≠ n then some (-5)
  else if am.vRandom[info.nRandomPos]? ≠ some n then some (-14)
  else if info.nLastTry < 0 then some (-6)
  else if info.nLastSuccess < 0 then some (-8)
  else none

/-- The loop of `Check_` over the tried buckets. -/
def checkTried : List Nat → Finset Nat → Option (Finset Nat)
  | [], setTried => some setTried
  | n :: vTried, setTried => if n ∈ setTried then checkTried vTried (setTried.erase n) else none

/-- The loop over the new ones. -/
def checkNew : List Nat → Std.ExtTreeMap Nat Int → Option (Std.ExtTreeMap Nat Int)
  | [], mapNew => some mapNew
  | n :: vNew, mapNew =>
      match mapNew[n]? with
      | none => none
      | some nRefs => checkNew vNew (if nRefs - 1 = 0 then mapNew.erase n else mapNew.insert n (nRefs - 1))

/-- `Check_`. -/
def check (am : CAddrMan) : Int :=
  if (am.vRandom.length : Int) ≠ am.nTried + am.nNew then -7
  else
    match am.mapInfo.toList.findSome? fun (n, info) => am.checkInfo n info with
    | some err => err
    | none =>
        let setTried := ((am.mapInfo.toList.filter fun e => e.2.fInTried).map Prod.fst).toFinset
        let mapNew := am.mapInfo.filterMap fun _ info => if info.fInTried then none else some info.nRefCount
        if (setTried.card : Int) ≠ am.nTried then -9
        else if (mapNew.size : Int) ≠ am.nNew then -10
        else
          match checkTried ((List.finRange ADDRMAN_TRIED_BUCKET_COUNT).flatMap am.vvTried) setTried with
          | none => -11
          | some setTried =>
              match checkNew ((List.finRange ADDRMAN_NEW_BUCKET_COUNT).flatMap fun n => (am.vvNew n).sort (· ≤ ·))
                  mapNew with
              | none => -12
              | some mapNew => if setTried.card ≠ 0 then -13 else if mapNew.size ≠ 0 then -15 else 0

end CAddrMan

/-! ## Runs -/

/-- A call of the manager, with the random numbers and the time. `Add` of several addresses makes a call for each. -/
inductive AddrManCall where
  | add (addr : CAddress) (source : CNetAddr) (nTimePenalty : Int) (nNow : Int) (rand : Nat → Nat)
  | good (addr : CService) (nTime : Int) (rand : Nat → Nat)
  | attempt (addr : CService) (nTime : Int)
  | connected (addr : CService) (nTime : Int)
  | select (fTestNet fUseTried : Bool) (accept : Nat → CAddrInfo → Bool) (rand : Nat → Nat)
  | getAddr (rand : Nat → Nat)

inductive AddrManResult where
  | nothing
  | added (fNew : Bool)
  | address (addr : CAddress)
  | addresses (vAddr : List CAddress)

def AddrManCall.step (hash : List UInt8 → UInt256) (call : AddrManCall) (am : CAddrMan) :
    Option (CAddrMan × AddrManResult) :=
  match call with
  | .add addr source nTimePenalty nNow rand => (am.add hash rand nNow addr source nTimePenalty).map (Prod.map id .added)
  | .good addr nTime rand => (am.good hash rand addr nTime).map (·, .nothing)
  | .attempt addr nTime => some (am.attempt addr nTime, .nothing)
  | .connected addr nTime => some (am.connected addr nTime, .nothing)
  | .select fTestNet fUseTried accept rand => (am.select fTestNet rand fUseTried accept).map fun addr => (am, .address addr)
  | .getAddr rand => (am.getAddr rand).map (Prod.map id .addresses)

/-- The time of a call is after the epoch. -/
def AddrManCall.AfterEpoch : AddrManCall → Prop
  | .good _ nTime _ => 0 < nTime
  | .attempt _ nTime => 0 < nTime
  | .connected _ nTime => 0 < nTime
  | .add .. => True
  | .select .. => True
  | .getAddr _ => True

/-!
## The file of the address manager

What a `CAddrMan` writes to a stream of the type `SER_DISK`, and how it is read (addrman.h, protocol.h, netbase.h). An
index without an entry and a bucket that is not there are `none` while reading.
-/

open ByteCodec

/-! ## Addresses -/

def readNetAddr : Reader CNetAddr := fun s =>
  match readBytes 16 s with
  | none => none
  | some (ip, s) => some (Vector.ofFn fun i => ip.getD i 0, s)

namespace CService

/-- The port is written with `htons`. -/
def write (service : CService) : List UInt8 :=
  service.addr.toList ++ [UInt8.ofNat (service.port.toNat / 0x100), UInt8.ofNat (service.port.toNat % 0x100)]

def read : Reader CService := fun s =>
  match readNetAddr s with
  | none => none
  | some (addr, s) =>
      match s with
      | high :: low :: s => some (⟨addr, UInt16.ofNat (high.toNat * 0x100 + low.toNat)⟩, s)
      | _ => none

end CService

namespace CAddress

def write (nVersion : Int) (addr : CAddress) : List UInt8 :=
  leInt 4 nVersion ++ leBytes 4 addr.nTime.toNat ++ leBytes 8 addr.nServices.toNat ++ addr.toCService.write

/-- `Init` has cleared `nLastTry`. -/
def read : Reader CAddress := fun s =>
  match readLeInt 4 s with
  | none => none
  | some (_, s) =>
      match readLe 4 s with
      | none => none
      | some (nTime, s) =>
          match readLe 8 s with
          | none => none
          | some (nServices, s) =>
              match CService.read s with
              | none => none
              | some (service, s) =>
                  some ({ service with nServices := UInt64.ofNat nServices, nTime := UInt32.ofNat nTime }, s)

end CAddress

namespace CAddrInfo

/-- The version is the zero that `CAddrMan` has written for its own. -/
def write (info : CAddrInfo) : List UInt8 :=
  info.toCAddress.write 0 ++ info.source.toList ++ leInt 8 info.nLastSuccess ++ leInt 4 info.nAttempts

/-- The reader gives the entry its position. -/
def read (nRandomPos : Nat) : Reader CAddrInfo := fun s =>
  match CAddress.read s with
  | none => none
  | some (addr, s) =>
      match readNetAddr s with
      | none => none
      | some (source, s) =>
          match readLeInt 8 s with
          | none => none
          | some (nLastSuccess, s) =>
              match readLeInt 4 s with
              | none => none
              | some (nAttempts, s) => some ({ addr with source, nLastSuccess, nAttempts, nRandomPos }, s)

end CAddrInfo

/-! ## The writer -/

namespace CAddrMan

/-- The stream, `mapUnkIds` and `nIds`, while the new entries are written. -/
structure NewWriter where
  s : List UInt8 := []
  mapUnkIds : Std.ExtTreeMap Nat Nat := ∅
  nIds : Nat := 0

def writeNew (nNew : Int) : List (Nat × CAddrInfo) → NewWriter → NewWriter
  | [], w => w
  | (nId, info) :: infos, w =>
      if (w.nIds : Int) = nNew then w
      else
        let w := { w with mapUnkIds := w.mapUnkIds.insert nId w.nIds }
        if info.nRefCount ≠ 0 then writeNew nNew infos { w with s := w.s ++ info.write, nIds := w.nIds + 1 }
        else writeNew nNew infos w

def writeTried (nTried : Int) : List (Nat × CAddrInfo) → Nat → List UInt8
  | [], _ => []
  | (_, info) :: infos, nIds =>
      if (nIds : Int) = nTried then []
      else if info.fInTried then info.write ++ writeTried nTried infos (nIds + 1)
      else writeTried nTried infos nIds

def writeIndex (mapUnkIds : Std.ExtTreeMap Nat Nat) (nId : Nat) : List UInt8 := leInt 4 ((mapUnkIds[nId]?).getD 0 : Nat)

def writeBucket (mapUnkIds : Std.ExtTreeMap Nat Nat) (vNew : Finset Nat) : List UInt8 :=
  leInt 4 vNew.card ++ (vNew.sort (· ≤ ·)).flatMap (writeIndex mapUnkIds)

def write (am : CAddrMan) : List UInt8 :=
  let w := writeNew am.nNew am.mapInfo.toList {}
  writeUChar 0 ++ writeVector writeUChar am.nKey ++ leInt 4 am.nNew ++ leInt 4 am.nTried ++
    leInt 4 ADDRMAN_NEW_BUCKET_COUNT ++ w.s ++ writeTried am.nTried am.mapInfo.toList 0 ++
      (List.finRange ADDRMAN_NEW_BUCKET_COUNT).flatMap fun n => writeBucket w.mapUnkIds (am.vvNew n)

/-! ## The reader -/

variable (hash : List UInt8 → UInt256)

/-- The next entry, with its id. -/
def listInfo (am : CAddrMan) (nId : Nat) (info : CAddrInfo) : CAddrMan :=
  { am with
    mapInfo := am.mapInfo.insert nId info
    mapAddr := am.mapAddr.insert info.addr nId
    vRandom := am.vRandom ++ [nId] }

def readNewInfo (nUBuckets : Int) (am : CAddrMan) (n : Nat) : Reader CAddrMan := fun s =>
  match CAddrInfo.read am.vRandom.length s with
  | none => none
  | some (info, s) =>
      let am := am.listInfo n info
      if nUBuckets ≠ ADDRMAN_NEW_BUCKET_COUNT then
        let nUBucket := info.getNewBucket hash am.nKey info.source
        let am := am.modifyInfo n fun info => { info with nRefCount := info.nRefCount + 1 }
        some ({ am with vvNew := Function.update am.vvNew nUBucket (insert n (am.vvNew nUBucket)) }, s)
      else some (am, s)

/-- A tried entry, with `nLost`. -/
def readTriedInfo (st : CAddrMan × Nat) (_ : Nat) : Reader (CAddrMan × Nat) := fun s =>
  let (am, nLost) := st
  match CAddrInfo.read am.vRandom.length s with
  | none => none
  | some (info, s) =>
      let nKBucket := info.getTriedBucket hash am.nKey
      if (am.vvTried nKBucket).length < ADDRMAN_TRIED_BUCKET_SIZE then
        let nId := am.nIdCount
        let am := am.listInfo nId { info with fInTried := true }
        some (({ am with
          vvTried := Function.update am.vvTried nKBucket (am.vvTried nKBucket ++ [nId])
          nIdCount := nId + 1 }, nLost), s)
      else some ((am, nLost + 1), s)

def readIndex (nUBuckets : Int) (b : Fin ADDRMAN_NEW_BUCKET_COUNT) (am : CAddrMan) (_ : Nat) : Reader CAddrMan :=
  fun s =>
    match readLeInt 4 s with
    | none => none
    | some (nIndex, s) =>
        match if 0 ≤ nIndex then am.mapInfo[nIndex.toNat]? else none with
        | none => none
        | some info =>
            if nUBuckets = ADDRMAN_NEW_BUCKET_COUNT ∧ info.nRefCount < ADDRMAN_NEW_BUCKETS_PER_ADDRESS then
              let am := am.modifyInfo nIndex.toNat fun info => { info with nRefCount := info.nRefCount + 1 }
              some ({ am with vvNew := Function.update am.vvNew b (insert nIndex.toNat (am.vvNew b)) }, s)
            else some (am, s)

def readBucket (nUBuckets : Int) (am : CAddrMan) (b : Nat) : Reader CAddrMan := fun s =>
  if hb : b < ADDRMAN_NEW_BUCKET_COUNT then
    match readLeInt 4 s with
    | none => none
    | some (nSize, s) => readLoop (readIndex nUBuckets ⟨b, hb⟩) nSize.toNat 0 am s
  else none

/-- What comes after the counts. -/
def readTables (nUBuckets : Int) (am : CAddrMan) : Reader CAddrMan := fun s =>
  match readLoop (readNewInfo hash nUBuckets) am.nNew.toNat 0 am s with
  | none => none
  | some (am, s) =>
      match readLoop (readTriedInfo hash) am.nTried.toNat 0 ({ am with nIdCount := am.nNew.toNat }, 0) s with
      | none => none
      | some ((am, nLost), s) =>
          readLoop (readBucket nUBuckets) nUBuckets.toNat 0 { am with nTried := am.nTried - nLost } s

def read : Reader CAddrMan := fun s =>
  match readUChar s with
  | none => none
  | some (_, s) =>
      match readVector readUChar s with
      | none => none
      | some (nKey, s) =>
          match readLeInt 4 s with
          | none => none
          | some (nNew, s) =>
              match readLeInt 4 s with
              | none => none
              | some (nTried, s) =>
                  match readLeInt 4 s with
                  | none => none
                  | some (nUBuckets, s) => readTables hash nUBuckets { nKey, nNew, nTried } s

end CAddrMan

/-! ## Round trips of the entries -/

theorem readNetAddr_append (ip : CNetAddr) (s : List UInt8) : readNetAddr (ip.toList ++ s) = some (ip, s) := by
  have hip : (Vector.ofFn fun i : Fin 16 => ip.toList.getD i 0) = ip := by
    apply Vector.ext
    intro i hi
    have hlt : i < ip.toList.length := by rw [Vector.length_toList]; exact hi
    rw [Vector.getElem_ofFn, List.getD_eq_getElem?_getD, List.getElem?_eq_getElem hlt, Option.getD_some,
      Vector.getElem_toList]
  rw [readNetAddr, readBytes_append Vector.length_toList]
  exact congrArg (fun ip => some (ip, s)) hip

theorem CService.read_append (service : CService) (s : List UInt8) :
    CService.read (service.write ++ s) = some (service, s) := by
  have hport := service.port.toNat_lt
  have hread : UInt16.ofNat ((UInt8.ofNat (service.port.toNat / 0x100)).toNat * 0x100 +
      (UInt8.ofNat (service.port.toNat % 0x100)).toNat) = service.port := by
    rw [← UInt16.toNat_inj, UInt8.toNat_ofNat', UInt8.toNat_ofNat', UInt16.toNat_ofNat']
    omega
  rw [CService.read, CService.write, List.append_assoc, readNetAddr_append]
  simp only [List.cons_append, List.nil_append, hread]

theorem CAddress.read_append (nVersion : Int) (addr : CAddress) (s : List UInt8) :
    CAddress.read (addr.write nVersion ++ s) = some ({ addr with nLastTry := 0 }, s) := by
  have htime : addr.nTime.toNat < 256 ^ 4 := addr.nTime.toNat_lt
  have hservices : addr.nServices.toNat < 256 ^ 8 := addr.nServices.toNat_lt
  simp only [CAddress.read, CAddress.write, List.append_assoc, readLeInt_append, readLe_append htime,
    readLe_append hservices, CService.read_append, UInt64.ofNat_toNat, UInt32.ofNat_toNat]

/-- What is read of an entry. -/
def CAddrInfo.restored (info : CAddrInfo) (nRandomPos : Nat) : CAddrInfo :=
  { info with
    nLastTry := 0
    nLastSuccess := Int.bmod info.nLastSuccess (256 ^ 8)
    nAttempts := Int.bmod info.nAttempts (256 ^ 4)
    nRefCount := 0
    fInTried := false
    nRandomPos }

theorem CAddrInfo.read_append (info : CAddrInfo) (nRandomPos : Nat) (s : List UInt8) :
    CAddrInfo.read nRandomPos (info.write ++ s) = some (info.restored nRandomPos, s) := by
  simp only [CAddrInfo.read, CAddrInfo.write, List.append_assoc, CAddress.read_append, readNetAddr_append,
    readLeInt_append]
  rfl

end ProCurrency

import Electra.Net.Serialize
import Mathlib.Data.Finmap
import Mathlib.Data.Finset.Sort
import Mathlib.Data.Int.ConditionallyCompleteOrder

/-!
# The address manager

Addresses of peers: 16 bytes in network byte order, with a port, the services of the peer and the time
it was last seen.

Addresses of possible peers.  Those that were never connected to are in up to four of the "new"
buckets, the others in one of the "tried" buckets.  A call whose assertion fails, which leaves a vector,
or which counts an `int` beyond its largest value, has no result.  `GetRandInt` takes what the random
source of the call yields.
-/

namespace Electra.Net

def pchIPv4 : List UInt8 := [0, 0, 0, 0, 0, 0, 0, 0, 0, 0, 0xff, 0xff]
def pchOnionCat : List UInt8 := [0xFD, 0x87, 0xD8, 0x7E, 0xEB, 0x43]
def pchGarliCat : List UInt8 := [0xFD, 0x60, 0xDB, 0x4D, 0xDD, 0xB5]

def NET_UNROUTABLE : UInt8 := 0
def NET_IPV4 : UInt8 := 1
def NET_IPV6 : UInt8 := 2
def NET_TOR : UInt8 := 3
def NET_I2P : UInt8 := 4

def NODE_NETWORK : UInt64 := 1

structure CNetAddr where
  ip : List UInt8
  length_ip : ip.length = 16
deriving DecidableEq

namespace CNetAddr

/-- `CNetAddr::Init`. -/
def init : CNetAddr := ⟨List.replicate 16 0, rfl⟩

def getByte (addr : CNetAddr) (n : ℕ) : UInt8 := addr.ip.getD (15 - n) 0

def isIPv4 (addr : CNetAddr) : Bool := addr.ip.take 12 == pchIPv4

def isRFC1918 (addr : CNetAddr) : Bool :=
  addr.isIPv4 && (addr.getByte 3 == 10 || (addr.getByte 3 == 192 && addr.getByte 2 == 168) ||
    (addr.getByte 3 == 172 && (addr.getByte 2 ≥ 16 && addr.getByte 2 ≤ 31)))

def isRFC3927 (addr : CNetAddr) : Bool :=
  addr.isIPv4 && (addr.getByte 3 == 169 && addr.getByte 2 == 254)

def isRFC3849 (addr : CNetAddr) : Bool :=
  addr.getByte 15 == 0x20 && addr.getByte 14 == 0x01 && addr.getByte 13 == 0x0D &&
    addr.getByte 12 == 0xB8

def isRFC3964 (addr : CNetAddr) : Bool := addr.getByte 15 == 0x20 && addr.getByte 14 == 0x02

def isRFC6052 (addr : CNetAddr) : Bool :=
  addr.ip.take 12 == [0, 0x64, 0xFF, 0x9B, 0, 0, 0, 0, 0, 0, 0, 0]

def isRFC4380 (addr : CNetAddr) : Bool :=
  addr.getByte 15 == 0x20 && addr.getByte 14 == 0x01 && addr.getByte 13 == 0 &&
    addr.getByte 12 == 0

def isRFC4862 (addr : CNetAddr) : Bool := addr.ip.take 8 == [0xFE, 0x80, 0, 0, 0, 0, 0, 0]

def isRFC4193 (addr : CNetAddr) : Bool := addr.getByte 15 &&& 0xFE == 0xFC

def isRFC6145 (addr : CNetAddr) : Bool :=
  addr.ip.take 12 == [0, 0, 0, 0, 0, 0, 0, 0, 0xFF, 0xFF, 0, 0]

def isRFC4843 (addr : CNetAddr) : Bool :=
  addr.getByte 15 == 0x20 && addr.getByte 14 == 0x01 && addr.getByte 13 == 0x00 &&
    addr.getByte 12 &&& 0xF0 == 0x10

def isTor (addr : CNetAddr) : Bool := addr.ip.take 6 == pchOnionCat

def isI2P (addr : CNetAddr) : Bool := addr.ip.take 6 == pchGarliCat

def isLocal (addr : CNetAddr) : Bool :=
  (addr.isIPv4 && (addr.getByte 3 == 127 || addr.getByte 3 == 0)) ||
    addr.ip == [0, 0, 0, 0, 0, 0, 0, 0, 0, 0, 0, 0, 0, 0, 0, 1]

def isValid (addr : CNetAddr) : Bool :=
  if addr.ip.take 9 == pchIPv4.drop 3 then false
  else if addr.ip == List.replicate 16 0 then false
  else if addr.isRFC3849 then false
  else if addr.isIPv4 then
    !(addr.ip.drop 12 == [0xff, 0xff, 0xff, 0xff]) && !(addr.ip.drop 12 == [0, 0, 0, 0])
  else true

def isRoutable (addr : CNetAddr) : Bool :=
  addr.isValid && !(addr.isRFC1918 || addr.isRFC3927 || addr.isRFC4862 ||
    (addr.isRFC4193 && !addr.isTor && !addr.isI2P) || addr.isRFC4843 || addr.isLocal)

/-- The class byte, whole bytes from a start byte, and one more with its lower bits set. -/
def groupBytes (addr : CNetAddr) (nClass : UInt8) (nStartByte nBits : ℕ) : List UInt8 :=
  nClass :: (List.range (nBits / 8)).map (fun i ↦ addr.getByte (15 - (nStartByte + i))) ++
    if nBits % 8 = 0 then []
    else [addr.getByte (15 - (nStartByte + nBits / 8)) ||| UInt8.ofNat (2 ^ (nBits % 8) - 1)]

/-- A local address is not routable, so that its own class is never used. -/
def getGroup (addr : CNetAddr) : List UInt8 :=
  if !addr.isRoutable then addr.groupBytes NET_UNROUTABLE 0 0
  else if addr.isIPv4 || addr.isRFC6145 || addr.isRFC6052 then addr.groupBytes NET_IPV4 12 16
  else if addr.isRFC3964 then addr.groupBytes NET_IPV4 2 16
  else if addr.isRFC4380 then [NET_IPV4, addr.getByte 3 ^^^ 0xFF, addr.getByte 2 ^^^ 0xFF]
  else if addr.isTor then addr.groupBytes NET_TOR 6 4
  else if addr.isI2P then addr.groupBytes NET_I2P 6 4
  else if addr.getByte 15 == 0x20 && addr.getByte 14 == 0x11 && addr.getByte 13 == 0x04 &&
      addr.getByte 12 == 0x70 then addr.groupBytes NET_IPV6 0 36
  else addr.groupBytes NET_IPV6 0 32

end CNetAddr

structure CService extends CNetAddr where
  port : UInt16
deriving DecidableEq

def CService.getKey (addr : CService) : List UInt8 :=
  addr.ip ++ [UInt8.ofNat (addr.port.toNat / 0x100), UInt8.ofNat (addr.port.toNat % 0x100)]

/-- `nLastTry` is in memory only. -/
structure CAddress extends CService where
  nServices : UInt64
  nTime : UInt32
  nLastTry : ℤ
deriving DecidableEq

/-- `CAddress::CAddress`. -/
def CAddress.init : CAddress :=
  { CNetAddr.init with port := 0, nServices := NODE_NETWORK, nTime := 100000000, nLastTry := 0 }

open Chain Foundations.Outcome

def ADDRMAN_TRIED_BUCKET_SIZE : ℕ := 64
def ADDRMAN_NEW_BUCKET_COUNT : ℕ := 256
def ADDRMAN_NEW_BUCKET_SIZE : ℕ := 64
def ADDRMAN_TRIED_BUCKETS_PER_GROUP : ℕ := 4
def ADDRMAN_NEW_BUCKETS_PER_SOURCE_GROUP : ℕ := 32
def ADDRMAN_NEW_BUCKETS_PER_ADDRESS : ℤ := 4
def ADDRMAN_TRIED_ENTRIES_INSPECT_ON_EVICT : ℕ := 4
def ADDRMAN_HORIZON_DAYS : ℤ := 30
def ADDRMAN_RETRIES : ℤ := 3
def ADDRMAN_MAX_FAILURES : ℤ := 10
def ADDRMAN_MIN_FAIL_DAYS : ℤ := 7
def ADDRMAN_GETADDR_MAX_PCT : ℕ := 23
def ADDRMAN_GETADDR_MAX : ℕ := 2500

abbrev TriedBucket := Fin 64
abbrev NewBucket := Fin 256

/-- `nRefCount`, `fInTried` and `nRandomPos` are in memory only. -/
structure CAddrInfo extends CAddress where
  source : CNetAddr
  nLastSuccess : ℤ
  nAttempts : ℤ
  nRefCount : ℤ
  fInTried : Bool
  nRandomPos : ℤ
deriving DecidableEq

namespace CAddrInfo

/-- `CAddrInfo(addr, addrSource)`. -/
def ofAddress (addr : CAddress) (addrSource : CNetAddr) : CAddrInfo :=
  { addr with
    nLastTry := 0, source := addrSource, nLastSuccess := 0, nAttempts := 0, nRefCount := 0
    fInTried := false, nRandomPos := -1 }

/-- `CAddrInfo()`. -/
def init : CAddrInfo := ofAddress CAddress.init CNetAddr.init

variable (hash : List UInt8 → Uint256) (nKey : List UInt8)

def getTriedBucket (info : CAddrInfo) : TriedBucket :=
  let hash1 := (hash (writeBytes nKey ++ writeBytes info.getKey)).toNat % 2 ^ 64
  let hash2 := (hash (writeBytes nKey ++ writeBytes info.getGroup ++
    writeUInt 8 (hash1 % ADDRMAN_TRIED_BUCKETS_PER_GROUP))).toNat % 2 ^ 64
  Fin.ofNat 64 hash2

def getNewBucketOf (info : CAddrInfo) (src : CNetAddr) : NewBucket :=
  let hash1 := (hash (writeBytes nKey ++ writeBytes info.getGroup ++
    writeBytes src.getGroup)).toNat % 2 ^ 64
  let hash2 := (hash (writeBytes nKey ++ writeBytes src.getGroup ++
    writeUInt 8 (hash1 % ADDRMAN_NEW_BUCKETS_PER_SOURCE_GROUP))).toNat % 2 ^ 64
  Fin.ofNat 256 hash2

/-- The bucket for the default source. -/
def getNewBucket (info : CAddrInfo) : NewBucket := info.getNewBucketOf hash nKey info.source

def isTerrible (nNow : ℤ) (info : CAddrInfo) : Bool :=
  if info.nLastTry ≠ 0 ∧ info.nLastTry ≥ nNow - 60 then false
  else if (info.nTime.toNat : ℤ) > nNow + 10 * 60 then true
  else if info.nTime = 0 ∨ nNow - info.nTime.toNat > ADDRMAN_HORIZON_DAYS * 86400 then true
  else if info.nLastSuccess = 0 ∧ info.nAttempts ≥ ADDRMAN_RETRIES then true
  else if nNow - info.nLastSuccess > ADDRMAN_MIN_FAIL_DAYS * 86400 ∧
      info.nAttempts ≥ ADDRMAN_MAX_FAILURES then true
  else false

end CAddrInfo

/-- `++` on an `int`, which has no result where it overflows. -/
def increment (n : ℤ) : Option ℤ := if n = 2 ^ 31 - 1 then none else some (n + 1)

/-- A random number below a bound. -/
def getRandInt (nRand nMax : ℕ) : ℕ := if nMax = 0 then 0 else nRand % nMax

structure CAddrMan where
  nKey : List UInt8
  nIdCount : ℤ
  mapInfo : Finmap fun _ : ℤ ↦ CAddrInfo
  mapAddr : Finmap fun _ : CNetAddr ↦ ℤ
  vRandom : List ℤ
  nTried : ℤ
  vvTried : TriedBucket → List ℤ
  nNew : ℤ
  vvNew : NewBucket → Finset ℤ

namespace CAddrMan

def empty (nKey : List UInt8) : CAddrMan where
  nKey := nKey
  nIdCount := 0
  mapInfo := ∅
  mapAddr := ∅
  vRandom := []
  nTried := 0
  vvTried := fun _ ↦ []
  nNew := 0
  vvNew := fun _ ↦ ∅

def find (am : CAddrMan) (addr : CNetAddr) : Option (ℤ × CAddrInfo) := do
  let nId ← am.mapAddr.lookup addr
  let info ← am.mapInfo.lookup nId
  return (nId, info)

/-- Change an entry through a reference to it. -/
def updateInfo (am : CAddrMan) (nId : ℤ) (f : CAddrInfo → CAddrInfo) : CAddrMan :=
  match am.mapInfo.lookup nId with
  | none => am
  | some info => { am with mapInfo := am.mapInfo.insert nId (f info) }

def setTried (am : CAddrMan) (nKBucket : TriedBucket) (vTried : List ℤ) : CAddrMan :=
  { am with vvTried := Function.update am.vvTried nKBucket vTried }

def setNew (am : CAddrMan) (nUBucket : NewBucket) (vNew : Finset ℤ) : CAddrMan :=
  { am with vvNew := Function.update am.vvNew nUBucket vNew }

def create (am : CAddrMan) (addr : CAddress) (addrSource : CNetAddr) : Option (ℤ × CAddrMan) := do
  let nId := am.nIdCount
  let nIdCount ← increment am.nIdCount
  let info := { CAddrInfo.ofAddress addr addrSource with nRandomPos := am.vRandom.length }
  return (nId, { am with
    nIdCount := nIdCount
    mapInfo := am.mapInfo.insert nId info
    mapAddr := am.mapAddr.insert addr.toCNetAddr nId
    vRandom := am.vRandom ++ [nId] })

def swapRandom (am : CAddrMan) (nRndPos1 nRndPos2 : ℕ) : Option CAddrMan :=
  if nRndPos1 = nRndPos2 then some am
  else do
    let nId1 ← am.vRandom[nRndPos1]?
    let nId2 ← am.vRandom[nRndPos2]?
    if nId1 ∉ am.mapInfo ∨ nId2 ∉ am.mapInfo then none
    else
      let am := am.updateInfo nId1 fun info ↦ { info with nRandomPos := nRndPos2 }
      let am := am.updateInfo nId2 fun info ↦ { info with nRandomPos := nRndPos1 }
      some { am with vRandom := (am.vRandom.set nRndPos1 nId2).set nRndPos2 nId1 }

/-- The loop of `SelectTried` for the positions from `i` on, with the id and the position of the oldest
entry so far.  An entry that is found has been swapped to the front, away from that position. -/
def selectTriedLoop (am : CAddrMan) (rand : ℕ → ℕ) :
    ℕ → ℕ → List ℤ → Option (ℤ × ℕ) → Option (List ℤ × Option (ℤ × ℕ))
  | 0, _, vTried, oldest => some (vTried, oldest)
  | nTurns + 1, i, vTried, oldest =>
      if i < vTried.length then do
        let nPos := getRandInt (rand i) (vTried.length - i) + i
        let nTemp ← vTried[nPos]?
        let nFirst ← vTried[i]?
        let vTried := (vTried.set nPos nFirst).set i nTemp
        match oldest with
        | none => selectTriedLoop am rand nTurns (i + 1) vTried (some (nTemp, nPos))
        | some (nOldest, nOldestPos) => do
            let info ← am.mapInfo.lookup nTemp
            let infoOldest ← am.mapInfo.lookup nOldest
            let oldest := if info.nLastSuccess < infoOldest.nLastSuccess then (nTemp, nPos)
              else (nOldest, nOldestPos)
            selectTriedLoop am rand nTurns (i + 1) vTried (some oldest)
      else some (vTried, oldest)

/-- The position to replace, and the bucket after the swaps; there is none in an empty bucket. -/
def selectTried (am : CAddrMan) (rand : ℕ → ℕ) (nKBucket : TriedBucket) :
    Option (List ℤ × Option ℕ) := do
  let (vTried, oldest) ← am.selectTriedLoop rand ADDRMAN_TRIED_ENTRIES_INSPECT_ON_EVICT 0
    (am.vvTried nKBucket) none
  return (vTried, oldest.map Prod.snd)

/-- Take a reference off an entry, and the entry out when it was the last one.  A negative position is
beyond the end of `vRandom` when it is converted. -/
def dropReference (am : CAddrMan) (nId : ℤ) : Option CAddrMan := do
  let am := am.updateInfo nId fun info ↦ { info with nRefCount := info.nRefCount - 1 }
  let info ← am.mapInfo.lookup nId
  if info.nRefCount = 0 then do
    let nRndPos ← info.nRandomPos.toNat?
    let am ← am.swapRandom nRndPos (am.vRandom.length - 1)
    some { am with
      vRandom := am.vRandom.dropLast
      mapAddr := am.mapAddr.erase info.toCNetAddr
      mapInfo := am.mapInfo.erase nId
      nNew := am.nNew - 1 }
  else some am

def findTerrible (am : CAddrMan) (nNow : ℤ) : List ℤ → Option (Option ℤ)
  | [] => some none
  | nId :: nIds => do
      let info ← am.mapInfo.lookup nId
      if info.isTerrible nNow then some (some nId) else am.findTerrible nNow nIds

/-- The oldest of the entries whose number is among `n`, counting from `nI`. -/
def findOldest (am : CAddrMan) (n : List ℕ) : ℕ → Option ℤ → List ℤ → Option (Option ℤ)
  | _, oldest, [] => some oldest
  | nI, oldest, nId :: nIds =>
      if nI ∈ n then
        match oldest with
        | none => am.findOldest n (nI + 1) (some nId) nIds
        | some nOldest => do
            let info ← am.mapInfo.lookup nId
            let infoOldest ← am.mapInfo.lookup nOldest
            am.findOldest n (nI + 1) (some (if info.nTime < infoOldest.nTime then nId else nOldest)) nIds
      else am.findOldest n (nI + 1) oldest nIds

/-- The returned number tells whether a terrible entry was found. -/
def shrinkNew (am : CAddrMan) (nNow : ℤ) (rand : ℕ → ℕ) (nUBucket : NewBucket) :
    Option (ℤ × CAddrMan) := do
  let vNew := am.vvNew nUBucket
  match ← am.findTerrible nNow vNew.sort with
  | some nId => do
      let am ← am.dropReference nId
      return (0, am.setNew nUBucket ((am.vvNew nUBucket).erase nId))
  | none => do
      let n := (List.range 4).map fun i ↦ getRandInt (rand i) vNew.card
      let nOldest ← ← am.findOldest n 0 none vNew.sort
      let am ← am.dropReference nOldest
      return (1, am.setNew nUBucket ((am.vvNew nUBucket).erase nOldest))

variable (hash : List UInt8 → Uint256)

/-- Take an entry out of all new buckets. -/
def eraseNew (am : CAddrMan) (nId : ℤ) : CAddrMan :=
  let nErased := (Finset.univ.filter fun nUBucket ↦ nId ∈ am.vvNew nUBucket).card
  let am := am.updateInfo nId fun info ↦ { info with nRefCount := info.nRefCount - nErased }
  { am with vvNew := fun nUBucket ↦ (am.vvNew nUBucket).erase nId, nNew := am.nNew - 1 }

/-- Put an entry of a tried bucket back into a new bucket and another one into its place. -/
def replaceTried (am : CAddrMan) (nId : ℤ) (nOrigin : NewBucket) (nKBucket : TriedBucket) (nPos : ℕ) :
    Option CAddrMan := do
  let nIdOld ← (am.vvTried nKBucket)[nPos]?
  let infoOld ← am.mapInfo.lookup nIdOld
  let nUBucket := infoOld.getNewBucket hash am.nKey
  let am := am.updateInfo nIdOld fun info ↦ { info with fInTried := false, nRefCount := 1 }
  let nUBucket := if (am.vvNew nUBucket).card < ADDRMAN_NEW_BUCKET_SIZE then nUBucket else nOrigin
  let am := am.setNew nUBucket (insert nIdOld (am.vvNew nUBucket))
  let am := { am with nNew := am.nNew + 1 }
  let am := am.setTried nKBucket ((am.vvTried nKBucket).set nPos nId)
  some (am.updateInfo nId fun info ↦ { info with fInTried := true })

def makeTried (am : CAddrMan) (rand : ℕ → ℕ) (nId : ℤ) (nOrigin : NewBucket) : Option CAddrMan :=
  if nId ∉ am.vvNew nOrigin then none
  else do
    let am := am.eraseNew nId
    let info ← am.mapInfo.lookup nId
    if info.nRefCount ≠ 0 then none
    else
      let nKBucket := info.getTriedBucket hash am.nKey
      let vTried := am.vvTried nKBucket
      if vTried.length < ADDRMAN_TRIED_BUCKET_SIZE then
        let am := am.setTried nKBucket (vTried ++ [nId])
        let am := { am with nTried := am.nTried + 1 }
        some (am.updateInfo nId fun info ↦ { info with fInTried := true })
      else do
        let (vTried, nPos) ← am.selectTried rand nKBucket
        let nPos ← nPos
        (am.setTried nKBucket vTried).replaceTried hash nId nOrigin nKBucket nPos

/-- The new bucket of an entry that is found first, from a random bucket on. -/
def findNewBucket (am : CAddrMan) (nRnd : ℕ) (nId : ℤ) : Option NewBucket :=
  ((List.range ADDRMAN_NEW_BUCKET_COUNT).map fun n ↦ Fin.ofNat 256 (n + nRnd)).find? fun nB ↦
    nId ∈ am.vvNew nB

def good_ (am : CAddrMan) (rand : ℕ → ℕ) (addr : CService) (nTime : ℤ) : Option CAddrMan :=
  match am.find addr.toCNetAddr with
  | none => some am
  | some (nId, info) =>
      if info.toCService ≠ addr then some am
      else
        let am := am.updateInfo nId fun info ↦
          { info with
            nLastSuccess := nTime, nLastTry := nTime, nTime := UInt32.ofInt nTime, nAttempts := 0 }
        if info.fInTried then some am
        else
          match am.findNewBucket (getRandInt (rand 0) ADDRMAN_NEW_BUCKET_COUNT) nId with
          | none => some am
          | some nUBucket => am.makeTried hash (fun i ↦ rand (i + 1)) nId nUBucket

/-- What a known address learns from a message that names it. -/
def refresh (nNow nTimePenalty : ℤ) (addr : CAddress) (info : CAddrInfo) : CAddrInfo :=
  let fCurrentlyOnline : Bool := nNow - addr.nTime.toNat < 24 * 60 * 60
  let nUpdateInterval : ℤ := if fCurrentlyOnline then 60 * 60 else 24 * 60 * 60
  let nTime := if addr.nTime ≠ 0 ∧ (info.nTime = 0 ∨
      (info.nTime.toNat : ℤ) < addr.nTime.toNat - nUpdateInterval - nTimePenalty) then
    UInt32.ofInt (max 0 (addr.nTime.toNat - nTimePenalty)) else info.nTime
  { info with nTime := nTime, nServices := info.nServices ||| addr.nServices }

/-- Whether a known address gets no further reference. -/
def keepReferences (addr : CAddress) (info : CAddrInfo) (nRand : ℕ) : Bool :=
  if addr.nTime = 0 ∨ (info.nTime ≠ 0 ∧ addr.nTime ≤ info.nTime) then true
  else if info.fInTried then true
  else if info.nRefCount = ADDRMAN_NEW_BUCKETS_PER_ADDRESS then true
  else
    let nFactor := 2 ^ info.nRefCount.toNat
    nFactor > 1 && getRandInt nRand nFactor != 0

/-- The last part of `Add_`: enter an address in the new bucket of a source. -/
def addReference (am : CAddrMan) (nNow : ℤ) (rand : ℕ → ℕ) (nId : ℤ) (source : CNetAddr) :
    Option CAddrMan := do
  let info ← am.mapInfo.lookup nId
  let nUBucket := info.getNewBucketOf hash am.nKey source
  let vNew := am.vvNew nUBucket
  if nId ∈ vNew then some am
  else do
    let am := am.updateInfo nId fun info ↦ { info with nRefCount := info.nRefCount + 1 }
    let am ← if vNew.card = ADDRMAN_NEW_BUCKET_SIZE then
        (am.shrinkNew nNow rand nUBucket).map Prod.snd
      else some am
    some (am.setNew nUBucket (insert nId (am.vvNew nUBucket)))

def add_ (am : CAddrMan) (nNow : ℤ) (rand : ℕ → ℕ) (addr : CAddress) (source : CNetAddr)
    (nTimePenalty : ℤ) : Option (Bool × CAddrMan) :=
  if !addr.isRoutable then some (false, am)
  else
    match am.find addr.toCNetAddr with
    | some (nId, info) => do
        let info := refresh nNow nTimePenalty addr info
        let am := am.updateInfo nId (refresh nNow nTimePenalty addr)
        if keepReferences addr info (rand 0) then some (false, am)
        else
          let am ← am.addReference hash nNow (fun i ↦ rand (i + 1)) nId source
          some (false, am)
    | none => do
        let (nId, am) ← am.create addr source
        let am := am.updateInfo nId fun info ↦
          { info with nTime := UInt32.ofInt (max 0 (info.nTime.toNat - nTimePenalty)) }
        let am := { am with nNew := am.nNew + 1 }
        let am ← am.addReference hash nNow rand nId source
        some (true, am)

def attempt_ (am : CAddrMan) (addr : CService) (nTime : ℤ) : Option CAddrMan :=
  match am.find addr.toCNetAddr with
  | none => some am
  | some (nId, info) =>
      if info.toCService ≠ addr then some am
      else do
        let nAttempts ← increment info.nAttempts
        some (am.updateInfo nId fun info ↦ { info with nLastTry := nTime, nAttempts := nAttempts })

def connected_ (am : CAddrMan) (addr : CService) (nTime : ℤ) : CAddrMan :=
  match am.find addr.toCNetAddr with
  | none => am
  | some (nId, info) =>
      if info.toCService ≠ addr then am
      else if nTime - info.nTime.toNat > 20 * 60 then
        am.updateInfo nId fun info ↦ { info with nTime := UInt32.ofInt nTime }
      else am

/-- A turn of the loops of `Select_`: the random numbers for the bucket and for the position, and
whether the entry is taken, which a floating-point comparison decides. -/
structure SelectTurn where
  nBucket : ℕ
  nPos : ℕ
  fTake : Bool

/-- Look for an entry to take; the loop may still be running after its turns. -/
def selectLoop (am : CAddrMan) (bucket : ℕ → List ℤ) : List SelectTurn → Option (Option CAddrInfo)
  | [] => some none
  | turn :: turns =>
      let nIds := bucket turn.nBucket
      if nIds.length = 0 then am.selectLoop bucket turns
      else do
        let nId ← nIds[getRandInt turn.nPos nIds.length]?
        let info ← am.mapInfo.lookup nId
        if turn.fTake then some (some info) else am.selectLoop bucket turns

/-- `fTried` is the first decision, which depends on floating-point numbers too. -/
def select_ (am : CAddrMan) (fTried : Bool) (turns : List SelectTurn) : Option (Option CAddress) :=
  if am.vRandom.length = 0 then some (some CAddress.init)
  else
    let bucket := if fTried then fun n ↦ am.vvTried (Fin.ofNat 64 n)
      else fun n ↦ (am.vvNew (Fin.ofNat 256 n)).sort
    (am.selectLoop bucket turns).map (Option.map CAddrInfo.toCAddress)

def getAddrLoop (rand : ℕ → ℕ) : List ℕ → List CAddress → CAddrMan → Option (List CAddress × CAddrMan)
  | [], vAddr, am => some (vAddr, am)
  | n :: ns, vAddr, am => do
      let nRndPos := getRandInt (rand n) (am.vRandom.length - n) + n
      let am ← am.swapRandom n nRndPos
      let nId ← am.vRandom[n]?
      let info ← am.mapInfo.lookup nId
      getAddrLoop rand ns (vAddr ++ [info.toCAddress]) am

def getAddr_ (am : CAddrMan) (rand : ℕ → ℕ) : Option (List CAddress × CAddrMan) :=
  let nNodes := min (ADDRMAN_GETADDR_MAX_PCT * am.vRandom.length / 100) ADDRMAN_GETADDR_MAX
  getAddrLoop rand (List.range nNodes) [] am

/-- `std::map<int, int>`. -/
abbrev Counts := Finmap fun _ : ℤ ↦ ℤ

/-- The entries in the order of their ids. -/
def entries (am : CAddrMan) : List (ℤ × CAddrInfo) :=
  am.mapInfo.keys.sort.filterMap fun n ↦ (am.mapInfo.lookup n).map (n, ·)

def checkEntry (am : CAddrMan) (found : Finset ℤ × Counts) (entry : ℤ × CAddrInfo) :
    Except ℤ (Finset ℤ × Counts) := do
  let (n, info) := entry
  let found ← if info.fInTried then do
      rejectIf (info.nLastSuccess = 0) (-1)
      rejectIf (info.nRefCount ≠ 0) (-2)
      pure (insert n found.1, found.2)
    else do
      rejectIf (info.nRefCount < 0 ∨ info.nRefCount > ADDRMAN_NEW_BUCKETS_PER_ADDRESS) (-3)
      rejectIf (info.nRefCount = 0) (-4)
      pure (found.1, found.2.insert n info.nRefCount)
  rejectIf ((am.mapAddr.lookup info.toCNetAddr).getD 0 ≠ n) (-5)
  rejectIf (info.nRandomPos < 0 ∨ info.nRandomPos ≥ am.vRandom.length ∨
    am.vRandom[info.nRandomPos.toNat]? ≠ some n) (-14)
  rejectIf (info.nLastTry < 0) (-6)
  rejectIf (info.nLastSuccess < 0) (-8)
  return found

def checkTried (setTried : Finset ℤ) (nId : ℤ) : Except ℤ (Finset ℤ) := do
  rejectIf (nId ∉ setTried) (-11)
  return setTried.erase nId

def checkNew (mapNew : Counts) (nId : ℤ) : Except ℤ Counts :=
  match mapNew.lookup nId with
  | none => .error (-12)
  | some nCount =>
      if nCount - 1 = 0 then .ok (mapNew.erase nId) else .ok (mapNew.insert nId (nCount - 1))

def checks (am : CAddrMan) : Except ℤ Unit := do
  rejectIf ((am.vRandom.length : ℤ) ≠ am.nTried + am.nNew) (-7)
  let (setTried, mapNew) ← am.entries.foldlM am.checkEntry (∅, ∅)
  rejectIf ((setTried.card : ℤ) ≠ am.nTried) (-9)
  rejectIf ((mapNew.keys.card : ℤ) ≠ am.nNew) (-10)
  let setTried ← ((List.finRange 64).flatMap am.vvTried).foldlM checkTried setTried
  let mapNew ← ((List.finRange 256).flatMap fun n ↦ (am.vvNew n).sort).foldlM checkNew mapNew
  rejectIf (setTried.card ≠ 0) (-13)
  rejectIf (mapNew.keys.card ≠ 0) (-15)

def check_ (am : CAddrMan) : ℤ :=
  match am.checks with
  | .error code => code
  | .ok () => 0

end CAddrMan

end Electra.Net

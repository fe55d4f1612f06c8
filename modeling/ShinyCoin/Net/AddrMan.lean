import ShinyCoin.Wire.Serialize
import ShinyCoin.Lib.PMap
import ShinyCoin.Lib.TreeMap
import Mathlib.Data.Finset.Sort
import Mathlib.Data.Fintype.Basic
import Mathlib.Logic.Function.Basic

/-!
# The address manager

`CAddrMan` keeps what it knows about an address in `mapInfo`, under an id. The ids are in `vRandom`
in random order, `mapAddr` leads from an address to its id, and each id is in one bucket of tried
addresses or in up to four buckets of new ones. An operation is given its random numbers and what
`GetAdjustedTime` returns meanwhile; it has no result where an `assert` fails, or where `mapInfo` has
no entry for an id that is looked up in it. The random selection of an address to connect to is left
out.
-/

namespace ShinyCoin

/-! ## Addresses -/

/-- An IP address in network byte order -/
structure CNetAddr where
  ip : Vector UInt8 16
  deriving DecidableEq

structure CService extends CNetAddr where
  port : UInt16
  deriving DecidableEq

/-- An address with what it came with; `nLastTry` is in memory only. -/
structure CAddress extends CService where
  nServices : UInt64
  nTime : UInt32
  nLastTry : Int64 := 0
  deriving DecidableEq

def CService.getKey (addr : CService) : Bytes :=
  addr.ip.toList ++ [UInt8.ofNat (addr.port.toNat / 0x100), UInt8.ofNat (addr.port.toNat % 0x100)]

/-- What the buckets depend on: which addresses are routable, the groups of addresses, and the hash
of a stream. -/
structure NetEnv where
  isRoutable : CNetAddr → Bool
  getGroup : CNetAddr → Bytes
  hash : Bytes → Uint256

def ADDRMAN_TRIED_BUCKET_COUNT : Nat := 64
def ADDRMAN_TRIED_BUCKET_SIZE : Nat := 64
def ADDRMAN_NEW_BUCKET_COUNT : Nat := 256
def ADDRMAN_NEW_BUCKET_SIZE : Nat := 64
def ADDRMAN_TRIED_BUCKETS_PER_GROUP : Nat := 4
def ADDRMAN_NEW_BUCKETS_PER_SOURCE_GROUP : Nat := 32
def ADDRMAN_NEW_BUCKETS_PER_ADDRESS : Nat := 4
def ADDRMAN_TRIED_ENTRIES_INSPECT_ON_EVICT : Nat := 4
def ADDRMAN_HORIZON_DAYS : Nat := 30
def ADDRMAN_RETRIES : Nat := 3
def ADDRMAN_MAX_FAILURES : Nat := 10
def ADDRMAN_MIN_FAIL_DAYS : Nat := 7
def ADDRMAN_GETADDR_MAX_PCT : Nat := 23
def ADDRMAN_GETADDR_MAX : Nat := 2500

/-- The number of a bucket of tried addresses, and of one of new addresses -/
abbrev TriedBucket := Fin ADDRMAN_TRIED_BUCKET_COUNT
abbrev NewBucket := Fin ADDRMAN_NEW_BUCKET_COUNT

instance : NeZero ADDRMAN_NEW_BUCKET_COUNT := ⟨by decide⟩

/-- `CAddrInfo`; the last three are in memory only. -/
structure CAddrInfo extends CAddress where
  source : CNetAddr
  nLastSuccess : Int64 := 0
  nAttempts : Int32 := 0
  nRefCount : ℤ := 0
  fInTried : Bool := false
  nRandomPos : ℤ := -1
  deriving DecidableEq

namespace CAddrInfo

/-- `CAddrInfo(addrIn, addrSource)` -/
def new (addrIn : CAddress) (addrSource : CNetAddr) : CAddrInfo :=
  { toCAddress := { addrIn with nLastTry := 0 }, source := addrSource }

/-- `Get64` of the hash of what was written to a stream -/
def get64 (env : NetEnv) (ss : Bytes) : Nat := env.hash ss % 2 ^ 64

def getTriedBucket (env : NetEnv) (nKey : Bytes) (info : CAddrInfo) : TriedBucket :=
  let hash1 := get64 env (writeBytes nKey ++ writeBytes info.getKey)
  let hash2 := get64 env (writeBytes nKey ++ writeBytes (env.getGroup info.toCNetAddr)
    ++ Lib.toLE 8 (hash1 % ADDRMAN_TRIED_BUCKETS_PER_GROUP))
  ⟨hash2 % ADDRMAN_TRIED_BUCKET_COUNT, Nat.mod_lt _ (by decide)⟩

/-- `GetNewBucket(nKey, src)` -/
def getNewBucketFrom (env : NetEnv) (nKey : Bytes) (src : CNetAddr) (info : CAddrInfo) : NewBucket :=
  let vchSourceGroupKey := env.getGroup src
  let hash1 := get64 env (writeBytes nKey ++ writeBytes (env.getGroup info.toCNetAddr)
    ++ writeBytes vchSourceGroupKey)
  let hash2 := get64 env (writeBytes nKey ++ writeBytes vchSourceGroupKey
    ++ Lib.toLE 8 (hash1 % ADDRMAN_NEW_BUCKETS_PER_SOURCE_GROUP))
  ⟨hash2 % ADDRMAN_NEW_BUCKET_COUNT, Nat.mod_lt _ (by decide)⟩

/-- `GetNewBucket(nKey)`, with the default source -/
def getNewBucket (env : NetEnv) (nKey : Bytes) (info : CAddrInfo) : NewBucket :=
  info.getNewBucketFrom env nKey info.source

/-- "bad enough so that it can just be deleted" -/
def isTerrible (info : CAddrInfo) (nNow : ℤ) : Bool :=
  let nLastTry := info.nLastTry.toInt
  let nTime : ℤ := info.nTime.toNat
  let nLastSuccess := info.nLastSuccess.toInt
  let nAttempts := info.nAttempts.toInt
  -- "never remove things tried the last minute"
  if nLastTry ≠ 0 ∧ nNow - 60 ≤ nLastTry then false
  else
    -- "came in a flying DeLorean"
    decide (nNow + 10 * 60 < nTime) ||
    -- "not seen in over a month"
    (nTime == 0 || decide (ADDRMAN_HORIZON_DAYS * 86400 < nNow - nTime)) ||
    -- "tried three times and never a success"
    (nLastSuccess == 0 && decide (ADDRMAN_RETRIES ≤ nAttempts)) ||
    -- "10 successive failures in the last week"
    (decide (ADDRMAN_MIN_FAIL_DAYS * 86400 < nNow - nLastSuccess)
      && decide (ADDRMAN_MAX_FAILURES ≤ nAttempts))

end CAddrInfo

/-- `GetRandInt(nMax)`, from a random number -/
def getRandInt (r nMax : Nat) : Nat := if nMax = 0 then 0 else r % nMax

/-- A time as `unsigned int` -/
def timeOf (nTime : ℤ) : UInt32 := UInt32.ofNat (nTime % 2 ^ 32).toNat

/-! ## The tables -/

structure CAddrMan where
  nKey : Bytes
  nIdCount : Nat := 0
  mapInfo : Std.ExtTreeMap Nat CAddrInfo compare := ∅
  mapAddr : Lib.PMap CNetAddr Nat := Lib.PMap.empty
  vRandom : List Nat := []
  nTried : ℤ := 0
  vvTried : TriedBucket → List Nat := fun _ => []
  nNew : ℤ := 0
  vvNew : NewBucket → Finset Nat := fun _ => ∅

namespace CAddrMan

variable (env : NetEnv) (am : CAddrMan)

/-- An entry that is there is changed. -/
def updateInfo (nId : Nat) (f : CAddrInfo → CAddrInfo) : Option CAddrMan :=
  am.mapInfo[nId]?.map fun info => { am with mapInfo := am.mapInfo.insert nId (f info) }

def find (addr : CNetAddr) : Option (Nat × CAddrInfo) :=
  (am.mapAddr addr).bind fun nId => am.mapInfo[nId]?.map fun info => (nId, info)

/-- `Create`: the id, and the tables with the entry -/
def create (addr : CAddress) (addrSource : CNetAddr) : Nat × CAddrMan :=
  let nId := am.nIdCount
  let info := { CAddrInfo.new addr addrSource with nRandomPos := am.vRandom.length }
  (nId,
    { am with
      nIdCount := nId + 1
      mapInfo := am.mapInfo.insert nId info
      mapAddr := am.mapAddr.set addr.toCNetAddr nId
      vRandom := am.vRandom ++ [nId] })

def swapRandom (nRndPos1 nRndPos2 : ℤ) : Option CAddrMan :=
  if nRndPos1 = nRndPos2 then some am
  else if nRndPos1 < 0 ∨ nRndPos2 < 0 then none
  else
    am.vRandom[nRndPos1.toNat]?.bind fun nId1 =>
      am.vRandom[nRndPos2.toNat]?.bind fun nId2 =>
        (am.updateInfo nId1 fun info => { info with nRandomPos := nRndPos2 }).bind fun am =>
          (am.updateInfo nId2 fun info => { info with nRandomPos := nRndPos1 }).map fun am =>
            { am with vRandom := (am.vRandom.set nRndPos1.toNat nId2).set nRndPos2.toNat nId1 }

/-! ## Deleting -/

/-- The entry goes, with its place in `vRandom` and its address. -/
def deleteInfo (nId : Nat) (info : CAddrInfo) : Option CAddrMan :=
  (am.swapRandom info.nRandomPos ((am.vRandom.length : ℤ) - 1)).map fun am =>
    { am with
      vRandom := am.vRandom.dropLast
      mapAddr := am.mapAddr.erase info.toCNetAddr
      mapInfo := am.mapInfo.erase nId
      nNew := am.nNew - 1 }

/-- One reference less from a new bucket -/
def removeFromNew (nUBucket : NewBucket) (nId : Nat) : Option CAddrMan :=
  am.mapInfo[nId]?.bind fun info =>
    let info := { info with nRefCount := info.nRefCount - 1 }
    let am := { am with mapInfo := am.mapInfo.insert nId info }
    (if info.nRefCount = 0 then am.deleteInfo nId info else some am).map fun am =>
      { am with vvNew := Function.update am.vvNew nUBucket ((am.vvNew nUBucket).erase nId) }

/-- The first loop of `ShrinkNew`: the first deletable item, if there is one. The times are those at
which the items are looked at. -/
def firstTerrible (nNow : Nat → ℤ) : List Nat → Nat → Option (Option Nat)
  | [], _ => some none
  | nId :: ids, i =>
      am.mapInfo[nId]?.bind fun info =>
        if info.isTerrible (nNow i) then some (some nId) else firstTerrible nNow ids (i + 1)

/-- The second loop: the oldest of the items whose numbers were chosen -/
def oldestOf (n : List Nat) : List Nat → Nat → Option Nat → Option (Option Nat)
  | [], _, nOldest => some nOldest
  | nId :: ids, nI, nOldest =>
      if nI ∈ n then
        match nOldest with
        | none => oldestOf n ids (nI + 1) (some nId)
        | some nOldest =>
            am.mapInfo[nId]?.bind fun info =>
              am.mapInfo[nOldest]?.bind fun infoOldest =>
                oldestOf n ids (nI + 1) (some (if info.nTime < infoOldest.nTime then nId else nOldest))
      else oldestOf n ids (nI + 1) nOldest

/-- `ShrinkNew`, with what it returns -/
def shrinkNew (nNow : Nat → ℤ) (rand : Nat → Nat) (nUBucket : NewBucket) : Option (ℤ × CAddrMan) :=
  let vNew := (am.vvNew nUBucket).sort
  (am.firstTerrible nNow vNew 0).bind fun
    | some nId => (am.removeFromNew nUBucket nId).map fun am => (0, am)
    | none =>
        -- "otherwise, select four randomly, and pick the oldest of those to replace"
        let n := (List.range 4).map fun k => getRandInt (rand k) vNew.length
        (am.oldestOf n vNew 0 none).bind fun nOldest =>
          nOldest.bind fun nId => (am.removeFromNew nUBucket nId).map fun am => (1, am)

/-! ## To the tried table -/

/-- `vTried`, `nOldest` and `nOldestPos` in the loop of `SelectTried` -/
structure Selection where
  vTried : List Nat
  nOldest : Option Nat := none
  nOldestPos : Option Nat := none

/-- "random shuffle the first few elements", "find the least recently tried among them" -/
def selectStep (rand : Nat → Nat) (sel : Selection) (i : Nat) : Option Selection :=
  let nPos := getRandInt (rand i) (sel.vTried.length - i) + i
  sel.vTried[nPos]?.bind fun nTemp =>
    sel.vTried[i]?.bind fun front =>
      let vTried := (sel.vTried.set nPos front).set i nTemp
      match sel.nOldest with
      | none => some ⟨vTried, some nTemp, some nPos⟩
      | some nOldest =>
          am.mapInfo[nTemp]?.bind fun info =>
            am.mapInfo[nOldest]?.map fun infoOldest =>
              if info.nLastSuccess < infoOldest.nLastSuccess then ⟨vTried, some nTemp, some nPos⟩
              else ⟨vTried, sel.nOldest, sel.nOldestPos⟩

/-- `SelectTried`: the position it returns (`none` for -1), and the tables with the bucket shuffled. -/
def selectTried (rand : Nat → Nat) (nKBucket : TriedBucket) : Option (Option Nat × CAddrMan) :=
  let vTried := am.vvTried nKBucket
  ((List.range (min ADDRMAN_TRIED_ENTRIES_INSPECT_ON_EVICT vTried.length)).foldlM
    (am.selectStep rand) { vTried := vTried }).map fun sel =>
      (sel.nOldestPos, { am with vvTried := Function.update am.vvTried nKBucket sel.vTried })

/-- "otherwise, find an item to evict": the entry at the position goes back to a new bucket. -/
def evictTried (nKBucket : TriedBucket) (nPos nId : Nat) (nOrigin : NewBucket) : Option CAddrMan :=
  (am.vvTried nKBucket)[nPos]?.bind fun nIdOld =>
    am.mapInfo[nIdOld]?.map fun infoOld =>
      let nUBucket := infoOld.getNewBucket env am.nKey
      let infoOld := { infoOld with fInTried := false, nRefCount := 1 }
      -- "check whether there is place in that one"; otherwise "the new bucket nId came from"
      let nBack := if (am.vvNew nUBucket).card < ADDRMAN_NEW_BUCKET_SIZE then nUBucket else nOrigin
      { am with
        mapInfo := am.mapInfo.insert nIdOld infoOld
        vvNew := Function.update am.vvNew nBack (insert nIdOld (am.vvNew nBack))
        nNew := am.nNew + 1
        vvTried := Function.update am.vvTried nKBucket ((am.vvTried nKBucket).set nPos nId) }

/-- "remove the entry from all new buckets" -/
def removeFromAllNew (nId : Nat) : Option CAddrMan :=
  let nRefs : ℤ := (Finset.univ.filter fun b => nId ∈ am.vvNew b).card
  (am.updateInfo nId fun info => { info with nRefCount := info.nRefCount - nRefs }).map fun am =>
    { am with vvNew := fun b => (am.vvNew b).erase nId, nNew := am.nNew - 1 }

def makeTried (rand : Nat → Nat) (nId : Nat) (nOrigin : NewBucket) : Option CAddrMan :=
  if nId ∉ am.vvNew nOrigin then none
  else
    (am.removeFromAllNew nId).bind fun am =>
      am.mapInfo[nId]?.bind fun info =>
        if info.nRefCount ≠ 0 then none
        else
          -- "what tried bucket to move the entry to"
          let nKBucket := info.getTriedBucket env am.nKey
          (if (am.vvTried nKBucket).length < ADDRMAN_TRIED_BUCKET_SIZE then
            some { am with
              vvTried := Function.update am.vvTried nKBucket (am.vvTried nKBucket ++ [nId])
              nTried := am.nTried + 1 }
          else
            (am.selectTried rand nKBucket).bind fun (nPos, am) =>
              nPos.bind fun nPos => am.evictTried env nKBucket nPos nId nOrigin).bind fun am =>
            am.updateInfo nId fun info => { info with fInTried := true }

/-! ## The operations -/

/-- "find a bucket it is in now", from a random one on -/
def bucketOf (nRnd nId : Nat) : Option NewBucket :=
  ((List.finRange ADDRMAN_NEW_BUCKET_COUNT).map fun n => n + Fin.ofNat ADDRMAN_NEW_BUCKET_COUNT nRnd).find?
    fun b => nId ∈ am.vvNew b

/-- `Good_` -/
def good (rand : Nat → Nat) (addr : CService) (nTime : Int64) : Option CAddrMan :=
  match am.find addr.toCNetAddr with
  | none => some am
  | some (nId, info) =>
      -- "check whether we are talking about the exact same CService"
      if info.toCService ≠ addr then some am
      else
        (am.updateInfo nId fun info =>
          { info with
            nLastSuccess := nTime
            nLastTry := nTime
            nTime := timeOf nTime.toInt
            nAttempts := 0 }).bind fun am =>
          -- "if it is already in the tried set, don't do anything else"
          if info.fInTried then some am
          else
            match am.bucketOf (getRandInt (rand 0) ADDRMAN_NEW_BUCKET_COUNT) nId with
            | none => some am
            | some nUBucket => am.makeTried env (fun k => rand (k + 1)) nId nUBucket

/-- `nTime` of a known address that is announced again -/
def refreshedTime (addr : CAddress) (nTimePenalty nAdjustedTime : ℤ) (nTime : UInt32) : UInt32 :=
  let fCurrentlyOnline := nAdjustedTime - addr.nTime.toNat < 24 * 60 * 60
  let nUpdateInterval : ℤ := if fCurrentlyOnline then 60 * 60 else 24 * 60 * 60
  if addr.nTime ≠ 0 ∧
      (nTime = 0 ∨ (nTime.toNat : ℤ) < addr.nTime.toNat - nUpdateInterval - nTimePenalty) then
    timeOf (max 0 (addr.nTime.toNat - nTimePenalty))
  else nTime

/-- What a call of `Add_` is given: its arguments, the times and the random numbers. -/
structure AddCall where
  addr : CAddress
  source : CNetAddr
  nTimePenalty : Int64
  nAdjustedTime : ℤ
  nNow : Nat → ℤ
  rand : Nat → Nat

/-- The end of `Add_`: the entry goes to the bucket of the source, unless it is there. -/
def addToBucket (call : AddCall) (nId : Nat) : Option CAddrMan :=
  am.mapInfo[nId]?.bind fun info =>
    let nUBucket := info.getNewBucketFrom env am.nKey call.source
    if nId ∈ am.vvNew nUBucket then some am
    else
      (am.updateInfo nId fun info => { info with nRefCount := info.nRefCount + 1 }).bind fun am =>
        (if (am.vvNew nUBucket).card = ADDRMAN_NEW_BUCKET_SIZE then
          (am.shrinkNew call.nNow (fun k => call.rand (k + 1)) nUBucket).map Prod.snd
        else some am).map fun am =>
          { am with vvNew := Function.update am.vvNew nUBucket (insert nId (am.vvNew nUBucket)) }

/-- A known address: whether there is a reason to put it into another bucket -/
def wantsBucket (call : AddCall) (info : CAddrInfo) : Bool :=
  let addr := call.addr
  -- "do not update if no new information is present"
  if addr.nTime = 0 ∨ info.nTime ≠ 0 ∧ addr.nTime ≤ info.nTime then false
  else if info.fInTried then false
  -- "do not update if the max reference count is reached"
  else if info.nRefCount = ADDRMAN_NEW_BUCKETS_PER_ADDRESS then false
  else
    -- "stochastic test: previous nRefCount == N: 2^N times harder to increase it"
    let nFactor := 2 ^ info.nRefCount.toNat
    !(decide (1 < nFactor) && getRandInt (call.rand 0) nFactor != 0)

/-- `Add_`, with what it returns -/
def add (call : AddCall) : Option (Bool × CAddrMan) :=
  let addr := call.addr
  let nTimePenalty := call.nTimePenalty.toInt
  if !env.isRoutable addr.toCNetAddr then some (false, am)
  else
    match am.find addr.toCNetAddr with
    | some (nId, info) =>
        let info :=
          { info with
            nTime := refreshedTime addr nTimePenalty call.nAdjustedTime info.nTime
            nServices := info.nServices ||| addr.nServices }
        let am := { am with mapInfo := am.mapInfo.insert nId info }
        if !wantsBucket call info then some (false, am)
        else (am.addToBucket env call nId).map fun am => (false, am)
    | none =>
        let (nId, am) := am.create addr call.source
        (am.updateInfo nId fun info =>
          { info with nTime := timeOf (max 0 ((info.nTime.toNat : ℤ) - nTimePenalty)) }).bind fun am =>
            ({ am with nNew := am.nNew + 1 }.addToBucket env call nId).map fun am => (true, am)

/-- `Attempt_` -/
def attempt (addr : CService) (nTime : Int64) : Option CAddrMan :=
  match am.find addr.toCNetAddr with
  | none => some am
  | some (nId, info) =>
      if info.toCService ≠ addr then some am
      else am.updateInfo nId fun info => { info with nLastTry := nTime, nAttempts := info.nAttempts + 1 }

/-- `Connected_` -/
def connected (addr : CService) (nTime : Int64) : Option CAddrMan :=
  match am.find addr.toCNetAddr with
  | none => some am
  | some (nId, info) =>
      if info.toCService ≠ addr then some am
      else
        let nUpdateInterval : ℤ := 20 * 60
        if nUpdateInterval < nTime.toInt - info.nTime.toNat then
          am.updateInfo nId fun info => { info with nTime := timeOf nTime.toInt }
        else some am

/-- One address for `GetAddr_`: the one that comes to position `n` -/
def getAddrStep (rand : Nat → Nat) (out : List CAddress × CAddrMan) (n : Nat) :
    Option (List CAddress × CAddrMan) :=
  let nRndPos := getRandInt (rand n) (out.2.vRandom.length - n) + n
  (out.2.swapRandom n nRndPos).bind fun am =>
    am.vRandom[n]?.bind fun nId =>
      am.mapInfo[nId]?.map fun info => (out.1 ++ [info.toCAddress], am)

/-- `GetAddr_`: the addresses, after those in `vAddr` already -/
def getAddr (rand : Nat → Nat) (vAddr : List CAddress) : Option (List CAddress × CAddrMan) :=
  let nNodes := min (ADDRMAN_GETADDR_MAX_PCT * am.vRandom.length / 100) ADDRMAN_GETADDR_MAX
  (List.range nNodes).foldlM (getAddrStep rand) (vAddr, am)

end CAddrMan

end ShinyCoin

import ShinyCoin.Net.AddrMan

/-!
# The address file

What is written of the address manager to the disk, and how it is built again. The ids are not
written: the new entries come first, in the order of their ids, then the tried ones, and the new
buckets hold positions in this order. `vRandom`, `mapAddr`, the tried buckets and the reference
counts are made again from the rest. Inside of `CAddrMan` the name `nVersion` is the version byte of
the format, so this is also the version that is written with each address.
-/

namespace ShinyCoin

/-! ## Addresses -/

namespace CNetAddr

/-- `FLATDATA(ip)` -/
def serialize (addr : CNetAddr) : Bytes := addr.ip.toList

def unserialize : Lib.Reader Err CNetAddr := do
  let ip ← Lib.readBytes endOfData 16
  return ⟨Vector.ofFn fun i => ip.getD i 0⟩

end CNetAddr

/-- The bytes of an `unsigned short` in the other order -/
def htons (port : Nat) : Nat := port % 256 * 256 + port / 256

namespace CService

def serialize (addr : CService) : Bytes :=
  addr.toCNetAddr.serialize ++ Lib.toLE 2 (htons addr.port.toNat)

def unserialize : Lib.Reader Err CService := do
  let addr ← CNetAddr.unserialize
  let portN ← Lib.readLE endOfData 2
  return { toCNetAddr := addr, port := UInt16.ofNat (htons portN) }

end CService

namespace CAddress

/-- With `SER_DISK` -/
def serialize (nVersion : ℤ) (addr : CAddress) : Bytes :=
  Lib.toLEInt 4 nVersion ++ (Lib.toLE 4 addr.nTime.toNat
    ++ (Lib.toLE 8 addr.nServices.toNat ++ addr.toCService.serialize))

/-- With `SER_DISK`; `Init` has set `nLastTry`. -/
def unserialize : Lib.Reader Err CAddress := do
  let _nVersion ← Lib.readLEInt endOfData 4
  let nTime ← Lib.readLE endOfData 4
  let nServices ← Lib.readLE endOfData 8
  let addr ← CService.unserialize
  return { toCService := addr, nServices := UInt64.ofNat nServices, nTime := UInt32.ofNat nTime }

end CAddress

namespace CAddrInfo

def serialize (nVersion : ℤ) (info : CAddrInfo) : Bytes :=
  info.toCAddress.serialize nVersion ++ (info.source.serialize
    ++ (Lib.toLEInt 8 info.nLastSuccess.toInt ++ Lib.toLEInt 4 info.nAttempts.toInt))

/-- Into a new object -/
def unserialize : Lib.Reader Err CAddrInfo := do
  let addr ← CAddress.unserialize
  let source ← CNetAddr.unserialize
  let nLastSuccess ← Lib.readLEInt endOfData 8
  let nAttempts ← Lib.readLEInt endOfData 4
  return {
    toCAddress := addr
    source := source
    nLastSuccess := Int64.ofInt nLastSuccess
    nAttempts := Int32.ofInt nAttempts }

/-- `CAddrInfo()` -/
def default : CAddrInfo where
  ip := Vector.replicate 16 0
  port := 0
  nServices := 1
  nTime := 100000000
  source := ⟨Vector.replicate 16 0⟩

end CAddrInfo

namespace CAddrMan

/-! ## Writing -/

/-- The entries with references, up to `nNew` of them, and the numbers they get -/
def writeNew (nVersion nNew : ℤ) :
    List (Nat × CAddrInfo) → ℤ → Lib.PMap Nat ℤ → Bytes × Lib.PMap Nat ℤ
  | [], _, mapUnkIds => ([], mapUnkIds)
  | (nId, info) :: infos, nIds, mapUnkIds =>
      -- "this means nNew was wrong, oh ow"
      if nIds = nNew then ([], mapUnkIds)
      else if info.nRefCount ≠ 0 then
        let (bytes, mapUnkIds) := writeNew nVersion nNew infos (nIds + 1) (mapUnkIds.set nId nIds)
        (info.serialize nVersion ++ bytes, mapUnkIds)
      else writeNew nVersion nNew infos nIds (mapUnkIds.set nId nIds)

/-- The tried entries, up to `nTried` of them -/
def writeTried (nVersion nTried : ℤ) : List (Nat × CAddrInfo) → ℤ → Bytes
  | [], _ => []
  | (_, info) :: infos, nIds =>
      if nIds = nTried then []
      else if info.fInTried then info.serialize nVersion ++ writeTried nVersion nTried infos (nIds + 1)
      else writeTried nVersion nTried infos nIds

/-- A bucket of new entries -/
def writeBucket (mapUnkIds : Lib.PMap Nat ℤ) (vNew : Finset Nat) : Bytes :=
  Lib.toLEInt 4 vNew.card ++ vNew.sort.flatMap fun nId => Lib.toLEInt 4 ((mapUnkIds nId).getD 0)

def serialize (am : CAddrMan) : Bytes :=
  let nVersion : Nat := 0
  let infos := am.mapInfo.toList
  let (vchNew, mapUnkIds) := writeNew nVersion am.nNew infos 0 Lib.PMap.empty
  Lib.toLE 1 nVersion ++ (writeBytes am.nKey ++ (Lib.toLEInt 4 am.nNew ++ (Lib.toLEInt 4 am.nTried
    ++ (Lib.toLEInt 4 ADDRMAN_NEW_BUCKET_COUNT ++ (vchNew ++ (writeTried nVersion am.nTried infos 0
    ++ (List.finRange ADDRMAN_NEW_BUCKET_COUNT).flatMap fun b => writeBucket mapUnkIds (am.vvNew b)))))))

/-! ## Reading -/

/-- A new entry comes in under the number `n`, and into its bucket if their number has changed. -/
def addNew (env : NetEnv) (nUBuckets : ℤ) (am : CAddrMan) (n : Nat) (info : CAddrInfo) : CAddrMan :=
  let info := { info with nRandomPos := am.vRandom.length }
  let am : CAddrMan :=
    { am with
      mapInfo := am.mapInfo.insert n info
      mapAddr := am.mapAddr.set info.toCNetAddr n
      vRandom := am.vRandom ++ [n] }
  if nUBuckets ≠ ADDRMAN_NEW_BUCKET_COUNT then
    let b := info.getNewBucket env am.nKey
    { am with
      mapInfo := am.mapInfo.insert n { info with nRefCount := info.nRefCount + 1 }
      vvNew := Function.update am.vvNew b (insert n (am.vvNew b)) }
  else am

/-- A tried entry comes in, or is lost. -/
def addTried (env : NetEnv) (am : CAddrMan) (nLost : ℤ) (info : CAddrInfo) : CAddrMan × ℤ :=
  let b := info.getTriedBucket env am.nKey
  if (am.vvTried b).length < ADDRMAN_TRIED_BUCKET_SIZE then
    ({ am with
      mapInfo := am.mapInfo.insert am.nIdCount
        { info with nRandomPos := am.vRandom.length, fInTried := true }
      mapAddr := am.mapAddr.set info.toCNetAddr am.nIdCount
      vRandom := am.vRandom ++ [am.nIdCount]
      vvTried := Function.update am.vvTried b (am.vvTried b ++ [am.nIdCount])
      nIdCount := am.nIdCount + 1 }, nLost)
  else (am, nLost + 1)

/-- An entry comes into a new bucket, if it has less than 4 references. -/
def addIndex (nUBuckets : ℤ) (am : CAddrMan) (b : NewBucket) (nIndex : Nat) : CAddrMan :=
  let info := am.mapInfo[nIndex]?.getD CAddrInfo.default
  if nUBuckets = ADDRMAN_NEW_BUCKET_COUNT ∧ info.nRefCount < ADDRMAN_NEW_BUCKETS_PER_ADDRESS then
    { am with
      mapInfo := am.mapInfo.insert nIndex { info with nRefCount := info.nRefCount + 1 }
      vvNew := Function.update am.vvNew b (insert nIndex (am.vvNew b)) }
  else { am with mapInfo := am.mapInfo.insert nIndex info }

def readNew (env : NetEnv) (nUBuckets : ℤ) (am : CAddrMan) (n : Nat) : Lib.Reader Err CAddrMan := do
  let info ← CAddrInfo.unserialize
  return am.addNew env nUBuckets n info

def readTried (env : NetEnv) (am : CAddrMan × ℤ) (_n : Nat) : Lib.Reader Err (CAddrMan × ℤ) := do
  let info ← CAddrInfo.unserialize
  return am.1.addTried env am.2 info

/-- An index below zero would be an id of its own; the file that was written has none. -/
def readIndex (nUBuckets : ℤ) (b : NewBucket) (am : CAddrMan) (_n : Nat) : Lib.Reader Err CAddrMan := do
  let nIndex ← Lib.readLEInt endOfData 4
  if nIndex < 0 then throw (.exc "mapInfo[nIndex]")
  return am.addIndex nUBuckets b nIndex.toNat

/-- A bucket; one beyond the last is outside of `vvNew`. -/
def readBucket (nUBuckets : ℤ) (am : CAddrMan) (b : Nat) : Lib.Reader Err CAddrMan := do
  if h : b < ADDRMAN_NEW_BUCKET_COUNT then
    let nSize ← Lib.readLEInt endOfData 4
    (List.range nSize.toNat).foldlM (readIndex nUBuckets ⟨b, h⟩) am
  else throw (.exc "vvNew[b]")

def unserialize (env : NetEnv) : Lib.Reader Err CAddrMan := do
  let _nVersion ← Lib.readLE endOfData 1
  let nKey ← readByteVector
  let nNew ← Lib.readLEInt endOfData 4
  let nTried ← Lib.readLEInt endOfData 4
  let nUBuckets ← Lib.readLEInt endOfData 4
  let am ← (List.range nNew.toNat).foldlM (readNew env nUBuckets)
    { nKey := nKey, nNew := nNew, nTried := nTried }
  let (am, nLost) ← (List.range nTried.toNat).foldlM (readTried env)
    ({ am with nIdCount := nNew.toNat }, 0)
  (List.range nUBuckets.toNat).foldlM (readBucket nUBuckets) { am with nTried := am.nTried - nLost }

end CAddrMan

end ShinyCoin

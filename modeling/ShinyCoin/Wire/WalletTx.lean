import ShinyCoin.Lib.TreeMap
import ShinyCoin.Wallet.Wallet
import ShinyCoin.Wire.Block

/-!
# Wallet transactions on disk

The record has no fields for the account and the flags of the spent outputs. They travel as two more
entries of `mapValue`, which are put in before the record is sized or written, looked up after it was
read, and taken away again in each case.
-/

namespace ShinyCoin.Wire

open Std (ExtTreeMap)

/-- `sizeof` of the elements of the vectors in a wallet transaction -/
structure WalletSizeof extends Sizeof where
  cMerkleTx : Nat
  orderForm : Nat
  cMerkleTx_pos : 0 < 5000000 / cMerkleTx
  orderForm_pos : 0 < 5000000 / orderForm

/-! ## Pairs and maps of strings -/

abbrev MapValue := ExtTreeMap Bytes Bytes compare

def pairNSerSize (item : Bytes × Bytes) : UInt32 := bytesNSerSize item.1 + bytesNSerSize item.2

def writePair (item : Bytes × Bytes) : Bytes := writeBytes item.1 ++ writeBytes item.2

def readPair : Lib.Reader Err (Bytes × Bytes) := do
  let first ← readString
  let second ← readString
  return (first, second)

def pairSerializeSize (item : Bytes × Bytes) : Nat :=
  bytesSerializeSize item.1 + bytesSerializeSize item.2

def mapNSerSize (m : MapValue) : UInt32 :=
  m.toList.foldl (fun nSize item => nSize + pairNSerSize item)
    (UInt32.ofNat (getSizeOfCompactSize m.size))

def writeMap (m : MapValue) : Bytes := writeCompactSize m.size ++ m.toList.flatMap writePair

/-- `insert` keeps an entry that is there. -/
def readEntry (m : MapValue) (_ : Nat) : Lib.Reader Err MapValue := do
  let item ← readPair
  return m.insertIfNew item.1 item.2

def readMap : Lib.Reader Err MapValue := do
  let nSize ← readCompactSize
  (List.range nSize).foldlM readEntry ∅

/-- Both strings are of a length that can be read. -/
def PairFits (item : Bytes × Bytes) : Prop := item.1.length ≤ MAX_SIZE ∧ item.2.length ≤ MAX_SIZE

theorem length_writePair (item : Bytes × Bytes) :
    (writePair item).length = pairSerializeSize item := by
  simp [writePair, pairSerializeSize]

theorem pairNSerSize_eq (item : Bytes × Bytes) :
    pairNSerSize item = UInt32.ofNat (pairSerializeSize item) := by
  simp [pairNSerSize, pairSerializeSize, bytesNSerSize_eq, UInt32.ofNat_add]

theorem yields_readPair {item : Bytes × Bytes} (h : PairFits item) :
    Lib.Yields readPair (writePair item) item :=
  (yields_readString h.1).bind ((yields_readString h.2).last (Prod.mk item.1))

/-- A map is written as the vector of its entries. -/
theorem writeMap_eq (m : MapValue) : writeMap m = writeVector writePair m.toList := by
  rw [writeMap, writeVector, ExtTreeMap.length_toList]

theorem mapNSerSize_eq (m : MapValue) :
    mapNSerSize m = UInt32.ofNat (vectorSerializeSize pairSerializeSize m.toList) := by
  rw [← vectorNSerSize_eq pairNSerSize_eq, vectorNSerSize, ExtTreeMap.length_toList]
  rfl

theorem length_writeMap (m : MapValue) :
    (writeMap m).length = vectorSerializeSize pairSerializeSize m.toList := by
  rw [writeMap_eq, length_writeVector length_writePair]

/-- The entries are inserted one by one, and none of them is there before. -/
theorem yields_readMap {m : MapValue} (hsize : m.size ≤ MAX_SIZE)
    (h : ∀ item ∈ m.toList, PairFits item) : Lib.Yields readMap (writeMap m) m := by
  apply Lib.Yields.bind (yields_readCompactSize hsize)
  rw [← ExtTreeMap.length_toList]
  have hloop : ∃ m', Lib.Yields ((List.range m.toList.length).foldlM readEntry ∅)
      (m.toList.flatMap writePair) m' ∧ Lib.HasEntries m.toList m' := by
    apply Lib.yields_foldlM Lib.HasEntries _ Lib.hasEntries_empty
    intro done item rest m' hdone hm'
    have hitem : item ∈ m.toList := by simp [hdone]
    have hnew : item.1 ∉ done.map Prod.fst := by
      -- the keys of the entries are distinct
      have hnodup := Lib.nodup_keys_toList m
      rw [hdone, List.map_append, List.map_cons] at hnodup
      intro hmem
      exact (List.nodup_append.mp hnodup).2.2 _ hmem _ List.mem_cons_self rfl
    exact ⟨_, (yields_readPair (h item hitem)).last fun item => m'.insertIfNew item.1 item.2,
      hm'.insertIfNew hnew item.2⟩
  obtain ⟨m', hread, hentries⟩ := hloop
  exact hread.congr rfl (hentries.unique (Lib.hasEntries_toList m))

/-! ## Transactions with their Merkle branch -/

/-- `CMerkleTx`, a transaction and where it is in a block -/
structure CMerkleTx where
  tx : CTransaction
  hashBlock : Uint256 := 0
  vMerkleBranch : List Uint256 := []
  nIndex : ℤ := -1

namespace CMerkleTx

def nSerSize (mtx : CMerkleTx) : UInt32 :=
  mtx.tx.nSerSize + 32 + vectorNSerSize (fun _ => 32) mtx.vMerkleBranch + 4

def serialize (mtx : CMerkleTx) : Bytes :=
  mtx.tx.serialize ++ (Lib.toLE 32 mtx.hashBlock
    ++ (writeVector (Lib.toLE 32) mtx.vMerkleBranch ++ Lib.toLEInt 4 mtx.nIndex))

/-- Read into an object with the transaction `old` -/
def unserialize (sz : Sizeof) (old : CTransaction) : Lib.Reader Err CMerkleTx := do
  let tx ← CTransaction.unserialize sz old
  let hashBlock ← Lib.readLE endOfData 32
  let vMerkleBranch ← readVector 32 (by decide) (Lib.readLE endOfData 32)
  let nIndex ← Lib.readLEInt endOfData 4
  return { tx, hashBlock, vMerkleBranch, nIndex }

def getSerializeSize (mtx : CMerkleTx) : Nat :=
  mtx.tx.getSerializeSize + 32 + vectorSerializeSize (fun _ => 32) mtx.vMerkleBranch + 4

/-- The serialized fields, with the transaction's others as in `old` -/
def onto (mtx : CMerkleTx) (old : CTransaction) : CMerkleTx := { mtx with tx := mtx.tx.onto old }

structure Fits (mtx : CMerkleTx) : Prop where
  tx : mtx.tx.Fits
  hashBlock : mtx.hashBlock < 2 ^ 256
  vMerkleBranch : mtx.vMerkleBranch.length ≤ MAX_SIZE
  hash : ∀ hash ∈ mtx.vMerkleBranch, hash < 2 ^ 256
  nIndex : -(2 ^ 31) ≤ mtx.nIndex ∧ mtx.nIndex < 2 ^ 31

theorem length_serialize (mtx : CMerkleTx) : mtx.serialize.length = mtx.getSerializeSize := by
  have hbranch : (writeVector (Lib.toLE 32) mtx.vMerkleBranch).length
      = vectorSerializeSize (fun _ => 32) mtx.vMerkleBranch :=
    length_writeVector (fun hash => Lib.length_toLE 32 hash) _
  simp [serialize, getSerializeSize, CTransaction.length_serialize, hbranch]
  omega

theorem nSerSize_eq (mtx : CMerkleTx) : mtx.nSerSize = UInt32.ofNat mtx.getSerializeSize := by
  have hbranch : vectorNSerSize (fun _ => 32) mtx.vMerkleBranch
      = UInt32.ofNat (vectorSerializeSize (fun _ => 32) mtx.vMerkleBranch) :=
    vectorNSerSize_eq (fun _ => rfl) _
  simp [nSerSize, getSerializeSize, CTransaction.nSerSize_eq, hbranch, UInt32.ofNat_add]

theorem yields_unserialize (sz : Sizeof) (old : CTransaction) {mtx : CMerkleTx} (h : mtx.Fits) :
    Lib.Yields (unserialize sz old) mtx.serialize (mtx.onto old) := by
  have hblock : mtx.hashBlock < 256 ^ 32 := h.hashBlock
  have hindex := h.nIndex
  have hbranch : Lib.Yields (readVector 32 (by decide) (Lib.readLE endOfData 32))
      (writeVector (Lib.toLE 32) mtx.vMerkleBranch) (mtx.vMerkleBranch.map id) := by
    apply yields_readVector h.vMerkleBranch
    intro hash hmem
    have hlt : hash < 256 ^ 32 := h.hash hash hmem
    exact Lib.yields_readLE endOfData hlt
  rw [List.map_id] at hbranch
  apply Lib.Yields.bind (CTransaction.yields_unserialize sz old h.tx)
  apply Lib.Yields.bind (Lib.yields_readLE endOfData hblock)
  apply Lib.Yields.bind hbranch
  exact (Lib.yields_readLEInt endOfData (by norm_num; omega) (by norm_num; omega)).last
    (CMerkleTx.mk (mtx.tx.onto old) mtx.hashBlock mtx.vMerkleBranch)

end CMerkleTx

/-! ## Wallet transactions -/

/-- `CWalletTx` as it is on disk -/
structure CWalletTx extends CMerkleTx where
  vtxPrev : List CMerkleTx := []
  mapValue : MapValue := ∅
  vOrderForm : List (Bytes × Bytes) := []
  fTimeReceivedIsTxTime : Nat := 0
  nTimeReceived : Nat := 0
  fFromMe : UInt8 := 0
  strFromAccount : Bytes := []
  vfSpent : List UInt8 := []

/-- `"fromaccount"` -/
def fromaccount : Bytes := [102, 114, 111, 109, 97, 99, 99, 111, 117, 110, 116]

/-- `"spent"` -/
def spent : Bytes := [115, 112, 101, 110, 116]

/-- `"version"` -/
def version : Bytes := [118, 101, 114, 115, 105, 111, 110]

/-- The keys that stand for fields -/
def reservedKeys : List Bytes := [fromaccount, version, spent]

/-- `f ? '1' : '0'` -/
def writeFlag (f : UInt8) : UInt8 := if f ≠ 0 then 49 else 48

/-- `c != '0'` -/
def readFlag (c : UInt8) : UInt8 := if c ≠ 48 then 1 else 0

def writeChar (c : UInt8) : Bytes := Lib.toLE 1 c.toNat

def readChar : Lib.Reader Err UInt8 := UInt8.ofNat <$> Lib.readLE endOfData 1

namespace CWalletTx

/-- Whether an output is spent, as a `char` -/
def fSpent (wtx : CWalletTx) : UInt8 := if wtx.vfSpent.any (· ≠ 0) then 1 else 0

/-- Before the object is sized or written -/
def enterReserved (wtx : CWalletTx) : CWalletTx :=
  { wtx with mapValue := (wtx.mapValue.insert fromaccount wtx.strFromAccount).insert spent
                           (wtx.vfSpent.map writeFlag) }

/-- After each pass -/
def eraseReserved (wtx : CWalletTx) : CWalletTx :=
  { wtx with mapValue := ((wtx.mapValue.erase fromaccount).erase version).erase spent }

/-- The fields of the object in the order of `READWRITE` -/
def writeFields (wtx : CWalletTx) : Bytes :=
  wtx.toCMerkleTx.serialize ++ (writeVector CMerkleTx.serialize wtx.vtxPrev
    ++ (writeMap wtx.mapValue ++ (writeVector writePair wtx.vOrderForm
    ++ (Lib.toLE 4 wtx.fTimeReceivedIsTxTime ++ (Lib.toLE 4 wtx.nTimeReceived
    ++ (writeChar wtx.fFromMe ++ writeChar wtx.fSpent))))))

def fieldsNSerSize (wtx : CWalletTx) : UInt32 :=
  wtx.toCMerkleTx.nSerSize + vectorNSerSize CMerkleTx.nSerSize wtx.vtxPrev + mapNSerSize wtx.mapValue
    + vectorNSerSize pairNSerSize wtx.vOrderForm + 4 + 4 + 1 + 1

def getSerializeSize (wtx : CWalletTx) : Nat :=
  wtx.toCMerkleTx.getSerializeSize + vectorSerializeSize CMerkleTx.getSerializeSize wtx.vtxPrev
    + vectorSerializeSize pairSerializeSize wtx.mapValue.toList
    + vectorSerializeSize pairSerializeSize wtx.vOrderForm + 4 + 4 + 1 + 1

/-- The bytes written, and the object after it was written -/
def serialize (wtx : CWalletTx) : Bytes × CWalletTx :=
  (wtx.enterReserved.writeFields, wtx.enterReserved.eraseReserved)

/-- `GetSerializeSize`, and the object after it was sized -/
def nSerSize (wtx : CWalletTx) : UInt32 × CWalletTx :=
  (wtx.enterReserved.fieldsNSerSize, wtx.enterReserved.eraseReserved)

/-- Read into the object `wtx`, of which `Init` leaves the transaction; `fresh` is what the
constructor makes of a transaction. Without an entry for the flags all outputs have the flag
`fSpent`. -/
def unserialize (sz : WalletSizeof) (fresh : CTransaction) (wtx : CWalletTx) :
    Lib.Reader Err CWalletTx := do
  let toCMerkleTx ← CMerkleTx.unserialize sz.toSizeof wtx.tx
  let vtxPrev ← readVector sz.cMerkleTx sz.cMerkleTx_pos (CMerkleTx.unserialize sz.toSizeof fresh)
  let mapValue ← readMap
  let vOrderForm ← readVector sz.orderForm sz.orderForm_pos readPair
  let fTimeReceivedIsTxTime ← Lib.readLE endOfData 4
  let nTimeReceived ← Lib.readLE endOfData 4
  let fFromMe ← readChar
  let fSpent ← readChar
  -- `mapValue["fromaccount"]` makes an entry that is not there
  let mapValue := mapValue.insertIfNew fromaccount []
  let strFromAccount := mapValue[fromaccount]?.getD []
  let vfSpent := match mapValue[spent]? with
    | some str => str.map readFlag
    | none => List.replicate toCMerkleTx.tx.vout.length fSpent
  return eraseReserved
    { toCMerkleTx, vtxPrev, mapValue, vOrderForm, fTimeReceivedIsTxTime, nTimeReceived, fFromMe,
      strFromAccount, vfSpent }

/-- The serialized fields, with the others of the transactions as in the objects read into -/
def onto (wtx : CWalletTx) (fresh old : CTransaction) : CWalletTx :=
  { wtx with toCMerkleTx := wtx.toCMerkleTx.onto old
             vtxPrev := wtx.vtxPrev.map fun prev => prev.onto fresh }

/-- Every field fits its type, and no vector, map or string that is written is longer than
`MAX_SIZE`; two entries of the map are the reserved ones. -/
structure Fits (wtx : CWalletTx) : Prop where
  merkleTx : wtx.toCMerkleTx.Fits
  vtxPrev : wtx.vtxPrev.length ≤ MAX_SIZE
  prev : ∀ prev ∈ wtx.vtxPrev, prev.Fits
  mapValue : wtx.mapValue.size + 2 ≤ MAX_SIZE
  entry : ∀ key value, wtx.mapValue[key]? = some value → PairFits (key, value)
  vOrderForm : wtx.vOrderForm.length ≤ MAX_SIZE
  order : ∀ item ∈ wtx.vOrderForm, PairFits item
  fTimeReceivedIsTxTime : wtx.fTimeReceivedIsTxTime < 2 ^ 32
  nTimeReceived : wtx.nTimeReceived < 2 ^ 32
  strFromAccount : wtx.strFromAccount.length ≤ MAX_SIZE
  vfSpent : wtx.vfSpent.length ≤ MAX_SIZE

/-- None of the keys that stand for fields is taken. -/
def Unreserved (wtx : CWalletTx) : Prop := ∀ key ∈ reservedKeys, key ∉ wtx.mapValue

variable {wtx : CWalletTx}

/-! ### The reserved entries -/

theorem getElem?_enterReserved (wtx : CWalletTx) (key : Bytes) :
    wtx.enterReserved.mapValue[key]?
      = if key = spent then some (wtx.vfSpent.map writeFlag)
        else if key = fromaccount then some wtx.strFromAccount else wtx.mapValue[key]? := by
  rw [enterReserved, Lib.getElem?_insert, Lib.getElem?_insert]

theorem getElem?_spent (wtx : CWalletTx) :
    wtx.enterReserved.mapValue[spent]? = some (wtx.vfSpent.map writeFlag) := by
  rw [getElem?_enterReserved, if_pos rfl]

theorem getElem?_fromaccount (wtx : CWalletTx) :
    wtx.enterReserved.mapValue[fromaccount]? = some wtx.strFromAccount := by
  rw [getElem?_enterReserved, if_neg (by decide), if_pos rfl]

/-- Looking the account up makes no entry. -/
theorem getElem?_readBack (wtx : CWalletTx) (key : Bytes) :
    (wtx.enterReserved.mapValue.insertIfNew fromaccount [])[key]?
      = wtx.enterReserved.mapValue[key]? := by
  rw [Lib.getElem?_insertIfNew, if_neg]
  rintro ⟨rfl, hnone⟩
  rw [getElem?_fromaccount] at hnone
  cases hnone

theorem getElem?_eraseReserved (wtx : CWalletTx) (key : Bytes) :
    wtx.eraseReserved.mapValue[key]?
      = if key ∈ reservedKeys then none else wtx.mapValue[key]? := by
  simp only [eraseReserved, Lib.getElem?_erase, reservedKeys, List.mem_cons, List.not_mem_nil]
  grind

/-- The other entries come back as they were. -/
theorem mapValue_eraseReserved_eq {m : MapValue} (hwtx : wtx.Unreserved)
    (h : ∀ key ∉ reservedKeys, m[key]? = wtx.mapValue[key]?) :
    (eraseReserved { wtx with mapValue := m }).mapValue = wtx.mapValue := by
  apply ExtTreeMap.ext_getElem?
  intro key
  rw [getElem?_eraseReserved]
  split
  · next hkey => rw [Lib.getElem?_eq_none_iff.mpr (hwtx key hkey)]
  · next hkey => exact h key hkey

theorem getElem?_enterReserved_of_notMem (wtx : CWalletTx) {key : Bytes} (h : key ∉ reservedKeys) :
    wtx.enterReserved.mapValue[key]? = wtx.mapValue[key]? := by
  simp only [reservedKeys, List.mem_cons, not_or] at h
  rw [getElem?_enterReserved, if_neg h.2.2.1, if_neg h.1]

/-- The object is the same after a pass as before. -/
theorem eraseReserved_enterReserved (h : wtx.Unreserved) :
    wtx.enterReserved.eraseReserved = wtx := by
  have hmap : wtx.enterReserved.eraseReserved.mapValue = wtx.mapValue :=
    mapValue_eraseReserved_eq h fun key hkey => getElem?_enterReserved_of_notMem wtx hkey
  cases wtx
  simpa [eraseReserved, enterReserved] using hmap

theorem size_enterReserved (h : wtx.Unreserved) :
    wtx.enterReserved.mapValue.size = wtx.mapValue.size + 2 := by
  have haccount : fromaccount ∉ wtx.mapValue := h _ (by simp [reservedKeys])
  have hspent : spent ∉ wtx.mapValue.insert fromaccount wtx.strFromAccount := by
    rw [← Lib.getElem?_eq_none_iff, Lib.getElem?_insert, if_neg (by decide),
      Lib.getElem?_eq_none_iff]
    exact h _ (by simp [reservedKeys])
  rw [enterReserved, Lib.size_insert_of_notMem hspent, Lib.size_insert_of_notMem haccount]

theorem pairFits_enterReserved (h : wtx.Fits) {item : Bytes × Bytes}
    (hitem : item ∈ wtx.enterReserved.mapValue.toList) : PairFits item := by
  obtain ⟨key, value⟩ := item
  rw [ExtTreeMap.mem_toList_iff_getElem?_eq_some, getElem?_enterReserved] at hitem
  split at hitem
  · next hkey =>
    obtain rfl := Option.some.inj hitem
    subst hkey
    exact ⟨show spent.length ≤ MAX_SIZE by decide, by simpa using h.vfSpent⟩
  · split at hitem
    · next hkey =>
      obtain rfl := Option.some.inj hitem
      subst hkey
      exact ⟨show fromaccount.length ≤ MAX_SIZE by decide, h.strFromAccount⟩
    · exact h.entry key value hitem

/-! ### The round trip -/

theorem length_writeFields (wtx : CWalletTx) :
    wtx.writeFields.length = wtx.getSerializeSize := by
  simp [writeFields, getSerializeSize, writeChar, CMerkleTx.length_serialize, length_writeMap,
    length_writeVector CMerkleTx.length_serialize, length_writeVector length_writePair]
  omega

theorem fieldsNSerSize_eq (wtx : CWalletTx) :
    wtx.fieldsNSerSize = UInt32.ofNat wtx.getSerializeSize := by
  simp [fieldsNSerSize, getSerializeSize, CMerkleTx.nSerSize_eq, mapNSerSize_eq,
    vectorNSerSize_eq CMerkleTx.nSerSize_eq, vectorNSerSize_eq pairNSerSize_eq, UInt32.ofNat_add]

theorem yields_readChar (c : UInt8) : Lib.Yields readChar (writeChar c) c := by
  have hlt : c.toNat < 256 ^ 1 := by simpa using c.toNat_lt
  have hread := (Lib.yields_readLE endOfData hlt).map UInt8.ofNat
  rwa [UInt8.ofNat_toNat] at hread

/-- The flags that come back: every `char` other than 0 has become a 1. -/
def normal (wtx : CWalletTx) : CWalletTx :=
  { wtx with vfSpent := wtx.vfSpent.map fun f => if f ≠ 0 then 1 else 0 }

theorem readFlag_writeFlag (f : UInt8) : readFlag (writeFlag f) = if f ≠ 0 then 1 else 0 := by
  unfold writeFlag
  split <;> decide

theorem normal_eq_self (h : ∀ f ∈ wtx.vfSpent, f = 0 ∨ f = 1) : wtx.normal = wtx := by
  have hflags : wtx.vfSpent.map (fun f => if f ≠ 0 then 1 else 0) = wtx.vfSpent := by
    refine (List.map_congr_left fun f hf => ?_).trans (List.map_id _)
    rcases h f hf with rfl | rfl <;> rfl
  rw [normal, hflags]

theorem yields_unserialize (sz : WalletSizeof) (fresh : CTransaction) (old : CWalletTx)
    (h : wtx.Fits) (hkeys : wtx.Unreserved) :
    Lib.Yields (unserialize sz fresh old) wtx.serialize.1 (wtx.normal.onto fresh old.tx) := by
  have hreceived : wtx.fTimeReceivedIsTxTime < 256 ^ 4 := h.fTimeReceivedIsTxTime
  have htime : wtx.nTimeReceived < 256 ^ 4 := h.nTimeReceived
  have hsize : wtx.enterReserved.mapValue.size ≤ MAX_SIZE := by
    rw [size_enterReserved hkeys]
    exact h.mapValue
  have horder : Lib.Yields (readVector sz.orderForm sz.orderForm_pos readPair)
      (writeVector writePair wtx.vOrderForm) (wtx.vOrderForm.map id) :=
    yields_readVector h.vOrderForm fun item hitem => yields_readPair (h.order item hitem)
  rw [List.map_id] at horder
  apply Lib.Yields.bind (CMerkleTx.yields_unserialize sz.toSizeof old.tx h.merkleTx)
  apply Lib.Yields.bind (yields_readVector h.vtxPrev fun prev hprev =>
    CMerkleTx.yields_unserialize sz.toSizeof fresh (h.prev prev hprev))
  apply Lib.Yields.bind (yields_readMap hsize fun item hitem => pairFits_enterReserved h hitem)
  apply Lib.Yields.bind horder
  apply Lib.Yields.bind (Lib.yields_readLE endOfData hreceived)
  apply Lib.Yields.bind (Lib.yields_readLE endOfData htime)
  apply Lib.Yields.bind (yields_readChar wtx.fFromMe)
  apply Lib.Yields.congr ((yields_readChar _).last _) rfl
  have hspent : (wtx.vfSpent.map writeFlag).map readFlag = wtx.normal.vfSpent := by
    rw [List.map_map]
    exact List.map_congr_left fun f _ => readFlag_writeFlag f
  have hmap : (eraseReserved
      { wtx with mapValue := wtx.enterReserved.mapValue.insertIfNew fromaccount [] }).mapValue
      = wtx.mapValue :=
    mapValue_eraseReserved_eq hkeys fun key hkey =>
      (getElem?_readBack wtx key).trans (getElem?_enterReserved_of_notMem wtx hkey)
  rw [getElem?_readBack, getElem?_readBack, getElem?_fromaccount, getElem?_spent]
  dsimp only [Option.getD_some]
  rw [hspent]
  cases wtx
  simpa [eraseReserved, onto, normal] using hmap

/-- What the wallet sees of a record in memory -/
def inMemory (wtx : CWalletTx) : ShinyCoin.CWalletTx where
  tx := wtx.tx
  hashBlock := wtx.hashBlock
  vMerkleBranch := wtx.vMerkleBranch
  nIndex := wtx.nIndex
  fFromMe := wtx.fFromMe ≠ 0
  vfSpent := wtx.vfSpent.map fun f => f ≠ 0

/-- Whatever stands for the flags, the wallet sees the same of the record that was read back. -/
theorem inMemory_read_back (sz : WalletSizeof) (fresh : CTransaction) (old : CWalletTx)
    (h : wtx.Fits) (hkeys : wtx.Unreserved) (rest : Bytes) :
    ∃ read, (unserialize sz fresh old).run (wtx.serialize.1 ++ rest) = .ok (read, rest) ∧
      read.inMemory = { wtx.inMemory with tx := wtx.tx.onto old.tx } := by
  refine ⟨_, yields_unserialize sz fresh old h hkeys rest, ?_⟩
  simp [inMemory, onto, CMerkleTx.onto, normal]

end CWalletTx

/-- Writing and sizing leave the object as it was, the size is the number of bytes as long as there
are fewer than 2^32, and what was written is read back into any object, with nothing behind it
touched and no reserved key left. -/
theorem walletTx_round_trip (sz : WalletSizeof) (fresh : CTransaction) (wtx : CWalletTx)
    (hkeys : wtx.Unreserved) (hflags : ∀ f ∈ wtx.vfSpent, f = 0 ∨ f = 1) :
    wtx.serialize.2 = wtx ∧ wtx.nSerSize.2 = wtx ∧
    (wtx.serialize.1.length < 2 ^ 32 → wtx.nSerSize.1.toNat = wtx.serialize.1.length) ∧
    (wtx.Fits → ∀ (old : CWalletTx) (rest : Bytes),
      (CWalletTx.unserialize sz fresh old).run (wtx.serialize.1 ++ rest)
        = .ok (wtx.onto fresh old.tx, rest) ∧
      (wtx.onto fresh old.tx).Unreserved) := by
  refine ⟨CWalletTx.eraseReserved_enterReserved hkeys, CWalletTx.eraseReserved_enterReserved hkeys,
    fun hlen => ?_, fun hfits old rest => ⟨?_, hkeys⟩⟩
  · have hlength := CWalletTx.length_writeFields wtx.enterReserved
    rw [CWalletTx.serialize, hlength] at hlen ⊢
    exact toNat_nSerSize (CWalletTx.fieldsNSerSize_eq wtx.enterReserved) hlen
  · have hread := CWalletTx.yields_unserialize sz fresh old hfits hkeys rest
    rwa [CWalletTx.normal_eq_self hflags] at hread

/-- A 64-bit system -/
def WalletSizeof.lp64 : WalletSizeof where
  toSizeof := .lp64
  cMerkleTx := 224
  orderForm := 16
  cMerkleTx_pos := by decide
  orderForm_pos := by decide

/-- A record with an entry of its own and one of two outputs spent -/
def sampleTx : CWalletTx where
  tx := longTx 1 3
  vtxPrev := [{ tx := longTx 0 0 }]
  mapValue := (∅ : MapValue).insert [99] [120]
  fFromMe := 1
  strFromAccount := [97]
  vfSpent := [1, 0]

theorem sampleTx_fits : sampleTx.Fits where
  merkleTx := by
    refine ⟨longTx_fits (by decide) (by decide), ?_, ?_, ?_, ?_⟩ <;> simp [sampleTx]
  vtxPrev := by decide
  prev prev hprev := by
    obtain rfl := List.mem_singleton.mp hprev
    refine ⟨longTx_fits (by decide) (by decide), ?_, ?_, ?_, ?_⟩ <;> simp
  mapValue := by decide
  entry key value h := by
    rw [sampleTx, Lib.getElem?_insert] at h
    split at h
    · next hkey =>
      obtain rfl := Option.some.inj h
      subst hkey
      exact ⟨show 1 ≤ MAX_SIZE by decide, show 1 ≤ MAX_SIZE by decide⟩
    · simp at h
  vOrderForm := by decide
  order := by simp [sampleTx]
  fTimeReceivedIsTxTime := by decide
  nTimeReceived := by decide
  strFromAccount := by decide
  vfSpent := by decide

theorem walletTx_round_trip_sampleTx :
    sampleTx.serialize.2 = sampleTx ∧
    sampleTx.nSerSize.1.toNat = sampleTx.serialize.1.length ∧
    ∀ old rest, (CWalletTx.unserialize .lp64 (longTx 0 0) old).run (sampleTx.serialize.1 ++ rest)
      = .ok (sampleTx.onto (longTx 0 0) old.tx, rest) := by
  have hlen : sampleTx.serialize.1.length < 2 ^ 32 := by
    rw [CWalletTx.serialize, CWalletTx.length_writeFields]
    decide
  obtain ⟨hwrite, -, hsize, hread⟩ := walletTx_round_trip .lp64 (longTx 0 0) sampleTx
    (show ∀ key ∈ reservedKeys, key ∉ sampleTx.mapValue by decide) (by simp [sampleTx])
  exact ⟨hwrite, hsize hlen, fun old rest => (hread sampleTx_fits old rest).1⟩

/-! ### A string that is too long -/

theorem fails_readCompactSize {nSize : Nat} (h : MAX_SIZE < nSize) (hlt : nSize < 2 ^ 64) :
    Lib.Fails readCompactSize (writeCompactSize nSize)
      (.exc "ReadCompactSize() : size too large") := by
  have hmax : MAX_SIZE = 0x02000000 := rfl
  have hlast : Lib.Fails
      (do if MAX_SIZE < nSize then throw (.exc "ReadCompactSize() : size too large")
          return nSize : Lib.Reader Err Nat) [] (.exc "ReadCompactSize() : size too large") := by
    rw [if_pos h]
    exact (Lib.Fails.throw _).first _
  unfold writeCompactSize readCompactSize
  rw [if_neg (by omega), if_neg (by omega)]
  split_ifs
  · apply Lib.Yields.bind_fails (Lib.yields_readLE endOfData (show 254 < 256 ^ 1 by decide))
    rw [← List.append_nil (Lib.toLE 4 nSize)]
    exact Lib.Yields.bind_fails (Lib.yields_readLE endOfData (by omega)) hlast
  · apply Lib.Yields.bind_fails (Lib.yields_readLE endOfData (show 255 < 256 ^ 1 by decide))
    rw [← List.append_nil (Lib.toLE 8 nSize)]
    exact Lib.Yields.bind_fails (Lib.yields_readLE endOfData (by omega)) hlast

/-- A record for an account with a name of `n` bytes -/
def accountTx (n : Nat) : CWalletTx where
  tx := longTx 0 0
  strFromAccount := List.replicate n 0

theorem fails_accountTx {n : Nat} (h : MAX_SIZE < n) (hlt : n < 2 ^ 64) (sz : WalletSizeof)
    (fresh : CTransaction) (old : CWalletTx) :
    Lib.Fails (CWalletTx.unserialize sz fresh old) (accountTx n).serialize.1
      (.exc "ReadCompactSize() : size too large") := by
  have htx : (accountTx n).toCMerkleTx.Fits := by
    refine ⟨longTx_fits (Nat.zero_le _) (Nat.zero_le _), ?_, ?_, ?_, ?_⟩ <;>
      simp [accountTx]
  have hsize : (accountTx n).enterReserved.mapValue.size = 2 := rfl
  have hentries : (accountTx n).enterReserved.mapValue.toList
      = [(fromaccount, List.replicate n 0), (spent, [])] := rfl
  have hpair : Lib.Fails readPair (writePair (fromaccount, List.replicate n 0))
      (.exc "ReadCompactSize() : size too large") := by
    apply Lib.Yields.bind_fails (yields_readString (show fromaccount.length ≤ MAX_SIZE by decide))
    have hname : Lib.Fails readCompactSize (writeCompactSize (List.replicate n (0 : UInt8)).length)
        (.exc "ReadCompactSize() : size too large") := by
      rw [List.length_replicate]
      exact fails_readCompactSize h hlt
    exact ((hname.first _).append _).first _
  have hmap : Lib.Fails readMap (writeMap (accountTx n).enterReserved.mapValue)
      (.exc "ReadCompactSize() : size too large") := by
    rw [writeMap, hsize, hentries]
    apply Lib.Yields.bind_fails (yields_readCompactSize (by decide))
    exact (((hpair.first _).append _).first _)
  have hprev : Lib.Yields
      (readVector sz.cMerkleTx sz.cMerkleTx_pos (CMerkleTx.unserialize sz.toSizeof fresh))
      (writeVector CMerkleTx.serialize []) (List.map id []) :=
    yields_readVector (Nat.zero_le _) (List.forall_mem_nil _)
  apply Lib.Yields.bind_fails (CMerkleTx.yields_unserialize sz.toSizeof old.tx htx)
  apply Lib.Yields.bind_fails hprev
  exact (hmap.first _).append _

/-- The name of an account that is longer than 32 megabytes is written, and not read back. -/
theorem not_walletTx_round_trip :
    ¬ ∀ wtx : CWalletTx, wtx.Unreserved → (∀ f ∈ wtx.vfSpent, f = 0 ∨ f = 1) →
      ∀ (sz : WalletSizeof) (fresh : CTransaction) (old : CWalletTx) (rest : Bytes), ∃ read,
        (CWalletTx.unserialize sz fresh old).run (wtx.serialize.1 ++ rest) = .ok (read, rest) ∧
        read.strFromAccount = wtx.strFromAccount := by
  intro h
  obtain ⟨read, hread, -⟩ := h (accountTx (MAX_SIZE + 1)) (by simp [accountTx, CWalletTx.Unreserved])
    (by simp [accountTx]) .lp64 (longTx 0 0) sampleTx []
  rw [fails_accountTx (Nat.lt_succ_self _) (by decide)] at hread
  cases hread

end ShinyCoin.Wire

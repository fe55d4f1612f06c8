import ShinyCoin.Core.Env
import ShinyCoin.Lib.Reader

/-!
# Serialization

The three functions `IMPLEMENT_SERIALIZE` makes of a list of fields, for transactions and blocks:
`nSerSize` is what `GetSerializeSize` returns (an `unsigned int`), `serialize` what is written, and
`unserialize` reads into an object. None of them looks at the version of the stream: transactions
and blocks put their own `nVersion` in its place.
-/

namespace ShinyCoin

/-- `sizeof` of what vectors hold. It decides in which blocks they are read, so it is positive and
at most the 5000000 bytes of a block. -/
structure Sizeof where
  cTxInfo : Nat
  cTxIn : Nat
  cTxOut : Nat
  cTransaction : Nat
  cTxInfo_pos : 0 < 5000000 / cTxInfo
  cTxIn_pos : 0 < 5000000 / cTxIn
  cTxOut_pos : 0 < 5000000 / cTxOut
  cTransaction_pos : 0 < 5000000 / cTransaction

def SER_NETWORK : Nat := 2 ^ 0
def SER_DISK : Nat := 2 ^ 1
def SER_GETHASH : Nat := 2 ^ 2
def SER_BLOCKHEADERONLY : Nat := 2 ^ 17

/-- What a stream throws when it is at its end -/
def endOfData : Err := .exc "CDataStream::read() : end of data"

/-! ## Compact sizes -/

def writeCompactSize (nSize : Nat) : Bytes :=
  if nSize < 253 then Lib.toLE 1 nSize
  else if nSize ≤ 0xffff then Lib.toLE 1 253 ++ Lib.toLE 2 nSize
  else if nSize ≤ 0xffffffff then Lib.toLE 1 254 ++ Lib.toLE 4 nSize
  else Lib.toLE 1 255 ++ Lib.toLE 8 nSize

def readCompactSize : Lib.Reader Err Nat := do
  let chSize ← Lib.readLE endOfData 1
  let nSizeRet ←
    if chSize < 253 then pure chSize
    else if chSize = 253 then Lib.readLE endOfData 2
    else if chSize = 254 then Lib.readLE endOfData 4
    else Lib.readLE endOfData 8
  if MAX_SIZE < nSizeRet then throw (.exc "ReadCompactSize() : size too large")
  return nSizeRet

@[simp] theorem length_writeCompactSize (nSize : Nat) :
    (writeCompactSize nSize).length = getSizeOfCompactSize nSize := by
  unfold writeCompactSize getSizeOfCompactSize
  split_ifs <;> simp

theorem yields_readCompactSize {nSize : Nat} (h : nSize ≤ MAX_SIZE) :
    Lib.Yields readCompactSize (writeCompactSize nSize) nSize := by
  have hmax : MAX_SIZE = 0x02000000 := rfl
  have hlast : Lib.Yields
      (do if MAX_SIZE < nSize then throw (.exc "ReadCompactSize() : size too large")
          return nSize : Lib.Reader Err Nat) [] nSize := by
    rw [if_neg (by omega)]
    exact .pure nSize
  unfold writeCompactSize readCompactSize
  split_ifs with h1 h2 h3
  · rw [← List.append_nil (Lib.toLE 1 nSize)]
    apply Lib.Yields.bind (Lib.yields_readLE endOfData (by omega))
    simp only [h1, if_true]
    exact hlast
  · apply Lib.Yields.bind (Lib.yields_readLE endOfData (show 253 < 256 ^ 1 by decide))
    rw [← List.append_nil (Lib.toLE 2 nSize)]
    exact Lib.Yields.bind (Lib.yields_readLE endOfData (by omega)) hlast
  · apply Lib.Yields.bind (Lib.yields_readLE endOfData (show 254 < 256 ^ 1 by decide))
    rw [← List.append_nil (Lib.toLE 4 nSize)]
    exact Lib.Yields.bind (Lib.yields_readLE endOfData (by omega)) hlast
  · -- a size that needs 8 bytes is too large
    omega

/-! ## Strings and vectors -/

/-- Strings, scripts and vectors of bytes -/
def writeBytes (s : Bytes) : Bytes := writeCompactSize s.length ++ s

def readString : Lib.Reader Err Bytes := do
  let nSize ← readCompactSize
  Lib.readBytes endOfData nSize

/-- Scripts and vectors of bytes are read in blocks, "so bogus size value won't cause out of
memory". -/
def readByteVector : Lib.Reader Err Bytes := do
  let nSize ← readCompactSize
  Lib.readInBlocks (Lib.readBytes endOfData) (1 + 4999999 / 1) (by decide) nSize

def writeVector {α : Type} (write : α → Bytes) (v : List α) : Bytes :=
  writeCompactSize v.length ++ v.flatMap write

def readVector {α : Type} (sizeof : Nat) (hpos : 0 < 5000000 / sizeof) (item : Lib.Reader Err α) :
    Lib.Reader Err (List α) := do
  let nSize ← readCompactSize
  Lib.readInBlocks (Lib.readMany item) (5000000 / sizeof) hpos nSize

def bytesNSerSize (s : Bytes) : UInt32 :=
  UInt32.ofNat (getSizeOfCompactSize s.length) + UInt32.ofNat s.length

def vectorNSerSize {α : Type} (size : α → UInt32) (v : List α) : UInt32 :=
  v.foldl (fun nSize a => nSize + size a) (UInt32.ofNat (getSizeOfCompactSize v.length))

section

variable {α : Type} {s : Bytes} {v : List α}

@[simp] theorem length_writeBytes (s : Bytes) : (writeBytes s).length = bytesSerializeSize s := by
  simp [writeBytes, bytesSerializeSize]

theorem length_writeVector {write : α → Bytes} {size : α → Nat}
    (h : ∀ a, (write a).length = size a) (v : List α) :
    (writeVector write v).length = vectorSerializeSize size v := by
  simp [writeVector, vectorSerializeSize, List.length_flatMap, h]

theorem bytesNSerSize_eq (s : Bytes) : bytesNSerSize s = UInt32.ofNat (bytesSerializeSize s) := by
  unfold bytesNSerSize bytesSerializeSize
  rw [UInt32.ofNat_add]

theorem vectorNSerSize_eq {nSerSize : α → UInt32} {size : α → Nat}
    (h : ∀ a, nSerSize a = UInt32.ofNat (size a)) (v : List α) :
    vectorNSerSize nSerSize v = UInt32.ofNat (vectorSerializeSize size v) := by
  have hfold : ∀ n : Nat, v.foldl (fun nSize a => nSize + nSerSize a) (UInt32.ofNat n)
      = UInt32.ofNat (n + (v.map size).sum) := by
    induction v with
    | nil => intro n; rfl
    | cons a v ih =>
        intro n
        rw [List.foldl_cons, h, ← UInt32.ofNat_add, ih, List.map_cons, List.sum_cons, Nat.add_assoc]
  exact hfold _

theorem yields_readString (h : s.length ≤ MAX_SIZE) : Lib.Yields readString (writeBytes s) s :=
  (yields_readCompactSize h).bind (Lib.yields_readBytes endOfData s)

theorem yields_readByteVector (h : s.length ≤ MAX_SIZE) :
    Lib.Yields readByteVector (writeBytes s) s := by
  apply Lib.Yields.bind (yields_readCompactSize h)
  have hblocks : Lib.Yields
      (Lib.readInBlocks (Lib.readBytes endOfData) (1 + 4999999 / 1) (by decide) s.length)
      (s.flatMap fun b => [b]) (s.map id) := by
    apply Lib.yields_readInBlocks
    intro part _
    simpa using Lib.yields_readBytes endOfData part
  simpa using hblocks

theorem yields_readVector {sizeof : Nat} {hpos : 0 < 5000000 / sizeof} {item : Lib.Reader Err α}
    {β : Type} {write : β → Bytes} {value : β → α} {v : List β} (hlen : v.length ≤ MAX_SIZE)
    (h : ∀ b ∈ v, Lib.Yields item (write b) (value b)) :
    Lib.Yields (readVector sizeof hpos item) (writeVector write v) (v.map value) := by
  apply Lib.Yields.bind (yields_readCompactSize hlen)
  apply Lib.yields_readInBlocks
  intro part hpart
  exact Lib.yields_readMany fun b hb => h b (hpart hb)

end

/-! ## Infos -/

namespace TxInfoKey

def nSerSize (key : TxInfoKey) : UInt32 := 1 + bytesNSerSize key.keyString

def serialize (key : TxInfoKey) : Bytes := Lib.toLE 1 key.type.toNat ++ writeBytes key.keyString

def unserialize : Lib.Reader Err TxInfoKey := do
  let type ← Lib.readLE endOfData 1
  let keyString ← readString
  return ⟨UInt8.ofNat type, keyString⟩

end TxInfoKey

namespace CTxInfo

def nSerSize (info : CTxInfo) : UInt32 := info.key.nSerSize + bytesNSerSize info.value

def serialize (info : CTxInfo) : Bytes := info.key.serialize ++ writeBytes info.value

def unserialize : Lib.Reader Err CTxInfo := do
  let key ← TxInfoKey.unserialize
  let value ← readString
  return ⟨key, value⟩

/-- The lengths the format has room for -/
structure Fits (info : CTxInfo) : Prop where
  keyString : info.key.keyString.length ≤ MAX_SIZE
  value : info.value.length ≤ MAX_SIZE

theorem length_serialize (info : CTxInfo) : info.serialize.length = info.getSerializeSize := by
  simp [serialize, TxInfoKey.serialize, getSerializeSize]
  omega

theorem nSerSize_eq (info : CTxInfo) : info.nSerSize = UInt32.ofNat info.getSerializeSize := by
  simp [nSerSize, TxInfoKey.nSerSize, getSerializeSize, bytesNSerSize_eq, UInt32.ofNat_add]

theorem yields_unserialize {info : CTxInfo} (h : info.Fits) :
    Lib.Yields unserialize info.serialize info := by
  have hkey : Lib.Yields TxInfoKey.unserialize info.key.serialize info.key := by
    apply Lib.Yields.bind (Lib.yields_readLE endOfData (by simpa using info.key.type.toNat_lt))
    apply Lib.Yields.congr ((yields_readString h.keyString).last _) rfl
    rw [UInt8.ofNat_toNat]
  exact hkey.bind ((yields_readString h.value).last (CTxInfo.mk info.key))

end CTxInfo

/-! ## Inputs and outputs -/

namespace COutPoint

/-- `FLATDATA(*this)` -/
def serialize (o : COutPoint) : Bytes := Lib.toLE 32 o.hash ++ Lib.toLE 4 o.n

def unserialize : Lib.Reader Err COutPoint := do
  let hash ← Lib.readLE endOfData 32
  let n ← Lib.readLE endOfData 4
  return ⟨hash, n⟩

structure Fits (o : COutPoint) : Prop where
  hash : o.hash < 2 ^ 256
  n : o.n < 2 ^ 32

theorem length_serialize (o : COutPoint) : o.serialize.length = 36 := by
  simp [serialize]

theorem yields_unserialize {o : COutPoint} (h : o.Fits) : Lib.Yields unserialize o.serialize o := by
  have hhash : o.hash < 256 ^ 32 := h.hash
  have hn : o.n < 256 ^ 4 := h.n
  exact (Lib.yields_readLE endOfData hhash).bind
    ((Lib.yields_readLE endOfData hn).last (COutPoint.mk o.hash))

end COutPoint

namespace CTxIn

def nSerSize (txin : CTxIn) : UInt32 :=
  36 + bytesNSerSize txin.scriptSig + 4 + vectorNSerSize CTxInfo.nSerSize txin.infos

def serialize (txin : CTxIn) : Bytes :=
  txin.prevout.serialize ++ (writeBytes txin.scriptSig
    ++ (Lib.toLE 4 txin.nSequence ++ writeVector CTxInfo.serialize txin.infos))

def unserialize (sz : Sizeof) : Lib.Reader Err CTxIn := do
  let prevout ← COutPoint.unserialize
  let scriptSig ← readByteVector
  let nSequence ← Lib.readLE endOfData 4
  let infos ← readVector sz.cTxInfo sz.cTxInfo_pos CTxInfo.unserialize
  return ⟨prevout, scriptSig, nSequence, infos⟩

structure Fits (txin : CTxIn) : Prop where
  prevout : txin.prevout.Fits
  scriptSig : txin.scriptSig.length ≤ MAX_SIZE
  nSequence : txin.nSequence < 2 ^ 32
  infos : txin.infos.length ≤ MAX_SIZE
  info : ∀ info ∈ txin.infos, info.Fits

theorem length_serialize (txin : CTxIn) : txin.serialize.length = txin.getSerializeSize := by
  simp [serialize, getSerializeSize, COutPoint.length_serialize,
    length_writeVector CTxInfo.length_serialize]
  omega

theorem nSerSize_eq (txin : CTxIn) : txin.nSerSize = UInt32.ofNat txin.getSerializeSize := by
  simp [nSerSize, getSerializeSize, bytesNSerSize_eq, vectorNSerSize_eq CTxInfo.nSerSize_eq,
    UInt32.ofNat_add]

theorem yields_unserialize (sz : Sizeof) {txin : CTxIn} (h : txin.Fits) :
    Lib.Yields (unserialize sz) txin.serialize txin := by
  have hsequence : txin.nSequence < 256 ^ 4 := h.nSequence
  have hinfos : Lib.Yields (readVector sz.cTxInfo sz.cTxInfo_pos CTxInfo.unserialize)
      (writeVector CTxInfo.serialize txin.infos) (txin.infos.map id) :=
    yields_readVector h.infos fun info hinfo => CTxInfo.yields_unserialize (h.info info hinfo)
  rw [List.map_id] at hinfos
  apply Lib.Yields.bind (COutPoint.yields_unserialize h.prevout)
  apply Lib.Yields.bind (yields_readByteVector h.scriptSig)
  apply Lib.Yields.bind (Lib.yields_readLE endOfData hsequence)
  exact hinfos.last (CTxIn.mk txin.prevout txin.scriptSig txin.nSequence)

end CTxIn

namespace CTxOut

def nSerSize (txout : CTxOut) : UInt32 :=
  bytesNSerSize txout.subCurrency + 8 + bytesNSerSize txout.scriptPubKey

def serialize (txout : CTxOut) : Bytes :=
  writeBytes txout.subCurrency
    ++ (Lib.toLEInt 8 txout.nValue ++ writeBytes txout.scriptPubKey)

def unserialize : Lib.Reader Err CTxOut := do
  let subCurrency ← readByteVector
  let nValue ← Lib.readLEInt endOfData 8
  let scriptPubKey ← readByteVector
  return ⟨subCurrency, nValue, scriptPubKey⟩

structure Fits (txout : CTxOut) : Prop where
  subCurrency : txout.subCurrency.length ≤ MAX_SIZE
  nValue_ge : -(2 ^ 63) ≤ txout.nValue
  nValue_lt : txout.nValue < 2 ^ 63
  scriptPubKey : txout.scriptPubKey.length ≤ MAX_SIZE

theorem length_serialize (txout : CTxOut) : txout.serialize.length = txout.getSerializeSize := by
  simp [serialize, getSerializeSize]
  omega

theorem nSerSize_eq (txout : CTxOut) : txout.nSerSize = UInt32.ofNat txout.getSerializeSize := by
  simp [nSerSize, getSerializeSize, bytesNSerSize_eq, UInt32.ofNat_add]

theorem yields_unserialize {txout : CTxOut} (h : txout.Fits) :
    Lib.Yields unserialize txout.serialize txout := by
  have hge := h.nValue_ge
  have hlt := h.nValue_lt
  apply Lib.Yields.bind (yields_readByteVector h.subCurrency)
  apply Lib.Yields.bind (Lib.yields_readLEInt endOfData (by norm_num; omega) (by norm_num; omega))
  exact (yields_readByteVector h.scriptPubKey).last (CTxOut.mk txout.subCurrency txout.nValue)

end CTxOut

end ShinyCoin

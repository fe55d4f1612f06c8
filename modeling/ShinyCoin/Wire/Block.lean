import ShinyCoin.Wire.Serialize

/-!
# Transactions and blocks in bytes

A transaction ends with the fields its version asks for; the others of a fresh object stay as the
constructor left them. A block is its header and, unless only the header is meant, its transactions
and its signature. What was written is read back, and nothing behind it is touched.
-/

namespace ShinyCoin

/-- The values of the enumeration -/
def CTransactionType.toInt : CTransactionType → ℤ
  | .TT_NORMAL => 1
  | .TT_MINT_SUBCURRENCY => 101
  | .TT_REMINT_SUBCURRENCY => 102

def CTransactionType.ofInt? : ℤ → Option CTransactionType
  | 1 => some .TT_NORMAL
  | 101 => some .TT_MINT_SUBCURRENCY
  | 102 => some .TT_REMINT_SUBCURRENCY
  | _ => none

namespace CTransaction

def nSerSize (tx : CTransaction) : UInt32 :=
  4 + 4 + vectorNSerSize CTxIn.nSerSize tx.vin + vectorNSerSize CTxOut.nSerSize tx.vout + 4
    + match tx.nVersion with
      | .TT_NORMAL => 0
      | .TT_MINT_SUBCURRENCY =>
          bytesNSerSize tx.mint_subCurrencyName + bytesNSerSize tx.mint_subCurrencyId + 8 + 8
            + bytesNSerSize tx.mint_remintScript
      | .TT_REMINT_SUBCURRENCY =>
          bytesNSerSize tx.mint_subCurrencyId + 8 + bytesNSerSize tx.mint_remintScript

def serialize (tx : CTransaction) : Bytes :=
  Lib.toLEInt 4 tx.nVersion.toInt ++ (Lib.toLE 4 tx.nTime
    ++ (writeVector CTxIn.serialize tx.vin ++ (writeVector CTxOut.serialize tx.vout
    ++ (Lib.toLE 4 tx.nLockTime
    ++ match tx.nVersion with
      | .TT_NORMAL => []
      | .TT_MINT_SUBCURRENCY =>
          writeBytes tx.mint_subCurrencyName ++ (writeBytes tx.mint_subCurrencyId
            ++ (Lib.toLEInt 8 tx.mint_numUnits ++ (Lib.toLEInt 8 tx.mint_divisibility
            ++ writeBytes tx.mint_remintScript)))
      | .TT_REMINT_SUBCURRENCY =>
          writeBytes tx.mint_subCurrencyId ++ (Lib.toLEInt 8 tx.mint_numUnits
            ++ writeBytes tx.mint_remintScript)))))

/-- Read into an object; a version that is none is noticed behind `nLockTime`. -/
def unserialize (sz : Sizeof) (fresh : CTransaction) : Lib.Reader Err CTransaction := do
  let nVersion ← Lib.readLEInt endOfData 4
  let nTime ← Lib.readLE endOfData 4
  let vin ← readVector sz.cTxIn sz.cTxIn_pos (CTxIn.unserialize sz)
  let vout ← readVector sz.cTxOut sz.cTxOut_pos CTxOut.unserialize
  let nLockTime ← Lib.readLE endOfData 4
  match CTransactionType.ofInt? nVersion with
  | none => throw (.exc "Attempt to serialize invalid nVersion")
  | some .TT_NORMAL =>
      return { fresh with nVersion := .TT_NORMAL, nTime, vin, vout, nLockTime }
  | some .TT_MINT_SUBCURRENCY => do
      let mint_subCurrencyName ← readString
      let mint_subCurrencyId ← readByteVector
      let mint_numUnits ← Lib.readLEInt endOfData 8
      let mint_divisibility ← Lib.readLEInt endOfData 8
      let mint_remintScript ← readByteVector
      return { nVersion := .TT_MINT_SUBCURRENCY, nTime, vin, vout, nLockTime, mint_subCurrencyName,
               mint_subCurrencyId, mint_numUnits, mint_divisibility, mint_remintScript }
  | some .TT_REMINT_SUBCURRENCY => do
      let mint_subCurrencyId ← readByteVector
      let mint_numUnits ← Lib.readLEInt endOfData 8
      let mint_remintScript ← readByteVector
      return { fresh with
        nVersion := .TT_REMINT_SUBCURRENCY, nTime, vin, vout, nLockTime, mint_subCurrencyId,
        mint_numUnits, mint_remintScript }

/-- The serialized fields of a transaction, the others as the fresh object has them -/
def onto (tx fresh : CTransaction) : CTransaction :=
  match tx.nVersion with
  | .TT_NORMAL =>
      { fresh with nVersion := .TT_NORMAL, nTime := tx.nTime, vin := tx.vin, vout := tx.vout,
                   nLockTime := tx.nLockTime }
  | .TT_MINT_SUBCURRENCY => tx
  | .TT_REMINT_SUBCURRENCY =>
      { tx with mint_subCurrencyName := fresh.mint_subCurrencyName
                mint_divisibility := fresh.mint_divisibility }

/-- Every field that is written fits the type it has in the source, and no vector or string is
longer than `MAX_SIZE`. -/
structure Fits (tx : CTransaction) : Prop where
  nTime : tx.nTime < 2 ^ 32
  vin : tx.vin.length ≤ MAX_SIZE
  txin : ∀ txin ∈ tx.vin, txin.Fits
  vout : tx.vout.length ≤ MAX_SIZE
  txout : ∀ txout ∈ tx.vout, txout.Fits
  nLockTime : tx.nLockTime < 2 ^ 32
  mint_subCurrencyName : tx.nVersion = .TT_MINT_SUBCURRENCY →
    tx.mint_subCurrencyName.length ≤ MAX_SIZE
  mint_subCurrencyId : tx.nVersion ≠ .TT_NORMAL → tx.mint_subCurrencyId.length ≤ MAX_SIZE
  mint_numUnits : tx.nVersion ≠ .TT_NORMAL →
    -(2 ^ 63) ≤ tx.mint_numUnits ∧ tx.mint_numUnits < 2 ^ 63
  mint_divisibility : tx.nVersion = .TT_MINT_SUBCURRENCY →
    -(2 ^ 63) ≤ tx.mint_divisibility ∧ tx.mint_divisibility < 2 ^ 63
  mint_remintScript : tx.nVersion ≠ .TT_NORMAL → tx.mint_remintScript.length ≤ MAX_SIZE

theorem length_serialize (tx : CTransaction) : tx.serialize.length = tx.getSerializeSize := by
  unfold serialize getSerializeSize
  cases tx.nVersion <;>
    simp [length_writeVector CTxIn.length_serialize, length_writeVector CTxOut.length_serialize] <;>
    omega

theorem nSerSize_eq (tx : CTransaction) : tx.nSerSize = UInt32.ofNat tx.getSerializeSize := by
  unfold nSerSize getSerializeSize
  cases tx.nVersion <;>
    simp [bytesNSerSize_eq, vectorNSerSize_eq CTxIn.nSerSize_eq, vectorNSerSize_eq CTxOut.nSerSize_eq,
      UInt32.ofNat_add]

@[simp] theorem vin_onto (tx fresh : CTransaction) : (tx.onto fresh).vin = tx.vin := by
  unfold onto
  split <;> rfl

@[simp] theorem vout_onto (tx fresh : CTransaction) : (tx.onto fresh).vout = tx.vout := by
  unfold onto
  split <;> rfl

theorem yields_amount {z : ℤ} (h : -(2 ^ 63) ≤ z ∧ z < 2 ^ 63) :
    Lib.Yields (Lib.readLEInt endOfData 8) (Lib.toLEInt 8 z) z :=
  Lib.yields_readLEInt endOfData (by norm_num; omega) (by norm_num; omega)

theorem yields_unserialize (sz : Sizeof) (fresh : CTransaction) {tx : CTransaction} (h : tx.Fits) :
    Lib.Yields (unserialize sz fresh) tx.serialize (tx.onto fresh) := by
  have htime : tx.nTime < 256 ^ 4 := h.nTime
  have hlock : tx.nLockTime < 256 ^ 4 := h.nLockTime
  have hversion : Lib.Yields (Lib.readLEInt endOfData 4) (Lib.toLEInt 4 tx.nVersion.toInt)
      tx.nVersion.toInt := by
    apply Lib.yields_readLEInt <;> cases tx.nVersion <;> decide
  have hvin : Lib.Yields (readVector sz.cTxIn sz.cTxIn_pos (CTxIn.unserialize sz))
      (writeVector CTxIn.serialize tx.vin) (tx.vin.map id) :=
    yields_readVector h.vin fun txin htxin => CTxIn.yields_unserialize sz (h.txin txin htxin)
  have hvout : Lib.Yields (readVector sz.cTxOut sz.cTxOut_pos CTxOut.unserialize)
      (writeVector CTxOut.serialize tx.vout) (tx.vout.map id) :=
    yields_readVector h.vout fun txout htxout => CTxOut.yields_unserialize (h.txout txout htxout)
  rw [List.map_id] at hvin hvout
  apply Lib.Yields.bind hversion
  apply Lib.Yields.bind (Lib.yields_readLE endOfData htime)
  apply Lib.Yields.bind hvin
  apply Lib.Yields.bind hvout
  apply Lib.Yields.bind (Lib.yields_readLE endOfData hlock)
  -- the fields the version asks for
  unfold onto
  cases hv : tx.nVersion with
  | TT_NORMAL => exact .pure _
  | TT_MINT_SUBCURRENCY =>
      have hne : tx.nVersion ≠ .TT_NORMAL := by simp [hv]
      apply Lib.Yields.bind (yields_readString (h.mint_subCurrencyName hv))
      apply Lib.Yields.bind (yields_readByteVector (h.mint_subCurrencyId hne))
      apply Lib.Yields.bind (yields_amount (h.mint_numUnits hne))
      apply Lib.Yields.bind (yields_amount (h.mint_divisibility hv))
      apply Lib.Yields.congr ((yields_readByteVector (h.mint_remintScript hne)).last _) rfl
      dsimp only
      rw [← hv]
  | TT_REMINT_SUBCURRENCY =>
      have hne : tx.nVersion ≠ .TT_NORMAL := by simp [hv]
      apply Lib.Yields.bind (yields_readByteVector (h.mint_subCurrencyId hne))
      apply Lib.Yields.bind (yields_amount (h.mint_numUnits hne))
      apply Lib.Yields.congr ((yields_readByteVector (h.mint_remintScript hne)).last _) rfl
      dsimp only

end CTransaction

/-! ## Blocks -/

namespace CBlockHeader

def serialize (header : CBlockHeader) : Bytes :=
  Lib.toLEInt 4 header.nVersion ++ (Lib.toLE 32 header.hashPrevBlock
    ++ (Lib.toLE 32 header.hashMerkleRoot ++ (Lib.toLE 4 header.nTime
    ++ (Lib.toLE 4 header.nBits ++ Lib.toLE 4 header.nNonce))))

def unserialize : Lib.Reader Err CBlockHeader := do
  let nVersion ← Lib.readLEInt endOfData 4
  let hashPrevBlock ← Lib.readLE endOfData 32
  let hashMerkleRoot ← Lib.readLE endOfData 32
  let nTime ← Lib.readLE endOfData 4
  let nBits ← Lib.readLE endOfData 4
  let nNonce ← Lib.readLE endOfData 4
  return { nVersion, hashPrevBlock, hashMerkleRoot, nTime, nBits, nNonce }

structure Fits (header : CBlockHeader) : Prop where
  nVersion : -(2 ^ 31) ≤ header.nVersion ∧ header.nVersion < 2 ^ 31
  hashPrevBlock : header.hashPrevBlock < 2 ^ 256
  hashMerkleRoot : header.hashMerkleRoot < 2 ^ 256
  nTime : header.nTime < 2 ^ 32
  nBits : header.nBits < 2 ^ 32
  nNonce : header.nNonce < 2 ^ 32

theorem length_serialize (header : CBlockHeader) : header.serialize.length = 80 := by
  simp [serialize]

theorem yields_unserialize {header : CBlockHeader} (h : header.Fits) :
    Lib.Yields unserialize header.serialize header := by
  have hversion := h.nVersion
  have hprev : header.hashPrevBlock < 256 ^ 32 := h.hashPrevBlock
  have hroot : header.hashMerkleRoot < 256 ^ 32 := h.hashMerkleRoot
  have htime : header.nTime < 256 ^ 4 := h.nTime
  have hbits : header.nBits < 256 ^ 4 := h.nBits
  have hnonce : header.nNonce < 256 ^ 4 := h.nNonce
  apply Lib.Yields.bind (Lib.yields_readLEInt endOfData (by norm_num; omega) (by norm_num; omega))
  apply Lib.Yields.bind (Lib.yields_readLE endOfData hprev)
  apply Lib.Yields.bind (Lib.yields_readLE endOfData hroot)
  apply Lib.Yields.bind (Lib.yields_readLE endOfData htime)
  apply Lib.Yields.bind (Lib.yields_readLE endOfData hbits)
  exact (Lib.yields_readLE endOfData hnonce).last (CBlockHeader.mk _ _ _ _ _)

end CBlockHeader

namespace CBlock

/-- Whether the transactions and the signature are part of it -/
def isWhole (nType : Nat) : Bool := nType &&& (SER_GETHASH ||| SER_BLOCKHEADERONLY) == 0

def nSerSize (nType : Nat) (block : CBlock) : UInt32 :=
  4 + 32 + 32 + 4 + 4 + 4
    + if isWhole nType then
        vectorNSerSize CTransaction.nSerSize block.vtx + bytesNSerSize block.vchBlockSig
      else 0

def serialize (nType : Nat) (block : CBlock) : Bytes :=
  block.toCBlockHeader.serialize
    ++ if isWhole nType then
        writeVector CTransaction.serialize block.vtx ++ writeBytes block.vchBlockSig
      else []

/-- `fresh` is what the constructor makes of a transaction. -/
def unserialize (sz : Sizeof) (fresh : CTransaction) (nType : Nat) : Lib.Reader Err CBlock := do
  let header ← CBlockHeader.unserialize
  if isWhole nType then
    let vtx ← readVector sz.cTransaction sz.cTransaction_pos (CTransaction.unserialize sz fresh)
    let vchBlockSig ← readByteVector
    return ⟨header, vtx, vchBlockSig⟩
  else return ⟨header, [], []⟩

/-- The serialized fields of a block -/
def onto (block : CBlock) (fresh : CTransaction) : CBlock :=
  { block with vtx := block.vtx.map fun tx => tx.onto fresh }

structure Fits (block : CBlock) : Prop where
  header : block.toCBlockHeader.Fits
  vtx : block.vtx.length ≤ MAX_SIZE
  tx : ∀ tx ∈ block.vtx, tx.Fits
  vchBlockSig : block.vchBlockSig.length ≤ MAX_SIZE

variable {nType : Nat} {block : CBlock}

theorem length_serialize (h : isWhole nType = true) (block : CBlock) :
    (block.serialize nType).length = block.getSerializeSize := by
  unfold serialize getSerializeSize
  rw [if_pos h, List.length_append, List.length_append, CBlockHeader.length_serialize,
    length_writeVector CTransaction.length_serialize, length_writeBytes, Nat.add_assoc]

theorem nSerSize_eq (h : isWhole nType = true) (block : CBlock) :
    block.nSerSize nType = UInt32.ofNat block.getSerializeSize := by
  unfold nSerSize getSerializeSize
  rw [if_pos h, vectorNSerSize_eq CTransaction.nSerSize_eq, bytesNSerSize_eq, Nat.add_assoc,
    UInt32.ofNat_add, UInt32.ofNat_add]
  rfl

theorem yields_unserialize (sz : Sizeof) (fresh : CTransaction) (hwhole : isWhole nType = true)
    (h : block.Fits) :
    Lib.Yields (unserialize sz fresh nType) (block.serialize nType) (block.onto fresh) := by
  unfold unserialize serialize
  rw [if_pos hwhole]
  apply Lib.Yields.bind (CBlockHeader.yields_unserialize h.header)
  rw [if_pos hwhole]
  apply Lib.Yields.bind (yields_readVector h.vtx fun tx htx =>
    CTransaction.yields_unserialize sz fresh (h.tx tx htx))
  exact (yields_readByteVector h.vchBlockSig).last (CBlock.mk block.toCBlockHeader _)

end CBlock

/-! ## The round trip -/

/-- `SerializeHash`, what `CTransaction::GetHash` returns -/
def CTransaction.serializeHash (env : Env) (tx : CTransaction) : Uint256 := env.hash tx.serialize

def Collision (hash : Bytes → Uint256) (b b' : Bytes) : Prop := b ≠ b' ∧ hash b = hash b'

/-- Equal bytes are those of equal fields. -/
theorem CTransaction.onto_eq_of_serialize_eq (sz : Sizeof) {tx tx' : CTransaction} (h : tx.Fits)
    (h' : tx'.Fits) (heq : tx.serialize = tx'.serialize) (fresh : CTransaction) :
    tx.onto fresh = tx'.onto fresh := by
  have hread' := CTransaction.yields_unserialize sz fresh h'
  rw [← heq] at hread'
  exact (CTransaction.yields_unserialize sz fresh h).inj hread'

theorem CBlock.onto_eq_of_serialize_eq (sz : Sizeof) {nType : Nat} (hwhole : isWhole nType = true)
    {block block' : CBlock} (h : block.Fits) (h' : block'.Fits)
    (heq : block.serialize nType = block'.serialize nType) (fresh : CTransaction) :
    block.onto fresh = block'.onto fresh := by
  have hread' := CBlock.yields_unserialize sz fresh hwhole h'
  rw [← heq] at hread'
  exact (CBlock.yields_unserialize sz fresh hwhole h).inj hread'

/-- Sizes below 2^32 are what `GetSerializeSize` says. -/
theorem toNat_nSerSize {nSerSize : UInt32} {n : Nat} (h : nSerSize = UInt32.ofNat n)
    (hn : n < 2 ^ 32) : nSerSize.toNat = n := by
  rw [h, UInt32.toNat_ofNat']
  exact Nat.mod_eq_of_lt hn

/-- `nIn` inputs with scripts of `nScript` bytes -/
def longTx (nIn nScript : Nat) : CTransaction where
  vin := List.replicate nIn { prevout := .null, scriptSig := List.replicate nScript 0 }
  vout := []

theorem longTx_fits {nIn nScript : Nat} (hin : nIn ≤ MAX_SIZE) (hscript : nScript ≤ MAX_SIZE) :
    (longTx nIn nScript).Fits where
  nTime := by simp [longTx]
  vin := by simpa [longTx] using hin
  txin txin h := by
    obtain ⟨-, rfl⟩ := List.mem_replicate.mp h
    refine ⟨⟨show 0 < 2 ^ 256 by decide, show UINT_MAX < 2 ^ 32 by decide⟩, by simpa using hscript,
      show UINT_MAX < 2 ^ 32 by decide, by simp, by simp⟩
  vout := by simp [longTx]
  txout := by simp [longTx]
  nLockTime := by simp [longTx]
  mint_subCurrencyName := by simp [longTx]
  mint_subCurrencyId := by simp [longTx]
  mint_numUnits := by simp [longTx]
  mint_divisibility := by simp [longTx]
  mint_remintScript := by simp [longTx]

theorem length_longTx (nIn nScript : Nat) :
    nIn * nScript ≤ (longTx nIn nScript).serialize.length := by
  have hin : nIn * nScript ≤ nIn * (36 + (getSizeOfCompactSize nScript + nScript) + 4
      + (getSizeOfCompactSize 0 + 0)) := Nat.mul_le_mul_left nIn (by omega)
  rw [CTransaction.length_serialize]
  simp only [longTx, CTransaction.getSerializeSize, vectorSerializeSize, CTxIn.getSerializeSize,
    bytesSerializeSize, List.map_replicate, List.sum_replicate_nat, List.length_replicate,
    List.map_nil, List.sum_nil, List.length_nil]
  omega

/-- What is written is read back into a fresh object, with nothing behind it touched, and the size
is the number of bytes, as long as there are fewer than 2^32; different fields have different
bytes, so that transactions with different inputs or outputs and one hash are a collision of the
hash function. -/
theorem serialize_round_trip (env : Env) (sz : Sizeof) (fresh : CTransaction) :
    (∀ tx : CTransaction, tx.Fits → tx.serialize.length < 2 ^ 32 →
      tx.nSerSize.toNat = tx.serialize.length ∧
      ∀ rest, (CTransaction.unserialize sz fresh).run (tx.serialize ++ rest)
        = .ok (tx.onto fresh, rest)) ∧
    (∀ (block : CBlock) (nType : Nat), nType = SER_NETWORK ∨ nType = SER_DISK → block.Fits →
      (block.serialize nType).length < 2 ^ 32 →
      (block.nSerSize nType).toNat = (block.serialize nType).length ∧
      ∀ rest, (CBlock.unserialize sz fresh nType).run (block.serialize nType ++ rest)
        = .ok (block.onto fresh, rest)) ∧
    (∀ tx tx' : CTransaction, tx.Fits → tx'.Fits →
      (tx.serialize = tx'.serialize → tx.onto fresh = tx'.onto fresh) ∧
      (tx.vin ≠ tx'.vin ∨ tx.vout ≠ tx'.vout →
        tx.serializeHash env = tx'.serializeHash env →
        Collision env.hash tx.serialize tx'.serialize)) ∧
    ∀ (block block' : CBlock) (nType : Nat), nType = SER_NETWORK ∨ nType = SER_DISK →
      block.Fits → block'.Fits → block.serialize nType = block'.serialize nType →
      block.onto fresh = block'.onto fresh := by
  have hwhole : ∀ nType, nType = SER_NETWORK ∨ nType = SER_DISK → CBlock.isWhole nType = true := by
    rintro nType (rfl | rfl) <;> decide
  refine ⟨fun tx h hlen => ⟨?_, ?_⟩, fun block nType htype h hlen => ⟨?_, ?_⟩,
    fun tx tx' h h' => ⟨fun heq => ?_, fun hne hhash => ⟨fun heq => ?_, hhash⟩⟩,
    fun block block' nType htype h h' heq => ?_⟩
  · rw [CTransaction.length_serialize] at hlen ⊢
    exact toNat_nSerSize tx.nSerSize_eq hlen
  · exact CTransaction.yields_unserialize sz fresh h
  · rw [CBlock.length_serialize (hwhole nType htype)] at hlen ⊢
    exact toNat_nSerSize (CBlock.nSerSize_eq (hwhole nType htype) block) hlen
  · exact CBlock.yields_unserialize sz fresh (hwhole nType htype) h
  · exact CTransaction.onto_eq_of_serialize_eq sz h h' heq fresh
  · have honto := CTransaction.onto_eq_of_serialize_eq sz h h' heq fresh
    rcases hne with hvin | hvout
    · apply hvin
      simpa using congrArg CTransaction.vin honto
    · apply hvout
      simpa using congrArg CTransaction.vout honto
  · exact CBlock.onto_eq_of_serialize_eq sz (hwhole nType htype) h h' heq fresh

/-- A 64-bit system -/
def Sizeof.lp64 : Sizeof where
  cTxInfo := 24
  cTxIn := 96
  cTxOut := 56
  cTransaction := 144
  cTxInfo_pos := by decide
  cTxIn_pos := by decide
  cTxOut_pos := by decide
  cTransaction_pos := by decide

/-- A transaction with infos, and every field of a mint -/
def mintTx (nVersion : CTransactionType) : CTransaction where
  nVersion := nVersion
  nTime := 1400000000
  vin := [{ prevout := ⟨2 ^ 255 + 1, 3⟩, scriptSig := [1, 2], infos := [⟨⟨1, [97]⟩, [98, 99]⟩] },
    { prevout := .null, nSequence := 7 }]
  vout := [{ nValue := -1 }, { subCurrency := [5, 6], nValue := MAX_MONEY, scriptPubKey := [3] }]
  nLockTime := 9
  mint_subCurrencyName := [115]
  mint_subCurrencyId := [5, 6]
  mint_numUnits := 1000
  mint_divisibility := 2
  mint_remintScript := [0x51]

theorem mintTx_fits (nVersion : CTransactionType) : (mintTx nVersion).Fits where
  nTime := show 1400000000 < 2 ^ 32 by decide
  vin := show 2 ≤ MAX_SIZE by decide
  txin := by
    simp only [mintTx, List.forall_mem_cons, List.not_mem_nil, false_implies, implies_true, and_true]
    refine ⟨⟨⟨by decide, by decide⟩, by decide, by decide, by decide, ?_⟩,
      ⟨by decide, by decide⟩, by decide, by decide, by decide, by simp⟩
    intro info hinfo
    rw [List.mem_singleton.mp hinfo]
    exact ⟨by decide, by decide⟩
  vout := show 2 ≤ MAX_SIZE by decide
  txout := by
    simp only [mintTx, List.forall_mem_cons, List.not_mem_nil, false_implies, implies_true, and_true]
    exact ⟨⟨by decide, by decide, by decide, by decide⟩, by decide, by decide, by decide, by decide⟩
  nLockTime := show 9 < 2 ^ 32 by decide
  mint_subCurrencyName _ := show 1 ≤ MAX_SIZE by decide
  mint_subCurrencyId _ := show 2 ≤ MAX_SIZE by decide
  mint_numUnits _ := by simp [mintTx]
  mint_divisibility _ := by simp [mintTx]
  mint_remintScript _ := show 1 ≤ MAX_SIZE by decide

/-- A block with a transaction of each version -/
def mintBlock : CBlock where
  hashPrevBlock := 2 ^ 255
  nTime := 1400000001
  vtx := [mintTx .TT_NORMAL, mintTx .TT_MINT_SUBCURRENCY, mintTx .TT_REMINT_SUBCURRENCY]
  vchBlockSig := [48, 69]

theorem mintBlock_fits : mintBlock.Fits where
  header := ⟨by decide, by decide, by decide, by decide, by decide, by decide⟩
  vtx := by decide
  tx tx h := by
    simp only [mintBlock, List.mem_cons, List.not_mem_nil, or_false] at h
    rcases h with rfl | rfl | rfl <;> exact mintTx_fits _
  vchBlockSig := by decide

theorem serialize_round_trip_mint :
    ((mintTx .TT_MINT_SUBCURRENCY).nSerSize.toNat = (mintTx .TT_MINT_SUBCURRENCY).serialize.length ∧
      ∀ rest, (CTransaction.unserialize .lp64 (longTx 0 0)).run
          ((mintTx .TT_MINT_SUBCURRENCY).serialize ++ rest)
        = .ok ((mintTx .TT_MINT_SUBCURRENCY).onto (longTx 0 0), rest)) ∧
    ((mintBlock.nSerSize SER_DISK).toNat = (mintBlock.serialize SER_DISK).length ∧
      ∀ rest, (CBlock.unserialize .lp64 (longTx 0 0) SER_DISK).run
          (mintBlock.serialize SER_DISK ++ rest)
        = .ok (mintBlock.onto (longTx 0 0), rest)) ∧
    Collision Env.plain.hash (mintTx .TT_NORMAL).serialize (longTx 1 3).serialize := by
  obtain ⟨htx, hblock, hhash, -⟩ := serialize_round_trip .plain .lp64 (longTx 0 0)
  refine ⟨htx _ (mintTx_fits _) (by decide +kernel),
    hblock _ _ (.inr rfl) mintBlock_fits (by decide +kernel), ?_⟩
  exact (hhash _ _ (mintTx_fits _) (longTx_fits (by decide) (by decide))).2 (.inl (by decide)) rfl

/-- `GetSerializeSize` of four gigabytes and more is not the number of bytes written. -/
theorem not_nSerSize_longTx :
    ¬ ∀ tx : CTransaction, tx.Fits → tx.nSerSize.toNat = tx.serialize.length := by
  intro h
  have hsize := h _ (longTx_fits (show 128 ≤ MAX_SIZE by decide) le_rfl)
  have hlt := (longTx 128 MAX_SIZE).nSerSize.toNat_lt
  have hlen := length_longTx 128 MAX_SIZE
  have hmax : 128 * MAX_SIZE = 2 ^ 32 := by decide
  omega

end ShinyCoin

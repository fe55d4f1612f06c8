import ShinyCoin.Lib.PrefixCode
import ShinyCoin.Wire.BlockFile

/-!
# Bytes tell the fields

What `Serialize` writes of a transaction is a prefix code for the fields it writes, for every
transaction that can be in memory: nothing is asked of the sizes but that they are those of a vector.
-/

namespace ShinyCoin

/-- What `size()` returns -/
def SizeT (n : Nat) : Prop := n < 2 ^ 64

theorem sizeT_zero : SizeT 0 := Nat.pow_pos Nat.two_pos

/-! ## In memory -/

structure CTxInfo.InMemory (info : CTxInfo) : Prop where
  keyString : SizeT info.key.keyString.length
  value : SizeT info.value.length

structure CTxIn.InMemory (txin : CTxIn) : Prop extends txin.Typed where
  scriptSig : SizeT txin.scriptSig.length
  infos : SizeT txin.infos.length
  info : ∀ info ∈ txin.infos, info.InMemory

structure CTxOut.InMemory (txout : CTxOut) : Prop extends txout.Typed where
  subCurrency : SizeT txout.subCurrency.length
  scriptPubKey : SizeT txout.scriptPubKey.length

/-- Every field has a value of its type, every vector and string a size. -/
structure CTransaction.InMemory (tx : CTransaction) : Prop extends tx.Typed where
  vin : SizeT tx.vin.length
  txinInMemory : ∀ txin ∈ tx.vin, txin.InMemory
  vout : SizeT tx.vout.length
  txoutInMemory : ∀ txout ∈ tx.vout, txout.InMemory
  mint_subCurrencyName : SizeT tx.mint_subCurrencyName.length
  mint_subCurrencyId : SizeT tx.mint_subCurrencyId.length
  mint_remintScript : SizeT tx.mint_remintScript.length

/-! ## Sizes, strings and vectors -/

/-- The first byte of a compact size, and how many follow it -/
def chSizeOf (nSize : Nat) : Nat :=
  if nSize < 253 then nSize
  else if nSize ≤ 0xffff then 253
  else if nSize ≤ 0xffffffff then 254
  else 255

def widthOf (chSize : Nat) : Nat :=
  if chSize < 253 then 0 else if chSize = 253 then 2 else if chSize = 254 then 4 else 8

theorem writeCompactSize_eq (nSize : Nat) : writeCompactSize nSize
    = Lib.toLE 1 (chSizeOf nSize) ++ Lib.toLE (widthOf (chSizeOf nSize)) nSize := by
  unfold writeCompactSize chSizeOf
  split
  · next h =>
      unfold widthOf
      rw [if_pos h]
      exact (List.append_nil _).symm
  · split
    · rfl
    · split <;> rfl

theorem chSizeOf_lt (nSize : Nat) : chSizeOf nSize < 256 ^ 1 := by
  unfold chSizeOf
  split_ifs <;> omega

/-- A size is its first byte, or fits the bytes that follow. -/
theorem chSizeOf_spec {nSize : Nat} (h : SizeT nSize) :
    (chSizeOf nSize < 253 ∧ chSizeOf nSize = nSize) ∨
    (¬ chSizeOf nSize < 253 ∧ nSize < 256 ^ widthOf (chSizeOf nSize)) := by
  unfold SizeT at h
  unfold chSizeOf
  split_ifs with h1 h2 h3
  · exact .inl ⟨h1, rfl⟩
  · exact .inr ⟨by decide, show nSize < 256 ^ 2 by omega⟩
  · exact .inr ⟨by decide, show nSize < 256 ^ 4 by omega⟩
  · exact .inr ⟨by decide, show nSize < 256 ^ 8 by omega⟩

theorem prefixCode_writeCompactSize : Lib.PrefixCode writeCompactSize SizeT := by
  intro n k s t hn hk h
  rw [writeCompactSize_eq, writeCompactSize_eq, List.append_assoc, List.append_assoc] at h
  obtain ⟨hfirst, hrest⟩ := Lib.prefixCode_toLE 1 (chSizeOf_lt n) (chSizeOf_lt k) h
  rw [← hfirst] at hrest
  obtain ⟨hsmall, hsize⟩ | ⟨hlarge, hsize⟩ := chSizeOf_spec hn
  · obtain ⟨-, hsize'⟩ | ⟨hlarge, -⟩ := chSizeOf_spec hk
    · have hwidth : widthOf (chSizeOf n) = 0 := if_pos hsmall
      rw [hwidth] at hrest
      exact ⟨by omega, hrest⟩
    · omega
  · obtain ⟨hsmall, -⟩ | ⟨-, hsize'⟩ := chSizeOf_spec hk
    · omega
    · rw [← hfirst] at hsize'
      exact Lib.prefixCode_toLE _ hsize hsize' hrest

theorem prefixCode_writeBytes : Lib.PrefixCode writeBytes fun b => SizeT b.length :=
  prefixCode_writeCompactSize.bytes

theorem prefixCode_writeVector {α : Type} {write : α → Bytes} {P : α → Prop}
    (h : Lib.PrefixCode write P) :
    Lib.PrefixCode (writeVector write) fun v => SizeT v.length ∧ ∀ a ∈ v, P a :=
  prefixCode_writeCompactSize.vector h

theorem prefixCode_amount : Lib.PrefixCode (Lib.toLEInt 8) fun z => -(2 ^ 63) ≤ z ∧ z < 2 ^ 63 :=
  fun _ _ _ _ ha hb h => Lib.prefixCode_toLEInt 8 ⟨by norm_num; omega, by norm_num; omega⟩
    ⟨by norm_num; omega, by norm_num; omega⟩ h

/-! ## Records -/

theorem CTxInfo.prefixCode_serialize : Lib.PrefixCode CTxInfo.serialize CTxInfo.InMemory := by
  rintro ⟨⟨type, keyString⟩, value⟩ ⟨⟨type', keyString'⟩, value'⟩ s t ha hb h
  simp only [CTxInfo.serialize, TxInfoKey.serialize, List.append_assoc] at h
  obtain ⟨htype, h1⟩ := Lib.prefixCode_toLE 1 (by simpa using type.toNat_lt)
    (by simpa using type'.toNat_lt) h
  obtain ⟨hkey, h2⟩ := prefixCode_writeBytes ha.keyString hb.keyString h1
  obtain ⟨hvalue, h3⟩ := prefixCode_writeBytes ha.value hb.value h2
  dsimp only at hkey hvalue
  rw [UInt8.toNat_inj.mp htype, hkey, hvalue]
  exact ⟨rfl, h3⟩

theorem COutPoint.prefixCode_serialize : Lib.PrefixCode COutPoint.serialize COutPoint.Fits := by
  rintro ⟨hash, n⟩ ⟨hash', n'⟩ s t ha hb h
  simp only [COutPoint.serialize, List.append_assoc] at h
  obtain ⟨rfl, h1⟩ := Lib.prefixCode_toLE 32 (show hash < 256 ^ 32 from ha.hash)
    (show hash' < 256 ^ 32 from hb.hash) h
  obtain ⟨rfl, h2⟩ := Lib.prefixCode_toLE 4 (show n < 256 ^ 4 from ha.n)
    (show n' < 256 ^ 4 from hb.n) h1
  exact ⟨rfl, h2⟩

theorem CTxIn.prefixCode_serialize : Lib.PrefixCode CTxIn.serialize CTxIn.InMemory := by
  rintro ⟨prevout, scriptSig, nSequence, infos⟩ ⟨prevout', scriptSig', nSequence', infos'⟩ s t ha hb h
  simp only [CTxIn.serialize, List.append_assoc] at h
  obtain ⟨rfl, h1⟩ := COutPoint.prefixCode_serialize ha.prevout hb.prevout h
  obtain ⟨rfl, h2⟩ := prefixCode_writeBytes ha.scriptSig hb.scriptSig h1
  obtain ⟨rfl, h3⟩ := Lib.prefixCode_toLE 4 (show nSequence < 256 ^ 4 from ha.nSequence)
    (show nSequence' < 256 ^ 4 from hb.nSequence) h2
  obtain ⟨rfl, h4⟩ := prefixCode_writeVector CTxInfo.prefixCode_serialize ⟨ha.infos, ha.info⟩
    ⟨hb.infos, hb.info⟩ h3
  exact ⟨rfl, h4⟩

theorem CTxOut.prefixCode_serialize : Lib.PrefixCode CTxOut.serialize CTxOut.InMemory := by
  rintro ⟨subCurrency, nValue, scriptPubKey⟩ ⟨subCurrency', nValue', scriptPubKey'⟩ s t ha hb h
  simp only [CTxOut.serialize, List.append_assoc] at h
  obtain ⟨rfl, h1⟩ := prefixCode_writeBytes ha.subCurrency hb.subCurrency h
  obtain ⟨rfl, h2⟩ := prefixCode_amount ⟨ha.nValue_ge, ha.nValue_lt⟩ ⟨hb.nValue_ge, hb.nValue_lt⟩ h1
  obtain ⟨rfl, h3⟩ := prefixCode_writeBytes ha.scriptPubKey hb.scriptPubKey h2
  exact ⟨rfl, h3⟩

theorem CTransactionType.toInt_inj {v v' : CTransactionType} (h : v.toInt = v'.toInt) : v = v' := by
  cases v <;> cases v' <;> first | rfl | cases h

/-- What `IMPLEMENT_SERIALIZE` writes behind `nLockTime`, as its version asks -/
def CTransaction.serializeMint (tx : CTransaction) : Bytes :=
  match tx.nVersion with
  | .TT_NORMAL => []
  | .TT_MINT_SUBCURRENCY =>
      writeBytes tx.mint_subCurrencyName ++ (writeBytes tx.mint_subCurrencyId
        ++ (Lib.toLEInt 8 tx.mint_numUnits ++ (Lib.toLEInt 8 tx.mint_divisibility
        ++ writeBytes tx.mint_remintScript)))
  | .TT_REMINT_SUBCURRENCY =>
      writeBytes tx.mint_subCurrencyId ++ (Lib.toLEInt 8 tx.mint_numUnits
        ++ writeBytes tx.mint_remintScript)

theorem CTransaction.serializeMint_append {tx tx' : CTransaction} {s t : Bytes} (ha : tx.InMemory)
    (hb : tx'.InMemory) (hversion : tx.nVersion = tx'.nVersion)
    (h : tx.serializeMint ++ s = tx'.serializeMint ++ t) : s = t := by
  unfold serializeMint at h
  rw [← hversion] at h
  cases hv : tx.nVersion with
  | TT_NORMAL =>
      rw [hv] at h
      exact h
  | TT_MINT_SUBCURRENCY =>
      have hne : tx.nVersion ≠ .TT_NORMAL := by simp [hv]
      have hne' : tx'.nVersion ≠ .TT_NORMAL := hversion ▸ hne
      rw [hv] at h
      simp only [List.append_assoc] at h
      obtain ⟨-, h1⟩ := prefixCode_writeBytes ha.mint_subCurrencyName hb.mint_subCurrencyName h
      obtain ⟨-, h2⟩ := prefixCode_writeBytes ha.mint_subCurrencyId hb.mint_subCurrencyId h1
      obtain ⟨-, h3⟩ := prefixCode_amount (ha.mint_numUnits hne) (hb.mint_numUnits hne') h2
      obtain ⟨-, h4⟩ := prefixCode_amount (ha.mint_divisibility hv)
        (hb.mint_divisibility (hversion ▸ hv)) h3
      exact (prefixCode_writeBytes ha.mint_remintScript hb.mint_remintScript h4).2
  | TT_REMINT_SUBCURRENCY =>
      have hne : tx.nVersion ≠ .TT_NORMAL := by simp [hv]
      have hne' : tx'.nVersion ≠ .TT_NORMAL := hversion ▸ hne
      rw [hv] at h
      simp only [List.append_assoc] at h
      obtain ⟨-, h1⟩ := prefixCode_writeBytes ha.mint_subCurrencyId hb.mint_subCurrencyId h
      obtain ⟨-, h2⟩ := prefixCode_amount (ha.mint_numUnits hne) (hb.mint_numUnits hne') h1
      exact (prefixCode_writeBytes ha.mint_remintScript hb.mint_remintScript h2).2

/-- The fields that every version writes, and what stands behind the transaction. -/
theorem CTransaction.serialize_append {tx tx' : CTransaction} {s t : Bytes} (ha : tx.InMemory)
    (hb : tx'.InMemory) (h : tx.serialize ++ s = tx'.serialize ++ t) :
    tx.nVersion = tx'.nVersion ∧ tx.nTime = tx'.nTime ∧ tx.vin = tx'.vin ∧ tx.vout = tx'.vout ∧
      tx.nLockTime = tx'.nLockTime ∧ s = t := by
  have hsplit : ∀ tx : CTransaction, tx.serialize = Lib.toLEInt 4 tx.nVersion.toInt
      ++ (Lib.toLE 4 tx.nTime ++ (writeVector CTxIn.serialize tx.vin
      ++ (writeVector CTxOut.serialize tx.vout ++ (Lib.toLE 4 tx.nLockTime ++ tx.serializeMint)))) :=
    fun _ => rfl
  have hrange : ∀ v : CTransactionType,
      -(256 ^ 4 : Nat) ≤ 2 * v.toInt ∧ 2 * v.toInt < (256 ^ 4 : Nat) := by
    intro v
    cases v <;> decide
  rw [hsplit, hsplit] at h
  simp only [List.append_assoc] at h
  obtain ⟨hversion, h1⟩ := Lib.prefixCode_toLEInt 4 (hrange _) (hrange _) h
  obtain ⟨htime, h2⟩ := Lib.prefixCode_toLE 4 (show tx.nTime < 256 ^ 4 from ha.nTime)
    (show tx'.nTime < 256 ^ 4 from hb.nTime) h1
  obtain ⟨hvin, h3⟩ := prefixCode_writeVector CTxIn.prefixCode_serialize
    ⟨ha.vin, ha.txinInMemory⟩ ⟨hb.vin, hb.txinInMemory⟩ h2
  obtain ⟨hvout, h4⟩ := prefixCode_writeVector CTxOut.prefixCode_serialize
    ⟨ha.vout, ha.txoutInMemory⟩ ⟨hb.vout, hb.txoutInMemory⟩ h3
  obtain ⟨hlock, h5⟩ := Lib.prefixCode_toLE 4 (show tx.nLockTime < 256 ^ 4 from ha.nLockTime)
    (show tx'.nLockTime < 256 ^ 4 from hb.nLockTime) h4
  have htype := CTransactionType.toInt_inj hversion
  exact ⟨htype, htime, hvin, hvout, hlock, serializeMint_append ha hb htype h5⟩

end ShinyCoin

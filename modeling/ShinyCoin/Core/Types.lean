import ShinyCoin.Lib.Call
import Mathlib.Tactic.Ring

/-!
# Transactions, blocks and the block index

The data model of `main.h`: transactions with the infos their inputs carry, blocks, the positions
of transactions on disk, and the block index. Byte strings are lists of bytes, hashes and unsigned
fields are natural numbers, amounts are integers. Overflow is written out (`int64`) where data a
peer can send reaches it.

A `CBlockIndex*` is the list of the block's index entry and those of its ancestors, `NULL` being
the empty list: `pprev` is the tail, and a walk back to the genesis block is a structural
recursion. What the code changes in an entry after it was built (`pnext` and the money counters)
lives in the node's state, under the block's hash.
-/

namespace ShinyCoin

/-- How a call that does not return `true` ends. -/
inductive Err where
  /-- It returns `false`; the text is its log line or reason, empty where it says nothing. -/
  | fail (msg : String)
  /-- `FetchInputs` returns `false` with `fInvalid` set: no later transaction can help. -/
  | invalid (msg : String)
  /-- An exception (or a failed `assert`) leaves it. -/
  | exc (what : String)
  deriving DecidableEq, Repr

abbrev Bytes := List UInt8
abbrev CScript := List UInt8
abbrev Uint256 := Nat

/-- The value a 64-bit signed register holds. -/
def int64 (z : ℤ) : ℤ := z.bmod (2 ^ 64)

/-- `(unsigned int)-1`. -/
def UINT_MAX : Nat := 2 ^ 32 - 1

/-! ## Constants -/

def COIN : ℤ := 1000000
def CENT : ℤ := 10000
def MAX_SIZE : Nat := 0x02000000
def MAX_BLOCK_SIZE : Nat := 1000000
def MAX_BLOCK_SIZE_GEN : Nat := MAX_BLOCK_SIZE / 2
def MAX_BLOCK_SIGOPS : Nat := MAX_BLOCK_SIZE / 50
def BASE_TX_FEE : ℤ := CENT.tdiv 10
def BASE_RELAY_TX_FEE : ℤ := CENT.tdiv 10
def TX_INFO_FEE : ℤ := CENT.tdiv 10
def DUST_FEE : ℤ := CENT.tdiv 10
def MIN_TX_FEE : ℤ := CENT
def MIN_RELAY_TX_FEE : ℤ := CENT
def MAX_MONEY : ℤ := 2000000000 * COIN
def MAX_MINT_PROOF_OF_WORK : ℤ := 400 * COIN
def LOCKTIME_THRESHOLD : Nat := 500000000
def nMaxClockDrift : ℤ := 2 * 60 * 60

def moneyRange (nValue : ℤ) : Bool := decide (0 ≤ nValue) && decide (nValue ≤ MAX_MONEY)

/-! ## Infos -/

def INFO_NORMAL : UInt8 := 0
def INFO_WRITE_ONCE : UInt8 := 1
def INFO_UNIQUE : UInt8 := 2
def INFO_ID : UInt8 := 3
def TX_INFO_MAX_VALID_TYPE : UInt8 := 3

/-- The type is a byte of the wire: values above `TX_INFO_MAX_VALID_TYPE` do arrive. -/
structure TxInfoKey where
  type : UInt8
  keyString : Bytes
  deriving DecidableEq, Repr

structure CTxInfo where
  key : TxInfoKey
  value : Bytes
  deriving DecidableEq, Repr

/-- Base58 data: a version byte and the encoded bytes. -/
structure CBitcoinAddress where
  nVersion : UInt8
  vchData : Bytes
  deriving DecidableEq, Repr

/-! ## Transactions -/

structure COutPoint where
  hash : Uint256
  n : Nat
  deriving DecidableEq, Repr

namespace COutPoint

def null : COutPoint := ⟨0, UINT_MAX⟩

def isNull (o : COutPoint) : Bool := o.hash == 0 && o.n == UINT_MAX

end COutPoint

structure CTxIn where
  prevout : COutPoint
  scriptSig : CScript := []
  nSequence : Nat := UINT_MAX
  infos : List CTxInfo := []
  deriving DecidableEq, Repr

def CTxIn.isFinal (txin : CTxIn) : Bool := txin.nSequence == UINT_MAX

structure CTxOut where
  subCurrency : Bytes := []
  nValue : ℤ
  scriptPubKey : CScript := []
  deriving DecidableEq, Repr

def CTxOut.isEmpty (txout : CTxOut) : Bool := txout.nValue == 0 && txout.scriptPubKey.isEmpty

/-- `nVersion` of a transaction. Unserializing any other number throws, so none is ever built. -/
inductive CTransactionType where
  | TT_NORMAL
  | TT_MINT_SUBCURRENCY
  | TT_REMINT_SUBCURRENCY
  deriving DecidableEq, Repr

structure CTransaction where
  nVersion : CTransactionType := .TT_NORMAL
  nTime : Nat := 0
  vin : List CTxIn
  vout : List CTxOut
  nLockTime : Nat := 0
  mint_subCurrencyName : Bytes := []
  mint_subCurrencyId : Bytes := []
  mint_numUnits : ℤ := 0
  mint_divisibility : ℤ := 0
  mint_remintScript : CScript := []
  deriving DecidableEq, Repr

namespace CTransaction

def isCoinBase (tx : CTransaction) : Bool :=
  match tx.vin with
  | [txin] => txin.prevout.isNull && decide (1 ≤ tx.vout.length)
  | _ => false

def isCoinStake (tx : CTransaction) : Bool :=
  match tx.vin, tx.vout with
  | txin :: _, txout :: _ :: _ => !txin.prevout.isNull && txout.isEmpty
  | _, _ => false

def countInfoTxs (tx : CTransaction) : Nat := (tx.vin.map fun txin => txin.infos.length).sum

/-- The sum of the outputs; out of range it throws, at the output that leaves the range. -/
def getValueOut (tx : CTransaction) : Except Err ℤ :=
  tx.vout.foldlM (fun nValueOut txout => do
    let nValueOut := int64 (nValueOut + txout.nValue)
    Lib.require (moneyRange txout.nValue && moneyRange nValueOut)
      (Err.exc "CTransaction::GetValueOut() : value out of range")
    return nValueOut) 0

/-- `IsFinal(nBlockHeight, nBlockTime)`: a zero argument stands for the best height or the
adjusted time. -/
def isFinal (tx : CTransaction) (nBestHeight nAdjustedTime nBlockHeight nBlockTime : ℤ) : Bool :=
  let nBlockHeight := if nBlockHeight == 0 then nBestHeight else nBlockHeight
  let nBlockTime := if nBlockTime == 0 then nAdjustedTime else nBlockTime
  tx.nLockTime == 0
  || decide ((tx.nLockTime : ℤ)
      < if tx.nLockTime < LOCKTIME_THRESHOLD then nBlockHeight else nBlockTime)
  || tx.vin.all CTxIn.isFinal

end CTransaction

/-! ## Blocks -/

structure CBlockHeader where
  nVersion : ℤ := 1
  hashPrevBlock : Uint256 := 0
  hashMerkleRoot : Uint256 := 0
  nTime : Nat := 0
  nBits : Nat := 0
  nNonce : Nat := 0
  deriving DecidableEq, Repr

structure CBlock extends CBlockHeader where
  vtx : List CTransaction
  vchBlockSig : Bytes := []
  deriving DecidableEq, Repr

namespace CBlock

def getBlockTime (block : CBlock) : ℤ := block.nTime

def isProofOfStake (block : CBlock) : Bool :=
  match block.vtx with
  | _ :: tx :: _ => tx.isCoinStake
  | _ => false

def isProofOfWork (block : CBlock) : Bool := !block.isProofOfStake

end CBlock

/-! ## Serialized sizes -/

def getSizeOfCompactSize (nSize : Nat) : Nat :=
  if nSize < 253 then 1 else if nSize ≤ 0xffff then 3 else if nSize ≤ 0xffffffff then 5 else 9

/-- Strings, scripts and vectors of bytes. -/
def bytesSerializeSize (s : Bytes) : Nat := getSizeOfCompactSize s.length + s.length

def vectorSerializeSize {α : Type} (size : α → Nat) (v : List α) : Nat :=
  getSizeOfCompactSize v.length + (v.map size).sum

def CTxInfo.getSerializeSize (info : CTxInfo) : Nat :=
  1 + bytesSerializeSize info.key.keyString + bytesSerializeSize info.value

def CTxIn.getSerializeSize (txin : CTxIn) : Nat :=
  36 + bytesSerializeSize txin.scriptSig + 4
    + vectorSerializeSize CTxInfo.getSerializeSize txin.infos

def CTxOut.getSerializeSize (txout : CTxOut) : Nat :=
  bytesSerializeSize txout.subCurrency + 8 + bytesSerializeSize txout.scriptPubKey

def CTransaction.getSerializeSize (tx : CTransaction) : Nat :=
  4 + 4 + vectorSerializeSize CTxIn.getSerializeSize tx.vin
    + vectorSerializeSize CTxOut.getSerializeSize tx.vout + 4
    + match tx.nVersion with
      | .TT_NORMAL => 0
      | .TT_MINT_SUBCURRENCY =>
          bytesSerializeSize tx.mint_subCurrencyName + bytesSerializeSize tx.mint_subCurrencyId
            + 8 + 8 + bytesSerializeSize tx.mint_remintScript
      | .TT_REMINT_SUBCURRENCY =>
          bytesSerializeSize tx.mint_subCurrencyId + 8 + bytesSerializeSize tx.mint_remintScript

def CBlock.getSerializeSize (block : CBlock) : Nat :=
  80 + vectorSerializeSize CTransaction.getSerializeSize block.vtx
    + bytesSerializeSize block.vchBlockSig

/-! ## The transaction index -/

structure CDiskTxPos where
  nFile : Nat
  nBlockPos : Nat
  nTxPos : Nat
  deriving DecidableEq, Repr

namespace CDiskTxPos

/-- `SetNull`. -/
def null : CDiskTxPos := ⟨UINT_MAX, 0, 0⟩

def isNull (pos : CDiskTxPos) : Bool := pos.nFile == UINT_MAX

@[simp] theorem isNull_null : null.isNull = true := rfl

end CDiskTxPos

/-- Where a transaction is on disk, and which of its outputs are spent where. -/
structure CTxIndex where
  pos : CDiskTxPos
  vSpent : List CDiskTxPos
  deriving DecidableEq, Repr

/-- `CTxIndex(pos, nOutputs)`. -/
def CTxIndex.new (pos : CDiskTxPos) (nOutputs : Nat) : CTxIndex :=
  ⟨pos, List.replicate nOutputs CDiskTxPos.null⟩

/-! ## The block index -/

structure CBlockIndex where
  /-- `*phashBlock` -/
  hashBlock : Uint256
  nFile : Nat
  nBlockPos : Nat
  bnChainTrust : ℤ := 0
  nHeight : ℤ := 0
  nPoWHeight : ℤ := 0
  nFlags : Nat := 0
  nStakeModifier : Nat := 0
  prevoutStake : COutPoint := COutPoint.null
  nStakeTime : Nat := 0
  hashProofOfStake : Uint256 := 0
  nVersion : ℤ := 0
  hashMerkleRoot : Uint256 := 0
  nTime : Nat := 0
  nBits : Nat := 0
  nNonce : Nat := 0
  deriving DecidableEq, Repr

/-- A pointer to a block index entry: the entry, its `pprev`, and so on down to the genesis
block. The empty list is `NULL`. -/
abbrev BlockPtr := List CBlockIndex

/-- The counters `ConnectBlock` writes into a block's index entry. -/
structure BlockStats where
  nMint : ℤ := 0
  nMoneySupply : ℤ := 0
  nPoSTotalMint : ℤ := 0
  nPoSDebt : ℤ := 0
  deriving DecidableEq, Repr

/-- A block index record of the database. -/
structure CDiskBlockIndex where
  index : CBlockIndex
  stats : BlockStats
  hashPrev : Uint256
  hashNext : Uint256
  deriving DecidableEq, Repr

end ShinyCoin

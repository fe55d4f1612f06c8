import ShinyCoin.Core.Types

/-!
# What the node's logic is run with

Hashing and signatures come from a library, scripts are evaluated elsewhere, and the settings differ
between the main and the test network. `Env` collects them as arbitrary functions: nothing is
assumed of them, so what is proved holds for every choice. `Files` is the content of the block
files, which only ever grow.
-/

namespace ShinyCoin

structure Env where
  /-- `Hash(begin, end)`, double SHA-256. -/
  hash : Bytes → Uint256
  /-- `CTransaction::GetHash` -/
  getHash : CTransaction → Uint256
  /-- `CBlock::GetIDHash` -/
  getIDHash : CBlockHeader → Uint256
  /-- `CBlock::GetPoWHash`, `none` when the scratchpads give no result. -/
  getPoWHash : CBlockHeader → Option Uint256
  buildMerkleTree : List CTransaction → Uint256
  /-- `CBlock::GetMerkleBranch` -/
  getMerkleBranch : List CTransaction → ℤ → List Uint256
  /-- `CScript::GetSigOpCount(false)` -/
  getSigOpCount : CScript → Nat
  /-- `scriptPubKey.GetSigOpCount(scriptSig)` -/
  getSigOpCountP2SH : CScript → CScript → Nat
  isPayToScriptHash : CScript → Bool
  /-- `VerifySignature(txFrom, txTo, nIn, 0)` -/
  verifySignature : CTransaction → CTransaction → Nat → Bool
  extractAddress : CScript → Option CBitcoinAddress
  isStandard : CTransaction → Bool
  checkBlockSignature : CBlock → Bool
  checkProofOfWork : Uint256 → Nat → Bool
  isProtocolV03 : Nat → Bool
  fTestNet : Bool
  hashGenesisBlock : Uint256
  nCoinbaseMaturity : ℤ
  nStakeMinAge : Nat
  nPoSMinHeight : Nat
  /-- `Checkpoints::GetTotalBlocksEstimate` -/
  totalBlocksEstimate : ℤ

/-- The block files: what is stored at a block's position and at a transaction's position. -/
structure Files where
  block : Nat → Nat → Option CBlock
  tx : CDiskTxPos → Option CTransaction

namespace Files

/-- `CTransaction::ReadFromDisk(pos)`. There is no file -1, and unserializing throws on a vector
longer than `MAX_SIZE`. -/
def readTx (files : Files) (pos : CDiskTxPos) : Option CTransaction :=
  (files.tx pos).filter fun tx => !pos.isNull && decide (tx.vout.length ≤ MAX_SIZE)

/-- `CBlock::ReadFromDisk(nFile, nBlockPos, false)` -/
def readHeaderAt (files : Files) (nFile nBlockPos : Nat) : Option CBlockHeader :=
  if nFile = UINT_MAX then none else (files.block nFile nBlockPos).map CBlock.toCBlockHeader

/-- `CBlock::ReadFromDisk(nFile, nBlockPos)` -/
def readBlockAt (files : Files) (env : Env) (nFile nBlockPos : Nat) : Option CBlock :=
  if nFile = UINT_MAX then none
  else (files.block nFile nBlockPos).filter fun block =>
    !block.isProofOfWork || env.checkProofOfWork 0 block.nBits

/-- `CBlock::ReadFromDisk(pindex)` -/
def readBlock (files : Files) (env : Env) : BlockPtr → Option CBlock
  | [] => none
  | pindex :: _ =>
      (files.readBlockAt env pindex.nFile pindex.nBlockPos).filter fun block =>
        env.getIDHash block.toCBlockHeader == pindex.hashBlock

theorem readTx_eq_some {files : Files} {pos : CDiskTxPos} {tx : CTransaction} :
    files.readTx pos = some tx ↔
      files.tx pos = some tx ∧ pos.isNull = false ∧ tx.vout.length ≤ MAX_SIZE := by
  simp [readTx, Option.filter_eq_some_iff]

end Files

/-- An environment to evaluate the model in: hashes that read a field back, signatures that are
always right, stakes allowed from the start and coins that mature at once. -/
def Env.plain : Env where
  hash _ := 0
  getHash tx := tx.nTime + 1
  getIDHash header := header.nNonce + 1
  getPoWHash _ := some 0
  buildMerkleTree _ := 0
  getMerkleBranch _ _ := []
  getSigOpCount _ := 0
  getSigOpCountP2SH _ _ := 0
  isPayToScriptHash _ := false
  verifySignature _ _ _ := true
  extractAddress script := some ⟨63, script⟩
  isStandard _ := true
  checkBlockSignature _ := true
  checkProofOfWork _ _ := true
  isProtocolV03 _ := false
  fTestNet := false
  hashGenesisBlock := 1
  nCoinbaseMaturity := 0
  nStakeMinAge := 0
  nPoSMinHeight := 0
  totalBlocksEstimate := 0

end ShinyCoin

import ShinyCoin.Chain.Transaction
import ShinyCoin.Wallet.Wallet
import Std.Data.ExtTreeMap.Lemmas

/-!
# The state of a node

The globals of `main.cpp` and the two databases: `CTxDB` with its stack of transactions, and the
info store with its own. The memory pool and the wallets belong to neither.
-/

namespace ShinyCoin

/-! ## The transaction database -/

/-- The records of `CTxDB`. -/
structure TxDbData where
  /-- `"tx"` records -/
  txIndex : Lib.PMap Uint256 CTxIndex := Lib.PMap.empty
  /-- `"blockindex"` records -/
  blockIndex : Lib.PMap Uint256 CDiskBlockIndex := Lib.PMap.empty
  hashBestChain : Uint256 := 0
  bnBestInvalidTrust : ℤ := 0
  /-- The blocks that are connected, the last one first: `ConnectBlock` adds one and
  `DisconnectBlock` takes one off. Bookkeeping of the model; no decision reads it. -/
  vConnected : List (CBlock × BlockPtr) := []

/-- A database handle: what it reads, and for each open transaction what an abort goes back to. -/
structure CTxDB where
  data : TxDbData := {}
  vTxn : List TxDbData := []

namespace CTxDB

def txnBegin (txdb : CTxDB) : CTxDB := { txdb with vTxn := txdb.data :: txdb.vTxn }

def txnCommit (txdb : CTxDB) : Option CTxDB :=
  match txdb.vTxn with
  | [] => none
  | _ :: vTxn => some { txdb with vTxn := vTxn }

/-- `TxnAbort`, whose result no caller looks at: without a transaction it does nothing. -/
def txnAbort (txdb : CTxDB) : CTxDB :=
  match txdb.vTxn with
  | [] => txdb
  | data :: vTxn => { data := data, vTxn := vTxn }

/-- `Close`, when a handle goes out of scope: the outermost transaction still open is aborted. -/
def close (txdb : CTxDB) : CTxDB := { data := txdb.vTxn.getLastD txdb.data }

end CTxDB

/-- `CTransaction::ReadFromDisk(txdb, prevout, txindexRet)` -/
def readFromDisk (files : Files) (txIndex : Lib.PMap Uint256 CTxIndex) (prevout : COutPoint) :
    Option (CTransaction × CTxIndex) :=
  (txIndex prevout.hash).bind fun txindex =>
    ((files.readTx txindex.pos).filter fun tx => decide (prevout.n < tx.vout.length)).map
      fun tx => (tx, txindex)

/-- `CTxDB::ReadDiskTx(hash, tx)` -/
def readDiskTx (files : Files) (txIndex : Lib.PMap Uint256 CTxIndex) (hash : Uint256) :
    Option CTransaction :=
  (txIndex hash).bind fun txindex => files.readTx txindex.pos

/-! ## The memory pool -/

/-- `mapNextTx` tells which transaction and which of its inputs spends an outpoint. -/
structure CTxMemPool where
  mapTx : Std.ExtTreeMap Uint256 CTransaction compare := ∅
  mapNextTx : Lib.PMap COutPoint (Uint256 × Nat) := Lib.PMap.empty

namespace CTxMemPool

def lookup (pool : CTxMemPool) (hash : Uint256) : Option CTransaction := pool.mapTx[hash]?

def addUnchecked (env : Env) (pool : CTxMemPool) (tx : CTransaction) : CTxMemPool where
  mapTx := pool.mapTx.insert (env.getHash tx) tx
  mapNextTx := tx.vin.zipIdx.foldl (fun m x => m.set x.1.prevout (env.getHash tx, x.2)) pool.mapNextTx

def remove (env : Env) (pool : CTxMemPool) (tx : CTransaction) : CTxMemPool :=
  if (pool.lookup (env.getHash tx)).isSome then
    { mapTx := pool.mapTx.erase (env.getHash tx)
      mapNextTx := tx.vin.foldl (fun m txin => m.erase txin.prevout) pool.mapNextTx }
  else pool

/-- `checkAccept` with `fCheckInputs` off, as for the transactions of a disconnected block. -/
def checkAccept (env : Env) (pool : CTxMemPool) (tx : CTransaction) : Except Err Unit := do
  tx.checkTransaction.mapError fun _ => Err.fail "CTxMemPool::accept() : CheckTransaction failed"
  Lib.require (!tx.isCoinBase) (Err.fail "CTxMemPool::accept() : coinbase as individual tx")
  Lib.require (!tx.isCoinStake) (Err.fail "CTxMemPool::accept() : coinstake as individual tx")
  Lib.require (tx.nLockTime ≤ 2 ^ 31 - 1)
    (Err.fail "CTxMemPool::accept() : not accepting nLockTime beyond 2038 yet")
  Lib.require (env.fTestNet || env.isStandard tx)
    (Err.fail "CTxMemPool::accept() : nonstandard transaction type")
  Lib.require (pool.lookup (env.getHash tx)).isNone (Err.fail "")
  Lib.require (tx.vin.all fun txin => (pool.mapNextTx txin.prevout).isNone) (Err.fail "")

/-- `AcceptToMemoryPool(txdb, false)`, whose result `Reorganize` does not look at. -/
def accept (env : Env) (pool : CTxMemPool) (tx : CTransaction) : CTxMemPool :=
  if (pool.checkAccept env tx).isOk then pool.addUnchecked env tx else pool

end CTxMemPool

/-! ## The node -/

structure NodeState where
  txdb : CTxDB := {}
  infos : CTxInfoStore := CTxInfoStore.new
  mapBlockIndex : Lib.PMap Uint256 BlockPtr := Lib.PMap.empty
  /-- `nMint`, `nMoneySupply`, `nPoSTotalMint` and `nPoSDebt` of the block index entries -/
  blockStats : Lib.PMap Uint256 BlockStats := Lib.PMap.empty
  /-- `pnext` of the block index entries -/
  pnext : Lib.PMap Uint256 BlockPtr := Lib.PMap.empty
  pindexGenesisBlock : BlockPtr := []
  hashBestChain : Uint256 := 0
  pindexBest : BlockPtr := []
  nBestHeight : ℤ := -1
  bnBestChainTrust : ℤ := 0
  bnBestInvalidTrust : ℤ := 0
  mempool : CTxMemPool := {}
  /-- `setpwalletRegistered` -/
  wallets : List CWallet := []
  /-- `Checkpoints::hashSyncCheckpoint` -/
  hashSyncCheckpoint : Uint256 := 0
  /-- `GetAdjustedTime()` -/
  nAdjustedTime : ℤ := 0

/-- `GetBlockIDHash()` of the block a pointer points to, 0 for `NULL`. -/
def BlockPtr.hash : BlockPtr → Uint256
  | [] => 0
  | pindex :: _ => pindex.hashBlock

namespace NodeState

/-- The counters of a block index entry, zero for `NULL` and for a block never connected. -/
def statsOf (s : NodeState) : BlockPtr → BlockStats
  | [] => {}
  | pindex :: _ => (s.blockStats pindex.hashBlock).getD {}

/-- `CDiskBlockIndex(pindex)` -/
def diskBlockIndex (s : NodeState) (pindex : CBlockIndex) (pprev : BlockPtr) : CDiskBlockIndex where
  index := pindex
  stats := s.statsOf [pindex]
  hashPrev := BlockPtr.hash pprev
  hashNext := BlockPtr.hash ((s.pnext pindex.hashBlock).getD [])

/-- A write to the database within the current transaction. -/
def updateDb (s : NodeState) (f : TxDbData → TxDbData) : NodeState :=
  { s with txdb := { s.txdb with data := f s.txdb.data } }

end NodeState

end ShinyCoin

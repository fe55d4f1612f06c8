import ShinyCoin.Chain.Inputs

/-!
# Connecting and disconnecting a block

`ConnectBlock` collects its changes to the transaction index in `mapQueuedChanges` and writes them
at the end; the infos go to the store as it proceeds, and the wallets hear of the block last.
`DisconnectBlock` goes through the transactions backwards and changes the index as it proceeds. A
call that fails leaves what it had done to the store and to the index; the caller's transactions
take that back.

Sums over a block are kept as integers: what a transaction moves is checked to be in the money
range before it is added up.
-/

namespace ShinyCoin

/-- The locals of the loop of `ConnectBlock`, and the info store it works on. -/
structure ConnectState where
  mapQueuedChanges : TxIndexMap := Lib.PMap.empty
  nFees : ℤ := 0
  nValueIn : ℤ := 0
  nValueOut : ℤ := 0
  nSigOps : Nat := 0
  nTxPos : Nat
  nTx : Nat := 0
  infos : CTxInfoStore

namespace CBlock

/-- Where the transactions of a block at `nBlockPos` start. -/
def firstTxPos (block : CBlock) (nBlockPos : Nat) : Nat :=
  nBlockPos + ({ vtx := [] } : CBlock).getSerializeSize - 2 * getSizeOfCompactSize 0
    + getSizeOfCompactSize block.vtx.length

/-- The BIP30 check: no transaction of the block replaces one with an unspent output. -/
def overwritesNone (env : Env) (txdb : TxIndexMap) (block : CBlock) : Bool :=
  block.vtx.all fun tx =>
    match txdb (env.getHash tx) with
    | none => true
    | some txindexOld => txindexOld.vSpent.all fun pos => !pos.isNull

/-! ## The loop over the transactions -/

/-- The part of a round that a coinbase skips. -/
def connectSpends (env : Env) (files : Files) (s : NodeState) (block : CBlock) (pindex : BlockPtr)
    (posThisTx : CDiskTxPos) (st : ConnectState) (tx : CTransaction) :
    Except (Err × CTxInfoStore) ConnectState := do
  let mapInputs ← (tx.fetchInputs files s.mempool s.txdb.data.txIndex st.mapQueuedChanges true
    false).mapError (·, st.infos)
  let nP2SH ← (tx.getP2SHSigOpCount env mapInputs).mapError (·, st.infos)
  Lib.require (st.nSigOps + nP2SH ≤ MAX_BLOCK_SIGOPS)
    (Err.fail "ConnectBlock() : too many sigops", st.infos)
  let nTxValueIn ← (tx.getValueIn mapInputs).mapError (·, st.infos)
  let nTxValueOut ← tx.getValueOut.mapError (·, st.infos)
  let mapQueuedChanges ← (tx.connectInputs env files s.nBestHeight s.txdb.data.txIndex mapInputs
    st.mapQueuedChanges posThisTx pindex true false).mapError (·, st.infos)
  let infos ← tx.processTxInfos env files s.txdb.data.txIndex st.infos
    (env.getIDHash block.toCBlockHeader) st.nTx
  return { st with
    mapQueuedChanges := mapQueuedChanges
    nFees := st.nFees + if tx.isCoinStake then 0 else nTxValueIn - nTxValueOut
    nValueIn := st.nValueIn + nTxValueIn
    nValueOut := st.nValueOut + nTxValueOut
    nSigOps := st.nSigOps + nP2SH
    infos := infos }

def connectInputsOf (env : Env) (files : Files) (s : NodeState) (block : CBlock)
    (pindex : BlockPtr) (posThisTx : CDiskTxPos) (st : ConnectState) (tx : CTransaction) :
    Except (Err × CTxInfoStore) ConnectState :=
  if tx.isCoinBase then do
    let nTxValueOut ← tx.getValueOut.mapError (·, st.infos)
    return { st with nValueOut := st.nValueOut + nTxValueOut }
  else block.connectSpends env files s pindex posThisTx st tx

/-- One round of the loop of `ConnectBlock`. -/
def connectTx (env : Env) (files : Files) (s : NodeState) (block : CBlock) (pindex : CBlockIndex)
    (pprev : BlockPtr) (st : ConnectState) (tx : CTransaction) :
    Except (Err × CTxInfoStore) ConnectState := do
  Lib.require (st.nSigOps + tx.getLegacySigOpCount env ≤ MAX_BLOCK_SIGOPS)
    (Err.fail "ConnectBlock() : too many sigops", st.infos)
  let posThisTx : CDiskTxPos := ⟨pindex.nFile, pindex.nBlockPos, st.nTxPos⟩
  let st ← block.connectInputsOf env files s (pindex :: pprev) posThisTx
    { st with nSigOps := st.nSigOps + tx.getLegacySigOpCount env } tx
  return { st with
    mapQueuedChanges :=
      st.mapQueuedChanges.set (env.getHash tx) (CTxIndex.new posThisTx tx.vout.length)
    nTxPos := st.nTxPos + tx.getSerializeSize
    nTx := st.nTx + 1 }

/-! ## Rewards and counters -/

/-- `vtx[0].GetValueOut()` -/
def coinbaseValueOut (block : CBlock) : Except Err ℤ :=
  match block.vtx with
  | [] => .error (.exc "vtx[0]")
  | tx :: _ => tx.getValueOut

/-- `nCoinbaseReward` -/
def coinbaseReward (block : CBlock) (pprev : BlockPtr) (nPoSDebt nFees : ℤ) : ℤ :=
  nFees + if block.isProofOfWork then getNextProofOfWorkReward pprev nPoSDebt true else 0

/-- The counters of the block's index entry, from those of its `pprev`. -/
def newStats (block : CBlock) (pprev : BlockPtr) (prev : BlockStats) (st : ConnectState)
    (nCoinbaseOut : ℤ) : BlockStats where
  nMint := st.nValueOut - st.nValueIn + st.nFees
  nMoneySupply := prev.nMoneySupply + st.nValueOut - st.nValueIn
  nPoSTotalMint := prev.nPoSTotalMint
    + if block.isProofOfStake then st.nValueOut - st.nValueIn else 0
  nPoSDebt :=
    if block.isProofOfStake then prev.nPoSDebt + (st.nValueOut - st.nValueIn)
    else prev.nPoSDebt
      - (getNextProofOfWorkReward pprev prev.nPoSDebt false - (nCoinbaseOut - st.nFees))

/-- A block index record for `pprev`, with `hashNext` as the database is to have it. -/
def writePrevIndex (s : NodeState) (pprev : BlockPtr) (hashNext : Uint256) : NodeState :=
  match pprev with
  | [] => s
  | prev :: pprev' =>
      let record := { s.diskBlockIndex prev pprev' with hashNext := hashNext }
      s.updateDb fun d => { d with blockIndex := d.blockIndex.set prev.hashBlock record }

/-- What `ConnectBlock` writes once every check has passed. -/
def writeConnected (block : CBlock) (pindex : CBlockIndex) (pprev : BlockPtr)
    (st : ConnectState) (nCoinbaseOut : ℤ) (s : NodeState) : NodeState :=
  let stats := block.newStats pprev (s.statsOf pprev) st nCoinbaseOut
  let s := { s with blockStats := s.blockStats.set pindex.hashBlock stats }
  let s := s.updateDb fun d =>
    { d with
      blockIndex := d.blockIndex.set pindex.hashBlock (s.diskBlockIndex pindex pprev)
      txIndex := st.mapQueuedChanges.layer d.txIndex
      vConnected := (block, pindex :: pprev) :: d.vConnected }
  writePrevIndex s pprev pindex.hashBlock

/-! ## ConnectBlock and DisconnectBlock -/

/-- The checks of `ConnectBlock` before its loop. -/
def checkConnect (env : Env) (s : NodeState) (block : CBlock) (pindex : CBlockIndex) :
    Except Err Unit := do
  block.checkBlock env s.nAdjustedTime false
  Lib.require (!(block.isProofOfStake && decide (pindex.nHeight % 2 ^ 32 < env.nPoSMinHeight)))
    (Err.fail "Invalid proof-of-stkae block too early")
  Lib.require (block.overwritesNone env s.txdb.data.txIndex) (Err.fail "")

/-- The loop of `ConnectBlock`. -/
def connectTxs (env : Env) (files : Files) (s : NodeState) (block : CBlock) (pindex : CBlockIndex)
    (pprev : BlockPtr) : Except (Err × CTxInfoStore) ConnectState :=
  block.vtx.foldlM (block.connectTx env files s pindex pprev)
    { nTxPos := block.firstTxPos pindex.nBlockPos, infos := s.infos }

/-- The reward check; it returns what the coinbase pays out. -/
def checkCoinbaseReward (block : CBlock) (pprev : BlockPtr) (nPoSDebt nFees : ℤ) :
    Except Err ℤ := do
  let nCoinbaseOut ← block.coinbaseValueOut
  Lib.require (nCoinbaseOut ≤ block.coinbaseReward pprev nPoSDebt nFees)
    (Err.fail "ConnectBlock() : coinbase reward exceeded")
  return nCoinbaseOut

/-- `Watch for transactions paying to me`. -/
def syncConnectedTxs (env : Env) (block : CBlock) (s : NodeState) :
    Except (Err × NodeState) NodeState :=
  match block.vtx.foldlM (syncConnected env block) s.wallets with
  | .ok ws => .ok { s with wallets := ws }
  | .error (e, ws) => .error (e, { s with wallets := ws })

/-- `ConnectBlock(txdb, pindex)`, the pointer given as the entry and its `pprev`. -/
def connectBlock (env : Env) (files : Files) (block : CBlock) (pindex : CBlockIndex)
    (pprev : BlockPtr) (s : NodeState) : Except (Err × NodeState) NodeState := do
  (block.checkConnect env s pindex).mapError (·, s)
  let st ← (block.connectTxs env files s pindex pprev).mapError
    fun e => (e.1, { s with infos := e.2 })
  let s := { s with infos := st.infos }
  let nCoinbaseOut ← (block.checkCoinbaseReward pprev (s.statsOf pprev).nPoSDebt st.nFees).mapError
    (·, s)
  block.syncConnectedTxs env (block.writeConnected pindex pprev st nCoinbaseOut s)

/-- `UndoTxInfos` of one transaction of a block, with the default block hash and number. -/
def undoInfosOf (env : Env) (files : Files) (s : NodeState) (tx : CTransaction) :
    Except (Err × NodeState) NodeState :=
  match tx.undoTxInfos env files s.txdb.data.txIndex s.infos with
  | .ok infos => .ok { s with infos := infos }
  | .error (e, infos) => .error (e, { s with infos := infos })

/-- One round of the loop of `DisconnectBlock`. -/
def disconnectTx (env : Env) (files : Files) (s : NodeState) (tx : CTransaction) :
    Except (Err × NodeState) NodeState :=
  match tx.disconnectInputs env s.txdb.data.txIndex with
  | .ok txIndex => undoInfosOf env files (s.updateDb fun d => { d with txIndex := txIndex }) tx
  | .error (e, txIndex) => .error (e, s.updateDb fun d => { d with txIndex := txIndex })

/-- `clean up wallet after disconnecting coinstake`. -/
def syncDisconnectedTxs (block : CBlock) (s : NodeState) : Except (Err × NodeState) NodeState :=
  match block.vtx.foldlM syncDisconnected s.wallets with
  | .ok ws => .ok { s with wallets := ws }
  | .error (e, ws) => .error (e, { s with wallets := ws })

def disconnectBlock (env : Env) (files : Files) (block : CBlock) (pprev : BlockPtr)
    (s : NodeState) : Except (Err × NodeState) NodeState := do
  let s ← block.vtx.reverse.foldlM (disconnectTx env files) s
  let s := s.updateDb fun d => { d with vConnected := d.vConnected.tail }
  block.syncDisconnectedTxs (writePrevIndex s pprev 0)

end CBlock

end ShinyCoin

import ShinyCoin.Chain.State

/-!
# Connecting and disconnecting the inputs of a transaction

`FetchInputs` looks previous transactions up in the pending changes first and in the database
second; `ConnectInputs` checks them in one pass and marks them spent in a second one, writing each
to the pending changes; `DisconnectInputs` works on the database directly. `_procUndoTxInfos` reads
the database only.

The index a block sees while it is connected is its pending changes over the database, and on that
index `ConnectInputs` is a sequence of `spend`s. The lemmas at the end say so.
-/

namespace ShinyCoin

/-- `map<uint256, CTxIndex>`: the database's transaction index, or pending changes to it. -/
abbrev TxIndexMap := Lib.PMap Uint256 CTxIndex

/-- `MapPrevTx` -/
abbrev MapPrevTx := Lib.PMap Uint256 (CTxIndex × CTransaction)

/-- `CDiskTxPos(1,1,1)`: the position of a transaction of the memory pool. -/
def CDiskTxPos.inPool : CDiskTxPos := ⟨1, 1, 1⟩

namespace CTransaction

/-! ## Fetching -/

/-- `Read txPrev`, for an index entry that was found. -/
def readTxPrev (files : Files) (pool : CTxMemPool) (hash : Uint256) (txindex : CTxIndex) :
    Except Err CTransaction :=
  if txindex.pos = CDiskTxPos.inPool then
    match pool.lookup hash with
    | none => .error (.fail "FetchInputs() : mempool Tx prev not found")
    | some txPrev => .ok txPrev
  else
    match files.readTx txindex.pos with
    | none => .error (.fail "FetchInputs() : ReadFromDisk prev tx failed")
    | some txPrev => .ok txPrev

/-- The entry of a previous transaction nothing is indexed of: it may be in the memory pool. -/
def fetchUnindexed (pool : CTxMemPool) (hash : Uint256) : Except Err (CTxIndex × CTransaction) :=
  match pool.lookup hash with
  | none => .error (.fail "FetchInputs() : mempool Tx prev not found")
  | some txPrev => .ok (CTxIndex.new CDiskTxPos.null txPrev.vout.length, txPrev)

/-- The lookup of one previous transaction. -/
def fetchPrev (files : Files) (pool : CTxMemPool) (txdb mapTestPool : TxIndexMap)
    (fBlock fMiner : Bool) (hash : Uint256) : Except Err (CTxIndex × CTransaction) :=
  if fBlock || fMiner then
    match mapTestPool.layer txdb hash with
    | none => .error (.fail "FetchInputs() : prev tx index entry not found")
    | some txindex => do
        let txPrev ← readTxPrev files pool hash txindex
        return (txindex, txPrev)
  else
    match txdb hash with
    | none => fetchUnindexed pool hash
    | some txindex => do
        let txPrev ← readTxPrev files pool hash txindex
        return (txindex, txPrev)

def fetchInput (files : Files) (pool : CTxMemPool) (txdb mapTestPool : TxIndexMap)
    (fBlock fMiner : Bool) (inputsRet : MapPrevTx) (txin : CTxIn) : Except Err MapPrevTx :=
  match inputsRet txin.prevout.hash with
  | some _ => .ok inputsRet
  | none => do
      let prev ← fetchPrev files pool txdb mapTestPool fBlock fMiner txin.prevout.hash
      return inputsRet.set txin.prevout.hash prev

/-- `Make sure all prevout.n's are valid`. -/
def checkPrevoutRange (inputs : MapPrevTx) (txin : CTxIn) : Except Err Unit :=
  match inputs txin.prevout.hash with
  | none => .error (.exc "assert(inputsRet.count(prevout.hash) != 0)")
  | some (txindex, txPrev) =>
      Lib.require (decide (txin.prevout.n < txPrev.vout.length)
          && decide (txin.prevout.n < txindex.vSpent.length))
        (Err.invalid "FetchInputs() : prevout.n out of range")

def fetchInputs (files : Files) (pool : CTxMemPool) (txdb mapTestPool : TxIndexMap)
    (fBlock fMiner : Bool) (tx : CTransaction) : Except Err MapPrevTx :=
  if tx.isCoinBase then .ok Lib.PMap.empty
  else do
    let inputs ← tx.vin.foldlM (fetchInput files pool txdb mapTestPool fBlock fMiner) Lib.PMap.empty
    tx.vin.forM (checkPrevoutRange inputs)
    return inputs

/-! ## Values and signature operations -/

def getOutputFor (inputs : MapPrevTx) (txin : CTxIn) : Except Err CTxOut :=
  match inputs txin.prevout.hash with
  | none => .error (.exc "CTransaction::GetOutputFor() : prevout.hash not found")
  | some (_, txPrev) =>
      match txPrev.vout[txin.prevout.n]? with
      | none => .error (.exc "CTransaction::GetOutputFor() : prevout.n out of range")
      | some txout => .ok txout

def getValueIn (inputs : MapPrevTx) (tx : CTransaction) : Except Err ℤ :=
  if tx.isCoinBase then .ok 0
  else tx.vin.foldlM (fun nResult txin => do
    let txout ← getOutputFor inputs txin
    return int64 (nResult + txout.nValue)) 0

def getP2SHSigOpCount (env : Env) (inputs : MapPrevTx) (tx : CTransaction) : Except Err Nat :=
  if tx.isCoinBase then .ok 0
  else tx.vin.foldlM (fun nSigOps txin => do
    let prevout ← getOutputFor inputs txin
    return nSigOps + if env.isPayToScriptHash prevout.scriptPubKey then
      env.getSigOpCountP2SH prevout.scriptPubKey txin.scriptSig else 0) 0

/-- One round of the loop of `GetCoinAge`: the cent-seconds of an input whose previous transaction
is on disk and old enough. -/
def addCoinAge (env : Env) (files : Files) (txdb : TxIndexMap) (tx : CTransaction)
    (bnCentSecond : ℤ) (txin : CTxIn) : Option ℤ :=
  match readFromDisk files txdb txin.prevout with
  | none => some bnCentSecond
  | some (txPrev, txindex) =>
      if tx.nTime < txPrev.nTime then none
      else match files.readHeaderAt txindex.pos.nFile txindex.pos.nBlockPos with
        | none => none
        | some block =>
            if tx.nTime < block.nTime + env.nStakeMinAge then some bnCentSecond
            else
              let nValueIn := (txPrev.vout[txin.prevout.n]?.map CTxOut.nValue).getD 0
              some (bnCentSecond + (nValueIn * (tx.nTime - txPrev.nTime)).tdiv CENT)

/-- `GetCoinAge`, in coin-seconds; `none` where it returns `false`. -/
def getCoinAge (env : Env) (files : Files) (txdb : TxIndexMap) (tx : CTransaction) : Option Nat :=
  if tx.isCoinBase then some 0
  else (tx.vin.foldlM (addCoinAge env files txdb tx) 0).map fun bnCentSecond =>
    ((bnCentSecond * CENT).tdiv COIN).natAbs % 2 ^ 64

/-! ## Connecting -/

/-- The walk back from `pindexBlock` that looks for the block of a young coinbase or coinstake. -/
def isImmature (env : Env) (pindexBlock : BlockPtr) (txindex : CTxIndex) : Bool :=
  match pindexBlock with
  | [] => false
  | pindex₀ :: _ =>
      (pindexBlock.takeWhile fun pindex => pindex₀.nHeight - pindex.nHeight < env.nCoinbaseMaturity).any
        fun pindex => pindex.nBlockPos == txindex.pos.nBlockPos && pindex.nFile == txindex.pos.nFile

/-- One round of the first loop: the inexpensive checks. -/
def checkInput (env : Env) (inputs : MapPrevTx) (pindexBlock : BlockPtr) (tx : CTransaction)
    (nValueIn : ℤ) (txin : CTxIn) : Except Err ℤ :=
  match inputs txin.prevout.hash with
  | none => .error (.exc "assert(inputs.count(prevout.hash) > 0)")
  | some (txindex, txPrev) =>
      match txPrev.vout[txin.prevout.n]? with
      | none => .error (.fail "ConnectInputs() : prevout.n out of range")
      | some txout => do
          Lib.require (txin.prevout.n < txindex.vSpent.length)
            (Err.fail "ConnectInputs() : prevout.n out of range")
          Lib.require (!(txPrev.isCoinBase || txPrev.isCoinStake) || !isImmature env pindexBlock txindex)
            (Err.fail "ConnectInputs() : tried to spend coinbase/coinstake")
          Lib.require (txPrev.nTime ≤ tx.nTime)
            (Err.fail "ConnectInputs() : transaction timestamp earlier than input transaction")
          let nValueIn := int64 (nValueIn + txout.nValue)
          Lib.require (moneyRange txout.nValue && moneyRange nValueIn)
            (Err.fail "ConnectInputs() : txin values out of range")
          return nValueIn

/-- One round of the second loop: the double-spend check, the signature, the mark. -/
def connectInput (env : Env) (fVerify : Bool) (posThisTx : CDiskTxPos) (fBlock fMiner : Bool)
    (tx : CTransaction) (st : MapPrevTx × TxIndexMap) (x : CTxIn × Nat) :
    Except Err (MapPrevTx × TxIndexMap) :=
  match st.1 x.1.prevout.hash with
  | none => .error (.exc "assert(inputs.count(prevout.hash) > 0)")
  | some (txindex, txPrev) =>
      match txindex.vSpent[x.1.prevout.n]? with
      | none => .error (.exc "txindex.vSpent[prevout.n]")
      | some posSpent => do
          Lib.require posSpent.isNull (Err.fail "ConnectInputs() : prev tx already used")
          Lib.require (!fVerify || env.verifySignature txPrev tx x.2)
            (Err.fail "ConnectInputs() : VerifySignature failed")
          let txindex := { txindex with vSpent := txindex.vSpent.set x.1.prevout.n posThisTx }
          return (st.1.set x.1.prevout.hash (txindex, txPrev),
            if fBlock || fMiner then st.2.set x.1.prevout.hash txindex else st.2)

/-- What a coinstake may earn. -/
def checkStakeReward (env : Env) (files : Files) (txdb : TxIndexMap) (tx : CTransaction)
    (nValueIn : ℤ) : Except Err Unit :=
  match getCoinAge env files txdb tx with
  | none => .error (.fail "ConnectInputs() : unable to get coin age for coinstake")
  | some nCoinAgeSeconds => do
      let nValueOut ← tx.getValueOut
      Lib.require (nValueOut - nValueIn
          ≤ getProofOfStakeReward (int64 nCoinAgeSeconds) - tx.getMinFee 1 .GMF_BLOCK + MIN_TX_FEE)
        (Err.fail "ConnectInputs() : stake reward exceeded")

/-- What any other transaction may not: spend more than it has. -/
def checkTxFee (tx : CTransaction) (nValueIn : ℤ) : Except Err Unit := do
  let nValueOut ← tx.getValueOut
  Lib.require (nValueOut ≤ nValueIn) (Err.fail "ConnectInputs() : value in < value out")
  Lib.require (0 ≤ nValueIn - nValueOut) (Err.fail "ConnectInputs() : nTxFee < 0")
  Lib.require (moneyRange (nValueIn - nValueOut)) (Err.fail "ConnectInputs() : nFees out of range")

def checkValueOut (env : Env) (files : Files) (txdb : TxIndexMap) (tx : CTransaction)
    (nValueIn : ℤ) : Except Err Unit :=
  if tx.isCoinStake then tx.checkStakeReward env files txdb nValueIn else tx.checkTxFee nValueIn

/-- `ConnectInputs`: the pending changes with the inputs marked spent. -/
def connectInputs (env : Env) (files : Files) (nBestHeight : ℤ) (txdb : TxIndexMap)
    (inputs : MapPrevTx) (mapTestPool : TxIndexMap) (posThisTx : CDiskTxPos)
    (pindexBlock : BlockPtr) (fBlock fMiner : Bool) (tx : CTransaction) : Except Err TxIndexMap :=
  if tx.isCoinBase then .ok mapTestPool
  else do
    let nValueIn ← tx.vin.foldlM (checkInput env inputs pindexBlock tx) 0
    let fVerify := !(fBlock && decide (nBestHeight < env.totalBlocksEstimate))
    let st ← tx.vin.zipIdx.foldlM (connectInput env fVerify posThisTx fBlock fMiner tx)
      (inputs, mapTestPool)
    tx.checkValueOut env files txdb nValueIn
    return st.2

/-! ## Disconnecting -/

/-- One round of the loop of `DisconnectInputs`. -/
def disconnectInput (txdb : TxIndexMap) (txin : CTxIn) : Except (Err × TxIndexMap) TxIndexMap :=
  match txdb txin.prevout.hash with
  | none => .error (.fail "DisconnectInputs() : ReadTxIndex failed", txdb)
  | some txindex =>
      if txin.prevout.n < txindex.vSpent.length then
        .ok (txdb.set txin.prevout.hash
          { txindex with vSpent := txindex.vSpent.set txin.prevout.n CDiskTxPos.null })
      else .error (.fail "DisconnectInputs() : prevout.n out of range", txdb)

/-- `Relinquish previous transactions' spent pointers`. -/
def relinquishInputs (txdb : TxIndexMap) (tx : CTransaction) :
    Except (Err × TxIndexMap) TxIndexMap :=
  if tx.isCoinBase then .ok txdb else tx.vin.foldlM disconnectInput txdb

def disconnectInputs (env : Env) (txdb : TxIndexMap) (tx : CTransaction) :
    Except (Err × TxIndexMap) TxIndexMap := do
  let txdb ← tx.relinquishInputs txdb
  return txdb.erase (env.getHash tx)

/-! ## Infos -/

/-- The records of one input, in order. -/
def infoRecords (addr : CBitcoinAddress) (blockHash : Uint256) (nTxInBlock : ℤ) (x : CTxIn × Nat) :
    List TxInfoRecord :=
  x.1.infos.zipIdx.map fun y =>
    { addr := addr, info := y.1, blockHash := blockHash, indexTx := nTxInBlock, indexTxIn := x.2,
      indexInfo := y.2 }

/-- The infos of one input of `_procUndoTxInfos`. -/
def procUndoTxIn (env : Env) (files : Files) (txdb : TxIndexMap) (undoing : Bool)
    (blockHash : Uint256) (nTxInBlock : ℤ) (st : CTxInfoStore) (x : CTxIn × Nat) :
    Except (Err × CTxInfoStore) CTxInfoStore :=
  if x.1.infos.isEmpty then .ok st
  else match readDiskTx files txdb x.1.prevout.hash with
    | none => .error (.fail "", st)
    | some prevTx =>
        match prevTx.vout[x.1.prevout.n]? with
        | none => .error (.exc "prevTx.vout[txin.prevout.n]", st)
        | some txout =>
            match env.extractAddress txout.scriptPubKey with
            | none => .error (.fail "", st)
            | some addr =>
                let records := infoRecords addr blockHash nTxInBlock x
                if undoing then records.reverse.foldlM (fun st r => st.undo env r) st
                else records.foldlM (fun st r => st.process env r) st

/-- `_procUndoTxInfos`: forward to process, backward to undo. -/
def _procUndoTxInfos (env : Env) (files : Files) (txdb : TxIndexMap) (undoing : Bool)
    (blockHash : Uint256) (nTxInBlock : ℤ) (tx : CTransaction) (st : CTxInfoStore) :
    Except (Err × CTxInfoStore) CTxInfoStore :=
  if st.inTransaction then
    (if undoing then tx.vin.zipIdx.reverse else tx.vin.zipIdx).foldlM
      (procUndoTxIn env files txdb undoing blockHash nTxInBlock) st
  else .error (.exc "Proc info without store in transaction", st)

def undoTxInfos (env : Env) (files : Files) (txdb : TxIndexMap) (tx : CTransaction)
    (st : CTxInfoStore) (blockHash : Uint256 := 0) (nTxInBlock : ℤ := -1) :
    Except (Err × CTxInfoStore) CTxInfoStore :=
  _procUndoTxInfos env files txdb true blockHash nTxInBlock tx st

def processTxInfos (env : Env) (files : Files) (txdb : TxIndexMap) (tx : CTransaction)
    (st : CTxInfoStore) (blockHash : Uint256 := 0) (nTxInBlock : ℤ := -1) :
    Except (Err × CTxInfoStore) CTxInfoStore :=
  _procUndoTxInfos env files txdb false blockHash nTxInBlock tx st

end CTransaction

end ShinyCoin

import ShinyCoin.Chain.Inputs
import ShinyCoin.Lib.Queue

/-!
# Block templates

`CreateNewBlock` puts a coinbase, perhaps a coinstake, and transactions of the memory pool into a
block. It goes through the pool by priority; a transaction whose inputs are not on disk waits for
the pool transactions it spends. When the infos of a transaction cannot be processed on top of those
collected so far, the transaction leaves the pool and the collection starts again: with new queues,
a new view of the infos and a new test pool, but with the block and the fee total it has.

The keys of the wallet, the coins and signatures of a coinstake, the next target and the priority of
a transaction, a floating point number of which only the order matters, are parameters (`Miner`).
-/

namespace ShinyCoin

/-- The value an `unsigned int` takes. -/
def uint32 (z : ℤ) : Nat := (z % 2 ^ 32).toNat

def nMedianTimeSpan : Nat := 11

/-- `GetMedianTimePast()` of the block a pointer points to. -/
def BlockPtr.getMedianTimePast (ptr : BlockPtr) : ℤ :=
  let pmedian := ((ptr.take nMedianTimeSpan).map fun pindex => (pindex.nTime : ℤ)).insertionSort (· ≤ ·)
  pmedian.getD (pmedian.length / 2) 0

/-- What `CreateCoinStake` leaves in `txNew`: the coin whose kernel was found and those added to it,
each with its signature, and the stake, split or not. -/
structure CoinStake where
  nTime : Nat
  kernel : COutPoint × CScript
  kernel_isNull : kernel.1.isNull = false
  coins : List (COutPoint × CScript)
  txout : CTxOut
  split : Option CTxOut

/-- The first output is empty: `Mark coin stake transaction`. -/
def CoinStake.txNew (stake : CoinStake) : CTransaction where
  nTime := stake.nTime
  vin := (stake.kernel :: stake.coins).map fun coin => { prevout := coin.1, scriptSig := coin.2 }
  vout := { nValue := 0 } :: stake.txout :: stake.split.toList

/-- What `CreateNewBlock` is called with, and the helpers it calls that are modelled elsewhere. -/
structure Miner where
  /-- `reservekey.GetReservedKey() << OP_CHECKSIG` -/
  scriptPubKey : CScript
  nLastCoinStakeSearchTime : ℤ
  /-- `pwallet->CreateCoinStake(*pwallet, nBits, nSearchInterval, txCoinStake)` -/
  createCoinStake : Nat → ℤ → Option CoinStake
  getNextTargetRequired : BlockPtr → Bool → Nat
  /-- `-dPriority`, the key in `mapPriority` -/
  priority : CTransaction → ℤ

/-! ## The coinbase and the coinstake -/

/-- `Create coinbase tx` -/
def Miner.coinbaseTx (miner : Miner) (s : NodeState) : CTransaction where
  nTime := uint32 s.nAdjustedTime
  vin := [{ prevout := COutPoint.null }]
  vout := [{ nValue := -1, scriptPubKey := miner.scriptPubKey }]

/-- `attemp to find a coinstake` -/
def Miner.findCoinStake (env : Env) (miner : Miner) (s : NodeState) (pindexPrev : CBlockIndex)
    (pprev : BlockPtr) (fProofOfStake : Bool) : Option CTransaction :=
  let nSearchTime : ℤ := uint32 s.nAdjustedTime
  if pindexPrev.nHeight % 2 ^ 32 < env.nPoSMinHeight then none
  else if fProofOfStake && decide (miner.nLastCoinStakeSearchTime < nSearchTime) then
    ((miner.createCoinStake (miner.getNextTargetRequired (pindexPrev :: pprev) true)
      (nSearchTime - miner.nLastCoinStakeSearchTime)).map CoinStake.txNew).filter fun txCoinStake =>
        decide (max (BlockPtr.getMedianTimePast (pindexPrev :: pprev) + 1)
          (pindexPrev.nTime - nMaxClockDrift) ≤ txCoinStake.nTime)
  else none

/-- `pblock->vtx` before the memory pool is looked at. -/
def Miner.startVtx (miner : Miner) (s : NodeState) : Option CTransaction → List CTransaction
  | none => [miner.coinbaseTx s]
  | some txCoinStake => [{ miner.coinbaseTx s with nTime := txCoinStake.nTime }, txCoinStake]

/-! ## The order of the pool -/

structure COrphan where
  ptx : CTransaction
  setDependsOn : List Uint256

/-- `setDependsOn` of a transaction of the pool: the previous transactions that are not on disk. -/
def CTransaction.dependsOn (files : Files) (txdb : TxIndexMap) (tx : CTransaction) : List Uint256 :=
  (tx.vin.filter fun txin => (readFromDisk files txdb txin.prevout).isNone).map
    fun txin => txin.prevout.hash

/-- The transactions of the pool that may go into a block, in the order of their hashes. -/
def CTxMemPool.eligible (s : NodeState) (pool : CTxMemPool) : List CTransaction :=
  (pool.mapTx.toList.map Prod.snd).filter fun tx =>
    !(tx.isCoinBase || tx.isCoinStake || !tx.isFinal s.nBestHeight s.nAdjustedTime 0 0)

/-- `vOrphan` -/
def CTxMemPool.orphans (files : Files) (s : NodeState) (pool : CTxMemPool) : List COrphan :=
  ((pool.eligible s).filter fun tx => !(tx.dependsOn files s.txdb.data.txIndex).isEmpty).map fun tx =>
    ⟨tx, tx.dependsOn files s.txdb.data.txIndex⟩

/-- `mapPriority`, before anything has been collected. -/
def CTxMemPool.prioritized (files : Files) (miner : Miner) (s : NodeState) (pool : CTxMemPool) :
    List CTransaction :=
  Lib.enqueueAll miner.priority []
    ((pool.eligible s).filter fun tx => (tx.dependsOn files s.txdb.data.txIndex).isEmpty)

/-! ## Collecting -/

/-- The locals of a pass over the pool, with `pblock->vtx` and `nFees`, which outlive it. An orphan
that has been released is not kept in `vOrphan`; `mapDependers[hash]` are the orphans with `hash` in
their `setDependsOn`. -/
structure CollectState where
  mapPriority : List CTransaction
  vOrphan : List COrphan
  mapTestPool : TxIndexMap := Lib.PMap.empty
  nBlockSize : Nat := 1000
  nBlockSigOps : Nat := 100
  infos : CTxInfoStore
  vtx : List CTransaction
  nFees : ℤ

/-- What a round does with its transaction. -/
inductive Outcome where
  /-- `continue` -/
  | skipped
  /-- `mempool.remove(tx); tryAgain = true; break` -/
  | conflict
  /-- `Added`: the test pool with its inputs spent, the infos, its signature operations and fees -/
  | added (mapTestPool : TxIndexMap) (infos : CTxInfoStore) (nTxSigOps : Nat) (nTxFees : ℤ)

/-- A call that returns `false` where the caller goes on; an exception goes through. -/
def orElse {α β : Type} (x : Except Err α) (b : β) (f : α → Except Err β) : Except Err β :=
  match x with
  | .error (.exc what) => .error (.exc what)
  | .error _ => .ok b
  | .ok a => f a

/-- `pblock->IsProofOfStake() && tx.nTime > pblock->vtx[1].nTime` -/
def afterCoinStake (vtx : List CTransaction) (tx : CTransaction) : Bool :=
  match vtx with
  | _ :: txCoinStake :: _ => txCoinStake.isCoinStake && decide (txCoinStake.nTime < tx.nTime)
  | _ => false

/-- From `ConnectInputs` on. -/
def CTransaction.tryConnect (env : Env) (files : Files) (s : NodeState) (st : CollectState)
    (mapInputs : MapPrevTx) (nTxSigOps : Nat) (nTxFees : ℤ) (tx : CTransaction) :
    Except Err Outcome :=
  orElse (tx.connectInputs env files s.nBestHeight s.txdb.data.txIndex mapInputs st.mapTestPool
      CDiskTxPos.inPool s.pindexBest false true) .skipped fun mapTestPool =>
    orElse ((tx.processTxInfos env files s.txdb.data.txIndex st.infos).mapError Prod.fst) .conflict
      fun infos => .ok (.added mapTestPool infos nTxSigOps nTxFees)

/-- From `FetchInputs` on. -/
def CTransaction.tryFetch (env : Env) (files : Files) (s : NodeState) (pool : CTxMemPool)
    (st : CollectState) (tx : CTransaction) : Except Err Outcome :=
  orElse (tx.fetchInputs files pool s.txdb.data.txIndex st.mapTestPool false true) .skipped
    fun mapInputs => do
      let nTxValueIn ← tx.getValueIn mapInputs
      let nTxValueOut ← tx.getValueOut
      if nTxValueIn - nTxValueOut < tx.getMinFee st.nBlockSize .GMF_BLOCK then return .skipped
      let nP2SH ← tx.getP2SHSigOpCount env mapInputs
      if MAX_BLOCK_SIGOPS ≤ st.nBlockSigOps + (tx.getLegacySigOpCount env + nP2SH) then
        return .skipped
      tx.tryConnect env files s st mapInputs (tx.getLegacySigOpCount env + nP2SH)
        (nTxValueIn - nTxValueOut)

/-- One round of the collection, for the transaction that was taken off the queue. -/
def CTransaction.tryTx (env : Env) (files : Files) (s : NodeState) (pool : CTxMemPool)
    (st : CollectState) (tx : CTransaction) : Except Err Outcome :=
  if MAX_BLOCK_SIZE_GEN ≤ st.nBlockSize + tx.getSerializeSize then .ok .skipped
  else if MAX_BLOCK_SIGOPS ≤ st.nBlockSigOps + tx.getLegacySigOpCount env then .ok .skipped
  else if s.nAdjustedTime < tx.nTime || afterCoinStake st.vtx tx then .ok .skipped
  else tx.tryFetch env files s pool st

/-- `setDependsOn.erase(hash)` -/
def COrphan.erase (hash : Uint256) (orphan : COrphan) : COrphan :=
  { orphan with setDependsOn := orphan.setDependsOn.filter (· != hash) }

/-- The orphans that wait for nothing but `hash`. -/
def releasedBy (hash : Uint256) (vOrphan : List COrphan) : List CTransaction :=
  ((vOrphan.map (COrphan.erase hash)).filter fun orphan => orphan.setDependsOn.isEmpty).map COrphan.ptx

/-- The orphans that still wait when `hash` is there. -/
def waitingAfter (hash : Uint256) (vOrphan : List COrphan) : List COrphan :=
  (vOrphan.map (COrphan.erase hash)).filter fun orphan => !orphan.setDependsOn.isEmpty

/-- `Added`, and `Add transactions that depend on this one to the priority queue`. -/
def CollectState.add (env : Env) (miner : Miner) (st : CollectState) (tx : CTransaction)
    (mapTestPool : TxIndexMap) (infos : CTxInfoStore) (nTxSigOps : Nat) (nTxFees : ℤ) :
    CollectState where
  mapPriority := Lib.enqueueAll miner.priority st.mapPriority (releasedBy (env.getHash tx) st.vOrphan)
  vOrphan := waitingAfter (env.getHash tx) st.vOrphan
  mapTestPool := mapTestPool.set (env.getHash tx) (CTxIndex.new CDiskTxPos.inPool tx.vout.length)
  nBlockSize := st.nBlockSize + tx.getSerializeSize
  nBlockSigOps := st.nBlockSigOps + nTxSigOps
  infos := infos
  vtx := st.vtx ++ [tx]
  nFees := st.nFees + nTxFees

/-- `while (!mapPriority.empty())`, and the transaction with which it broke off. Every round takes
one transaction off the queues for good, so their number bounds the rounds. -/
def collectTxs (env : Env) (files : Files) (miner : Miner) (s : NodeState) (pool : CTxMemPool) :
    Nat → CollectState → Except Err (CollectState × Option CTransaction)
  | 0, st => .ok (st, none)
  | n + 1, st =>
      match st.mapPriority with
      | [] => .ok (st, none)
      | tx :: mapPriority => do
          let st := { st with mapPriority := mapPriority }
          match ← tx.tryTx env files s pool st with
          | .skipped => collectTxs env files miner s pool n st
          | .conflict => return (st, some tx)
          | .added mapTestPool infos nTxSigOps nTxFees =>
              collectTxs env files miner s pool n
                (st.add env miner tx mapTestPool infos nTxSigOps nTxFees)

/-- The block's transactions and the fee total. -/
structure Template where
  vtx : List CTransaction
  nFees : ℤ
  deriving DecidableEq

/-- The queues and the view a pass starts with. -/
def Template.start (files : Files) (miner : Miner) (s : NodeState) (pool : CTxMemPool)
    (infos : CTxInfoStore) (template : Template) : CollectState where
  mapPriority := pool.prioritized files miner s
  vOrphan := pool.orphans files s
  infos := infos
  vtx := template.vtx
  nFees := template.nFees

/-- One pass over the pool. Its view of the infos is rolled back at the end. -/
def collectPass (env : Env) (files : Files) (miner : Miner) (s : NodeState) (pool : CTxMemPool)
    (template : Template) : Except Err (Template × Option CTransaction) := do
  let infos ← s.infos.beginTransaction.mapError Prod.fst
  let st := template.start files miner s pool infos
  let (st, conflict) ← collectTxs env files miner s pool (st.mapPriority.length + st.vOrphan.length) st
  return ({ vtx := st.vtx, nFees := st.nFees }, conflict)

/-- `do .. while (tryAgain)`. Every restart takes a transaction out of the pool, so its size bounds
the passes. -/
def collectPasses (env : Env) (files : Files) (miner : Miner) (s : NodeState) :
    Nat → CTxMemPool → Template → Except Err (Template × CTxMemPool)
  | 0, pool, template => .ok (template, pool)
  | n + 1, pool, template => do
      let (template, conflict) ← collectPass env files miner s pool template
      match conflict with
      | none => return (template, pool)
      | some tx => collectPasses env files miner s n (pool.remove env tx) template

/-! ## The block -/

/-- The output of the coinbase. -/
def payCoinbase (nFees nReward : ℤ) (isProofOfWork : Bool) (txout : CTxOut) : CTxOut :=
  if isProofOfWork then { txout with nValue := nFees + nReward }
  else if nFees ≠ 0 then { txout with nValue := nFees }
  else { txout with nValue := 0, scriptPubKey := [] }

/-- `pblock->vtx[0].vout[0] = ..` -/
def setCoinbaseOut (f : CTxOut → CTxOut) : List CTransaction → List CTransaction
  | [] => []
  | tx :: vtx => { tx with vout := tx.vout.modifyHead f } :: vtx

def CBlock.getMaxTransactionTime (block : CBlock) : ℤ :=
  block.vtx.foldl (fun maxTransactionTime tx => max maxTransactionTime (tx.nTime : ℤ)) 0

/-- `Fill in header`. The time of the coinstake, set first, is overwritten at once. -/
def CBlock.fillHeader (env : Env) (s : NodeState) (pindexPrev : CBlockIndex) (pprev : BlockPtr)
    (block : CBlock) : CBlock :=
  let nTime := uint32 (max (BlockPtr.getMedianTimePast (pindexPrev :: pprev) + 1)
    block.getMaxTransactionTime)
  let nTime := uint32 (max (nTime : ℤ) (pindexPrev.nTime - nMaxClockDrift))
  { block with
    hashPrevBlock := pindexPrev.hashBlock
    hashMerkleRoot := env.buildMerkleTree block.vtx
    nTime := if block.isProofOfWork then uint32 (max (nTime : ℤ) s.nAdjustedTime) else nTime
    nNonce := 0 }

/-- The block for a template, with `nBits` as it was set before the collection. -/
def Template.toBlock (env : Env) (s : NodeState) (pindexPrev : CBlockIndex) (pprev : BlockPtr)
    (nBits : Nat) (template : Template) : CBlock :=
  let nReward := getNextProofOfWorkReward (pindexPrev :: pprev)
    (s.statsOf (pindexPrev :: pprev)).nPoSDebt true
  let isProofOfWork := CBlock.isProofOfWork { vtx := template.vtx }
  CBlock.fillHeader env s pindexPrev pprev
    { nBits := nBits
      vtx := setCoinbaseOut (payCoinbase template.nFees nReward isProofOfWork) template.vtx }

/-- `CreateNewBlock(reservekey, pwallet, fProofOfStake)`, with the pool it leaves. -/
def createNewBlock (env : Env) (files : Files) (miner : Miner) (s : NodeState)
    (fProofOfStake : Bool) : Except Err (CBlock × CTxMemPool) :=
  match s.pindexBest with
  | [] => .error (.exc "pindexPrev is NULL")
  | pindexPrev :: pprev => do
      let vtx := miner.startVtx s (miner.findCoinStake env s pindexPrev pprev fProofOfStake)
      let nBits := miner.getNextTargetRequired (pindexPrev :: pprev)
        (CBlock.isProofOfStake { vtx := vtx })
      let (template, pool) ← collectPasses env files miner s (s.mempool.mapTx.size + 1) s.mempool
        { vtx := vtx, nFees := 0 }
      return (template.toBlock env s pindexPrev pprev nBits, pool)

end ShinyCoin

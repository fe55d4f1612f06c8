import ShinyCoin.Sync.Checkpoint
import ShinyCoin.Lib.Worklist

/-!
# Blocks from the network

`ProcessBlock` accepts a block, keeps it as an orphan when its parent is not known, or rejects it. A
block that is accepted is followed by the orphans that wait for it, then by those that wait for one
of these, and so on; an orphan leaves the maps whether or not it is accepted.

A stake may be used once among the blocks of the index and once among the orphans, unless an orphan
or a pending checkpoint waits for the block: `Limited duplicity on stake: prevents block flood
attack`.

What is sent to peers is left out: inventories, requests, and the checkpoint that a node with the
master key announces, which is a call of `ProcessSyncCheckpoint` of its own.
-/

namespace ShinyCoin

/-! ## AcceptBlock -/

namespace CBlock

/-- What `AcceptBlock` asks of a block under a parent that is indexed. -/
def checkContext (senv : SyncEnv) (s : NodeState) (block : CBlock) (pindexPrev : CBlockIndex)
    (pprev : BlockPtr) : Except Err Unit := do
  let hash := senv.getIDHash block.toCBlockHeader
  let nHeight := pindexPrev.nHeight + 1
  Lib.require (block.nBits == senv.getNextTargetRequired (pindexPrev :: pprev) block.isProofOfStake)
    (Err.fail "AcceptBlock() : incorrect proof-of-work/proof-of-stake")
  Lib.require (decide (BlockPtr.getMedianTimePast (pindexPrev :: pprev) < block.getBlockTime)
      && decide ((pindexPrev.nTime : ℤ) ≤ block.getBlockTime + nMaxClockDrift))
    (Err.fail "AcceptBlock() : block's timestamp is too early")
  Lib.require (block.vtx.all fun tx =>
      tx.isFinal s.nBestHeight s.nAdjustedTime nHeight block.getBlockTime)
    (Err.fail "AcceptBlock() : contains a non-final transaction")
  Lib.require (senv.checkHardened nHeight hash)
    (Err.fail "AcceptBlock() : rejected by hardened checkpoint lockin")
  let fSync ← senv.checkSync s hash pindexPrev pprev
  Lib.require fSync (Err.fail "AcceptBlock() : rejected by synchronized checkpoint")

/-- What the kernel says about a block, with `mapProofOfStake` as it is. -/
def kernel (senv : SyncEnv) (s : SyncState) (block : CBlock) : StakeKernel where
  nEntropyBit := senv.getStakeEntropyBit block
  hashProofOfStake := s.mapProofOfStake (senv.getIDHash block.toCBlockHeader)
  nextStakeModifier := senv.computeNextStakeModifier
  checkStakeModifierCheckpoints := senv.checkStakeModifierCheckpoints

/-- `setStakeSeen.insert` of `AddToBlockIndex`, made as soon as the block is in `mapBlockIndex`,
whatever `SetBestChain` says then. -/
def seeStake (senv : SyncEnv) (block : CBlock) (s : SyncState) : SyncState :=
  if (s.node.mapBlockIndex (senv.getIDHash block.toCBlockHeader)).isSome && block.isProofOfStake then
    { s with setStakeSeen := insert block.getProofOfStake s.setStakeSeen }
  else s

/-- `AddToBlockIndex` for a block that is not indexed. -/
def indexBlock (senv : SyncEnv) (files : Files) (block : CBlock) (nFile nBlockPos : Nat) :
    Lib.Call Err SyncState := fun s =>
  match block.addToBlockIndex senv.toEnv files (block.kernel senv s) nFile nBlockPos s.node with
  | .ok node => .ok (block.seeStake senv { s with node := node })
  | .error (e, node) =>
      .error (e.logged "AcceptBlock() : AddToBlockIndex failed",
        block.seeStake senv { s with node := node })

/-- `AcceptBlock` from `CheckDiskSpace` on. -/
def storeBlock (senv : SyncEnv) (disk : Disk) (block : CBlock) : Lib.Call Err SyncState := fun s => do
  Lib.require disk.fDiskSpace (Err.fail "AcceptBlock() : out of disk space", s)
  match disk.writeToDisk with
  | none => .error (.fail "AcceptBlock() : WriteToDisk failed", s)
  | some (nFile, nBlockPos) => do
      let s ← block.indexBlock senv disk.files nFile nBlockPos s
      -- whether a pending checkpoint could be accepted is not looked at
      match s.acceptPendingSyncCheckpoint senv disk with
      | .ok s => .ok s
      | .error (e, s) => if e.isFalse then .ok s else .error (e, s)

def acceptBlock (senv : SyncEnv) (disk : Disk) (block : CBlock) : Lib.Call Err SyncState := fun s => do
  Lib.require (s.node.mapBlockIndex (senv.getIDHash block.toCBlockHeader)).isNone
    (Err.fail "AcceptBlock() : block already in mapBlockIndex", s)
  match s.node.mapBlockIndex block.hashPrevBlock with
  | none => .error (.fail "AcceptBlock() : prev block not found", s)
  | some [] => .error (.exc "pindexPrev is NULL", s)
  | some (pindexPrev :: pprev) => do
      (block.checkContext senv s.node pindexPrev pprev).mapError (·, s)
      block.storeBlock senv disk s

end CBlock

/-! ## The orphans -/

namespace SyncState

/-- The orphans under a key, `lower_bound` to `upper_bound`. -/
def orphansUnder (s : SyncState) (hashPrev : Uint256) : List CBlock :=
  (s.mapOrphanBlocksByPrev.filter fun x => x.1 == hashPrev).map Prod.snd

/-- `Duplicate stake allowed only when there is orphan child block`, or a checkpoint waits. -/
def allowsDuplicate (s : SyncState) (hash : Uint256) : Bool :=
  !(s.orphansUnder hash).isEmpty || s.wantedByPendingSyncCheckpoint hash

/-- `shunt it off to holding area until we get it` -/
def shuntOff (senv : SyncEnv) (block : CBlock) : Lib.Call Err SyncState := fun s => do
  let hash := senv.getIDHash block.toCBlockHeader
  Lib.require (!(block.isProofOfStake && decide (block.getProofOfStake ∈ s.setStakeSeenOrphan)
      && !s.allowsDuplicate hash))
    (Err.fail "ProcessBlock() : duplicate proof-of-stake for orphan block", s)
  return { s with
    setStakeSeenOrphan := if block.isProofOfStake then insert block.getProofOfStake s.setStakeSeenOrphan
      else s.setStakeSeenOrphan
    mapOrphanBlocks := s.mapOrphanBlocks.insertIfNew hash block
    mapOrphanBlocksByPrev := s.mapOrphanBlocksByPrev ++ [(block.hashPrevBlock, block)] }

/-- The orphan leaves `mapOrphanBlocks` and `setStakeSeenOrphan`. -/
def takeOut (senv : SyncEnv) (block : CBlock) (s : SyncState) : SyncState :=
  { s with
    mapOrphanBlocks := s.mapOrphanBlocks.erase (senv.getIDHash block.toCBlockHeader)
    setStakeSeenOrphan := s.setStakeSeenOrphan.erase block.getProofOfStake }

/-- One orphan is tried, with `vWorkQueue` in the second component. -/
def tryOrphan (senv : SyncEnv) (disk : CBlock → Disk) (r : SyncState × List Uint256)
    (block : CBlock) : Except (Err × SyncState) (SyncState × List Uint256) :=
  match block.acceptBlock senv (disk block) r.1 with
  | .ok s => .ok (takeOut senv block s, r.2 ++ [senv.getIDHash block.toCBlockHeader])
  | .error (e, s) => if e.isFalse then .ok (takeOut senv block s, r.2) else .error (e, s)

/-- One round of the loop over `vWorkQueue`, with what it pushes. -/
def visitPrev (senv : SyncEnv) (disk : CBlock → Disk) (r : SyncState × List Uint256)
    (hashPrev : Uint256) : Except (Err × SyncState) ((SyncState × List Uint256) × List Uint256) := do
  let r' ← (r.1.orphansUnder hashPrev).foldlM (tryOrphan senv disk) r
  let s := { r'.1 with
    mapOrphanBlocksByPrev := r'.1.mapOrphanBlocksByPrev.filter fun x => x.1 != hashPrev }
  return ((s, r'.2), r'.2.drop r.2.length)

/-- `Recursively process any orphan blocks that depended on this one`. -/
def resolveOrphans (senv : SyncEnv) (disk : CBlock → Disk) (s : SyncState) (hash : Uint256) :
    Except (Err × SyncState) (SyncState × List Uint256) :=
  Lib.drain (visitPrev senv disk) (s.mapOrphanBlocksByPrev.length + 1) [hash] (s, [hash])

/-! ## ProcessBlock -/

/-- `verify hash target and signature of coinstake tx` -/
def checkStake (senv : SyncEnv) (block : CBlock) : Lib.Call Err SyncState := fun s =>
  let hash := senv.getIDHash block.toCBlockHeader
  match block.vtx with
  | _ :: tx :: _ =>
      if tx.isCoinStake then
        match senv.checkProofOfStake s.node tx block.nBits with
        | none => .error (.fail "", s)
        | some hashProofOfStake =>
            if (s.mapProofOfStake hash).isSome then .ok s
            else .ok { s with mapProofOfStake := s.mapProofOfStake.set hash hashProofOfStake }
      else .ok s
  | _ => .ok s

/-- The checks of `ProcessBlock` before it looks for the block's parent. -/
def checkReceived (senv : SyncEnv) (block : CBlock) : Lib.Call Err SyncState := fun s => do
  let hash := senv.getIDHash block.toCBlockHeader
  Lib.require (s.node.mapBlockIndex hash).isNone
    (Err.fail "ProcessBlock() : already have block", s)
  Lib.require (!s.mapOrphanBlocks.contains hash)
    (Err.fail "ProcessBlock() : already have block (orphan)", s)
  Lib.require (!(block.isProofOfStake && decide (block.getProofOfStake ∈ s.setStakeSeen)
      && !s.allowsDuplicate hash))
    (Err.fail "ProcessBlock() : duplicate proof-of-stake", s)
  (block.checkBlock senv.toEnv s.node.nAdjustedTime false).mapError fun e =>
    (e.logged "ProcessBlock() : CheckBlock FAILED", s)
  let s ← checkStake senv block s
  (block.checkBlock senv.toEnv s.node.nAdjustedTime true).mapError fun e =>
    (e.logged "ProcessBlock() : CheckBlock FAILED", s)
  return s

/-- `ProcessBlock`; what the disk does may differ from block to block. -/
def processBlock (senv : SyncEnv) (disk : CBlock → Disk) (block : CBlock) :
    Lib.Call Err SyncState := fun s => do
  let s ← checkReceived senv block s
  if (s.node.mapBlockIndex block.hashPrevBlock).isNone then shuntOff senv block s
  else do
    let s ← (block.acceptBlock senv (disk block) s).mapError fun e =>
      (e.1.logged "ProcessBlock() : AcceptBlock FAILED", e.2)
    let r ← resolveOrphans senv disk s (senv.getIDHash block.toCBlockHeader)
    return r.1

/-- What `vWorkQueue` holds when the call is done: the blocks it accepts, its own and the orphans
that follow it. -/
def workQueue (senv : SyncEnv) (disk : CBlock → Disk) (block : CBlock) (s : SyncState) :
    List Uint256 :=
  match checkReceived senv block s with
  | .error _ => []
  | .ok s =>
      if (s.node.mapBlockIndex block.hashPrevBlock).isNone then []
      else
        match block.acceptBlock senv (disk block) s with
        | .error _ => []
        | .ok s =>
            match resolveOrphans senv disk s (senv.getIDHash block.toCBlockHeader) with
            | .error _ => []
            | .ok r => r.2

end SyncState

/-! ## Runs -/

/-- What changes a node's view of the network's blocks. The other parts of a node may change the
memory pool, the wallets and the clock meanwhile. -/
inductive SyncOp where
  | block (disk : CBlock → Disk) (block : CBlock)
  | checkpoint (disk : Disk) (hashCheckpoint : Uint256)
  | pending (disk : Disk)
  | other (mempool : CTxMemPool) (wallets : List CWallet) (nAdjustedTime : ℤ)

namespace SyncState

def call (senv : SyncEnv) : SyncOp → Lib.Call Err SyncState
  | .block disk block => processBlock senv disk block
  | .checkpoint disk hashCheckpoint => processSyncCheckpoint senv disk hashCheckpoint
  | .pending disk => acceptPendingSyncCheckpoint senv disk
  | .other mempool wallets nAdjustedTime => fun s =>
      .ok { s with node := { s.node with
        mempool := mempool, wallets := wallets, nAdjustedTime := nAdjustedTime } }

/-- The state after a call that returns, `true` or `false`; none after one that throws. -/
def exec (senv : SyncEnv) (s : SyncState) (op : SyncOp) : Option SyncState :=
  match call senv op s with
  | .ok s' => some s'
  | .error (e, s') => if e.isFalse then some s' else none

theorem exec_eq_some {senv : SyncEnv} {s s' : SyncState} {op : SyncOp} :
    exec senv s op = some s' ↔
      call senv op s = .ok s' ∨ ∃ e, e.isFalse = true ∧ call senv op s = .error (e, s') := by
  unfold exec
  cases call senv op s with
  | ok s₁ => simp
  | error x =>
      obtain ⟨e, s₁⟩ := x
      cases he : e.isFalse <;> grind

/-- The state after a run all of whose calls return. -/
def run (senv : SyncEnv) (ops : List SyncOp) (s : SyncState) : Option SyncState :=
  ops.foldlM (exec senv) s

end SyncState

end ShinyCoin

import ShinyCoin.Miner.Template
import ShinyCoin.Chain.BestChain
import Mathlib.Data.Finset.Basic

/-!
# Synchronized checkpoints

A signed message names a block that the node has to stay on. A checkpoint whose block is not known
yet is kept as pending; one that is older than the current checkpoint, or on another branch, is
ignored. Otherwise the node switches to the block, even when its branch has less trust, and from
then on `Reorganize` refuses to leave it and `CheckSync` to index blocks beside it.

The state here is what `main.cpp` and `checkpoints.cpp` keep about blocks that came over the
network, with the node's own state as a part of it. The texts of a message and its relaying are left
out, and so is the record of the checkpoint in the database, which is read at startup only.
-/

namespace ShinyCoin

/-- `GetProofOfStake()`: what was staked, and when. -/
abbrev Stake := COutPoint × Nat

def CBlock.getProofOfStake (block : CBlock) : Stake :=
  match block.vtx with
  | _ :: tx :: _ =>
      if tx.isCoinStake then ((tx.vin.head?.map CTxIn.prevout).getD COutPoint.null, tx.nTime)
      else (COutPoint.null, 0)
  | _ => (COutPoint.null, 0)

/-- What blocks from the network are checked with, besides `Env`. -/
structure SyncEnv extends Env where
  getNextTargetRequired : BlockPtr → Bool → Nat
  /-- `CheckProofOfStake(tx, nBits, hashProofOfStake)`, with the hash it returns -/
  checkProofOfStake : NodeState → CTransaction → Nat → Option Uint256
  /-- `Checkpoints::mapCheckpoints` -/
  mapCheckpoints : ℤ → Option Uint256
  getStakeEntropyBit : CBlock → Nat
  computeNextStakeModifier : BlockPtr → Option (Nat × Bool)
  checkStakeModifierCheckpoints : BlockPtr → Bool

/-- What the disk does during one call: what can be read, whether there is space, where a block is
written and whether a checkpoint can be written. -/
structure Disk where
  files : Files
  fDiskSpace : Bool := true
  /-- `WriteToDisk(nFile, nBlockPos)` -/
  writeToDisk : Option (Nat × Nat)
  /-- `WriteSyncCheckpoint(hash)` and the commit after it -/
  fWriteSync : Bool := true

structure SyncState where
  node : NodeState
  mapOrphanBlocks : Std.ExtTreeMap Uint256 CBlock compare := ∅
  /-- A multimap: under one key the entries are in the order of their insertion. -/
  mapOrphanBlocksByPrev : List (Uint256 × CBlock) := []
  setStakeSeen : Finset Stake := ∅
  setStakeSeenOrphan : Finset Stake := ∅
  mapProofOfStake : Lib.PMap Uint256 Uint256 := Lib.PMap.empty
  hashPendingCheckpoint : Uint256 := 0
  hashInvalidCheckpoint : Uint256 := 0

/-- `IsInMainChain()` -/
def NodeState.isInMainChain (s : NodeState) (ptr : BlockPtr) : Bool :=
  (s.pnext (BlockPtr.hash ptr)).isSome || ptr == s.pindexBest

namespace SyncEnv

def checkHardened (senv : SyncEnv) (nHeight : ℤ) (hash : Uint256) : Bool :=
  senv.fTestNet || (senv.mapCheckpoints nHeight).all (· == hash)

/-- `CheckSync`: only blocks that descend from the sync checkpoint, or lead to it, are let in. -/
def checkSync (senv : SyncEnv) (s : NodeState) (hashBlock : Uint256) (pindexPrev : CBlockIndex)
    (pprev : BlockPtr) : Except Err Bool :=
  if senv.fTestNet then .ok true
  else
    match s.mapBlockIndex s.hashSyncCheckpoint with
    | none => .error (.exc "assert(mapBlockIndex.count(hashSyncCheckpoint))")
    | some [] => .error (.exc "pindexSync is NULL")
    | some (pindexSync :: _) =>
        let nHeight := pindexPrev.nHeight + 1
        if pindexSync.nHeight < nHeight then
          -- trace back to the height of the sync checkpoint
          match lowerTo pindexSync.nHeight (pindexPrev :: pprev) with
          | [] => .ok false
          | pindex :: _ => .ok (!(decide (pindex.nHeight < pindexSync.nHeight)
              || pindex.hashBlock != s.hashSyncCheckpoint))
        else if nHeight = pindexSync.nHeight then .ok (hashBlock == s.hashSyncCheckpoint)
        else .ok (s.mapBlockIndex hashBlock).isSome

end SyncEnv

namespace SyncState

/-- `ValidateSyncCheckpoint`: it succeeds for a descendant of the current checkpoint. -/
def validateSyncCheckpoint (hashCheckpoint : Uint256) : Lib.Call Err SyncState := fun s =>
  match s.node.mapBlockIndex s.node.hashSyncCheckpoint, s.node.mapBlockIndex hashCheckpoint with
  | none, _ =>
      .error (.fail "ValidateSyncCheckpoint: block index missing for current sync-checkpoint", s)
  | some _, none =>
      .error (.fail "ValidateSyncCheckpoint: block index missing for received sync-checkpoint", s)
  | some ptrSync, some ptrRecv =>
      match ptrSync, ptrRecv with
      | pindexSync :: _, pindexRecv :: _ =>
          if pindexRecv.nHeight ≤ pindexSync.nHeight then
            -- an older checkpoint: it is ignored, and noted when the current one conflicts with it
            match lowerTo pindexRecv.nHeight ptrSync with
            | [] => .error
                (.fail "ValidateSyncCheckpoint: pprev1 null - block index structure failure", s)
            | pindex :: _ =>
                if pindex.hashBlock = hashCheckpoint then .error (.fail "", s)
                else .error
                  (.fail ("ValidateSyncCheckpoint: new sync-checkpoint is conflicting with " ++
                    "current sync-checkpoint"), { s with hashInvalidCheckpoint := hashCheckpoint })
          else
            match lowerTo pindexSync.nHeight ptrRecv with
            | [] => .error
                (.fail "ValidateSyncCheckpoint: pprev2 null - block index structure failure", s)
            | pindex :: _ =>
                if pindex.hashBlock = s.node.hashSyncCheckpoint then .ok s
                else .error
                  (.fail ("ValidateSyncCheckpoint: new sync-checkpoint is not a descendant of " ++
                    "current sync-checkpoint"), { s with hashInvalidCheckpoint := hashCheckpoint })
      | _, _ => .error (.exc "a block index entry is NULL", s)

/-- `checkpoint chain received but not yet main chain`: the node switches to it. -/
def switchToCheckpoint (senv : SyncEnv) (disk : Disk) (caller : String) (hashCheckpoint : Uint256)
    (ptr : BlockPtr) : Lib.Call Err SyncState := fun s =>
  if s.node.isInMainChain ptr then .ok s
  else
    match disk.files.readBlock senv.toEnv ptr, ptr with
    | none, _ => .error (.fail (caller ++ ": ReadFromDisk failed for sync checkpoint"), s)
    | some _, [] => .error (.exc "pindexCheckpoint is NULL", s)
    | some block, pindexCheckpoint :: pprev =>
        match block.setBestChain senv.toEnv disk.files pindexCheckpoint pprev s.node with
        | .ok node => .ok { s with node := node }
        | .error (e, node) =>
            if e.isFalse then
              .error (.fail (caller ++ ": SetBestChain failed for sync checkpoint"),
                { s with node := node, hashInvalidCheckpoint := hashCheckpoint })
            else .error (e, { s with node := node })

/-- `WriteSyncCheckpoint` -/
def writeSyncCheckpoint (disk : Disk) (caller : String) (hashCheckpoint : Uint256) :
    Lib.Call Err SyncState := fun s =>
  if disk.fWriteSync then
    .ok { s with node := { s.node with hashSyncCheckpoint := hashCheckpoint } }
  else .error (.fail (caller ++ "(): failed to write sync checkpoint"), s)

/-- What is done for a checkpoint that has been validated. -/
def enterCheckpoint (senv : SyncEnv) (disk : Disk) (caller : String) (hashCheckpoint : Uint256)
    (ptr : BlockPtr) : Lib.Call Err SyncState := fun s => do
  let s ← switchToCheckpoint senv disk caller hashCheckpoint ptr s
  let s ← writeSyncCheckpoint disk caller hashCheckpoint s
  return { s with hashPendingCheckpoint := 0 }

def acceptPendingSyncCheckpoint (senv : SyncEnv) (disk : Disk) : Lib.Call Err SyncState := fun s =>
  if s.hashPendingCheckpoint = 0 then .error (.fail "", s)
  else
    match s.node.mapBlockIndex s.hashPendingCheckpoint with
    | none => .error (.fail "", s)
    | some ptr =>
        match validateSyncCheckpoint s.hashPendingCheckpoint s with
        | .error (e, s) => .error (e, { s with hashPendingCheckpoint := 0 })
        | .ok s => enterCheckpoint senv disk "AcceptPendingSyncCheckpoint" s.hashPendingCheckpoint ptr s

/-- `ProcessSyncCheckpoint`, for a message whose signature is right. -/
def processSyncCheckpoint (senv : SyncEnv) (disk : Disk) (hashCheckpoint : Uint256) :
    Lib.Call Err SyncState := fun s =>
  match s.node.mapBlockIndex hashCheckpoint with
  | none => .error (.fail "", { s with hashPendingCheckpoint := hashCheckpoint })
  | some ptr => do
      let s ← validateSyncCheckpoint hashCheckpoint s
      enterCheckpoint senv disk "ProcessSyncCheckpoint" hashCheckpoint ptr s

/-! ## What a pending checkpoint waits for -/

/-- `WantedByOrphan`: back to the first block of the orphan chain. No chain has more blocks than
there are orphans. -/
def wantedByOrphan (s : SyncState) : Nat → CBlock → Uint256
  | 0, block => block.hashPrevBlock
  | n + 1, block =>
      match s.mapOrphanBlocks[block.hashPrevBlock]? with
      | none => block.hashPrevBlock
      | some prev => wantedByOrphan s n prev

def wantedByPendingSyncCheckpoint (s : SyncState) (hashBlock : Uint256) : Bool :=
  if s.hashPendingCheckpoint = 0 then false
  else hashBlock == s.hashPendingCheckpoint
    || match s.mapOrphanBlocks[s.hashPendingCheckpoint]? with
      | none => false
      | some block => hashBlock == s.wantedByOrphan s.mapOrphanBlocks.size block

end SyncState

end ShinyCoin

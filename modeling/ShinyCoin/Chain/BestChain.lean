import ShinyCoin.Chain.Block

/-!
# Choosing the best chain

`SetBestChain` makes a block the tip. A block on top of the tip is connected; for any other one
`Reorganize` takes the main chain back to the fork and connects the new branch, in one database
transaction. Of a branch that would already win with fewer blocks the later ones are postponed:
they are connected one by one afterwards, each in a transaction of its own, and the first that
fails ends the loop.

One info transaction, a `CTxInfoView`, spans the whole call.
-/

namespace ShinyCoin

/-- A caller's log line in place of the callee's; an exception goes through. -/
def Err.logged (msg : String) : Err → Err
  | .exc what => .exc what
  | _ => .fail msg

/-- The call returned `false`, where it might have thrown. -/
def Err.isFalse : Err → Bool
  | .exc _ => false
  | _ => true

/-! ## The fork -/

/-- `while (plonger->nHeight > pfork->nHeight) plonger = plonger->pprev`; `NULL` at the end. -/
def lowerTo (nHeight : ℤ) : BlockPtr → BlockPtr
  | [] => []
  | p :: pprev => if nHeight < p.nHeight then lowerTo nHeight pprev else p :: pprev

/-- `Find the fork`, from `pindexBest` and `pindexNew`. -/
def findFork : BlockPtr → BlockPtr → Except Err BlockPtr
  | [], _ => .error (.fail "Reorganize() : pfork->pprev is null")
  | f :: fprev, plonger =>
      if f :: fprev = plonger then .ok (f :: fprev)
      else match lowerTo f.nHeight plonger with
        | [] => .error (.fail "Reorganize() : plonger->pprev is null")
        | l :: lprev => if f :: fprev = l :: lprev then .ok (f :: fprev) else findFork fprev (l :: lprev)

/-- The blocks from a pointer back to `pfork`, without it. -/
def backTo (pfork : BlockPtr) : BlockPtr → List BlockPtr
  | [] => []
  | p :: pprev => if p :: pprev = pfork then [] else (p :: pprev) :: backTo pfork pprev

/-! ## Reorganize -/

/-- The state of the two loops of `Reorganize`: the node, and the transactions queued for the
memory pool. -/
abbrev ReorgState := NodeState × List CTransaction

/-- One round of `Disconnect shorter branch`. -/
def reorgDisconnect (env : Env) (files : Files) (st : ReorgState) (ptr : BlockPtr) :
    Except (Err × NodeState) ReorgState :=
  match files.readBlock env ptr with
  | none => .error (.fail "Reorganize() : ReadFromDisk for disconnect failed", st.1)
  | some block =>
      match block.disconnectBlock env files ptr.tail st.1 with
      | .error (e, s) => .error (e.logged "Reorganize() : DisconnectBlock failed", s)
      | .ok s => .ok (s, st.2 ++ block.vtx.filter fun tx => !(tx.isCoinBase || tx.isCoinStake))

/-- `ConnectBlock` through a pointer. -/
def CBlock.connectBlockPtr (env : Env) (files : Files) (block : CBlock) (ptr : BlockPtr)
    (s : NodeState) : Except (Err × NodeState) NodeState :=
  match ptr with
  | [] => .error (.exc "pindex is NULL", s)
  | pindex :: pprev => block.connectBlock env files pindex pprev s

/-- `TxnAbort()` after a call that returned `false`. -/
def NodeState.abortAfter (s : NodeState) (e : Err) : NodeState :=
  if e.isFalse then { s with txdb := s.txdb.txnAbort } else s

/-- One round of `Connect longer branch`. -/
def reorgConnect (env : Env) (files : Files) (st : ReorgState) (ptr : BlockPtr) :
    Except (Err × NodeState) ReorgState :=
  match files.readBlock env ptr with
  | none => .error (.fail "Reorganize() : ReadFromDisk for connect failed", st.1)
  | some block =>
      match block.connectBlockPtr env files ptr st.1 with
      | .error (e, s) => .error (e.logged "Reorganize() : ConnectBlock failed", s.abortAfter e)
      | .ok s => .ok (s, st.2 ++ block.vtx)

/-- `pindex->pprev->pnext = NULL` for a block that was disconnected. -/
def unlink (pnext : Lib.PMap Uint256 BlockPtr) (ptr : BlockPtr) : Lib.PMap Uint256 BlockPtr :=
  match ptr.tail with
  | [] => pnext
  | prev :: _ => pnext.erase prev.hashBlock

/-- `pindex->pprev->pnext = pindex` for a block that was connected. -/
def link (pnext : Lib.PMap Uint256 BlockPtr) (ptr : BlockPtr) : Lib.PMap Uint256 BlockPtr :=
  match ptr.tail with
  | [] => pnext
  | prev :: _ => pnext.set prev.hashBlock ptr

/-- `WriteHashBestChain` -/
def NodeState.writeHashBestChain (s : NodeState) (hash : Uint256) : NodeState :=
  s.updateDb fun d => { d with hashBestChain := hash }

/-- `vDisconnect` -/
def disconnectList (pfork : BlockPtr) (s : NodeState) : List BlockPtr := backTo pfork s.pindexBest

/-- `vConnect` -/
def connectList (pfork pindexNew : BlockPtr) : List BlockPtr := (backTo pfork pindexNew).reverse

/-- What `Reorganize` changes in memory once the database has the new branch. -/
def reorgMemory (env : Env) (vDisconnect vConnect : List BlockPtr)
    (vResurrect vDelete : List CTransaction) (s : NodeState) : NodeState :=
  { s with
    pnext := vConnect.foldl link (vDisconnect.foldl unlink s.pnext)
    mempool := vDelete.foldl (CTxMemPool.remove env)
      (vResurrect.foldl (CTxMemPool.accept env) s.mempool) }

def reorganize (env : Env) (files : Files) (pindexNew : BlockPtr) (s : NodeState) :
    Except (Err × NodeState) NodeState := do
  let pfork ← (findFork s.pindexBest pindexNew).mapError (·, s)
  Lib.require ((disconnectList pfork s).all fun ptr => BlockPtr.hash ptr != s.hashSyncCheckpoint)
    (Err.fail "Reorganize() : Cannot disconnect sync checkpoint", s)
  let st₁ ← (disconnectList pfork s).foldlM (reorgDisconnect env files) (s, [])
  let st₂ ← (connectList pfork pindexNew).foldlM (reorgConnect env files) (st₁.1, [])
  let s' := st₂.1.writeHashBestChain (BlockPtr.hash pindexNew)
  match s'.txdb.txnCommit with
  | none => .error (.fail "Reorganize() : TxnCommit failed", s')
  | some txdb => .ok (reorgMemory env (disconnectList pfork s) (connectList pfork pindexNew) st₁.2 st₂.2
      { s' with txdb := txdb })

/-! ## SetBestChain -/

def invalidChainFound (pindexNew : CBlockIndex) (s : NodeState) : NodeState :=
  if s.bnBestInvalidTrust < pindexNew.bnChainTrust then
    ({ s with bnBestInvalidTrust := pindexNew.bnChainTrust } : NodeState).updateDb fun d =>
      { d with bnBestInvalidTrust := pindexNew.bnChainTrust }
  else s

/-- `TxnAbort(); InvalidChainFound(pindexNew)` after a call that returned `false`. -/
def NodeState.rejectAfter (s : NodeState) (e : Err) (pindexNew : CBlockIndex) : NodeState :=
  if e.isFalse then invalidChainFound pindexNew { s with txdb := s.txdb.txnAbort } else s

/-- What `SetBestChainInner` does once its block is connected. -/
def CBlock.attach (env : Env) (block : CBlock) (pindexNew : CBlockIndex) (pprev : BlockPtr)
    (s : NodeState) : Except (Err × NodeState) NodeState :=
  let s := s.writeHashBestChain (env.getIDHash block.toCBlockHeader)
  match s.txdb.txnCommit with
  | none => .error (.fail "SetBestChain() : TxnCommit failed", s)
  | some txdb =>
      match pprev with
      | [] => .error (.exc "pindexNew->pprev is NULL", { s with txdb := txdb })
      | _ :: _ => .ok { s with
          txdb := txdb
          pnext := link s.pnext (pindexNew :: pprev)
          mempool := block.vtx.foldl (CTxMemPool.remove env) s.mempool }

def CBlock.setBestChainInner (env : Env) (files : Files) (block : CBlock) (pindexNew : CBlockIndex)
    (pprev : BlockPtr) (s : NodeState) : Except (Err × NodeState) NodeState :=
  match block.connectBlock env files pindexNew pprev s with
  | .error (e, s) => .error (e.logged "", s.rejectAfter e pindexNew)
  | .ok s => block.attach env pindexNew pprev s

/-- `vpindexSecondary`, the last block of the branch first, and `pindexIntermediate`. -/
def postpone (bnBestTrust : ℤ) : BlockPtr → List BlockPtr × BlockPtr
  | p :: prev :: pprev =>
      if bnBestTrust < prev.bnChainTrust then
        ((p :: prev :: pprev) :: (postpone bnBestTrust (prev :: pprev)).1,
          (postpone bnBestTrust (prev :: pprev)).2)
      else ([], p :: prev :: pprev)
  | ptr => ([], ptr)

/-- One round of `Connect futher blocks`; it fails where the loop breaks. -/
def connectPostponed (env : Env) (files : Files) (s : NodeState) (ptr : BlockPtr) :
    Except (Err × NodeState) NodeState :=
  match files.readBlock env ptr with
  | none => .error (.fail "SetBestChain() : ReadFromDisk failed", s)
  | some block =>
      match ptr with
      | [] => .error (.exc "pindex is NULL", s)
      | pindex :: pprev =>
          block.setBestChainInner env files pindex pprev { s with txdb := s.txdb.txnBegin }

/-- `Connect futher blocks`. Errors are not fatal here: the loop ends with what it has. -/
def connectSecondary (env : Env) (files : Files) (vpindexSecondary : List BlockPtr)
    (s : NodeState) : Except (Err × NodeState) NodeState :=
  match vpindexSecondary.foldlM (connectPostponed env files) s with
  | .ok s => .ok s
  | .error (e, s) => if e.isFalse then .ok s else .error (e, s)

/-- `Switch to new best branch`. -/
def switchBranch (env : Env) (files : Files) (pindexNew : CBlockIndex) (pprev : BlockPtr)
    (s : NodeState) : Except (Err × NodeState) NodeState :=
  match s.pindexBest with
  | [] => .error (.exc "pindexBest is NULL", s)
  | best :: _ =>
      let split := postpone best.bnChainTrust (pindexNew :: pprev)
      match reorganize env files split.2 s with
      | .error (e, s) =>
          .error (e.logged "SetBestChain() : Reorganize failed", s.rejectAfter e pindexNew)
      | .ok s => connectSecondary env files split.1.reverse s

/-- The genesis block becomes the best chain without being connected. -/
def setGenesis (hash : Uint256) (pindexNew : BlockPtr) (s : NodeState) :
    Except (Err × NodeState) NodeState :=
  let s := s.writeHashBestChain hash
  match s.txdb.txnCommit with
  | none => .error (.fail "SetBestChain() : TxnCommit failed", s)
  | some txdb => .ok { s with txdb := txdb, pindexGenesisBlock := pindexNew }

/-- The three cases of `SetBestChain`. -/
def CBlock.switchTo (env : Env) (files : Files) (block : CBlock) (pindexNew : CBlockIndex)
    (pprev : BlockPtr) (s : NodeState) : Except (Err × NodeState) NodeState :=
  let hash := env.getIDHash block.toCBlockHeader
  if s.pindexGenesisBlock = [] ∧ hash = env.hashGenesisBlock then
    setGenesis hash (pindexNew :: pprev) s
  else if block.hashPrevBlock = s.hashBestChain then
    (block.setBestChainInner env files pindexNew pprev s).mapError fun e =>
      (e.1.logged "SetBestChain() : SetBestChainInner failed", e.2)
  else switchBranch env files pindexNew pprev s

/-- `txInfoView.Commit()` and `New best block`. -/
def CBlock.newBest (env : Env) (block : CBlock) (pindexNew : CBlockIndex) (pprev : BlockPtr)
    (s : NodeState) : Except (Err × NodeState) NodeState :=
  match s.infos.commit with
  | .error (e, _) => .error (e, s)
  | .ok infos => .ok { s with
      infos := infos
      hashBestChain := env.getIDHash block.toCBlockHeader
      pindexBest := pindexNew :: pprev
      nBestHeight := pindexNew.nHeight
      bnBestChainTrust := pindexNew.bnChainTrust }

/-- What the destructors do when `SetBestChain` is left without success: the view rolls the infos
back, and the caller's handle is closed. -/
def NodeState.unwind (s : NodeState) : NodeState :=
  { s with infos := Lib.final s.infos.rollback, txdb := s.txdb.close }

def CBlock.setBestChain (env : Env) (files : Files) (block : CBlock) (pindexNew : CBlockIndex)
    (pprev : BlockPtr) (s : NodeState) : Except (Err × NodeState) NodeState :=
  match s.infos.beginTransaction with
  | .error (e, _) => .error (e, s)
  | .ok infos =>
      match (block.switchTo env files pindexNew pprev
          { s with txdb := s.txdb.txnBegin, infos := infos }).bind
          (block.newBest env pindexNew pprev) with
      | .error (e, s) => .error (e, s.unwind)
      | .ok s => .ok s

/-! ## AddToBlockIndex -/

/-- `CBigNum::SetCompact` -/
def setCompact (nCompact : Nat) : ℤ :=
  let nSize := nCompact / 2 ^ 24 % 2 ^ 8
  let nWord := nCompact % 2 ^ 23
  let n : Nat := if nSize ≤ 3 then nWord / 256 ^ (3 - nSize) else nWord * 256 ^ (nSize - 3)
  if nCompact.testBit 23 && decide (1 ≤ nSize) then -n else n

def BLOCK_PROOF_OF_STAKE : Nat := 1
def BLOCK_STAKE_ENTROPY : Nat := 2
def BLOCK_STAKE_MODIFIER : Nat := 4

/-- `GetBlockTrust()` -/
def getBlockTrust (nBits : Nat) (isProofOfStake : Bool) : ℤ :=
  let bnTarget := setCompact nBits
  if bnTarget ≤ 0 then 0 else if isProofOfStake then 2 ^ 256 / (bnTarget + 1) else 1

/-- What the stake kernel says about a block that is to be indexed. -/
structure StakeKernel where
  /-- `GetStakeEntropyBit()` -/
  nEntropyBit : Nat
  /-- `mapProofOfStake` -/
  hashProofOfStake : Option Uint256
  /-- `ComputeNextStakeModifier`: the modifier, and whether it was generated -/
  nextStakeModifier : BlockPtr → Option (Nat × Bool)
  checkStakeModifierCheckpoints : BlockPtr → Bool

/-- `CBlockIndex(nFile, nBlockPos, block)` with its place in the tree. -/
def CBlock.newIndex (env : Env) (block : CBlock) (nFile nBlockPos : Nat) (pprev : BlockPtr) :
    CBlockIndex where
  hashBlock := env.getIDHash block.toCBlockHeader
  nFile := nFile
  nBlockPos := nBlockPos
  bnChainTrust := (pprev.head?.map CBlockIndex.bnChainTrust).getD 0
    + getBlockTrust block.nBits block.isProofOfStake
  nHeight := (pprev.head?.map fun prev => prev.nHeight + 1).getD 0
  nPoWHeight := (pprev.head?.map fun prev =>
    prev.nPoWHeight + if block.isProofOfWork then 1 else 0).getD 0
  nFlags := if block.isProofOfStake then BLOCK_PROOF_OF_STAKE else 0
  prevoutStake := match block.vtx with
    | _ :: tx :: _ => if tx.isCoinStake then (tx.vin.head?.map CTxIn.prevout).getD COutPoint.null
        else COutPoint.null
    | _ => COutPoint.null
  nStakeTime := match block.vtx with
    | _ :: tx :: _ => if tx.isCoinStake then tx.nTime else 0
    | _ => 0
  nVersion := block.nVersion
  hashMerkleRoot := block.hashMerkleRoot
  nTime := block.nTime
  nBits := block.nBits
  nNonce := block.nNonce

/-- `SetStakeModifier`, with the modifier the kernel computes. -/
def StakeKernel.setStakeModifier (kernel : StakeKernel) (pindexNew : CBlockIndex)
    (pprev : BlockPtr) : Except Err CBlockIndex :=
  match kernel.nextStakeModifier (pindexNew :: pprev) with
  | none => .error (.fail "AddToBlockIndex() : ComputeNextStakeModifier() failed")
  | some (nStakeModifier, fGeneratedStakeModifier) => do
      let pindexNew := { pindexNew with
        nStakeModifier := nStakeModifier
        nFlags := pindexNew.nFlags ||| (if fGeneratedStakeModifier then BLOCK_STAKE_MODIFIER else 0) }
      Lib.require (kernel.checkStakeModifierCheckpoints (pindexNew :: pprev))
        (Err.fail "AddToBlockIndex() : Rejected by stake modifier checkpoint")
      return pindexNew

/-- The stake fields of a new index entry. -/
def StakeKernel.fill (kernel : StakeKernel) (block : CBlock) (pindexNew : CBlockIndex)
    (pprev : BlockPtr) : Except Err CBlockIndex := do
  Lib.require (kernel.nEntropyBit ≤ 1)
    (Err.fail "AddToBlockIndex() : SetStakeEntropyBit() failed")
  Lib.require (!block.isProofOfStake || kernel.hashProofOfStake.isSome)
    (Err.fail "AddToBlockIndex() : hashProofOfStake not found in map")
  kernel.setStakeModifier { pindexNew with
    nFlags := pindexNew.nFlags ||| (if kernel.nEntropyBit = 0 then 0 else BLOCK_STAKE_ENTROPY)
    hashProofOfStake := if block.isProofOfStake then kernel.hashProofOfStake.getD 0 else 0 } pprev

/-- `Add to mapBlockIndex` and `Write to disk block index`. -/
def NodeState.insertIndex (s : NodeState) (pindexNew : CBlockIndex) (pprev : BlockPtr) : NodeState :=
  ({ s with mapBlockIndex := s.mapBlockIndex.set pindexNew.hashBlock (pindexNew :: pprev) } :
    NodeState).updateDb fun d =>
      { d with blockIndex := d.blockIndex.set pindexNew.hashBlock (s.diskBlockIndex pindexNew pprev) }

def CBlock.addToBlockIndex (env : Env) (files : Files) (kernel : StakeKernel) (block : CBlock)
    (nFile nBlockPos : Nat) (s : NodeState) : Except (Err × NodeState) NodeState := do
  Lib.require (s.mapBlockIndex (env.getIDHash block.toCBlockHeader)).isNone
    (Err.fail "AddToBlockIndex() : already exists", s)
  let pprev := (s.mapBlockIndex block.hashPrevBlock).getD []
  let pindexNew ← (kernel.fill block (block.newIndex env nFile nBlockPos pprev) pprev).mapError (·, s)
  let s := s.insertIndex pindexNew pprev
  if s.bnBestChainTrust < pindexNew.bnChainTrust then
    block.setBestChain env files pindexNew pprev s
  else .ok s

end ShinyCoin

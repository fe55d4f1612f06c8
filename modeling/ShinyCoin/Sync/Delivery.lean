import ShinyCoin.Sync.Orphans
import ShinyCoin.Chain.Retarget

/-!
# Blocks that arrive in any order

A node that has nothing but the genesis block receives the blocks of a tree, each of them once. A
block whose parent has not come yet waits among the orphans.

What is asked of a block is asked of it on its own branch: on a node that has received its ancestors,
in order, and no other block.
-/

namespace ShinyCoin

/-- `CheckProofOfWork` -/
def checkProofOfWork (fTestNet : Bool) (hash : Uint256) (nBits : Nat) : Bool :=
  let bnTarget := setCompact nBits
  !(decide (bnTarget ≤ 0) || decide (bnNewProofOfWorkLimit fTestNet < bnTarget))
    && decide ((hash : ℤ) ≤ bnTarget)

theorem checkProofOfWork_iff {fTestNet : Bool} {hash : Uint256} {nBits : Nat} :
    checkProofOfWork fTestNet hash nBits = true ↔ 0 < setCompact nBits ∧
      setCompact nBits ≤ bnNewProofOfWorkLimit fTestNet ∧ (hash : ℤ) ≤ setCompact nBits := by
  simp [checkProofOfWork, and_assoc]

/-- The blocks a node receives, with `genesis` as the one it has. Every block is written to a place of
its own, where it can be read back. -/
structure Delivery where
  senv : SyncEnv
  files : Files
  place : CBlock → Nat × Nat
  genesis : CBlockIndex
  start : SyncState
  blocks : List CBlock

namespace Delivery

variable (d : Delivery)

def idHash (block : CBlock) : Uint256 := d.senv.getIDHash block.toCBlockHeader

def disk (block : CBlock) : Disk := { files := d.files, writeToDisk := some (d.place block) }

/-- The node once it has received the blocks in this order; none when a call throws. -/
def deliver (order : List CBlock) : Option SyncState :=
  SyncState.run d.senv (order.map (SyncOp.block d.disk)) d.start

/-- Each block has the one before it as its parent. -/
def Linked : Uint256 → List CBlock → Prop
  | _, [] => True
  | hashPrev, block :: blocks => block.hashPrevBlock = hashPrev ∧ Linked (d.idHash block) blocks

instance decidableLinked : (hashPrev : Uint256) → (blocks : List CBlock) →
    Decidable (d.Linked hashPrev blocks)
  | _, [] => isTrue trivial
  | hashPrev, block :: blocks =>
      have := decidableLinked (d.idHash block) blocks
      inferInstanceAs (Decidable (block.hashPrevBlock = hashPrev ∧ d.Linked (d.idHash block) blocks))

/-- The block passes `CheckBlock`, the checks of `AcceptBlock`, and `ConnectBlock` with the index entry
that `AddToBlockIndex` makes of it. -/
structure Passes (s : SyncState) (block : CBlock) : Prop where
  checkBlock : block.checkBlock d.senv.toEnv s.node.nAdjustedTime true = .ok ()
  connects : ∃ q qs p, s.node.mapBlockIndex block.hashPrevBlock = some (q :: qs) ∧
    block.checkContext d.senv s.node q qs = .ok () ∧
    (block.kernel d.senv s).fill block
      (block.newIndex d.senv.toEnv (d.place block).1 (d.place block).2 (q :: qs)) (q :: qs) = .ok p ∧
    (block.connectBlock d.senv.toEnv d.files p (q :: qs) s.node.inView).isOk = true

theorem passes_iff {s : SyncState} {block : CBlock} : d.Passes s block ↔
    block.checkBlock d.senv.toEnv s.node.nAdjustedTime true = .ok () ∧
      ∃ ptr ∈ s.node.mapBlockIndex block.hashPrevBlock, ∃ q ∈ ptr.head?,
        block.checkContext d.senv s.node q ptr.tail = .ok () ∧
        ∃ p ∈ ((block.kernel d.senv s).fill block
            (block.newIndex d.senv.toEnv (d.place block).1 (d.place block).2 ptr) ptr).toOption,
          (block.connectBlock d.senv.toEnv d.files p ptr s.node.inView).isOk = true := by
  constructor
  · rintro ⟨hcheck, q, qs, p, hprev, hcontext, hfill, hconn⟩
    exact ⟨hcheck, q :: qs, hprev, q, rfl, hcontext, p, by rw [hfill]; rfl, hconn⟩
  · rintro ⟨hcheck, ptr, hprev, q, hq, hcontext, p, hfill, hconn⟩
    obtain ⟨qs, rfl⟩ := List.head?_eq_some_iff.mp hq
    have hok : ∀ {r : Except Err CBlockIndex}, p ∈ r.toOption → r = .ok p := by
      rintro (e | p') h
      · cases h
      · exact congrArg _ (Option.some.inj h)
    exact ⟨hcheck, q, qs, p, hprev, hcontext, hok hfill, hconn⟩

instance (s : SyncState) (block : CBlock) : Decidable (d.Passes s block) :=
  decidable_of_iff _ d.passes_iff.symm

/-- `branch` is what the block's ancestors are, from the genesis block on. The block passes after them,
and repeats none of their transactions. -/
structure OwnBranch (block : CBlock) (branch : List CBlock) : Prop where
  linked : d.Linked d.senv.hashGenesisBlock (branch ++ [block])
  within : ∀ b ∈ branch, b ∈ d.blocks
  passes : ∃ s, d.deliver branch = some s ∧ d.Passes s block
  fresh : ∀ b ∈ branch, ∀ tx ∈ block.vtx, ∀ tx' ∈ b.vtx, d.senv.getHash tx ≠ d.senv.getHash tx'

theorem ownBranch_iff {block : CBlock} {branch : List CBlock} : d.OwnBranch block branch ↔
    d.Linked d.senv.hashGenesisBlock (branch ++ [block]) ∧ (∀ b ∈ branch, b ∈ d.blocks) ∧
      (∃ s ∈ d.deliver branch, d.Passes s block) ∧
      ∀ b ∈ branch, ∀ tx ∈ block.vtx, ∀ tx' ∈ b.vtx, d.senv.getHash tx ≠ d.senv.getHash tx' :=
  ⟨fun h => ⟨h.linked, h.within, h.passes, h.fresh⟩, fun ⟨hl, hw, hp, hf⟩ => ⟨hl, hw, hp, hf⟩⟩

instance (block : CBlock) (branch : List CBlock) : Decidable (d.OwnBranch block branch) :=
  decidable_of_iff _ d.ownBranch_iff.symm

/-- The node has the genesis block, which is its best block and its sync checkpoint. -/
structure AtGenesis : Prop where
  inv : NodeInv d.senv.toEnv d.files d.start.node
  pindexBest : d.start.node.pindexBest = [d.genesis]
  mapBlockIndex : ∀ h ptr, d.start.node.mapBlockIndex h = some ptr → ptr = [d.genesis]
  nBestHeight : d.start.node.nBestHeight = d.genesis.nHeight
  bnBestChainTrust : d.start.node.bnBestChainTrust = d.genesis.bnChainTrust
  txIndex : d.start.node.txdb.data.txIndex = Lib.PMap.empty
  hashSyncCheckpoint : d.start.node.hashSyncCheckpoint = d.senv.hashGenesisBlock
  hashPendingCheckpoint : d.start.hashPendingCheckpoint = 0
  mapOrphanBlocks : d.start.mapOrphanBlocks = ∅
  mapOrphanBlocksByPrev : d.start.mapOrphanBlocksByPrev = []

/-- A transaction of the wallets or of the blocks, under its hash. -/
def Known (h : Uint256) (tx : CTransaction) : Prop :=
  (∃ w ∈ d.start.node.wallets, ∃ wtx, w.mapWallet h = some wtx ∧ wtx.tx = tx) ∨
    ∃ b ∈ d.blocks, tx ∈ b.vtx ∧ d.senv.getHash tx = h

/-- The block is in a file, and its transactions are where `ConnectBlock` expects them. -/
structure Written (block : CBlock) : Prop where
  nFile : (d.place block).1 ≠ UINT_MAX
  onDisk : d.files.block (d.place block).1 (d.place block).2 = some block
  txs : block.Stored d.files (block.newIndex d.senv.toEnv (d.place block).1 (d.place block).2 [])

/-- What is taken for granted: that the environment does what the source does, that hashes do not
collide, and that the blocks are a set as it is described above. -/
structure Sound : Prop where
  checkProofOfWork : ∀ hash nBits,
    d.senv.checkProofOfWork hash nBits = ShinyCoin.checkProofOfWork d.senv.fTestNet hash nBits
  /-- `GetTotalBlocksEstimate()` is 0 on the test network and the last hardened checkpoint elsewhere. -/
  totalBlocksEstimate : if d.senv.fTestNet then d.senv.totalBlocksEstimate = 0
    else IsGreatest {n | (d.senv.mapCheckpoints n).isSome} d.senv.totalBlocksEstimate
  getIDHash : ∀ header, d.senv.getIDHash header ≠ 0
  getHash : ∀ tx, ¬ d.Known 0 tx
  collisionFree : ∀ h tx tx', d.Known h tx → d.Known h tx' → tx = tx'
  start : d.AtGenesis
  distinct : (d.blocks.map d.idHash).Nodup
  notGenesis : ∀ b ∈ d.blocks, d.idHash b ≠ d.senv.hashGenesisBlock
  proofOfWork : ∀ b ∈ d.blocks, b.isProofOfWork = true
  infoFree : ∀ b ∈ d.blocks, ∀ tx ∈ b.vtx, tx.NoInfos
  written : ∀ b ∈ d.blocks, d.Written b
  own : ∀ b ∈ d.blocks, ∃ branch, d.OwnBranch b branch

end Delivery

end ShinyCoin

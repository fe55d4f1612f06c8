import ShinyCoin.Reload.Recorded
import ShinyCoin.Reload.Loops
import ShinyCoin.Sync.Checkpoint

/-!
# Restarting a node

In a run of `AddToBlockIndex` and `SetBestChain` the records follow the block index, so that
`LoadBlockIndex` builds the same index again from whatever order the cursor has.
-/

namespace ShinyCoin

/-! ## Entries -/

/-- What an entry takes from its block, and its record gives back. -/
structure EntryOf (env : Env) (p : CBlockIndex) (pprev : BlockPtr) : Prop where
  getIDHash : env.getIDHash
    { nVersion := p.nVersion
      hashPrevBlock := BlockPtr.hash pprev
      hashMerkleRoot := p.hashMerkleRoot
      nTime := p.nTime
      nBits := p.nBits
      nNonce := p.nNonce } = p.hashBlock
  sumsTrust : BlockPtr.sumsTrust (p :: pprev)
  /-- A proof-of-work block has no stake. -/
  noStake : p.isProofOfStake = false →
    p.prevoutStake = COutPoint.null ∧ p.nStakeTime = 0 ∧ p.hashProofOfStake = 0

section

variable {env : Env} {kernel : StakeKernel} {block : CBlock} {nFile nBlockPos : Nat}
  {p q : CBlockIndex} {pprev : BlockPtr}

/-- The entropy bit and the modifier's bit are not the one for proof of stake. -/
theorem isProofOfStake_flags (b : Bool) (nEntropyBit : Nat) (fGenerated : Bool) :
    ((((if b then BLOCK_PROOF_OF_STAKE else 0)
        ||| (if nEntropyBit = 0 then 0 else BLOCK_STAKE_ENTROPY))
      ||| (if fGenerated then BLOCK_STAKE_MODIFIER else 0)) &&& BLOCK_PROOF_OF_STAKE != 0) = b := by
  split_ifs <;> simp_all [BLOCK_PROOF_OF_STAKE, BLOCK_STAKE_ENTROPY, BLOCK_STAKE_MODIFIER]

/-- The fields that the kernel fills in. -/
theorem StakeKernel.fill_eq (h : kernel.fill block q pprev = .ok p) :
    ∃ nStakeModifier fGenerated, p = { q with
      nStakeModifier := nStakeModifier
      nFlags := (q.nFlags ||| (if kernel.nEntropyBit = 0 then 0 else BLOCK_STAKE_ENTROPY))
        ||| (if fGenerated = true then BLOCK_STAKE_MODIFIER else 0)
      hashProofOfStake := if block.isProofOfStake then kernel.hashProofOfStake.getD 0 else 0 } := by
  rw [fill] at h
  obtain ⟨-, h⟩ := Lib.seq_eq_ok.mp h
  obtain ⟨-, h⟩ := Lib.seq_eq_ok.mp h
  rw [setStakeModifier] at h
  split at h
  · cases h
  · next nStakeModifier fGenerated _ =>
    obtain ⟨-, h⟩ := Lib.seq_eq_ok.mp h
    cases h
    exact ⟨nStakeModifier, fGenerated, rfl⟩

/-- The stake of a new entry is the block's. -/
theorem CBlock.newIndex_stakeSeen (env : Env) (block : CBlock) (nFile nBlockPos : Nat)
    (pprev : BlockPtr) :
    (block.newIndex env nFile nBlockPos pprev).stakeSeen = block.getProofOfStake := by
  unfold CBlockIndex.stakeSeen newIndex getProofOfStake
  rcases hvtx : block.vtx with _ | ⟨coinbase, _ | ⟨tx, rest⟩⟩
  · rfl
  · rfl
  · dsimp only
    split
    · rfl
    · rfl

theorem CBlock.getProofOfStake_of_proofOfWork (h : block.isProofOfStake = false) :
    block.getProofOfStake = (COutPoint.null, 0) := by
  unfold isProofOfStake at h
  unfold getProofOfStake
  split
  · next tx _ hvtx =>
    rw [hvtx] at h
    exact if_neg (Bool.eq_false_iff.mp h)
  · rfl

/-- What a new entry is like, under a parent with the hash that the block names. -/
theorem entryOf_newIndex (hprev : block.hashPrevBlock = BlockPtr.hash pprev)
    (hfill : kernel.fill block (block.newIndex env nFile nBlockPos pprev) pprev = .ok p) :
    EntryOf env p pprev ∧ p.isProofOfStake = block.isProofOfStake ∧
      p.stakeSeen = block.getProofOfStake := by
  obtain ⟨nStakeModifier, fGenerated, hp⟩ := StakeKernel.fill_eq hfill
  have hpos : p.isProofOfStake = block.isProofOfStake := by
    rw [hp]
    exact isProofOfStake_flags block.isProofOfStake kernel.nEntropyBit fGenerated
  have hstake : p.stakeSeen = block.getProofOfStake := by
    rw [hp]
    exact CBlock.newIndex_stakeSeen env block nFile nBlockPos pprev
  refine ⟨⟨?_, ?_, ?_⟩, hpos, hstake⟩
  · rw [← hprev, hp]
    rfl
  · show p.bnChainTrust = _ + getBlockTrust p.nBits p.isProofOfStake
    rw [hpos, hp]
    rfl
  · intro hwork
    rw [hpos] at hwork
    rw [CBlock.getProofOfStake_of_proofOfWork hwork] at hstake
    obtain ⟨hprevout, htime⟩ := Prod.mk.inj hstake
    refine ⟨hprevout, htime, ?_⟩
    rw [hp]
    exact if_neg (Bool.eq_false_iff.mp hwork)

end

/-! ## A call of SetBestChain -/

section

variable {env : Env} {files full : Files} {s s' : NodeState} {block : CBlock} {p : CBlockIndex}
  {pprev : BlockPtr}

theorem CBlock.newBest_fields (h : block.newBest env p pprev s = .ok s') :
    ∃ infos, s' = { s with
      infos := infos
      hashBestChain := env.getIDHash block.toCBlockHeader
      pindexBest := p :: pprev
      nBestHeight := p.nHeight
      bnBestChainTrust := p.bnChainTrust } := by
  rw [newBest] at h
  split at h
  · cases h
  · next infos _ =>
    cases h
    exact ⟨infos, rfl⟩

/-- A call that fails leaves the records of the chain as they are. -/
theorem Undone.recorded (h : Undone s s') (hs : NodeInv env full s) {ptr : BlockPtr}
    (hptr : InTree s.mapBlockIndex ptr) (hrec : s.Recorded s.pindexBest)
    (hkept : CountersKept (OffChain s.pindexBest ptr) s s') : s'.Recorded s'.pindexBest := by
  obtain ⟨trust, ht⟩ := h.txdb
  rw [NodeState.Recorded, h.mapBlockIndex, h.pindexBest, ht]
  refine RecordsAt.congr hrec fun k x xprev hk hc => ?_
  rw [statsAt, statsAt, hkept.blockStats]
  -- the blocks whose counters may have changed are others
  rintro ⟨y, hysuf, hytail, hynot, hyhash⟩
  have hyne : y ≠ [] := by
    rintro rfl
    exact hytail rfl
  have hy := hptr y (BlockPtr.mem_path.mpr ⟨hyne, hysuf⟩)
  rw [hyhash, hs.tree.hashBlock hk, hk] at hy
  cases hy
  rcases hc with hsuf | hroot
  · exact hynot hsuf
  · exact hytail hroot

/-- How a call ends, when nothing that it postpones fails: without a change, or at the new block. In
both cases the records are right. -/
theorem setBestChain_ends (hfiles : files.PartOf full)
    (hzero : ∀ header, env.getIDHash header ≠ 0) (hs : NodeInv env full s)
    (hrec : s.Recorded s.pindexBest) (hptr : s.mapBlockIndex p.hashBlock = some (p :: pprev))
    (hblock : full.block p.nFile p.nBlockPos = some block)
    (hpost : PostponedConnect env files p pprev s)
    (hs' : Lib.final (block.setBestChain env files p pprev s) = s') :
    s'.mapBlockIndex = s.mapBlockIndex ∧ s'.Recorded s'.pindexBest ∧
      (s'.pindexBest = s.pindexBest ∧ s'.bnBestChainTrust = s.bnBestChainTrust ∨
        s'.pindexBest = p :: pprev ∧ s'.bnBestChainTrust = p.bnChainTrust) := by
  subst hs'
  rw [CBlock.setBestChain_eq hs.noView]
  cases hsw : block.switchTo env files p pprev s.inView with
  | ok s₁ =>
      obtain ⟨hswitched, hg⟩ := switchTo_ok (kept_anyLedger env full) hfiles hzero hs trivial hptr
        hblock (fun _ _ _ _ _ => trivial) hpost hsw
      have hmap : s₁.mapBlockIndex = s.mapBlockIndex := hswitched.mapBlockIndex
      obtain ⟨s₂, hs₂, -⟩ :=
        newBest_ok hs hptr (hs.entry hptr hblock).getIDHash hswitched hg
      have hrec₁ := switchTo_recorded hfiles hzero hs hrec hptr hblock hpost hsw
      obtain ⟨infos, rfl⟩ := CBlock.newBest_fields hs₂
      simp only [Except.bind, hs₂]
      exact ⟨hmap, hrec₁, .inr ⟨rfl, rfl⟩⟩
  | error es =>
      obtain ⟨e, s₁⟩ := es
      have hkept := switchTo_counters hzero hs hptr hblock hpost hsw
      rcases switchTo_error hzero hs hptr hblock hsw with hfail | ⟨-, hnot⟩
      · have hundone := hfail.undone
        have hkept' : CountersKept (OffChain s.pindexBest (p :: pprev)) s s₁.unwind :=
          ⟨hkept.bnBestChainTrust, hkept.blockStats⟩
        exact ⟨hundone.mapBlockIndex, hundone.recorded hs (hs.tree.inTree hptr) hrec hkept',
          .inl ⟨hundone.pindexBest, hkept.bnBestChainTrust⟩⟩
      · exact absurd hpost hnot

/-- The first call of all makes the genesis block the best one. -/
theorem setBestChain_genesis (hs : NodeInv env full s) (hgenesis : s.pindexGenesisBlock = [])
    (hhash : env.getIDHash block.toCBlockHeader = env.hashGenesisBlock) :
    (Lib.final (block.setBestChain env files p pprev s)).pindexGenesisBlock = p :: pprev := by
  rw [CBlock.setBestChain_eq hs.noView, CBlock.switchTo, if_pos ⟨hgenesis, hhash⟩]
  rfl

end

/-! ## Runs -/

/-- What the other parts of a node leave alone. -/
structure SameIndex (s s' : NodeState) : Prop extends SameChain s s' where
  blockStats : s'.blockStats = s.blockStats
  bnBestChainTrust : s'.bnBestChainTrust = s.bnBestChainTrust

/-- `setStakeSeen` after `AddToBlockIndex` of a block that was not indexed, from the node it leaves. -/
def CBlock.stakesAfter (env : Env) (block : CBlock) (s : NodeState) (setStakeSeen : Finset Stake) :
    Finset Stake :=
  if (s.mapBlockIndex (env.getIDHash block.toCBlockHeader)).isSome && block.isProofOfStake then
    insert block.getProofOfStake setStakeSeen
  else setStakeSeen

/-- Runs of `AddToBlockIndex` and `SetBestChain` with their `setStakeSeen`, in which every block that
a call postpones can be read and connects. `full` is what is in the block files in the end. -/
inductive IndexRun (env : Env) (full : Files) : NodeState → Finset Stake → Prop where
  | fresh {s : NodeState} (h : Fresh s) (htrust : s.bnBestChainTrust = 0) : IndexRun env full s ∅
  | other {s s' : NodeState} {setStakeSeen : Finset Stake} (hs : IndexRun env full s setStakeSeen)
      (h : SameIndex s s') : IndexRun env full s' setStakeSeen
  | add {s : NodeState} {setStakeSeen : Finset Stake} {files : Files} {block : CBlock}
      {kernel : StakeKernel} {nFile nBlockPos : Nat} (hs : IndexRun env full s setStakeSeen)
      (hfiles : files.PartOf full) (hfile : nFile ≠ UINT_MAX)
      (hblock : full.block nFile nBlockPos = some block)
      (hnew : s.mapBlockIndex (env.getIDHash block.toCBlockHeader) = none)
      (hparent : ParentKnown env block s)
      (htarget : (∀ h, s.mapBlockIndex h = none) →
        0 < getBlockTrust block.nBits block.isProofOfStake)
      (hpost : ∀ p, kernel.fill block (block.newIndex env nFile nBlockPos
          ((s.mapBlockIndex block.hashPrevBlock).getD []))
          ((s.mapBlockIndex block.hashPrevBlock).getD []) = .ok p →
        PostponedConnect env files p ((s.mapBlockIndex block.hashPrevBlock).getD [])
          (s.insertIndex p ((s.mapBlockIndex block.hashPrevBlock).getD []))) :
      IndexRun env full (Lib.final (block.addToBlockIndex env files kernel nFile nBlockPos s))
        (block.stakesAfter env
          (Lib.final (block.addToBlockIndex env files kernel nFile nBlockPos s)) setStakeSeen)
  | best {s : NodeState} {setStakeSeen : Finset Stake} {files : Files} {block : CBlock}
      {p : CBlockIndex} {pprev : BlockPtr} (hs : IndexRun env full s setStakeSeen)
      (hfiles : files.PartOf full) (hptr : s.mapBlockIndex p.hashBlock = some (p :: pprev))
      (hblock : full.block p.nFile p.nBlockPos = some block)
      (hpost : PostponedConnect env files p pprev s) :
      IndexRun env full (Lib.final (block.setBestChain env files p pprev s)) setStakeSeen

/-- What a run keeps, also while a block is indexed and not the best one yet. -/
structure ReloadInv (env : Env) (full : Files) (s : NodeState) (setStakeSeen : Finset Stake) :
    Prop where
  node : NodeInv env full s
  entries : ∀ h p pprev, s.mapBlockIndex h = some (p :: pprev) → EntryOf env p pprev
  finite : s.mapBlockIndex.FiniteKeys
  records : s.Recorded s.pindexBest
  bnBestChainTrust :
    s.bnBestChainTrust = (s.pindexBest.head?.map CBlockIndex.bnChainTrust).getD 0
  stakes : ∀ x, x ∈ setStakeSeen ↔ ∃ h p pprev, s.mapBlockIndex h = some (p :: pprev) ∧
    p.isProofOfStake = true ∧ x = p.stakeSeen

/-- The genesis block is the best one as soon as it is indexed. -/
def NodeState.Started (s : NodeState) : Prop :=
  s.pindexGenesisBlock = [] → ∀ h, s.mapBlockIndex h = none

section

variable {env : Env} {files full : Files} {s s' : NodeState} {setStakeSeen : Finset Stake}
  {block : CBlock} {p : CBlockIndex} {pprev : BlockPtr}

theorem Fresh.reloadInv (h : Fresh s) (htrust : s.bnBestChainTrust = 0) :
    ReloadInv env full s ∅ := by
  refine ⟨h.nodeInv, ?_, ?_, ?_, ?_, ?_⟩
  · intro k p pprev hk
    rw [h.mapBlockIndex] at hk
    cases hk
  · rw [h.mapBlockIndex]
    exact Lib.PMap.finiteKeys_empty
  · rw [NodeState.Recorded, h.mapBlockIndex, h.pindexBest, h.txdb]
    exact recordsAt_empty _
  · rw [htrust, h.pindexBest]
    rfl
  · intro x
    simp [h.mapBlockIndex]

theorem SameIndex.reloadInv (h : SameIndex s s') (hs : ReloadInv env full s setStakeSeen) :
    ReloadInv env full s' setStakeSeen := by
  refine ⟨h.toSameChain.nodeInv hs.node, ?_, ?_, ?_, ?_, ?_⟩
  · rw [h.mapBlockIndex]
    exact hs.entries
  · rw [h.mapBlockIndex]
    exact hs.finite
  · rw [NodeState.Recorded, h.mapBlockIndex, h.blockStats, h.pindexBest, h.txdb]
    exact hs.records
  · rw [h.bnBestChainTrust, h.pindexBest]
    exact hs.bnBestChainTrust
  · rw [h.mapBlockIndex]
    exact hs.stakes

/-- A block is indexed. -/
theorem ReloadInv.insertIndex {setStakeSeen' : Finset Stake}
    (hs : ReloadInv env full s setStakeSeen) (hnew : s.mapBlockIndex p.hashBlock = none)
    (hE : TreeEntry env full s.mapBlockIndex p.hashBlock p pprev block)
    (hentry : EntryOf env p pprev)
    (hseen : ∀ x, x ∈ setStakeSeen' ↔
      x ∈ setStakeSeen ∨ p.isProofOfStake = true ∧ x = p.stakeSeen) :
    ReloadInv env full (s.insertIndex p pprev) setStakeSeen' := by
  have hmap : ∀ k, (s.insertIndex p pprev).mapBlockIndex k
      = if k = p.hashBlock then some (p :: pprev) else s.mapBlockIndex k := fun _ => rfl
  refine ⟨hs.node.insertIndex hnew hE, ?_, hs.finite.set _ _, ?_, hs.bnBestChainTrust, ?_⟩
  · intro k x xprev hk
    rw [hmap] at hk
    split at hk
    · cases hk
      exact hentry
    · exact hs.entries k x xprev hk
  · have hnext : s.pnext p.hashBlock = none := by
      apply hs.node.next.eq_none hs.node.inTree
      intro ptr hptr
      rw [hnew] at hptr
      cases hptr
    have hrecord : s.diskBlockIndex p pprev
        = ⟨p, statsAt s.blockStats p, BlockPtr.hash pprev, 0⟩ := by
      rw [NodeState.diskBlockIndex, hnext]
      rfl
    have hinsert : RecordsAt (s.mapBlockIndex.set p.hashBlock (p :: pprev)) s.blockStats
        s.pindexBest
        (s.txdb.data.blockIndex.set p.hashBlock (s.diskBlockIndex p pprev)) := by
      rw [hrecord]
      exact hs.records.insert hs.node.inTree hnew
    exact hinsert
  · intro x
    rw [hseen, hs.stakes]
    constructor
    · rintro (⟨k, y, yprev, hk, hy⟩ | hx)
      · refine ⟨k, y, yprev, ?_, hy⟩
        rw [hmap, if_neg]
        · exact hk
        · rintro rfl
          rw [hnew] at hk
          cases hk
      · exact ⟨p.hashBlock, p, pprev, by rw [hmap, if_pos rfl], hx⟩
    · rintro ⟨k, y, yprev, hk, hy⟩
      rw [hmap] at hk
      split at hk
      · cases hk
        exact .inr hy
      · exact .inl ⟨k, y, yprev, hk, hy⟩

/-- A call of `SetBestChain`. -/
theorem ReloadInv.setBestChain (hs : ReloadInv env full s setStakeSeen)
    (hfiles : files.PartOf full) (hzero : ∀ header, env.getIDHash header ≠ 0)
    (hptr : s.mapBlockIndex p.hashBlock = some (p :: pprev))
    (hblock : full.block p.nFile p.nBlockPos = some block)
    (hpost : PostponedConnect env files p pprev s) :
    ReloadInv env full (Lib.final (block.setBestChain env files p pprev s)) setStakeSeen := by
  obtain ⟨hnode, -⟩ := setBestChain_inv (kept_anyLedger env full) hfiles hzero hs.node trivial hptr
    hblock (fun _ _ _ _ _ => trivial) hpost
  obtain ⟨hmap, hrec, hend⟩ := setBestChain_ends hfiles hzero hs.node hs.records hptr hblock hpost
    rfl
  refine ⟨hnode, ?_, ?_, hrec, ?_, ?_⟩
  · rw [hmap]
    exact hs.entries
  · rw [hmap]
    exact hs.finite
  · rcases hend with ⟨hbest, htrust⟩ | ⟨hbest, htrust⟩
    · rw [htrust, hbest]
      exact hs.bnBestChainTrust
    · rw [htrust, hbest]
      rfl
  · rw [hmap]
    exact hs.stakes

/-- Once a block is indexed the genesis block stays known. -/
theorem ReloadInv.started_setBestChain (hs : ReloadInv env full s setStakeSeen)
    (hstarted : s.pindexGenesisBlock ≠ []) (hfiles : files.PartOf full)
    (hzero : ∀ header, env.getIDHash header ≠ 0)
    (hptr : s.mapBlockIndex p.hashBlock = some (p :: pprev))
    (hblock : full.block p.nFile p.nBlockPos = some block)
    (hpost : PostponedConnect env files p pprev s) :
    (Lib.final (block.setBestChain env files p pprev s)).Started := by
  have hnode := (hs.setBestChain hfiles hzero hptr hblock hpost).node
  obtain ⟨-, -, hend⟩ := setBestChain_ends hfiles hzero hs.node hs.records hptr hblock hpost rfl
  intro hgenesis
  rcases hnode.genesis with ⟨-, hbest⟩ | ⟨hroot, -⟩
  · rcases hend with ⟨hsame, -⟩ | ⟨hnew, -⟩
    · rw [hsame] at hbest
      rcases hs.node.genesis with ⟨hg, -⟩ | ⟨-, hne⟩
      · exact absurd hg hstarted
      · exact absurd hbest hne
    · rw [hnew] at hbest
      cases hbest
  · obtain ⟨g, gprev, b, heq, -⟩ := hnode.tree _ _ hroot
    rw [hgenesis] at heq
    cases heq

/-- `AddToBlockIndex` of a block that is not indexed: nothing, or indexing it, and a call of
`SetBestChain` when it has the most trust. -/
theorem CBlock.addToBlockIndex_final (files : Files) (kernel : StakeKernel)
    (nFile nBlockPos : Nat) (hnew : s.mapBlockIndex (env.getIDHash block.toCBlockHeader) = none)
    (hprev : (s.mapBlockIndex block.hashPrevBlock).getD [] = pprev) :
    match kernel.fill block (block.newIndex env nFile nBlockPos pprev) pprev with
    | .error _ => Lib.final (block.addToBlockIndex env files kernel nFile nBlockPos s) = s
    | .ok p => Lib.final (block.addToBlockIndex env files kernel nFile nBlockPos s)
        = if s.bnBestChainTrust < p.bnChainTrust then
            Lib.final (block.setBestChain env files p pprev (s.insertIndex p pprev))
          else s.insertIndex p pprev := by
  rw [addToBlockIndex, hnew, hprev]
  simp only [Option.isNone_none, Lib.require, if_true]
  cases hfill : kernel.fill block (block.newIndex env nFile nBlockPos pprev) pprev with
  | error e => rfl
  | ok p =>
      have htrust : (s.insertIndex p pprev).bnBestChainTrust = s.bnBestChainTrust := rfl
      simp only [bind, Except.mapError, Except.bind, htrust]
      split
      · rfl
      · rfl

/-- `AddToBlockIndex` of a block that is not indexed. -/
theorem ReloadInv.addToBlockIndex {kernel : StakeKernel} {nFile nBlockPos : Nat}
    (hs : ReloadInv env full s setStakeSeen) (hstarted : s.Started)
    (hfiles : files.PartOf full) (hzero : ∀ header, env.getIDHash header ≠ 0)
    (hfile : nFile ≠ UINT_MAX) (hblock : full.block nFile nBlockPos = some block)
    (hnew : s.mapBlockIndex (env.getIDHash block.toCBlockHeader) = none)
    (hparent : ParentKnown env block s)
    (htarget : (∀ h, s.mapBlockIndex h = none) →
      0 < getBlockTrust block.nBits block.isProofOfStake)
    (hprev : (s.mapBlockIndex block.hashPrevBlock).getD [] = pprev)
    (hpost : ∀ p, kernel.fill block (block.newIndex env nFile nBlockPos pprev) pprev = .ok p →
      PostponedConnect env files p pprev (s.insertIndex p pprev))
    (hs' : Lib.final (block.addToBlockIndex env files kernel nFile nBlockPos s) = s') :
    ReloadInv env full s' (block.stakesAfter env s' setStakeSeen) ∧ s'.Started := by
  have hfinal := CBlock.addToBlockIndex_final files kernel nFile nBlockPos hnew hprev
  cases hfill : kernel.fill block (block.newIndex env nFile nBlockPos pprev) pprev with
  | error e =>
      simp only [hfill, hs'] at hfinal
      subst hfinal
      have hseen : block.stakesAfter env s' setStakeSeen = setStakeSeen := by
        simp [CBlock.stakesAfter, hnew]
      rw [hseen]
      exact ⟨hs, hstarted⟩
  | ok p =>
      simp only [hfill, hs'] at hfinal
      have hE : TreeEntry env full s.mapBlockIndex p.hashBlock p pprev block := by
        rw [← hprev] at hfill ⊢
        exact treeEntry_newIndex hs.node.tree hfile hblock hparent hfill
      obtain ⟨hentry, hpos, hstake⟩ := entryOf_newIndex hE.hashPrevBlock hfill
      obtain ⟨-, hf, hp, -, -⟩ := StakeKernel.fill_ok hfill
      have hblock' : full.block p.nFile p.nBlockPos = some block := by
        rw [hf, hp]
        exact hblock
      have hnew' : s.mapBlockIndex p.hashBlock = none := by
        rw [← hE.getIDHash]
        exact hnew
      have hptr : (s.insertIndex p pprev).mapBlockIndex p.hashBlock = some (p :: pprev) :=
        Lib.PMap.set_self _ _ _
      have hinv : ReloadInv env full (s.insertIndex p pprev)
          (if block.isProofOfStake then insert block.getProofOfStake setStakeSeen
            else setStakeSeen) := by
        apply hs.insertIndex hnew' hE hentry
        intro x
        rw [hpos, hstake]
        cases block.isProofOfStake with
        | true => simp [or_comm]
        | false => simp
      have hseen : s'.mapBlockIndex = (s.insertIndex p pprev).mapBlockIndex →
          block.stakesAfter env s' setStakeSeen
            = if block.isProofOfStake then insert block.getProofOfStake setStakeSeen
              else setStakeSeen := by
        intro hmap
        rw [CBlock.stakesAfter, hmap, hE.getIDHash, hptr]
        rfl
      have hmore : s.pindexGenesisBlock = [] → pprev = [] ∧
          env.getIDHash block.toCBlockHeader = env.hashGenesisBlock ∧
          s.bnBestChainTrust < p.bnChainTrust := by
        intro hg
        have hempty := hstarted hg
        have hbest : s.pindexBest = [] := by
          rcases hs.node.genesis with ⟨-, hb⟩ | ⟨hroot, -⟩
          · exact hb
          · rw [hempty] at hroot
            cases hroot
        have hroot : pprev = [] := by
          rw [← hprev, hempty]
          rfl
        have hzeroTrust := hs.bnBestChainTrust
        have htrust := hentry.sumsTrust
        subst hroot
        rw [hbest] at hzeroTrust
        replace htrust : p.bnChainTrust = 0 + getBlockTrust p.nBits p.isProofOfStake := htrust
        obtain ⟨nStakeModifier, fGenerated, hfields⟩ := StakeKernel.fill_eq hfill
        have hbits : p.nBits = block.nBits := by
          rw [hfields]
          rfl
        refine ⟨rfl, hE.getIDHash.trans (hE.genesis rfl), ?_⟩
        rw [hzeroTrust, htrust, hpos, hbits, zero_add]
        exact htarget hempty
      by_cases htrust : s.bnBestChainTrust < p.bnChainTrust
      · rw [if_pos htrust] at hfinal
        have hmap := (setBestChain_ends hfiles hzero hinv.node hinv.records hptr hblock'
          (hpost p hfill) hfinal.symm).1
        rw [hseen hmap, hfinal]
        refine ⟨hinv.setBestChain hfiles hzero hptr hblock' (hpost p hfill), ?_⟩
        by_cases hg : s.pindexGenesisBlock = []
        · intro hnone
          rw [setBestChain_genesis hinv.node hg (hmore hg).2.1] at hnone
          cases hnone
        · exact hinv.started_setBestChain hg hfiles hzero hptr hblock' (hpost p hfill)
      · rw [if_neg htrust] at hfinal
        rw [hseen (by rw [hfinal]), hfinal]
        refine ⟨hinv, fun hg => ?_⟩
        exact absurd (hmore hg).2.2 htrust

end

/-- In every run the block index and its records fit together. -/
theorem IndexRun.inv {env : Env} {full : Files} (hzero : ∀ header, env.getIDHash header ≠ 0)
    {s : NodeState} {setStakeSeen : Finset Stake} (hs : IndexRun env full s setStakeSeen) :
    ReloadInv env full s setStakeSeen ∧ s.Started := by
  induction hs with
  | fresh h htrust =>
      refine ⟨h.reloadInv htrust, fun _ k => ?_⟩
      rw [h.mapBlockIndex]
      rfl
  | other _ h ih =>
      refine ⟨h.reloadInv ih.1, fun hg => ?_⟩
      rw [h.mapBlockIndex]
      apply ih.2
      rw [← h.pindexGenesisBlock]
      exact hg
  | add _ hfiles hfile hblock hnew hparent htarget hpost ih =>
      exact ih.1.addToBlockIndex ih.2 hfiles hzero hfile hblock hnew hparent htarget rfl hpost rfl
  | best _ hfiles hptr hblock hpost ih =>
      refine ⟨ih.1.setBestChain hfiles hzero hptr hblock hpost, ?_⟩
      apply ih.1.started_setBestChain ?_ hfiles hzero hptr hblock hpost
      intro hg
      have hempty := ih.2 hg
      rw [hempty] at hptr
      cases hptr

end ShinyCoin

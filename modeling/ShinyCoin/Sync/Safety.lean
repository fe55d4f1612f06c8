import ShinyCoin.Sync.Orphans
import ShinyCoin.Chain.Pointers

/-!
# What a sync checkpoint promises

A checkpoint only ever moves up its own branch, the best chain always goes through it, and outside
the test network no block is indexed above it that does not descend from it. All this holds in every
order of blocks and messages; it rests on `pnext` never leaving the best chain, since a checkpoint
whose block has a `pnext` is taken without a switch.

A run of `ProcessBlock` is a run of the calls it makes: `AcceptBlock` up to `AddToBlockIndex`, and
`AcceptPendingSyncCheckpoint` after it. The theorem speaks of these smaller steps, since a checkpoint
can move several times within one `ProcessBlock`.
-/

namespace ShinyCoin

/-- The pointers of a node between two calls, as far as every call keeps them. -/
structure Pointers (env : Env) (full : Files) (s : NodeState) : Prop where
  tree : TreeInv env full s.mapBlockIndex
  idle : s.txdb.vTxn = []
  noView : s.infos.inTransaction = false
  genesis : s.pindexGenesisBlock ≠ []
  best : s.mapBlockIndex (BlockPtr.hash s.pindexBest) = some s.pindexBest
  hashBestChain : s.hashBestChain = BlockPtr.hash s.pindexBest
  next : NextBelow s.pnext s.pindexBest

/-- The best chain goes through the block `c`, the sync checkpoint. -/
def OnCheckpoint (s : NodeState) (c : BlockPtr) : Prop :=
  s.mapBlockIndex s.hashSyncCheckpoint = some c ∧ c <:+ s.pindexBest

section

variable {env : Env} {files full : Files} {s s' : NodeState} {block : CBlock} {p : CBlockIndex}
  {pprev ptr c : BlockPtr}

/-- A node whose pointers and databases agree. -/
theorem NodeInv.pointers (h : NodeInv env full s) (hbest : s.pindexBest ≠ []) :
    Pointers env full s := by
  have hgenesis : s.pindexGenesisBlock ≠ [] := by
    rcases h.genesis with ⟨-, hb⟩ | ⟨hg, -⟩
    · exact absurd hb hbest
    · obtain ⟨q, qprev, b, heq, -⟩ := h.tree _ _ hg
      rw [heq]
      exact List.cons_ne_nil _ _
  refine ⟨h.tree, h.idle, h.noView, hgenesis, h.best hbest, h.hashBestChain, ?_⟩
  intro k ptr hk
  obtain ⟨hmem, hne, hhash⟩ := (h.next k ptr).mp hk
  obtain ⟨hptr, above, habove⟩ := BlockPtr.mem_path.mp hmem
  obtain ⟨q, qs, rfl⟩ := List.exists_cons_of_ne_nil hptr
  refine ⟨qs, hne, ?_, hhash⟩
  rw [← habove]
  cases above with
  | nil => exact List.suffix_rfl
  | cons a above => exact (List.suffix_cons q qs).trans (List.suffix_append above (q :: qs))

namespace Pointers

theorem ptr_ne_nil (h : Pointers env full s) {k : Uint256} (hptr : s.mapBlockIndex k = some ptr) :
    ptr ≠ [] ∧ BlockPtr.hash ptr = k := by
  obtain ⟨q, qprev, b, rfl, hE⟩ := h.tree _ _ hptr
  exact ⟨List.cons_ne_nil _ _, hE.hashBlock⟩

/-- Two indexed blocks with one hash are the same. -/
theorem eq_of_hash (h : Pointers env full s) {k : Uint256} (hptr : s.mapBlockIndex k = some ptr)
    {x : BlockPtr} (hne : x ≠ []) (hx : x <:+ ptr) {y : BlockPtr}
    (hy : s.mapBlockIndex (BlockPtr.hash x) = some y) : x = y := by
  have := h.tree.inTree hptr x (BlockPtr.mem_path.mpr ⟨hne, hx⟩)
  rw [this] at hy
  exact Option.some.inj hy

/-- A block with a `pnext`, like the best block itself, is on the best chain. -/
theorem of_isInMainChain (h : Pointers env full s) {k : Uint256}
    (hptr : s.mapBlockIndex k = some ptr) (hmain : s.isInMainChain ptr = true) :
    ptr <:+ s.pindexBest := by
  unfold NodeState.isInMainChain at hmain
  rcases Bool.or_eq_true_iff.mp hmain with hnext | heq
  · obtain ⟨x, hx⟩ := Option.isSome_iff_exists.mp hnext
    obtain ⟨y, hy, hsuf, hhash⟩ := h.next _ _ hx
    have hbest := hsuf.trans (List.tail_suffix s.pindexBest)
    have hyp : y = ptr := by
      refine h.eq_of_hash h.best hy hbest ?_
      rw [hhash, (h.ptr_ne_nil hptr).2]
      exact hptr
    rw [← hyp]
    exact hbest
  · rw [beq_iff_eq.mp heq]

theorem undone (h : Pointers env full s) (hu : Undone s s') : Pointers env full s' := by
  obtain ⟨trust, ht⟩ := hu.txdb
  refine ⟨?_, by rw [ht], by rw [hu.infos]; rfl, ?_, ?_, ?_, ?_⟩
  · rw [hu.mapBlockIndex]; exact h.tree
  · rw [hu.pindexGenesisBlock]; exact h.genesis
  · rw [hu.mapBlockIndex, hu.pindexBest]; exact h.best
  · rw [hu.hashBestChain, hu.pindexBest]; exact h.hashBestChain
  · rw [hu.pnext, hu.pindexBest]; exact h.next

theorem wentTo (h : Pointers env full s) (hw : WentTo s ptr s') {k : Uint256}
    (hptr : s.mapBlockIndex k = some ptr) : Pointers env full s' := by
  refine ⟨?_, hw.vTxn, hw.noView, ?_, ?_, ?_, ?_⟩
  · rw [hw.mapBlockIndex]; exact h.tree
  · rw [hw.pindexGenesisBlock]; exact h.genesis
  · rw [hw.mapBlockIndex, hw.pindexBest, (h.ptr_ne_nil hptr).2]; exact hptr
  · rw [hw.hashBestChain, hw.pindexBest]
  · rw [hw.pindexBest]; exact hw.next

/-- A block whose parent has the hash of the best block has the best block as its parent. -/
theorem pprev_eq_best (h : Pointers env full s)
    (hE : TreeEntry env full s.mapBlockIndex p.hashBlock p pprev block) (hne : pprev ≠ [])
    (hprev : block.hashPrevBlock = s.hashBestChain) : pprev = s.pindexBest := by
  have hpp := hE.parent hne
  rw [← hE.hashPrevBlock, hprev, h.hashBestChain, h.best] at hpp
  exact (Option.some.inj hpp).symm

/-- A call of `SetBestChain` that returns goes to its block, or changes no pointer. -/
theorem setBestChain (h : Pointers env full s) (files : Files)
    (hptr : s.mapBlockIndex p.hashBlock = some (p :: pprev)) (hne : pprev ≠ [])
    (hE : TreeEntry env full s.mapBlockIndex p.hashBlock p pprev block) :
    (∀ s', block.setBestChain env files p pprev s = .ok s' →
      WentTo s (p :: pprev) s' ∧ Pointers env full s') ∧
    ∀ e s', e.isFalse = true → block.setBestChain env files p pprev s = .error (e, s') →
      Undone s s' ∧ Pointers env full s' := by
  constructor
  · intro s' hok
    have hw := setBestChain_wentTo h.idle h.noView h.genesis h.next (h.pprev_eq_best hE hne) hne
      hE.getIDHash hok
    exact ⟨hw, h.wentTo hw hptr⟩
  · intro e s' he herr
    have hu := setBestChain_undone h.idle h.noView h.genesis hne he herr
    exact ⟨hu, h.undone hu⟩

end Pointers

/-! ## The checkpoint stays on the best chain -/

theorem OnCheckpoint.undone (h : OnCheckpoint s c) (hu : Undone s s') : OnCheckpoint s' c := by
  unfold OnCheckpoint
  rw [hu.mapBlockIndex, hu.hashSyncCheckpoint, hu.pindexBest]
  exact h

/-- `Reorganize` does not leave the checkpoint, so the fork is above it. -/
theorem OnCheckpoint.wentTo (h : OnCheckpoint s c) (hp : Pointers env full s)
    (hw : WentTo s ptr s') : OnCheckpoint s' c := by
  unfold OnCheckpoint
  rw [hw.mapBlockIndex, hw.hashSyncCheckpoint, hw.pindexBest]
  refine ⟨h.1, ?_⟩
  obtain ⟨pfork, -, hbest, hnew, hsync⟩ := hw.fork
  obtain ⟨hne, hhash⟩ := hp.ptr_ne_nil h.1
  have hmem : c ∈ BlockPtr.path s.pindexBest := BlockPtr.mem_path.mpr ⟨hne, h.2⟩
  rw [path_eq_backTo hbest] at hmem
  rcases List.mem_append.mp hmem with hmem | hmem
  · exact absurd hhash (hsync c hmem)
  · exact (BlockPtr.mem_path.mp hmem).2.trans hnew

/-- What a block that is indexed leaves of the best chain: it was not tried, it is the best block now,
or nothing came of it. -/
def TriedBest (s : NodeState) (ptr : BlockPtr) (s' : NodeState) : Prop :=
  s' = s ∨ WentTo s ptr s' ∨ Undone s s'

theorem TriedBest.mapBlockIndex (h : TriedBest s ptr s') : s'.mapBlockIndex = s.mapBlockIndex := by
  rcases h with rfl | hw | hu
  · rfl
  · exact hw.mapBlockIndex
  · exact hu.mapBlockIndex

theorem TriedBest.hashSyncCheckpoint (h : TriedBest s ptr s') :
    s'.hashSyncCheckpoint = s.hashSyncCheckpoint := by
  rcases h with rfl | hw | hu
  · rfl
  · exact hw.hashSyncCheckpoint
  · exact hu.hashSyncCheckpoint

theorem OnCheckpoint.triedBest (hc : OnCheckpoint s c) (hp : Pointers env full s)
    (h : TriedBest s ptr s') : OnCheckpoint s' c := by
  rcases h with rfl | hw | hu
  · exact hc
  · exact hc.wentTo hp hw
  · exact hc.undone hu

/-! ## A new block -/

/-- Indexing a block under a known parent keeps the pointers. -/
theorem Pointers.insertIndex (h : Pointers env full s) (hnew : s.mapBlockIndex p.hashBlock = none)
    (hE : TreeEntry env full s.mapBlockIndex p.hashBlock p pprev block) :
    Pointers env full (s.insertIndex p pprev) ∧
      ∀ k ptr, s.mapBlockIndex k = some ptr → (s.insertIndex p pprev).mapBlockIndex k = some ptr := by
  have hkeep : ∀ k ptr, s.mapBlockIndex k = some ptr →
      (s.insertIndex p pprev).mapBlockIndex k = some ptr := by
    intro k ptr hk
    show s.mapBlockIndex.set p.hashBlock (p :: pprev) k = some ptr
    rw [Lib.PMap.set_of_ne]
    · exact hk
    · rintro rfl
      rw [hnew] at hk
      cases hk
  exact ⟨⟨h.tree.insert hnew hE, h.idle, h.noView, h.genesis, hkeep _ _ h.best, h.hashBestChain,
    h.next⟩, hkeep⟩

/-- What a call of `AddToBlockIndex` that returns has done: nothing, or it has indexed the block,
and perhaps called `SetBestChain`. -/
theorem CBlock.addToBlockIndex_cases {kernel : StakeKernel} {nFile nBlockPos : Nat}
    {x : Except (Err × NodeState) NodeState}
    (h : block.addToBlockIndex env files kernel nFile nBlockPos s = x) :
    (∃ e, x = .error (e, s)) ∨
      ∃ p pprev, (s.mapBlockIndex block.hashPrevBlock).getD [] = pprev ∧
        s.mapBlockIndex (env.getIDHash block.toCBlockHeader) = none ∧
        kernel.fill block (block.newIndex env nFile nBlockPos pprev) pprev = .ok p ∧
        (x = .ok (s.insertIndex p pprev) ∧ p.bnChainTrust ≤ s.bnBestChainTrust ∨
          x = block.setBestChain env files p pprev (s.insertIndex p pprev) ∧
            s.bnBestChainTrust < p.bnChainTrust) := by
  subst h
  cases hnew : s.mapBlockIndex (env.getIDHash block.toCBlockHeader) with
  | some ptr =>
      rw [addToBlockIndex, hnew]
      exact .inl ⟨_, rfl⟩
  | none =>
      have hrun : block.addToBlockIndex env files kernel nFile nBlockPos s
          = ((kernel.fill block (block.newIndex env nFile nBlockPos
              ((s.mapBlockIndex block.hashPrevBlock).getD []))
              ((s.mapBlockIndex block.hashPrevBlock).getD [])).mapError (·, s)).bind fun p =>
            if s.bnBestChainTrust < p.bnChainTrust then
              block.setBestChain env files p ((s.mapBlockIndex block.hashPrevBlock).getD [])
                (s.insertIndex p ((s.mapBlockIndex block.hashPrevBlock).getD []))
            else .ok (s.insertIndex p ((s.mapBlockIndex block.hashPrevBlock).getD [])) := by
        rw [addToBlockIndex, hnew]
        rfl
      rw [hrun]
      cases hfill : kernel.fill block (block.newIndex env nFile nBlockPos
          ((s.mapBlockIndex block.hashPrevBlock).getD []))
          ((s.mapBlockIndex block.hashPrevBlock).getD []) with
      | error e => exact .inl ⟨e, rfl⟩
      | ok p =>
          refine .inr ⟨p, _, rfl, rfl, hfill, ?_⟩
          by_cases htrust : s.bnBestChainTrust < p.bnChainTrust
          · exact .inr ⟨if_pos htrust, htrust⟩
          · exact .inl ⟨if_neg htrust, not_lt.mp htrust⟩

/-- What a step does to the checkpoint: it stays, or moves to a block above it. -/
structure KeepsCheckpoint (s s' : NodeState) (c : BlockPtr) : Prop where
  /-- The checkpoint's block is still on the best chain. -/
  stays : c <:+ s'.pindexBest
  moves : ∃ c', OnCheckpoint s' c' ∧
    (s'.hashSyncCheckpoint = s.hashSyncCheckpoint ∧ c' = c ∨ c <:+ c' ∧ c ≠ c')

theorem OnCheckpoint.keeps (h : OnCheckpoint s' c)
    (hsync : s'.hashSyncCheckpoint = s.hashSyncCheckpoint) : KeepsCheckpoint s s' c :=
  ⟨h.2, c, h, .inl ⟨hsync, rfl⟩⟩

/-- Below a block that passes `CheckSync`, at the height of the checkpoint, is the checkpoint. -/
theorem SyncEnv.checkSync_descends {senv : SyncEnv} {hashBlock : Uint256} {pindexSync : CBlockIndex}
    {rest : BlockPtr} (hp : Pointers senv.toEnv full s) (hnet : senv.fTestNet = false)
    (hprev : s.mapBlockIndex block.hashPrevBlock = some (p :: pprev))
    (hsync : s.mapBlockIndex s.hashSyncCheckpoint = some (pindexSync :: rest))
    (hheight : pindexSync.nHeight < p.nHeight + 1)
    (h : senv.checkSync s hashBlock p pprev = .ok true) : pindexSync :: rest <:+ p :: pprev := by
  unfold checkSync at h
  rw [if_neg (by rw [hnet]; exact Bool.false_ne_true), hsync] at h
  dsimp only at h
  rw [if_pos hheight] at h
  have hsuf := lowerTo_suffix pindexSync.nHeight (p :: pprev)
  cases hlow : lowerTo pindexSync.nHeight (p :: pprev) with
  | nil =>
      rw [hlow] at h
      cases h
  | cons q qs =>
      rw [hlow] at h hsuf
      have hhash : q.hashBlock = s.hashSyncCheckpoint := by
        have := Except.ok.inj h
        grind
      have heq : q :: qs = pindexSync :: rest := by
        refine hp.eq_of_hash hprev (List.cons_ne_nil _ _) hsuf ?_
        show s.mapBlockIndex q.hashBlock = _
        rw [hhash]
        exact hsync
      rw [← heq]
      exact hsuf

end

/-! ## The steps -/

/-- What the disk is relied on for: it reads back what was written, and a block that is written is at
its position. -/
def Disk.Ok (full : Files) (disk : Disk) (block : CBlock) : Prop :=
  disk.files.PartOf full ∧ ∀ nFile nBlockPos, disk.writeToDisk = some (nFile, nBlockPos) →
    nFile ≠ UINT_MAX ∧ full.block nFile nBlockPos = some block

def SyncOp.DiskOk (full : Files) : SyncOp → Prop
  | .block disk _ => ∀ b, (disk b).Ok full b
  | .checkpoint disk _ => disk.files.PartOf full
  | .pending disk => disk.files.PartOf full
  | .other _ _ _ => True

/-- The call returned, `true` or `false`, with this state. -/
def Returns (x : Except (Err × SyncState) SyncState) (s' : SyncState) : Prop :=
  x = .ok s' ∨ ∃ e, e.isFalse = true ∧ x = .error (e, s')

/-- The calls that can change the checkpoint, the index or the best chain. -/
inductive SyncStep (senv : SyncEnv) (full : Files) : SyncState → SyncState → Prop where
  /-- `AcceptBlock` up to `AddToBlockIndex`, for a block that passes its checks -/
  | index {s s' : SyncState} {disk : Disk} {block : CBlock} {nFile nBlockPos : Nat}
      {pindexPrev : CBlockIndex} {pprev : BlockPtr}
      (hprev : s.node.mapBlockIndex block.hashPrevBlock = some (pindexPrev :: pprev))
      (hcheck : block.checkContext senv s.node pindexPrev pprev = .ok ())
      (hdisk : disk.Ok full block) (hpos : disk.writeToDisk = some (nFile, nBlockPos))
      (h : Returns (block.indexBlock senv disk.files nFile nBlockPos s) s') : SyncStep senv full s s'
  | checkpoint {s s' : SyncState} {disk : Disk} {hashCheckpoint : Uint256}
      (hdisk : disk.files.PartOf full)
      (h : Returns (s.processSyncCheckpoint senv disk hashCheckpoint) s') : SyncStep senv full s s'
  | pending {s s' : SyncState} {disk : Disk} (hdisk : disk.files.PartOf full)
      (h : Returns (s.acceptPendingSyncCheckpoint senv disk) s') : SyncStep senv full s s'
  /-- The orphans, a proof of stake that was seen, or another part of the node -/
  | books {s s' : SyncState} (hnode : SameChain s.node s'.node)
      (hsync : s'.node.hashSyncCheckpoint = s.node.hashSyncCheckpoint) : SyncStep senv full s s'

/-- The calls that `ProcessBlock` is made of -/
inductive BlockStep (senv : SyncEnv) (full : Files) : SyncState → SyncState → Prop where
  | index {s s' : SyncState} {disk : Disk} {block : CBlock} {nFile nBlockPos : Nat}
      {pindexPrev : CBlockIndex} {pprev : BlockPtr}
      (hprev : s.node.mapBlockIndex block.hashPrevBlock = some (pindexPrev :: pprev))
      (hcheck : block.checkContext senv s.node pindexPrev pprev = .ok ())
      (hdisk : disk.Ok full block) (hpos : disk.writeToDisk = some (nFile, nBlockPos))
      (h : Returns (block.indexBlock senv disk.files nFile nBlockPos s) s') : BlockStep senv full s s'
  | pending {s s' : SyncState} {disk : Disk} (hdisk : disk.files.PartOf full)
      (h : Returns (s.acceptPendingSyncCheckpoint senv disk) s') : BlockStep senv full s s'
  /-- The orphans, or a proof of stake that was seen -/
  | books {s s' : SyncState} (hnode : s'.node = s.node)
      (hpending : s'.hashPendingCheckpoint = s.hashPendingCheckpoint) : BlockStep senv full s s'

section

variable {senv : SyncEnv} {full : Files} {s s' : SyncState} {c : BlockPtr}

/-- What a step keeps and may add. -/
structure StepSafe (senv : SyncEnv) (full : Files) (s s' : NodeState) (c : BlockPtr) : Prop where
  pointers : Pointers senv.toEnv full s'
  checkpoint : KeepsCheckpoint s s' c
  /-- Outside the test network, a block that is new and higher than the checkpoint descends from it. -/
  added : senv.fTestNet = false → ∀ k pindexNew pprev, s.mapBlockIndex k = none →
    s'.mapBlockIndex k = some (pindexNew :: pprev) →
    (∀ pindexSync ∈ c.head?, pindexSync.nHeight < pindexNew.nHeight) → c <:+ pindexNew :: pprev

/-- The node is what `AddToBlockIndex` left: the stake that is seen is not part of it. -/
theorem CBlock.addToBlockIndex_of_indexBlock {disk : Disk} {block : CBlock} {nFile nBlockPos : Nat}
    (h : Returns (block.indexBlock senv disk.files nFile nBlockPos s) s') :
    block.addToBlockIndex senv.toEnv disk.files (block.kernel senv s) nFile nBlockPos s.node
        = .ok s'.node ∨ ∃ e, e.isFalse = true ∧
      block.addToBlockIndex senv.toEnv disk.files (block.kernel senv s) nFile nBlockPos s.node
        = .error (e, s'.node) := by
  have hsee : ∀ t : SyncState, (block.seeStake senv t).node = t.node := by
    intro t
    unfold CBlock.seeStake
    split <;> rfl
  unfold Returns CBlock.indexBlock at h
  rcases h with h | ⟨e, he, h⟩
  · split at h
    · next node hadd =>
      cases h
      rw [hsee]
      exact .inl hadd
    · cases h
  · split at h
    · cases h
    · next e' node hadd =>
      cases h
      rw [hsee]
      refine .inr ⟨e', ?_, hadd⟩
      cases e' <;> first | rfl | exact he

/-- What indexing a block under a known parent has done: nothing, or there is one more entry. -/
theorem CBlock.indexBlock_cases {disk : Disk} {block : CBlock} {nFile nBlockPos : Nat}
    {pindexPrev : CBlockIndex} {pprev : BlockPtr} (hp : Pointers senv.toEnv full s.node)
    (hprev : s.node.mapBlockIndex block.hashPrevBlock = some (pindexPrev :: pprev))
    (hdisk : disk.Ok full block) (hpos : disk.writeToDisk = some (nFile, nBlockPos))
    (h : Returns (block.indexBlock senv disk.files nFile nBlockPos s) s') :
    s'.node = s.node ∨ ∃ p,
      (block.kernel senv s).fill block (block.newIndex senv.toEnv nFile nBlockPos (pindexPrev :: pprev))
        (pindexPrev :: pprev) = .ok p ∧
      TreeEntry senv.toEnv full s.node.mapBlockIndex p.hashBlock p (pindexPrev :: pprev) block ∧
      s.node.mapBlockIndex p.hashBlock = none ∧ Pointers senv.toEnv full s'.node ∧
      TriedBest (s.node.insertIndex p (pindexPrev :: pprev)) (p :: pindexPrev :: pprev) s'.node := by
  have hnode := CBlock.addToBlockIndex_of_indexBlock h
  obtain ⟨x, hx⟩ : ∃ x, block.addToBlockIndex senv.toEnv disk.files (block.kernel senv s) nFile
    nBlockPos s.node = x := ⟨_, rfl⟩
  rw [hx] at hnode
  rcases CBlock.addToBlockIndex_cases hx with ⟨e, rfl⟩ | ⟨p, qs, hqs, hnew, hfill, hcases⟩
  · rcases hnode with hnode | ⟨e', -, hnode⟩
    · cases hnode
    · exact .inl (Prod.mk.inj (Except.error.inj hnode)).2.symm
  · have hget : (s.node.mapBlockIndex block.hashPrevBlock).getD [] = pindexPrev :: pprev := by
      rw [hprev]
      rfl
    have hE : TreeEntry senv.toEnv full s.node.mapBlockIndex p.hashBlock p qs block := by
      rw [← hqs]
      exact treeEntry_newIndex hp.tree (hdisk.2 _ _ hpos).1 (hdisk.2 _ _ hpos).2
        (.inl (by rw [hprev]; rfl)) (by rw [hqs]; exact hfill)
    rw [hget] at hqs
    subst hqs
    have hnew' : s.node.mapBlockIndex p.hashBlock = none := by
      rw [(StakeKernel.fill_ok hfill).1]
      exact hnew
    obtain ⟨hp₁, hkeep⟩ := hp.insertIndex hnew' hE
    refine .inr ⟨p, hfill, hE, hnew', ?_⟩
    rcases hcases with ⟨hx', -⟩ | ⟨hx', -⟩
    · rw [hx'] at hnode
      rcases hnode with hnode | ⟨e', -, hnode⟩
      · rw [← Except.ok.inj hnode]
        exact ⟨hp₁, .inl rfl⟩
      · cases hnode
    · obtain ⟨hok, hfalse⟩ := hp₁.setBestChain disk.files (Lib.PMap.set_self _ _ _)
        (List.cons_ne_nil _ _) { hE with parent := fun hne => hkeep _ _ (hE.parent hne) }
      rw [hx'] at hnode
      rcases hnode with hnode | ⟨e', he', hnode⟩
      · obtain ⟨hw, hp₂⟩ := hok _ hnode
        exact ⟨hp₂, .inr (.inl hw)⟩
      · obtain ⟨hu, hp₂⟩ := hfalse e' _ he' hnode
        exact ⟨hp₂, .inr (.inr hu)⟩

theorem SyncStep.index_safe {disk : Disk} {block : CBlock} {nFile nBlockPos : Nat}
    {pindexPrev : CBlockIndex} {pprev : BlockPtr} (hp : Pointers senv.toEnv full s.node)
    (hc : OnCheckpoint s.node c)
    (hprev : s.node.mapBlockIndex block.hashPrevBlock = some (pindexPrev :: pprev))
    (hcheck : block.checkContext senv s.node pindexPrev pprev = .ok ())
    (hdisk : disk.Ok full block) (hpos : disk.writeToDisk = some (nFile, nBlockPos))
    (h : Returns (block.indexBlock senv disk.files nFile nBlockPos s) s') :
    StepSafe senv full s.node s'.node c := by
  rcases CBlock.indexBlock_cases hp hprev hdisk hpos h with heq | ⟨p, hfill, hE, hnew, hp', htried⟩
  · rw [heq]
    refine ⟨hp, hc.keeps rfl, ?_⟩
    intro _ k pindexNew pprev hnone hsome
    rw [hnone] at hsome
    cases hsome
  · obtain ⟨-, -, -, hheight, -⟩ := StakeKernel.fill_ok hfill
    obtain ⟨hp₁, hkeep⟩ := hp.insertIndex hnew hE
    have hc₁ : OnCheckpoint (s.node.insertIndex p (pindexPrev :: pprev)) c := ⟨hkeep _ _ hc.1, hc.2⟩
    refine ⟨hp', (hc₁.triedBest hp₁ htried).keeps htried.hashSyncCheckpoint, ?_⟩
    rw [htried.mapBlockIndex]
    -- the only new block is the one that passed `CheckSync`
    intro hnet k pindexNew qs hnone hsome hlt
    change (s.node.mapBlockIndex.set p.hashBlock (p :: pindexPrev :: pprev)) k = _ at hsome
    rw [Lib.PMap.set_apply] at hsome
    split at hsome
    · cases hsome
      obtain ⟨pindexSync, rest, rfl⟩ := List.exists_cons_of_ne_nil (hp.ptr_ne_nil hc.1).1
      have hlt := hlt pindexSync rfl
      rw [hheight] at hlt
      unfold CBlock.checkContext at hcheck
      obtain ⟨-, hcheck⟩ := Lib.seq_eq_ok.mp hcheck
      obtain ⟨-, hcheck⟩ := Lib.seq_eq_ok.mp hcheck
      obtain ⟨-, hcheck⟩ := Lib.seq_eq_ok.mp hcheck
      obtain ⟨-, hcheck⟩ := Lib.seq_eq_ok.mp hcheck
      obtain ⟨fSync, hsync, hcheck⟩ := Lib.bind_eq_ok.mp hcheck
      rw [Lib.require_eq_ok] at hcheck
      rw [hcheck] at hsync
      exact (SyncEnv.checkSync_descends hp hnet hprev hc.1 hlt hsync).trans (List.suffix_cons _ _)
    · rw [hnone] at hsome
      cases hsome

/-- `ValidateSyncCheckpoint` lets descendants of the current checkpoint through. -/
theorem validateSyncCheckpoint_ok {hashCheckpoint : Uint256} {s₁ : SyncState} {ptr : BlockPtr}
    (hp : Pointers senv.toEnv full s.node) (hc : OnCheckpoint s.node c)
    (hptr : s.node.mapBlockIndex hashCheckpoint = some ptr)
    (h : SyncState.validateSyncCheckpoint hashCheckpoint s = .ok s₁) :
    s₁ = s ∧ c <:+ ptr ∧ c ≠ ptr := by
  unfold SyncState.validateSyncCheckpoint at h
  rw [hc.1, hptr] at h
  dsimp only at h
  obtain ⟨pindexSync, rest, rfl⟩ := List.exists_cons_of_ne_nil (hp.ptr_ne_nil hc.1).1
  obtain ⟨pindexRecv, pprev, rfl⟩ := List.exists_cons_of_ne_nil (hp.ptr_ne_nil hptr).1
  dsimp only at h
  split at h
  · split at h
    · cases h
    · split at h <;> cases h
  · next hheight =>
    have hsuf := lowerTo_suffix pindexSync.nHeight (pindexRecv :: pprev)
    split at h
    · cases h
    · next q qs hlow =>
      rw [hlow] at hsuf
      split at h
      · next hhash =>
        cases h
        have heq : q :: qs = pindexSync :: rest := by
          refine hp.eq_of_hash hptr (List.cons_ne_nil _ _) hsuf ?_
          show s.node.mapBlockIndex q.hashBlock = _
          rw [hhash]
          exact hc.1
        rw [heq] at hsuf
        refine ⟨rfl, hsuf, ?_⟩
        intro heq'
        cases heq'
        exact hheight le_rfl
      · cases h

theorem validateSyncCheckpoint_node (hashCheckpoint : Uint256) (s : SyncState) :
    (Lib.final (s.validateSyncCheckpoint hashCheckpoint)).node = s.node := by
  unfold SyncState.validateSyncCheckpoint
  repeat' split
  all_goals rfl

/-- Switching to a checkpoint above the current one keeps the current one on the best chain, and
succeeds only when the new one is on it too. -/
theorem switchToCheckpoint_safe {disk : Disk} {caller : String} {hashCheckpoint : Uint256}
    {ptr : BlockPtr} {s₁ : SyncState} (hp : Pointers senv.toEnv full s.node)
    (hc : OnCheckpoint s.node c) (hdisk : disk.files.PartOf full)
    (hptr : s.node.mapBlockIndex hashCheckpoint = some ptr) (hsuf : c <:+ ptr) (hne : c ≠ ptr)
    (h : Returns (s.switchToCheckpoint senv disk caller hashCheckpoint ptr) s₁) :
    Pointers senv.toEnv full s₁.node ∧ OnCheckpoint s₁.node c ∧
      s₁.node.hashSyncCheckpoint = s.node.hashSyncCheckpoint ∧
      s₁.node.mapBlockIndex = s.node.mapBlockIndex ∧
      (s.switchToCheckpoint senv disk caller hashCheckpoint ptr = .ok s₁ →
        ptr <:+ s₁.node.pindexBest) := by
  obtain ⟨p, pprev, rfl⟩ := List.exists_cons_of_ne_nil (hp.ptr_ne_nil hptr).1
  obtain ⟨x, hx⟩ : ∃ x, s.switchToCheckpoint senv disk caller hashCheckpoint (p :: pprev) = x :=
    ⟨_, rfl⟩
  rw [hx] at h ⊢
  unfold SyncState.switchToCheckpoint at hx
  by_cases hmain : s.node.isInMainChain (p :: pprev) = true
  · rw [if_pos hmain] at hx
    subst hx
    rcases h with h | ⟨e, -, h⟩
    · cases h
      exact ⟨hp, hc, rfl, rfl, fun _ => hp.of_isInMainChain hptr hmain⟩
    · cases h
  rw [if_neg hmain] at hx
  cases hread : disk.files.readBlock senv.toEnv (p :: pprev) with
  | none =>
      rw [hread] at hx
      subst hx
      rcases h with h | ⟨e, -, h⟩
      · cases h
      · cases h
        exact ⟨hp, hc, rfl, rfl, fun hok => by cases hok⟩
  | some block =>
      rw [hread] at hx
      dsimp only at hx
      -- the block that was read is the one that was indexed
      obtain ⟨hblock, -⟩ := hdisk.readBlock hread
      obtain ⟨p', pprev', block', heq, hE⟩ := hp.tree _ _ hptr
      cases heq
      have hsame : block = block' := hblock.unique ⟨_, _, rfl, hE.nFile, hE.onDisk⟩
      subst hsame
      have hkey : p.hashBlock = hashCheckpoint := hE.hashBlock
      rw [← hkey] at hE hptr
      have hpprev : pprev ≠ [] := by
        rintro rfl
        rcases List.suffix_cons_iff.mp hsuf with heq | hnil
        · exact hne heq
        · exact (hp.ptr_ne_nil hc.1).1 (List.suffix_nil.mp hnil)
      obtain ⟨hok, hfalse⟩ := hp.setBestChain disk.files hptr hpprev hE
      cases hset : block.setBestChain senv.toEnv disk.files p pprev s.node with
      | ok node =>
          rw [hset] at hx
          subst hx
          obtain ⟨hw, hp₂⟩ := hok _ hset
          rcases h with h | ⟨e, -, h⟩
          · cases h
            refine ⟨hp₂, hc.wentTo hp hw, hw.hashSyncCheckpoint, hw.mapBlockIndex, fun _ => ?_⟩
            show _ <:+ node.pindexBest
            rw [hw.pindexBest]
          · cases h
      | error y =>
          obtain ⟨e, node⟩ := y
          rw [hset] at hx
          dsimp only at hx
          split at hx
          · next he =>
            subst hx
            rcases h with h | ⟨e', -, h⟩
            · cases h
            · cases h
              obtain ⟨hu, hp₂⟩ := hfalse e _ he hset
              exact ⟨hp₂, hc.undone hu, hu.hashSyncCheckpoint, hu.mapBlockIndex,
                fun hok => by cases hok⟩
          · next he =>
            subst hx
            rcases h with h | ⟨e', he', h⟩
            · cases h
            · cases h
              exact absurd he' he

/-- Entering a checkpoint above the current one: the best chain goes through the new one, or the old
one stays. -/
theorem enterCheckpoint_safe {disk : Disk} {caller : String} {hashCheckpoint : Uint256}
    {ptr : BlockPtr} (hp : Pointers senv.toEnv full s.node) (hc : OnCheckpoint s.node c)
    (hdisk : disk.files.PartOf full)
    (hptr : s.node.mapBlockIndex hashCheckpoint = some ptr) (hsuf : c <:+ ptr) (hne : c ≠ ptr)
    (h : Returns (s.enterCheckpoint senv disk caller hashCheckpoint ptr) s') :
    Pointers senv.toEnv full s'.node ∧ KeepsCheckpoint s.node s'.node c ∧
      s'.node.mapBlockIndex = s.node.mapBlockIndex := by
  have hswitch : ∀ s₁, Returns (s.switchToCheckpoint senv disk caller hashCheckpoint ptr) s₁ → _ :=
    fun s₁ => switchToCheckpoint_safe hp hc hdisk hptr hsuf hne
  unfold Returns SyncState.enterCheckpoint at h
  rcases h with h | ⟨e, he, h⟩
  · obtain ⟨s₁, h₁, h⟩ := Lib.bind_eq_ok.mp h
    obtain ⟨s₂, h₂, h⟩ := Lib.bind_eq_ok.mp h
    cases h
    obtain ⟨hp₁, hc₁, hsync₁, hmap₁, hbest⟩ := hswitch s₁ (.inl h₁)
    unfold SyncState.writeSyncCheckpoint at h₂
    split at h₂
    · cases h₂
      refine ⟨⟨hp₁.tree, hp₁.idle, hp₁.noView, hp₁.genesis, hp₁.best, hp₁.hashBestChain, hp₁.next⟩,
        ⟨hc₁.2, ptr, ⟨?_, hbest h₁⟩, .inr ⟨hsuf, hne⟩⟩, hmap₁⟩
      show s₁.node.mapBlockIndex hashCheckpoint = some ptr
      rw [hmap₁]
      exact hptr
    · cases h₂
  · rcases Lib.bind_eq_error.mp h with h | ⟨s₁, h₁, h⟩
    · obtain ⟨hp₁, hc₁, hsync₁, hmap₁, -⟩ := hswitch s' (.inr ⟨e, he, h⟩)
      exact ⟨hp₁, hc₁.keeps hsync₁, hmap₁⟩
    · obtain ⟨hp₁, hc₁, hsync₁, hmap₁, -⟩ := hswitch s₁ (.inl h₁)
      rcases Lib.bind_eq_error.mp h with h | ⟨s₂, -, h⟩
      · unfold SyncState.writeSyncCheckpoint at h
        split at h
        · cases h
        · cases h
          exact ⟨hp₁, hc₁.keeps hsync₁, hmap₁⟩
      · cases h

theorem validateSyncCheckpoint_pending (hashCheckpoint : Uint256) (s : SyncState) :
    (Lib.final (s.validateSyncCheckpoint hashCheckpoint)).hashPendingCheckpoint
      = s.hashPendingCheckpoint := by
  unfold SyncState.validateSyncCheckpoint
  repeat' split
  all_goals rfl

/-- The checkpoint of a message is entered if it is valid. Any other one leaves the node as it is, and
one whose block is not there is pending. -/
theorem processSyncCheckpoint_enters {disk : Disk} {hashCheckpoint : Uint256}
    (hp : Pointers senv.toEnv full s.node) (hc : OnCheckpoint s.node c)
    (h : Returns (s.processSyncCheckpoint senv disk hashCheckpoint) s') :
    (s'.node = s.node ∧ (s'.hashPendingCheckpoint = s.hashPendingCheckpoint ∨
      s'.hashPendingCheckpoint = hashCheckpoint)) ∨
    ∃ caller ptr, s.node.mapBlockIndex hashCheckpoint = some ptr ∧ c <:+ ptr ∧ c ≠ ptr ∧
      Returns (s.enterCheckpoint senv disk caller hashCheckpoint ptr) s' := by
  have hnode := validateSyncCheckpoint_node hashCheckpoint s
  have hpending := validateSyncCheckpoint_pending hashCheckpoint s
  unfold Returns SyncState.processSyncCheckpoint at h
  cases hptr : s.node.mapBlockIndex hashCheckpoint with
  | none =>
      rw [hptr] at h
      rcases h with h | ⟨e, -, h⟩
      · cases h
      · cases h
        exact .inl ⟨rfl, .inr rfl⟩
  | some ptr =>
      rw [hptr] at h
      rcases h with h | ⟨e, he, h⟩
      · obtain ⟨s₁, hvalid, henter⟩ := Lib.bind_eq_ok.mp h
        obtain ⟨rfl, hsuf, hne⟩ := validateSyncCheckpoint_ok hp hc hptr hvalid
        exact .inr ⟨_, ptr, rfl, hsuf, hne, .inl henter⟩
      · rcases Lib.bind_eq_error.mp h with h | ⟨s₁, hvalid, henter⟩
        · rw [h] at hnode hpending
          exact .inl ⟨hnode, .inl hpending⟩
        · obtain ⟨rfl, hsuf, hne⟩ := validateSyncCheckpoint_ok hp hc hptr hvalid
          exact .inr ⟨_, ptr, rfl, hsuf, hne, .inr ⟨e, he, henter⟩⟩

/-- The same for the checkpoint that is pending. One that is not valid is pending no more. -/
theorem acceptPendingSyncCheckpoint_enters {disk : Disk} (hp : Pointers senv.toEnv full s.node)
    (hc : OnCheckpoint s.node c) (h : Returns (s.acceptPendingSyncCheckpoint senv disk) s') :
    (s'.node = s.node ∧ (s'.hashPendingCheckpoint = s.hashPendingCheckpoint ∨
      s'.hashPendingCheckpoint = 0)) ∨
    s.hashPendingCheckpoint ≠ 0 ∧ ∃ caller ptr,
      s.node.mapBlockIndex s.hashPendingCheckpoint = some ptr ∧ c <:+ ptr ∧ c ≠ ptr ∧
      Returns (s.enterCheckpoint senv disk caller s.hashPendingCheckpoint ptr) s' := by
  have hnode := validateSyncCheckpoint_node s.hashPendingCheckpoint s
  unfold Returns SyncState.acceptPendingSyncCheckpoint at h
  split at h
  · rcases h with h | ⟨e, -, h⟩
    · cases h
    · cases h
      exact .inl ⟨rfl, .inl rfl⟩
  · next hzero =>
    split at h
    · rcases h with h | ⟨e, -, h⟩
      · cases h
      · cases h
        exact .inl ⟨rfl, .inl rfl⟩
    · next ptr hptr =>
      split at h
      · next e' s₁ hvalid =>
        rw [hvalid] at hnode
        rcases h with h | ⟨e, -, h⟩
        · cases h
        · cases h
          exact .inl ⟨hnode, .inr rfl⟩
      · next s₁ hvalid =>
        obtain ⟨rfl, hsuf, hne⟩ := validateSyncCheckpoint_ok hp hc hptr hvalid
        exact .inr ⟨hzero, _, ptr, hptr, hsuf, hne, h⟩

/-- A checkpoint that is entered is a descendant of the current one. -/
theorem checkpoint_safe {disk : Disk} {caller : String} {hashCheckpoint : Uint256} {ptr : BlockPtr}
    (hp : Pointers senv.toEnv full s.node) (hc : OnCheckpoint s.node c)
    (hdisk : disk.files.PartOf full) (hptr : s.node.mapBlockIndex hashCheckpoint = some ptr)
    (hsuf : c <:+ ptr) (hne : c ≠ ptr)
    (h : Returns (s.enterCheckpoint senv disk caller hashCheckpoint ptr) s') :
    StepSafe senv full s.node s'.node c := by
  obtain ⟨hp', hk, hmap⟩ := enterCheckpoint_safe hp hc hdisk hptr hsuf hne h
  refine ⟨hp', hk, ?_⟩
  intro _ k pindexNew pprev hnone hsome
  rw [hmap, hnone] at hsome
  cases hsome

/-- A step that changes nothing but the books. -/
theorem SameChain.stepSafe (hp : Pointers senv.toEnv full s.node) (hc : OnCheckpoint s.node c)
    (h : SameChain s.node s'.node)
    (hsync : s'.node.hashSyncCheckpoint = s.node.hashSyncCheckpoint) :
    StepSafe senv full s.node s'.node c := by
  refine ⟨⟨?_, ?_, ?_, ?_, ?_, ?_, ?_⟩, OnCheckpoint.keeps ?_ hsync, ?_⟩
  · rw [h.mapBlockIndex]; exact hp.tree
  · rw [h.txdb]; exact hp.idle
  · rw [h.infos]; exact hp.noView
  · rw [h.pindexGenesisBlock]; exact hp.genesis
  · rw [h.mapBlockIndex, h.pindexBest]; exact hp.best
  · rw [h.hashBestChain, h.pindexBest]; exact hp.hashBestChain
  · rw [h.pnext, h.pindexBest]; exact hp.next
  · unfold OnCheckpoint
    rw [h.mapBlockIndex, hsync, h.pindexBest]
    exact hc
  · intro _ k pindexNew pprev hnone hsome
    rw [h.mapBlockIndex, hnone] at hsome
    cases hsome

theorem sameChain_of_eq {s s' : NodeState} (h : s' = s) : SameChain s s' := by
  subst h
  exact ⟨rfl, rfl, rfl, rfl, rfl, rfl, rfl⟩

/-- Every step is safe. -/
theorem SyncStep.safe (hp : Pointers senv.toEnv full s.node) (hc : OnCheckpoint s.node c)
    (h : SyncStep senv full s s') : StepSafe senv full s.node s'.node c := by
  have hsame : s'.node = s.node → StepSafe senv full s.node s'.node c := fun heq =>
    SameChain.stepSafe hp hc (sameChain_of_eq heq) (by rw [heq])
  cases h with
  | index hprev hcheck hdisk hpos h => exact index_safe hp hc hprev hcheck hdisk hpos h
  | books hnode hsync => exact hnode.stepSafe hp hc hsync
  | checkpoint hdisk h =>
      rcases processSyncCheckpoint_enters hp hc h with ⟨heq, -⟩ | ⟨caller, ptr, hptr, hsuf, hne, h⟩
      · exact hsame heq
      · exact checkpoint_safe hp hc hdisk hptr hsuf hne h
  | pending hdisk h =>
      rcases acceptPendingSyncCheckpoint_enters hp hc h
        with ⟨heq, -⟩ | ⟨-, caller, ptr, hptr, hsuf, hne, h⟩
      · exact hsame heq
      · exact checkpoint_safe hp hc hdisk hptr hsuf hne h

/-! ## A run as a run of steps -/

open Relation

theorem BlockStep.syncStep (h : BlockStep senv full s s') : SyncStep senv full s s' := by
  cases h with
  | index hprev hcheck hdisk hpos h => exact .index hprev hcheck hdisk hpos h
  | pending hdisk h => exact .pending hdisk h
  | books hnode _ => exact .books (sameChain_of_eq hnode) (by rw [hnode])

theorem acceptBlock_steps {disk : Disk} {block : CBlock} (hdisk : disk.Ok full block)
    (h : Returns (block.acceptBlock senv disk s) s') : ReflTransGen (BlockStep senv full) s s' := by
  -- from `AddToBlockIndex` on
  have hstore : ∀ pindexPrev pprev,
      s.node.mapBlockIndex block.hashPrevBlock = some (pindexPrev :: pprev) →
      block.checkContext senv s.node pindexPrev pprev = .ok () →
      Returns (block.storeBlock senv disk s) s' → ReflTransGen (BlockStep senv full) s s' := by
    intro pindexPrev pprev hprev hcheck h
    unfold Returns CBlock.storeBlock at h
    cases hpos : disk.writeToDisk with
    | none =>
        rw [hpos] at h
        rcases h with h | ⟨e, -, h⟩
        · obtain ⟨-, h⟩ := Lib.seq_eq_ok.mp h
          cases h
        · rcases Lib.bind_eq_error.mp h with h | ⟨-, -, h⟩
          · cases (Lib.require_eq_error.mp h).2
            exact .refl
          · cases h
            exact .refl
    | some pos =>
        obtain ⟨nFile, nBlockPos⟩ := pos
        rw [hpos] at h
        have hindex : ∀ s₁, Returns (block.indexBlock senv disk.files nFile nBlockPos s) s₁ →
            BlockStep senv full s s₁ := fun s₁ h₁ => .index hprev hcheck hdisk hpos h₁
        rcases h with h | ⟨e, he, h⟩
        · obtain ⟨-, h⟩ := Lib.seq_eq_ok.mp h
          obtain ⟨s₁, h₁, h⟩ := Lib.bind_eq_ok.mp h
          refine (ReflTransGen.single (hindex s₁ (.inl h₁))).tail (.pending hdisk.1 ?_)
          split at h
          · next hok =>
            cases h
            exact .inl hok
          · next e s₂ herr =>
            split at h
            · next he =>
              cases h
              exact .inr ⟨e, he, herr⟩
            · cases h
        · rcases Lib.bind_eq_error.mp h with h | ⟨-, -, h⟩
          · cases (Lib.require_eq_error.mp h).2
            exact .refl
          · rcases Lib.bind_eq_error.mp h with h | ⟨s₁, h₁, h⟩
            · exact .single (hindex s' (.inr ⟨e, he, h⟩))
            · split at h
              · cases h
              · split at h
                · cases h
                · next hexc =>
                  cases h
                  exact absurd he hexc
  unfold Returns CBlock.acceptBlock at h
  cases hprev : s.node.mapBlockIndex block.hashPrevBlock with
  | none =>
      rw [hprev] at h
      rcases h with h | ⟨e, he, h⟩
      · obtain ⟨-, h⟩ := Lib.seq_eq_ok.mp h
        cases h
      · rcases Lib.bind_eq_error.mp h with h | ⟨-, -, h⟩
        · cases (Lib.require_eq_error.mp h).2
          exact .refl
        · cases h
          exact .refl
  | some ptr =>
      rw [hprev] at h
      cases ptr with
      | nil =>
          rcases h with h | ⟨e, he, h⟩
          · obtain ⟨-, h⟩ := Lib.seq_eq_ok.mp h
            cases h
          · rcases Lib.bind_eq_error.mp h with h | ⟨-, -, h⟩
            · cases (Lib.require_eq_error.mp h).2
              exact .refl
            · cases h
              exact .refl
      | cons pindexPrev pprev =>
          rcases h with h | ⟨e, he, h⟩
          · obtain ⟨-, h⟩ := Lib.seq_eq_ok.mp h
            obtain ⟨hcheck, h⟩ := Lib.seq_eq_ok.mp h
            exact hstore pindexPrev pprev hprev (Lib.mapError_eq_ok.mp hcheck) (.inl h)
          · rcases Lib.bind_eq_error.mp h with h | ⟨-, -, h⟩
            · cases (Lib.require_eq_error.mp h).2
              exact .refl
            · rcases Lib.bind_eq_error.mp h with h | ⟨u, hcheck, h⟩
              · obtain ⟨e', -, heq⟩ := Lib.mapError_eq_error.mp h
                cases heq
                exact .refl
              · exact hstore pindexPrev pprev hprev (Lib.mapError_eq_ok.mp hcheck)
                  (.inr ⟨e, he, h⟩)

theorem resolveOrphans_steps {disk : CBlock → Disk} {hash : Uint256} {r : SyncState × List Uint256}
    (hdisk : ∀ b, (disk b).Ok full b) (h : s.resolveOrphans senv disk hash = .ok r) :
    ReflTransGen (BlockStep senv full) s r.1 := by
  refine Lib.drain_ok_keeps (fun r : SyncState × List Uint256 =>
    ReflTransGen (BlockStep senv full) s r.1) ?_ .refl h
  intro k r₀ r₁ new hI hv
  unfold SyncState.visitPrev at hv
  obtain ⟨r₂, h₂, hv⟩ := Lib.bind_eq_ok.mp hv
  cases hv
  -- the orphans of one key, one after the other
  have hloop : ReflTransGen (BlockStep senv full) s r₂.1 := by
    refine Lib.foldlM_ok_inv (fun _ (r : SyncState × List Uint256) =>
      ReflTransGen (BlockStep senv full) s r.1) ?_ hI h₂
    intro b _ x x' hx hstep
    unfold SyncState.tryOrphan at hstep
    split at hstep
    · next s₁ hacc =>
      cases hstep
      exact (hx.trans (acceptBlock_steps (hdisk b) (.inl hacc))).tail (.books rfl rfl)
    · next e s₁ hacc =>
      split at hstep
      · next he =>
        cases hstep
        exact (hx.trans (acceptBlock_steps (hdisk b) (.inr ⟨e, he, hacc⟩))).tail (.books rfl rfl)
      · cases hstep
  exact hloop.tail (.books rfl rfl)

/-- A call of `ProcessBlock` that returns is a run of the calls it makes. -/
theorem processBlock_steps {disk : CBlock → Disk} {block : CBlock}
    (hdisk : ∀ b, (disk b).Ok full b) (h : Returns (s.processBlock senv disk block) s') :
    ReflTransGen (BlockStep senv full) s s' := by
  have hreceived : BlockStep senv full s (Lib.final (s.checkReceived senv block)) := by
    obtain ⟨m, hm⟩ := SyncState.checkReceived_notesStake senv block s
    rw [hm]
    exact .books rfl rfl
  unfold Returns SyncState.processBlock at h
  cases hc : s.checkReceived senv block with
  | error x =>
      rw [hc] at hreceived h
      rcases h with h | ⟨e, -, h⟩
      · cases h
      · cases h
        exact .single hreceived
  | ok s₁ =>
      rw [hc] at hreceived h
      have hfirst : ReflTransGen (BlockStep senv full) s s₁ := .single hreceived
      simp only [bind, Except.bind] at h
      by_cases horphan : (s₁.node.mapBlockIndex block.hashPrevBlock).isNone = true
      · rw [if_pos horphan] at h
        refine hfirst.tail ?_
        unfold SyncState.shuntOff at h
        rcases h with h | ⟨e, -, h⟩
        · obtain ⟨-, h⟩ := Lib.seq_eq_ok.mp h
          cases h
          exact .books rfl rfl
        · rcases Lib.bind_eq_error.mp h with h | ⟨-, -, h⟩
          · cases (Lib.require_eq_error.mp h).2
            exact .books rfl rfl
          · cases h
      · rw [if_neg horphan] at h
        rcases h with h | ⟨e, he, h⟩
        · obtain ⟨s₂, hacc, h⟩ := Lib.bind_eq_ok.mp h
          obtain ⟨r, hr, h⟩ := Lib.bind_eq_ok.mp h
          cases h
          rw [Lib.mapError_eq_ok] at hacc
          exact (hfirst.trans (acceptBlock_steps (hdisk block) (.inl hacc))).trans
            (resolveOrphans_steps hdisk hr)
        · rcases Lib.bind_eq_error.mp h with h | ⟨s₂, -, h⟩
          · obtain ⟨⟨e', s₂⟩, hacc, heq⟩ := Lib.mapError_eq_error.mp h
            cases heq
            have he' : e'.isFalse = true := by
              cases e' <;> first | rfl | exact he
            exact hfirst.trans (acceptBlock_steps (hdisk block) (.inr ⟨e', he', hacc⟩))
          · rcases Lib.bind_eq_error.mp h with h | ⟨r, -, h⟩
            · rw [SyncState.resolveOrphans_error h] at he
              cases he
            · cases h

theorem exec_steps {op : SyncOp} (hdisk : op.DiskOk full) (h : s.exec senv op = some s') :
    ReflTransGen (SyncStep senv full) s s' := by
  have h : Returns (SyncState.call senv op s) s' := SyncState.exec_eq_some.mp h
  cases op with
  | block disk block => exact ReflTransGen.mono (fun _ _ => BlockStep.syncStep) _ _ (processBlock_steps hdisk h)
  | checkpoint disk hashCheckpoint => exact .single (.checkpoint hdisk h)
  | pending disk => exact .single (.pending hdisk h)
  | other mempool wallets nAdjustedTime =>
      rcases h with h | ⟨e, -, h⟩
      · cases h
        exact .single (.books ⟨rfl, rfl, rfl, rfl, rfl, rfl, rfl⟩ rfl)
      · cases h

theorem run_steps {ops : List SyncOp} (hdisk : ∀ op ∈ ops, op.DiskOk full)
    (h : SyncState.run senv ops s = some s') : ReflTransGen (SyncStep senv full) s s' := by
  induction ops generalizing s with
  | nil =>
      cases h
      exact .refl
  | cons op ops ih =>
      unfold SyncState.run at h
      rw [List.foldlM_cons] at h
      obtain ⟨s₁, h₁, h⟩ := Option.bind_eq_some_iff.mp h
      exact (exec_steps (hdisk op List.mem_cons_self) h₁).trans
        (ih (fun op' hop => hdisk op' (List.mem_cons_of_mem _ hop)) h)

/-- What a sequence of steps keeps. -/
theorem steps_safe (hp : Pointers senv.toEnv full s.node) (hc : OnCheckpoint s.node c)
    (h : ReflTransGen (SyncStep senv full) s s') :
    Pointers senv.toEnv full s'.node ∧ ∃ c', OnCheckpoint s'.node c' ∧ c <:+ c' := by
  induction h with
  | refl => exact ⟨hp, c, hc, List.suffix_rfl⟩
  | tail _ hstep ih =>
      obtain ⟨hp₁, c₁, hc₁, hsuf⟩ := ih
      have hsafe := hstep.safe hp₁ hc₁
      obtain ⟨c₂, hc₂, hmoves⟩ := hsafe.checkpoint.moves
      refine ⟨hsafe.pointers, c₂, hc₂, ?_⟩
      rcases hmoves with ⟨-, rfl⟩ | ⟨hsuf₂, -⟩
      · exact hsuf
      · exact hsuf.trans hsuf₂

/-- In every run of blocks, checkpoint messages and pending checkpoints, in any order, that starts on
its checkpoint: every run is one of the smaller steps, in each state of which the best chain goes
through the checkpoint; a step leaves the checkpoint where it is or moves it to a strict descendant,
never takes its block off the best chain, and outside the test network indexes no higher block that
does not descend from it. No `Reorganize` that succeeds takes the checkpoint's block off. -/
theorem sync_checkpoint_safe (senv : SyncEnv) (full : Files) (s₀ : SyncState)
    (hp : Pointers senv.toEnv full s₀.node) (hc : ∃ c, OnCheckpoint s₀.node c) (ops : List SyncOp)
    (hdisk : ∀ op ∈ ops, op.DiskOk full) :
    (∀ ops₁, ops₁ <+: ops → ∀ s, SyncState.run senv ops₁ s₀ = some s →
        ReflTransGen (SyncStep senv full) s₀ s) ∧
      (∀ s, ReflTransGen (SyncStep senv full) s₀ s → ∃ c, OnCheckpoint s.node c ∧
        ∀ s', SyncStep senv full s s' → StepSafe senv full s.node s'.node c) ∧
      ∀ files pindexNew node node', reorganize senv.toEnv files pindexNew node = .ok node' →
        ∀ pfork, findFork node.pindexBest pindexNew = .ok pfork →
          ∀ x ∈ disconnectList pfork node, BlockPtr.hash x ≠ node.hashSyncCheckpoint := by
  obtain ⟨c₀, hc₀⟩ := hc
  refine ⟨?_, ?_, ?_⟩
  · intro ops₁ hpre s hrun
    exact run_steps (fun op hop => hdisk op (hpre.subset hop)) hrun
  · intro s hsteps
    obtain ⟨hp', c, hc', -⟩ := steps_safe hp hc₀ hsteps
    exact ⟨c, hc', fun s' hstep => hstep.safe hp' hc'⟩
  · intro files pindexNew node node' h pfork hfork x hx
    obtain ⟨pfork', ⟨-, -, -, hsync⟩, hfork'⟩ := reorganize_leavesBy h
    rw [hfork] at hfork'
    cases hfork'
    exact hsync x hx

end

/-! ### A checkpoint on the other branch

The checkpoint comes before its block, which is on a branch shorter than the node's. -/

theorem pointers_syncStart {full : Files} (honDisk : full.block 1 0 = some forkGenesis) :
    Pointers Env.plain full syncStart.node := by
  refine ⟨treeInv_syncStart rfl rfl honDisk, rfl, rfl, ?_, ?_, ?_, ?_⟩
  · decide
  · decide
  · decide
  · intro k ptr hk
    cases hk

/-- A block with hash `nNonce + 1`. -/
def timedBlock (nNonce hashPrevBlock nTime : Nat) : CBlock :=
  { forkBlock nNonce hashPrevBlock [forkCoinbase nNonce COIN] with nTime := nTime }

/-- Where the blocks are written: two on the genesis block, then the checkpoint on it, then one more on
the longer branch. -/
def pendingBlocks : List (CBlock × Nat) :=
  [(timedBlock 1 1 6, 1000), (timedBlock 2 2 7, 2000), (timedBlock 3 1 6, 3000),
    (timedBlock 4 3 8, 4000)]

def pendingFiles : Files where
  block nFile nBlockPos :=
    if (nFile, nBlockPos) = (1, 0) then some forkGenesis
    else if nFile = 1 then (pendingBlocks.find? fun x => x.2 == nBlockPos).map Prod.fst
    else none
  tx _ := none

def pendingDisk (block : CBlock) : Disk where
  files := pendingFiles
  writeToDisk := (pendingBlocks.find? fun x => x.1 == block).map fun x => (1, x.2)

def pendingRun : List SyncOp :=
  .checkpoint { files := pendingFiles, writeToDisk := none } 4
    :: pendingBlocks.map fun x => .block pendingDisk x.1

theorem pendingFiles_partOf : pendingFiles.PartOf pendingFiles := ⟨fun _ _ _ h => h, fun _ _ h => h⟩

theorem pendingDisk_ok (block : CBlock) : (pendingDisk block).Ok pendingFiles block := by
  refine ⟨pendingFiles_partOf, fun nFile nBlockPos h => ?_⟩
  obtain ⟨x, hfind, heq⟩ := Option.map_eq_some_iff.mp h
  obtain ⟨rfl, rfl⟩ := Prod.mk.inj heq
  obtain rfl : x.1 = block := by simpa using List.find?_some hfind
  refine ⟨by decide, ?_⟩
  have hall : ∀ x ∈ pendingBlocks, pendingFiles.block 1 x.2 = some x.1 := by decide
  exact hall x (List.mem_of_find?_eq_some hfind)

/-- The node leaves its branch for the checkpoint, and takes no more blocks on it. -/
theorem sync_checkpoint_safe_pendingRun :
    ∃ s, SyncState.run plainSync pendingRun syncStart = some s ∧
      s.node.hashSyncCheckpoint = 4 ∧ BlockPtr.hash s.node.pindexBest = 4 ∧
      (s.node.mapBlockIndex 3).isSome = true ∧ s.node.mapBlockIndex 5 = none ∧
      ∃ c, OnCheckpoint s.node c := by
  have hdisk : ∀ op ∈ pendingRun, op.DiskOk pendingFiles := by
    intro op hop
    rcases List.mem_cons.mp hop with rfl | hop
    · exact pendingFiles_partOf
    · obtain ⟨x, -, rfl⟩ := List.mem_map.mp hop
      exact pendingDisk_ok
  obtain ⟨hsteps, hsafe, -⟩ := sync_checkpoint_safe plainSync pendingFiles syncStart
    (pointers_syncStart rfl) ⟨[indexG], rfl, List.suffix_rfl⟩ pendingRun hdisk
  have hrun : (SyncState.run plainSync pendingRun syncStart).map (fun s =>
      (s.node.hashSyncCheckpoint, BlockPtr.hash s.node.pindexBest,
        (s.node.mapBlockIndex 3).isSome, (s.node.mapBlockIndex 5).isNone))
      = some (4, 4, true, true) := by decide +kernel
  obtain ⟨s, hs, heq⟩ := Option.map_eq_some_iff.mp hrun
  obtain ⟨hsync, hbest, hindexed, hrejected⟩ := by simpa only [Prod.mk.injEq] using heq
  obtain ⟨c, hc, -⟩ := hsafe s (hsteps _ List.prefix_rfl s hs)
  exact ⟨s, hs, hsync, hbest, hindexed, Option.isNone_iff_eq_none.mp hrejected, c, hc⟩

end ShinyCoin

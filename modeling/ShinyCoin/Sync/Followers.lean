import ShinyCoin.Sync.Safety
import ShinyCoin.Chain.Locator

/-!
# Nodes under one master

Nodes that take their checkpoints from one master, each with its own blocks, messages and disk, in its
own order. The checkpoints the master signs lie on one branch. Then any two nodes, whenever they are
looked at, have the lower one of their two checkpoints on both their best chains, and so the same
chain up to there.
-/

namespace ShinyCoin

/-! ## What the calls keep -/

/-- The checkpoint, and the one that is pending, are the master's. -/
structure Named (M : Set Uint256) (s : SyncState) : Prop where
  current : s.node.hashSyncCheckpoint ∈ M
  pending : s.hashPendingCheckpoint ≠ 0 → s.hashPendingCheckpoint ∈ M

/-- What a node under the master keeps -/
structure Obeys (senv : SyncEnv) (full : Files) (M : Set Uint256) (s : SyncState) : Prop where
  pointers : Pointers senv.toEnv full s.node
  onCheckpoint : ∃ c, OnCheckpoint s.node c
  named : Named M s

section

variable {senv : SyncEnv} {full : Files} {M : Set Uint256} {s s' : SyncState} {block : CBlock}
  {disk : Disk}

/-- A step is safe as such; what is left is whose the checkpoint is. -/
theorem Obeys.step (h : Obeys senv full M s) (hstep : SyncStep senv full s s') (hnamed : Named M s') :
    Obeys senv full M s' := by
  obtain ⟨c, hc⟩ := h.onCheckpoint
  have hsafe := hstep.safe h.pointers hc
  obtain ⟨c', hc', -⟩ := hsafe.checkpoint.moves
  exact ⟨hsafe.pointers, ⟨c', hc'⟩, hnamed⟩

/-- The books, with the same checkpoint and the same pending one -/
theorem Obeys.books (h : Obeys senv full M s) (hnode : s'.node = s.node)
    (hpending : s'.hashPendingCheckpoint = s.hashPendingCheckpoint) : Obeys senv full M s' := by
  refine h.step (.books (sameChain_of_eq hnode) (by rw [hnode])) ⟨?_, ?_⟩
  · rw [hnode]
    exact h.named.current
  · rw [hpending]
    exact h.named.pending

/-- Entering a checkpoint: it is the new one, or the old one stays. -/
theorem enterCheckpoint_named {caller : String} {hashCheckpoint : Uint256} {ptr c : BlockPtr}
    (h : Obeys senv full M s) (hdisk : disk.files.PartOf full)
    (hc : OnCheckpoint s.node c) (hptr : s.node.mapBlockIndex hashCheckpoint = some ptr)
    (hsuf : c <:+ ptr) (hne : c ≠ ptr) (hM : hashCheckpoint ∈ M)
    (hret : Returns (s.enterCheckpoint senv disk caller hashCheckpoint ptr) s') : Named M s' := by
  have hswitch : ∀ s₁, Returns (s.switchToCheckpoint senv disk caller hashCheckpoint ptr) s₁ →
      s₁.node.hashSyncCheckpoint = s.node.hashSyncCheckpoint :=
    fun s₁ h₁ => (switchToCheckpoint_safe h.pointers hc hdisk hptr hsuf hne h₁).2.2.1
  have hpending : (Lib.final (s.switchToCheckpoint senv disk caller hashCheckpoint
      ptr)).hashPendingCheckpoint = s.hashPendingCheckpoint := by
    unfold SyncState.switchToCheckpoint
    split
    · rfl
    · split
      · rfl
      · rfl
      · split
        · rfl
        · split <;> rfl
  unfold Returns SyncState.enterCheckpoint at hret
  rcases hret with hret | ⟨e, he, hret⟩
  · obtain ⟨s₁, h₁, hret⟩ := Lib.bind_eq_ok.mp hret
    obtain ⟨s₂, h₂, hret⟩ := Lib.bind_eq_ok.mp hret
    cases hret
    unfold SyncState.writeSyncCheckpoint at h₂
    split at h₂
    · cases h₂
      exact ⟨hM, fun hzero => absurd rfl hzero⟩
    · cases h₂
  · rcases Lib.bind_eq_error.mp hret with hret | ⟨s₁, h₁, hret⟩
    · rw [hret] at hpending
      have hsame := hswitch s' (.inr ⟨e, he, hret⟩)
      refine ⟨hsame ▸ h.named.current, ?_⟩
      rw [show s'.hashPendingCheckpoint = _ from hpending]
      exact h.named.pending
    · rw [h₁] at hpending
      have hsame := hswitch s₁ (.inl h₁)
      rcases Lib.bind_eq_error.mp hret with hret | ⟨s₂, h₂, hret⟩
      · unfold SyncState.writeSyncCheckpoint at hret
        split at hret
        · cases hret
        · cases hret
          refine ⟨hsame ▸ h.named.current, ?_⟩
          rw [show s'.hashPendingCheckpoint = _ from hpending]
          exact h.named.pending
      · cases hret

/-- A message of the master -/
theorem Obeys.checkpoint (h : Obeys senv full M s) (hdisk : disk.files.PartOf full)
    {hashCheckpoint : Uint256} (hM : hashCheckpoint ∈ M)
    (hret : Returns (s.processSyncCheckpoint senv disk hashCheckpoint) s') :
    Obeys senv full M s' := by
  refine h.step (.checkpoint hdisk hret) ?_
  obtain ⟨c, hc⟩ := h.onCheckpoint
  rcases processSyncCheckpoint_enters h.pointers hc hret
    with ⟨hnode, hpending⟩ | ⟨caller, ptr, hptr, hsuf, hne, henter⟩
  · refine ⟨?_, fun hzero => ?_⟩
    · rw [hnode]
      exact h.named.current
    · rcases hpending with hpending | hpending
      · rw [hpending] at hzero ⊢
        exact h.named.pending hzero
      · rw [hpending]
        exact hM
  · exact enterCheckpoint_named h hdisk hc hptr hsuf hne hM henter

theorem Obeys.acceptPending (h : Obeys senv full M s) (hdisk : disk.files.PartOf full)
    (hret : Returns (s.acceptPendingSyncCheckpoint senv disk) s') : Obeys senv full M s' := by
  refine h.step (.pending hdisk hret) ?_
  obtain ⟨c, hc⟩ := h.onCheckpoint
  rcases acceptPendingSyncCheckpoint_enters h.pointers hc hret
    with ⟨hnode, hpending⟩ | ⟨hset, caller, ptr, hptr, hsuf, hne, henter⟩
  · refine ⟨?_, fun hzero => ?_⟩
    · rw [hnode]
      exact h.named.current
    · rcases hpending with hpending | hpending
      · rw [hpending] at hzero ⊢
        exact h.named.pending hzero
      · exact absurd hpending hzero
  · exact enterCheckpoint_named h hdisk hc hptr hsuf hne (h.named.pending hset) henter

theorem Obeys.index (h : Obeys senv full M s) {nFile nBlockPos : Nat} {pindexPrev : CBlockIndex}
    {pprev : BlockPtr} (hprev : s.node.mapBlockIndex block.hashPrevBlock = some (pindexPrev :: pprev))
    (hcheck : block.checkContext senv s.node pindexPrev pprev = .ok ())
    (hdisk : disk.Ok full block) (hpos : disk.writeToDisk = some (nFile, nBlockPos))
    (hret : Returns (block.indexBlock senv disk.files nFile nBlockPos s) s') :
    Obeys senv full M s' := by
  refine h.step (.index hprev hcheck hdisk hpos hret) ?_
  have hsync : s'.node.hashSyncCheckpoint = s.node.hashSyncCheckpoint := by
    rcases CBlock.indexBlock_cases h.pointers hprev hdisk hpos hret with heq | ⟨p, -, -, -, -, htried⟩
    · rw [heq]
    · exact htried.hashSyncCheckpoint
  have hpending : s'.hashPendingCheckpoint = s.hashPendingCheckpoint := by
    have hsee : ∀ t, (block.seeStake senv t).hashPendingCheckpoint = t.hashPendingCheckpoint := by
      intro t
      unfold CBlock.seeStake
      split <;> rfl
    unfold Returns CBlock.indexBlock at hret
    rcases hret with hret | ⟨e, -, hret⟩
    · split at hret
      · cases hret
        exact hsee _
      · cases hret
    · split at hret
      · cases hret
      · cases hret
        exact hsee _
  exact ⟨hsync ▸ h.named.current, hpending ▸ h.named.pending⟩

theorem Obeys.blockStep (h : Obeys senv full M s) (hstep : BlockStep senv full s s') :
    Obeys senv full M s' := by
  cases hstep with
  | index hprev hcheck hdisk hpos hret => exact h.index hprev hcheck hdisk hpos hret
  | pending hdisk hret => exact h.acceptPending hdisk hret
  | books hnode hpending => exact h.books hnode hpending

theorem Obeys.processBlock {disk : CBlock → Disk} (h : Obeys senv full M s)
    (hdisk : ∀ b, (disk b).Ok full b) (hret : Returns (s.processBlock senv disk block) s') :
    Obeys senv full M s' := by
  have hsteps := processBlock_steps hdisk hret
  clear hret
  induction hsteps with
  | refl => exact h
  | tail _ hstep ih => exact ih.blockStep hstep

/-- Whose messages a call takes -/
def SyncOp.NamedIn (M : Set Uint256) : SyncOp → Prop
  | .checkpoint _ hashCheckpoint => hashCheckpoint ∈ M
  | _ => True

theorem Obeys.exec {op : SyncOp} (h : Obeys senv full M s) (hdisk : op.DiskOk full)
    (hnamed : op.NamedIn M) (hexec : s.exec senv op = some s') : Obeys senv full M s' := by
  have hret : Returns (SyncState.call senv op s) s' := SyncState.exec_eq_some.mp hexec
  cases op with
  | block disk block => exact h.processBlock hdisk hret
  | checkpoint disk hashCheckpoint => exact h.checkpoint hdisk hnamed hret
  | pending disk => exact h.acceptPending hdisk hret
  | other mempool wallets nAdjustedTime =>
      rcases hret with hret | ⟨e, -, hret⟩
      · cases hret
        exact h.step (.books ⟨rfl, rfl, rfl, rfl, rfl, rfl, rfl⟩ rfl) ⟨h.named.current, h.named.pending⟩
      · cases hret

theorem Obeys.run {ops : List SyncOp} (h : Obeys senv full M s) (hdisk : ∀ op ∈ ops, op.DiskOk full)
    (hnamed : ∀ op ∈ ops, op.NamedIn M) (hrun : SyncState.run senv ops s = some s') :
    Obeys senv full M s' := by
  induction ops generalizing s with
  | nil =>
      cases hrun
      exact h
  | cons op ops ih =>
      unfold SyncState.run at hrun
      rw [List.foldlM_cons] at hrun
      obtain ⟨s₁, h₁, hrun⟩ := Option.bind_eq_some_iff.mp hrun
      exact ih (h.exec (hdisk op List.mem_cons_self) (hnamed op List.mem_cons_self) h₁)
        (fun op' hop => hdisk op' (List.mem_cons_of_mem _ hop))
        (fun op' hop => hnamed op' (List.mem_cons_of_mem _ hop)) hrun

end

/-! ## Two nodes -/

/-- What hashes tell about the blocks on disk: a block's parent, and that no hash is 0. -/
structure ParentsOf (parent : Uint256 → Uint256) (senv : SyncEnv) (full : Files) : Prop where
  hashPrevBlock : ∀ nFile nBlockPos block, full.block nFile nBlockPos = some block →
    parent (senv.getIDHash block.toCBlockHeader) = block.hashPrevBlock
  ne_zero : ∀ nFile nBlockPos block, full.block nFile nBlockPos = some block →
    senv.getIDHash block.toCBlockHeader ≠ 0

section

variable {parent : Uint256 → Uint256} {senv senv' : SyncEnv} {full full' : Files} {M : Set Uint256}
  {s s' : SyncState} {ptr ptr' : BlockPtr}

/-- A block's parent, in the index of a node -/
theorem ParentsOf.tail (hparents : ParentsOf parent senv full) {tree : Lib.PMap Uint256 BlockPtr}
    (htree : TreeInv senv.toEnv full tree) {h : Uint256} (hptr : tree h = some ptr) :
    ∃ p pprev, ptr = p :: pprev ∧ p.hashBlock = h ∧ h ≠ 0 ∧ BlockPtr.hash pprev = parent h ∧
      (pprev ≠ [] → tree (parent h) = some pprev) := by
  obtain ⟨p, pprev, block, rfl, hE⟩ := htree h ptr hptr
  have hprev := hparents.hashPrevBlock _ _ _ hE.onDisk
  rw [hE.getIDHash, hE.hashPrevBlock] at hprev
  refine ⟨p, pprev, rfl, hE.hashBlock, ?_, hprev.symm, fun hne => ?_⟩
  · rw [← hE.getIDHash]
    exact hparents.ne_zero _ _ _ hE.onDisk
  · rw [hprev]
    exact hE.parent hne

/-- Nodes that have the same block have it with the same ancestors. -/
theorem ParentsOf.hashes_eq (hparents : ParentsOf parent senv full)
    (hparents' : ParentsOf parent senv' full') {tree tree' : Lib.PMap Uint256 BlockPtr}
    (htree : TreeInv senv.toEnv full tree) (htree' : TreeInv senv'.toEnv full' tree') {h : Uint256}
    (hptr : tree h = some ptr) (hptr' : tree' h = some ptr') :
    BlockPtr.hashes ptr = BlockPtr.hashes ptr' := by
  induction ptr generalizing h ptr' with
  | nil =>
      obtain ⟨p, pprev, heq, -⟩ := hparents.tail htree hptr
      cases heq
  | cons q qs ih =>
      obtain ⟨p, pprev, heq, hhash, -, hprev, hup⟩ := hparents.tail htree hptr
      obtain ⟨p', pprev', rfl, hhash', -, hprev', hup'⟩ := hparents'.tail htree' hptr'
      cases heq
      have hrest : BlockPtr.hashes qs = BlockPtr.hashes pprev' := by
        by_cases hne : qs = []
        · subst hne
          by_cases hne' : pprev' = []
          · rw [hne']
          · -- a parent of hash 0 is not in the index
            obtain ⟨-, -, -, -, hzero, -⟩ := hparents'.tail htree' (hup' hne')
            exact absurd hprev.symm hzero
        · by_cases hne' : pprev' = []
          · subst hne'
            obtain ⟨-, -, -, -, hzero, -⟩ := hparents.tail htree (hup hne)
            exact absurd hprev'.symm hzero
          · exact ih (hup hne) (hup' hne')
      show q.hashBlock :: BlockPtr.hashes qs = p'.hashBlock :: BlockPtr.hashes pprev'
      rw [hrest, hhash, hhash']

/-- An ancestor's ancestors are among a block's, though the two are on different nodes. -/
theorem ParentsOf.hashes_suffix (hparents : ParentsOf parent senv full)
    (hparents' : ParentsOf parent senv' full') (hzero : parent 0 = 0)
    {tree tree' : Lib.PMap Uint256 BlockPtr} (htree : TreeInv senv.toEnv full tree)
    (htree' : TreeInv senv'.toEnv full' tree') {h h' : Uint256} (hptr : tree h = some ptr)
    (hptr' : tree' h' = some ptr') {n : Nat} (hn : parent^[n] h' = h) :
    BlockPtr.hashes ptr <:+ BlockPtr.hashes ptr' := by
  induction n generalizing h' ptr' with
  | zero =>
      have hsame : h' = h := hn
      subst hsame
      rw [hparents.hashes_eq hparents' htree htree' hptr hptr']
  | succ n ih =>
      rw [Function.iterate_succ_apply] at hn
      obtain ⟨p', pprev', rfl, -, -, hprev', hup'⟩ := hparents'.tail htree' hptr'
      by_cases hne : pprev' = []
      · -- above the genesis block there is nothing
        subst hne
        have hstop : parent^[n] (0 : Uint256) = 0 := Function.iterate_fixed hzero n
        obtain ⟨-, -, -, -, hne, -⟩ := hparents.tail htree hptr
        rw [← hprev', show BlockPtr.hash [] = (0 : Uint256) from rfl, hstop] at hn
        exact absurd hn.symm hne
      · exact (ih (hup' hne) hn).trans (ShinyCoin.hashes_suffix (List.suffix_cons p' pprev'))

/-- The checkpoints that a master signs: blocks of one branch -/
structure Master (parent : Uint256 → Uint256) (M : Set Uint256) : Prop where
  zero : parent 0 = 0
  branch : ∀ h ∈ M, ∀ h' ∈ M, (∃ n, parent^[n] h' = h) ∨ ∃ n, parent^[n] h = h'

/-- A state that a node comes to that starts on a checkpoint of the master's and takes no others: its
blocks, its disk and the order of what happens are its own. -/
def Follower (parent : Uint256 → Uint256) (M : Set Uint256) (senv : SyncEnv) (s : SyncState) : Prop :=
  ∃ full s₀ ops, ParentsOf parent senv full ∧ Obeys senv full M s₀ ∧
    (∀ op ∈ ops, op.DiskOk full ∧ op.NamedIn M) ∧ SyncState.run senv ops s₀ = some s

theorem Follower.obeys (h : Follower parent M senv s) :
    ∃ full, ParentsOf parent senv full ∧ Obeys senv full M s := by
  obtain ⟨full, s₀, ops, hparents, hstart, hops, hrun⟩ := h
  exact ⟨full, hparents, hstart.run (fun op hop => (hops op hop).1) (fun op hop => (hops op hop).2) hrun⟩

/-- Two nodes of one master, each at any time of any run of its own: the lower one of the two
checkpoints is on both best chains, with the same blocks below it. -/
theorem followers_agree (parent : Uint256 → Uint256) (M : Set Uint256) (hmaster : Master parent M)
    (senv senv' : SyncEnv) (s s' : SyncState) (h : Follower parent M senv s)
    (h' : Follower parent M senv' s') :
    ∃ c c', OnCheckpoint s.node c ∧ OnCheckpoint s'.node c' ∧
      ((BlockPtr.hashes c <:+ BlockPtr.hashes c' ∧
          BlockPtr.hashes c <:+ BlockPtr.hashes s'.node.pindexBest) ∨
        (BlockPtr.hashes c' <:+ BlockPtr.hashes c ∧
          BlockPtr.hashes c' <:+ BlockPtr.hashes s.node.pindexBest)) := by
  obtain ⟨full, hparents, hobeys⟩ := h.obeys
  obtain ⟨full', hparents', hobeys'⟩ := h'.obeys
  obtain ⟨c, hc⟩ := hobeys.onCheckpoint
  obtain ⟨c', hc'⟩ := hobeys'.onCheckpoint
  have htree := hobeys.pointers.tree
  have htree' := hobeys'.pointers.tree
  refine ⟨c, c', hc, hc', ?_⟩
  rcases hmaster.branch _ hobeys.named.current _ hobeys'.named.current with ⟨n, hn⟩ | ⟨n, hn⟩
  · have hsuf := hparents.hashes_suffix hparents' hmaster.zero htree htree' hc.1 hc'.1 hn
    exact .inl ⟨hsuf, hsuf.trans (hashes_suffix hc'.2)⟩
  · have hsuf := hparents'.hashes_suffix hparents hmaster.zero htree' htree hc'.1 hc.1 hn
    exact .inr ⟨hsuf, hsuf.trans (hashes_suffix hc.2)⟩

end

/-! ### One node that has the master's message and one that has not -/

def forkParent : Uint256 → Uint256
  | 2 => 1
  | 3 => 2
  | 4 => 1
  | 5 => 3
  | 6 => 2
  | 7 => 6
  | 8 => 3
  | _ => 0

theorem parentsOf_forkParent : ParentsOf forkParent plainSync forkFiles := by
  have hall : ∀ nFile nBlockPos block, forkFiles.block nFile nBlockPos = some block →
      block ∈ [forkGenesis, blockA1, blockA2, blockB1, blockA3, blockC2, blockC3, blockD3] := by
    intro nFile nBlockPos block h
    unfold forkFiles at h
    dsimp only at h
    split at h <;> cases h <;> simp
  refine ⟨fun nFile nBlockPos block h => ?_, fun nFile nBlockPos block h => Nat.succ_ne_zero _⟩
  have hmem := hall nFile nBlockPos block h
  simp only [List.mem_cons, List.not_mem_nil, or_false] at hmem
  rcases hmem with rfl | rfl | rfl | rfl | rfl | rfl | rfl | rfl <;> rfl

theorem master_forkParent : Master forkParent {1, 2} := by
  refine ⟨rfl, ?_⟩
  rintro h (rfl | rfl) h' (rfl | rfl)
  · exact .inl ⟨0, rfl⟩
  · exact .inl ⟨1, rfl⟩
  · exact .inr ⟨1, rfl⟩
  · exact .inl ⟨0, rfl⟩

/-- A node on `blockA1` with its checkpoint at the genesis block. -/
def checkpointStart : SyncState := { node := { stateA1 with hashSyncCheckpoint := 1 } }

def checkpointRun : List SyncOp := [.checkpoint { files := forkFiles, writeToDisk := none } 2]

theorem obeys_checkpointStart : Obeys plainSync forkFiles {1, 2} checkpointStart := by
  have hinv : NodeInv Env.plain forkFiles checkpointStart.node := by
    refine SameChain.nodeInv ⟨rfl, rfl, rfl, rfl, rfl, rfl, rfl⟩ (s := stateA1) ?_
    exact (reachable_stateA1.inv (kept_indexLedger _ _) ⟨rfl, trivial⟩ plain_getIDHash_ne_zero
      (fun _ _ _ _ h => h)).1
  have hbest : checkpointStart.node.pindexBest = [indexA1, indexG] := by decide
  refine ⟨hinv.pointers (by rw [hbest]; exact List.cons_ne_nil _ _), ⟨[indexG], by decide, ?_⟩,
    .inl rfl, fun h => absurd rfl h⟩
  rw [hbest]
  exact List.suffix_cons _ _

theorem followers_agree_checkpointStart :
    ∃ s, SyncState.run plainSync checkpointRun checkpointStart = some s ∧
      ∃ c c', OnCheckpoint s.node c ∧ OnCheckpoint checkpointStart.node c' ∧
        (BlockPtr.hashes c <:+ BlockPtr.hashes c' ∨ BlockPtr.hashes c' <:+ BlockPtr.hashes c) := by
  have hops : ∀ op ∈ checkpointRun, op.DiskOk forkFiles ∧ op.NamedIn {1, 2} := by
    intro op hop
    rw [List.mem_singleton.mp hop]
    exact ⟨forkFiles_partOf, .inr rfl⟩
  have hsome : (SyncState.run plainSync checkpointRun checkpointStart).isSome = true := by
    decide
  obtain ⟨s, hs⟩ := Option.isSome_iff_exists.mp hsome
  have hnone : ∀ op ∈ ([] : List SyncOp), op.DiskOk forkFiles ∧ op.NamedIn {1, 2} :=
    fun op hop => absurd hop List.not_mem_nil
  obtain ⟨c, c', hc, hc', hcases⟩ := followers_agree forkParent {1, 2} master_forkParent plainSync
    plainSync s checkpointStart
    ⟨forkFiles, checkpointStart, checkpointRun, parentsOf_forkParent, obeys_checkpointStart, hops, hs⟩
    ⟨forkFiles, checkpointStart, [], parentsOf_forkParent, obeys_checkpointStart, hnone, rfl⟩
  exact ⟨s, hs, c, c', hc, hc', hcases.imp And.left And.left⟩

end ShinyCoin

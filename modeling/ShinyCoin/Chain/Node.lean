import ShinyCoin.Chain.Switch

/-!
# Runs of a node

A node indexes blocks and calls `SetBestChain`, in any order; other parts of it change the memory
pool, the wallets, the clock and the sync checkpoint meanwhile. `NodeInv` is what ties the chain
pointers to the databases between two calls.

A call keeps it unless it postpones a block that then fails: `SetBestChain` goes on to make the last
block of the branch the best one, whether or not the loop over the postponed blocks got that far.
-/

namespace ShinyCoin

/-! ## Between two calls -/

/-- The chain pointers and the databases agree. -/
structure NodeInv (env : Env) (full : Files) (s : NodeState) : Prop where
  tree : TreeInv env full s.mapBlockIndex
  idle : s.txdb.vTxn = []
  noView : s.infos.inTransaction = false
  best : s.pindexBest ≠ [] → s.mapBlockIndex (BlockPtr.hash s.pindexBest) = some s.pindexBest
  genesis : s.pindexGenesisBlock = [] ∧ s.pindexBest = [] ∨
    s.mapBlockIndex env.hashGenesisBlock = some s.pindexGenesisBlock ∧ s.pindexBest ≠ []
  hashBestChain : s.hashBestChain = BlockPtr.hash s.pindexBest
  dbHashBestChain : s.txdb.data.hashBestChain = BlockPtr.hash s.pindexBest
  chain : OnChain full s.txdb.data s.pindexBest
  next : NextInv s.pnext s.pindexBest

theorem NodeInv.inTree {env : Env} {full : Files} {s : NodeState} (h : NodeInv env full s) :
    InTree s.mapBlockIndex s.pindexBest := by
  by_cases hne : s.pindexBest = []
  · rw [hne]
    simp [InTree, BlockPtr.path]
  · exact h.tree.inTree (h.best hne)

theorem NodeInv.heights {env : Env} {full : Files} {s : NodeState} (h : NodeInv env full s) :
    Heights s.pindexBest := by
  by_cases hne : s.pindexBest = []
  · rw [hne]
    trivial
  · exact h.tree.heights (h.best hne)

/-- The node once `SetBestChain` has opened its transactions. -/
def NodeState.inView (s : NodeState) : NodeState :=
  { s with
    txdb := s.txdb.txnBegin
    infos := { s.infos with curTransaction := some s.infos.db, byteEstimate := 0 } }

theorem NodeInv.ready {env : Env} {full : Files} {I : LedgerInv} {s : NodeState}
    (h : NodeInv env full s) (hI : I.Holds s) : Ready full I s.inView.pindexBest s.inView :=
  ⟨⟨h.chain.path, h.chain.onDisk⟩, h.next,
    ⟨s.txdb.data, by simp [NodeState.inView, CTxDB.txnBegin, h.idle]⟩, rfl, hI⟩

theorem CBlock.setBestChain_eq {env : Env} {files : Files} {block : CBlock} {p : CBlockIndex}
    {pprev : BlockPtr} {s : NodeState} (h : s.infos.inTransaction = false) :
    block.setBestChain env files p pprev s
      = match (block.switchTo env files p pprev s.inView).bind (block.newBest env p pprev) with
        | .error (e, s) => .error (e, s.unwind)
        | .ok s => .ok s := by
  rw [setBestChain, CTxInfoStore.beginTransaction, h, if_neg Bool.false_ne_true]
  rfl

/-! ## A call that fails -/

/-- What a failed call leaves behind: the wallets, the counters of blocks and the record of an
invalid chain may have changed, nothing else. -/
structure Undone (s s' : NodeState) : Prop where
  mapBlockIndex : s'.mapBlockIndex = s.mapBlockIndex
  pnext : s'.pnext = s.pnext
  pindexGenesisBlock : s'.pindexGenesisBlock = s.pindexGenesisBlock
  hashBestChain : s'.hashBestChain = s.hashBestChain
  pindexBest : s'.pindexBest = s.pindexBest
  mempool : s'.mempool = s.mempool
  hashSyncCheckpoint : s'.hashSyncCheckpoint = s.hashSyncCheckpoint
  nAdjustedTime : s'.nAdjustedTime = s.nAdjustedTime
  txdb : ∃ trust, s'.txdb = { data := { s.txdb.data with bnBestInvalidTrust := trust } }
  infos : s'.infos = { db := s.infos.db }

theorem Failing.undone {s s' : NodeState} (h : Failing s.inView s.txdb.data s') :
    Undone s s'.unwind := by
  have hm := h.memory
  refine ⟨hm.mapBlockIndex, hm.pnext, hm.pindexGenesisBlock, hm.hashBestChain, hm.pindexBest,
    hm.mempool, hm.hashSyncCheckpoint, hm.nAdjustedTime, ?_, ?_⟩
  · rcases h.pending with hv | ⟨trust, ht⟩
    · exact ⟨s.txdb.data.bnBestInvalidTrust, by simp [NodeState.unwind, CTxDB.close, hv]⟩
    · exact ⟨trust, by simp [NodeState.unwind, CTxDB.close, ht]⟩
  · have hcur : s'.infos.curTransaction = some s.infos.db := hm.curTransaction
    simp [NodeState.unwind, CTxInfoStore.rollback, hcur, Lib.final]

theorem Undone.nodeInv {env : Env} {full : Files} {s s' : NodeState} (h : Undone s s')
    (hs : NodeInv env full s) : NodeInv env full s' := by
  obtain ⟨trust, ht⟩ := h.txdb
  refine ⟨by rw [h.mapBlockIndex]; exact hs.tree, by rw [ht], by rw [h.infos]; rfl, ?_, ?_, ?_, ?_,
    ?_, ?_⟩
  · rw [h.pindexBest, h.mapBlockIndex]
    exact hs.best
  · rw [h.pindexBest, h.mapBlockIndex, h.pindexGenesisBlock]
    exact hs.genesis
  · rw [h.hashBestChain, h.pindexBest]
    exact hs.hashBestChain
  · rw [h.pindexBest, ht]
    exact hs.dbHashBestChain
  · rw [h.pindexBest, ht]
    exact ⟨hs.chain.path, hs.chain.onDisk⟩
  · rw [h.pindexBest, h.pnext]
    exact hs.next

theorem Undone.holds {I : LedgerInv} {s s' : NodeState} (h : Undone s s') (hs : I.Holds s) :
    I.Holds s' := by
  obtain ⟨trust, ht⟩ := h.txdb
  rw [LedgerInv.Holds, ht, h.infos]
  exact hs

/-! ## The blocks a call postpones -/

/-- Every block that is postponed can be read, and connects. -/
def PostponedConnect (env : Env) (files : Files) (pindexNew : CBlockIndex) (pprev : BlockPtr)
    (s : NodeState) : Prop :=
  ∀ best rest s₁, s.pindexBest = best :: rest →
    reorganize env files (postpone best.bnChainTrust (pindexNew :: pprev)).2 s.inView = .ok s₁ →
    ((postpone best.bnChainTrust (pindexNew :: pprev)).1.reverse.foldlM
      (connectPostponed env files) s₁).isOk = true

section

variable {env : Env} {files full : Files} {OffOk : CBlock → List (CBlock × BlockPtr) → Prop}
  {I : LedgerInv} {s s' : NodeState} {block : CBlock} {p : CBlockIndex} {pprev : BlockPtr}

/-- The pointer's block is the one on disk, and is linked to its parent's. -/
theorem NodeInv.entry (hs : NodeInv env full s)
    (hptr : s.mapBlockIndex p.hashBlock = some (p :: pprev))
    (hblock : full.block p.nFile p.nBlockPos = some block) :
    TreeEntry env full s.mapBlockIndex p.hashBlock p pprev block := by
  obtain ⟨p', pprev', block', heq, hE⟩ := hs.tree _ _ hptr
  cases heq
  have hsame := hE.onDisk
  rw [hblock] at hsame
  cases hsame
  exact hE

/-- The genesis block. -/
theorem setGenesis_ok (hs : NodeInv env full s) (hledger : I.Holds s)
    (hptr : s.mapBlockIndex p.hashBlock = some (p :: pprev))
    (hgenesis : s.pindexGenesisBlock = []) (hhash : p.hashBlock = env.hashGenesisBlock)
    (h : setGenesis p.hashBlock (p :: pprev) s.inView = .ok s') :
    Switched full I s.inView (p :: pprev) { s' with pindexGenesisBlock := s.pindexGenesisBlock } ∧
      s.mapBlockIndex env.hashGenesisBlock = some s'.pindexGenesisBlock := by
  have hbest : s.pindexBest = [] := by
    rcases hs.genesis with ⟨-, hb⟩ | ⟨hg, -⟩
    · exact hb
    · obtain ⟨q, qprev, b, heq, -⟩ := hs.tree _ _ hg
      rw [hgenesis] at heq
      cases heq
  obtain ⟨g, hg, -⟩ := hs.tree.root hptr
  rw [← hhash, hptr] at hg
  obtain ⟨rfl, rfl⟩ : p = g ∧ pprev = [] := by simpa using hg
  simp only [setGenesis, CTxDB.txnCommit, NodeState.writeHashBestChain, NodeState.updateDb,
    NodeState.inView, CTxDB.txnBegin] at h
  cases h
  have hchain := hs.chain
  have hnext := hs.next
  rw [hbest] at hchain hnext
  refine ⟨⟨rfl, rfl, hs.idle, rfl, ⟨hchain.path, hchain.onDisk⟩, rfl, ?_, hledger⟩, ?_⟩
  · intro k ptr
    show s.pnext k = some ptr ↔ _
    rw [hnext k ptr]
    simp only [BlockPtr.path, List.not_mem_nil, false_and, List.mem_singleton, false_iff]
    rintro ⟨rfl, hne, -⟩
    exact hne rfl
  · rw [← hhash]
    exact hptr

/-- A block whose parent has the hash of the best block has the best block as its parent. -/
theorem NodeInv.pprev_eq_best (hs : NodeInv env full s)
    (hzero : ∀ header, env.getIDHash header ≠ 0)
    (hptr : s.mapBlockIndex p.hashBlock = some (p :: pprev))
    (hblock : full.block p.nFile p.nBlockPos = some block)
    (hgenesis : ¬ (s.pindexGenesisBlock = [] ∧ p.hashBlock = env.hashGenesisBlock))
    (hprev : block.hashPrevBlock = s.hashBestChain) : pprev = s.pindexBest ∧ pprev ≠ [] := by
  have hE := hs.entry hptr hblock
  have hhash : BlockPtr.hash pprev = BlockPtr.hash s.pindexBest := by
    rw [← hE.hashPrevBlock, hprev, hs.hashBestChain]
  have hne : pprev ≠ [] := by
    rintro rfl
    by_cases hb : s.pindexBest = []
    · rcases hs.genesis with ⟨hg, -⟩ | ⟨-, hne⟩
      · exact hgenesis ⟨hg, hE.genesis rfl⟩
      · exact hne hb
    · exact (hs.tree.hash_ne_zero hzero (hs.best hb)).2 hhash.symm
  have hpp := hE.parent hne
  have hb : s.pindexBest ≠ [] := by
    intro hb
    rw [hb] at hhash
    exact (hs.tree.hash_ne_zero hzero hpp).2 hhash
  refine ⟨?_, hne⟩
  rw [hhash, hs.best hb] at hpp
  exact (Option.some.inj hpp).symm

/-- A block on top of the best one. -/
theorem extend_ok (hI : Kept env full OffOk I) (hfiles : files.PartOf full)
    (hs : NodeInv env full s) (hledger : I.Holds s)
    (hptr : s.mapBlockIndex p.hashBlock = some (p :: pprev))
    (hblock : full.block p.nFile p.nBlockPos = some block)
    (hprev : pprev = s.pindexBest) (hne : pprev ≠ [])
    (h : block.setBestChainInner env files p pprev s.inView = .ok s') :
    Switched full I s.inView (p :: pprev) s' := by
  have hE := hs.entry hptr hblock
  subst hprev
  exact setBestChainInner_ok hI hfiles (hs.ready hledger) (hs.tree.inTree hptr) hne
    ⟨p, _, rfl, hE.nFile, hblock⟩ hE.getIDHash h

/-- A block of the main chain is not postponed: its parent has no more trust than the best block. -/
theorem NodeInv.suffix_intermediate (hs : NodeInv env full s) {best : CBlockIndex}
    {rest ptr x : BlockPtr} (hbest : s.pindexBest = best :: rest)
    (hmem : x ∈ BlockPtr.above s.pindexBest) (hsub : x <:+ ptr) :
    x <:+ (postpone best.bnChainTrust ptr).2 := by
  obtain ⟨hne, hbsuf⟩ := BlockPtr.mem_path.mp (List.mem_of_mem_dropLast hmem)
  obtain ⟨-, -, hpath⟩ := postpone_suffix best.bnChainTrust ptr
  have hin : x ∈ BlockPtr.path ptr := BlockPtr.mem_path.mpr ⟨hne, hsub⟩
  rw [hpath] at hin
  rcases List.mem_append.mp hin with hin | hin
  · obtain ⟨y, q, qprev, rfl, hlt⟩ := trust_of_mem_postpone hin
    have hfound := hs.best (by rw [hbest]; exact List.cons_ne_nil _ _)
    rw [hbest] at hfound hbsuf
    have hle := hs.tree.trust_le hfound ((List.suffix_cons y _).trans hbsuf)
    omega
  · exact (BlockPtr.mem_path.mp hin).2

/-- A switch to another branch, when nothing that it postpones fails. -/
theorem switchBranch_ok (hI : Kept env full OffOk I) (hfiles : files.PartOf full)
    (hs : NodeInv env full s) (hledger : I.Holds s)
    (hptr : s.mapBlockIndex p.hashBlock = some (p :: pprev))
    (hoff : ∀ before x rest, s.txdb.data.vConnected = before ++ x :: rest →
      ¬ x.2 <:+ p :: pprev → OffOk x.1 rest)
    (hpost : PostponedConnect env files p pprev s)
    (h : switchBranch env files p pprev s.inView = .ok s') :
    Switched full I s.inView (p :: pprev) s' := by
  rw [switchBranch] at h
  split at h
  · cases h
  · next best rest hbest =>
    obtain ⟨hsuf, hinter, hpath⟩ := postpone_suffix best.bnChainTrust (p :: pprev)
    have hnew : InTree s.mapBlockIndex (p :: pprev) := hs.tree.inTree hptr
    dsimp only at h
    split at h
    · cases h
    · next s₁ hre =>
      have hsw := reorganize_ok hI hfiles (hs.ready hledger) hs.inTree (hnew.suffix hsuf) hs.heights
        ((hs.tree.heights hptr).suffix hsuf) (by
          intro before x tail hx hnot
          replace hx : s.txdb.data.vConnected = before ++ x :: tail := hx
          refine hoff before x tail hx fun hsub => hnot (hs.suffix_intermediate hbest ?_ hsub)
          rw [← hs.chain.path, hx]
          simp) hre
      obtain ⟨s₂, hloop⟩ := Lib.exists_of_isOk (hpost best rest s₁ hbest hre)
      rw [connectSecondary, hloop] at h
      cases h
      rw [postpone_eq_backTo] at hloop
      exact hsw.connectPostponeds hI hfiles hsuf (hinter (List.cons_ne_nil _ _)) hnew rfl hloop

/-- What a successful switch has done, when nothing that it postponed failed: the new block is
connected and committed. -/
theorem switchTo_ok (hI : Kept env full OffOk I) (hfiles : files.PartOf full)
    (hzero : ∀ header, env.getIDHash header ≠ 0) (hs : NodeInv env full s) (hledger : I.Holds s)
    (hptr : s.mapBlockIndex p.hashBlock = some (p :: pprev))
    (hblock : full.block p.nFile p.nBlockPos = some block)
    (hoff : ∀ before x rest, s.txdb.data.vConnected = before ++ x :: rest →
      ¬ x.2 <:+ p :: pprev → OffOk x.1 rest)
    (hpost : PostponedConnect env files p pprev s)
    (h : block.switchTo env files p pprev s.inView = .ok s') :
    Switched full I s.inView (p :: pprev) { s' with pindexGenesisBlock := s.pindexGenesisBlock } ∧
      s.mapBlockIndex env.hashGenesisBlock = some s'.pindexGenesisBlock := by
  have hE := hs.entry hptr hblock
  -- outside the genesis case the genesis block is known and stays
  have hkeep : ∀ s₂ : NodeState, s.pindexBest ≠ [] → Switched full I s.inView (p :: pprev) s₂ →
      Switched full I s.inView (p :: pprev)
          { s₂ with pindexGenesisBlock := s.pindexGenesisBlock } ∧
        s.mapBlockIndex env.hashGenesisBlock = some s₂.pindexGenesisBlock := by
    intro s₂ hb hsw
    have hg : s₂.pindexGenesisBlock = s.pindexGenesisBlock := hsw.pindexGenesisBlock
    refine ⟨⟨hsw.mapBlockIndex, rfl, hsw.vTxn, hsw.curTransaction, hsw.chain, hsw.hashBestChain,
      hsw.next, hsw.ledger⟩, ?_⟩
    rcases hs.genesis with ⟨-, hnil⟩ | ⟨hg', -⟩
    · exact absurd hnil hb
    · rw [hg]
      exact hg'
  rw [CBlock.switchTo, hE.getIDHash] at h
  split at h
  · next hc => exact setGenesis_ok hs hledger hptr hc.1 hc.2 h
  · next hc =>
    split at h
    · next hprev =>
      rw [Lib.mapError_eq_ok] at h
      obtain ⟨heq, hne⟩ := hs.pprev_eq_best hzero hptr hblock hc hprev
      exact hkeep s' (by rw [← heq]; exact hne) (extend_ok hI hfiles hs hledger hptr hblock heq hne h)
    · refine hkeep s' ?_ (switchBranch_ok hI hfiles hs hledger hptr hoff hpost h)
      intro hb
      rw [switchBranch] at h
      split at h
      · cases h
      · next best rest hbest =>
        have : s.pindexBest = best :: rest := hbest
        rw [hb] at this
        cases this

/-- A switch that fails has given up, unless it was a postponed block that threw. -/
theorem switchBranch_error (hidle : s.txdb.vTxn = []) {e : Err}
    (h : switchBranch env files p pprev s.inView = .error (e, s')) :
    Failing s.inView s.txdb.data s' ∨
      e.isFalse = false ∧ ∃ best rest s₁, s.pindexBest = best :: rest ∧
        reorganize env files (postpone best.bnChainTrust (p :: pprev)).2 s.inView = .ok s₁ ∧
        ((postpone best.bnChainTrust (p :: pprev)).1.reverse.foldlM
          (connectPostponed env files) s₁).isOk = false := by
  have hvTxn : s.inView.txdb.vTxn = [s.txdb.data] := by
    simp [NodeState.inView, CTxDB.txnBegin, hidle]
  rw [switchBranch] at h
  split at h
  · cases h
    exact .inl ((SameMemory.refl _).failing hvTxn)
  · next best rest hbest =>
    dsimp only at h
    split at h
    · next e' s₁ hre =>
      cases h
      exact .inl ((reorganize_error hvTxn hre).rejectAfter e' p)
    · next s₁ hre =>
      rw [connectSecondary] at h
      split at h
      · cases h
      · next e' s₂ hloop =>
        split at h
        · cases h
        · next hexc =>
          cases h
          exact .inr ⟨by simpa using hexc, best, rest, s₁, hbest, hre, by rw [hloop]; rfl⟩

theorem switchTo_error (hzero : ∀ header, env.getIDHash header ≠ 0) (hs : NodeInv env full s)
    (hptr : s.mapBlockIndex p.hashBlock = some (p :: pprev))
    (hblock : full.block p.nFile p.nBlockPos = some block) {e : Err}
    (h : block.switchTo env files p pprev s.inView = .error (e, s')) :
    Failing s.inView s.txdb.data s' ∨
      e.isFalse = false ∧ ¬ PostponedConnect env files p pprev s := by
  have hvTxn : s.inView.txdb.vTxn = [s.txdb.data] := by
    simp [NodeState.inView, CTxDB.txnBegin, hs.idle]
  rw [CBlock.switchTo, (hs.entry hptr hblock).getIDHash] at h
  split at h
  · simp only [setGenesis, CTxDB.txnCommit, NodeState.writeHashBestChain, NodeState.updateDb,
      NodeState.inView, CTxDB.txnBegin] at h
    cases h
  · next hc =>
    split at h
    · next hprev =>
      obtain ⟨⟨e', s₁⟩, hinner, heq⟩ := Lib.mapError_eq_error.mp h
      cases heq
      exact .inl (setBestChainInner_error hvTxn
        (fun hnil => absurd hnil (hs.pprev_eq_best hzero hptr hblock hc hprev).2) hinner)
    · rcases switchBranch_error hs.idle h with hfail | ⟨hexc, best, rest, s₁, hbest, hre, hloop⟩
      · exact .inl hfail
      · refine .inr ⟨hexc, fun hpost => ?_⟩
        rw [hpost best rest s₁ hbest hre] at hloop
        exact Bool.noConfusion hloop

/-- After a successful switch the view commits, and the new block is the best one. -/
theorem newBest_ok (hs : NodeInv env full s)
    (hptr : s.mapBlockIndex p.hashBlock = some (p :: pprev))
    (hhash : env.getIDHash block.toCBlockHeader = p.hashBlock)
    (hsw : Switched full I s.inView (p :: pprev)
      { s' with pindexGenesisBlock := s.pindexGenesisBlock })
    (hg : s.mapBlockIndex env.hashGenesisBlock = some s'.pindexGenesisBlock) :
    ∃ s'', block.newBest env p pprev s' = .ok s'' ∧ NodeInv env full s'' ∧ I.Holds s'' := by
  have hin : s'.infos.inTransaction = true := by
    rw [CTxInfoStore.inTransaction, show s'.infos.curTransaction
      = s.inView.infos.curTransaction from hsw.curTransaction]
    rfl
  have hmap : s'.mapBlockIndex = s.mapBlockIndex := hsw.mapBlockIndex
  have hnew : block.newBest env p pprev s' = .ok { s' with
      infos := { s'.infos with curTransaction := none, byteEstimate := 0 }
      hashBestChain := env.getIDHash block.toCBlockHeader
      pindexBest := p :: pprev
      nBestHeight := p.nHeight
      bnBestChainTrust := p.bnChainTrust } := by
    rw [CBlock.newBest, CTxInfoStore.commit, if_pos hin]
  refine ⟨_, hnew, ?_, hsw.ledger⟩
  refine ⟨by rw [hmap]; exact hs.tree, hsw.vTxn, rfl, ?_, .inr ⟨?_, List.cons_ne_nil _ _⟩, hhash,
    hsw.hashBestChain, ⟨hsw.chain.path, hsw.chain.onDisk⟩, hsw.next⟩
  · intro _
    rw [hmap]
    exact hptr
  · rw [hmap]
    exact hg

/-- One call of `SetBestChain`, whatever its result, when nothing that it postpones fails. -/
theorem setBestChain_inv (hI : Kept env full OffOk I) (hfiles : files.PartOf full)
    (hzero : ∀ header, env.getIDHash header ≠ 0) (hs : NodeInv env full s) (hledger : I.Holds s)
    (hptr : s.mapBlockIndex p.hashBlock = some (p :: pprev))
    (hblock : full.block p.nFile p.nBlockPos = some block)
    (hoff : ∀ before x rest, s.txdb.data.vConnected = before ++ x :: rest →
      ¬ x.2 <:+ p :: pprev → OffOk x.1 rest)
    (hpost : PostponedConnect env files p pprev s) :
    NodeInv env full (Lib.final (block.setBestChain env files p pprev s)) ∧
      I.Holds (Lib.final (block.setBestChain env files p pprev s)) := by
  rw [CBlock.setBestChain_eq hs.noView]
  cases hsw : block.switchTo env files p pprev s.inView with
  | ok s₁ =>
      obtain ⟨hswitched, hg⟩ :=
        switchTo_ok hI hfiles hzero hs hledger hptr hblock hoff hpost hsw
      obtain ⟨s₂, hs₂, hinv⟩ :=
        newBest_ok hs hptr (hs.entry hptr hblock).getIDHash hswitched hg
      simp only [Except.bind, hs₂]
      exact hinv
  | error es =>
      obtain ⟨e, s₁⟩ := es
      rcases switchTo_error hzero hs hptr hblock hsw with hfail | ⟨-, hnot⟩
      · have := hfail.undone
        exact ⟨this.nodeInv hs, this.holds hledger⟩
      · exact absurd hpost hnot

end

/-! ## Runs -/

/-- A node that has just been set up. -/
structure Fresh (s : NodeState) : Prop where
  txdb : s.txdb = {}
  infos : s.infos = CTxInfoStore.new
  mapBlockIndex : s.mapBlockIndex = Lib.PMap.empty
  pnext : s.pnext = Lib.PMap.empty
  pindexGenesisBlock : s.pindexGenesisBlock = []
  hashBestChain : s.hashBestChain = 0
  pindexBest : s.pindexBest = []

/-- What the other parts of a node leave alone. -/
structure SameChain (s s' : NodeState) : Prop where
  txdb : s'.txdb = s.txdb
  infos : s'.infos = s.infos
  mapBlockIndex : s'.mapBlockIndex = s.mapBlockIndex
  pnext : s'.pnext = s.pnext
  pindexGenesisBlock : s'.pindexGenesisBlock = s.pindexGenesisBlock
  hashBestChain : s'.hashBestChain = s.hashBestChain
  pindexBest : s'.pindexBest = s.pindexBest

/-- `LoadBlockIndex` starts with the genesis block, and `AcceptBlock` asks for the parent of any
other one. -/
def ParentKnown (env : Env) (block : CBlock) (s : NodeState) : Prop :=
  (s.mapBlockIndex block.hashPrevBlock).isSome ∨
    (∀ h, s.mapBlockIndex h = none) ∧ block.hashPrevBlock = 0 ∧
      env.getIDHash block.toCBlockHeader = env.hashGenesisBlock

/-- The states of a node, when every call of `SetBestChain` meets `StepOk`. `full` is what is in the
block files in the end; a call may find parts of it unreadable. -/
inductive Reachable (env : Env) (full : Files)
    (StepOk : Files → CBlockIndex → BlockPtr → NodeState → Prop) : NodeState → Prop where
  | fresh {s : NodeState} (h : Fresh s) : Reachable env full StepOk s
  | other {s s' : NodeState} (hs : Reachable env full StepOk s) (h : SameChain s s') :
      Reachable env full StepOk s'
  | index {s : NodeState} {block : CBlock} {kernel : StakeKernel} {nFile nBlockPos : Nat}
      {pindexNew : CBlockIndex} (hs : Reachable env full StepOk s) (hfile : nFile ≠ UINT_MAX)
      (hblock : full.block nFile nBlockPos = some block)
      (hnew : s.mapBlockIndex (env.getIDHash block.toCBlockHeader) = none)
      (hparent : ParentKnown env block s)
      (hfill : kernel.fill block (block.newIndex env nFile nBlockPos
          ((s.mapBlockIndex block.hashPrevBlock).getD []))
        ((s.mapBlockIndex block.hashPrevBlock).getD []) = .ok pindexNew) :
      Reachable env full StepOk
        (s.insertIndex pindexNew ((s.mapBlockIndex block.hashPrevBlock).getD []))
  | best {s : NodeState} {files : Files} {block : CBlock} {p : CBlockIndex} {pprev : BlockPtr}
      (hs : Reachable env full StepOk s) (hfiles : files.PartOf full)
      (hptr : s.mapBlockIndex p.hashBlock = some (p :: pprev))
      (hblock : full.block p.nFile p.nBlockPos = some block) (hok : StepOk files p pprev s) :
      Reachable env full StepOk (Lib.final (block.setBestChain env files p pprev s))

/-! ## What a run keeps -/

theorem Fresh.nodeInv {env : Env} {full : Files} {s : NodeState} (h : Fresh s) :
    NodeInv env full s where
  tree := by
    rw [h.mapBlockIndex]
    intro k ptr hk
    cases hk
  idle := by rw [h.txdb]
  noView := by rw [h.infos]; rfl
  best := fun hne => absurd h.pindexBest hne
  genesis := .inl ⟨h.pindexGenesisBlock, h.pindexBest⟩
  hashBestChain := by rw [h.hashBestChain, h.pindexBest]; rfl
  dbHashBestChain := by rw [h.txdb, h.pindexBest]; rfl
  chain := by
    rw [h.txdb, h.pindexBest]
    exact ⟨rfl, by simp⟩
  next := by
    rw [h.pnext, h.pindexBest]
    exact nextInv_nil

theorem SameChain.nodeInv {env : Env} {full : Files} {s s' : NodeState} (h : SameChain s s')
    (hs : NodeInv env full s) : NodeInv env full s' := by
  refine ⟨?_, ?_, ?_, ?_, ?_, ?_, ?_, ?_, ?_⟩
  · rw [h.mapBlockIndex]; exact hs.tree
  · rw [h.txdb]; exact hs.idle
  · rw [h.infos]; exact hs.noView
  · rw [h.pindexBest, h.mapBlockIndex]; exact hs.best
  · rw [h.pindexBest, h.mapBlockIndex, h.pindexGenesisBlock]; exact hs.genesis
  · rw [h.hashBestChain, h.pindexBest]; exact hs.hashBestChain
  · rw [h.txdb, h.pindexBest]; exact hs.dbHashBestChain
  · rw [h.txdb, h.pindexBest]; exact hs.chain
  · rw [h.pnext, h.pindexBest]; exact hs.next

theorem getBlockTrust_nonneg (nBits : Nat) (isProofOfStake : Bool) :
    0 ≤ getBlockTrust nBits isProofOfStake := by
  simp only [getBlockTrust]
  split_ifs
  · exact le_rfl
  · exact Int.ediv_nonneg (by positivity) (by omega)
  · exact Int.one_nonneg

/-- The kernel fills in stake fields only. -/
theorem StakeKernel.fill_ok {kernel : StakeKernel} {block : CBlock} {p p' : CBlockIndex}
    {pprev : BlockPtr} (h : kernel.fill block p pprev = .ok p') :
    p'.hashBlock = p.hashBlock ∧ p'.nFile = p.nFile ∧ p'.nBlockPos = p.nBlockPos ∧
      p'.nHeight = p.nHeight ∧ p'.bnChainTrust = p.bnChainTrust := by
  rw [fill] at h
  obtain ⟨-, h⟩ := Lib.seq_eq_ok.mp h
  obtain ⟨-, h⟩ := Lib.seq_eq_ok.mp h
  rw [setStakeModifier] at h
  split at h
  · cases h
  · obtain ⟨-, h⟩ := Lib.seq_eq_ok.mp h
    cases h
    exact ⟨rfl, rfl, rfl, rfl, rfl⟩

/-- A new block under its parent. -/
theorem TreeInv.insert {env : Env} {full : Files} {tree : Lib.PMap Uint256 BlockPtr}
    (hT : TreeInv env full tree) {p : CBlockIndex} {pprev : BlockPtr} {block : CBlock}
    (hnew : tree p.hashBlock = none) (hE : TreeEntry env full tree p.hashBlock p pprev block) :
    TreeInv env full (tree.set p.hashBlock (p :: pprev)) := by
  have hkeep : ∀ k ptr, tree k = some ptr → tree.set p.hashBlock (p :: pprev) k = some ptr := by
    intro k ptr hk
    rw [Lib.PMap.set_of_ne]
    · exact hk
    · rintro rfl
      rw [hnew] at hk
      cases hk
  intro k ptr hk
  rw [Lib.PMap.set_apply] at hk
  split at hk
  · next heq =>
    cases hk
    rw [heq]
    exact ⟨p, pprev, block, rfl, { hE with parent := fun hne => hkeep _ _ (hE.parent hne) }⟩
  · obtain ⟨q, qprev, b, rfl, hE'⟩ := hT k ptr hk
    exact ⟨q, qprev, b, rfl, { hE' with parent := fun hne => hkeep _ _ (hE'.parent hne) }⟩

/-- What a new index entry is like. -/
theorem treeEntry_newIndex {env : Env} {full : Files} {s : NodeState} {block : CBlock}
    {kernel : StakeKernel} {nFile nBlockPos : Nat} {p : CBlockIndex}
    (hT : TreeInv env full s.mapBlockIndex) (hfile : nFile ≠ UINT_MAX)
    (hblock : full.block nFile nBlockPos = some block) (hparent : ParentKnown env block s)
    (hfill : kernel.fill block (block.newIndex env nFile nBlockPos
        ((s.mapBlockIndex block.hashPrevBlock).getD []))
      ((s.mapBlockIndex block.hashPrevBlock).getD []) = .ok p) :
    TreeEntry env full s.mapBlockIndex p.hashBlock p
      ((s.mapBlockIndex block.hashPrevBlock).getD []) block := by
  obtain ⟨hhash, hf, hpos, hheight, htrust⟩ := StakeKernel.fill_ok hfill
  have hblock' : full.block p.nFile p.nBlockPos = some block := by rw [hf, hpos]; exact hblock
  cases hprev : s.mapBlockIndex block.hashPrevBlock with
  | none =>
      rw [hprev] at hhash hheight htrust
      rcases hparent with hsome | ⟨-, hzero, hgenesis⟩
      · rw [hprev] at hsome
        exact Bool.noConfusion hsome
      · exact ⟨rfl, by rw [hf]; exact hfile, hblock', hhash.symm, hzero, hheight, by simp,
          fun hne => absurd rfl hne, fun _ => hhash.trans hgenesis⟩
  | some pprev =>
      rw [hprev] at hhash hheight htrust
      obtain ⟨q, qprev, b, rfl, hE⟩ := hT _ _ hprev
      refine ⟨rfl, by rw [hf]; exact hfile, hblock', hhash.symm, hE.hashBlock.symm, ?_, ?_, ?_, ?_⟩
      · rw [hheight]
        show q.nHeight + 1 = _
        rw [hE.nHeight]
        simp
      · intro r hr
        cases hr
        rw [htrust]
        show q.bnChainTrust ≤ q.bnChainTrust + _
        have := getBlockTrust_nonneg block.nBits block.isProofOfStake
        omega
      · intro _
        show s.mapBlockIndex q.hashBlock = _
        rw [hE.hashBlock]
        exact hprev
      · intro hnil
        cases hnil

theorem NodeInv.insertIndex {env : Env} {full : Files} {s : NodeState} {p : CBlockIndex}
    {pprev : BlockPtr} {block : CBlock} (hs : NodeInv env full s)
    (hnew : s.mapBlockIndex p.hashBlock = none)
    (hE : TreeEntry env full s.mapBlockIndex p.hashBlock p pprev block) :
    NodeInv env full (s.insertIndex p pprev) := by
  have hkeep : ∀ k ptr, s.mapBlockIndex k = some ptr →
      s.mapBlockIndex.set p.hashBlock (p :: pprev) k = some ptr := by
    intro k ptr hk
    rw [Lib.PMap.set_of_ne]
    · exact hk
    · rintro rfl
      rw [hnew] at hk
      cases hk
  refine ⟨hs.tree.insert hnew hE, hs.idle, hs.noView, fun hne => hkeep _ _ (hs.best hne), ?_,
    hs.hashBestChain, hs.dbHashBestChain, ⟨hs.chain.path, hs.chain.onDisk⟩, hs.next⟩
  rcases hs.genesis with hg | ⟨hg, hb⟩
  · exact .inl hg
  · exact .inr ⟨hkeep _ _ hg, hb⟩

/-- In every run whose calls of `SetBestChain` take off only blocks that meet `OffOk`, and postpone
no block that then fails, the pointers and the databases agree and the ledger's invariant holds. -/
theorem Reachable.inv {env : Env} {full : Files}
    {StepOk : Files → CBlockIndex → BlockPtr → NodeState → Prop}
    {OffOk : CBlock → List (CBlock × BlockPtr) → Prop} {I : LedgerInv}
    (hI : Kept env full OffOk I) (hinit : I [] Lib.PMap.empty Lib.Table.empty)
    (hzero : ∀ header, env.getIDHash header ≠ 0)
    (hstep : ∀ files p pprev s, StepOk files p pprev s → PostponedConnect env files p pprev s ∧
      ∀ before x rest, s.txdb.data.vConnected = before ++ x :: rest →
        ¬ x.2 <:+ p :: pprev → OffOk x.1 rest) {s : NodeState}
    (hs : Reachable env full StepOk s) : NodeInv env full s ∧ I.Holds s := by
  induction hs with
  | fresh h =>
      refine ⟨h.nodeInv, ?_⟩
      rw [LedgerInv.Holds, h.txdb, h.infos]
      exact hinit
  | other _ h ih =>
      refine ⟨h.nodeInv ih.1, ?_⟩
      rw [LedgerInv.Holds, h.txdb, h.infos]
      exact ih.2
  | index _ hfile hblock hnew hparent hfill ih =>
      have hE := treeEntry_newIndex ih.1.tree hfile hblock hparent hfill
      refine ⟨ih.1.insertIndex ?_ hE, ih.2⟩
      rw [← hE.getIDHash]
      exact hnew
  | best _ hfiles hptr hblock hok ih =>
      obtain ⟨hpost, hoff⟩ := hstep _ _ _ _ hok
      exact setBestChain_inv hI hfiles hzero ih.1 ih.2 hptr hblock hoff hpost

/-- `AddToBlockIndex` is indexing the block, and a call of `SetBestChain` when it has the most
trust. -/
theorem Reachable.addToBlockIndex {env : Env} {full files : Files}
    {StepOk : Files → CBlockIndex → BlockPtr → NodeState → Prop} {s : NodeState} {block : CBlock}
    {kernel : StakeKernel} {nFile nBlockPos : Nat} (hs : Reachable env full StepOk s)
    (hfiles : files.PartOf full) (hfile : nFile ≠ UINT_MAX)
    (hblock : full.block nFile nBlockPos = some block) (hparent : ParentKnown env block s)
    (hok : ∀ p pprev, p.hashBlock = env.getIDHash block.toCBlockHeader →
      StepOk files p pprev (s.insertIndex p pprev)) :
    Reachable env full StepOk
      (Lib.final (block.addToBlockIndex env files kernel nFile nBlockPos s)) := by
  rw [CBlock.addToBlockIndex]
  cases hnew : s.mapBlockIndex (env.getIDHash block.toCBlockHeader) with
  | some ptr => exact hs
  | none =>
      simp only [Option.isNone_none, Lib.require, if_true]
      show Reachable env full StepOk (Lib.final (Except.bind (Except.mapError _ _) _))
      cases hfill : kernel.fill block (block.newIndex env nFile nBlockPos
          ((s.mapBlockIndex block.hashPrevBlock).getD []))
          ((s.mapBlockIndex block.hashPrevBlock).getD []) with
      | error e => exact hs
      | ok p =>
          obtain ⟨hhash, hf, hpos, -, -⟩ := StakeKernel.fill_ok hfill
          have hindexed := hs.index hfile hblock hnew hparent hfill
          simp only [Except.mapError, Except.bind]
          split
          · refine hindexed.best hfiles (Lib.PMap.set_self _ _ _) ?_ (hok _ _ hhash)
            rw [hf, hpos]
            exact hblock
          · exact hindexed

/-- A run that meets a condition meets every weaker one. -/
theorem Reachable.mono {env : Env} {full : Files}
    {StepOk StepOk' : Files → CBlockIndex → BlockPtr → NodeState → Prop}
    (hle : ∀ files p pprev s, StepOk files p pprev s → StepOk' files p pprev s) {s : NodeState}
    (hs : Reachable env full StepOk s) : Reachable env full StepOk' s := by
  induction hs with
  | fresh h => exact .fresh h
  | other _ h ih => exact .other ih h
  | index _ hfile hblock hnew hparent hfill ih => exact .index ih hfile hblock hnew hparent hfill
  | best _ hfiles hptr hblock hok ih => exact .best ih hfiles hptr hblock (hle _ _ _ _ hok)

/-- Indexing a block under a parent that is known. -/
theorem Reachable.indexUnder {env : Env} {full : Files}
    {StepOk : Files → CBlockIndex → BlockPtr → NodeState → Prop} {s : NodeState} {block : CBlock}
    {kernel : StakeKernel} {nFile nBlockPos : Nat} {p : CBlockIndex} {pprev : BlockPtr}
    (hs : Reachable env full StepOk s) (hprev : s.mapBlockIndex block.hashPrevBlock = some pprev)
    (hnew : s.mapBlockIndex (env.getIDHash block.toCBlockHeader) = none)
    (hfile : nFile ≠ UINT_MAX) (hblock : full.block nFile nBlockPos = some block)
    (hfill : kernel.fill block (block.newIndex env nFile nBlockPos pprev) pprev = .ok p) :
    Reachable env full StepOk (s.insertIndex p pprev) := by
  have hget : (s.mapBlockIndex block.hashPrevBlock).getD [] = pprev := by rw [hprev]; rfl
  rw [← hget] at hfill ⊢
  exact hs.index hfile hblock hnew (.inl (by rw [hprev]; rfl)) hfill

/-- Indexing the genesis block. -/
theorem Reachable.indexGenesis {env : Env} {full : Files}
    {StepOk : Files → CBlockIndex → BlockPtr → NodeState → Prop} {s : NodeState} {block : CBlock}
    {kernel : StakeKernel} {nFile nBlockPos : Nat} {p : CBlockIndex}
    (hs : Reachable env full StepOk s) (hempty : ∀ h, s.mapBlockIndex h = none)
    (hprev : block.hashPrevBlock = 0)
    (hhash : env.getIDHash block.toCBlockHeader = env.hashGenesisBlock)
    (hfile : nFile ≠ UINT_MAX) (hblock : full.block nFile nBlockPos = some block)
    (hfill : kernel.fill block (block.newIndex env nFile nBlockPos []) [] = .ok p) :
    Reachable env full StepOk (s.insertIndex p []) := by
  have hget : (s.mapBlockIndex block.hashPrevBlock).getD [] = [] := by rw [hempty]; rfl
  have hfill' : kernel.fill block (block.newIndex env nFile nBlockPos
      ((s.mapBlockIndex block.hashPrevBlock).getD []))
      ((s.mapBlockIndex block.hashPrevBlock).getD []) = .ok p := by
    rw [hget]
    exact hfill
  have := hs.index hfile hblock (hempty _) (.inr ⟨hempty, hprev, hhash⟩) hfill'
  rw [hget] at this
  exact this

end ShinyCoin

import ShinyCoin.Sync.Delivery
import ShinyCoin.Chain.Climb
import ShinyCoin.Chain.Transfer

/-!
# Branches

A branch has grown when each of its blocks was connected on its parent by some node. What the index
and the counters are then is the same on every node (`Grown.unique`), and every node that has
connected the branch up to some block can connect the next one and disconnect it again.
-/

namespace ShinyCoin

namespace CBlock

variable {env : Env} {files : Files} {nAdjustedTime : ℤ} {s s' : NodeState} {block : CBlock}
  {pindex pindex' : CBlockIndex} {pprev : BlockPtr}

theorem checkBlock_iff {fCheckPoWHash : Bool} :
    block.checkBlock env nAdjustedTime fCheckPoWHash = .ok () ↔
      block.checkBlock env nAdjustedTime false = .ok () ∧
        block.checkPoWHash env fCheckPoWHash = .ok () := by
  have hskip : block.checkPoWHash env false = .ok () := by simp [checkPoWHash]
  simp only [checkBlock, Lib.seq_eq_ok, hskip]
  tauto

/-- The hash of a proof-of-work block was compared with its target. -/
theorem exists_of_checkBlock (hpow : block.isProofOfWork = true)
    (h : block.checkBlock env nAdjustedTime true = .ok ()) :
    ∃ powHash, env.checkProofOfWork powHash block.nBits = true := by
  have hcheck := (checkBlock_iff.mp h).2
  unfold checkPoWHash at hcheck
  rw [hpow, Bool.true_and, if_pos rfl] at hcheck
  split at hcheck
  · cases hcheck
  · next powHash _ => exact ⟨powHash, Lib.require_eq_ok.mp hcheck⟩

/-- Where the transactions of a block are is told by its place in the files. -/
theorem Stored.congr (h : block.Stored files pindex) (hfile : pindex'.nFile = pindex.nFile)
    (hpos : pindex'.nBlockPos = pindex.nBlockPos) : block.Stored files pindex' := by
  have hloop : ∀ (txs : List CTransaction) (nTxPos : Nat), TxsStored files pindex txs nTxPos →
      TxsStored files pindex' txs nTxPos := by
    intro txs
    induction txs with
    | nil => exact fun _ _ => trivial
    | cons tx txs ih =>
        rintro nTxPos ⟨hread, hrest⟩
        exact ⟨by rw [hfile, hpos]; exact hread, ih _ hrest⟩
  unfold Stored
  rw [hpos]
  exact hloop _ _ h

theorem isProofOfStake_of_isProofOfWork (hpow : block.isProofOfWork = true) :
    block.isProofOfStake = false := by
  rw [isProofOfWork, Bool.not_eq_true'] at hpow
  exact hpow

/-- What the kernel says of a proof-of-work block does not depend on `mapProofOfStake`. -/
theorem fill_of_isProofOfWork {senv : SyncEnv} {t t' : SyncState} (hpow : block.isProofOfWork = true) :
    (block.kernel senv t').fill block pindex pprev = (block.kernel senv t).fill block pindex pprev := by
  unfold StakeKernel.fill
  rw [isProofOfStake_of_isProofOfWork hpow]
  rfl

end CBlock

namespace Delivery

variable {d : Delivery}

/-! ## Index entries -/

/-- The index entry of a block under its parent. -/
def entry (d : Delivery) (block : CBlock) (pprev : BlockPtr) : Except Err CBlockIndex :=
  (block.kernel d.senv d.start).fill block
    (block.newIndex d.senv.toEnv (d.place block).1 (d.place block).2 pprev) pprev

/-- What is known of an entry: where the block is, its height, and that one block of work has the trust
one. -/
structure EntryOf (d : Delivery) (block : CBlock) (p : CBlockIndex) (pprev : BlockPtr) : Prop where
  hashBlock : p.hashBlock = d.idHash block
  nFile : p.nFile = (d.place block).1
  nBlockPos : p.nBlockPos = (d.place block).2
  nHeight : ∀ q ∈ pprev.head?, p.nHeight = q.nHeight + 1
  bnChainTrust : ∀ q ∈ pprev.head?, p.bnChainTrust = q.bnChainTrust + 1
  stored : block.Stored d.files p
  readBlock : d.files.readBlock d.senv.toEnv (p :: pprev) = some block

theorem Sound.entryOf (hd : d.Sound) {block : CBlock} {p : CBlockIndex} {pprev : BlockPtr}
    (hblock : block ∈ d.blocks) {nAdjustedTime : ℤ}
    (hcheck : block.checkBlock d.senv.toEnv nAdjustedTime true = .ok ())
    (h : d.entry block pprev = .ok p) : d.EntryOf block p pprev := by
  obtain ⟨hhash, hfile, hpos, hheight, htrust⟩ := StakeKernel.fill_ok h
  have hw := hd.written block hblock
  have hpow := hd.proofOfWork block hblock
  -- the target is in range
  obtain ⟨powHash, hwork⟩ := CBlock.exists_of_checkBlock hpow hcheck
  have hspec : d.senv.toEnv.checkProofOfWork = ShinyCoin.checkProofOfWork d.senv.fTestNet :=
    funext fun hash => funext fun nBits => hd.checkProofOfWork hash nBits
  rw [hspec, checkProofOfWork_iff] at hwork
  obtain ⟨htarget, hlimit, -⟩ := hwork
  have hzero : d.senv.toEnv.checkProofOfWork 0 block.nBits = true := by
    rw [hspec, checkProofOfWork_iff]
    exact ⟨htarget, hlimit, htarget.le⟩
  refine ⟨hhash, hfile, hpos, ?_, ?_, hw.txs.congr hfile hpos, ?_⟩
  · intro q hq
    rw [hheight]
    show (pprev.head?.map fun prev => prev.nHeight + 1).getD 0 = _
    rw [Option.mem_def.mp hq]
    rfl
  · intro q hq
    rw [htrust]
    show (pprev.head?.map CBlockIndex.bnChainTrust).getD 0 + getBlockTrust _ _ = _
    rw [Option.mem_def.mp hq, getBlockTrust, if_neg (not_le.mpr htarget),
      CBlock.isProofOfStake_of_isProofOfWork hpow]
    rfl
  · have hfile' : p.nFile = (d.place block).1 := hfile
    have hpos' : p.nBlockPos = (d.place block).2 := hpos
    have hhash' : p.hashBlock = d.senv.getIDHash block.toCBlockHeader := hhash
    rw [Files.readBlock, Files.readBlockAt, hfile', hpos', if_neg hw.nFile, hw.onDisk, hhash']
    simp only [Option.filter_some, hzero, Bool.or_true, beq_self_eq_true, if_true]

/-! ## Grown branches -/

/-- The node has connected the blocks of the branch and no others: `m` is what the index is then, and
`vs` what the counters of the blocks are. -/
structure At (d : Delivery) (ptr : BlockPtr) (m : TxIndexMap) (vs : List BlockStats)
    (s : NodeState) : Prop where
  txIndex : s.txdb.data.txIndex = m
  stats : (BlockPtr.path ptr).map s.statsOf = vs
  inTransaction : s.infos.inTransaction = true
  nAdjustedTime : s.nAdjustedTime = d.start.node.nAdjustedTime
  wallets : ∀ w ∈ s.wallets, WalletTxs d.Known w

/-- The blocks of the branch passed, each of them on a node that was at its parent. -/
inductive Grown (d : Delivery) : BlockPtr → TxIndexMap → List BlockStats → Prop where
  | genesis : Grown d [d.genesis] Lib.PMap.empty [d.start.node.statsOf [d.genesis]]
  | block {b : CBlock} {p q : CBlockIndex} {qs : BlockPtr} {m : TxIndexMap} {vs : List BlockStats}
      {t u : NodeState} (hprev : Grown d (q :: qs) m vs) (hb : b ∈ d.blocks)
      (hlink : b.hashPrevBlock = q.hashBlock)
      (hcheck : b.checkBlock d.senv.toEnv d.start.node.nAdjustedTime true = .ok ())
      (hcontext : b.checkContext d.senv d.start.node q qs = .ok ())
      (hentry : d.entry b (q :: qs) = .ok p)
      (hfresh : ∀ tx ∈ b.vtx, m (d.senv.getHash tx) = none)
      (hAt : d.At (q :: qs) m vs t) (hheight : t.nBestHeight = q.nHeight)
      (hconn : b.connectBlock d.senv.toEnv d.files p (q :: qs) t = .ok u) :
      Grown d (p :: q :: qs) u.txdb.data.txIndex (u.statsOf (p :: q :: qs) :: vs)

section

variable {p q : CBlockIndex} {ptr pprev qs x : BlockPtr} {m m' : TxIndexMap}
  {vs vs' : List BlockStats}

theorem Grown.ne_nil (h : d.Grown ptr m vs) : ptr ≠ [] := by
  cases h <;> exact List.cons_ne_nil _ _

/-- The ancestors of a branch have grown. -/
theorem Grown.suffix (h : d.Grown ptr m vs) (hne : x ≠ []) (hx : x <:+ ptr) :
    ∃ m vs, d.Grown x m vs := by
  induction h with
  | genesis =>
      rcases List.suffix_cons_iff.mp hx with rfl | hx
      · exact ⟨_, _, .genesis⟩
      · exact absurd (List.suffix_nil.mp hx) hne
  | block hprev hb hlink hcheck hcontext hentry hfresh hAt hheight hconn ih =>
      rcases List.suffix_cons_iff.mp hx with rfl | hx
      · exact ⟨_, _, .block hprev hb hlink hcheck hcontext hentry hfresh hAt hheight hconn⟩
      · exact ih hx

theorem AtGenesis.treeEntry (hs : d.AtGenesis) : ∃ block,
    TreeEntry d.senv.toEnv d.files d.start.node.mapBlockIndex (BlockPtr.hash [d.genesis]) d.genesis []
      block := by
  have hbest := hs.inv.best (by rw [hs.pindexBest]; exact List.cons_ne_nil _ _)
  rw [hs.pindexBest] at hbest
  obtain ⟨p, pprev, block, heq, hE⟩ := hs.inv.tree _ _ hbest
  cases heq
  exact ⟨block, hE⟩

theorem AtGenesis.hashBlock (hs : d.AtGenesis) : d.genesis.hashBlock = d.senv.hashGenesisBlock := by
  obtain ⟨block, hE⟩ := hs.treeEntry
  exact hE.genesis rfl

theorem AtGenesis.nHeight (hs : d.AtGenesis) : d.genesis.nHeight = 0 := by
  obtain ⟨block, hE⟩ := hs.treeEntry
  exact hE.nHeight

/-- A branch goes back to the genesis block, and counts its blocks. -/
theorem Grown.rooted (hd : d.Sound) (h : d.Grown ptr m vs) :
    ptr.getLast? = some d.genesis ∧ Heights ptr ∧
      ∀ p ∈ ptr.head?, p.bnChainTrust = d.genesis.bnChainTrust + p.nHeight := by
  induction h with
  | genesis =>
      refine ⟨rfl, ⟨hd.start.nHeight, trivial⟩, ?_⟩
      intro p hp
      cases hp
      rw [hd.start.nHeight, add_zero]
  | block hprev hb hlink hcheck hcontext hentry hfresh hAt hheight hconn ih =>
      obtain ⟨hlast, hheights, htrust⟩ := ih
      have hE := hd.entryOf hb hcheck hentry
      have hn := hE.nHeight _ rfl
      refine ⟨?_, ⟨?_, hheights⟩, ?_⟩
      · rw [List.getLast?_cons_cons]
        exact hlast
      · rw [hn, hheights.1]
        simp
      · intro p hp
        cases hp
        rw [hE.bnChainTrust _ rfl, hn, htrust _ rfl]
        ring

/-- A grown branch is known by the hash of its last block. -/
theorem Grown.eq_of_hash (hd : d.Sound) (h : d.Grown ptr m vs) {ptr' : BlockPtr}
    (h' : d.Grown ptr' m' vs') (hhash : BlockPtr.hash ptr = BlockPtr.hash ptr') : ptr = ptr' := by
  induction h generalizing ptr' m' vs' with
  | genesis =>
      cases h' with
      | genesis => rfl
      | block hprev hb hlink hcheck hcontext hentry hfresh hAt hheight hconn =>
          have hE := hd.entryOf hb hcheck hentry
          exact absurd (hE.hashBlock.symm.trans (hhash.symm.trans hd.start.hashBlock))
            (hd.notGenesis _ hb)
  | block hprev hb hlink hcheck hcontext hentry hfresh hAt hheight hconn ih =>
      have hE := hd.entryOf hb hcheck hentry
      cases h' with
      | genesis =>
          exact absurd (hE.hashBlock.symm.trans (hhash.trans hd.start.hashBlock))
            (hd.notGenesis _ hb)
      | block hprev' hb' hlink' hcheck' hcontext' hentry' hfresh' hAt' hheight' hconn' =>
          have hE' := hd.entryOf hb' hcheck' hentry'
          have hblock := List.inj_on_of_nodup_map hd.distinct hb hb'
            (hE.hashBlock.symm.trans (hhash.trans hE'.hashBlock))
          subst hblock
          have hpprev := ih hprev' (hlink.symm.trans hlink')
          rw [hpprev, hentry'] at hentry
          rw [hpprev, Except.ok.inj hentry]

theorem Grown.hash_ne (hd : d.Sound) (h : d.Grown (p :: pprev) m vs) :
    ∀ x ∈ BlockPtr.path pprev, BlockPtr.hash x ≠ p.hashBlock := by
  intro x hx heq
  obtain ⟨hne, hsuf⟩ := BlockPtr.mem_path.mp hx
  obtain ⟨m', vs', hx'⟩ := h.suffix hne (hsuf.trans (List.suffix_cons p pprev))
  rw [hx'.eq_of_hash hd h heq] at hsuf
  have := hsuf.length_le
  rw [List.length_cons] at this
  omega

/-! ## The index of a branch -/

/-- What the index of a branch points to. -/
structure GoodIndex (d : Delivery) (m : TxIndexMap) : Prop where
  noneInPool : NoneInPool m
  clean : CleanSlots m
  known : ∀ pool h txindex tx, m h = some txindex →
    CTransaction.readTxPrev d.files pool h txindex = .ok tx → d.Known h tx

theorem At.knows {s : NodeState} (hs : d.At ptr m vs s) (hm : d.GoodIndex m) :
    Knows d.files d.Known s := by
  refine ⟨hs.wallets, fun h txindex tx hidx hread => hm.known s.mempool h txindex tx ?_ hread⟩
  rw [← hs.txIndex]
  exact hidx

theorem known_of_mem {b : CBlock} (hb : b ∈ d.blocks) :
    ∀ tx ∈ b.vtx, d.Known (d.senv.getHash tx) tx :=
  fun _ htx => .inr ⟨b, hb, htx, rfl⟩

theorem Grown.goodIndex (hd : d.Sound) (h : d.Grown ptr m vs) : d.GoodIndex m := by
  induction h with
  | genesis =>
      refine ⟨?_, ?_, ?_⟩
      · intro h txindex hidx
        cases hidx
      · intro h txindex hidx
        cases hidx
      · intro pool h txindex tx hidx
        cases hidx
  | @block b p q qs m vs t u hprev hb hlink hcheck hcontext hentry hfresh hAt hheight hconn ih =>
      have hE := hd.entryOf hb hcheck hentry
      have hidx := CBlock.connectBlock_txIndex hconn
      rw [hAt.txIndex] at hidx
      have hnone : NoneInPool u.txdb.data.txIndex := by
        rw [hidx]
        exact ih.noneInPool.applyTxs (b.one_lt_firstTxPos _)
      refine ⟨hnone, ?_, ?_⟩
      · rw [hidx]
        refine cleanSlots_applyTxs ?_ ih.clean
        rw [hE.nFile]
        exact (hd.written b hb).nFile
      · intro pool h txindex tx hx hread
        have hknows := CBlock.knows_connectBlock (hAt.knows ih) (known_of_mem hb) hE.stored hconn
        rw [CTransaction.readTxPrev_of_notInPool (hnone h txindex hx)] at hread
        exact hknows.index h txindex tx hx hread

/-! ## One block on and off -/

/-- A block that one node at its parent connects every node there connects. -/
theorem At.connectBlock (hd : d.Sound) {b : CBlock} {t t' u : NodeState}
    (hm : d.GoodIndex m) (hb : b ∈ d.blocks) (hE : d.EntryOf b p (q :: qs))
    (hhash : ∀ x ∈ BlockPtr.path (q :: qs), BlockPtr.hash x ≠ p.hashBlock)
    (ht : d.At (q :: qs) m vs t) (ht' : d.At (q :: qs) m vs t')
    (hverify : d.senv.totalBlocksEstimate ≤ t'.nBestHeight →
      d.senv.totalBlocksEstimate ≤ t.nBestHeight)
    (h : b.connectBlock d.senv.toEnv d.files p (q :: qs) t = .ok u) :
    ∃ u', b.connectBlock d.senv.toEnv d.files p (q :: qs) t' = .ok u' ∧
      d.At (p :: q :: qs) u.txdb.data.txIndex (u.statsOf (p :: q :: qs) :: vs) u' := by
  have hstats : t'.statsOf (q :: qs) = t.statsOf (q :: qs) := by
    have h₁ := ht'.stats.trans ht.stats.symm
    exact (List.cons.inj h₁).1
  have halike : CBlock.Alike d.senv.toEnv (q :: qs) t t' :=
    ⟨ht'.txIndex.trans ht.txIndex.symm, hstats, ht'.nAdjustedTime.trans ht.nAdjustedTime.symm,
      hverify, ht'.inTransaction⟩
  obtain ⟨u', hu', hidx, hv, hws⟩ := halike.connectBlock hd.collisionFree hd.getHash
    (hd.infoFree b hb) (by rw [ht.txIndex]; exact hm.noneInPool) (ht.knows hm) (known_of_mem hb)
    hE.stored ht'.wallets h
  have hmem := CBlock.connectBlock_sameMemory d.senv.toEnv d.files b p (q :: qs) t'
  rw [hu'] at hmem
  obtain ⟨⟨stats, hset⟩, -⟩ := CBlock.connectBlock_blockStats hu'
  refine ⟨u', hu', hidx, ?_, hmem.inTransaction.trans ht'.inTransaction,
    (SameMemory.nAdjustedTime hmem).trans ht'.nAdjustedTime, hws⟩
  rw [BlockPtr.path, List.map_cons, hv, ← ht'.stats]
  congr 1
  -- the counters of the other blocks stay
  refine List.map_congr_left fun x hx => ?_
  obtain ⟨hne, -⟩ := BlockPtr.mem_path.mp hx
  obtain ⟨r, rs, rfl⟩ := List.exists_cons_of_ne_nil hne
  show (u'.blockStats r.hashBlock).getD {} = (t'.blockStats r.hashBlock).getD {}
  have hr : r.hashBlock ≠ p.hashBlock := hhash _ hx
  rw [hset, Lib.PMap.set_of_ne hr]

/-- The index and the counters of a branch are the same on every node. -/
theorem Grown.unique (hd : d.Sound) (h : d.Grown ptr m vs) (h' : d.Grown ptr m' vs') :
    m = m' ∧ vs = vs' := by
  induction h generalizing m' vs' with
  | genesis =>
      cases h' with
      | genesis => exact ⟨rfl, rfl⟩
  | @block b p q qs m vs t u hprev hb hlink hcheck hcontext hentry hfresh hAt hheight hconn ih =>
      have hne := (Grown.block hprev hb hlink hcheck hcontext hentry hfresh hAt hheight hconn).hash_ne
        hd
      cases h' with
      | block hprev' hb' hlink' hcheck' hcontext' hentry' hfresh' hAt' hheight' hconn' =>
          obtain ⟨rfl, rfl⟩ := ih hprev'
          have hE := hd.entryOf hb hcheck hentry
          have hE' := hd.entryOf hb' hcheck' hentry'
          have hblock := hE.readBlock.symm.trans hE'.readBlock
          cases hblock
          obtain ⟨u'', hu'', hAt''⟩ := hAt.connectBlock hd (hprev.goodIndex hd) hb hE hne hAt'
            (by rw [hheight, hheight']; exact id) hconn
          rw [hconn'] at hu''
          cases hu''
          refine ⟨hAt''.txIndex.symm, ?_⟩
          have hhead := hAt''.stats
          rw [BlockPtr.path, List.map_cons, List.cons_eq_cons] at hhead
          rw [hhead.1]

/-- The node has connected the branch and no other block. -/
def On (d : Delivery) (ptr : BlockPtr) (s : NodeState) : Prop :=
  ∃ m vs, d.Grown ptr m vs ∧ d.At ptr m vs s

/-- A node at the parent of a grown block can go on to it, when it does not check more signatures than
the branch alone would make it check. -/
theorem On.connectBlock (hd : d.Sound) {s : NodeState} (h : d.Grown (p :: q :: qs) m vs)
    (hs : d.On (q :: qs) s) (hverify : d.senv.totalBlocksEstimate ≤ s.nBestHeight →
      d.senv.totalBlocksEstimate ≤ q.nHeight) :
    ∃ b s', d.files.readBlock d.senv.toEnv (p :: q :: qs) = some b ∧
      b.connectBlock d.senv.toEnv d.files p (q :: qs) s = .ok s' ∧ d.On (p :: q :: qs) s' := by
  have hne := h.hash_ne hd
  obtain ⟨m₁, vs₁, hgrown, hAt₁⟩ := hs
  have hgrown' := h
  cases h with
  | block hprev hb hlink hcheck hcontext hentry hfresh hAt hheight hconn =>
      obtain ⟨rfl, rfl⟩ := hprev.unique hd hgrown
      have hE := hd.entryOf hb hcheck hentry
      obtain ⟨s', hs', hAt'⟩ := hAt.connectBlock hd (hprev.goodIndex hd) hb hE hne hAt₁
        (by rw [hheight]; exact hverify) hconn
      exact ⟨_, s', hE.readBlock, hs', _, _, hgrown', hAt'⟩

/-- And come back. -/
theorem On.disconnectBlock (hd : d.Sound) {s : NodeState} (hne : pprev ≠ [])
    (hs : d.On (p :: pprev) s) :
    ∃ b s', d.files.readBlock d.senv.toEnv (p :: pprev) = some b ∧
      b.disconnectBlock d.senv.toEnv d.files pprev s = .ok s' ∧ d.On pprev s' := by
  obtain ⟨m', vs', hgrown, hAt'⟩ := hs
  cases hgrown with
  | genesis => exact absurd rfl hne
  | @block b _ q qs m vs t u hprev hb hlink hcheck hcontext hentry hfresh hAt hheight hconn =>
      have hE := hd.entryOf hb hcheck hentry
      have hm := hprev.goodIndex hd
      obtain ⟨s', hs', hidx, hinfos, hws⟩ := CBlock.disconnectBlock_forgets (hd.infoFree b hb)
        (by rw [hAt.txIndex]; exact hm.clean) hE.stored (hAt.knows hm) (known_of_mem hb)
        hd.collisionFree hconn hAt'.txIndex hAt'.inTransaction hAt'.wallets
      have hmem := CBlock.disconnectBlock_sameMemory d.senv.toEnv d.files b (q :: qs) s
      rw [hs'] at hmem
      obtain ⟨hstats, -⟩ := CBlock.disconnectBlock_blockStats hs'
      refine ⟨b, s', hE.readBlock, hs', m, vs, hprev, ?_, ?_, by rw [hinfos]; exact hAt'.inTransaction,
        (SameMemory.nAdjustedTime hmem).trans hAt'.nAdjustedTime, hws⟩
      · rw [hidx, hAt.txIndex]
        exact forget_eq_self hfresh
      · have hold := hAt'.stats
        rw [BlockPtr.path, List.map_cons, List.cons_eq_cons] at hold
        rw [← hold.2]
        exact List.map_congr_left fun x _ => statsOf_congr hstats x

end

end Delivery

end ShinyCoin

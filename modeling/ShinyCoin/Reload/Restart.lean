import ShinyCoin.Reload.Run
import ShinyCoin.Chain.Consistency

/-!
# The index after a restart

What `LoadBlockIndex` builds from the records of a run, compared with the node that wrote them. Of
the counters only those of the main chain are compared: a block that was connected and then taken off
keeps in memory what its record no longer has.
-/

namespace ShinyCoin

/-- The entry is the one in memory. -/
structure SameBlock (env : Env) (s : NodeState) (p : CBlockIndex) (prev : BlockPtr)
    (b : LoadedBlock) : Prop where
  /-- The file position, the heights, the trust, the flags, the stake and the header. -/
  index : b.index = p
  pprev : b.pprev = BlockPtr.hash prev
  pnext : b.pnext = BlockPtr.hash ((s.pnext p.hashBlock).getD [])
  nStakeModifierChecksum : b.nStakeModifierChecksum = BlockPtr.nStakeModifierChecksum env (p :: prev)
  stats : p :: prev <:+ s.pindexBest → b.stats = s.statsOf [p]

/-- The node that was loaded has the block index of `s`. -/
structure Reloaded (env : Env) (s : NodeState) (setStakeSeen : Finset Stake) (node : LoadedNode) :
    Prop where
  keys : ∀ h : Uint256, node.mapBlockIndex[h]?.isSome = (s.mapBlockIndex h).isSome
  blocks : ∀ h p pprev, s.mapBlockIndex h = some (p :: pprev) →
    ∃ b, node.mapBlockIndex[h]? = some b ∧ SameBlock env s p pprev b
  pindexGenesisBlock : node.pindexGenesisBlock = BlockPtr.hash s.pindexGenesisBlock
  hashBestChain : node.hashBestChain = s.hashBestChain
  pindexBest : node.pindexBest = BlockPtr.hash s.pindexBest
  bnBestChainTrust : node.bnBestChainTrust = s.bnBestChainTrust
  setStakeSeen : node.setStakeSeen = setStakeSeen

section

variable {env : Env} {full : Files} {s : NodeState} {setStakeSeen : Finset Stake}
  {h : Uint256} {record : CDiskBlockIndex} {p : CBlockIndex} {pprev : BlockPtr}

/-- A record is that of an indexed block. -/
theorem ReloadInv.entry_of_record (hs : ReloadInv env full s setStakeSeen)
    (hrecord : s.txdb.data.blockIndex h = some record) :
    ∃ p pprev, s.mapBlockIndex h = some (p :: pprev) ∧
      RecordAt s.blockStats s.pindexBest p pprev record := by
  cases hptr : s.mapBlockIndex h with
  | none =>
      rw [hs.records.absent h hptr] at hrecord
      cases hrecord
  | some ptr =>
      obtain ⟨p, pprev, block, rfl, -⟩ := hs.node.tree h ptr hptr
      obtain ⟨record', hrecord', hat⟩ := hs.records.present h p pprev hptr
      rw [hrecord] at hrecord'
      cases hrecord'
      exact ⟨p, pprev, rfl, hat⟩

theorem ReloadInv.record_isSome (hs : ReloadInv env full s setStakeSeen) (h : Uint256) :
    (s.txdb.data.blockIndex h).isSome = (s.mapBlockIndex h).isSome := by
  cases hptr : s.mapBlockIndex h with
  | none =>
      rw [hs.records.absent h hptr]
      rfl
  | some ptr =>
      obtain ⟨p, pprev, block, rfl, -⟩ := hs.node.tree h ptr hptr
      obtain ⟨record, hrecord, -⟩ := hs.records.present h p pprev hptr
      rw [hrecord]
      rfl

/-- There is such a cursor. -/
theorem ReloadInv.exists_cursor (hs : ReloadInv env full s setStakeSeen) :
    ∃ cursor, CursorOver s.txdb.data.blockIndex cursor := by
  apply Lib.PMap.FiniteKeys.exists_list
  refine hs.finite.subset fun h hne => ?_
  have hsome := Option.isSome_iff_ne_none.mpr hne
  rw [hs.record_isSome] at hsome
  exact Option.isSome_iff_ne_none.mp hsome

/-- The records can be loaded. -/
theorem ReloadInv.recordsLinked (hs : ReloadInv env full s setStakeSeen)
    (hzero : ∀ header, env.getIDHash header ≠ 0) : RecordsLinked env s.txdb.data.blockIndex := by
  constructor
  · intro h record hrecord
    obtain ⟨p, pprev, hptr, hat⟩ := hs.entry_of_record hrecord
    have hentry := hs.entries h p pprev hptr
    refine ⟨?_, (hs.node.tree.hash_ne_zero hzero hptr).2⟩
    rw [CDiskBlockIndex.getBlockIDHash, hat.index, hat.hashPrev, hentry.getIDHash]
    exact hs.node.tree.hashBlock hptr
  · intro h record hrecord
    obtain ⟨p, pprev, hptr, hat⟩ := hs.entry_of_record hrecord
    rw [hat.hashPrev, hs.record_isSome]
    obtain ⟨p', pprev', block, heq, hE⟩ := hs.node.tree h _ hptr
    cases heq
    by_cases hne : pprev = []
    · exact .inl (by rw [hne]; rfl)
    · exact .inr (by rw [hE.parent hne]; rfl)
  · intro h record hrecord
    obtain ⟨p, pprev, hptr, hat⟩ := hs.entry_of_record hrecord
    rw [hs.record_isSome]
    rcases hat.hashNext with ⟨c, hsuf, hnext⟩ | ⟨-, hnext⟩
    · apply Or.inr
      rw [hnext, hs.node.inTree.head hsuf]
      rfl
    · exact .inl hnext

/-- The entry that a record fills in lacks only the trust. -/
theorem LoadedBlock.ofRecord_index (hat : RecordAt s.blockStats s.pindexBest p pprev record)
    (hentry : EntryOf env p pprev) (hhash : p.hashBlock = h) :
    (LoadedBlock.ofRecord h record).index = { p with bnChainTrust := 0 } := by
  rw [LoadedBlock.ofRecord, LoadedBlock.construct, CDiskBlockIndex.unserialized, hat.index, ← hhash]
  cases hpos : p.isProofOfStake with
  | true => simp [LoadedBlock.new]
  | false =>
      obtain ⟨hprevout, htime, hproof⟩ := hentry.noStake hpos
      simp [LoadedBlock.new, hprevout, htime, hproof]

theorem ReloadInv.untrusted (hs : ReloadInv env full s setStakeSeen) {m : LoadedMap}
    (hm : ∀ h : Uint256, m[h]? = (s.txdb.data.blockIndex h).map (LoadedBlock.ofRecord h)) :
    Untrusted env s.mapBlockIndex m := by
  constructor
  · intro h hnone
    rw [hm, hs.records.absent h hnone]
    rfl
  · intro h p pprev hptr
    obtain ⟨record, hrecord, hat⟩ := hs.records.present h p pprev hptr
    refine ⟨LoadedBlock.ofRecord h record, by rw [hm, hrecord]; rfl, ?_, hat.hashPrev⟩
    exact LoadedBlock.ofRecord_index hat (hs.entries h p pprev hptr) (hs.node.tree.hashBlock hptr)

/-- The loaded entry of an indexed block. -/
theorem ReloadInv.sameBlock (hs : ReloadInv env full s setStakeSeen)
    (hptr : s.mapBlockIndex h = some (p :: pprev))
    (hat : RecordAt s.blockStats s.pindexBest p pprev record) :
    SameBlock env s p pprev ((LoadedBlock.ofRecord h record).trusted env (p :: pprev)) := by
  have hhash := hs.node.tree.hashBlock hptr
  refine ⟨?_, hat.hashPrev, ?_, rfl, fun hsuf => hat.stats (.inl hsuf)⟩
  · rw [LoadedBlock.trusted, LoadedBlock.ofRecord_index hat (hs.entries h p pprev hptr) hhash]
    rfl
  · apply hat.hashNext.unique
    have hown : s.mapBlockIndex (BlockPtr.hash (p :: pprev)) = some (p :: pprev) := by
      rw [BlockPtr.hash, hhash]
      exact hptr
    exact hs.node.next.nextOn hs.node.inTree hown (List.cons_ne_nil _ _)

/-- The best chain as it is loaded. -/
theorem ReloadInv.loadBestChain (hs : ReloadInv env full s setStakeSeen)
    (hzero : ∀ header, env.getIDHash header ≠ 0) (hstarted : s.Started) {l : LoadedIndex}
    (hkeys : ∀ h : Uint256, l.mapBlockIndex[h]?.isSome = (s.mapBlockIndex h).isSome)
    (hblocks : ∀ h p pprev, s.mapBlockIndex h = some (p :: pprev) →
      ∃ b, l.mapBlockIndex[h]? = some b ∧ SameBlock env s p pprev b)
    (hgenesis : l.pindexGenesisBlock
      = if (s.mapBlockIndex env.hashGenesisBlock).isSome then env.hashGenesisBlock else 0)
    (hseen : l.setStakeSeen = setStakeSeen) (hashSyncCheckpoint : Uint256) :
    ∃ node, ShinyCoin.loadBestChain s.txdb.data (some hashSyncCheckpoint) l = .ok node ∧
      Reloaded env s setStakeSeen node := by
  have hbest := hs.node.dbHashBestChain
  have htrust := hs.bnBestChainTrust
  have hhash := hs.node.hashBestChain
  rcases hs.node.genesis with ⟨hg, hnil⟩ | ⟨hg, hne⟩
  · -- nothing is indexed
    have hnone : s.mapBlockIndex env.hashGenesisBlock = none := hstarted hg _
    rw [hnone] at hgenesis
    replace hgenesis : l.pindexGenesisBlock = 0 := hgenesis
    rw [hnil] at hbest htrust hhash
    refine ⟨{ l with }, ?_, hkeys, hblocks, ?_, hhash.symm, ?_, htrust.symm, hseen⟩
    · rw [ShinyCoin.loadBestChain, TxDbData.readHashBestChain, hbest]
      simp [BlockPtr.hash, hgenesis]
    · rw [hgenesis, hg]
      rfl
    · rw [hnil]
      rfl
  · obtain ⟨p, pprev, hp⟩ := List.exists_cons_of_ne_nil hne
    have hptr := hs.node.best hne
    have hroot := hs.node.tree.hash_ne_zero hzero hg
    have hnonzero := (hs.node.tree.hash_ne_zero hzero hptr).2
    rw [hp] at hptr hbest htrust hnonzero hhash
    obtain ⟨b, hb, hsame⟩ := hblocks _ p pprev hptr
    rw [hg] at hgenesis
    replace hgenesis : l.pindexGenesisBlock = env.hashGenesisBlock := hgenesis
    have hload : ShinyCoin.loadBestChain s.txdb.data (some hashSyncCheckpoint) l = .ok
        { l with
          hashBestChain := BlockPtr.hash (p :: pprev)
          pindexBest := BlockPtr.hash (p :: pprev)
          nBestHeight := b.index.nHeight
          bnBestChainTrust := b.index.bnChainTrust
          hashSyncCheckpoint := hashSyncCheckpoint
          bnBestInvalidTrust := s.txdb.data.bnBestInvalidTrust } := by
      rw [ShinyCoin.loadBestChain, TxDbData.readHashBestChain, hbest, if_neg hnonzero]
      simp only [hb]
    refine ⟨_, hload, hkeys, hblocks, ?_, hhash.symm, ?_, ?_, hseen⟩
    · rw [hroot.1]
      exact hgenesis
    · rw [hp]
    · show b.index.bnChainTrust = _
      rw [hsame.index, htrust]
      rfl

/-- In every run whose postponed blocks connect, `LoadBlockIndex` rebuilds the block index from the
records, in whatever order the cursor has them and wherever the entries are allocated. -/
theorem loadBlockIndex_restores (env : Env) (full : Files)
    (hzero : ∀ header, env.getIDHash header ≠ 0) (s : NodeState) (setStakeSeen : Finset Stake)
    (hrun : IndexRun env full s setStakeSeen) (addr : Uint256 → Nat)
    (cursor : List (Uint256 × CDiskBlockIndex)) (hcursor : CursorOver s.txdb.data.blockIndex cursor)
    (hashSyncCheckpoint : Uint256) :
    ∃ node, s.txdb.loadBlockIndex env addr (cursor.map Prod.snd) (some hashSyncCheckpoint)
        = .ok node ∧ Reloaded env s setStakeSeen node := by
  obtain ⟨hs, hstarted⟩ := hrun.inv hzero
  obtain ⟨st, hst, hloading⟩ := loadRecords_ok (hs.recordsLinked hzero) hcursor
  have hentries := hloading.getElem? hcursor
  obtain ⟨m, hm, htrusted⟩ := calculateTrusts_ok (hs.untrusted hentries) hs.node.tree hzero
    (fun h ptr hptr => by
      obtain ⟨p, pprev, block, rfl, -⟩ := hs.node.tree h ptr hptr
      exact (hs.entries h p pprev hptr).sumsTrust) addr
  have hkeys : ∀ h : Uint256, m[h]?.isSome = (s.mapBlockIndex h).isSome := by
    intro h
    rw [htrusted, hentries, Option.isSome_map, Option.isSome_map, hs.record_isSome]
  have hblocks : ∀ h p pprev, s.mapBlockIndex h = some (p :: pprev) →
      ∃ b, m[h]? = some b ∧ SameBlock env s p pprev b := by
    intro h p pprev hptr
    obtain ⟨record, hrecord, hat⟩ := hs.records.present h p pprev hptr
    refine ⟨(LoadedBlock.ofRecord h record).trusted env (p :: pprev), ?_, hs.sameBlock hptr hat⟩
    rw [htrusted, hentries, hrecord, ptrAt, hptr]
    rfl
  have hmem : ∀ h, h ∈ cursor.map Prod.fst ↔ (s.mapBlockIndex h).isSome = true := by
    intro h
    rw [← hs.record_isSome, Option.isSome_iff_exists]
    simp only [List.mem_map, Prod.exists, exists_and_right, exists_eq_right]
    exact exists_congr fun record => hcursor.2 h record
  have hgenesis : st.pindexGenesisBlock
      = if (s.mapBlockIndex env.hashGenesisBlock).isSome then env.hashGenesisBlock else 0 := by
    rw [hloading.genesis]
    simp only [hmem]
  have hseen : st.setStakeSeen = setStakeSeen := by
    ext x
    rw [hloading.stakeSeen, hs.stakes]
    constructor
    · rintro ⟨h, record, hin, hrest⟩
      obtain ⟨p, pprev, hptr, hat⟩ := hs.entry_of_record ((hcursor.2 h record).mp hin)
      rw [hat.index] at hrest
      exact ⟨h, p, pprev, hptr, hrest⟩
    · rintro ⟨h, p, pprev, hptr, hrest⟩
      obtain ⟨record, hrecord, hat⟩ := hs.records.present h p pprev hptr
      refine ⟨h, record, (hcursor.2 h record).mpr hrecord, ?_⟩
      rw [hat.index]
      exact hrest
  let loaded : LoadedIndex := { st with mapBlockIndex := m }
  obtain ⟨node, hnode, hreloaded⟩ := hs.loadBestChain (l := loaded) hzero hstarted
    hkeys hblocks hgenesis hseen hashSyncCheckpoint
  refine ⟨node, ?_, hreloaded⟩
  rw [CTxDB.loadBlockIndex]
  exact Lib.bind_eq_ok.mpr ⟨st, hst, Lib.bind_eq_ok.mpr ⟨m, hm, hnode⟩⟩

end

/-! ## A run -/

/-- A call postpones nothing when the parent has no more trust than the best block. -/
theorem postponedConnect_of_trust_le {env : Env} {files : Files} {s : NodeState} {p q : CBlockIndex}
    {qprev : BlockPtr} (hle : ∀ best ∈ s.pindexBest.head?, q.bnChainTrust ≤ best.bnChainTrust) :
    PostponedConnect env files p (q :: qprev) s := by
  intro best rest s₁ hbest _
  have hq := hle best (by rw [hbest]; rfl)
  rw [postpone, if_neg (by omega)]
  rfl

/-- A block of the sample tree is added. -/
def addSample (block : CBlock) (nBlockPos : Nat) (s : NodeState) : NodeState :=
  Lib.final (block.addToBlockIndex Env.plain forkFiles forkKernel 1 nBlockPos s)

def restartG : NodeState := addSample forkGenesis 0 {}
def restartA1 : NodeState := addSample blockA1 1000 restartG
def restartB1 : NodeState := addSample blockB1 3000 restartA1

/-- The chain is reorganized to the second branch. -/
def restartReorg : NodeState :=
  Lib.final (blockB1.setBestChain Env.plain forkFiles indexB1 [indexG] restartB1)

/-- A sample block on top of the genesis block, which no best block has less trust than. -/
theorem IndexRun.addSample {s : NodeState} {block : CBlock} {nBlockPos : Nat}
    (hs : IndexRun Env.plain forkFiles s ∅)
    (hblock : forkFiles.block 1 nBlockPos = some block) (hwork : block.isProofOfStake = false)
    (hnew : s.mapBlockIndex (Env.plain.getIDHash block.toCBlockHeader) = none)
    (hparent : s.mapBlockIndex block.hashPrevBlock = some [indexG])
    (hbest : ∃ best rest, s.pindexBest = best :: rest ∧ 1 ≤ best.bnChainTrust) :
    IndexRun Env.plain forkFiles (ShinyCoin.addSample block nBlockPos s) ∅ := by
  have hseen : block.stakesAfter Env.plain (ShinyCoin.addSample block nBlockPos s) ∅ = ∅ := by
    simp [CBlock.stakesAfter, hwork]
  rw [← hseen]
  apply IndexRun.add hs forkFiles_partOf (by decide) hblock hnew
  · exact .inl (by rw [hparent]; rfl)
  · intro hempty
    rw [hempty] at hparent
    cases hparent
  · intro p _
    rw [hparent]
    apply postponedConnect_of_trust_le
    obtain ⟨best, rest, heq, hle⟩ := hbest
    intro best' hbest'
    replace hbest' : best' ∈ s.pindexBest.head? := hbest'
    rw [heq] at hbest'
    cases hbest'
    exact hle

theorem indexRun_restartG : IndexRun Env.plain forkFiles restartG ∅ := by
  have hfresh : IndexRun Env.plain forkFiles {} ∅ := .fresh ⟨rfl, rfl, rfl, rfl, rfl, rfl, rfl⟩ rfl
  have hblock : forkFiles.block 1 0 = some forkGenesis := rfl
  have hseen : forkGenesis.stakesAfter Env.plain restartG ∅ = ∅ := by
    simp [CBlock.stakesAfter, show forkGenesis.isProofOfStake = false from rfl]
  rw [← hseen]
  unfold restartG ShinyCoin.addSample
  apply IndexRun.add hfresh forkFiles_partOf (by decide) hblock rfl
  · exact .inr ⟨fun _ => rfl, rfl, rfl⟩
  · exact fun _ => by decide
  · intro p _ best rest s₁ hbest
    cases hbest

theorem indexRun_restartB1 : IndexRun Env.plain forkFiles restartB1 ∅ := by
  have hA1 : IndexRun Env.plain forkFiles restartA1 ∅ :=
    indexRun_restartG.addSample rfl rfl (by decide +kernel) (by decide +kernel)
      ⟨indexG, [], by decide +kernel, by decide⟩
  exact hA1.addSample rfl rfl (by decide +kernel) (by decide +kernel)
    ⟨indexA1, [indexG], by decide +kernel, by decide⟩

theorem indexRun_restartReorg : IndexRun Env.plain forkFiles restartReorg ∅ := by
  have hbest : restartB1.pindexBest = [indexA1, indexG] := by decide +kernel
  apply indexRun_restartB1.best forkFiles_partOf (by decide +kernel) rfl
  apply postponedConnect_of_trust_le
  rw [hbest]
  decide

/-- The second branch becomes the best one, and the node is restarted. -/
theorem loadBlockIndex_restores_restartReorg :
    restartReorg.pindexBest = [indexB1, indexG] ∧ ∃ cursor node,
      CursorOver restartReorg.txdb.data.blockIndex cursor ∧
      restartReorg.txdb.loadBlockIndex Env.plain id (cursor.map Prod.snd) (some 1) = .ok node ∧
      Reloaded Env.plain restartReorg ∅ node := by
  obtain ⟨cursor, hcursor⟩ := (indexRun_restartReorg.inv plain_getIDHash_ne_zero).1.exists_cursor
  obtain ⟨node, hnode⟩ := loadBlockIndex_restores Env.plain forkFiles plain_getIDHash_ne_zero
    restartReorg ∅ indexRun_restartReorg id cursor hcursor 1
  exact ⟨by decide +kernel, cursor, node, hcursor, hnode⟩

end ShinyCoin

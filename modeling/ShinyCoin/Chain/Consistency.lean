import ShinyCoin.Chain.Node

/-!
# Which chain a node is on

Two instances of a run's invariant: the transaction index is the replay of the connected blocks, and
the rows of the info store are the replay of their infos. Both need that no postponed block fails.
The index also needs that no block is taken off that repeats a transaction of an earlier one, whose
entry would go with it.

`SetBestChain` itself does not see to the first: a postponed block that fails ends its loop, and it
goes on as if the loop had finished.
-/

namespace ShinyCoin

/-! ## The index -/

/-- The index is the replay of the connected blocks. -/
def IndexLedger (env : Env) : LedgerInv := fun l m _ => m = replayIndex env l ∧ BlocksSpend env l

theorem kept_indexLedger (env : Env) (full : Files) :
    Kept env full (RepeatsNone env) (IndexLedger env) where
  connect := by
    intro files block pindex pprev s s' _ hfile _ hI h
    obtain ⟨st, nCoinbaseOut, ws, hcheck, hst, -, -, -⟩ := CBlock.connectBlock_ok h
    obtain ⟨-, hspend⟩ := CBlock.connectTxs_applyTo hst
    obtain ⟨hblock, -⟩ := CBlock.checkConnect_ok hcheck
    have hindex := CBlock.connectBlock_txIndex h
    have hv := CBlock.connectBlock_vConnected h
    rw [hI.1] at hindex hspend
    rw [LedgerInv.Holds, IndexLedger, hv]
    exact ⟨hindex, hfile, hblock.nodup, hspend, hI.2⟩
  disconnect := by
    intro files block pindex pprev rest s s' _ hcons hoff hI h
    obtain ⟨s₁, hloop, hv, hidx, -⟩ := CBlock.disconnectBlock_ledger h
    obtain ⟨hindex, hspends⟩ := hI
    rw [hcons] at hindex hspends hv
    obtain ⟨hfile, hnodup, hspend, hrest⟩ := hspends
    rw [LedgerInv.Holds, IndexLedger, hv, hidx, List.tail_cons]
    refine ⟨?_, hrest⟩
    refine CBlock.disconnectTxs_index hfile (cleanSlots_replayIndex hrest) ?_ hnodup hspend hindex
      hloop
    intro tx htx
    exact replayIndex_eq_none fun x hx tx' htx' => hoff tx htx x hx tx' htx'

/-! ## The infos -/

/-- The rows are the replay of the infos, and each has the number of its transaction. -/
def InfoLedger (env : Env) (full : Files) : LedgerInv := fun l m t =>
  SamePos m (replayIndex env l) ∧ unnumberedRows t = 0 ∧
    ∃ st, replayInfos env full l = .ok st ∧ st.inTransaction = true ∧ st.db = t

theorem infoLedger_empty (env : Env) (full : Files) :
    InfoLedger env full [] Lib.PMap.empty Lib.Table.empty := by
  refine ⟨?_, rfl, _, rfl, rfl, rfl⟩
  intro k txindex hk
  cases hk

theorem CBlock.processInfos_inTransaction {env : Env} {files : Files} {block : CBlock}
    {m : TxIndexMap} {st st' : CTxInfoStore} (h : block.processInfos env files m st = .ok st') :
    st'.curTransaction = st.curTransaction := by
  refine Lib.foldlM_ok_inv
    (fun _ (st₁ : CTxInfoStore) => st₁.curTransaction = st.curTransaction) ?_ rfl h
  intro x _ st₁ st₂ hI hstep
  rw [← hI]
  split at hstep
  · cases hstep
    rfl
  · have := CTransaction.procUndoTxInfos_curTransaction env files m false
      (env.getIDHash block.toCBlockHeader) x.2 x.1 st₁
    rw [CTransaction.processTxInfos] at hstep
    rw [hstep] at this
    exact this

theorem kept_infoLedger (env : Env) (full : Files) :
    Kept env full (fun _ _ => True) (InfoLedger env full) where
  connect := by
    intro files block pindex pprev s s' hfiles _ hin hI h
    obtain ⟨hpos, hnum, stRe, hre, hreIn, hdb⟩ := hI
    have hidx := CBlock.connectBlock_txIndex h
    obtain ⟨st, nCoinbaseOut, ws, -, hst, -, -, rfl⟩ := CBlock.connectBlock_ok h
    obtain ⟨hnum', stRe', hre', hrows⟩ :=
      CBlock.connectTxs_processInfos hfiles hpos ⟨hdb, hin, hreIn⟩ hst
    have hv := CBlock.connectBlock_vConnected h
    have hinfos : ({ block.writeConnected pindex pprev st nCoinbaseOut
        { s with infos := st.infos } with wallets := ws } : NodeState).infos.db = st.infos.db := by
      cases pprev <;> rfl
    rw [LedgerInv.Holds, InfoLedger, hv, hinfos]
    refine ⟨?_, by rw [hnum', hnum], stRe', ?_, hrows.inTransaction', hrows.db⟩
    · rw [hidx]
      exact hpos.applyTxs
    · rw [replayInfos, hre]
      exact hre'
  disconnect := by
    intro files block pindex pprev rest s s' _ hcons _ hI h
    obtain ⟨hpos, hnum, stRe, hre, hreIn, hdb⟩ := hI
    obtain ⟨s₁, hloop, hv, hidx, hinfos⟩ := CBlock.disconnectBlock_ledger h
    obtain ⟨hno, hsame⟩ := CBlock.disconnectTxs_unnumbered hnum hloop
    rw [hcons] at hpos hre hv
    rw [LedgerInv.Holds, InfoLedger, hv, hidx, hinfos, hsame, List.tail_cons]
    refine ⟨?_, hnum, stRe, ?_, hreIn, hdb⟩
    · -- an entry that is left is not one of the block's
      intro k txindex hk
      obtain ⟨hk', hne⟩ := CBlock.disconnectTxs_pos hloop hk
      obtain ⟨txindex₀, hk₀, heq⟩ := Option.map_eq_some_iff.mp hk'
      have := hpos k txindex₀ hk₀
      rw [replayIndex, CBlock.applyTo,
        pos_applyTxs (fun tx htx => hne tx (List.mem_reverse.mpr htx)), heq] at this
      exact this
    · obtain ⟨st₀, h₀, hproc⟩ := Lib.bind_eq_ok.mp hre
      have hin₀ : st₀.inTransaction = true := by
        rw [CTxInfoStore.inTransaction, ← CBlock.processInfos_inTransaction hproc]
        exact hreIn
      rw [CBlock.processInfos_of_noInfos hin₀
        (fun tx htx => hno tx (List.mem_reverse.mpr htx))] at hproc
      rw [← Except.ok.inj hproc]
      exact h₀

/-! ## Runs -/

/-- Every call of `SetBestChain` that a run may make: what it postpones connects, and the blocks it
takes off, which are those of the main chain that are no ancestors of the new block, repeat no
transaction of the blocks below them. -/
def SwitchOk (env : Env) (files : Files) (p : CBlockIndex) (pprev : BlockPtr) (s : NodeState) :
    Prop :=
  PostponedConnect env files p pprev s ∧
    ∀ before x rest, s.txdb.data.vConnected = before ++ x :: rest → ¬ x.2 <:+ p :: pprev →
      RepeatsNone env x.1 rest

/-- The best chain is one and the same everywhere: in memory, in the database, in the links and in
the transaction index. -/
structure BestChainConsistent (env : Env) (full : Files) (s : NodeState) : Prop where
  hash : s.hashBestChain = BlockPtr.hash s.pindexBest
  dbHash : s.txdb.data.hashBestChain = s.hashBestChain
  /-- Nothing is pending in the database. -/
  committed : s.txdb.vTxn = []
  /-- The connected blocks, the last one first, are the best block and its ancestors but for the
  genesis block, which is never connected. -/
  connected : s.txdb.data.vConnected.map Prod.snd = BlockPtr.above s.pindexBest
  onDisk : ∀ x ∈ s.txdb.data.vConnected, BlockAt full x.2 x.1
  next : ∀ n, s.pindexBest.length ≤ n →
    followNext s.pnext n s.pindexGenesisBlock = (BlockPtr.path s.pindexBest).reverse
  index : s.txdb.data.txIndex = replayIndex env s.txdb.data.vConnected

theorem NodeInv.followNext {env : Env} {full : Files} {s : NodeState} (hs : NodeInv env full s)
    {n : Nat} (hn : s.pindexBest.length ≤ n) :
    followNext s.pnext n s.pindexGenesisBlock = (BlockPtr.path s.pindexBest).reverse := by
  rcases hs.genesis with ⟨hg, hb⟩ | ⟨hg, hb⟩
  · rw [hg, hb]
    cases n <;> rfl
  · obtain ⟨g, hroot, hsuf⟩ := hs.tree.root (hs.best hb)
    rw [hg, Option.some.injEq] at hroot
    rw [hroot, hs.next.followNext hs.inTree (List.cons_ne_nil _ _) hsuf
      (by rw [List.length_singleton]; omega), path_eq_backTo hsuf]
    rfl

/-- In every run whose calls postpone no block that then fails, and take off no block that repeats
a transaction, a node is on one chain. -/
theorem best_chain_consistent (env : Env) (full : Files)
    (hzero : ∀ header, env.getIDHash header ≠ 0) (s : NodeState)
    (hs : Reachable env full (SwitchOk env) s) : BestChainConsistent env full s := by
  obtain ⟨hinv, hledger⟩ := hs.inv (kept_indexLedger env full) ⟨rfl, trivial⟩ hzero
    (fun _ _ _ _ h => h)
  exact ⟨hinv.hashBestChain, hinv.dbHashBestChain.trans hinv.hashBestChain.symm, hinv.idle,
    hinv.chain.path, hinv.chain.onDisk, fun n hn => hinv.followNext hn, hledger.1⟩

/-- In every run whose calls postpone no block that then fails, the rows of the info store are
those of the connected blocks, in the order of the chain. -/
theorem infos_of_connected (env : Env) (full : Files)
    (hzero : ∀ header, env.getIDHash header ≠ 0) (s : NodeState)
    (hs : Reachable env full (PostponedConnect env) s) :
    s.infos.inTransaction = false ∧
      s.txdb.data.vConnected.map Prod.snd = BlockPtr.above s.pindexBest ∧
      ∃ st, replayInfos env full s.txdb.data.vConnected = .ok st ∧ s.infos.db.rows = st.db.rows := by
  obtain ⟨hinv, -, -, st, hre, -, hdb⟩ := hs.inv (kept_infoLedger env full)
    (infoLedger_empty env full) hzero (fun _ _ _ _ h => ⟨h, fun _ _ _ _ _ => trivial⟩)
  exact ⟨hinv.noView, hinv.chain.path, st, hre, by rw [hdb]⟩

/-! ## A run -/

/-- A block on top of the best one postpones nothing and takes nothing off. -/
theorem switchOk_of_extends {env : Env} {full : Files} {s : NodeState} (hs : NodeInv env full s)
    (files : Files) (p : CBlockIndex) {pprev : BlockPtr} (hprev : s.pindexBest = pprev) :
    SwitchOk env files p pprev s := by
  subst hprev
  refine ⟨?_, ?_⟩
  · intro best rest s₁ hbest _
    rw [hbest, postpone, if_neg (lt_irrefl _)]
    rfl
  · intro before x rest hx hnot
    refine absurd ?_ hnot
    have hmem : x.2 ∈ BlockPtr.above s.pindexBest := by
      rw [← hs.chain.path, hx]
      simp
    exact (BlockPtr.mem_path.mp (List.mem_of_mem_dropLast hmem)).2.trans (List.suffix_cons _ _)

/-- A coinbase that is told from others by its time. -/
def forkCoinbase (nTime : Nat) (nValue : ℤ) : CTransaction where
  nTime := nTime
  vin := [{ prevout := COutPoint.null, scriptSig := [0, 0] }]
  vout := [{ nValue := nValue, scriptPubKey := [1] }]

/-- A payment of the coinbase of `blockA1` that sets an info of its address. -/
def forkPayment : CTransaction where
  nTime := 5
  vin := [{ prevout := ⟨2, 0⟩, infos := [⟨⟨INFO_NORMAL, [97]⟩, [98]⟩] }]
  vout := [{ nValue := COIN, scriptPubKey := [2] }]

/-- A block with hash `nNonce + 1`, of trust 1. -/
def forkBlock (nNonce hashPrevBlock : Nat) (vtx : List CTransaction) : CBlock where
  hashPrevBlock := hashPrevBlock
  nTime := 5
  nBits := 0x03000001
  nNonce := nNonce
  vtx := vtx

def forkGenesis : CBlock := forkBlock 0 0 [forkCoinbase 0 0]
def blockA1 : CBlock := forkBlock 1 1 [forkCoinbase 1 COIN]
def blockA2 : CBlock := forkBlock 2 2 [forkCoinbase 2 COIN]
def blockB1 : CBlock := forkBlock 3 1 [forkCoinbase 3 COIN]

/-- Its coinbase claims a thousand coins. -/
def blockA3 : CBlock := forkBlock 4 3 [forkCoinbase 4 (1000 * COIN), forkPayment]

/-- The same payment in a block that is in order. -/
def blockC2 : CBlock := forkBlock 5 2 [forkCoinbase 4 COIN, forkPayment]

/-- The payment in a block on top of `blockA2`. -/
def blockD3 : CBlock := forkBlock 7 3 [forkCoinbase 4 COIN, forkPayment]

/-- Its coinbase claims too much as well. -/
def blockC3 : CBlock := forkBlock 6 6 [forkCoinbase 6 (1000 * COIN)]

def forkFiles : Files where
  block _ nBlockPos :=
    match nBlockPos with
    | 0 => some forkGenesis
    | 1000 => some blockA1
    | 2000 => some blockA2
    | 3000 => some blockB1
    | 4000 => some blockA3
    | 5000 => some blockC2
    | 6000 => some blockC3
    | 7000 => some blockD3
    | _ => none
  tx pos :=
    if pos = ⟨1, 1000, 1081⟩ then some (forkCoinbase 1 COIN)
    else if pos = ⟨1, 2000, 2081⟩ then some (forkCoinbase 2 COIN)
    else none

def forkKernel : StakeKernel where
  nEntropyBit := 0
  hashProofOfStake := none
  nextStakeModifier _ := some (0, false)
  checkStakeModifierCheckpoints _ := true

def indexG : CBlockIndex := forkGenesis.newIndex Env.plain 1 0 []
def indexA1 : CBlockIndex := blockA1.newIndex Env.plain 1 1000 [indexG]
def indexA2 : CBlockIndex := blockA2.newIndex Env.plain 1 2000 [indexA1, indexG]
def indexB1 : CBlockIndex := blockB1.newIndex Env.plain 1 3000 [indexG]
def indexA3 : CBlockIndex := blockA3.newIndex Env.plain 1 4000 [indexA2, indexA1, indexG]
def indexC2 : CBlockIndex := blockC2.newIndex Env.plain 1 5000 [indexA1, indexG]
def indexC3 : CBlockIndex := blockC3.newIndex Env.plain 1 6000 [indexC2, indexA1, indexG]
def indexD3 : CBlockIndex := blockD3.newIndex Env.plain 1 7000 [indexA2, indexA1, indexG]

/-- A block is indexed and becomes the best one. -/
def forkStep (block : CBlock) (p : CBlockIndex) (pprev : BlockPtr) (s : NodeState) : NodeState :=
  Lib.final (block.setBestChain Env.plain forkFiles p pprev (s.insertIndex p pprev))

def stateG : NodeState := forkStep forkGenesis indexG [] {}
def stateA1 : NodeState := forkStep blockA1 indexA1 [indexG] stateG
def stateA2 : NodeState := forkStep blockA2 indexA2 [indexA1, indexG] stateA1
def stateC2 : NodeState := forkStep blockC2 indexC2 [indexA1, indexG] stateA1

theorem plain_getIDHash_ne_zero (header : CBlockHeader) : Env.plain.getIDHash header ≠ 0 :=
  Nat.succ_ne_zero _

theorem forkFiles_partOf : forkFiles.PartOf forkFiles := ⟨fun _ _ _ h => h, fun _ _ h => h⟩

/-- Making an indexed block of the sample tree the best one. -/
theorem Reachable.forkStep {StepOk : Files → CBlockIndex → BlockPtr → NodeState → Prop}
    {s : NodeState} {block : CBlock} {p : CBlockIndex} {pprev : BlockPtr}
    (hs : Reachable Env.plain forkFiles StepOk (s.insertIndex p pprev))
    (hblock : forkFiles.block p.nFile p.nBlockPos = some block)
    (hok : StepOk forkFiles p pprev (s.insertIndex p pprev)) :
    Reachable Env.plain forkFiles StepOk (ShinyCoin.forkStep block p pprev s) :=
  hs.best forkFiles_partOf (Lib.PMap.set_self _ _ _) hblock hok

/-- The same for a block on top of the best one. -/
theorem Reachable.forkExtend {s : NodeState} {block : CBlock} {p : CBlockIndex} {pprev : BlockPtr}
    (hs : Reachable Env.plain forkFiles (SwitchOk Env.plain) (s.insertIndex p pprev))
    (hblock : forkFiles.block p.nFile p.nBlockPos = some block) (hbest : s.pindexBest = pprev) :
    Reachable Env.plain forkFiles (SwitchOk Env.plain) (ShinyCoin.forkStep block p pprev s) := by
  have hinv := (hs.inv (kept_indexLedger _ _) ⟨rfl, trivial⟩ plain_getIDHash_ne_zero
    (fun _ _ _ _ h => h)).1
  exact hs.forkStep hblock (switchOk_of_extends hinv _ _ hbest)

theorem reachable_stateA1 : Reachable Env.plain forkFiles (SwitchOk Env.plain) stateA1 := by
  have hfresh : Reachable Env.plain forkFiles (SwitchOk Env.plain) {} :=
    .fresh ⟨rfl, rfl, rfl, rfl, rfl, rfl, rfl⟩
  have hfillG : forkKernel.fill forkGenesis (forkGenesis.newIndex Env.plain 1 0 []) []
      = .ok indexG := rfl
  have hfillA1 : forkKernel.fill blockA1 (blockA1.newIndex Env.plain 1 1000 [indexG]) [indexG]
      = .ok indexA1 := rfl
  have hG : Reachable Env.plain forkFiles (SwitchOk Env.plain) stateG :=
    (hfresh.indexGenesis (fun _ => rfl) rfl rfl (by decide) rfl hfillG).forkExtend rfl rfl
  exact (hG.indexUnder (by decide) (by decide) (by decide) rfl hfillA1).forkExtend
    rfl (by decide)

theorem reachable_stateA2 : Reachable Env.plain forkFiles (SwitchOk Env.plain) stateA2 := by
  have hfill : forkKernel.fill blockA2 (blockA2.newIndex Env.plain 1 2000 [indexA1, indexG])
      [indexA1, indexG] = .ok indexA2 := rfl
  exact (reachable_stateA1.indexUnder (by decide) (by decide) (by decide) rfl
    hfill).forkExtend rfl (by decide)

theorem reachable_stateC2 : Reachable Env.plain forkFiles (SwitchOk Env.plain) stateC2 := by
  have hfill : forkKernel.fill blockC2 (blockC2.newIndex Env.plain 1 5000 [indexA1, indexG])
      [indexA1, indexG] = .ok indexC2 := rfl
  exact (reachable_stateA1.indexUnder (by decide) (by decide) (by decide) rfl
    hfill).forkExtend rfl (by decide)

/-! ### A postponed block that connects

The node is on `blockA2` when a sync checkpoint takes it to `blockB1`. Then `blockD3` arrives: its
parent has more trust than `blockB1` already, so it is postponed until the node is back on `blockA2`. -/

/-- After the checkpoint. -/
def stateB1 : NodeState := forkStep blockB1 indexB1 [indexG] stateA2

/-- Back on the longer branch. -/
def stateD3 : NodeState := forkStep blockD3 indexD3 [indexA2, indexA1, indexG] stateB1

/-- Blocks with different transactions repeat none. -/
theorem repeatsNone_of_nodup {env : Env} {blocks before rest : List (CBlock × BlockPtr)}
    {x : CBlock × BlockPtr} (h : (blocks.flatMap fun x => x.1.vtx.map env.getHash).Nodup)
    (hblocks : blocks = before ++ x :: rest) : RepeatsNone env x.1 rest := by
  rw [hblocks, List.flatMap_append, List.flatMap_cons, List.nodup_append, List.nodup_append] at h
  intro tx htx y hy tx' htx' heq
  refine h.2.1.2.2 _ (List.mem_map_of_mem htx) _ (List.mem_flatMap.mpr ⟨y, hy, ?_⟩) heq.symm
  exact List.mem_map_of_mem htx'

/-- A call that postpones nothing. -/
theorem postponedConnect_of_nil {env : Env} {files : Files} {p : CBlockIndex} {pprev : BlockPtr}
    {s : NodeState}
    (h : ∀ best rest, s.pindexBest = best :: rest →
      (postpone best.bnChainTrust (p :: pprev)).1 = []) : PostponedConnect env files p pprev s := by
  intro best rest s₁ hbest _
  rw [h best rest hbest]
  rfl

theorem reachable_stateB1 : Reachable Env.plain forkFiles (SwitchOk Env.plain) stateB1 := by
  have hfill : forkKernel.fill blockB1 (blockB1.newIndex Env.plain 1 3000 [indexG]) [indexG]
      = .ok indexB1 := rfl
  have hbest : stateA2.pindexBest = [indexA2, indexA1, indexG] := by decide +kernel
  have hnodup : (stateA2.txdb.data.vConnected.flatMap fun x =>
      x.1.vtx.map Env.plain.getHash).Nodup := by decide +kernel
  refine (reachable_stateA2.indexUnder (by decide) (by decide) (by decide) rfl hfill).forkStep rfl
    ⟨postponedConnect_of_nil fun best rest h => ?_, fun before x rest hx _ => ?_⟩
  · obtain rfl : indexA2 = best := (List.cons.inj (hbest.symm.trans h)).1
    decide
  · exact repeatsNone_of_nodup hnodup hx

theorem reachable_stateD3 : Reachable Env.plain forkFiles (SwitchOk Env.plain) stateD3 := by
  have hfill : forkKernel.fill blockD3 (blockD3.newIndex Env.plain 1 7000 [indexA2, indexA1, indexG])
      [indexA2, indexA1, indexG] = .ok indexD3 := rfl
  have hbest : stateB1.pindexBest = [indexB1, indexG] := by decide +kernel
  have hnodup : (stateB1.txdb.data.vConnected.flatMap fun x =>
      x.1.vtx.map Env.plain.getHash).Nodup := by decide +kernel
  have hpostponed : (postpone indexB1.bnChainTrust [indexD3, indexA2, indexA1, indexG]).1
      = [[indexD3, indexA2, indexA1, indexG]] := by decide
  have hconnects : (match reorganize Env.plain forkFiles
        (postpone indexB1.bnChainTrust [indexD3, indexA2, indexA1, indexG]).2
        (stateB1.insertIndex indexD3 [indexA2, indexA1, indexG]).inView with
      | .ok s₁ => (connectPostponed Env.plain forkFiles s₁ [indexD3, indexA2, indexA1, indexG]).isOk
      | .error _ => false) = true := by decide +kernel
  refine (reachable_stateB1.indexUnder (by decide) (by decide) (by decide) rfl hfill).forkStep rfl
    ⟨fun best rest s₁ h hs₁ => ?_, fun before x rest hx _ => repeatsNone_of_nodup hnodup hx⟩
  obtain rfl : indexB1 = best := (List.cons.inj (hbest.symm.trans h)).1
  rw [hs₁] at hconnects
  rw [hpostponed]
  cases hone : connectPostponed Env.plain forkFiles s₁ [indexD3, indexA2, indexA1, indexG] with
  | ok s₂ =>
      rw [List.reverse_singleton, List.foldlM_cons, hone]
      rfl
  | error e =>
      dsimp only at hconnects
      rw [hone] at hconnects
      cases hconnects

theorem best_chain_consistent_stateD3 :
    stateB1.hashBestChain = 4 ∧ stateD3.hashBestChain = 8 ∧
      BestChainConsistent Env.plain forkFiles stateD3 :=
  ⟨by decide +kernel, by decide +kernel,
    best_chain_consistent Env.plain forkFiles plain_getIDHash_ne_zero stateD3 reachable_stateD3⟩

theorem infos_of_connected_stateD3 : stateD3.infos.db.rows.length = 1 ∧
    ∃ st, replayInfos Env.plain forkFiles stateD3.txdb.data.vConnected = .ok st ∧
      stateD3.infos.db.rows = st.db.rows := by
  obtain ⟨-, -, hrows⟩ := infos_of_connected Env.plain forkFiles plain_getIDHash_ne_zero stateD3
    (reachable_stateD3.mono fun _ _ _ _ h => h.1)
  exact ⟨by decide +kernel, hrows⟩

/-! ### A postponed block that fails

On the other branch `blockA3` arrives instead, and it is invalid. -/

/-- `blockA3` has been indexed. -/
def stateA3 : NodeState := stateB1.insertIndex indexA3 [indexA2, indexA1, indexG]

theorem reachable_stateA3 : Reachable Env.plain forkFiles (fun _ _ _ _ => True) stateA3 := by
  have hfillA3 : forkKernel.fill blockA3
      (blockA3.newIndex Env.plain 1 4000 [indexA2, indexA1, indexG]) [indexA2, indexA1, indexG]
      = .ok indexA3 := rfl
  exact (reachable_stateB1.mono fun _ _ _ _ _ => trivial).indexUnder (by decide) (by decide) (by decide) rfl hfillA3

/-- `SetBestChain` returns `true` for `blockA3`, which is then the best block in memory, while the
database and the connected blocks end with `blockA2`. -/
theorem not_best_chain_consistent :
    ∃ s s', Reachable Env.plain forkFiles (fun _ _ _ _ => True) s ∧
      blockA3.setBestChain Env.plain forkFiles indexA3 [indexA2, indexA1, indexG] s = .ok s' ∧
      s'.hashBestChain = 5 ∧ s'.txdb.data.hashBestChain = 3 ∧
      ¬ BestChainConsistent Env.plain forkFiles s' := by
  have hok := Lib.eq_ok_final (show (blockA3.setBestChain Env.plain forkFiles indexA3
    [indexA2, indexA1, indexG] stateA3).isOk = true by decide +kernel)
  have hmem : (Lib.final (blockA3.setBestChain Env.plain forkFiles indexA3
    [indexA2, indexA1, indexG] stateA3)).hashBestChain = 5 := by decide +kernel
  have hdb : (Lib.final (blockA3.setBestChain Env.plain forkFiles indexA3
    [indexA2, indexA1, indexG] stateA3)).txdb.data.hashBestChain = 3 := by decide +kernel
  refine ⟨stateA3, _, reachable_stateA3, hok, hmem, hdb, ?_⟩
  intro h
  have := h.dbHash
  rw [hmem, hdb] at this
  exact absurd this (by decide)

/-- The info of `blockA3` stays in the store although its `ConnectBlock` failed. -/
theorem not_infos_of_connected :
    ∃ s s', Reachable Env.plain forkFiles (fun _ _ _ _ => True) s ∧
      blockA3.setBestChain Env.plain forkFiles indexA3 [indexA2, indexA1, indexG] s = .ok s' ∧
      s'.infos.inTransaction = false ∧
      ¬ ∃ st, replayInfos Env.plain forkFiles s'.txdb.data.vConnected = .ok st ∧
        s'.infos.db.rows = st.db.rows := by
  have hok := Lib.eq_ok_final (show (blockA3.setBestChain Env.plain forkFiles indexA3
    [indexA2, indexA1, indexG] stateA3).isOk = true by decide +kernel)
  refine ⟨stateA3, _, reachable_stateA3, hok, by decide +kernel, ?_⟩
  rintro ⟨st, hst, hrows⟩
  have hlen : (Lib.final (blockA3.setBestChain Env.plain forkFiles indexA3
    [indexA2, indexA1, indexG] stateA3)).infos.db.rows.length = 1 := by decide +kernel
  have hre : (replayInfos Env.plain forkFiles (Lib.final (blockA3.setBestChain Env.plain forkFiles
    indexA3 [indexA2, indexA1, indexG] stateA3)).txdb.data.vConnected).toOption.map
      (fun st => st.db.rows.length) = some 0 := by decide +kernel
  rw [hst] at hre
  rw [hrows] at hlen
  simp only [Except.toOption, Option.map_some, Option.some.injEq] at hre
  omega

end ShinyCoin

import ShinyCoin.Reload.Records

/-!
# What a switch does to the records

Inside a switch every round of `Reorganize` moves the records by one block, down to the fork and up
the new branch, while `pnext` in memory stays at the chain the switch started from. A call that fails
takes the records back with its transaction; the counters of the blocks it had connected stay as they
are in memory, but none of these blocks is on the chain.
-/

namespace ShinyCoin

/-- The records match the block tree and the counters in memory. -/
def NodeState.Recorded (tip : BlockPtr) (s : NodeState) : Prop :=
  RecordsAt s.mapBlockIndex s.blockStats tip s.txdb.data.blockIndex

/-- The ledger of which nothing is said. -/
def AnyLedger : LedgerInv := fun _ _ _ => True

theorem kept_anyLedger (env : Env) (full : Files) : Kept env full (fun _ _ => True) AnyLedger :=
  ⟨fun _ _ _ _ _ => trivial, fun _ _ _ _ _ => trivial⟩

/-! ## One block -/

namespace CBlock

variable {env : Env} {files : Files} {block : CBlock} {p q : CBlockIndex} {pprev qprev : BlockPtr}
  {s s' : NodeState}

/-- The loop of `DisconnectBlock` changes the transaction index and the infos, however it ends. -/
theorem disconnectTxs_final (env : Env) (files : Files) (s : NodeState) (txs : List CTransaction) :
    ∃ m infos, Lib.final (txs.foldlM (disconnectTx env files) s)
      = { s.updateDb (fun d => { d with txIndex := m }) with infos := infos } := by
  refine Lib.final_foldlM (fun s' => ∃ m infos,
    s' = { s.updateDb (fun d => { d with txIndex := m }) with infos := infos }) ?_ txs
    ⟨s.txdb.data.txIndex, s.infos, rfl⟩
  rintro _ tx ⟨m, infos, rfl⟩
  rw [disconnectTx]
  split
  · next m' _ =>
    rw [undoInfosOf]
    split
    · exact ⟨m', _, rfl⟩
    · exact ⟨m', _, rfl⟩
  · next m' _ => exact ⟨m', infos, rfl⟩

/-- `DisconnectBlock` writes the parent's record. -/
theorem disconnectBlock_records (h : block.disconnectBlock env files (q :: qprev) s = .ok s') :
    s'.blockStats = s.blockStats ∧ s'.txdb.data.blockIndex
      = s.txdb.data.blockIndex.set q.hashBlock
          ⟨q, statsAt s.blockStats q, BlockPtr.hash qprev, 0⟩ := by
  obtain ⟨s₁, ws, h₁, -, rfl⟩ := disconnectBlock_ok h
  obtain ⟨m, infos, hfinal⟩ := disconnectTxs_final env files s block.vtx.reverse
  rw [h₁] at hfinal
  replace hfinal : s₁ = _ := hfinal
  subst hfinal
  exact ⟨rfl, rfl⟩

/-- `ConnectBlock` writes the block's record and its parent's. -/
theorem connectBlock_records (h : block.connectBlock env files p (q :: qprev) s = .ok s') :
    ∃ st, s'.blockStats = s.blockStats.set p.hashBlock st ∧ s'.txdb.data.blockIndex
      = (s.txdb.data.blockIndex.set p.hashBlock
          ⟨p, st, q.hashBlock, BlockPtr.hash ((s.pnext p.hashBlock).getD [])⟩).set q.hashBlock
          ⟨q, statsAt (s.blockStats.set p.hashBlock st) q, BlockPtr.hash qprev, p.hashBlock⟩ := by
  obtain ⟨st, nCoinbaseOut, ws, -, -, -, -, rfl⟩ := connectBlock_ok h
  let s₁ : NodeState := { s with infos := st.infos }
  refine ⟨block.newStats (q :: qprev) (s₁.statsOf (q :: qprev)) st nCoinbaseOut, rfl, ?_⟩
  simp [writeConnected, writePrevIndex, NodeState.updateDb, NodeState.diskBlockIndex,
    NodeState.statsOf, statsAt, BlockPtr.hash, s₁]

end CBlock

/-! ## Inside a switch -/

/-- Inside a switch from `s₀`, with `tip` the last connected block. -/
structure Recording (s₀ : NodeState) (tip : BlockPtr) (s : NodeState) : Prop where
  memory : SameMemory s₀ s
  records : s.Recorded tip

section

variable {env : Env} {files full : Files} {s₀ s s' : NodeState} {block : CBlock}
  {p q : CBlockIndex} {pprev qprev : BlockPtr}

theorem Recording.disconnectBlock (h : Recording s₀ (p :: q :: qprev) s)
    (hT : TreeInv env full s₀.mapBlockIndex) (hq : s₀.mapBlockIndex q.hashBlock = some (q :: qprev))
    (hdis : block.disconnectBlock env files (q :: qprev) s = .ok s') :
    Recording s₀ (q :: qprev) s' := by
  have hsame := CBlock.disconnectBlock_sameMemory env files block (q :: qprev) s
  rw [hdis] at hsame
  have hmem : SameMemory s₀ s' := h.memory.trans hsame
  obtain ⟨hstats, hrecords⟩ := CBlock.disconnectBlock_records hdis
  refine ⟨hmem, ?_⟩
  have hbefore := h.records
  rw [NodeState.Recorded, h.memory.mapBlockIndex] at hbefore
  rw [NodeState.Recorded, hstats, hrecords, hmem.mapBlockIndex]
  exact hbefore.pop hT hq

theorem Recording.connectBlock (h : Recording s₀ (q :: qprev) s)
    (hT : TreeInv env full s₀.mapBlockIndex)
    (hp : s₀.mapBlockIndex p.hashBlock = some (p :: q :: qprev))
    (hq : s₀.mapBlockIndex q.hashBlock = some (q :: qprev))
    (hnext : s₀.pnext p.hashBlock = none)
    (hconn : block.connectBlock env files p (q :: qprev) s = .ok s') :
    Recording s₀ (p :: q :: qprev) s' := by
  have hsame := CBlock.connectBlock_sameMemory env files block p (q :: qprev) s
  rw [hconn] at hsame
  have hmem : SameMemory s₀ s' := h.memory.trans hsame
  obtain ⟨st, hstats, hrecords⟩ := CBlock.connectBlock_records hconn
  refine ⟨hmem, ?_⟩
  have hbefore := h.records
  rw [NodeState.Recorded, h.memory.mapBlockIndex] at hbefore
  rw [NodeState.Recorded, hstats, hrecords, hmem.mapBlockIndex, h.memory.pnext, hnext]
  exact hbefore.push hT hp hq st

/-- An ancestor of an indexed block is indexed under its own hash. -/
theorem InTree.head {tree : Lib.PMap Uint256 BlockPtr} {tip : BlockPtr} (h : InTree tree tip)
    (hsuf : p :: pprev <:+ tip) : tree p.hashBlock = some (p :: pprev) :=
  h _ (BlockPtr.mem_path.mpr ⟨List.cons_ne_nil _ _, hsuf⟩)

/-- The first loop of `Reorganize` takes the records back to the fork. -/
theorem Recording.reorgDisconnects (hT : TreeInv env full s₀.mapBlockIndex) {pfork tip : BlockPtr}
    (htip : InTree s₀.mapBlockIndex tip) (hsuf : pfork <:+ tip) (hfork : pfork ≠ [])
    {st st' : ReorgState} (h : Recording s₀ tip st.1)
    (hloop : (backTo pfork tip).foldlM (ShinyCoin.reorgDisconnect env files) st = .ok st') :
    Recording s₀ pfork st'.1 := by
  induction tip generalizing st with
  | nil => exact absurd (List.suffix_nil.mp hsuf) hfork
  | cons p pprev ih =>
      rw [backTo] at hloop
      split at hloop
      · next heq =>
        cases hloop
        rw [← heq]
        exact h
      · next hne =>
        obtain ⟨hsuf', hpp⟩ := suffix_pprev hfork hsuf hne
        obtain ⟨q, qprev, rfl⟩ := List.exists_cons_of_ne_nil hpp
        obtain ⟨st₁, h₁, hloop⟩ := Lib.bind_eq_ok.mp hloop
        refine ih (htip.suffix (List.suffix_cons p _)) hsuf' ?_ hloop
        rw [ShinyCoin.reorgDisconnect] at h₁
        split at h₁
        · cases h₁
        · split at h₁
          · cases h₁
          · next s₁ hdis =>
            cases h₁
            exact h.disconnectBlock hT (htip.head (List.suffix_cons p _)) hdis

/-- The second loop of `Reorganize` takes the records up the new branch. -/
theorem Recording.reorgConnects (hT : TreeInv env full s₀.mapBlockIndex) {pfork tip : BlockPtr}
    (htip : InTree s₀.mapBlockIndex tip) (hsuf : pfork <:+ tip) (hfork : pfork ≠ [])
    (hnext : ∀ x ∈ backTo pfork tip, s₀.pnext (BlockPtr.hash x) = none) (st : ReorgState)
    {st' : ReorgState} (h : Recording s₀ pfork st.1)
    (hloop : (backTo pfork tip).reverse.foldlM (ShinyCoin.reorgConnect env files) st = .ok st') :
    Recording s₀ tip st'.1 := by
  induction tip generalizing st' with
  | nil => exact absurd (List.suffix_nil.mp hsuf) hfork
  | cons p pprev ih =>
      rw [backTo] at hloop hnext
      split at hloop
      · next heq =>
        cases hloop
        rw [heq]
        exact h
      · next hne =>
        rw [if_neg hne] at hnext
        obtain ⟨hsuf', hpp⟩ := suffix_pprev hfork hsuf hne
        obtain ⟨q, qprev, rfl⟩ := List.exists_cons_of_ne_nil hpp
        rw [List.reverse_cons, List.foldlM_append] at hloop
        obtain ⟨st₁, h₁, hloop⟩ := Lib.bind_eq_ok.mp hloop
        obtain ⟨st₂, h₂, hloop⟩ := Lib.bind_eq_ok.mp hloop
        cases hloop
        have hbelow := ih (htip.suffix (List.suffix_cons p _)) hsuf'
          (fun x hx => hnext x (List.mem_cons_of_mem _ hx)) h₁
        rw [ShinyCoin.reorgConnect] at h₂
        split at h₂
        · cases h₂
        · split at h₂
          · cases h₂
          · next s₁ hconn =>
            cases h₂
            exact hbelow.connectBlock hT (htip.head List.suffix_rfl)
              (htip.head (List.suffix_cons p _)) (hnext _ List.mem_cons_self) hconn

/-- What lies above an ancestor has more ancestors. -/
theorem length_lt_of_mem_backTo {pfork tip x : BlockPtr} (hsuf : pfork <:+ tip)
    (hx : x ∈ backTo pfork tip) : pfork.length < x.length := by
  induction tip with
  | nil => cases hx
  | cons p pprev ih =>
      rw [backTo] at hx
      split at hx
      · cases hx
      · next hne =>
        rcases List.suffix_cons_iff.mp hsuf with heq | hsuf
        · exact absurd heq.symm hne
        · rcases List.mem_cons.mp hx with rfl | hx
          · have := hsuf.length_le
            rw [List.length_cons]
            omega
          · exact ih hsuf hx

/-- The blocks of the new branch above the fork are not on the main chain. -/
theorem not_suffix_of_mem_connect {best pindexNew pfork x : BlockPtr} (hbest : Heights best)
    (hnew : Heights pindexNew) (hfork : findFork best pindexNew = .ok pfork)
    (hx : x ∈ backTo pfork pindexNew) : ¬ x <:+ best := by
  obtain ⟨-, hsuf, hsuf'⟩ := findFork_ok hfork
  have hin : x ∈ BlockPtr.path pindexNew := by
    rw [path_eq_backTo hsuf']
    exact List.mem_append_left _ hx
  obtain ⟨hne, hxnew⟩ := BlockPtr.mem_path.mp hin
  intro hxbest
  have hpath : x ∈ BlockPtr.path best := BlockPtr.mem_path.mpr ⟨hne, hxbest⟩
  rw [path_eq_backTo hsuf] at hpath
  rcases List.mem_append.mp hpath with hoff | hbelow
  · exact backTo_findFork hbest hnew hfork hoff hxnew
  · have hle := (BlockPtr.mem_path.mp hbelow).2.length_le
    have hlt := length_lt_of_mem_backTo hsuf' hx
    omega

/-- A block that is not on the chain has no `pnext`. -/
theorem NextInv.eq_none_of_not_suffix {pnext tree : Lib.PMap Uint256 BlockPtr} {best x : BlockPtr}
    (hnext : NextInv pnext best) (hbest : InTree tree best)
    (hx : tree (BlockPtr.hash x) = some x) (hnot : ¬ x <:+ best) :
    pnext (BlockPtr.hash x) = none := by
  refine hnext.eq_none hbest fun ptr hptr c hsuf => ?_
  rw [hx] at hptr
  cases hptr
  exact hnot ((List.suffix_cons c x).trans hsuf)

/-! ## A switch that succeeds -/

theorem reorganize_recorded {s s' : NodeState} {pindexNew : BlockPtr}
    (hT : TreeInv env full s.mapBlockIndex) (hnext : NextInv s.pnext s.pindexBest)
    (hbest : InTree s.mapBlockIndex s.pindexBest) (hnew : InTree s.mapBlockIndex pindexNew)
    (hheights : Heights s.pindexBest) (hheights' : Heights pindexNew)
    (hrec : s.Recorded s.pindexBest) {d : TxDbData} (hd : s.txdb.vTxn = [d])
    (hre : reorganize env files pindexNew s = .ok s') : s'.Recorded pindexNew := by
  rw [reorganize] at hre
  obtain ⟨pfork, hfork, hre⟩ := Lib.bind_eq_ok.mp hre
  rw [Lib.mapError_eq_ok] at hfork
  obtain ⟨-, hre⟩ := Lib.seq_eq_ok.mp hre
  obtain ⟨st₁, h₁, hre⟩ := Lib.bind_eq_ok.mp hre
  obtain ⟨st₂, h₂, hre⟩ := Lib.bind_eq_ok.mp hre
  obtain ⟨hne, hsuf, hsuf'⟩ := findFork_ok hfork
  have hdown := Recording.reorgDisconnects hT hbest hsuf hne ⟨SameMemory.refl s, hrec⟩ h₁
  have hup : Recording s pindexNew st₂.1 := by
    apply Recording.reorgConnects hT hnew hsuf' hne ?_ (st₁.1, []) hdown h₂
    intro x hx
    have hpath : x ∈ BlockPtr.path pindexNew := by
      rw [path_eq_backTo hsuf']
      exact List.mem_append_left _ hx
    apply hnext.eq_none_of_not_suffix hbest (hnew x hpath)
    exact not_suffix_of_mem_connect hheights hheights' hfork hx
  have hvTxn : st₂.1.txdb.vTxn = [d] := hup.memory.vTxn.trans hd
  simp only [CTxDB.txnCommit, NodeState.writeHashBestChain, NodeState.updateDb, hvTxn] at hre
  cases hre
  exact hup.records

theorem setBestChainInner_recorded (hT : TreeInv env full s.mapBlockIndex)
    (hnext : NextInv s.pnext (q :: qprev)) (hin : InTree s.mapBlockIndex (p :: q :: qprev))
    (hrec : s.Recorded (q :: qprev)) {d : TxDbData} (hd : s.txdb.vTxn = [d])
    (hinner : block.setBestChainInner env files p (q :: qprev) s = .ok s') :
    s'.Recorded (p :: q :: qprev) := by
  obtain ⟨s₁, hconn, -, -, rfl⟩ := CBlock.setBestChainInner_eq_ok hd hinner
  have hbelow := hin.suffix (List.suffix_cons p _)
  have hnone : s.pnext p.hashBlock = none := by
    apply hnext.eq_none_of_not_suffix hbelow (x := p :: q :: qprev) (hin.head List.suffix_rfl)
    intro hsuf
    have hle := hsuf.length_le
    simp at hle
  have hup := Recording.connectBlock ⟨SameMemory.refl s, hrec⟩ hT (hin.head List.suffix_rfl)
    (hin.head (List.suffix_cons p _)) hnone hconn
  exact hup.records

/-- The postponed blocks, when none of them fails. -/
theorem connectPostponeds_recorded (hfiles : files.PartOf full)
    (hT : TreeInv env full s₀.mapBlockIndex) {inter tip : BlockPtr} (hsuf : inter <:+ tip)
    (hinter : inter ≠ []) (h : Switched full AnyLedger s₀ inter s) (hrec : s.Recorded inter)
    (hin : InTree s₀.mapBlockIndex tip) (hopen : s₀.infos.inTransaction = true)
    (hloop : (backTo inter tip).reverse.foldlM (connectPostponed env files) s = .ok s') :
    s'.Recorded tip := by
  induction tip generalizing s' with
  | nil => exact absurd (List.suffix_nil.mp hsuf) hinter
  | cons p pprev ih =>
      rw [backTo] at hloop
      split at hloop
      · next heq =>
        cases hloop
        rw [heq]
        exact hrec
      · next hne =>
        obtain ⟨hsuf', hpp⟩ := suffix_pprev hinter hsuf hne
        obtain ⟨q, qprev, rfl⟩ := List.exists_cons_of_ne_nil hpp
        rw [List.reverse_cons, List.foldlM_append] at hloop
        obtain ⟨s₁, h₁, hloop⟩ := Lib.bind_eq_ok.mp hloop
        obtain ⟨s₂, h₂, hloop⟩ := Lib.bind_eq_ok.mp hloop
        cases hloop
        have hbelow := hin.suffix (List.suffix_cons p _)
        have hsw := h.connectPostponeds (kept_anyLedger env full) hfiles hsuf' hinter hbelow hopen h₁
        have hrec₁ := ih hsuf' hbelow h₁
        rw [connectPostponed] at h₂
        split at h₂
        · cases h₂
        · next block _ =>
          have hmap : s₁.mapBlockIndex = s₀.mapBlockIndex := hsw.mapBlockIndex
          let s₂ : NodeState := { s₁ with txdb := s₁.txdb.txnBegin }
          replace h₂ : block.setBestChainInner env files p (q :: qprev) s₂ = .ok s' := h₂
          have hd : s₂.txdb.vTxn = [s₁.txdb.data] := by simp [s₂, CTxDB.txnBegin, hsw.vTxn]
          have hT₂ : TreeInv env full s₂.mapBlockIndex := by
            show TreeInv env full s₁.mapBlockIndex
            rw [hmap]
            exact hT
          have hin₂ : InTree s₂.mapBlockIndex (p :: q :: qprev) := by
            show InTree s₁.mapBlockIndex _
            rw [hmap]
            exact hin
          exact setBestChainInner_recorded hT₂ hsw.next hin₂ hrec₁ hd h₂

/-- A switch moves the records to the new block, when nothing that it postpones fails. -/
theorem switchTo_recorded (hfiles : files.PartOf full) (hzero : ∀ header, env.getIDHash header ≠ 0)
    (hs : NodeInv env full s) (hrec : s.Recorded s.pindexBest)
    (hptr : s.mapBlockIndex p.hashBlock = some (p :: pprev))
    (hblock : full.block p.nFile p.nBlockPos = some block)
    (hpost : PostponedConnect env files p pprev s)
    (h : block.switchTo env files p pprev s.inView = .ok s') : s'.Recorded (p :: pprev) := by
  have hE := hs.entry hptr hblock
  have hin : InTree s.mapBlockIndex (p :: pprev) := hs.tree.inTree hptr
  have hd : s.inView.txdb.vTxn = [s.txdb.data] := by
    simp [NodeState.inView, CTxDB.txnBegin, hs.idle]
  have hT : TreeInv env full s.inView.mapBlockIndex := hs.tree
  have hready : Ready full AnyLedger s.inView.pindexBest s.inView := hs.ready trivial
  rw [CBlock.switchTo, hE.getIDHash] at h
  split at h
  · next hc =>
    -- the genesis block: nothing was connected
    obtain ⟨hsw, -⟩ := setGenesis_ok hs (I := AnyLedger) trivial hptr hc.1 hc.2 h
    have hbest : s.pindexBest = [] := by
      rcases hs.genesis with ⟨-, hb⟩ | ⟨hg, -⟩
      · exact hb
      · obtain ⟨q, qprev, b, heq, -⟩ := hs.tree _ _ hg
        rw [show s.pindexGenesisBlock = [] from hc.1] at heq
        cases heq
    obtain ⟨g, hg, -⟩ := hs.tree.root hptr
    rw [← hc.2, hptr] at hg
    obtain ⟨rfl, rfl⟩ : p = g ∧ pprev = [] := by simpa using hg
    simp only [setGenesis, CTxDB.txnCommit, NodeState.writeHashBestChain, NodeState.updateDb,
      NodeState.inView, CTxDB.txnBegin] at h
    cases h
    rw [hbest] at hrec
    exact RecordsAt.start hrec
  · next hc =>
    split at h
    · next hprev =>
      rw [Lib.mapError_eq_ok] at h
      obtain ⟨heq, hne⟩ := hs.pprev_eq_best hzero hptr hblock hc hprev
      obtain ⟨q, qprev, rfl⟩ := List.exists_cons_of_ne_nil hne
      have hnext : NextInv s.inView.pnext (q :: qprev) := by
        rw [heq]
        exact hs.next
      have hrec₁ : s.inView.Recorded (q :: qprev) := by
        rw [heq]
        exact hrec
      exact setBestChainInner_recorded (s := s.inView) hs.tree hnext hin hrec₁ hd h
    · rw [switchBranch] at h
      split at h
      · cases h
      · next best rest hbest =>
        obtain ⟨hsuf, hinter, -⟩ := postpone_suffix best.bnChainTrust (p :: pprev)
        dsimp only at h
        split at h
        · cases h
        · next s₁ hre =>
          have hheights := (hs.tree.heights hptr).suffix hsuf
          have hrec₁ := reorganize_recorded (s := s.inView) hs.tree hs.next hs.inTree
            (hin.suffix hsuf) hs.heights hheights hrec hd hre
          have hsw := reorganize_ok (kept_anyLedger env full) hfiles hready hs.inTree
            (hin.suffix hsuf) hs.heights hheights (fun _ _ _ _ _ => trivial) hre
          obtain ⟨s₂, hloop⟩ := Lib.exists_of_isOk (hpost best rest s₁ hbest hre)
          rw [connectSecondary, hloop] at h
          cases h
          rw [postpone_eq_backTo] at hloop
          exact connectPostponeds_recorded hfiles hT hsuf (hinter (List.cons_ne_nil _ _)) hsw
            hrec₁ hin rfl hloop

end

/-! ## A switch that fails -/

/-- The best trust and the counters are the same, but for those of the blocks `changed`. -/
structure CountersKept (changed : Uint256 → Prop) (s s' : NodeState) : Prop where
  bnBestChainTrust : s'.bnBestChainTrust = s.bnBestChainTrust
  blockStats : ∀ h, ¬ changed h → s'.blockStats h = s.blockStats h

namespace CountersKept

variable {changed changed' : Uint256 → Prop} {s s' s'' : NodeState}

theorem refl (s : NodeState) : CountersKept changed s s := ⟨rfl, fun _ _ => rfl⟩

theorem trans (h : CountersKept changed s s') (h' : CountersKept changed s' s'') :
    CountersKept changed s s'' := by
  refine ⟨h'.bnBestChainTrust.trans h.bnBestChainTrust, fun k hk => ?_⟩
  exact (h'.blockStats k hk).trans (h.blockStats k hk)

theorem mono (h : CountersKept changed s s') (hle : ∀ k, changed k → changed' k) :
    CountersKept changed' s s' :=
  ⟨h.bnBestChainTrust, fun k hk => h.blockStats k fun hc => hk (hle k hc)⟩

theorem abortAfter (h : CountersKept changed s s') (e : Err) :
    CountersKept changed s (s'.abortAfter e) := by
  unfold NodeState.abortAfter
  split
  · exact ⟨h.bnBestChainTrust, h.blockStats⟩
  · exact h

theorem rejectAfter (h : CountersKept changed s s') (e : Err) (pindexNew : CBlockIndex) :
    CountersKept changed s (s'.rejectAfter e pindexNew) := by
  unfold NodeState.rejectAfter invalidChainFound
  split
  · split
    · exact ⟨h.bnBestChainTrust, h.blockStats⟩
    · exact ⟨h.bnBestChainTrust, h.blockStats⟩
  · exact h

end CountersKept

section

variable {env : Env} {files full : Files} {s s' : NodeState} {block : CBlock} {p : CBlockIndex}
  {pprev : BlockPtr} {changed : Uint256 → Prop} {e : Err}

theorem CBlock.connectBlock_counters (env : Env) (files : Files) (block : CBlock)
    (pprev : BlockPtr) (s : NodeState) (hp : changed p.hashBlock) :
    CountersKept changed s (Lib.final (block.connectBlock env files p pprev s)) := by
  have hset : ∀ (st : BlockStats) h, ¬ changed h → s.blockStats.set p.hashBlock st h
      = s.blockStats h := by
    intro st h hh
    apply Lib.PMap.set_of_ne
    rintro rfl
    exact hh hp
  cases h : block.connectBlock env files p pprev s with
  | ok s' =>
      obtain ⟨st, nCoinbaseOut, ws, -, -, -, -, rfl⟩ := connectBlock_ok h
      cases pprev with
      | nil => exact ⟨rfl, hset _⟩
      | cons q qprev => exact ⟨rfl, hset _⟩
  | error es =>
      obtain ⟨e, s'⟩ := es
      rcases connectBlock_error h with ⟨infos, rfl, -⟩ | ⟨st, nCoinbaseOut, ws, -, -, rfl⟩
      · exact ⟨rfl, fun _ _ => rfl⟩
      · cases pprev with
        | nil => exact ⟨rfl, hset _⟩
        | cons q qprev => exact ⟨rfl, hset _⟩

theorem CBlock.disconnectBlock_counters (env : Env) (files : Files) (block : CBlock)
    (pprev : BlockPtr) (s : NodeState) (changed : Uint256 → Prop) :
    CountersKept changed s (Lib.final (block.disconnectBlock env files pprev s)) := by
  obtain ⟨m, infos, hfinal⟩ := disconnectTxs_final env files s block.vtx.reverse
  have hwritten : ∀ (s₁ : NodeState) ws, Lib.final
      (block.vtx.reverse.foldlM (disconnectTx env files) s) = s₁ → CountersKept changed s
      { writePrevIndex (s₁.updateDb fun d => { d with vConnected := d.vConnected.tail }) pprev 0 with
        wallets := ws } := by
    rintro s₁ ws rfl
    rw [hfinal]
    cases pprev with
    | nil => exact ⟨rfl, fun _ _ => rfl⟩
    | cons q qprev => exact ⟨rfl, fun _ _ => rfl⟩
  cases h : block.disconnectBlock env files pprev s with
  | ok s' =>
      obtain ⟨s₁, ws, h₁, -, rfl⟩ := disconnectBlock_ok h
      exact hwritten s₁ ws (by rw [h₁]; rfl)
  | error es =>
      obtain ⟨e, s'⟩ := es
      rcases disconnectBlock_error h with h₁ | ⟨s₁, ws, h₁, -, rfl⟩
      · rw [h₁] at hfinal
        replace hfinal : s' = _ := hfinal
        rw [hfinal]
        exact ⟨rfl, fun _ _ => rfl⟩
      · exact hwritten s₁ ws (by rw [h₁]; rfl)

/-- `DisconnectBlock` changes no counters. -/
theorem reorgDisconnects_counters {ptrs : List BlockPtr} {st : ReorgState} :
    (∀ st', ptrs.foldlM (reorgDisconnect env files) st = .ok st' →
        CountersKept changed st.1 st'.1) ∧
      ∀ e s', ptrs.foldlM (reorgDisconnect env files) st = .error (e, s') →
        CountersKept changed st.1 s' := by
  have hok : ∀ (st st' : ReorgState) (ptr : BlockPtr), reorgDisconnect env files st ptr = .ok st' →
      CountersKept changed st.1 st'.1 := by
    intro st st' ptr h
    rw [reorgDisconnect] at h
    split at h
    · cases h
    · next block _ =>
      have hkept := CBlock.disconnectBlock_counters env files block ptr.tail st.1 changed
      split at h
      · cases h
      · next s₁ hdis =>
        cases h
        rw [hdis] at hkept
        exact hkept
  refine ⟨fun st' h => Lib.foldlM_ok_inv (fun _ (st' : ReorgState) => CountersKept changed st.1 st'.1)
    (fun ptr _ _ _ hI hstep => hI.trans (hok _ _ ptr hstep)) (CountersKept.refl _) h, ?_⟩
  intro e s' h
  obtain ⟨ptr, _, st₁, hI, hstep⟩ := Lib.foldlM_error_inv
    (fun _ (st' : ReorgState) => CountersKept changed st.1 st'.1)
    (fun ptr _ _ _ hI hstep => hI.trans (hok _ _ ptr hstep)) (CountersKept.refl _) h
  apply hI.trans
  rw [reorgDisconnect] at hstep
  split at hstep
  · cases hstep
    exact CountersKept.refl _
  · next block _ =>
    have hkept := CBlock.disconnectBlock_counters env files block ptr.tail st₁.1 changed
    split at hstep
    · next hdis =>
      cases hstep
      rw [hdis] at hkept
      exact hkept
    · cases hstep

theorem connectBlockPtr_counters (env : Env) (files : Files) (block : CBlock) {ptr : BlockPtr}
    (s : NodeState) (hptr : changed (BlockPtr.hash ptr)) :
    CountersKept changed s (Lib.final (block.connectBlockPtr env files ptr s)) := by
  cases ptr with
  | nil => exact CountersKept.refl s
  | cons p pprev => exact CBlock.connectBlock_counters env files block pprev s hptr

/-- A second loop of `Reorganize` that fails has changed counters of the new branch only. -/
theorem reorgConnects_counters {ptrs : List BlockPtr} (st : ReorgState)
    (hptrs : ∀ ptr ∈ ptrs, changed (BlockPtr.hash ptr))
    (h : ptrs.foldlM (reorgConnect env files) st = .error (e, s')) :
    CountersKept changed st.1 s' := by
  induction ptrs generalizing st with
  | nil => cases h
  | cons ptr ptrs ih =>
      obtain ⟨hptr, hptrs⟩ := List.forall_mem_cons.mp hptrs
      rcases Lib.bind_eq_error.mp h with h | ⟨st₁, h₁, h⟩
      · rw [reorgConnect] at h
        split at h
        · cases h
          exact CountersKept.refl _
        · next block _ =>
          have hkept := connectBlockPtr_counters env files block st.1 hptr
          split at h
          · next e' s₁ hconn =>
            cases h
            rw [hconn] at hkept
            exact CountersKept.abortAfter hkept e'
          · cases h
      · refine CountersKept.trans ?_ (ih st₁ hptrs h)
        rw [reorgConnect] at h₁
        split at h₁
        · cases h₁
        · next block _ =>
          have hkept := connectBlockPtr_counters env files block st.1 hptr
          split at h₁
          · cases h₁
          · next s₁ hconn =>
            cases h₁
            rw [hconn] at hkept
            exact hkept

/-- The blocks of a branch that are not on the main chain, without the genesis block. -/
def OffChain (best ptr : BlockPtr) (h : Uint256) : Prop :=
  ∃ x, x <:+ ptr ∧ x.tail ≠ [] ∧ ¬ x <:+ best ∧ BlockPtr.hash x = h

theorem OffChain.mono {best ptr ptr' : BlockPtr} {h : Uint256} (hx : OffChain best ptr h)
    (hsuf : ptr <:+ ptr') : OffChain best ptr' h := by
  obtain ⟨x, hxsuf, hrest⟩ := hx
  exact ⟨x, hxsuf.trans hsuf, hrest⟩

theorem reorganize_counters {pindexNew : BlockPtr} (hbest : Heights s.pindexBest)
    (hnew : Heights pindexNew) {d : TxDbData} (hd : s.txdb.vTxn = [d])
    (h : reorganize env files pindexNew s = .error (e, s')) :
    CountersKept (OffChain s.pindexBest pindexNew) s s' := by
  rw [reorganize] at h
  rcases Lib.bind_eq_error.mp h with h | ⟨pfork, hfork, h⟩
  · obtain ⟨e', -, heq⟩ := Lib.mapError_eq_error.mp h
    cases heq
    exact CountersKept.refl s
  rw [Lib.mapError_eq_ok] at hfork
  rcases Lib.bind_eq_error.mp h with h | ⟨-, -, h⟩
  · obtain ⟨-, heq⟩ := Lib.require_eq_error.mp h
    cases heq
    exact CountersKept.refl s
  rcases Lib.bind_eq_error.mp h with h | ⟨st₁, h₁, h⟩
  · exact reorgDisconnects_counters.2 e s' h
  have hmem₁ := reorgDisconnects_sameMemory.1 st₁ h₁
  have hdown : CountersKept (OffChain s.pindexBest pindexNew) s st₁.1 :=
    reorgDisconnects_counters.1 st₁ h₁
  rcases Lib.bind_eq_error.mp h with h | ⟨st₂, h₂, h⟩
  · refine hdown.trans (reorgConnects_counters (st₁.1, []) ?_ h)
    intro x hx
    replace hx : x ∈ backTo pfork pindexNew := List.mem_reverse.mp hx
    obtain ⟨hne, -, hsuf'⟩ := findFork_ok hfork
    have hpath : x ∈ BlockPtr.path pindexNew := by
      rw [path_eq_backTo hsuf']
      exact List.mem_append_left _ hx
    have hlt := length_lt_of_mem_backTo hsuf' hx
    have hpos := List.length_pos_iff.mpr hne
    refine ⟨x, (BlockPtr.mem_path.mp hpath).2, ?_, ?_, rfl⟩
    · apply List.ne_nil_of_length_pos
      rw [List.length_tail]
      omega
    · exact not_suffix_of_mem_connect hbest hnew hfork hx
  · have hmem₂ := (reorgConnects_memory (st₁.1, []) hmem₁ hd).1 st₂ h₂
    have hvTxn : st₂.1.txdb.vTxn = [d] := hmem₂.vTxn.trans hd
    simp only [CTxDB.txnCommit, NodeState.writeHashBestChain, NodeState.updateDb, hvTxn] at h
    cases h

theorem setBestChainInner_counters (hp : changed p.hashBlock) {d : TxDbData}
    (hd : s.txdb.vTxn = [d]) (hne : pprev ≠ [])
    (h : block.setBestChainInner env files p pprev s = .error (e, s')) :
    CountersKept changed s s' := by
  have hkept := CBlock.connectBlock_counters env files block pprev s hp
  rcases CBlock.setBestChainInner_eq_error hd h with ⟨e', s₁, hconn, -, -, rfl⟩ | ⟨hnil, -⟩
  · rw [hconn] at hkept
    exact CountersKept.rejectAfter hkept e' p
  · exact absurd hnil hne

/-- A switch that fails changes no counters of the main chain, when no postponed block fails. -/
theorem switchTo_counters (hzero : ∀ header, env.getIDHash header ≠ 0) (hs : NodeInv env full s)
    (hptr : s.mapBlockIndex p.hashBlock = some (p :: pprev))
    (hblock : full.block p.nFile p.nBlockPos = some block)
    (hpost : PostponedConnect env files p pprev s)
    (h : block.switchTo env files p pprev s.inView = .error (e, s')) :
    CountersKept (OffChain s.pindexBest (p :: pprev)) s.inView s' := by
  have hd : s.inView.txdb.vTxn = [s.txdb.data] := by
    simp [NodeState.inView, CTxDB.txnBegin, hs.idle]
  rw [CBlock.switchTo, (hs.entry hptr hblock).getIDHash] at h
  split at h
  · simp only [setGenesis, CTxDB.txnCommit, NodeState.writeHashBestChain, NodeState.updateDb,
      NodeState.inView, CTxDB.txnBegin] at h
    cases h
  · next hc =>
    split at h
    · next hprev =>
      obtain ⟨⟨e', s₁⟩, hinner, heq⟩ := Lib.mapError_eq_error.mp h
      cases heq
      obtain ⟨heq, hne⟩ := hs.pprev_eq_best hzero hptr hblock hc hprev
      refine setBestChainInner_counters ?_ hd hne hinner
      refine ⟨p :: pprev, List.suffix_rfl, hne, fun hsuf => ?_, rfl⟩
      have hle := hsuf.length_le
      rw [← heq] at hle
      simp at hle
    · rw [switchBranch] at h
      split at h
      · cases h
        exact CountersKept.refl _
      · next best rest hbest =>
        obtain ⟨hsuf, -, -⟩ := postpone_suffix best.bnChainTrust (p :: pprev)
        dsimp only at h
        split at h
        · next e' s₁ hre =>
          cases h
          have hkept := reorganize_counters (s := s.inView) hs.heights
            ((hs.tree.heights hptr).suffix hsuf) hd hre
          exact CountersKept.rejectAfter (hkept.mono fun k hk => hk.mono hsuf) e' p
        · next s₁ hre =>
          obtain ⟨s₂, hloop⟩ := Lib.exists_of_isOk (hpost best rest s₁ hbest hre)
          rw [connectSecondary, hloop] at h
          cases h

end

end ShinyCoin

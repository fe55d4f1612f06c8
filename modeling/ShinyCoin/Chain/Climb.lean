import ShinyCoin.Chain.Pointers
import ShinyCoin.Chain.ForkPoint

/-!
# Switches that succeed

`SetBestChain` fails where a block cannot be read, disconnected or connected, where the branches do
not meet, and where it would leave the sync checkpoint. So that it succeeds can be read off single
blocks: `On ptr s` says that `s` has connected the blocks of `ptr` and no others, `Walks` that the
last of them can always be taken off, and `Climbs` that the ones from the fork up can be put on.
-/

namespace ShinyCoin

/-- What `SetBestChain` leaves as it is, other than by connecting and disconnecting blocks, until the
new block becomes the best one. -/
structure SameGround (s s' : NodeState) : Prop where
  txIndex : s'.txdb.data.txIndex = s.txdb.data.txIndex
  blockStats : s'.blockStats = s.blockStats
  wallets : s'.wallets = s.wallets
  nAdjustedTime : s'.nAdjustedTime = s.nAdjustedTime
  nBestHeight : s'.nBestHeight = s.nBestHeight
  mapBlockIndex : s'.mapBlockIndex = s.mapBlockIndex
  hashSyncCheckpoint : s'.hashSyncCheckpoint = s.hashSyncCheckpoint
  inTransaction : s'.infos.inTransaction = s.infos.inTransaction

/-- The last block of a branch can be taken off, and nothing else matters. -/
structure Walks (env : Env) (files : Files) (On : BlockPtr → NodeState → Prop) : Prop where
  stay : ∀ {ptr : BlockPtr} {s s' : NodeState}, SameGround s s' → On ptr s → On ptr s'
  back : ∀ {p : CBlockIndex} {pprev : BlockPtr} {s : NodeState}, pprev ≠ [] → On (p :: pprev) s →
    ∃ block s', files.readBlock env (p :: pprev) = some block ∧
      block.disconnectBlock env files pprev s = .ok s' ∧ On pprev s'

/-- Each block of `tip` above `pfork` can be put on its parent. -/
def Climbs (env : Env) (files : Files) (On : BlockPtr → NodeState → Prop) (pfork tip : BlockPtr) :
    Prop :=
  ∀ p pprev s, p :: pprev <:+ tip → pfork <:+ pprev → On pprev s →
    ∃ block s', files.readBlock env (p :: pprev) = some block ∧
      block.connectBlock env files p pprev s = .ok s' ∧ On (p :: pprev) s'

section

variable {env : Env} {files : Files} {On : BlockPtr → NodeState → Prop} {s : NodeState}
  {block : CBlock} {p : CBlockIndex} {pprev pfork tip : BlockPtr}

theorem Climbs.suffix {x : BlockPtr} (h : Climbs env files On pfork tip) (hx : x <:+ tip) :
    Climbs env files On pfork x :=
  fun q qprev s hsuf => h q qprev s (hsuf.trans hx)

/-! ## The loops of Reorganize -/

theorem Walks.reorgDisconnects (hwalk : Walks env files On) (hsuf : pfork <:+ tip)
    (hne : pfork ≠ []) (st : ReorgState) (hOn : On tip st.1) :
    ∃ st', (backTo pfork tip).foldlM (reorgDisconnect env files) st = .ok st' ∧ On pfork st'.1 := by
  induction tip generalizing st with
  | nil => exact absurd (List.suffix_nil.mp hsuf) hne
  | cons q qprev ih =>
      rw [backTo]
      split
      · next heq =>
        rw [heq] at hOn
        exact ⟨st, rfl, hOn⟩
      · next hne' =>
        obtain ⟨hsuf', hprev⟩ := suffix_pprev hne hsuf hne'
        obtain ⟨b, s₁, hread, hdis, hOn₁⟩ := hwalk.back hprev hOn
        let st₁ : ReorgState := (s₁, st.2 ++ b.vtx.filter fun tx => !(tx.isCoinBase || tx.isCoinStake))
        obtain ⟨st', hloop, hOn'⟩ := ih hsuf' st₁ hOn₁
        refine ⟨st', ?_, hOn'⟩
        rw [List.foldlM_cons, reorgDisconnect, hread]
        simp only [List.tail_cons, hdis]
        exact hloop

theorem Climbs.reorgConnects (hclimb : Climbs env files On pfork tip) (hsuf : pfork <:+ tip)
    (hne : pfork ≠ []) (st : ReorgState) (hOn : On pfork st.1) :
    ∃ st', (backTo pfork tip).reverse.foldlM (reorgConnect env files) st = .ok st' ∧
      On tip st'.1 := by
  induction tip with
  | nil => exact absurd (List.suffix_nil.mp hsuf) hne
  | cons q qprev ih =>
      rw [backTo]
      split
      · next heq =>
        rw [heq]
        exact ⟨st, rfl, hOn⟩
      · next hne' =>
        obtain ⟨hsuf', -⟩ := suffix_pprev hne hsuf hne'
        obtain ⟨st₁, hloop, hOn₁⟩ := ih (hclimb.suffix (List.suffix_cons q qprev)) hsuf'
        obtain ⟨b, s', hread, hconn, hOn'⟩ := hclimb q qprev st₁.1 List.suffix_rfl hsuf' hOn₁
        refine ⟨(s', st₁.2 ++ b.vtx), ?_, hOn'⟩
        rw [List.reverse_cons, List.foldlM_append, hloop]
        show [q :: qprev].foldlM (reorgConnect env files) st₁ = _
        rw [List.foldlM_cons, reorgConnect, hread]
        simp only [CBlock.connectBlockPtr, hconn]
        rfl

/-- `Reorganize` goes from the branch that is connected to the other one. -/
theorem Walks.reorganize (hwalk : Walks env files On) (hOn : On s.pindexBest s)
    (hfork : findFork s.pindexBest tip = .ok pfork) (hclimb : Climbs env files On pfork tip)
    (hsync : ∀ x ∈ backTo pfork s.pindexBest, BlockPtr.hash x ≠ s.hashSyncCheckpoint) {d : TxDbData}
    (hd : s.txdb.vTxn = [d]) :
    ∃ s', ShinyCoin.reorganize env files tip s = .ok s' ∧ On tip s' := by
  obtain ⟨hne, hsuf, hsuf'⟩ := findFork_ok hfork
  obtain ⟨st₁, h₁, hOn₁⟩ := hwalk.reorgDisconnects hsuf hne (s, []) hOn
  obtain ⟨st₂, h₂, hOn₂⟩ := hclimb.reorgConnects hsuf' hne (st₁.1, []) hOn₁
  have hmem := (reorgConnects_memory (st₁.1, []) (reorgDisconnects_sameMemory.1 st₁ h₁) hd).1 st₂ h₂
  have hvTxn : st₂.1.txdb.vTxn = [d] := hmem.vTxn.trans hd
  refine ⟨reorgMemory env (disconnectList pfork s) (connectList pfork tip) st₁.2 st₂.2
    { st₂.1.writeHashBestChain (BlockPtr.hash tip) with
      txdb := { (st₂.1.writeHashBestChain (BlockPtr.hash tip)).txdb with vTxn := [] } }, ?_,
    hwalk.stay (s := st₂.1) ⟨rfl, rfl, rfl, rfl, rfl, rfl, rfl, rfl⟩ hOn₂⟩
  unfold ShinyCoin.reorganize
  rw [Lib.bind_eq_ok]
  refine ⟨pfork, Lib.mapError_eq_ok.mpr hfork, ?_⟩
  rw [Lib.seq_eq_ok]
  refine ⟨?_, ?_⟩
  · rw [Lib.require_eq_ok, List.all_eq_true]
    intro x hx
    exact bne_iff_ne.mpr (hsync x hx)
  · refine Lib.bind_eq_ok.mpr ⟨st₁, h₁, Lib.bind_eq_ok.mpr ⟨st₂, h₂, ?_⟩⟩
    simp only [CTxDB.txnCommit, NodeState.writeHashBestChain, NodeState.updateDb, hvTxn]

/-! ## SetBestChain -/

theorem Climbs.setBestChainInner (hwalk : Walks env files On)
    (hclimb : Climbs env files On pprev (p :: pprev)) (hne : pprev ≠ []) (hOn : On pprev s)
    (hread : files.readBlock env (p :: pprev) = some block) {d : TxDbData}
    (hd : s.txdb.vTxn = [d]) :
    ∃ s', block.setBestChainInner env files p pprev s = .ok s' ∧ On (p :: pprev) s' := by
  obtain ⟨b, s₁, hread', hconn, hOn₁⟩ := hclimb p pprev s List.suffix_rfl List.suffix_rfl hOn
  rw [hread] at hread'
  cases hread'
  have hmem := CBlock.connectBlock_sameMemory env files block p pprev s
  rw [hconn] at hmem
  have hvTxn : s₁.txdb.vTxn = [d] := (SameMemory.vTxn hmem).trans hd
  obtain ⟨q, qs, rfl⟩ := List.exists_cons_of_ne_nil hne
  refine ⟨{ s₁ with
    txdb := { (s₁.writeHashBestChain (env.getIDHash block.toCBlockHeader)).txdb with vTxn := [] }
    pnext := link s₁.pnext (p :: q :: qs)
    mempool := block.vtx.foldl (CTxMemPool.remove env) s₁.mempool }, ?_,
    hwalk.stay (s := s₁) ⟨rfl, rfl, rfl, rfl, rfl, rfl, rfl, rfl⟩ hOn₁⟩
  rw [CBlock.setBestChainInner, hconn]
  simp only [CBlock.attach, CTxDB.txnCommit, NodeState.writeHashBestChain, NodeState.updateDb, hvTxn]

/-- A block no ancestor of which has more trust than the best block is not postponed. -/
theorem postpone_of_trust_le {bnBestTrust : ℤ} (h : ∀ q ∈ pprev.head?, q.bnChainTrust ≤ bnBestTrust) :
    postpone bnBestTrust (p :: pprev) = ([], p :: pprev) := by
  cases pprev with
  | nil => rfl
  | cons q qs =>
      rw [postpone, if_neg]
      exact not_lt.mpr (h q rfl)

/-- The state that a `SetBestChain` which succeeds makes of what the switch left. -/
def NodeState.newBest (s : NodeState) (hash : Uint256) (p : CBlockIndex) (pprev : BlockPtr) :
    NodeState :=
  { s with
    infos := { s.infos with curTransaction := none, byteEstimate := 0 }
    hashBestChain := hash
    pindexBest := p :: pprev
    nBestHeight := p.nHeight
    bnBestChainTrust := p.bnChainTrust }

/-- A call of `SetBestChain` for a block whose parent has no more trust than the best block. -/
theorem Walks.setBestChain (hwalk : Walks env files On) (hview : s.infos.inTransaction = false)
    (hidle : s.txdb.vTxn = []) (hgenesis : s.pindexGenesisBlock ≠ []) (hne : pprev ≠ [])
    (hprev : block.hashPrevBlock = s.hashBestChain → pprev = s.pindexBest)
    (hread : files.readBlock env (p :: pprev) = some block)
    (htrust : ∀ best ∈ s.pindexBest.head?, ∀ q ∈ pprev.head?, q.bnChainTrust ≤ best.bnChainTrust)
    (hfork : findFork s.pindexBest (p :: pprev) = .ok pfork)
    (hsync : ∀ x ∈ backTo pfork s.pindexBest, BlockPtr.hash x ≠ s.hashSyncCheckpoint)
    (hclimb : Climbs env files On pfork (p :: pprev)) (hOn : On s.pindexBest s.inView)
    (hin : ∀ s', On (p :: pprev) s' → s'.infos.inTransaction = true) :
    ∃ s₁, On (p :: pprev) s₁ ∧ block.setBestChain env files p pprev s
      = .ok (s₁.newBest (env.getIDHash block.toCBlockHeader) p pprev) := by
  obtain ⟨hforkne, hsuf, -⟩ := findFork_ok hfork
  have hd : s.inView.txdb.vTxn = [s.txdb.data] := by
    simp [NodeState.inView, CTxDB.txnBegin, hidle]
  -- what is left to do after the switch is to commit the view
  have hcommit : ∀ s₁, On (p :: pprev) s₁ → block.newBest env p pprev s₁
      = .ok (s₁.newBest (env.getIDHash block.toCBlockHeader) p pprev) := by
    intro s₁ hOn₁
    rw [CBlock.newBest, CTxInfoStore.commit, if_pos (hin s₁ hOn₁)]
    rfl
  have hswitch : ∃ s₁, block.switchTo env files p pprev s.inView = .ok s₁ ∧ On (p :: pprev) s₁ := by
    unfold CBlock.switchTo
    rw [if_neg fun h => hgenesis h.1]
    split
    · next heq =>
      -- on top of the best block
      have hbest := hprev heq
      subst hbest
      obtain ⟨s₁, h₁, hOn₁⟩ := Climbs.setBestChainInner (s := s.inView) hwalk
        (fun q qprev s hsuf' hge => hclimb q qprev s hsuf' (hsuf.trans hge)) hne hOn hread hd
      exact ⟨s₁, Lib.mapError_eq_ok.mpr h₁, hOn₁⟩
    · -- on another branch
      obtain ⟨s₁, h₁, hOn₁⟩ := hwalk.reorganize (s := s.inView) hOn hfork hclimb hsync hd
      refine ⟨s₁, ?_, hOn₁⟩
      unfold switchBranch
      split
      · next hnil =>
        have hnil : s.pindexBest = [] := hnil
        rw [hnil] at hsuf
        exact absurd (List.suffix_nil.mp hsuf) hforkne
      · next best rest hbest =>
        have hbest : s.pindexBest = best :: rest := hbest
        rw [postpone_of_trust_le (htrust best (by rw [hbest]; rfl))]
        dsimp only
        rw [h₁]
        rfl
  obtain ⟨s₁, h₁, hOn₁⟩ := hswitch
  refine ⟨s₁, hOn₁, ?_⟩
  rw [CBlock.setBestChain_eq hview, h₁]
  have hbind : (Except.ok s₁).bind (block.newBest env p pprev) = block.newBest env p pprev s₁ := rfl
  rw [hbind, hcommit s₁ hOn₁]

end

end ShinyCoin

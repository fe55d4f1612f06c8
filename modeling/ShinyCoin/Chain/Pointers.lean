import ShinyCoin.Chain.Node

/-!
# The chain pointers after any call

What `SetBestChain` does to the pointers in memory, whatever the databases say. After a postponed
block has failed `pnext` does not reach the best block, but it never leaves the best chain: it is set
in ancestors of the best block only. A call that returns `true` goes to the new block through a fork,
and the blocks it leaves do not include the sync checkpoint; one that returns `false` has changed no
pointer.
-/

namespace ShinyCoin

/-- `pnext` is set in ancestors of the tip only. -/
def NextBelow (pnext : Lib.PMap Uint256 BlockPtr) (tip : BlockPtr) : Prop :=
  ∀ h ptr, pnext h = some ptr → ∃ y, y ≠ [] ∧ y <:+ tip.tail ∧ BlockPtr.hash y = h

namespace NextBelow

variable {pnext : Lib.PMap Uint256 BlockPtr} {p : CBlockIndex} {pprev tip : BlockPtr}

theorem mono {tip' : BlockPtr} (h : NextBelow pnext tip) (hsuf : tip <:+ tip') :
    NextBelow pnext tip' := by
  intro k ptr hk
  obtain ⟨y, hne, hy, hhash⟩ := h k ptr hk
  refine ⟨y, hne, ?_, hhash⟩
  obtain ⟨above, rfl⟩ := hsuf
  cases above with
  | nil => exact hy
  | cons q above => exact (hy.trans (List.tail_suffix tip)).trans (List.suffix_append above tip)

theorem link (h : NextBelow pnext pprev) : NextBelow (ShinyCoin.link pnext (p :: pprev)) (p :: pprev) := by
  cases pprev with
  | nil => exact h.mono (List.suffix_cons p [])
  | cons q qs =>
      intro k ptr hk
      change (pnext.set q.hashBlock (p :: q :: qs)) k = some ptr at hk
      rw [Lib.PMap.set_apply] at hk
      split at hk
      · next heq => exact ⟨q :: qs, List.cons_ne_nil _ _, List.suffix_rfl, heq.symm⟩
      · exact h.mono (List.suffix_cons p _) k ptr hk

theorem unlink (h : NextBelow pnext (p :: pprev)) (hne : pprev ≠ []) :
    NextBelow (ShinyCoin.unlink pnext (p :: pprev)) pprev := by
  obtain ⟨q, qs, rfl⟩ := List.exists_cons_of_ne_nil hne
  intro k ptr hk
  change (pnext.erase q.hashBlock) k = some ptr at hk
  rw [Lib.PMap.erase_apply] at hk
  split at hk
  · cases hk
  · next hkq =>
    obtain ⟨y, hy, hsuf, hhash⟩ := h k ptr hk
    refine ⟨y, hy, ?_, hhash⟩
    rcases List.suffix_cons_iff.mp hsuf with rfl | hsuf
    · exact absurd hhash.symm hkq
    · exact hsuf

theorem unlinks {pfork : BlockPtr} (hsuf : pfork <:+ tip) (hne : pfork ≠ []) (h : NextBelow pnext tip) :
    NextBelow ((backTo pfork tip).foldl ShinyCoin.unlink pnext) pfork := by
  induction tip generalizing pnext with
  | nil => exact absurd (List.suffix_nil.mp hsuf) hne
  | cons p pprev ih =>
      rw [backTo]
      split
      · next heq =>
        rw [← heq]
        exact h
      · next hne' =>
        obtain ⟨hsuf', hpp⟩ := suffix_pprev hne hsuf hne'
        exact ih hsuf' (h.unlink hpp)

theorem links {pfork : BlockPtr} (hsuf : pfork <:+ tip) (hne : pfork ≠ [])
    (h : NextBelow pnext pfork) :
    NextBelow ((backTo pfork tip).reverse.foldl ShinyCoin.link pnext) tip := by
  induction tip with
  | nil => exact absurd (List.suffix_nil.mp hsuf) hne
  | cons p pprev ih =>
      rw [backTo]
      split
      · next heq =>
        rw [heq]
        exact h
      · next hne' =>
        obtain ⟨hsuf', -⟩ := suffix_pprev hne hsuf hne'
        rw [List.reverse_cons, List.foldl_append]
        exact (ih hsuf').link

end NextBelow

/-! ## Inside a call -/

/-- Inside a switch that started from `s₀`, with `tip` the last block that was linked and no
transaction open in the database. -/
structure Pointed (s₀ : NodeState) (tip : BlockPtr) (s : NodeState) : Prop where
  mapBlockIndex : s.mapBlockIndex = s₀.mapBlockIndex
  pindexGenesisBlock : s.pindexGenesisBlock = s₀.pindexGenesisBlock
  hashSyncCheckpoint : s.hashSyncCheckpoint = s₀.hashSyncCheckpoint
  nAdjustedTime : s.nAdjustedTime = s₀.nAdjustedTime
  vTxn : s.txdb.vTxn = []
  curTransaction : s.infos.curTransaction = s₀.infos.curTransaction
  next : NextBelow s.pnext tip

/-- How a call leaves the branch it was on: through a fork, and not over the sync checkpoint. -/
def LeavesBy (s : NodeState) (tip pfork : BlockPtr) : Prop :=
  pfork ≠ [] ∧ pfork <:+ s.pindexBest ∧ pfork <:+ tip ∧
    ∀ x ∈ backTo pfork s.pindexBest, BlockPtr.hash x ≠ s.hashSyncCheckpoint

section

variable {env : Env} {files : Files} {s s' : NodeState} {block : CBlock} {p : CBlockIndex}
  {pprev : BlockPtr}

theorem reorganize_leavesBy {pindexNew : BlockPtr} (h : reorganize env files pindexNew s = .ok s') :
    ∃ pfork, LeavesBy s pindexNew pfork ∧ findFork s.pindexBest pindexNew = .ok pfork := by
  rw [reorganize] at h
  obtain ⟨pfork, hfork, h⟩ := Lib.bind_eq_ok.mp h
  rw [Lib.mapError_eq_ok] at hfork
  obtain ⟨hsync, -⟩ := Lib.seq_eq_ok.mp h
  obtain ⟨hne, hsuf, hsuf'⟩ := findFork_ok hfork
  refine ⟨pfork, ⟨hne, hsuf, hsuf', ?_⟩, hfork⟩
  rw [Lib.require_eq_ok, List.all_eq_true] at hsync
  intro x hx
  exact bne_iff_ne.mp (hsync x hx)

theorem reorganize_pointed {pindexNew : BlockPtr} {d : TxDbData} (hd : s.txdb.vTxn = [d])
    (hnext : NextBelow s.pnext s.pindexBest) (h : reorganize env files pindexNew s = .ok s') :
    Pointed s pindexNew s' := by
  obtain ⟨pfork, ⟨hne, hsuf, hsuf', -⟩, hfork⟩ := reorganize_leavesBy h
  rw [reorganize] at h
  obtain ⟨pfork', hfork', h⟩ := Lib.bind_eq_ok.mp h
  rw [Lib.mapError_eq_ok, hfork] at hfork'
  cases hfork'
  obtain ⟨-, h⟩ := Lib.seq_eq_ok.mp h
  obtain ⟨st₁, h₁, h⟩ := Lib.bind_eq_ok.mp h
  obtain ⟨st₂, h₂, h⟩ := Lib.bind_eq_ok.mp h
  have hm₁ := reorgDisconnects_sameMemory.1 st₁ h₁
  have hm₂ := (reorgConnects_memory (st₁.1, []) hm₁ hd).1 st₂ h₂
  have hvTxn : st₂.1.txdb.vTxn = [d] := hm₂.vTxn.trans hd
  simp only [CTxDB.txnCommit, NodeState.writeHashBestChain, NodeState.updateDb, hvTxn] at h
  cases h
  refine ⟨hm₂.mapBlockIndex, hm₂.pindexGenesisBlock, hm₂.hashSyncCheckpoint, hm₂.nAdjustedTime, rfl,
    hm₂.curTransaction, ?_⟩
  have hlinked := (hnext.unlinks hsuf hne).links hsuf' hne
  rw [← hm₂.pnext] at hlinked
  exact hlinked

theorem setBestChainInner_pointed {d : TxDbData} (hd : s.txdb.vTxn = [d])
    (hnext : NextBelow s.pnext pprev)
    (h : block.setBestChainInner env files p pprev s = .ok s') : Pointed s (p :: pprev) s' := by
  obtain ⟨s₁, -, hmem, -, rfl⟩ := CBlock.setBestChainInner_eq_ok hd h
  refine ⟨hmem.mapBlockIndex, hmem.pindexGenesisBlock, hmem.hashSyncCheckpoint,
    hmem.nAdjustedTime, rfl, hmem.curTransaction, ?_⟩
  have hlinked : NextBelow (link s.pnext _) _ := hnext.link (p := p)
  rw [← hmem.pnext] at hlinked
  exact hlinked

/-- An inner call that returns `false` has taken its transaction back. -/
theorem setBestChainInner_false {d : TxDbData} (hd : s.txdb.vTxn = [d]) {e : Err}
    (he : e.isFalse = true) (h : block.setBestChainInner env files p pprev s = .error (e, s')) :
    SameMemory s { s' with txdb := s.txdb } ∧ s'.txdb.vTxn = [] := by
  rcases CBlock.setBestChainInner_eq_error hd h with ⟨e', s₁, -, hmem, rfl, rfl⟩ | ⟨-, hexc⟩
  · have hfail := (hmem.failing hd).rejectAfter e' p
    refine ⟨hfail.memory, ?_⟩
    have he' : e'.isFalse = true := by
      cases e' <;> first | rfl | exact he
    show (s₁.rejectAfter e' p).txdb.vTxn = []
    unfold NodeState.rejectAfter
    rw [if_pos he']
    unfold invalidChainFound
    have habort : s₁.txdb.txnAbort.vTxn = [] := by
      simp only [CTxDB.txnAbort, show s₁.txdb.vTxn = [d] from hmem.vTxn.trans hd]
    split <;> exact habort
  · rw [he] at hexc
    cases hexc

/-- The loop over the postponed blocks ends at one of them, or below them all. -/
theorem connectSecondary_pointed {s₀ : NodeState} {inter tip : BlockPtr} (hsuf : inter <:+ tip)
    (hinter : inter ≠ []) (hs : Pointed s₀ inter s)
    (h : connectSecondary env files (backTo inter tip).reverse s = .ok s') :
    ∃ z, inter <:+ z ∧ z <:+ tip ∧ Pointed s₀ z s' := by
  -- one round, when it returns and when it fails
  have hok : ∀ {q : CBlockIndex} {qprev : BlockPtr} {t t' : NodeState}, Pointed s₀ qprev t →
      connectPostponed env files t (q :: qprev) = .ok t' → Pointed s₀ (q :: qprev) t' := by
    intro q qprev t t' ht hstep
    rw [connectPostponed] at hstep
    split at hstep
    · cases hstep
    · have hd : ({ t with txdb := t.txdb.txnBegin } : NodeState).txdb.vTxn = [t.txdb.data] := by
        simp [CTxDB.txnBegin, ht.vTxn]
      have hp := setBestChainInner_pointed hd ht.next hstep
      exact ⟨hp.mapBlockIndex.trans ht.mapBlockIndex, hp.pindexGenesisBlock.trans
        ht.pindexGenesisBlock, hp.hashSyncCheckpoint.trans ht.hashSyncCheckpoint,
        hp.nAdjustedTime.trans ht.nAdjustedTime, hp.vTxn, hp.curTransaction.trans ht.curTransaction,
        hp.next⟩
  have hfalse : ∀ {z q : BlockPtr} {t t' : NodeState} {e : Err}, Pointed s₀ z t → e.isFalse = true →
      connectPostponed env files t q = .error (e, t') → Pointed s₀ z t' := by
    intro z q t t' e ht he hstep
    rw [connectPostponed] at hstep
    split at hstep
    · cases hstep
      exact ht
    · split at hstep
      · cases hstep
        cases he
      · have hd : ({ t with txdb := t.txdb.txnBegin } : NodeState).txdb.vTxn = [t.txdb.data] := by
          simp [CTxDB.txnBegin, ht.vTxn]
        obtain ⟨hm, hv⟩ := setBestChainInner_false hd he hstep
        have hpnext : t'.pnext = t.pnext := hm.pnext
        exact ⟨hm.mapBlockIndex.trans ht.mapBlockIndex, hm.pindexGenesisBlock.trans
          ht.pindexGenesisBlock, hm.hashSyncCheckpoint.trans ht.hashSyncCheckpoint,
          hm.nAdjustedTime.trans ht.nAdjustedTime, hv, hm.curTransaction.trans ht.curTransaction,
          by rw [hpnext]; exact ht.next⟩
  -- the rounds up to an ancestor of the tip
  have hloop : ∀ (tip : BlockPtr), inter <:+ tip →
      (∀ t', (backTo inter tip).reverse.foldlM (connectPostponed env files) s = .ok t' →
        Pointed s₀ tip t') ∧
      ∀ e t', e.isFalse = true →
        (backTo inter tip).reverse.foldlM (connectPostponed env files) s = .error (e, t') →
        ∃ z, inter <:+ z ∧ z <:+ tip ∧ Pointed s₀ z t' := by
    intro tip
    induction tip with
    | nil => exact fun hsuf => absurd (List.suffix_nil.mp hsuf) hinter
    | cons q qprev ih =>
        intro hsuf
        rw [backTo]
        split
        · next heq =>
          constructor
          · intro t' ht'
            cases ht'
            rw [heq]
            exact hs
          · intro e t' _ ht'
            cases ht'
        · next hne =>
          obtain ⟨hsuf', -⟩ := suffix_pprev hinter hsuf hne
          obtain ⟨ihok, iherr⟩ := ih hsuf'
          rw [List.reverse_cons, List.foldlM_append]
          constructor
          · intro t' ht'
            obtain ⟨t₁, h₁, ht'⟩ := Lib.bind_eq_ok.mp ht'
            obtain ⟨t₂, h₂, ht'⟩ := Lib.bind_eq_ok.mp ht'
            cases ht'
            exact hok (ihok t₁ h₁) h₂
          · intro e t' he ht'
            rcases Lib.bind_eq_error.mp ht' with ht' | ⟨t₁, h₁, ht'⟩
            · obtain ⟨z, hz, hz', hp⟩ := iherr e t' he ht'
              exact ⟨z, hz, hz'.trans (List.suffix_cons q qprev), hp⟩
            · rcases Lib.bind_eq_error.mp ht' with ht' | ⟨t₂, -, ht'⟩
              · exact ⟨qprev, hsuf', List.suffix_cons q qprev, hfalse (ihok t₁ h₁) he ht'⟩
              · cases ht'
  rw [connectSecondary] at h
  split at h
  · next s₁ h₁ =>
    cases h
    exact ⟨tip, hsuf, List.suffix_rfl, (hloop tip hsuf).1 _ h₁⟩
  · next e s₁ h₁ =>
    split at h
    · next he =>
      cases h
      exact (hloop tip hsuf).2 e _ he h₁
    · cases h

/-! ## A whole call -/

/-- What a call of `SetBestChain` that returns `true` has done to the pointers. -/
structure WentTo (s : NodeState) (tip : BlockPtr) (s' : NodeState) : Prop where
  mapBlockIndex : s'.mapBlockIndex = s.mapBlockIndex
  pindexGenesisBlock : s'.pindexGenesisBlock = s.pindexGenesisBlock
  hashSyncCheckpoint : s'.hashSyncCheckpoint = s.hashSyncCheckpoint
  nAdjustedTime : s'.nAdjustedTime = s.nAdjustedTime
  pindexBest : s'.pindexBest = tip
  hashBestChain : s'.hashBestChain = BlockPtr.hash tip
  vTxn : s'.txdb.vTxn = []
  noView : s'.infos.inTransaction = false
  next : NextBelow s'.pnext tip
  fork : ∃ pfork, LeavesBy s tip pfork

theorem switchTo_pointed {d : TxDbData} (hd : s.txdb.vTxn = [d])
    (hgenesis : s.pindexGenesisBlock ≠ []) (hnext : NextBelow s.pnext s.pindexBest)
    (hprev : block.hashPrevBlock = s.hashBestChain → pprev = s.pindexBest) (hne : pprev ≠ [])
    (h : block.switchTo env files p pprev s = .ok s') :
    ∃ z, z <:+ p :: pprev ∧ Pointed s z s' ∧ ∃ pfork, LeavesBy s (p :: pprev) pfork := by
  rw [CBlock.switchTo] at h
  split at h
  · next hc => exact absurd hc.1 hgenesis
  · split at h
    · next hbest =>
      rw [Lib.mapError_eq_ok] at h
      have heq := hprev hbest
      refine ⟨p :: pprev, List.suffix_rfl, setBestChainInner_pointed hd (heq ▸ hnext) h, pprev, hne,
        heq ▸ List.suffix_rfl, List.suffix_cons p pprev, ?_⟩
      intro x hx
      rw [← heq] at hx
      obtain ⟨q, qs, rfl⟩ := List.exists_cons_of_ne_nil hne
      rw [backTo, if_pos rfl] at hx
      cases hx
    · rw [switchBranch] at h
      split at h
      · cases h
      · next best rest hb =>
        obtain ⟨hsuf, hinter, -⟩ := postpone_suffix best.bnChainTrust (p :: pprev)
        dsimp only at h
        split at h
        · cases h
        · next s₁ hre =>
          obtain ⟨pfork, ⟨hfne, hfbest, hfnew, hsync⟩, -⟩ := reorganize_leavesBy hre
          rw [postpone_eq_backTo] at h
          obtain ⟨z, -, hz, hp⟩ := connectSecondary_pointed hsuf (hinter (List.cons_ne_nil _ _))
            (reorganize_pointed hd hnext hre) h
          exact ⟨z, hz, hp, pfork, hfne, hfbest, hfnew.trans hsuf, hsync⟩

theorem setBestChain_wentTo (hidle : s.txdb.vTxn = []) (hview : s.infos.inTransaction = false)
    (hgenesis : s.pindexGenesisBlock ≠ []) (hnext : NextBelow s.pnext s.pindexBest)
    (hprev : block.hashPrevBlock = s.hashBestChain → pprev = s.pindexBest) (hne : pprev ≠ [])
    (hhash : env.getIDHash block.toCBlockHeader = p.hashBlock)
    (h : block.setBestChain env files p pprev s = .ok s') : WentTo s (p :: pprev) s' := by
  rw [CBlock.setBestChain_eq hview] at h
  split at h
  · cases h
  · next s₂ h₂ =>
    cases h
    obtain ⟨s₁, h₁, h₂⟩ := Lib.bind_eq_ok.mp h₂
    have hd : s.inView.txdb.vTxn = [s.txdb.data] := by
      simp [NodeState.inView, CTxDB.txnBegin, hidle]
    obtain ⟨z, hz, hp, hfork⟩ := switchTo_pointed hd hgenesis hnext hprev hne h₁
    rw [CBlock.newBest] at h₂
    split at h₂
    · cases h₂
    · next infos hcommit =>
      cases h₂
      refine ⟨hp.mapBlockIndex, hp.pindexGenesisBlock, hp.hashSyncCheckpoint, hp.nAdjustedTime, rfl,
        hhash, hp.vTxn, ?_, hp.next.mono hz, hfork⟩
      unfold CTxInfoStore.commit at hcommit
      split at hcommit
      · cases hcommit
        rfl
      · cases hcommit

theorem setBestChain_undone (hidle : s.txdb.vTxn = []) (hview : s.infos.inTransaction = false)
    (hgenesis : s.pindexGenesisBlock ≠ []) (hne : pprev ≠ []) {e : Err} (he : e.isFalse = true)
    (h : block.setBestChain env files p pprev s = .error (e, s')) : Undone s s' := by
  have hd : s.inView.txdb.vTxn = [s.txdb.data] := by
    simp [NodeState.inView, CTxDB.txnBegin, hidle]
  rw [CBlock.setBestChain_eq hview] at h
  split at h
  · next e' s₂ h₂ =>
    cases h
    rcases Lib.bind_eq_error.mp h₂ with h₂ | ⟨s₁, h₁, h₂⟩
    · apply Failing.undone
      rw [CBlock.switchTo] at h₂
      split at h₂
      · next hc => exact absurd hc.1 hgenesis
      · split at h₂
        · obtain ⟨⟨e₁, s₁⟩, hinner, heq⟩ := Lib.mapError_eq_error.mp h₂
          cases heq
          exact setBestChainInner_error hd (fun hnil => absurd hnil hne) hinner
        · rcases switchBranch_error hidle h₂ with hfail | ⟨hexc, -⟩
          · exact hfail
          · rw [hexc] at he
            cases he
    · -- committing the view only fails with an exception
      rw [CBlock.newBest] at h₂
      split at h₂
      · next hcommit =>
        cases h₂
        unfold CTxInfoStore.commit at hcommit
        split at hcommit
        · cases hcommit
        · cases hcommit
          cases he
      · cases h₂
  · cases h

end

end ShinyCoin

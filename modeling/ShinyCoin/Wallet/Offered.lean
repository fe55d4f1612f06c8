import ShinyCoin.Pool.Invariant
import ShinyCoin.Wallet.PendingSpent

/-!
# Coins that are offered

A careful run keeps every coin that the pool spends marked, and `SelectCoinsMinConf` takes no coin
that is marked. Two calls are not careful by themselves: `FixSpentCoins` and the refund of a coinstake
look at the index and at the blocks, and take the mark from a coin that the pool spends.
-/

namespace ShinyCoin

/-! ## What is selected -/

namespace SpendingWallet

variable {env : Env} {w : SpendingWallet env} {ch : SelectChoices} {nTarget : ℤ} {nSpendTime : Nat}
  {nConfMine nConfTheirs : ℤ} {c : Coin} {coins : List Coin} {st : CoinScan}

/-- The last resort takes candidates only. -/
theorem bestSubset_subset (h : c ∈ w.bestSubset ch nTarget st) :
    c ∈ st.vValue ∨ st.coinLowestLarger = some c := by
  have hsub : ∀ vf, c ∈ included vf (st.vValue.insertionSort w.valueLE).reverse → c ∈ st.vValue := by
    intro vf hc
    have hmem := (included_sublist vf _).subset hc
    rwa [List.mem_reverse, (List.perm_insertionSort _ _).mem_iff] at hmem
  unfold bestSubset at h
  dsimp only at h
  generalize (if nTarget + CENT ≤ st.nTotalLower then nTarget + CENT else nTarget) = nTarget' at h
  split at h
  · next d hd =>
    split at h
    · rw [List.mem_singleton.mp h]
      exact .inr hd
    · exact .inl (hsub _ h)
  · exact .inl (hsub _ h)

/-- Whatever the target is, what is selected is among the candidates. -/
theorem selectCoinsMinConf_subset
    (h : w.selectCoinsMinConf ch nTarget nSpendTime nConfMine nConfTheirs = some coins) :
    coins ⊆ w.availableCoins ch nSpendTime nConfMine nConfTheirs := by
  unfold selectCoinsMinConf at h
  split at h
  · next c hc =>
    cases h
    intro d hd
    rw [List.mem_singleton.mp hd]
    exact scanCoins_inl hc
  · next st hst =>
    obtain ⟨hsub, hlowest, -⟩ := scanCoins_inr hst
    have hlarger : ∀ c, st.coinLowestLarger = some c →
        c ∈ w.availableCoins ch nSpendTime nConfMine nConfTheirs := by
      intro c hc
      exact (hlowest c hc).resolve_left (by rintro ⟨⟩)
    generalize (if st.coinLowestLarger.isSome then CENT else 0) = extra at h
    split at h
    · cases h
      exact hsub.subset
    · split at h
      · obtain ⟨c, hc, rfl⟩ := Option.map_eq_some_iff.mp h
        intro d hd
        rw [List.mem_singleton.mp hd]
        exact hlarger c hc
      · cases h
        intro d hd
        rcases bestSubset_subset hd with hd | hd
        · exact hsub.subset hd
        · exact hlarger d hd

/-- A candidate is an output of the wallet's own that is not marked. -/
theorem unspent_of_mem_availableCoins
    (h : c ∈ w.availableCoins ch nSpendTime nConfMine nConfTheirs) :
    c.wtx.isSpent c.n ≠ .ok true ∧
      ∃ txout, c.wtx.tx.vout[c.n]? = some txout ∧ w.isMine txout.scriptPubKey = true := by
  obtain ⟨x, -, hc⟩ := List.mem_flatMap.mp h
  split at hc
  · obtain ⟨i, -, hc⟩ := List.mem_filterMap.mp hc
    obtain ⟨txout, hout, hc⟩ := Option.bind_eq_some_iff.mp hc
    split at hc
    · next hcond =>
      cases hc
      rw [Bool.and_eq_true, Bool.and_eq_true, Bool.and_eq_true] at hcond
      refine ⟨?_, txout, hout, hcond.1.1.2⟩
      intro hspent
      have hunspent := hcond.1.1.1
      rw [CWalletTx.isUnspent, hspent] at hunspent
      cases hunspent
    · cases hc
  · cases hc

/-- The wallet payments are made from has the transactions and the keys of `v`. -/
structure Views (w : SpendingWallet env) (v : CWallet) : Prop where
  mapWallet : ∀ hash, v.mapWallet hash = w.mapWallet[hash]?
  isMine : v.isMine = w.isMine

/-- What is marked is not selected. -/
theorem not_spent_of_selected {v : CWallet} (hviews : w.Views v)
    (h : w.selectCoinsMinConf ch nTarget nSpendTime nConfMine nConfTheirs = some coins)
    (hc : c ∈ coins) : (v.ownOutput ⟨c.hash, c.n⟩).isSome = true ∧ ¬ v.Spent ⟨c.hash, c.n⟩ := by
  have hmem := selectCoinsMinConf_subset h hc
  obtain ⟨hunspent, txout, hout, hmine⟩ := unspent_of_mem_availableCoins hmem
  have hentry : v.mapWallet c.hash = some c.wtx :=
    (hviews.mapWallet c.hash).trans (mem_availableCoins hmem).1
  rw [← hviews.isMine] at hmine
  have hown : v.ownOutput ⟨c.hash, c.n⟩ = some txout :=
    CWallet.ownOutput_eq_some.mpr ⟨c.wtx, hentry, hout, hmine⟩
  refine ⟨by rw [hown]; rfl, ?_⟩
  rintro ⟨wtx, hw, hspent⟩
  replace hw : v.mapWallet c.hash = some wtx := hw
  rw [hentry] at hw
  cases hw
  exact hunspent hspent

end SpendingWallet

/-! ## The pool -/

namespace CTxMemPool

variable {env : Env} {pool : CTxMemPool} {tx : CTransaction} {o : COutPoint}

theorem Spends.of_addUnchecked (h : (pool.addUnchecked env tx).Spends o) :
    pool.Spends o ∨ o ∈ tx.vin.map CTxIn.prevout := by
  obtain ⟨hash, tx', hlookup, ho⟩ := h
  rw [lookup_addUnchecked] at hlookup
  split at hlookup
  · cases hlookup
    exact .inr ho
  · exact .inl ⟨hash, tx', hlookup, ho⟩

theorem Spends.of_remove (h : (pool.remove env tx).Spends o) : pool.Spends o := by
  obtain ⟨hash, tx', hlookup, ho⟩ := h
  rw [lookup_remove_apply] at hlookup
  split at hlookup
  · cases hlookup
  · exact ⟨hash, tx', hlookup, ho⟩

theorem not_spends_empty : ¬ ({} : CTxMemPool).Spends o := by
  rintro ⟨hash, tx', hlookup, -⟩
  have hnone : ({} : CTxMemPool).lookup hash = none := Std.ExtTreeMap.getElem?_empty
  rw [hnone] at hlookup
  cases hlookup

end CTxMemPool

namespace CommitState

variable {φ : Type} {cenv : CommitEnv φ} {s s' : CommitState φ} {tx : CTransaction}
  {block : CBlock} {files : Files}

/-- The pool takes in a transaction whose own inputs are marked. -/
theorem marks_addUnchecked {w : CWallet} {pool : CTxMemPool} (h : w.Marks pool.Spends)
    (hmarked : ∀ o ∈ w.ownSpends tx, w.Spent o) :
    w.Marks (pool.addUnchecked cenv.toEnv tx).Spends := by
  intro o ho hown
  rcases ho.of_addUnchecked with ho | ho
  · exact h o ho hown
  · exact hmarked o (CWallet.mem_ownSpends.mpr ⟨ho, hown⟩)

/-! ## One call -/

/-- What is committed is marked, and so is what the pool spent before. -/
theorem PendingMarked.commitTransaction (h : s.PendingMarked) {r : Nat} {wtxNew : CWalletTx}
    {fRet : Bool} (hnew : s.wallet.NewMarks cenv.toEnv s.node.mempool.Spends wtxNew)
    (hcommit : s.commitTransaction cenv files r wtxNew = .ok (fRet, s')) : s'.PendingMarked := by
  rcases commitTransaction_cases hcommit with ⟨-, heq⟩ | ⟨-, free, s₁, hrecord, rfl⟩
  · rw [heq]
    exact h
  · obtain ⟨keys, -, hrecord⟩ := Lib.bind_eq_ok.mp hrecord
    obtain ⟨w₂, hadd, hrecord⟩ := Lib.bind_eq_ok.mp hrecord
    obtain ⟨w₃, hmark, hrecord⟩ := Lib.bind_eq_ok.mp hrecord
    cases hrecord
    have hw₂ := CWallet.Marks.addToWallet h hnew
    rw [Lib.mapError_eq_ok.mp hadd] at hw₂
    have hw₃ : w₃.Marks s.node.mempool.Spends :=
      Lib.foldlM_ok_inv (fun _ (v : CWallet) => v.Marks s.node.mempool.Spends)
        (fun _ _ _ _ hI hstep => CWallet.Marks.markSpent hI hstep) hw₂ hmark
    apply marks_addUnchecked hw₃
    intro o ho
    exact (CWallet.spent_markSpents hmark o).mpr (.inl (CWallet.mem_ownSpends.mp ho).1)

/-- A throw comes before the pool has changed. -/
theorem marks_thrownWallet (h : s.PendingMarked) {r : Nat} {wtxNew : CWalletTx}
    (hnew : s.wallet.NewMarks cenv.toEnv s.node.mempool.Spends wtxNew) :
    (s.thrownWallet cenv files r wtxNew).Marks s.node.mempool.Spends := by
  unfold thrownWallet
  split
  · exact h
  · split
    · exact CWallet.Marks.putEntry h hnew
    · have hadd := CWallet.Marks.addToWallet h hnew
      split
      · next heq =>
        rw [heq] at hadd
        exact hadd
      · next heq =>
        rw [heq] at hadd
        exact CWallet.Marks.markSpentUntil hadd _

/-- Whether `ConnectBlock` returns, fails or throws -/
theorem PendingMarked.connectBlock (h : s.PendingMarked) {pindex : CBlockIndex} {pprev : BlockPtr}
    (hnew : ∀ tx ∈ block.vtx, s.wallet.NewMarks cenv.toEnv s.node.mempool.Spends { tx := tx }) :
    (s.setRegistered
      (Lib.final (block.connectBlock cenv.toEnv files pindex pprev s.registered))).PendingMarked := by
  have hpool := (CBlock.connectBlock_sameMemory cenv.toEnv files block pindex pprev s.registered).mempool
  unfold PendingMarked setRegistered
  dsimp only
  rw [hpool]
  rcases CBlock.wallets_connectBlock cenv.toEnv files block pindex pprev s.registered
    with hws | hws <;> rw [hws]
  · exact h
  · obtain ⟨w', ws', hsync, hw'⟩ := CWallet.Marks.syncConnecteds h hnew s.node.wallets
    rw [show s.registered.wallets = s.wallet :: s.node.wallets from rfl, hsync]
    exact hw'

/-- Whether `DisconnectBlock` returns, fails or throws -/
theorem PendingMarked.disconnectBlock (h : s.PendingMarked) {pprev : BlockPtr}
    (hnot : ∀ o ∈ s.wallet.refundedBy block.vtx, ¬ s.node.mempool.Spends o) :
    (s.setRegistered
      (Lib.final (block.disconnectBlock cenv.toEnv files pprev s.registered))).PendingMarked := by
  have hpool := (CBlock.disconnectBlock_sameMemory cenv.toEnv files block pprev s.registered).mempool
  unfold PendingMarked setRegistered
  dsimp only
  rw [hpool]
  rcases CBlock.wallets_disconnectBlock cenv.toEnv files block pprev s.registered
    with hws | hws <;> rw [hws]
  · exact h
  · obtain ⟨w', ws', hsync, hw'⟩ := CWallet.Marks.syncDisconnecteds h hnot s.node.wallets
    rw [show s.registered.wallets = s.wallet :: s.node.wallets from rfl, hsync]
    exact hw'

theorem PendingMarked.resurrect (h : s.PendingMarked)
    (hmarked : (s.node.mempool.checkAccept cenv.toEnv tx).isOk = true →
      ∀ o ∈ s.wallet.ownSpends tx, s.wallet.Spent o) :
    (s.setPool (s.node.mempool.accept cenv.toEnv tx)).PendingMarked := by
  unfold PendingMarked setPool CTxMemPool.accept
  dsimp only
  split
  · next hok => exact marks_addUnchecked h (hmarked hok)
  · exact h

theorem PendingMarked.remove (h : s.PendingMarked) (tx : CTransaction) :
    (s.setPool (s.node.mempool.remove cenv.toEnv tx)).PendingMarked :=
  fun o ho hown => h o ho.of_remove hown

/-- A careful call keeps what the pool spends marked. -/
theorem PendingMarked.exec (h : s.PendingMarked) {op : PendingOp φ} (hcareful : s.Careful cenv op) :
    (s.exec cenv op).PendingMarked := by
  cases op with
  | commitTransaction files r wtxNew =>
      simp only [CommitState.exec]
      cases hcommit : s.commitTransaction cenv files r wtxNew with
      | error e => exact marks_thrownWallet h hcareful
      | ok result => exact h.commitTransaction hcareful hcommit
  | connectBlock files block pindex pprev => exact h.connectBlock hcareful
  | disconnectBlock files block pprev => exact h.disconnectBlock hcareful
  | resurrect tx => exact h.resurrect hcareful
  | remove tx => exact h.remove tx
  | fixSpentCoins fCheckOnly => exact (CWallet.Marks.fixSpentCoins_iff h).mpr hcareful
  | elsewhere node keys free => exact h

/-! ## What is not careful -/

/-- The repair takes the mark of a coin that the pool spends exactly where the index has the coin, and
not as spent. -/
theorem fixSpentCoins_marked_iff (h : s.PendingMarked) {fCheckOnly : Bool} :
    (s.exec cenv (.fixSpentCoins fCheckOnly)).PendingMarked ↔
      s.Careful cenv (.fixSpentCoins fCheckOnly) :=
  CWallet.Marks.fixSpentCoins_iff h

/-- Blocks that are disconnected take the mark of a coin that the pool spends exactly where a
coinstake of the wallet's own had staked it. -/
theorem disconnectBlock_marked_iff (h : s.PendingMarked) {pprev : BlockPtr} {node : NodeState}
    (hok : block.disconnectBlock cenv.toEnv files pprev s.registered = .ok node) :
    (s.exec cenv (.disconnectBlock files block pprev)).PendingMarked ↔
      s.Careful cenv (.disconnectBlock files block pprev) := by
  have hmem := (CBlock.disconnectTxs_sameMemory cenv.toEnv files s.registered block.vtx.reverse).2
  have hpool := (CBlock.disconnectBlock_sameMemory cenv.toEnv files block pprev s.registered).mempool
  obtain ⟨s₁, ws, hloop, hsync, rfl⟩ := CBlock.disconnectBlock_ok hok
  rw [hloop] at hmem
  replace hmem : s₁.wallets = s.wallet :: s.node.wallets := hmem
  rw [hmem] at hsync
  obtain ⟨w', ws', hoff, -, rfl⟩ := List.forall₂_cons_left_iff.mp (syncDisconnecteds_ok hsync)
  rw [hok] at hpool
  have hexec : (s.exec cenv (.disconnectBlock files block pprev)).PendingMarked ↔
      w'.Marks s.node.mempool.Spends := by
    simp only [CommitState.exec, hok]
    unfold PendingMarked setRegistered
    rw [show s.node.mempool = _ from hpool.symm]
    rfl
  exact hexec.trans (CWallet.Marks.syncOff_iff h hoff)

/-- A transaction goes back to the pool and leaves one of the wallet's own coins unmarked exactly
where the wallet did not have it as spent. -/
theorem resurrect_marked_iff (h : s.PendingMarked) :
    (s.exec cenv (.resurrect tx)).PendingMarked ↔ s.Careful cenv (.resurrect tx) := by
  refine ⟨?_, fun hcareful => h.resurrect hcareful⟩
  intro hmarked hok o ho
  obtain ⟨hvin, hown⟩ := CWallet.mem_ownSpends.mp ho
  apply hmarked o _ hown
  refine ⟨cenv.getHash tx, tx, ?_, hvin⟩
  show (s.node.mempool.accept cenv.toEnv tx).lookup (cenv.getHash tx) = some tx
  rw [CTxMemPool.accept, if_pos hok, CTxMemPool.lookup_addUnchecked, if_pos rfl]

/-! ## Runs -/

/-- A pool that has nothing in it, as after a start, spends nothing. -/
theorem pendingMarked_of_empty (hpool : s.node.mempool = {}) : s.PendingMarked := by
  intro o ho
  rw [hpool] at ho
  exact absurd ho CTxMemPool.not_spends_empty

theorem CarefulRun.pendingMarked (hrun : CarefulRun cenv s s') (hstart : s.PendingMarked) :
    s'.PendingMarked := by
  induction hrun with
  | start => exact hstart
  | step _ hcareful ih => exact ih.exec hcareful

/-- After careful calls, in any order and number, every output of a wallet transaction that is the
wallet's own and that the pool spends is marked, and `SelectCoinsMinConf` selects none that the pool
spends. -/
theorem pendingSpent_of_careful (hstart : s.PendingMarked) (hrun : CarefulRun cenv s s') :
    s'.PendingMarked ∧
      ∀ (sw : SpendingWallet cenv.toEnv), sw.Views s'.wallet →
        ∀ (ch : SelectChoices) (nTarget : ℤ) (nSpendTime : Nat) (nConfMine nConfTheirs : ℤ) coins,
          sw.selectCoinsMinConf ch nTarget nSpendTime nConfMine nConfTheirs = some coins →
            ∀ c ∈ coins, ¬ s'.node.mempool.Spends ⟨c.hash, c.n⟩ := by
  have hmarked := hrun.pendingMarked hstart
  refine ⟨hmarked, ?_⟩
  intro sw hviews ch nTarget nSpendTime nConfMine nConfTheirs coins hselect c hc hspends
  obtain ⟨hown, hunspent⟩ := SpendingWallet.not_spent_of_selected hviews hselect hc
  exact hunspent (hmarked _ hspends hown)

end CommitState

/-! ## A payment and a repair -/

namespace CommitState

/-- The payment is committed, and a block without coinstakes disconnected. -/
def pendingState : CommitState Unit :=
  (payingState.exec (plainCommit true) (.commitTransaction sampleFiles 0 { tx := paymentMsg.tx })).exec
    (plainCommit true) (.disconnectBlock sampleFiles sampleBlock [sampleGenesis])

theorem pendingState_spends : pendingState.node.mempool.Spends ⟨2, 0⟩ := by
  have hlookup : pendingState.node.mempool.lookup 6 = some paymentMsg.tx := by decide +kernel
  exact ⟨6, paymentMsg.tx, hlookup, List.mem_cons_self⟩

theorem payingState_pendingMarked : payingState.PendingMarked :=
  pendingMarked_of_empty rfl

/-- The coin is the wallet's own, the pool spends it, and it is marked. -/
theorem pendingSpent_of_careful_payment :
    pendingState.node.mempool.Spends ⟨2, 0⟩ ∧ (pendingState.wallet.ownOutput ⟨2, 0⟩).isSome = true ∧
      pendingState.wallet.Spent ⟨2, 0⟩ := by
  have hown : (pendingState.wallet.ownOutput ⟨2, 0⟩).isSome = true := by decide +kernel
  have hrun : CarefulRun (plainCommit true) payingState pendingState := by
    apply CarefulRun.step (CarefulRun.step .start _) _
    · -- the pool is empty
      intro hnew n txout hout hmine hpending
      exact absurd hpending CTxMemPool.not_spends_empty
    · intro o ho
      obtain ⟨tx, htx, ho⟩ := List.mem_flatMap.mp ho
      have hnone : ∀ tx ∈ sampleBlock.vtx, tx.isCoinStake = false := by decide
      rw [hnone tx htx] at ho
      cases ho
  have hmarked := (pendingSpent_of_careful payingState_pendingMarked hrun).1
  exact ⟨pendingState_spends, hown, hmarked ⟨2, 0⟩ pendingState_spends hown⟩

/-- The repair finds the coin in the index, where no block spends it, and takes its mark. The pool
still spends it. -/
theorem fixSpentCoins_unmarks_payment :
    payingState.PendingMarked ∧ pendingState.node.mempool.Spends ⟨2, 0⟩ ∧
      let s := pendingState.exec (plainCommit true) (.fixSpentCoins false)
      s.node.mempool.Spends ⟨2, 0⟩ ∧ (s.wallet.ownOutput ⟨2, 0⟩).isSome = true ∧
        ¬ s.wallet.Spent ⟨2, 0⟩ := by
  refine ⟨payingState_pendingMarked, pendingState_spends, pendingState_spends, by decide +kernel, ?_⟩
  rintro ⟨wtx, hw, hspent⟩
  have hunspent : ((pendingState.exec (plainCommit true) (.fixSpentCoins false)).wallet.mapWallet 2).map
      (fun wtx => (wtx.isSpent 0).toOption) = some (some false) := by decide +kernel
  replace hw : (pendingState.exec (plainCommit true) (.fixSpentCoins false)).wallet.mapWallet 2
    = some wtx := hw
  rw [hw, Option.map_some, hspent] at hunspent
  cases hunspent

end CommitState

end ShinyCoin

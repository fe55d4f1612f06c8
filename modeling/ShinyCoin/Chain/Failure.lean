import ShinyCoin.Chain.Consistency
import ShinyCoin.Wallet.Flags

/-!
# A reorganization that fails

When `SetBestChain` returns `false`, the transactions of the two databases take back what the call
had done, and in memory nothing had been changed yet. The wallets are told block by block, outside
both transactions, and nobody tells them that it was all for nothing.
-/

namespace ShinyCoin

/-! ## How far a call gets -/

/-- The blocks that were taken off and those that were put on. -/
structure Progress where
  off : List CBlock := []
  on : List CBlock := []

namespace Progress

/-- The transactions the wallets hear of as disconnected. -/
def txsOff (progress : Progress) : List CTransaction := progress.off.flatMap CBlock.vtx

/-- The transactions the wallets hear of as connected. -/
def txsOn (progress : Progress) : List (CBlock × CTransaction) :=
  progress.on.flatMap fun block => block.vtx.map (block, ·)

end Progress

/-- The blocks of the main chain above the fork that can be taken off, and if that is all of them
those of the new branch that then connect, each up to the first one that fails. -/
def reorgProgress (env : Env) (files : Files) (pindexNew : BlockPtr) (s : NodeState) : Progress :=
  match findFork s.pindexBest pindexNew with
  | .error _ => {}
  | .ok pfork =>
      if (disconnectList pfork s).all fun ptr => BlockPtr.hash ptr != s.hashSyncCheckpoint then
        { off := (Lib.passed (reorgDisconnect env files) (s, []) (disconnectList pfork s)).filterMap
            (files.readBlock env)
          on := match (disconnectList pfork s).foldlM (reorgDisconnect env files) (s, []) with
            | .error _ => []
            | .ok st => (Lib.passed (reorgConnect env files) (st.1, [])
                (connectList pfork pindexNew)).filterMap (files.readBlock env) }
      else {}

/-- `reorgProgress` for the branch `SetBestChain` reorganizes to; a block on top of the best one
fails before the wallets hear of it. -/
def CBlock.progress (env : Env) (files : Files) (block : CBlock) (pindexNew : CBlockIndex)
    (pprev : BlockPtr) (s : NodeState) : Progress :=
  if s.pindexGenesisBlock = [] ∧ env.getIDHash block.toCBlockHeader = env.hashGenesisBlock then {}
  else if block.hashPrevBlock = s.hashBestChain then {}
  else match s.pindexBest with
    | [] => {}
    | best :: _ =>
        reorgProgress env files (postpone best.bnChainTrust (pindexNew :: pprev)).2 s.inView

/-! ## The wallets -/

/-- Every wallet has heard of `off` as disconnected, and then of `on` as connected. -/
def Told (env : Env) (progress : Progress) (ws ws' : List CWallet) : Prop :=
  List.Forall₂ (fun w w' => ∃ v, w.syncOff progress.txsOff = .ok v ∧
    v.syncOn env progress.txsOn = .ok w') ws ws'

theorem told_nothing (env : Env) (ws : List CWallet) : Told env {} ws ws :=
  List.forall₂_same.mpr fun w _ => ⟨w, rfl, rfl⟩

theorem Told.flags_iff {env : Env} {progress : Progress} {ws ws' : List CWallet}
    (h : Told env progress ws ws') :
    ws'.map CWallet.flags = ws.map CWallet.flags ↔
      ∀ w ∈ ws, w.Settled env progress.txsOff progress.txsOn := by
  induction h with
  | nil => simp
  | cons hw _ ih =>
      obtain ⟨v, hoff, hon⟩ := hw
      rw [List.map_cons, List.map_cons, List.cons.injEq, ih, CWallet.syncBlocks_flags_iff hoff hon,
        List.forall_mem_cons]

@[simp] theorem Err.isFalse_logged (msg : String) (e : Err) : (e.logged msg).isFalse = e.isFalse := by
  cases e <;> rfl

/-- An exception is not a `false`. -/
theorem Err.not_isFalse_of_exc {e : Err} (h : ∃ what, e = .exc what) : e.isFalse = false := by
  obtain ⟨what, rfl⟩ := h
  rfl

section

variable {env : Env} {files : Files} {s s' : NodeState} {e : Err}

/-- A `DisconnectBlock` that returns `false` has told the wallets nothing. -/
theorem disconnectBlock_false {block : CBlock} {pprev : BlockPtr}
    (h : block.disconnectBlock env files pprev s = .error (e, s')) (he : e.isFalse = true) :
    s'.wallets = s.wallets := by
  rcases CBlock.disconnectBlock_error h with h₁ | ⟨s₁, ws, -, hws, -⟩
  · have := (CBlock.disconnectTxs_sameMemory env files s block.vtx.reverse).2
    rw [h₁] at this
    exact this
  · obtain ⟨tx, _, ws₁, -, hstep⟩ :=
      Lib.foldlM_error_inv (fun _ _ => True) (fun _ _ _ _ _ _ => trivial) trivial hws
    rw [syncDisconnected] at hstep
    split at hstep
    · obtain ⟨w, -, w', hw⟩ := dispatchWallets_error hstep
      rw [Err.not_isFalse_of_exc (CWallet.syncDisconnectedTx_error hw)] at he
      exact Bool.noConfusion he
    · cases hstep

/-- A `ConnectBlock` that returns `false` has told the wallets nothing. -/
theorem connectBlock_false {block : CBlock} {pindex : CBlockIndex} {pprev : BlockPtr}
    (h : block.connectBlock env files pindex pprev s = .error (e, s')) (he : e.isFalse = true) :
    s'.wallets = s.wallets := by
  rcases CBlock.connectBlock_error h with ⟨infos, rfl, -⟩ | ⟨st, nCoinbaseOut, ws, -, hws, -⟩
  · rfl
  · obtain ⟨tx, _, ws₁, -, hstep⟩ :=
      Lib.foldlM_error_inv (fun _ _ => True) (fun _ _ _ _ _ _ => trivial) trivial hws
    obtain ⟨w, -, w', hw⟩ := dispatchWallets_error hstep
    rw [Err.not_isFalse_of_exc (CWallet.addToWalletIfInvolvingMe_error hw)] at he
    exact Bool.noConfusion he

theorem reorgDisconnect_wallets {st st' : ReorgState} {ptr : BlockPtr}
    (h : reorgDisconnect env files st ptr = .ok st') :
    ∃ block, files.readBlock env ptr = some block ∧
      List.Forall₂ (fun w w' => w.syncOff block.vtx = .ok w') st.1.wallets st'.1.wallets := by
  rw [reorgDisconnect] at h
  split at h
  · cases h
  · next block hread =>
    split at h
    · cases h
    · next s₁ hdis =>
      cases h
      obtain ⟨s₂, ws, h₂, hws, rfl⟩ := CBlock.disconnectBlock_ok hdis
      have hsame := (CBlock.disconnectTxs_sameMemory env files st.1 block.vtx.reverse).2
      rw [h₂] at hsame
      rw [show s₂.wallets = st.1.wallets from hsame] at hws
      exact ⟨block, hread, syncDisconnecteds_ok hws⟩

/-- The first loop of `Reorganize` tells every wallet of every block. -/
theorem reorgDisconnects_wallets {ptrs : List BlockPtr} {st st' : ReorgState}
    (h : ptrs.foldlM (reorgDisconnect env files) st = .ok st') :
    List.Forall₂ (fun w w' =>
      w.syncOff ((ptrs.filterMap (files.readBlock env)).flatMap CBlock.vtx) = .ok w')
      st.1.wallets st'.1.wallets := by
  induction ptrs generalizing st with
  | nil =>
      cases h
      exact List.forall₂_same.mpr fun _ _ => rfl
  | cons ptr ptrs ih =>
      obtain ⟨st₁, h₁, h⟩ := Lib.bind_eq_ok.mp h
      obtain ⟨block, hread, hws⟩ := reorgDisconnect_wallets h₁
      refine Lib.forall₂_comp ?_ hws (ih h)
      intro w w₁ w' hw hw'
      rw [List.filterMap_cons, hread, List.flatMap_cons, CWallet.syncOff, List.foldlM_append]
      exact Lib.bind_eq_ok.mpr ⟨w₁, hw, hw'⟩

theorem reorgConnect_wallets {st st' : ReorgState} {ptr : BlockPtr}
    (h : reorgConnect env files st ptr = .ok st') :
    ∃ block, files.readBlock env ptr = some block ∧
      List.Forall₂ (fun w w' => w.syncOn env (block.vtx.map (block, ·)) = .ok w')
        st.1.wallets st'.1.wallets := by
  rw [reorgConnect] at h
  split at h
  · cases h
  · next block hread =>
    split at h
    · cases h
    · next s₁ hconn =>
      cases h
      refine ⟨block, hread, ?_⟩
      cases ptr with
      | nil => cases hconn
      | cons p pprev =>
          obtain ⟨st₁, nCoinbaseOut, ws, -, -, -, hws, rfl⟩ := CBlock.connectBlock_ok hconn
          exact syncConnecteds_ok hws

/-- The second loop of `Reorganize` tells every wallet of every block. -/
theorem reorgConnects_wallets {ptrs : List BlockPtr} {st st' : ReorgState}
    (h : ptrs.foldlM (reorgConnect env files) st = .ok st') :
    List.Forall₂ (fun w w' => w.syncOn env ((ptrs.filterMap (files.readBlock env)).flatMap
      fun block => block.vtx.map (block, ·)) = .ok w') st.1.wallets st'.1.wallets := by
  induction ptrs generalizing st with
  | nil =>
      cases h
      exact List.forall₂_same.mpr fun _ _ => rfl
  | cons ptr ptrs ih =>
      obtain ⟨st₁, h₁, h⟩ := Lib.bind_eq_ok.mp h
      obtain ⟨block, hread, hws⟩ := reorgConnect_wallets h₁
      refine Lib.forall₂_comp ?_ hws (ih h)
      intro w w₁ w' hw hw'
      rw [List.filterMap_cons, hread, List.flatMap_cons, CWallet.syncOn, List.foldlM_append]
      exact Lib.bind_eq_ok.mpr ⟨w₁, hw, hw'⟩

/-- A round of the first loop that fails tells the wallets nothing. -/
theorem reorgDisconnect_false {st : ReorgState} {ptr : BlockPtr}
    (h : reorgDisconnect env files st ptr = .error (e, s')) (he : e.isFalse = true) :
    s'.wallets = st.1.wallets := by
  rw [reorgDisconnect] at h
  split at h
  · cases h
    rfl
  · split at h
    · next e' s₁ hdis =>
      cases h
      rw [Err.isFalse_logged] at he
      exact disconnectBlock_false hdis he
    · cases h

/-- A round of the second loop that fails tells the wallets nothing. -/
theorem reorgConnect_false {st : ReorgState} {ptr : BlockPtr}
    (h : reorgConnect env files st ptr = .error (e, s')) (he : e.isFalse = true) :
    s'.wallets = st.1.wallets := by
  rw [reorgConnect] at h
  split at h
  · cases h
    rfl
  · split at h
    · next e' s₁ hconn =>
      cases h
      rw [Err.isFalse_logged] at he
      rw [NodeState.abortAfter, he, if_pos rfl]
      cases ptr with
      | nil =>
          cases hconn
          rfl
      | cons p pprev =>
          have : s₁.wallets = st.1.wallets := connectBlock_false hconn he
          exact this
    · cases h

/-- A `Reorganize` that returns `false` has told the wallets of the blocks it got through. -/
theorem reorganize_told {pindexNew : BlockPtr} {d₀ : TxDbData} (hd : s.txdb.vTxn = [d₀])
    (h : reorganize env files pindexNew s = .error (e, s')) (he : e.isFalse = true) :
    Told env (reorgProgress env files pindexNew s) s.wallets s'.wallets := by
  rw [reorganize] at h
  rw [reorgProgress]
  rcases Lib.bind_eq_error.mp h with h | ⟨pfork, hfork, h⟩
  · obtain ⟨e', hfork, heq⟩ := Lib.mapError_eq_error.mp h
    cases heq
    rw [hfork]
    exact told_nothing env _
  rw [Lib.mapError_eq_ok] at hfork
  rw [hfork]
  dsimp only
  rcases Lib.bind_eq_error.mp h with h | ⟨_, hcheck, h⟩
  · obtain ⟨hcheck, heq⟩ := Lib.require_eq_error.mp h
    cases heq
    rw [hcheck, if_neg Bool.false_ne_true]
    exact told_nothing env _
  rw [Lib.require_eq_ok] at hcheck
  rw [hcheck, if_pos rfl]
  rcases Lib.bind_eq_error.mp h with h | ⟨st₁, h₁, h⟩
  · -- a block could not be taken off
    obtain ⟨ptr, st, hst, hstep⟩ := Lib.foldlM_error_passed h
    rw [h, reorgDisconnect_false hstep he]
    refine (reorgDisconnects_wallets hst).imp fun w w' hw => ?_
    exact ⟨w', hw, rfl⟩
  rw [h₁, Lib.passed_of_ok h₁]
  rcases Lib.bind_eq_error.mp h with h | ⟨st₂, h₂, h⟩
  · -- a block of the new branch does not connect
    obtain ⟨ptr, st, hst, hstep⟩ := Lib.foldlM_error_passed h
    have hon := reorgConnects_wallets hst
    rw [reorgConnect_false hstep he]
    refine Lib.forall₂_comp ?_ (reorgDisconnects_wallets h₁) hon
    intro w v w' hv hw'
    exact ⟨v, hv, hw'⟩
  · have hmem₁ := reorgDisconnects_sameMemory.1 st₁ h₁
    have hmem₂ := (reorgConnects_memory (st₁.1, []) hmem₁ hd).1 st₂ h₂
    have hvTxn : st₂.1.txdb.vTxn = [d₀] := hmem₂.vTxn.trans hd
    simp only [CTxDB.txnCommit, NodeState.writeHashBestChain, NodeState.updateDb, hvTxn] at h
    cases h

theorem rejectAfter_wallets (s : NodeState) (e : Err) (pindexNew : CBlockIndex) :
    (s.rejectAfter e pindexNew).wallets = s.wallets := by
  rw [NodeState.rejectAfter]
  split
  · rw [invalidChainFound]
    split <;> rfl
  · rfl

/-- A `SetBestChainInner` that returns `false` has told the wallets nothing. -/
theorem setBestChainInner_wallets {block : CBlock} {p : CBlockIndex} {pprev : BlockPtr}
    {d₀ : TxDbData} (hd : s.txdb.vTxn = [d₀])
    (h : block.setBestChainInner env files p pprev s = .error (e, s')) (he : e.isFalse = true) :
    s'.wallets = s.wallets := by
  rcases CBlock.setBestChainInner_eq_error hd h with ⟨e', s₁, hconn, -, rfl, rfl⟩ | ⟨-, hexc⟩
  · rw [Err.isFalse_logged] at he
    rw [rejectAfter_wallets]
    exact connectBlock_false hconn he
  · rw [he] at hexc
    cases hexc

/-- A switch that returns `false` has given up, and has told the wallets of the blocks it got
through. -/
theorem switchTo_false {block : CBlock} {p : CBlockIndex} {pprev : BlockPtr}
    (hidle : s.txdb.vTxn = [])
    (h : block.switchTo env files p pprev s.inView = .error (e, s')) (he : e.isFalse = true) :
    Failing s.inView s.txdb.data s' ∧
      Told env (block.progress env files p pprev s) s.wallets s'.wallets := by
  have hvTxn : s.inView.txdb.vTxn = [s.txdb.data] := by
    simp [NodeState.inView, CTxDB.txnBegin, hidle]
  rw [CBlock.switchTo] at h
  rw [CBlock.progress]
  split at h
  · simp only [setGenesis, CTxDB.txnCommit, NodeState.writeHashBestChain, NodeState.updateDb,
      NodeState.inView, CTxDB.txnBegin] at h
    cases h
  · next hgenesis =>
    replace hgenesis : ¬ (s.pindexGenesisBlock = [] ∧
      env.getIDHash block.toCBlockHeader = env.hashGenesisBlock) := hgenesis
    rw [if_neg hgenesis]
    split at h
    · next hprev =>
      replace hprev : block.hashPrevBlock = s.hashBestChain := hprev
      rw [if_pos hprev]
      obtain ⟨⟨e', s₁⟩, hinner, heq⟩ := Lib.mapError_eq_error.mp h
      cases heq
      rw [Err.isFalse_logged] at he
      refine ⟨setBestChainInner_error hvTxn (fun _ => he) hinner, ?_⟩
      rw [setBestChainInner_wallets hvTxn hinner he]
      exact told_nothing env _
    · next hprev =>
      replace hprev : ¬ block.hashPrevBlock = s.hashBestChain := hprev
      rw [if_neg hprev]
      refine ⟨(switchBranch_error hidle h).resolve_right fun hexc => ?_, ?_⟩
      · rw [hexc.1] at he
        exact Bool.noConfusion he
      · rw [switchBranch] at h
        split at h
        · cases h
          exact Bool.noConfusion he
        · next best rest hbest =>
          replace hbest : s.pindexBest = best :: rest := hbest
          rw [hbest]
          dsimp only at h ⊢
          split at h
          · next e' s₁ hre =>
            cases h
            rw [Err.isFalse_logged] at he
            rw [rejectAfter_wallets]
            exact reorganize_told hvTxn hre he
          · rw [connectSecondary] at h
            split at h
            · cases h
            · split at h
              · cases h
              · next hexc =>
                cases h
                exact absurd he hexc

/-! ## What a caller sees -/

/-- Everything a caller of `SetBestChain` observes is what it was. -/
structure Unchanged (s s' : NodeState) : Prop where
  txIndex : s'.txdb.data.txIndex = s.txdb.data.txIndex
  dbHashBestChain : s'.txdb.data.hashBestChain = s.txdb.data.hashBestChain
  hashBestChain : s'.hashBestChain = s.hashBestChain
  pindexBest : s'.pindexBest = s.pindexBest
  pnext : s'.pnext = s.pnext
  mempool : s'.mempool = s.mempool
  infos : s'.infos.db = s.infos.db
  flags : s'.wallets.map CWallet.flags = s.wallets.map CWallet.flags

/-- The call returned `false`. -/
def returnsFalse {σ : Type} : Except (Err × σ) σ → Bool
  | .ok _ => false
  | .error (e, _) => e.isFalse

/-- A call of `SetBestChain` that returns `false` changes nothing a caller observes exactly when
the blocks it got through leave every wallet's flags as they are. -/
theorem setBestChain_unchanged_iff (env : Env) (files : Files) (block : CBlock) (p : CBlockIndex)
    (pprev : BlockPtr) (s : NodeState) (hidle : s.txdb.vTxn = [])
    (hfalse : returnsFalse (block.setBestChain env files p pprev s) = true) :
    Unchanged s (Lib.final (block.setBestChain env files p pprev s)) ↔
      ∀ w ∈ s.wallets, w.Settled env (block.progress env files p pprev s).txsOff
        (block.progress env files p pprev s).txsOn := by
  cases hview : s.infos.inTransaction with
  | true =>
      rw [CBlock.setBestChain, CTxInfoStore.beginTransaction, hview, if_pos rfl] at hfalse
      exact Bool.noConfusion hfalse
  | false =>
      rw [CBlock.setBestChain_eq hview] at hfalse ⊢
      cases hsw : block.switchTo env files p pprev s.inView with
      | ok s₁ =>
          -- `Commit` of the view either returns or throws
          rw [hsw] at hfalse
          simp only [Except.bind, CBlock.newBest, CTxInfoStore.commit] at hfalse
          cases hin : s₁.infos.inTransaction <;> rw [hin] at hfalse <;> exact Bool.noConfusion hfalse
      | error es =>
          obtain ⟨e, s₁⟩ := es
          rw [hsw] at hfalse
          obtain ⟨hfail, htold⟩ := switchTo_false hidle hsw hfalse
          have hundone := hfail.undone
          obtain ⟨trust, ht⟩ := hundone.txdb
          rw [← htold.flags_iff]
          refine ⟨fun hun => hun.flags, fun hflags => ⟨?_, ?_, hundone.hashBestChain,
            hundone.pindexBest, hundone.pnext, hundone.mempool, ?_, hflags⟩⟩
          · exact congrArg (fun txdb => txdb.data.txIndex) ht
          · exact congrArg (fun txdb => txdb.data.hashBestChain) ht
          · have hdb : s₁.unwind.infos.db = s.infos.db := by rw [hundone.infos]
            exact hdb

end

/-! ## A branch that fails with its second block

The node is on `blockA2`. `blockC2` pays from the coinbase of `blockA1`, and `blockC3` on top of it
is invalid. -/

/-- The state when `blockC3` has been indexed, with the wallets `ws`. -/
def stateC3 (ws : List CWallet) : NodeState :=
  ({ stateA2.insertIndex indexC2 [indexA1, indexG] with wallets := ws } : NodeState).insertIndex
    indexC3 [indexC2, indexA1, indexG]

/-- The wallet of whoever mined `blockA1`. -/
def minerWallet : CWallet where
  mapWallet := Lib.PMap.empty.set 2 { tx := forkCoinbase 1 COIN }
  isMine script := script == [1]

/-- A wallet that has no part in any of it. -/
def otherWallet : CWallet where
  mapWallet := Lib.PMap.empty
  isMine _ := false

theorem setBestChain_unchanged_otherWallet :
    returnsFalse (blockC3.setBestChain Env.plain forkFiles indexC3 [indexC2, indexA1, indexG]
        (stateC3 [otherWallet])) = true ∧
      Unchanged (stateC3 [otherWallet]) (Lib.final (blockC3.setBestChain Env.plain forkFiles indexC3
        [indexC2, indexA1, indexG] (stateC3 [otherWallet]))) := by
  have hfalse : returnsFalse (blockC3.setBestChain Env.plain forkFiles indexC3
      [indexC2, indexA1, indexG] (stateC3 [otherWallet])) = true := by decide +kernel
  refine ⟨hfalse, (setBestChain_unchanged_iff _ _ _ _ _ _ rfl hfalse).mpr ?_⟩
  intro w hw
  rw [List.mem_singleton.mp hw]
  have hrefunded : otherWallet.refundedBy (blockC3.progress Env.plain forkFiles indexC3
      [indexC2, indexA1, indexG] (stateC3 [otherWallet])).txsOff = [] := by decide +kernel
  have hspent : otherWallet.spentBy Env.plain (blockC3.progress Env.plain forkFiles indexC3
      [indexC2, indexA1, indexG] (stateC3 [otherWallet])).txsOn = [] := by decide +kernel
  refine ⟨by decide +kernel, ?_, ?_, ?_⟩
  · rw [hrefunded]
    simp
  · rw [hrefunded]
    simp
  · rw [hspent]
    simp

theorem reachable_stateC3 (ws : List CWallet) :
    Reachable Env.plain forkFiles (fun _ _ _ _ => True) (stateC3 ws) := by
  have hfillC2 : forkKernel.fill blockC2 (blockC2.newIndex Env.plain 1 5000 [indexA1, indexG])
      [indexA1, indexG] = .ok indexC2 := rfl
  have hfillC3 : forkKernel.fill blockC3
      (blockC3.newIndex Env.plain 1 6000 [indexC2, indexA1, indexG]) [indexC2, indexA1, indexG]
      = .ok indexC3 := rfl
  have hC2 : Reachable Env.plain forkFiles (fun _ _ _ _ => True)
      { stateA2.insertIndex indexC2 [indexA1, indexG] with wallets := ws } :=
    .other ((reachable_stateA2.mono fun _ _ _ _ _ => trivial).indexUnder (by decide +kernel)
      (by decide +kernel) (by decide) rfl hfillC2) ⟨rfl, rfl, rfl, rfl, rfl, rfl, rfl⟩
  refine hC2.indexUnder ?_ ?_ (by decide) rfl hfillC3
  · show (stateA2.insertIndex indexC2 [indexA1, indexG]).mapBlockIndex 6
      = some [indexC2, indexA1, indexG]
    decide +kernel
  · show (stateA2.insertIndex indexC2 [indexA1, indexG]).mapBlockIndex 7 = none
    decide +kernel

/-- The miner's output is marked as spent, although the chain that spends it was rejected. -/
theorem not_setBestChain_unchanged :
    Reachable Env.plain forkFiles (fun _ _ _ _ => True) (stateC3 [minerWallet]) ∧
      returnsFalse (blockC3.setBestChain Env.plain forkFiles indexC3 [indexC2, indexA1, indexG]
        (stateC3 [minerWallet])) = true ∧
      (stateC3 [minerWallet]).wallets.map (fun w => w.marked ⟨2, 0⟩) = [false] ∧
      (Lib.final (blockC3.setBestChain Env.plain forkFiles indexC3 [indexC2, indexA1, indexG]
        (stateC3 [minerWallet]))).wallets.map (fun w => w.marked ⟨2, 0⟩) = [true] ∧
      ¬ Unchanged (stateC3 [minerWallet]) (Lib.final (blockC3.setBestChain Env.plain forkFiles
        indexC3 [indexC2, indexA1, indexG] (stateC3 [minerWallet]))) := by
  have hbefore : (stateC3 [minerWallet]).wallets.map (fun w => w.marked ⟨2, 0⟩) = [false] := by
    decide +kernel
  have hafter : (Lib.final (blockC3.setBestChain Env.plain forkFiles indexC3
      [indexC2, indexA1, indexG] (stateC3 [minerWallet]))).wallets.map (fun w => w.marked ⟨2, 0⟩)
      = [true] := by decide +kernel
  refine ⟨reachable_stateC3 _, by decide +kernel, hbefore, hafter, ?_⟩
  intro hun
  have hmarked : ∀ ws : List CWallet, ws.map (fun w => w.marked ⟨2, 0⟩)
      = (ws.map CWallet.flags).map fun flags => ((flags 2).getD []).getD 0 false := by
    intro ws
    rw [List.map_map]
    rfl
  rw [hmarked, hun.flags, ← hmarked, hbefore] at hafter
  exact absurd hafter (by decide)

end ShinyCoin

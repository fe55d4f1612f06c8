import ShinyCoin.Chain.Replay

/-!
# What connecting and disconnecting leave alone

Whether they return or fail, `ConnectBlock` and `DisconnectBlock` work inside the transactions their
caller has opened: they change the database and the info store, the counters of a block's index
entry and the wallets. The chain pointers and the memory pool belong to the caller.
-/

namespace ShinyCoin

/-- The chain pointers, the memory pool, the clock and the open transactions are the same. -/
structure SameMemory (s s' : NodeState) : Prop where
  mapBlockIndex : s'.mapBlockIndex = s.mapBlockIndex
  pnext : s'.pnext = s.pnext
  pindexGenesisBlock : s'.pindexGenesisBlock = s.pindexGenesisBlock
  hashBestChain : s'.hashBestChain = s.hashBestChain
  pindexBest : s'.pindexBest = s.pindexBest
  mempool : s'.mempool = s.mempool
  hashSyncCheckpoint : s'.hashSyncCheckpoint = s.hashSyncCheckpoint
  nAdjustedTime : s'.nAdjustedTime = s.nAdjustedTime
  vTxn : s'.txdb.vTxn = s.txdb.vTxn
  curTransaction : s'.infos.curTransaction = s.infos.curTransaction

namespace SameMemory

theorem refl (s : NodeState) : SameMemory s s := ⟨rfl, rfl, rfl, rfl, rfl, rfl, rfl, rfl, rfl, rfl⟩

theorem trans {s s' s'' : NodeState} (h : SameMemory s s') (h' : SameMemory s' s'') :
    SameMemory s s'' where
  mapBlockIndex := h'.mapBlockIndex.trans h.mapBlockIndex
  pnext := h'.pnext.trans h.pnext
  pindexGenesisBlock := h'.pindexGenesisBlock.trans h.pindexGenesisBlock
  hashBestChain := h'.hashBestChain.trans h.hashBestChain
  pindexBest := h'.pindexBest.trans h.pindexBest
  mempool := h'.mempool.trans h.mempool
  hashSyncCheckpoint := h'.hashSyncCheckpoint.trans h.hashSyncCheckpoint
  nAdjustedTime := h'.nAdjustedTime.trans h.nAdjustedTime
  vTxn := h'.vTxn.trans h.vTxn
  curTransaction := h'.curTransaction.trans h.curTransaction

theorem inTransaction {s s' : NodeState} (h : SameMemory s s') :
    s'.infos.inTransaction = s.infos.inTransaction := by
  rw [CTxInfoStore.inTransaction, h.curTransaction, CTxInfoStore.inTransaction]

end SameMemory

/-! ## The info store -/

namespace CTxInfoStore

variable {env : Env} {st : CTxInfoStore}

theorem process_curTransaction (hst : st.inTransaction = true) (r : TxInfoRecord) :
    (Lib.final (st.process env r)).curTransaction = st.curTransaction := by
  rw [process, if_pos hst]
  rcases _process_cases env st r with ⟨-, n, h⟩ | ⟨e, -, h⟩ <;> rw [h] <;> rfl

theorem undo_curTransaction (hst : st.inTransaction = true) (r : TxInfoRecord) :
    (Lib.final (st.undo env r)).curTransaction = st.curTransaction := by
  rw [undo, if_pos hst]
  rcases _undo_cases env st r with ⟨-, h⟩ | ⟨-, h⟩ <;> rw [h] <;> rfl

/-- Calls that keep an open transaction keep it in a loop. -/
theorem foldlM_curTransaction {α : Type} {f : CTxInfoStore → α → Except (Err × CTxInfoStore) CTxInfoStore}
    (hf : ∀ (st : CTxInfoStore) a, st.inTransaction = true →
      (Lib.final (f st a)).curTransaction = st.curTransaction)
    (hst : st.inTransaction = true) (l : List α) :
    (Lib.final (l.foldlM f st)).curTransaction = st.curTransaction := by
  refine Lib.final_foldlM (fun st' : CTxInfoStore => st'.curTransaction = st.curTransaction) ?_ l rfl
  intro st' a hI
  rw [hf st' a (by rw [inTransaction, hI]; exact hst), hI]

end CTxInfoStore

namespace CTransaction

variable {env : Env} {files : Files} {m : TxIndexMap} {undoing : Bool} {blockHash : Uint256}
  {nTxInBlock : ℤ} {st : CTxInfoStore}

theorem procUndoTxIn_curTransaction (hst : st.inTransaction = true) (x : CTxIn × Nat) :
    (Lib.final (procUndoTxIn env files m undoing blockHash nTxInBlock st x)).curTransaction
      = st.curTransaction := by
  rw [procUndoTxIn]
  split
  · rfl
  · split
    · rfl
    · split
      · rfl
      · split
        · rfl
        · dsimp only
          split
          · exact CTxInfoStore.foldlM_curTransaction
              (fun _ r h => CTxInfoStore.undo_curTransaction h r) hst _
          · exact CTxInfoStore.foldlM_curTransaction
              (fun _ r h => CTxInfoStore.process_curTransaction h r) hst _

theorem procUndoTxInfos_curTransaction (env : Env) (files : Files) (m : TxIndexMap)
    (undoing : Bool) (blockHash : Uint256) (nTxInBlock : ℤ) (tx : CTransaction)
    (st : CTxInfoStore) :
    (Lib.final (tx._procUndoTxInfos env files m undoing blockHash nTxInBlock st)).curTransaction
      = st.curTransaction := by
  rw [_procUndoTxInfos]
  split
  · next hst =>
    exact CTxInfoStore.foldlM_curTransaction (fun _ x h => procUndoTxIn_curTransaction h x) hst _
  · rfl

end CTransaction

/-! ## ConnectBlock -/

namespace CBlock

variable {env : Env} {files : Files} {s s' : NodeState} {block : CBlock} {pindex : CBlockIndex}
  {pprev : BlockPtr}

/-- A round of the loop of `ConnectBlock` that fails leaves the store as it found it, or as
`ProcessTxInfos` left it. -/
theorem connectTx_error {st : ConnectState} {tx : CTransaction} {e : Err} {infos : CTxInfoStore}
    (h : block.connectTx env files s pindex pprev st tx = .error (e, infos)) :
    infos = st.infos ∨ tx.processTxInfos env files s.txdb.data.txIndex st.infos
      (env.getIDHash block.toCBlockHeader) st.nTx = .error (e, infos) := by
  have hmap : ∀ {α : Type} {x : Except Err α}, x.mapError (·, st.infos) = .error (e, infos) →
      infos = st.infos := by
    intro α x hx
    obtain ⟨e', -, heq⟩ := Lib.mapError_eq_error.mp hx
    exact (Prod.mk.inj heq).2.symm
  have hreq : ∀ {c : Bool} {msg : String},
      Lib.require c (Err.fail msg, st.infos) = .error (e, infos) → infos = st.infos := by
    intro c msg hx
    exact (Prod.mk.inj (Lib.require_eq_error.mp hx).2).2.symm
  rw [connectTx, Lib.bind_eq_error] at h
  rcases h with h | ⟨-, -, h⟩
  · exact .inl (hreq h)
  rcases Lib.bind_eq_error.mp h with h | ⟨st₁, -, h⟩
  · rw [connectInputsOf] at h
    split at h
    · rcases Lib.bind_eq_error.mp h with h | ⟨nTxValueOut, -, h⟩
      · exact .inl (hmap h)
      · cases h
    · rw [connectSpends] at h
      rcases Lib.bind_eq_error.mp h with h | ⟨_, -, h⟩
      · exact .inl (hmap h)
      rcases Lib.bind_eq_error.mp h with h | ⟨_, -, h⟩
      · exact .inl (hmap h)
      rcases Lib.bind_eq_error.mp h with h | ⟨_, -, h⟩
      · exact .inl (hreq h)
      rcases Lib.bind_eq_error.mp h with h | ⟨_, -, h⟩
      · exact .inl (hmap h)
      rcases Lib.bind_eq_error.mp h with h | ⟨_, -, h⟩
      · exact .inl (hmap h)
      rcases Lib.bind_eq_error.mp h with h | ⟨_, -, h⟩
      · exact .inl (hmap h)
      rcases Lib.bind_eq_error.mp h with h | ⟨_, -, h⟩
      · exact .inr h
      · cases h
  · cases h

/-- The store after a round that returned. -/
theorem connectTx_curTransaction {st st' : ConnectState} {tx : CTransaction}
    (h : block.connectTx env files s pindex pprev st tx = .ok st') :
    st'.infos.curTransaction = st.infos.curTransaction := by
  obtain ⟨nTxValueIn, nTxValueOut, hconn⟩ := connectTx_ok h
  cases hcb : tx.isCoinBase with
  | true => rw [(hconn.coinbase hcb).2]
  | false =>
      obtain ⟨inputs, -, -, hproc⟩ := hconn.spends hcb
      have := CTransaction.procUndoTxInfos_curTransaction env files s.txdb.data.txIndex false
        (env.getIDHash block.toCBlockHeader) st.nTx tx st.infos
      rw [CTransaction.processTxInfos] at hproc
      rw [hproc] at this
      exact this

theorem connectTxs_curTransaction {st : ConnectState}
    (h : block.connectTxs env files s pindex pprev = .ok st) :
    st.infos.curTransaction = s.infos.curTransaction :=
  Lib.foldlM_ok_inv (fun _ (st : ConnectState) => st.infos.curTransaction = s.infos.curTransaction)
    (fun _ _ _ _ hI hstep => (connectTx_curTransaction hstep).trans hI) rfl h

theorem connectTxs_error_curTransaction {e : Err} {infos : CTxInfoStore}
    (h : block.connectTxs env files s pindex pprev = .error (e, infos)) :
    infos.curTransaction = s.infos.curTransaction := by
  obtain ⟨tx, _, st, hI, hstep⟩ := Lib.foldlM_error_inv
    (fun _ (st : ConnectState) => st.infos.curTransaction = s.infos.curTransaction)
    (fun _ _ _ _ hI hstep => (connectTx_curTransaction hstep).trans hI) rfl h
  rw [← hI]
  rcases connectTx_error hstep with rfl | hproc
  · rfl
  · have := CTransaction.procUndoTxInfos_curTransaction env files s.txdb.data.txIndex false
      (env.getIDHash block.toCBlockHeader) st.nTx tx st.infos
    rw [CTransaction.processTxInfos] at hproc
    rw [hproc] at this
    exact this

/-- How a `ConnectBlock` that does not return `true` ends: before it has written anything, or with
an exception of a wallet. -/
theorem connectBlock_error {e : Err} (h : block.connectBlock env files pindex pprev s = .error (e, s')) :
    (∃ infos, s' = { s with infos := infos } ∧
        infos.curTransaction = s.infos.curTransaction) ∨
      ∃ st nCoinbaseOut ws,
        block.connectTxs env files s pindex pprev = .ok st ∧
        block.vtx.foldlM (syncConnected env block) s.wallets = .error (e, ws) ∧
        s' = { block.writeConnected pindex pprev st nCoinbaseOut { s with infos := st.infos } with
          wallets := ws } := by
  rw [connectBlock] at h
  rcases Lib.bind_eq_error.mp h with h | ⟨-, -, h⟩
  · obtain ⟨e', -, heq⟩ := Lib.mapError_eq_error.mp h
    cases heq
    exact .inl ⟨s.infos, rfl, rfl⟩
  rcases Lib.bind_eq_error.mp h with h | ⟨st, hst, h⟩
  · obtain ⟨⟨e', infos⟩, herr, heq⟩ := Lib.mapError_eq_error.mp h
    cases heq
    exact .inl ⟨infos, rfl, connectTxs_error_curTransaction herr⟩
  rw [Lib.mapError_eq_ok] at hst
  rcases Lib.bind_eq_error.mp h with h | ⟨nCoinbaseOut, -, h⟩
  · obtain ⟨e', -, heq⟩ := Lib.mapError_eq_error.mp h
    cases heq
    exact .inl ⟨st.infos, rfl, connectTxs_curTransaction hst⟩
  rw [syncConnectedTxs, writeConnected_wallets] at h
  split at h
  · cases h
  · next e' ws hsync =>
    cases h
    exact .inr ⟨st, nCoinbaseOut, ws, hst, hsync, rfl⟩

theorem sameMemory_writeConnected {st : ConnectState} {nCoinbaseOut : ℤ} {ws : List CWallet}
    (h : st.infos.curTransaction = s.infos.curTransaction) :
    SameMemory s { block.writeConnected pindex pprev st nCoinbaseOut { s with infos := st.infos } with
      wallets := ws } := by
  cases pprev <;> exact ⟨rfl, rfl, rfl, rfl, rfl, rfl, rfl, rfl, rfl, h⟩

theorem connectBlock_sameMemory (env : Env) (files : Files) (block : CBlock) (pindex : CBlockIndex)
    (pprev : BlockPtr) (s : NodeState) :
    SameMemory s (Lib.final (block.connectBlock env files pindex pprev s)) := by
  cases h : block.connectBlock env files pindex pprev s with
  | ok s' =>
      obtain ⟨st, nCoinbaseOut, ws, -, hst, -, -, rfl⟩ := connectBlock_ok h
      exact sameMemory_writeConnected (connectTxs_curTransaction hst)
  | error es =>
      obtain ⟨e, s'⟩ := es
      rcases connectBlock_error h with ⟨infos, rfl, hcur⟩ | ⟨st, nCoinbaseOut, ws, hst, -, rfl⟩
      · exact ⟨rfl, rfl, rfl, rfl, rfl, rfl, rfl, rfl, rfl, hcur⟩
      · exact sameMemory_writeConnected (connectTxs_curTransaction hst)

/-- `ConnectBlock` sets the counters of its own block only. -/
theorem connectBlock_blockStats (h : block.connectBlock env files pindex pprev s = .ok s') :
    (∃ stats, s'.blockStats = s.blockStats.set pindex.hashBlock stats) ∧
      s'.nBestHeight = s.nBestHeight := by
  obtain ⟨st, nCoinbaseOut, ws, -, -, -, -, rfl⟩ := connectBlock_ok h
  cases pprev <;> exact ⟨⟨_, rfl⟩, rfl⟩

/-! ## DisconnectBlock -/

theorem disconnectBlock_blockStats (h : block.disconnectBlock env files pprev s = .ok s') :
    s'.blockStats = s.blockStats ∧ s'.nBestHeight = s.nBestHeight := by
  obtain ⟨s₁, ws, hloop, -, rfl⟩ := disconnectBlock_ok h
  have hs₁ : s₁.blockStats = s.blockStats ∧ s₁.nBestHeight = s.nBestHeight := by
    refine Lib.foldlM_ok_inv (fun _ (t : NodeState) =>
      t.blockStats = s.blockStats ∧ t.nBestHeight = s.nBestHeight) ?_ ⟨rfl, rfl⟩ hloop
    intro tx _ t t' hI hstep
    obtain ⟨m, infos, -, -, rfl⟩ := disconnectTx_ok hstep
    exact hI
  cases pprev <;> exact hs₁

theorem disconnectTx_sameMemory (env : Env) (files : Files) (s : NodeState) (tx : CTransaction) :
    SameMemory s (Lib.final (disconnectTx env files s tx)) ∧
      (Lib.final (disconnectTx env files s tx)).wallets = s.wallets := by
  rw [disconnectTx]
  split
  · next m hm =>
    have := CTransaction.procUndoTxInfos_curTransaction env files m true 0 (-1) tx s.infos
    rw [undoInfosOf, CTransaction.undoTxInfos]
    cases hundo : tx._procUndoTxInfos env files m true 0 (-1) s.infos with
    | ok infos =>
        rw [hundo] at this
        simp only [NodeState.updateDb, hundo]
        exact ⟨⟨rfl, rfl, rfl, rfl, rfl, rfl, rfl, rfl, rfl, this⟩, rfl⟩
    | error ei =>
        rw [hundo] at this
        simp only [NodeState.updateDb, hundo]
        exact ⟨⟨rfl, rfl, rfl, rfl, rfl, rfl, rfl, rfl, rfl, this⟩, rfl⟩
  · exact ⟨⟨rfl, rfl, rfl, rfl, rfl, rfl, rfl, rfl, rfl, rfl⟩, rfl⟩

theorem disconnectTxs_sameMemory (env : Env) (files : Files) (s : NodeState)
    (txs : List CTransaction) :
    SameMemory s (Lib.final (txs.foldlM (disconnectTx env files) s)) ∧
      (Lib.final (txs.foldlM (disconnectTx env files) s)).wallets = s.wallets := by
  refine Lib.final_foldlM (fun s' => SameMemory s s' ∧ s'.wallets = s.wallets) ?_ txs
    ⟨SameMemory.refl s, rfl⟩
  rintro s' tx ⟨hI, hws⟩
  obtain ⟨hI', hws'⟩ := disconnectTx_sameMemory env files s' tx
  exact ⟨hI.trans hI', hws'.trans hws⟩

/-- How a `DisconnectBlock` that does not return `true` ends: in its loop, or with an exception of a
wallet. -/
theorem disconnectBlock_error {e : Err}
    (h : block.disconnectBlock env files pprev s = .error (e, s')) :
    block.vtx.reverse.foldlM (disconnectTx env files) s = .error (e, s') ∨
      ∃ s₁ ws, block.vtx.reverse.foldlM (disconnectTx env files) s = .ok s₁ ∧
        block.vtx.foldlM syncDisconnected s₁.wallets = .error (e, ws) ∧
        s' = { writePrevIndex (s₁.updateDb fun d => { d with vConnected := d.vConnected.tail })
          pprev 0 with wallets := ws } := by
  rw [disconnectBlock] at h
  rcases Lib.bind_eq_error.mp h with h | ⟨s₁, h₁, h⟩
  · exact .inl h
  · rw [syncDisconnectedTxs, writePrevIndex_wallets] at h
    split at h
    · cases h
    · next e' ws hws =>
      cases h
      exact .inr ⟨s₁, ws, h₁, hws, rfl⟩

theorem sameMemory_writeDisconnected (s : NodeState) (pprev : BlockPtr) (ws : List CWallet) :
    SameMemory s { writePrevIndex (s.updateDb fun d => { d with vConnected := d.vConnected.tail })
      pprev 0 with wallets := ws } := by
  cases pprev <;> exact ⟨rfl, rfl, rfl, rfl, rfl, rfl, rfl, rfl, rfl, rfl⟩

theorem disconnectBlock_sameMemory (env : Env) (files : Files) (block : CBlock) (pprev : BlockPtr)
    (s : NodeState) : SameMemory s (Lib.final (block.disconnectBlock env files pprev s)) := by
  obtain ⟨hloop, -⟩ := disconnectTxs_sameMemory env files s block.vtx.reverse
  cases h : block.disconnectBlock env files pprev s with
  | ok s' =>
      obtain ⟨s₁, ws, h₁, -, rfl⟩ := disconnectBlock_ok h
      rw [h₁] at hloop
      exact hloop.trans (sameMemory_writeDisconnected s₁ pprev ws)
  | error es =>
      obtain ⟨e, s'⟩ := es
      rcases disconnectBlock_error h with h₁ | ⟨s₁, ws, h₁, -, rfl⟩
      · rw [h₁] at hloop
        exact hloop
      · rw [h₁] at hloop
        exact hloop.trans (sameMemory_writeDisconnected s₁ pprev ws)

end CBlock

end ShinyCoin

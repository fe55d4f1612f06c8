import ShinyCoin.Chain.Disconnect
import ShinyCoin.Chain.Told
import ShinyCoin.Miner.Valid

/-!
# A block on another node

Whether a block connects depends on the transaction index it is connected on, the clock and the
counters of its parent. The memory pool is not looked at, since nothing on disk is where the pool's
transactions are said to be; without infos the store stays as it is; and a node whose best chain is
long enough for signatures to be checked asks for more than one where it is not.

The wallets are told of the block at the end. They hold other transactions on another node, but all
of them are known under their hashes, and so the wallets can tell what the block spends.
-/

namespace ShinyCoin

/-! ## The index -/

section

variable {env : Env} {files : Files} {pool pool' : CTxMemPool} {txdb q : TxIndexMap}

namespace CTransaction

theorem readTxPrev_of_notInPool {hash : Uint256} {txindex : CTxIndex}
    (h : txindex.pos ≠ CDiskTxPos.inPool) :
    readTxPrev files pool hash txindex = readTxPrev files pool' hash txindex := by
  unfold readTxPrev
  rw [if_neg h, if_neg h]

/-- What a block fetches is the same whatever is in the memory pool. -/
theorem fetchInputs_of_noneInPool (hdisk : NoneInPool (q.layer txdb)) (tx : CTransaction) :
    tx.fetchInputs files pool txdb q true false = tx.fetchInputs files pool' txdb q true false := by
  have hprev : ∀ hash, fetchPrev files pool txdb q true false hash
      = fetchPrev files pool' txdb q true false hash := by
    intro hash
    unfold fetchPrev
    rw [Bool.true_or, if_pos rfl, if_pos rfl]
    split
    · rfl
    · next txindex hidx =>
      rw [readTxPrev_of_notInPool (hdisk hash txindex hidx)]
  have hinput : ∀ inputs txin, fetchInput files pool txdb q true false inputs txin
      = fetchInput files pool' txdb q true false inputs txin := by
    intro inputs txin
    unfold fetchInput
    rw [hprev]
  unfold fetchInputs
  rw [Lib.foldlM_congr fun inputs txin _ => hinput inputs txin]

/-- Fewer signatures are checked. -/
theorem connectInput_of_verify {fVerify fVerify' : Bool} (hle : fVerify' = true → fVerify = true)
    {pos : CDiskTxPos} {fBlock fMiner : Bool} {tx : CTransaction} {st st' : MapPrevTx × TxIndexMap}
    {x : CTxIn × Nat} (h : connectInput env fVerify pos fBlock fMiner tx st x = .ok st') :
    connectInput env fVerify' pos fBlock fMiner tx st x = .ok st' := by
  unfold connectInput at h ⊢
  split at h
  · cases h
  · split at h
    · cases h
    · obtain ⟨hnull, h⟩ := Lib.seq_eq_ok.mp h
      obtain ⟨hverify, h⟩ := Lib.seq_eq_ok.mp h
      refine Lib.seq_eq_ok.mpr ⟨hnull, Lib.seq_eq_ok.mpr ⟨?_, h⟩⟩
      rw [Lib.require_eq_ok] at hverify ⊢
      cases hc : fVerify' with
      | false => rfl
      | true =>
          rw [hle hc] at hverify
          exact hverify

/-- Whether the signatures of a block are checked depends on the best height. -/
theorem connectInputs_of_height {nBestHeight nBestHeight' : ℤ}
    (hle : env.totalBlocksEstimate ≤ nBestHeight' → env.totalBlocksEstimate ≤ nBestHeight)
    {inputs : MapPrevTx} {pos : CDiskTxPos} {pindexBlock : BlockPtr} {tx : CTransaction}
    {q' : TxIndexMap}
    (h : tx.connectInputs env files nBestHeight txdb inputs q pos pindexBlock true false = .ok q') :
    tx.connectInputs env files nBestHeight' txdb inputs q pos pindexBlock true false = .ok q' := by
  unfold connectInputs at h ⊢
  split at h
  · next hcb =>
    rw [if_pos hcb]
    exact h
  · next hcb =>
    rw [if_neg hcb]
    obtain ⟨nValueIn, hcheck, h⟩ := Lib.bind_eq_ok.mp h
    obtain ⟨st, hconn, h⟩ := Lib.bind_eq_ok.mp h
    refine Lib.bind_eq_ok.mpr ⟨nValueIn, hcheck, Lib.bind_eq_ok.mpr ⟨st, ?_, h⟩⟩
    have hverify : (!(true && decide (nBestHeight' < env.totalBlocksEstimate))) = true →
        (!(true && decide (nBestHeight < env.totalBlocksEstimate))) = true := by
      simpa using hle
    obtain ⟨st', hst', rfl⟩ := Lib.foldlM_simulates (· = ·)
      (fun x _ s t s' hst hstep => ⟨s', by
        rw [← hst]
        exact connectInput_of_verify hverify hstep, rfl⟩) rfl hconn
    exact hst'

end CTransaction

end

/-! ## The loop of `ConnectBlock` -/

/-- The locals of the loop over another info store. -/
def ConnectState.over (st : ConnectState) (infos : CTxInfoStore) : ConnectState :=
  { st with infos := infos }

namespace CBlock

section

variable {env : Env} {files : Files} {s s' : NodeState} {block : CBlock} {pindex : CBlockIndex}
  {pprev : BlockPtr}

/-- What `ConnectBlock` looks at is the same on `s'` as on `s`, or it looks at less. -/
structure Alike (env : Env) (pprev : BlockPtr) (s s' : NodeState) : Prop where
  txIndex : s'.txdb.data.txIndex = s.txdb.data.txIndex
  stats : s'.statsOf pprev = s.statsOf pprev
  nAdjustedTime : s'.nAdjustedTime = s.nAdjustedTime
  verify : env.totalBlocksEstimate ≤ s'.nBestHeight → env.totalBlocksEstimate ≤ s.nBestHeight
  inTransaction : s'.infos.inTransaction = true

/-- One round on the other node -/
theorem Alike.connectTx (hs : Alike env pprev s s') {st st₁ : ConnectState} {tx : CTransaction}
    (hno : tx.NoInfos) (hdisk : NoneInPool (st.index s))
    (h : block.connectTx env files s pindex pprev st tx = .ok st₁) :
    block.connectTx env files s' pindex pprev (st.over s'.infos) tx = .ok (st₁.over s'.infos) := by
  unfold CBlock.connectTx at h ⊢
  obtain ⟨hsigops, h⟩ := Lib.seq_eq_ok.mp h
  obtain ⟨st₂, h₂, h⟩ := Lib.bind_eq_ok.mp h
  cases h
  rw [Lib.require_eq_ok] at hsigops
  refine Lib.seq_eq_ok.mpr ⟨Lib.require_eq_ok.mpr hsigops,
    Lib.bind_eq_ok.mpr ⟨st₂.over s'.infos, ?_, rfl⟩⟩
  unfold connectInputsOf at h₂ ⊢
  split at h₂
  · next hcb =>
    rw [if_pos hcb]
    obtain ⟨nTxValueOut, hout, h₂⟩ := Lib.bind_eq_ok.mp h₂
    cases h₂
    rw [Lib.mapError_eq_ok] at hout
    exact Lib.bind_eq_ok.mpr ⟨nTxValueOut, Lib.mapError_eq_ok.mpr hout, rfl⟩
  · next hcb =>
    rw [if_neg hcb]
    unfold connectSpends at h₂ ⊢
    obtain ⟨mapInputs, hfetch, h₂⟩ := Lib.bind_eq_ok.mp h₂
    obtain ⟨nP2SH, hp2sh, h₂⟩ := Lib.bind_eq_ok.mp h₂
    obtain ⟨hsum, h₂⟩ := Lib.seq_eq_ok.mp h₂
    obtain ⟨nTxValueIn, hvin, h₂⟩ := Lib.bind_eq_ok.mp h₂
    obtain ⟨nTxValueOut, hvout, h₂⟩ := Lib.bind_eq_ok.mp h₂
    obtain ⟨mapQueuedChanges, hconn, h₂⟩ := Lib.bind_eq_ok.mp h₂
    obtain ⟨infos, -, h₂⟩ := Lib.bind_eq_ok.mp h₂
    cases h₂
    rw [Lib.mapError_eq_ok] at hfetch hp2sh hvin hvout hconn
    rw [Lib.require_eq_ok] at hsum
    -- nothing is fetched from the pool
    have hfetch' : tx.fetchInputs files s'.mempool s'.txdb.data.txIndex st.mapQueuedChanges true
        false = .ok mapInputs := by
      rw [hs.txIndex]
      exact (CTransaction.fetchInputs_of_noneInPool hdisk tx).trans hfetch
    have hconn' := CTransaction.connectInputs_of_height hs.verify hconn
    rw [← hs.txIndex] at hconn'
    refine Lib.bind_eq_ok.mpr ⟨mapInputs, Lib.mapError_eq_ok.mpr hfetch', ?_⟩
    refine Lib.bind_eq_ok.mpr ⟨nP2SH, Lib.mapError_eq_ok.mpr hp2sh, ?_⟩
    refine Lib.seq_eq_ok.mpr ⟨Lib.require_eq_ok.mpr hsum, ?_⟩
    refine Lib.bind_eq_ok.mpr ⟨nTxValueIn, Lib.mapError_eq_ok.mpr hvin, ?_⟩
    refine Lib.bind_eq_ok.mpr ⟨nTxValueOut, Lib.mapError_eq_ok.mpr hvout, ?_⟩
    refine Lib.bind_eq_ok.mpr ⟨mapQueuedChanges, Lib.mapError_eq_ok.mpr hconn', ?_⟩
    exact Lib.bind_eq_ok.mpr
      ⟨s'.infos, CTransaction._procUndoTxInfos_of_noInfos hs.inTransaction hno, rfl⟩

theorem Alike.connectTxs (hs : Alike env pprev s s') (hno : ∀ tx ∈ block.vtx, tx.NoInfos)
    (hdisk : NoneInPool s.txdb.data.txIndex) {st : ConnectState}
    (h : block.connectTxs env files s pindex pprev = .ok st) :
    block.connectTxs env files s' pindex pprev = .ok (st.over s'.infos) := by
  obtain ⟨st', hst', -, -, rfl⟩ := Lib.foldlM_simulates
    (g := block.connectTx env files s' pindex pprev)
    (fun (st st' : ConnectState) => 1 < st.nTxPos ∧ NoneInPool (st.index s) ∧ st' = st.over s'.infos)
    (by
      rintro tx htx st _ st₁ ⟨hpos, hindex, rfl⟩ hstep
      refine ⟨st₁.over s'.infos, hs.connectTx (hno tx htx) hindex hstep, ?_⟩
      obtain ⟨nTxValueIn, nTxValueOut, hconn⟩ := connectTx_ok hstep
      refine ⟨by rw [hconn.nTxPos]; omega, ?_, rfl⟩
      rw [hconn.index]
      exact hindex.applyTx (st.posThisTx_ne_inPool pindex hpos) tx)
    (t := ({ nTxPos := block.firstTxPos pindex.nBlockPos, infos := s'.infos } : ConnectState))
    ⟨block.one_lt_firstTxPos _, by
      rw [ConnectState.index, Lib.PMap.empty_layer]
      exact hdisk, rfl⟩ h
  exact hst'

/-! ## `ConnectBlock` -/

/-- A coinbase spends nothing. -/
theorem prevout_of_isCoinBase {tx : CTransaction} (h : tx.isCoinBase = true) :
    ∀ txin ∈ tx.vin, txin.prevout.hash = 0 := by
  unfold CTransaction.isCoinBase at h
  split at h
  · next txin hvin =>
    rw [Bool.and_eq_true, COutPoint.isNull, Bool.and_eq_true, beq_iff_eq] at h
    rw [hvin]
    intro txin' htxin'
    rw [List.mem_singleton.mp htxin']
    exact h.1.1
  · cases h

/-- What a connected block spends can be told. -/
theorem tellable_of_connectTxs {known : Uint256 → CTransaction → Prop}
    (hone : ∀ h tx tx', known h tx → known h tx' → tx = tx') (hnull : ∀ tx, ¬ known 0 tx)
    (hK : Knows files known s) (hblock : ∀ tx ∈ block.vtx, known (env.getHash tx) tx)
    (hstored : block.Stored files pindex) {st : ConnectState}
    (h : block.connectTxs env files s pindex pprev = .ok st) :
    ∀ tx ∈ block.vtx, Tellable known tx := by
  intro tx htx
  cases hcb : tx.isCoinBase with
  | true =>
      refine tellable_of_unknown fun txin htxin txPrev hk => hnull txPrev ?_
      rw [← prevout_of_isCoinBase hcb txin htxin]
      exact hk
  | false =>
      have hpaid := (connectTxs_valueInv hstored h).affordable tx htx hcb
      exact (hpaid.mono fun _ _ => hK.knownAs hblock).tellable hone

theorem Alike.checkConnect (hs : Alike env pprev s s') :
    block.checkConnect env s' pindex = block.checkConnect env s pindex := by
  unfold CBlock.checkConnect
  rw [hs.nAdjustedTime, hs.txIndex]

/-- A block that connects on one node connects on the other, with the same index and the same
counters. -/
theorem Alike.connectBlock {known : Uint256 → CTransaction → Prop} (hs : Alike env pprev s s')
    (hone : ∀ h tx tx', known h tx → known h tx' → tx = tx') (hnull : ∀ tx, ¬ known 0 tx)
    (hno : ∀ tx ∈ block.vtx, tx.NoInfos) (hdisk : NoneInPool s.txdb.data.txIndex)
    (hK : Knows files known s) (hblock : ∀ tx ∈ block.vtx, known (env.getHash tx) tx)
    (hstored : block.Stored files pindex) (hws : ∀ w ∈ s'.wallets, WalletTxs known w)
    {t : NodeState} (h : block.connectBlock env files pindex pprev s = .ok t) :
    ∃ t', block.connectBlock env files pindex pprev s' = .ok t' ∧
      t'.txdb.data.txIndex = t.txdb.data.txIndex ∧
      t'.statsOf (pindex :: pprev) = t.statsOf (pindex :: pprev) ∧
      ∀ w ∈ t'.wallets, WalletTxs known w := by
  obtain ⟨st, nCoinbaseOut, ws, hcheck, hst, hreward, -, rfl⟩ := connectBlock_ok h
  obtain ⟨ws', hws'⟩ := syncConnected_isOk block hone hws hblock
    (tellable_of_connectTxs hone hnull hK hblock hstored hst)
  refine ⟨{ block.writeConnected pindex pprev (st.over s'.infos) nCoinbaseOut s' with
    wallets := ws' }, ?_, ?_, ?_, syncConnected_walletTxs hblock hws hws'⟩
  · unfold CBlock.connectBlock
    refine Lib.seq_eq_ok.mpr ⟨Lib.mapError_eq_ok.mpr (hs.checkConnect.trans hcheck), ?_⟩
    refine Lib.bind_eq_ok.mpr ⟨st.over s'.infos,
      Lib.mapError_eq_ok.mpr (hs.connectTxs hno hdisk hst), ?_⟩
    refine Lib.bind_eq_ok.mpr ⟨nCoinbaseOut, Lib.mapError_eq_ok.mpr ?_, ?_⟩
    · rw [show ({ s' with infos := (st.over s'.infos).infos } : NodeState).statsOf pprev
        = s.statsOf pprev from hs.stats]
      exact hreward
    · unfold syncConnectedTxs
      rw [show (block.writeConnected pindex pprev (st.over s'.infos) nCoinbaseOut
        { s' with infos := (st.over s'.infos).infos }).wallets = s'.wallets by
          cases pprev <;> rfl, hws']
      rfl
  · have hidx : ∀ (s : NodeState) (st : ConnectState) (ws : List CWallet),
        ({ block.writeConnected pindex pprev st nCoinbaseOut s with wallets := ws } :
          NodeState).txdb.data.txIndex = st.mapQueuedChanges.layer s.txdb.data.txIndex := by
      intro s st ws
      cases pprev <;> rfl
    rw [hidx, hidx, hs.txIndex]
    rfl
  · have hstats : ∀ (s : NodeState) (st : ConnectState) (ws : List CWallet),
        ({ block.writeConnected pindex pprev st nCoinbaseOut s with wallets := ws } :
          NodeState).statsOf (pindex :: pprev)
            = block.newStats pprev (s.statsOf pprev) st nCoinbaseOut := by
      intro s st ws
      rw [NodeState.statsOf, show ({ block.writeConnected pindex pprev st nCoinbaseOut s with
        wallets := ws } : NodeState).blockStats = s.blockStats.set pindex.hashBlock
          (block.newStats pprev (s.statsOf pprev) st nCoinbaseOut) by cases pprev <;> rfl,
        Lib.PMap.set_self]
      rfl
    rw [hstats, hstats, hs.stats]
    rfl

end

end CBlock

end ShinyCoin

import ShinyCoin.Miner.Pass
import ShinyCoin.Pool.Loose

/-!
# Maturity of coinbases and coinstakes

`ConnectInputs` walks back from a block and looks for the file position that the index has for the
spent transaction. For `ConnectBlock` the walk starts at the block itself, for the memory pool and the
miner at its parent.

What is proved of a run: a coinbase or coinstake that is not mature yet stands in the index, at the
position of its block and with an unspent output (`Young`). Nothing can replace it, since only
transactions without unspent outputs are replaced, and nothing can spend it.
-/

namespace ShinyCoin

/-- A transaction that makes coins: its outputs have to mature. -/
def CTransaction.isMint (tx : CTransaction) : Bool := tx.isCoinBase || tx.isCoinStake

theorem CTransaction.vout_ne_nil {tx : CTransaction} (h : tx.isMint = true) : tx.vout ≠ [] := by
  intro hnil
  rw [isMint, Bool.or_eq_true, isCoinBase, isCoinStake, hnil] at h
  rcases h with h | h
  · split at h
    · rw [Bool.and_eq_true] at h
      exact absurd h.2 (by decide)
    · cases h
  · split at h
    · next hout => cases hout
    · cases h

/-- The file position is that of the block. -/
def CDiskTxPos.InBlock (pos : CDiskTxPos) (pindex : CBlockIndex) : Prop :=
  pindex.nBlockPos = pos.nBlockPos ∧ pindex.nFile = pos.nFile

/-! ## The walk back -/

section

variable {env : Env} {p q : CBlockIndex} {ptr pprev : BlockPtr} {txindex : CTxIndex}

theorem Heights.lt_length (h : Heights ptr) (hq : q ∈ ptr) : q.nHeight < ptr.length := by
  induction ptr with
  | nil => cases hq
  | cons p pprev ih =>
      have hp := h.1
      rw [List.length_cons]
      rcases List.mem_cons.mp hq with rfl | hq
      · omega
      · have := ih h.2 hq
        omega

/-- The walk comes to every block that is high enough. -/
theorem Heights.mem_takeWhile (h : Heights ptr) (hq : q ∈ ptr) {nHeight nMaturity : ℤ}
    (hyoung : nHeight - q.nHeight < nMaturity) :
    q ∈ ptr.takeWhile fun pindex => nHeight - pindex.nHeight < nMaturity := by
  induction ptr with
  | nil => cases hq
  | cons p pprev ih =>
      rw [List.takeWhile_cons]
      rcases List.mem_cons.mp hq with rfl | hq
      · rw [if_pos (by simpa using hyoung)]
        exact List.mem_cons_self
      · have hlt := h.2.lt_length hq
        have hp := h.1
        rw [if_pos (by simp only [decide_eq_true_eq]; omega)]
        exact List.mem_cons_of_mem p (ih h.2 hq)

/-- A walk from higher up goes no further back. -/
theorem mem_takeWhile_of_le {nHeight nHeight' nMaturity : ℤ} (hle : nHeight ≤ nHeight')
    (hq : q ∈ ptr.takeWhile fun pindex => nHeight' - pindex.nHeight < nMaturity) :
    q ∈ ptr.takeWhile fun pindex => nHeight - pindex.nHeight < nMaturity := by
  induction ptr with
  | nil => cases hq
  | cons p pprev ih =>
      rw [List.takeWhile_cons] at hq ⊢
      split at hq
      · next hcond =>
        rw [if_pos (by simp only [decide_eq_true_eq] at hcond ⊢; omega)]
        rcases List.mem_cons.mp hq with rfl | hq
        · exact List.mem_cons_self
        · exact List.mem_cons_of_mem p (ih hq)
      · cases hq

theorem isImmature_of_mem (h : Heights (p :: pprev)) (hq : q ∈ p :: pprev)
    (hyoung : p.nHeight - q.nHeight < env.nCoinbaseMaturity) (hpos : txindex.pos.InBlock q) :
    CTransaction.isImmature env (p :: pprev) txindex = true := by
  rw [CTransaction.isImmature, List.any_eq_true]
  exact ⟨q, h.mem_takeWhile hq hyoung, by simp [hpos.1, hpos.2]⟩

theorem isImmature_congr {txindex' : CTxIndex} (h : txindex'.pos = txindex.pos) :
    CTransaction.isImmature env ptr txindex' = CTransaction.isImmature env ptr txindex := by
  unfold CTransaction.isImmature
  rw [h]

/-- What the walk does not meet from the tip, it does not meet from the next block. -/
theorem isImmature_next (h : CTransaction.isImmature env ptr txindex = false)
    (hheight : ∀ q ∈ ptr.head?, q.nHeight ≤ p.nHeight) (hpos : ¬ txindex.pos.InBlock p) :
    CTransaction.isImmature env (p :: ptr) txindex = false := by
  apply Bool.eq_false_iff.mpr
  intro hin
  rw [CTransaction.isImmature, List.any_eq_true] at hin
  obtain ⟨q, hq, hat⟩ := hin
  rw [Bool.and_eq_true, beq_iff_eq, beq_iff_eq] at hat
  rw [List.takeWhile_cons] at hq
  split at hq
  · rcases List.mem_cons.mp hq with rfl | hq
    · exact hpos hat
    · cases ptr with
      | nil => cases hq
      | cons r rest =>
          have hle := hheight r rfl
          rw [CTransaction.isImmature, List.any_eq_false] at h
          exact h q (mem_takeWhile_of_le hle hq) (by simp [hat.1, hat.2])
  · cases hq

end

/-! ## What ConnectInputs has seen to -/

/-- The index entries of the fetched inputs. -/
def MapPrevTx.entries (inputs : MapPrevTx) : TxIndexMap := fun hash => (inputs hash).map Prod.fst

theorem MapPrevTx.entries_set (inputs : MapPrevTx) (hash : Uint256) (prev : CTxIndex × CTransaction) :
    MapPrevTx.entries (inputs.set hash prev) = inputs.entries.set hash prev.1 := by
  ext1 hash'
  show (inputs.set hash prev hash').map Prod.fst = _
  rw [Lib.PMap.set_apply, Lib.PMap.set_apply]
  split <;> rfl

namespace CTransaction

variable {env : Env} {files : Files} {txdb q q' : TxIndexMap} {inputs : MapPrevTx}
  {pos : CDiskTxPos} {pindexBlock : BlockPtr} {fVerify fBlock fMiner : Bool} {tx : CTransaction}

/-- An input was fetched, and what it spends is mature if it has to be. -/
def MatureInput (env : Env) (inputs : MapPrevTx) (pindexBlock : BlockPtr) (txin : CTxIn) : Prop :=
  ∃ txindex txPrev, inputs txin.prevout.hash = some (txindex, txPrev) ∧
    (txPrev.isMint = true → isImmature env pindexBlock txindex = false)

theorem checkInput_mature {nValueIn nValueIn' : ℤ} {txin : CTxIn}
    (h : checkInput env inputs pindexBlock tx nValueIn txin = .ok nValueIn') :
    MatureInput env inputs pindexBlock txin := by
  rw [checkInput] at h
  split at h
  · cases h
  · next txindex txPrev hin =>
    split at h
    · cases h
    · obtain ⟨-, h⟩ := Lib.seq_eq_ok.mp h
      obtain ⟨hmature, -⟩ := Lib.seq_eq_ok.mp h
      rw [Lib.require_eq_ok] at hmature
      refine ⟨txindex, txPrev, hin, fun hmint => ?_⟩
      rw [show (txPrev.isCoinBase || txPrev.isCoinStake) = true from hmint] at hmature
      simpa using hmature

theorem checkInputs_mature {txins : List CTxIn} {nValueIn nValueIn' : ℤ}
    (h : txins.foldlM (checkInput env inputs pindexBlock tx) nValueIn = .ok nValueIn') :
    ∀ txin ∈ txins, MatureInput env inputs pindexBlock txin := by
  induction txins generalizing nValueIn with
  | nil => exact fun _ hmem => nomatch hmem
  | cons txin txins ih =>
      obtain ⟨v, hv, h⟩ := Lib.bind_eq_ok.mp h
      exact List.forall_mem_cons.mpr ⟨checkInput_mature hv, ih h⟩

/-- A round of the second loop spends an unspent output of what was fetched. -/
theorem connectInput_entries {st st' : MapPrevTx × TxIndexMap} {x : CTxIn × Nat}
    (h : connectInput env fVerify pos fBlock fMiner tx st x = .ok st') :
    Unspent st.1.entries x.1.prevout ∧ st'.1.entries = spend pos st.1.entries x.1.prevout := by
  rw [connectInput] at h
  split at h
  · cases h
  · next txindex txPrev hin =>
    have hentry : st.1.entries x.1.prevout.hash = some txindex := by rw [MapPrevTx.entries, hin]; rfl
    split at h
    · cases h
    · next posSpent hslot =>
      obtain ⟨hnull, h⟩ := Lib.seq_eq_ok.mp h
      obtain ⟨-, h⟩ := Lib.seq_eq_ok.mp h
      rw [Lib.require_eq_ok] at hnull
      cases h
      refine ⟨⟨txindex, posSpent, hentry, hslot, hnull⟩, ?_⟩
      rw [spend_of_some hentry]
      exact MapPrevTx.entries_set _ _ _

theorem connectInputs_entries {xs : List (CTxIn × Nat)} {st st' : MapPrevTx × TxIndexMap}
    (h : xs.foldlM (connectInput env fVerify pos fBlock fMiner tx) st = .ok st') :
    SpendsUnspent pos st.1.entries (xs.map fun x => x.1.prevout) := by
  induction xs generalizing st with
  | nil => trivial
  | cons x xs ih =>
      obtain ⟨st₁, hx, h⟩ := Lib.bind_eq_ok.mp h
      obtain ⟨hunspent, hentries⟩ := connectInput_entries hx
      refine ⟨hunspent, ?_⟩
      rw [← hentries]
      exact ih h

/-- Whoever calls `ConnectInputs`: what every input spends is mature and was not spent. -/
theorem connectInputs_mature {nBestHeight : ℤ} (hpos : pos.isNull = false)
    (hcb : tx.isCoinBase = false)
    (h : tx.connectInputs env files nBestHeight txdb inputs q pos pindexBlock fBlock fMiner = .ok q') :
    ∀ txin ∈ tx.vin, MatureInput env inputs pindexBlock txin ∧
      Unspent inputs.entries txin.prevout := by
  rw [connectInputs, hcb, if_neg Bool.false_ne_true] at h
  obtain ⟨nValueIn, hcheck, h⟩ := Lib.bind_eq_ok.mp h
  obtain ⟨st, hconn, -⟩ := Lib.bind_eq_ok.mp h
  have hspends := (connectInputs_entries hconn).unspent hpos
  intro txin htxin
  refine ⟨checkInputs_mature hcheck txin htxin, hspends txin.prevout ?_⟩
  obtain ⟨i, hi⟩ := List.mem_iff_getElem?.mp htxin
  exact List.mem_map.mpr ⟨(txin, i), List.mem_zipIdx_iff_getElem?.mpr hi, rfl⟩

end CTransaction

/-! ## Coins that are not mature -/

/-- The index has the transaction at its block, on disk and with an unspent output. -/
def Young (files : Files) (m : TxIndexMap) (hash : Uint256) (q : CBlockIndex)
    (txPrev : CTransaction) : Prop :=
  ∃ txindex, m hash = some txindex ∧ txindex.pos.InBlock q ∧ txindex.pos ≠ CDiskTxPos.inPool ∧
    files.readTx txindex.pos = some txPrev ∧ ∃ pos ∈ txindex.vSpent, pos.isNull = true

section

variable {env : Env} {files : Files} {pool : CTxMemPool} {m : TxIndexMap} {hash : Uint256}
  {p q : CBlockIndex} {pprev : BlockPtr} {tx txPrev : CTransaction} {pos : CDiskTxPos}

theorem spendInputs_of_ne (pos : CDiskTxPos) (m : TxIndexMap)
    (hne : tx.isCoinBase = false → ∀ txin ∈ tx.vin, txin.prevout.hash ≠ hash) :
    spendInputs pos m tx hash = m hash := by
  rw [spendInputs]
  split
  · rfl
  · next hcb =>
    have hvin := hne (Bool.eq_false_iff.mpr hcb)
    generalize tx.vin = vin at hvin
    induction vin generalizing m with
    | nil => rfl
    | cons txin vin ih =>
        rw [List.map_cons, List.foldl_cons, ih _ (fun x hx => hvin x (List.mem_cons_of_mem _ hx)),
          spend_of_ne (hvin txin List.mem_cons_self).symm]

theorem Young.not_fullySpent (h : Young files m hash q txPrev) : ¬ FullySpent m hash := by
  obtain ⟨txindex, hidx, -, -, -, pos, hmem, hnull⟩ := h
  intro hspent
  rw [hspent txindex hidx pos hmem] at hnull
  cases hnull

theorem Young.applyTx (h : Young files m hash q txPrev)
    (hvin : tx.isCoinBase = false → ∀ txin ∈ tx.vin, txin.prevout.hash ≠ hash)
    (hne : env.getHash tx ≠ hash) : Young files (applyTx env pos m tx) hash q txPrev := by
  rw [Young, ShinyCoin.applyTx, Lib.PMap.set_of_ne hne.symm, spendInputs_of_ne pos m hvin]
  exact h

/-- A transaction is young when its block has just connected it. -/
theorem young_applyTx (hread : files.readTx pos = some tx) (hpool : pos ≠ CDiskTxPos.inPool)
    (hblock : pos.InBlock q) (hvout : tx.vout ≠ []) :
    Young files (applyTx env pos m tx) (env.getHash tx) q tx := by
  refine ⟨CTxIndex.new pos tx.vout.length, Lib.PMap.set_self _ _ _, hblock, hpool, hread,
    CDiskTxPos.null, ?_, rfl⟩
  exact List.mem_replicate.mpr ⟨fun h => hvout (List.length_eq_zero_iff.mp h), rfl⟩

/-- An input that passes the maturity test does not spend young coins. -/
theorem Young.not_spent (h : Young files m hash q txPrev) (hmint : txPrev.isMint = true)
    (hheights : Heights (p :: pprev)) (hq : q ∈ p :: pprev)
    (hyoung : p.nHeight - q.nHeight < env.nCoinbaseMaturity) {inputs : MapPrevTx}
    (hm : InputsMatch files pool m inputs) {txin : CTxIn}
    (hmature : CTransaction.MatureInput env inputs (p :: pprev) txin) :
    txin.prevout.hash ≠ hash := by
  rintro rfl
  obtain ⟨txindex, hidx, hblock, hpool, hread, -⟩ := h
  obtain ⟨txindex', txPrev', hin, himm⟩ := hmature
  obtain ⟨hidx', hread'⟩ := hm _ _ _ hin
  rw [hidx] at hidx'
  cases hidx'
  rw [CTransaction.readTxPrev, if_neg hpool, hread] at hread'
  cases hread'
  have := isImmature_of_mem hheights hq hyoung hblock
  rw [himm hmint] at this
  cases this

end

/-! ## The loop of ConnectBlock -/

/-- Of the transactions `made`, each with its block, those that are not mature yet are young. -/
def KeepsYoung (env : Env) (files : Files) (m : TxIndexMap) (nHeight : ℤ)
    (made : CBlockIndex → CTransaction → Prop) : Prop :=
  ∀ q txPrev, made q txPrev → txPrev.isMint = true → nHeight - q.nHeight < env.nCoinbaseMaturity →
    Young files m (env.getHash txPrev) q txPrev

/-- What a transaction in the block `p` spends of the transactions `made` is mature. -/
def SpendsMature (env : Env) (nHeight : ℤ) (made : CBlockIndex → CTransaction → Prop)
    (tx : CTransaction) : Prop :=
  tx.isCoinBase = false → ∀ txin ∈ tx.vin, ∀ q txPrev, made q txPrev → txPrev.isMint = true →
    env.getHash txPrev = txin.prevout.hash → q.nHeight ≤ nHeight - env.nCoinbaseMaturity

section

variable {env : Env} {files : Files} {s : NodeState} {block : CBlock} {pindex : CBlockIndex}
  {pprev : BlockPtr} {st st' : ConnectState} {tx : CTransaction}
  {made : CBlockIndex → CTransaction → Prop}

/-- The inputs of a transaction of the block, as they were fetched, pass the maturity test. -/
theorem CBlock.connectTx_mature (hpos : (st.posThisTx pindex).isNull = false)
    (hcb : tx.isCoinBase = false)
    (h : block.connectTx env files s pindex pprev st tx = .ok st') :
    ∃ inputs, InputsMatch files s.mempool (st.index s) inputs ∧
      ∀ txin ∈ tx.vin, CTransaction.MatureInput env inputs (pindex :: pprev) txin := by
  obtain ⟨mapInputs, q', hfetch, hconn⟩ := connectTx_spends hcb h
  exact ⟨mapInputs, (CTransaction.fetchInputs_ok rfl hcb hfetch).1,
    fun txin htxin => (CTransaction.connectInputs_mature hpos hcb hconn txin htxin).1⟩

/-- One round keeps the young coins, and adds its own. -/
theorem KeepsYoung.connectTx (hyoung : KeepsYoung env files (st.index s) pindex.nHeight made)
    (hchain : ∀ q txPrev, made q txPrev → q ∈ pindex :: pprev)
    (hheights : Heights (pindex :: pprev))
    (hfresh : FullySpent (st.index s) (env.getHash tx))
    (hread : files.readTx (st.posThisTx pindex) = some tx)
    (hpool : st.posThisTx pindex ≠ CDiskTxPos.inPool)
    (h : block.connectTx env files s pindex pprev st tx = .ok st') :
    KeepsYoung env files (st'.index s) pindex.nHeight
        (fun q txPrev => made q txPrev ∨ q = pindex ∧ txPrev = tx) ∧
      SpendsMature env pindex.nHeight made tx := by
  obtain ⟨-, hpos, -⟩ := Files.readTx_eq_some.mp hread
  have hspent : ∀ q txPrev, made q txPrev → txPrev.isMint = true →
      pindex.nHeight - q.nHeight < env.nCoinbaseMaturity → tx.isCoinBase = false →
      ∀ txin ∈ tx.vin, txin.prevout.hash ≠ env.getHash txPrev := by
    intro q txPrev hmade hmint hlt hcb txin htxin
    obtain ⟨inputs, hm, hmature⟩ := CBlock.connectTx_mature hpos hcb h
    exact (hyoung q txPrev hmade hmint hlt).not_spent hmint hheights (hchain q txPrev hmade) hlt hm
      (hmature txin htxin)
  obtain ⟨nTxValueIn, nTxValueOut, hconn⟩ := CBlock.connectTx_ok h
  refine ⟨?_, ?_⟩
  · rintro q txPrev (hmade | ⟨rfl, rfl⟩) hmint hlt
    · have hq := hyoung q txPrev hmade hmint hlt
      rw [hconn.index]
      apply hq.applyTx (hspent q txPrev hmade hmint hlt)
      intro heq
      exact hq.not_fullySpent (heq ▸ hfresh)
    · rw [hconn.index]
      exact young_applyTx hread hpool ⟨rfl, rfl⟩ (CTransaction.vout_ne_nil hmint)
  · intro hcb txin htxin q txPrev hmade hmint heq
    by_contra hle
    exact hspent q txPrev hmade hmint (by omega) hcb txin htxin heq.symm

/-- A transaction does not spend what its block has not connected yet. -/
theorem LoopInv.not_spends {log : List (Lib.Event Uint256)} {rest : List CTransaction}
    (hI : LoopInv env files s pindex log rest st)
    (h : block.connectTx env files s pindex pprev st tx = .ok st') (hcb : tx.isCoinBase = false)
    {txin : CTxIn} (htxin : txin ∈ tx.vin) {txPrev : CTransaction} (hrest : txPrev ∈ rest) :
    env.getHash txPrev ≠ txin.prevout.hash := by
  obtain ⟨nTxValueIn, nTxValueOut, hconn⟩ := CBlock.connectTx_ok h
  obtain ⟨inputs, hspent, -⟩ := hconn.spends hcb
  have hne := ((hI.fresh txPrev hrest).spends hspent.unspent).1
  exact (hne txin.prevout (List.mem_map_of_mem htxin)).symm

/-- What holds in the loop of `ConnectBlock` when `done` is connected and `rest` is still to come. -/
structure MatureLoop (env : Env) (files : Files) (s : NodeState) (block : CBlock)
    (pindex : CBlockIndex) (made : CBlockIndex → CTransaction → Prop)
    (done rest : List CTransaction) (st : ConnectState) : Prop where
  vtx : done ++ rest = block.vtx
  loop : ∃ log, LoopInv env files s pindex log rest st
  young : KeepsYoung env files (st.index s) pindex.nHeight
    fun q txPrev => made q txPrev ∨ q = pindex ∧ txPrev ∈ done
  spends : ∀ tx ∈ done, SpendsMature env pindex.nHeight
    (fun q txPrev => made q txPrev ∨ q = pindex ∧ txPrev ∈ block.vtx) tx

theorem MatureLoop.step {done rest : List CTransaction}
    (hI : MatureLoop env files s block pindex made done (tx :: rest) st)
    (hchain : ∀ q txPrev, made q txPrev → q ∈ pindex :: pprev)
    (hheights : Heights (pindex :: pprev))
    (h : block.connectTx env files s pindex pprev st tx = .ok st') :
    MatureLoop env files s block pindex made (done ++ [tx]) rest st' := by
  obtain ⟨log, hloop⟩ := hI.loop
  obtain ⟨nTxValueIn, nTxValueOut, hconn⟩ := CBlock.connectTx_ok h
  have hbefore : ∀ q txPrev, (made q txPrev ∨ q = pindex ∧ txPrev ∈ done) → q ∈ pindex :: pprev := by
    rintro q txPrev (hmade | ⟨rfl, -⟩)
    · exact hchain q txPrev hmade
    · exact List.mem_cons_self
  obtain ⟨hyoung, hspends⟩ := hI.young.connectTx hbefore hheights
    (hloop.fresh tx List.mem_cons_self) hloop.stored.1
    (st.posThisTx_ne_inPool pindex hloop.nTxPos) h
  refine ⟨by rw [List.append_assoc]; exact hI.vtx, ⟨_, hloop.step hconn⟩, ?_, ?_⟩
  · rintro q txPrev (hmade | ⟨hq, hmem⟩)
    · exact hyoung q txPrev (.inl (.inl hmade))
    · rcases List.mem_append.mp hmem with hmem | hmem
      · exact hyoung q txPrev (.inl (.inr ⟨hq, hmem⟩))
      · exact hyoung q txPrev (.inr ⟨hq, List.mem_singleton.mp hmem⟩)
  · intro tx' htx'
    rcases List.mem_append.mp htx' with htx' | htx'
    · exact hI.spends tx' htx'
    · rw [List.mem_singleton.mp htx']
      rintro hcb txin htxin q txPrev (hmade | ⟨hq, hmem⟩) hmint heq
      · exact hspends hcb txin htxin q txPrev (.inl hmade) hmint heq
      · rw [← hI.vtx] at hmem
        rcases List.mem_append.mp hmem with hmem | hmem
        · exact hspends hcb txin htxin q txPrev (.inr ⟨hq, hmem⟩) hmint heq
        · exact absurd heq (hloop.not_spends h hcb htxin hmem)

/-- A block that `ConnectBlock` accepts spends mature coins only, and keeps the young ones. -/
theorem CBlock.connectTxs_mature {log : List (Lib.Event Uint256)}
    (hstored : block.Stored files pindex) (hindex : IndexInv s.txdb.data.txIndex log)
    (hcheck : block.checkConnect env s pindex = .ok ())
    (hyoung : KeepsYoung env files s.txdb.data.txIndex pindex.nHeight made)
    (hchain : ∀ q txPrev, made q txPrev → q ∈ pindex :: pprev)
    (hheights : Heights (pindex :: pprev))
    (h : block.connectTxs env files s pindex pprev = .ok st) :
    KeepsYoung env files (st.index s) pindex.nHeight
        (fun q txPrev => made q txPrev ∨ q = pindex ∧ txPrev ∈ block.vtx) ∧
      ∀ tx ∈ block.vtx, SpendsMature env pindex.nHeight
        (fun q txPrev => made q txPrev ∨ q = pindex ∧ txPrev ∈ block.vtx) tx := by
  obtain ⟨hblock, hover⟩ := checkConnect_ok hcheck
  have hidx : ({ nTxPos := block.firstTxPos pindex.nBlockPos, infos := s.infos } :
      ConnectState).index s = s.txdb.data.txIndex := Lib.PMap.empty_layer _
  have hstart : MatureLoop env files s block pindex made [] block.vtx
      { nTxPos := block.firstTxPos pindex.nBlockPos, infos := s.infos } := by
    refine ⟨rfl, ⟨log, ?_, ?_, ?_, hblock.nodup, hstored, block.one_lt_firstTxPos _⟩, ?_, ?_⟩
    · rw [hidx]
      exact hindex
    · rw [hidx]
      simp
    · rw [hidx]
      exact hover
    · rw [hidx]
      rintro q txPrev (hmade | ⟨-, hmem⟩)
      · exact hyoung q txPrev hmade
      · cases hmem
    · exact fun tx hmem => nomatch hmem
  obtain ⟨done, hI⟩ := Lib.foldlM_ok_inv
    (fun rest st => ∃ done, MatureLoop env files s block pindex made done rest st)
    (fun tx rest st st' ⟨done, hI⟩ hstep => ⟨done ++ [tx], hI.step hchain hheights hstep⟩)
    ⟨[], hstart⟩ h
  have hdone : done = block.vtx := by rw [← hI.vtx, List.append_nil]
  rw [hdone] at hI
  exact ⟨hI.young, hI.spends⟩

end

/-! ## Runs -/

/-- The transactions of connected blocks, each with its block. -/
def MadeBy (bs : List ConnectedBlock) (q : CBlockIndex) (txPrev : CTransaction) : Prop :=
  ∃ b ∈ bs, b.pindex = q ∧ txPrev ∈ b.block.vtx

theorem madeBy_append {bs : List ConnectedBlock} {b : ConnectedBlock} {q : CBlockIndex}
    {txPrev : CTransaction} :
    MadeBy (bs ++ [b]) q txPrev ↔ MadeBy bs q txPrev ∨ q = b.pindex ∧ txPrev ∈ b.block.vtx := by
  constructor
  · rintro ⟨c, hc, rfl, hmem⟩
    rcases List.mem_append.mp hc with hc | hc
    · exact .inl ⟨c, hc, rfl, hmem⟩
    · rw [List.mem_singleton.mp hc] at hmem ⊢
      exact .inr ⟨rfl, hmem⟩
  · rintro (⟨c, hc, hq, hmem⟩ | ⟨rfl, hmem⟩)
    · exact ⟨c, List.mem_append_left _ hc, hq, hmem⟩
    · exact ⟨b, by simp, rfl, hmem⟩

section

variable {env : Env} {files : Files} {genesis : BlockPtr} {bs : List ConnectedBlock} {s : NodeState}

theorem KeepsYoung.mono {m : TxIndexMap} {nHeight nHeight' : ℤ}
    {made made' : CBlockIndex → CTransaction → Prop} (h : KeepsYoung env files m nHeight made)
    (hle : nHeight ≤ nHeight') (hmade : ∀ q txPrev, made' q txPrev → made q txPrev) :
    KeepsYoung env files m nHeight' made' :=
  fun q txPrev hq hmint hlt => h q txPrev (hmade q txPrev hq) hmint (by omega)

theorem ConnectRun.mem_tip (hrun : ConnectRun env files genesis bs s) :
    ∀ b ∈ bs, b.pindex ∈ tipOf genesis bs := by
  induction hrun with
  | genesis h => exact fun b hmem => nomatch hmem
  | connect hrun hsame hst hconn ih =>
      intro b hb
      rw [tipOf_append]
      rcases List.mem_append.mp hb with hb | hb
      · exact List.mem_cons_of_mem _ (ih b hb)
      · rw [List.mem_singleton.mp hb]
        exact List.mem_cons_self

/-- In a run, young coins stay in the index and nobody spends them. -/
theorem ConnectRun.mature (hrun : ConnectRun env files genesis bs s)
    (hstored : ∀ b ∈ bs, b.block.Stored files b.pindex) (hheights : Heights (tipOf genesis bs)) :
    KeepsYoung env files s.txdb.data.txIndex ((tipOf genesis bs).length - 1) (MadeBy bs) ∧
      ∀ before b after, bs = before ++ b :: after → ∀ tx ∈ b.block.vtx,
        SpendsMature env b.pindex.nHeight (MadeBy (before ++ [b])) tx := by
  induction hrun with
  | genesis h =>
      refine ⟨?_, ?_⟩
      · rintro q txPrev ⟨b, hb, -⟩
        cases hb
      · intro before b after hsplit
        exact absurd hsplit.symm (by simp)
  | @connect bs s s₁ s' block pindex st hrun hsame hst hconn ih =>
      rw [tipOf_append] at hheights
      have hstored' : ∀ b ∈ bs, b.block.Stored files b.pindex :=
        fun b hb => hstored b (List.mem_append_left _ hb)
      obtain ⟨hyoung, hspends⟩ := ih hstored' hheights.2
      have hheight : pindex.nHeight = (tipOf genesis bs).length := hheights.1
      obtain ⟨-, hcheck, -, hidx, -⟩ := CBlock.connectBlock_writes hst hconn
      have hindex := (hrun.index_inv hstored').1
      rw [← hsame.1] at hyoung hindex
      have hblock : block.Stored files pindex :=
        hstored ⟨block, pindex, tipOf genesis bs, _, st⟩ (List.mem_append_right _ List.mem_cons_self)
      have hchain : ∀ q txPrev, MadeBy bs q txPrev → q ∈ pindex :: tipOf genesis bs := by
        rintro q txPrev ⟨b, hb, rfl, -⟩
        exact List.mem_cons_of_mem _ (hrun.mem_tip b hb)
      obtain ⟨hyoung', hspends'⟩ := CBlock.connectTxs_mature hblock hindex hcheck
        (hyoung.mono (by omega) (fun _ _ => id)) hchain hheights hst
      refine ⟨?_, ?_⟩
      · rw [hidx, tipOf_append]
        apply hyoung'.mono
        · rw [List.length_cons]
          push_cast
          omega
        · exact fun q txPrev => madeBy_append.mp
      · intro before b after hsplit tx htx
        rcases List.eq_nil_or_concat after with rfl | ⟨after', last, rfl⟩
        · obtain ⟨rfl, hb⟩ := List.append_inj' hsplit rfl
          obtain rfl := (List.cons.inj hb).1
          intro hcb txin htxin q txPrev hmade
          exact hspends' tx htx hcb txin htxin q txPrev (madeBy_append.mp hmade)
        · rw [List.concat_eq_append, ← List.cons_append, ← List.append_assoc] at hsplit
          exact hspends before b after' (List.append_inj_left' hsplit rfl) tx htx

theorem inBlock_applyTxs {pindex : CBlockIndex} {txs : List CTransaction} {nTxPos : Nat}
    {m : TxIndexMap} {hash : Uint256} {txindex : CTxIndex}
    (h : applyTxs env pindex txs nTxPos m hash = some txindex) :
    txindex.pos.InBlock pindex ∨ ∃ txindex₀, m hash = some txindex₀ ∧ txindex₀.pos = txindex.pos := by
  induction txs generalizing nTxPos m with
  | nil => exact .inr ⟨txindex, h, rfl⟩
  | cons tx txs ih =>
      rcases ih h with hin | ⟨txindex₁, h₁, hpos₁⟩
      · exact .inl hin
      · rw [applyTx, Lib.PMap.set_apply] at h₁
        split at h₁
        · cases h₁
          rw [← hpos₁]
          exact .inl ⟨rfl, rfl⟩
        · have hpos := pos_spendInputs ⟨pindex.nFile, pindex.nBlockPos, nTxPos⟩ m tx hash
          rw [h₁] at hpos
          obtain ⟨txindex₀, h₀, hpos₀⟩ := Option.map_eq_some_iff.mp hpos.symm
          exact .inr ⟨txindex₀, h₀, hpos₀.trans hpos₁⟩

/-- Every transaction of the index is in a connected block. -/
theorem ConnectRun.inBlock (hrun : ConnectRun env files genesis bs s) {hash : Uint256}
    {txindex : CTxIndex} (h : s.txdb.data.txIndex hash = some txindex) :
    ∃ b ∈ bs, txindex.pos.InBlock b.pindex := by
  induction hrun generalizing txindex with
  | genesis hstart =>
      rw [hstart.txIndex] at h
      cases h
  | @connect bs s s₁ s' block pindex st hrun hsame hst hconn ih =>
      obtain ⟨-, -, -, hidx, -⟩ := CBlock.connectBlock_writes hst hconn
      rw [hidx, (CBlock.connectTxs_applyTo hst).1] at h
      rcases inBlock_applyTxs h with hin | ⟨txindex₀, h₀, hpos⟩
      · exact ⟨_, List.mem_append_right _ List.mem_cons_self, hin⟩
      · rw [hsame.1] at h₀
        obtain ⟨b, hb, hin⟩ := ih h₀
        rw [hpos] at hin
        exact ⟨b, List.mem_append_left _ hb, hin⟩

end

/-! ## The checks at the tip -/

/-- `mapTestPool` as `CreateNewBlock` fills it: a transaction that passes spends its inputs there and
is entered itself. -/
inductive TestPool (env : Env) (files : Files) (pool : CTxMemPool) (s : NodeState) :
    TxIndexMap → Prop where
  | empty : TestPool env files pool s Lib.PMap.empty
  | add {q q' : TxIndexMap} {inputs : MapPrevTx} {tx : CTransaction}
      (hq : TestPool env files pool s q)
      (hfetch : tx.fetchInputs files pool s.txdb.data.txIndex q false true = .ok inputs)
      (hconn : tx.connectInputs env files s.nBestHeight s.txdb.data.txIndex inputs q CDiskTxPos.inPool
        s.pindexBest false true = .ok q') :
      TestPool env files pool s
        (q'.set (env.getHash tx) (CTxIndex.new CDiskTxPos.inPool tx.vout.length))

/-- The inputs of a transaction were fetched and passed `ConnectInputs` at the tip. -/
inductive PassedAtTip (env : Env) (files : Files) (pool : CTxMemPool) (s : NodeState)
    (tx : CTransaction) (inputs : MapPrevTx) : Prop where
  /-- the check of the memory pool -/
  | accept {q' : TxIndexMap}
      (hfetch : tx.fetchInputs files pool s.txdb.data.txIndex Lib.PMap.empty false false = .ok inputs)
      (hconn : tx.connectInputs env files s.nBestHeight s.txdb.data.txIndex inputs Lib.PMap.empty
        CDiskTxPos.inPool s.pindexBest false false = .ok q')
  /-- the check of the miner -/
  | template {q q' : TxIndexMap} (hq : TestPool env files pool s q)
      (hfetch : tx.fetchInputs files pool s.txdb.data.txIndex q false true = .ok inputs)
      (hconn : tx.connectInputs env files s.nBestHeight s.txdb.data.txIndex inputs q CDiskTxPos.inPool
        s.pindexBest false true = .ok q')

section

variable {env : Env} {files : Files} {pool : CTxMemPool} {s : NodeState} {tx : CTransaction}

/-- What the memory pool accepts has passed. -/
theorem NodeState.checkAccept_passed {φ : Type} {renv : RelayEnv φ} {free free' : φ}
    (h : s.checkAccept renv files free tx true = (free', .ok ())) :
    ∃ inputs, PassedAtTip renv.toEnv files s.mempool s tx inputs := by
  unfold checkAccept at h
  split at h
  · cases h
  rw [if_pos rfl, checkInputs] at h
  split at h
  · cases h
  next mapInputs hfetch =>
  split at h
  · cases h
  split at h
  · cases h
  next hfree =>
  obtain ⟨-, hconn⟩ := Prod.mk.inj h
  rw [Lib.mapError_eq_ok, connectLoose] at hconn
  obtain ⟨q', hconn, -⟩ := Lib.bind_eq_ok.mp hconn
  rw [Lib.mapError_eq_ok] at hconn
  refine ⟨mapInputs, .accept ?_ hconn⟩
  rw [fetchLoose] at hfetch
  split at hfetch
  · next hok =>
    cases hfetch
    exact hok
  · cases hfetch
  · cases hfetch
  · cases hfetch

/-- What the miner adds to a block has passed. -/
theorem Added.passed {st : CollectState} {q : TxIndexMap} {infos : CTxInfoStore} {nTxFees : ℤ}
    (h : Added env files s pool st tx q infos nTxFees)
    (hq : TestPool env files pool s st.mapTestPool) :
    (∃ inputs, PassedAtTip env files pool s tx inputs) ∧ TestPool env files pool s
      (q.set (env.getHash tx) (CTxIndex.new CDiskTxPos.inPool tx.vout.length)) := by
  obtain ⟨mapInputs, nTxValueIn, nTxValueOut, hfetch, -, -, -, hconn⟩ := h.inputs
  exact ⟨⟨mapInputs, .template hq hfetch hconn⟩, .add hq hfetch hconn⟩

/-- Every round of `CreateNewBlock` works on such a test pool. -/
theorem collectTxs_testPool {miner : Miner} {n : Nat} {st st' : CollectState}
    {conflict : Option CTransaction} (hq : TestPool env files pool s st.mapTestPool)
    (h : collectTxs env files miner s pool n st = .ok (st', conflict)) :
    TestPool env files pool s st'.mapTestPool := by
  induction n generalizing st with
  | zero =>
      cases h
      exact hq
  | succ n ih =>
      rw [collectTxs] at h
      split at h
      · cases h
        exact hq
      · obtain ⟨outcome, htry, h⟩ := Lib.bind_eq_ok.mp h
        cases outcome with
        | skipped =>
            refine ih ?_ h
            exact hq
        | conflict =>
            cases h
            exact hq
        | added q infos nTxSigOps nTxFees =>
            refine ih ?_ h
            exact ((CTransaction.tryTx_added htry).passed hq).2

theorem unspent_of_spendInputs {pos : CDiskTxPos} {m : TxIndexMap} {o : COutPoint}
    (hpos : pos.isNull = false) (h : Unspent (spendInputs pos m tx) o) : Unspent m o := by
  rw [spendInputs] at h
  split at h
  · exact h
  · generalize tx.vin.map CTxIn.prevout = os at h
    induction os generalizing m with
    | nil => exact h
    | cons o' os ih => exact (unspent_of_spend hpos (ih h)).1

/-- What is unspent in the test pool, and not new there, is unspent on disk. -/
theorem TestPool.unspent {q : TxIndexMap} (hq : TestPool env files pool s q) {o : COutPoint}
    {txindex : CTxIndex} (h : Unspent (q.layer s.txdb.data.txIndex) o)
    (hidx : q.layer s.txdb.data.txIndex o.hash = some txindex)
    (hpos : txindex.pos ≠ CDiskTxPos.inPool) : Unspent s.txdb.data.txIndex o := by
  induction hq generalizing txindex with
  | empty =>
      rw [Lib.PMap.empty_layer] at h
      exact h
  | @add q q' inputs tx hq hfetch hconn ih =>
      rw [Lib.PMap.set_layer] at h hidx
      rw [Lib.PMap.set_apply] at hidx
      split at hidx
      · cases hidx
        exact absurd rfl hpos
      next hne =>
      have hview : q'.layer s.txdb.data.txIndex
          = spendInputs CDiskTxPos.inPool (q.layer s.txdb.data.txIndex) tx := by
        cases hcb : tx.isCoinBase with
        | true =>
            rw [CTransaction.connectInputs, if_pos hcb] at hconn
            cases hconn
            rw [spendInputs, if_pos hcb]
        | false =>
            obtain ⟨hm, -⟩ := CTransaction.fetchInputs_ok rfl hcb hfetch
            exact (CTransaction.connectInputs_ok rfl hcb hm hconn).2.1
      obtain ⟨txindex₁, p, h₁, hslot, hnull⟩ := h
      rw [Lib.PMap.set_of_ne hne, hview] at h₁
      rw [hview] at hidx
      have hpos₀ := pos_spendInputs CDiskTxPos.inPool (q.layer s.txdb.data.txIndex) tx o.hash
      rw [hidx] at hpos₀
      obtain ⟨txindex₀, h₀, heq⟩ := Option.map_eq_some_iff.mp hpos₀.symm
      exact ih (unspent_of_spendInputs rfl ⟨txindex₁, p, h₁, hslot, hnull⟩) h₀ (heq ▸ hpos)

/-- A coinbase fetches nothing. -/
theorem isCoinBase_of_fetched {q : TxIndexMap} {fBlock fMiner : Bool} {inputs : MapPrevTx}
    (h : tx.fetchInputs files pool s.txdb.data.txIndex q fBlock fMiner = .ok inputs)
    {hash : Uint256} {prev : CTxIndex × CTransaction} (hin : inputs hash = some prev) :
    tx.isCoinBase = false := by
  by_contra hcb
  rw [CTransaction.fetchInputs, if_pos (Bool.eq_true_of_not_eq_false hcb)] at h
  cases h
  cases hin

/-- A loose transaction is shown the entries of the database. -/
theorem fetchInputs_loose {inputs : MapPrevTx} (hcb : tx.isCoinBase = false)
    (h : tx.fetchInputs files pool s.txdb.data.txIndex Lib.PMap.empty false false = .ok inputs)
    {hash : Uint256} {txindex txindex' : CTxIndex} {txPrev : CTransaction}
    (hin : inputs hash = some (txindex, txPrev)) (hidx : s.txdb.data.txIndex hash = some txindex') :
    txindex = txindex' := by
  rw [CTransaction.fetchInputs, hcb, if_neg Bool.false_ne_true] at h
  obtain ⟨inputs', hloop, h⟩ := Lib.bind_eq_ok.mp h
  obtain ⟨-, h⟩ := Lib.seq_eq_ok.mp h
  cases h
  have hprev := (CTransaction.fetchLoop_ok hloop (by simp)).1 hash _ hin
  rw [CTransaction.loosePrev, CTransaction.fetchPrev, if_neg (by decide), hidx] at hprev
  obtain ⟨txPrev', -, hprev⟩ := Lib.bind_eq_ok.mp hprev
  cases hprev
  rfl

/-- What passed at the tip is mature there, and what it spends of the index is unspent. -/
theorem PassedAtTip.mature {inputs : MapPrevTx} (h : PassedAtTip env files pool s tx inputs)
    {txin : CTxIn} (htxin : txin ∈ tx.vin) {txindex : CTxIndex} {txPrev : CTransaction}
    (hin : inputs txin.prevout.hash = some (txindex, txPrev)) (hmint : txPrev.isMint = true)
    (hpos : txindex.pos ≠ CDiskTxPos.inPool)
    (hconfirmed : (s.txdb.data.txIndex txin.prevout.hash).map CTxIndex.pos = some txindex.pos) :
    CTransaction.isImmature env s.pindexBest txindex = false ∧
      Unspent s.txdb.data.txIndex txin.prevout := by
  have hcb : tx.isCoinBase = false := by
    cases h with
    | accept hfetch hconn => exact isCoinBase_of_fetched hfetch hin
    | template hq hfetch hconn => exact isCoinBase_of_fetched hfetch hin
  have hentry : inputs.entries txin.prevout.hash = some txindex := by
    rw [MapPrevTx.entries, hin]
    rfl
  have hmature : ∀ {nBestHeight : ℤ} {q q' : TxIndexMap} {fMiner : Bool},
      tx.connectInputs env files nBestHeight s.txdb.data.txIndex inputs q CDiskTxPos.inPool
        s.pindexBest false fMiner = .ok q' →
      CTransaction.isImmature env s.pindexBest txindex = false ∧
        Unspent inputs.entries txin.prevout := by
    intro nBestHeight q q' fMiner hconn
    obtain ⟨⟨txindex', txPrev', hin', hmature⟩, hunspent⟩ :=
      CTransaction.connectInputs_mature rfl hcb hconn txin htxin
    rw [hin] at hin'
    cases hin'
    exact ⟨hmature hmint, hunspent⟩
  cases h with
  | accept hfetch hconn =>
      obtain ⟨himm, txindex', p, hidx', hslot, hnull⟩ := hmature hconn
      refine ⟨himm, ?_⟩
      rw [hentry] at hidx'
      cases hidx'
      obtain ⟨txindex₀, hidx₀, -⟩ := Option.map_eq_some_iff.mp hconfirmed
      obtain rfl := fetchInputs_loose hcb hfetch hin hidx₀
      exact ⟨txindex, p, hidx₀, hslot, hnull⟩
  | template hq hfetch hconn =>
      obtain ⟨himm, txindex', p, hidx', hslot, hnull⟩ := hmature hconn
      refine ⟨himm, ?_⟩
      rw [hentry] at hidx'
      cases hidx'
      obtain ⟨hidx, -⟩ := (CTransaction.fetchInputs_ok rfl hcb hfetch).1 _ _ _ hin
      exact hq.unspent ⟨txindex, p, hidx, hslot, hnull⟩ hidx hpos

end

/-! ## The two checks -/

/-- `ConnectBlock` of a block on top of `pprev` has come to the transaction and fetched its inputs. -/
def FetchedInBlock (env : Env) (files : Files) (s : NodeState) (block : CBlock)
    (pindex : CBlockIndex) (pprev : BlockPtr) (tx : CTransaction) (inputs : MapPrevTx) : Prop :=
  block.checkConnect env s pindex = .ok () ∧ ∃ before after st, block.vtx = before ++ tx :: after ∧
    before.foldlM (block.connectTx env files s pindex pprev)
      { nTxPos := block.firstTxPos pindex.nBlockPos, infos := s.infos } = .ok st ∧
    tx.fetchInputs files s.mempool s.txdb.data.txIndex st.mapQueuedChanges true false = .ok inputs

section

variable {env : Env} {files : Files} {s : NodeState} {block : CBlock} {pindex : CBlockIndex}
  {pprev : BlockPtr} {tx : CTransaction} {inputs : MapPrevTx}

/-- What is unspent when the block starts, the block finds at the position it had: it replaces no such
transaction. -/
theorem FetchedInBlock.pos_eq (h : FetchedInBlock env files s block pindex pprev tx inputs)
    {o : COutPoint} (ho : Unspent s.txdb.data.txIndex o) {txindex : CTxIndex} {txPrev : CTransaction}
    (hin : inputs o.hash = some (txindex, txPrev)) :
    (s.txdb.data.txIndex o.hash).map CTxIndex.pos = some txindex.pos := by
  obtain ⟨hcheck, before, after, st, hvtx, hloop, hfetch⟩ := h
  obtain ⟨-, hover⟩ := CBlock.checkConnect_ok hcheck
  have hcb := isCoinBase_of_fetched hfetch hin
  obtain ⟨hidx, -⟩ := (CTransaction.fetchInputs_ok rfl hcb hfetch).1 _ _ _ hin
  have hstart : ({ nTxPos := block.firstTxPos pindex.nBlockPos, infos := s.infos } :
      ConnectState).index s = s.txdb.data.txIndex := Lib.PMap.empty_layer _
  have happly := (CBlock.connectTx_foldlM hloop).1
  rw [hstart] at happly
  have hne : ∀ tx' ∈ before, env.getHash tx' ≠ o.hash := by
    intro tx' htx' heq
    have hmem : tx' ∈ block.vtx := by
      rw [hvtx]
      exact List.mem_append_left _ htx'
    exact (hover tx' hmem).ne_hash ho heq.symm
  rw [← pos_applyTxs hne, ← happly, show st.index s o.hash = some txindex from hidx]
  rfl

/-- Immature coins are never spent; and what the checks at the tip let through, the next block lets
through too. -/
theorem immature_never_spent (env : Env) (files : Files) (genesis : BlockPtr)
    (bs : List ConnectedBlock) (s : NodeState) (hrun : ConnectRun env files genesis bs s)
    (hstored : ∀ b ∈ bs, b.block.Stored files b.pindex) (hheights : Heights (tipOf genesis bs)) :
    (∀ before b after, bs = before ++ b :: after → ∀ tx ∈ b.block.vtx,
      SpendsMature env b.pindex.nHeight (MadeBy (before ++ [b])) tx) ∧
    ∀ (t t' : NodeState) (pool : CTxMemPool) (tx : CTransaction) (inputs inputs' : MapPrevTx)
      (block : CBlock) (pindexNew : CBlockIndex),
      SameLedger s t → t.pindexBest = tipOf genesis bs → PassedAtTip env files pool t tx inputs →
      SameLedger s t' → pindexNew.nHeight = (tipOf genesis bs).length →
      (∀ b ∈ bs, (pindexNew.nBlockPos, pindexNew.nFile) ≠ (b.pindex.nBlockPos, b.pindex.nFile)) →
      FetchedInBlock env files t' block pindexNew (tipOf genesis bs) tx inputs' →
      ∀ txin ∈ tx.vin, ∀ txindex txPrev txindex' txPrev',
        inputs txin.prevout.hash = some (txindex, txPrev) → txPrev.isMint = true →
        (s.txdb.data.txIndex txin.prevout.hash).map CTxIndex.pos = some txindex.pos →
        inputs' txin.prevout.hash = some (txindex', txPrev') →
        CTransaction.isImmature env (pindexNew :: tipOf genesis bs) txindex' = false := by
  refine ⟨(hrun.mature hstored hheights).2, ?_⟩
  intro t t' pool tx inputs inputs' block pindexNew hsame hbest hpassed hsame' hheight hdistinct hnext
    txin htxin txindex txPrev txindex' txPrev' hin hmint hconfirmed hin'
  obtain ⟨txindex₀, hidx₀, hpos₀⟩ := Option.map_eq_some_iff.mp hconfirmed
  have hpool : txindex.pos ≠ CDiskTxPos.inPool := by
    rw [← hpos₀]
    exact (hrun.index_inv hstored).1.onDisk _ _ hidx₀
  rw [← hsame.1] at hconfirmed
  obtain ⟨himm, hunspent⟩ := hpassed.mature htxin hin hmint hpool hconfirmed
  rw [hsame.1, ← hsame'.1] at hunspent
  -- the block finds the transaction where the check found it
  have hpos' := hnext.pos_eq hunspent hin'
  rw [hsame'.1, hidx₀, Option.map_some, Option.some.injEq] at hpos'
  rw [hbest] at himm
  rw [← isImmature_congr (hpos'.symm.trans hpos₀)] at himm
  apply isImmature_next himm
  · intro q hq
    have := hheights.lt_length (List.mem_of_mem_head? hq)
    omega
  · obtain ⟨b, hb, hblock⟩ := hrun.inBlock hidx₀
    rw [hpos'] at hblock
    intro hnew
    apply hdistinct b hb
    rw [hnew.1, hnew.2, hblock.1, hblock.2]

end

/-! ## Three blocks to run -/

/-- Coins that mature in the next block. -/
def maturityEnv : Env := { Env.plain with nCoinbaseMaturity := 1 }

def maturityCoinbase (nTime : Nat) : CTransaction := { sampleCoinbase with nTime := nTime }

/-- A payment of the first block's coinbase. -/
def maturityPayment : CTransaction := { samplePayment with nTime := 4, vin := [{ prevout := ⟨2, 0⟩ }] }

def maturityBlock₁ : CBlock := { nTime := 1, nNonce := 1, vtx := [maturityCoinbase 1] }
def maturityBlock₂ : CBlock := { nTime := 2, nNonce := 2, vtx := [maturityCoinbase 2] }
def maturityBlock₃ : CBlock := { nTime := 5, nNonce := 5, vtx := [maturityCoinbase 5, maturityPayment] }

def maturityIndex (nHeight : Nat) : CBlockIndex :=
  { hashBlock := nHeight + 1, nFile := 1, nBlockPos := 200 * nHeight, nHeight := nHeight }

def maturityChain₁ : BlockPtr := [maturityIndex 1, sampleGenesis]
def maturityChain₂ : BlockPtr := maturityIndex 2 :: maturityChain₁

def maturityFiles : Files where
  block _ _ := none
  tx pos :=
    if pos = ⟨1, 200, 281⟩ then some (maturityCoinbase 1)
    else if pos = ⟨1, 400, 481⟩ then some (maturityCoinbase 2)
    else if pos = ⟨1, 600, 681⟩ then some (maturityCoinbase 5)
    else if pos = ⟨1, 600, 750⟩ then some maturityPayment
    else none

def maturityState₁ : NodeState :=
  Lib.final (maturityBlock₁.connectBlock maturityEnv maturityFiles (maturityIndex 1) [sampleGenesis]
    sampleState)

def maturityState₂ : NodeState :=
  Lib.final (maturityBlock₂.connectBlock maturityEnv maturityFiles (maturityIndex 2) maturityChain₁
    maturityState₁)

/-- The node with the second block as its best one. -/
def maturityTip : NodeState := { maturityState₂ with pindexBest := maturityChain₂ }

theorem maturityBlock₁_stored : maturityBlock₁.Stored maturityFiles (maturityIndex 1) :=
  ⟨by decide, trivial⟩

theorem maturityBlock₂_stored : maturityBlock₂.Stored maturityFiles (maturityIndex 2) :=
  ⟨by decide, trivial⟩

theorem maturityBlock₃_stored : maturityBlock₃.Stored maturityFiles (maturityIndex 3) :=
  ⟨by decide, by decide, trivial⟩

/-- The first two blocks. -/
theorem maturityRun : ∃ prev₂ st₁ st₂, ConnectRun maturityEnv maturityFiles [sampleGenesis]
    [⟨maturityBlock₁, maturityIndex 1, [sampleGenesis], {}, st₁⟩,
      ⟨maturityBlock₂, maturityIndex 2, maturityChain₁, prev₂, st₂⟩] maturityState₂ := by
  obtain ⟨st₁, hst₁⟩ := Lib.exists_of_isOk (show (maturityBlock₁.connectTxs maturityEnv maturityFiles
    sampleState (maturityIndex 1) [sampleGenesis]).isOk = true by decide)
  have hconn₁ := Lib.eq_ok_final (show (maturityBlock₁.connectBlock maturityEnv maturityFiles
    (maturityIndex 1) [sampleGenesis] sampleState).isOk = true by decide)
  obtain ⟨st₂, hst₂⟩ := Lib.exists_of_isOk (show (maturityBlock₂.connectTxs maturityEnv maturityFiles
    maturityState₁ (maturityIndex 2) maturityChain₁).isOk = true by decide)
  have hconn₂ := Lib.eq_ok_final (show (maturityBlock₂.connectBlock maturityEnv maturityFiles
    (maturityIndex 2) maturityChain₁ maturityState₁).isOk = true by decide)
  have hstart : ConnectRun maturityEnv maturityFiles [sampleGenesis] [] sampleState :=
    ConnectRun.genesis ⟨rfl, rfl⟩
  exact ⟨_, st₁, st₂, (hstart.connect ⟨rfl, rfl⟩ hst₁ hconn₁).connect ⟨rfl, rfl⟩ hst₂ hconn₂⟩

/-- The memory pool lets the payment through when the second block is the tip. -/
theorem maturityPayment_passed : ∃ inputs, PassedAtTip maturityEnv maturityFiles maturityTip.mempool
    maturityTip maturityPayment inputs := by
  obtain ⟨inputs, hfetch⟩ := Lib.exists_of_isOk (show (maturityPayment.fetchInputs maturityFiles
    maturityTip.mempool maturityTip.txdb.data.txIndex Lib.PMap.empty false false).isOk = true by decide)
  have hconn : (match maturityPayment.fetchInputs maturityFiles maturityTip.mempool
      maturityTip.txdb.data.txIndex Lib.PMap.empty false false with
    | .ok inputs => (maturityPayment.connectInputs maturityEnv maturityFiles maturityTip.nBestHeight
        maturityTip.txdb.data.txIndex inputs Lib.PMap.empty CDiskTxPos.inPool maturityTip.pindexBest
        false false).isOk
    | .error _ => false) = true := by decide
  rw [hfetch] at hconn
  obtain ⟨q', hconn⟩ := Lib.exists_of_isOk hconn
  exact ⟨inputs, .accept hfetch hconn⟩

/-- The third block comes to the payment. -/
theorem maturityPayment_fetched : ∃ inputs, FetchedInBlock maturityEnv maturityFiles maturityTip
    maturityBlock₃ (maturityIndex 3) maturityChain₂ maturityPayment inputs := by
  obtain ⟨st, hst⟩ := Lib.exists_of_isOk (show ([maturityCoinbase 5].foldlM
    (maturityBlock₃.connectTx maturityEnv maturityFiles maturityTip (maturityIndex 3) maturityChain₂)
    { nTxPos := maturityBlock₃.firstTxPos (maturityIndex 3).nBlockPos
      infos := maturityTip.infos }).isOk = true by decide)
  have hfetch : (match [maturityCoinbase 5].foldlM (maturityBlock₃.connectTx maturityEnv maturityFiles
      maturityTip (maturityIndex 3) maturityChain₂)
      { nTxPos := maturityBlock₃.firstTxPos (maturityIndex 3).nBlockPos, infos := maturityTip.infos } with
    | .ok st => (maturityPayment.fetchInputs maturityFiles maturityTip.mempool
        maturityTip.txdb.data.txIndex st.mapQueuedChanges true false).isOk
    | .error _ => false) = true := by decide
  rw [hst] at hfetch
  obtain ⟨inputs, hfetch⟩ := Lib.exists_of_isOk hfetch
  exact ⟨inputs, by decide, [maturityCoinbase 5], [], st, rfl, hst, hfetch⟩

theorem immature_never_spent_thirdBlock :
    (∃ bs s, ConnectRun maturityEnv maturityFiles [sampleGenesis] bs s ∧
      bs.map ConnectedBlock.block = [maturityBlock₁, maturityBlock₂, maturityBlock₃] ∧
      SpendsMature maturityEnv (maturityIndex 3).nHeight (MadeBy bs) maturityPayment) ∧
    ∃ inputs inputs', PassedAtTip maturityEnv maturityFiles maturityTip.mempool maturityTip
        maturityPayment inputs ∧
      FetchedInBlock maturityEnv maturityFiles maturityTip maturityBlock₃ (maturityIndex 3)
        maturityChain₂ maturityPayment inputs' ∧
      ∀ txindex txPrev txindex' txPrev', inputs 2 = some (txindex, txPrev) → txPrev.isMint = true →
        (maturityState₂.txdb.data.txIndex 2).map CTxIndex.pos = some txindex.pos →
        inputs' 2 = some (txindex', txPrev') → CTransaction.isImmature maturityEnv
          (maturityIndex 3 :: maturityChain₂) txindex' = false := by
  obtain ⟨prev₂, st₁, st₂, hrun⟩ := maturityRun
  obtain ⟨st₃, hst⟩ := Lib.exists_of_isOk (show (maturityBlock₃.connectTxs maturityEnv maturityFiles
    maturityState₂ (maturityIndex 3) maturityChain₂).isOk = true by decide)
  obtain ⟨s', hconn⟩ := Lib.exists_of_isOk (show (maturityBlock₃.connectBlock maturityEnv maturityFiles
    (maturityIndex 3) maturityChain₂ maturityState₂).isOk = true by decide)
  have hrun₃ := hrun.connect ⟨rfl, rfl⟩ hst hconn
  obtain ⟨inputs, hpassed⟩ := maturityPayment_passed
  obtain ⟨inputs', hfetched⟩ := maturityPayment_fetched
  refine ⟨⟨_, _, hrun₃, rfl, ?_⟩, inputs, inputs', hpassed, hfetched, ?_⟩
  · refine (immature_never_spent _ _ _ _ _ hrun₃ ?_ ⟨rfl, rfl, rfl, rfl, trivial⟩).1 _ _ [] rfl
      maturityPayment (List.mem_cons_of_mem _ List.mem_cons_self)
    exact List.forall_mem_cons.mpr ⟨maturityBlock₁_stored, List.forall_mem_cons.mpr
      ⟨maturityBlock₂_stored, List.forall_mem_singleton.mpr maturityBlock₃_stored⟩⟩
  · refine (immature_never_spent _ _ _ _ _ hrun ?_ ⟨rfl, rfl, rfl, trivial⟩).2 maturityTip maturityTip
      _ _ _ _ _ _ ⟨rfl, rfl⟩ rfl hpassed ⟨rfl, rfl⟩ rfl ?_ hfetched { prevout := ⟨2, 0⟩ }
      List.mem_cons_self
    · exact List.forall_mem_cons.mpr ⟨maturityBlock₁_stored,
        List.forall_mem_singleton.mpr maturityBlock₂_stored⟩
    · have h₁ : ((maturityIndex 3).nBlockPos, (maturityIndex 3).nFile)
          ≠ ((maturityIndex 1).nBlockPos, (maturityIndex 1).nFile) := by decide
      have h₂ : ((maturityIndex 3).nBlockPos, (maturityIndex 3).nFile)
          ≠ ((maturityIndex 2).nBlockPos, (maturityIndex 2).nFile) := by decide
      exact List.forall_mem_cons.mpr ⟨h₁, List.forall_mem_singleton.mpr h₂⟩

end ShinyCoin

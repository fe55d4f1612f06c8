import ShinyCoin.Chain.Money
import ShinyCoin.Wallet.Sync

/-!
# Taking a connected block off again

`DisconnectBlock` mirrors `ConnectBlock` on the index, but not on the info store: `ConnectBlock`
processes infos under the block's hash and the transaction's number, `DisconnectBlock` calls
`UndoTxInfos` with neither, and calls it for the coinbase too, whose infos nobody processed. So a
block can be taken off with its infos exactly when it has none.

That `DisconnectBlock` returns `true` at all without infos rests on the order of the transactions: an
input never refers to a transaction that comes later in the block.
-/

namespace ShinyCoin

/-! ## Infos -/

/-- The rows that carry the number of a transaction. -/
def numberedRows (t : Lib.Table TxDbEntry) : Nat := t.count fun e => e.index_tx != -1

namespace CTxInfoStore

variable {env : Env} {st st' : CTxInfoStore} {r : TxInfoRecord}

theorem process_numbered (hst : st.inTransaction = true) (h : st.process env r = .ok st') :
    numberedRows st'.db = numberedRows st.db + (if r.indexTx != -1 then 1 else 0) ∧
      st'.inTransaction = true := by
  rw [process, if_pos hst] at h
  rcases _process_cases env st r with ⟨-, n, h'⟩ | ⟨e, -, h'⟩ <;> rw [h'] at h <;> cases h
  exact ⟨latest.count_push (fun _ _ => rfl) _ _, hst⟩

theorem undo_numbered (hst : st.inTransaction = true) (hr : r.indexTx = -1)
    (h : st.undo env r = .ok st') :
    numberedRows st'.db = numberedRows st.db ∧ st'.inTransaction = true := by
  rw [undo, if_pos hst] at h
  rcases _undo_cases env st r with ⟨-, h'⟩ | ⟨-, h'⟩ <;> rw [h'] at h <;> cases h
  refine ⟨latest.count_pop (fun _ _ => rfl) ?_ _ _, hst⟩
  intro e he
  simp only [TxInfoRecord.matchesRow, Bool.and_eq_true, beq_iff_eq] at he
  simp [he.1.1.2, hr]

end CTxInfoStore

namespace CTransaction

variable {env : Env} {files : Files} {txdb : TxIndexMap} {tx : CTransaction}
  {st st' : CTxInfoStore} {blockHash : Uint256} {nTxInBlock : ℤ}

/-- None of the transaction's inputs carries infos. -/
def NoInfos (tx : CTransaction) : Prop := ∀ txin ∈ tx.vin, txin.infos = []

theorem mem_vin_of_mem_zipIdx {x : CTxIn × Nat} (hx : x ∈ tx.vin.zipIdx) : x.1 ∈ tx.vin := by
  rw [← List.zipIdx_map_fst 0 tx.vin]
  exact List.mem_map_of_mem hx

/-- Without infos there is nothing to process or to undo. -/
theorem _procUndoTxInfos_of_noInfos {undoing : Bool} (hst : st.inTransaction = true)
    (h : tx.NoInfos) :
    tx._procUndoTxInfos env files txdb undoing blockHash nTxInBlock st = .ok st := by
  have loop : ∀ xs : List (CTxIn × Nat), (∀ x ∈ xs, x.1.infos = []) →
      xs.foldlM (procUndoTxIn env files txdb undoing blockHash nTxInBlock) st = .ok st := by
    intro xs
    induction xs with
    | nil => intro _; rfl
    | cons x xs ih =>
        intro hx
        rw [List.foldlM_cons, procUndoTxIn, hx x List.mem_cons_self]
        exact ih (fun y hy => hx y (List.mem_cons_of_mem _ hy))
  rw [_procUndoTxInfos, if_pos hst]
  apply loop
  intro x hx
  apply h x.1 (mem_vin_of_mem_zipIdx _)
  cases undoing with
  | false => exact hx
  | true => exact List.mem_reverse.mp hx

/-- An input whose infos went through has none, or its previous output is on disk and pays to an
address. -/
theorem procUndoTxIn_ok {undoing : Bool} {x : CTxIn × Nat}
    (h : procUndoTxIn env files txdb undoing blockHash nTxInBlock st x = .ok st') :
    (x.1.infos = [] ∧ st' = st) ∨ ∃ prevTx txout addr,
      readDiskTx files txdb x.1.prevout.hash = some prevTx ∧
      prevTx.vout[x.1.prevout.n]? = some txout ∧
      env.extractAddress txout.scriptPubKey = some addr ∧
      (if undoing then
          (infoRecords addr blockHash nTxInBlock x).reverse.foldlM (fun st r => st.undo env r) st
        else (infoRecords addr blockHash nTxInBlock x).foldlM (fun st r => st.process env r) st)
        = .ok st' := by
  rw [procUndoTxIn] at h
  split at h
  · next hempty =>
    cases h
    exact .inl ⟨List.isEmpty_iff.mp hempty, rfl⟩
  · split at h
    · cases h
    · next prevTx hread =>
      split at h
      · cases h
      · next txout hout =>
        split at h
        · cases h
        · next addr haddr => exact .inr ⟨prevTx, txout, addr, hread, hout, haddr, h⟩

theorem indexTx_of_mem_infoRecords {addr : CBitcoinAddress} {x : CTxIn × Nat} {r : TxInfoRecord}
    (hr : r ∈ infoRecords addr blockHash nTxInBlock x) : r.indexTx = nTxInBlock := by
  obtain ⟨y, -, rfl⟩ := List.mem_map.mp hr
  rfl

/-- The infos of one input were processed: each left a row with the transaction's number. -/
theorem procTxIn_numbered {x : CTxIn × Nat} (hn : nTxInBlock ≠ -1)
    (hst : st.inTransaction = true)
    (h : procUndoTxIn env files txdb false blockHash nTxInBlock st x = .ok st') :
    numberedRows st'.db = numberedRows st.db + x.1.infos.length ∧ st'.inTransaction = true := by
  have loop : ∀ (rs : List TxInfoRecord) (s s' : CTxInfoStore), s.inTransaction = true →
      (∀ r ∈ rs, r.indexTx = nTxInBlock) → rs.foldlM (fun st r => st.process env r) s = .ok s' →
      numberedRows s'.db = numberedRows s.db + rs.length ∧ s'.inTransaction = true := by
    intro rs
    induction rs with
    | nil =>
        intro s s' hs _ h
        cases h
        exact ⟨rfl, hs⟩
    | cons r rs ih =>
        intro s s' hs hr h
        obtain ⟨s₁, h₁, h⟩ := Lib.bind_eq_ok.mp h
        obtain ⟨hnum, hs₁⟩ := CTxInfoStore.process_numbered hs h₁
        obtain ⟨hnum', hs'⟩ := ih s₁ s' hs₁ (fun r' hr' => hr r' (List.mem_cons_of_mem _ hr')) h
        refine ⟨?_, hs'⟩
        rw [hnum', hnum, hr r List.mem_cons_self, if_pos (by simpa using hn), List.length_cons]
        omega
  rcases procUndoTxIn_ok h with ⟨hempty, rfl⟩ | ⟨prevTx, txout, addr, -, -, -, h⟩
  · rw [hempty]
    exact ⟨rfl, hst⟩
  · have := loop _ st st' hst (fun r => indexTx_of_mem_infoRecords) h
    simpa [infoRecords] using this

theorem processTxInfos_numbered (hn : nTxInBlock ≠ -1)
    (h : tx.processTxInfos env files txdb st blockHash nTxInBlock = .ok st') :
    numberedRows st'.db = numberedRows st.db + tx.countInfoTxs ∧ st'.inTransaction = true := by
  rw [processTxInfos, _procUndoTxInfos] at h
  split at h
  · next hst =>
    have loop : ∀ (xs : List (CTxIn × Nat)) (s s' : CTxInfoStore), s.inTransaction = true →
        xs.foldlM (procUndoTxIn env files txdb false blockHash nTxInBlock) s = .ok s' →
        numberedRows s'.db = numberedRows s.db + (xs.map fun x => x.1.infos.length).sum ∧
          s'.inTransaction = true := by
      intro xs
      induction xs with
      | nil =>
          intro s s' hs h
          cases h
          exact ⟨rfl, hs⟩
      | cons x xs ih =>
          intro s s' hs h
          obtain ⟨s₁, h₁, h⟩ := Lib.bind_eq_ok.mp h
          obtain ⟨hnum, hs₁⟩ := procTxIn_numbered hn hs h₁
          obtain ⟨hnum', hs'⟩ := ih s₁ s' hs₁ h
          refine ⟨?_, hs'⟩
          rw [hnum', hnum, List.map_cons, List.sum_cons]
          omega
    have := loop _ _ _ hst (by simpa using h)
    rw [show (fun x : CTxIn × Nat => x.1.infos.length)
      = (fun txin : CTxIn => txin.infos.length) ∘ Prod.fst from rfl, ← List.map_map,
      List.zipIdx_map_fst] at this
    exact this
  · cases h

/-- Undoing with the default number takes no numbered row away. -/
theorem undoTxInfos_numbered (h : tx.undoTxInfos env files txdb st = .ok st') :
    numberedRows st'.db = numberedRows st.db ∧ st'.inTransaction = true := by
  have records : ∀ (rs : List TxInfoRecord) (s s' : CTxInfoStore), s.inTransaction = true →
      (∀ r ∈ rs, r.indexTx = -1) → rs.foldlM (fun st r => st.undo env r) s = .ok s' →
      numberedRows s'.db = numberedRows s.db ∧ s'.inTransaction = true := by
    intro rs s s' hs hr h
    obtain ⟨-, hnum⟩ := Lib.foldlM_ok_inv
      (fun rest s₁ => (∀ r ∈ rest, r.indexTx = -1) ∧
        numberedRows s₁.db = numberedRows s.db ∧ s₁.inTransaction = true)
      (fun r rest s₁ s₂ hI hstep => by
        obtain ⟨hall, hnum, hs₁⟩ := hI
        obtain ⟨hnum', hs₂⟩ := CTxInfoStore.undo_numbered hs₁ (hall r List.mem_cons_self) hstep
        exact ⟨fun r' hr' => hall r' (List.mem_cons_of_mem _ hr'), hnum'.trans hnum, hs₂⟩)
      ⟨hr, rfl, hs⟩ h
    exact hnum
  rw [undoTxInfos, _procUndoTxInfos] at h
  split at h
  · next hst =>
    refine Lib.foldlM_ok_inv
      (fun _ s => numberedRows s.db = numberedRows st.db ∧ s.inTransaction = true) ?_
      ⟨rfl, hst⟩ h
    rintro x xs s s' ⟨hnum, hs⟩ hstep
    rcases procUndoTxIn_ok hstep with ⟨-, rfl⟩ | ⟨prevTx, txout, addr, -, -, -, hstep⟩
    · exact ⟨hnum, hs⟩
    · obtain ⟨hnum', hs'⟩ := records _ s s' hs
        (fun r hr => indexTx_of_mem_infoRecords (List.mem_reverse.mp hr)) hstep
      exact ⟨hnum'.trans hnum, hs'⟩
  · cases h

/-- A coinbase with infos cannot be undone: no transaction has the output its input names. -/
theorem noInfos_of_undoTxInfos_coinbase (hcb : tx.isCoinBase = true)
    (h : tx.undoTxInfos env files txdb st = .ok st') : tx.NoInfos := by
  rw [isCoinBase] at hcb
  split at hcb
  · next txin hvin =>
    rw [Bool.and_eq_true] at hcb
    have hnull := hcb.1
    rw [COutPoint.isNull, Bool.and_eq_true, beq_iff_eq, beq_iff_eq] at hnull
    rw [undoTxInfos, _procUndoTxInfos] at h
    split at h
    · rw [if_pos rfl, hvin] at h
      obtain ⟨st₁, h₁, -⟩ := Lib.bind_eq_ok.mp h
      rw [NoInfos, hvin]
      intro txin' htxin'
      rw [List.mem_singleton.mp htxin']
      rcases procUndoTxIn_ok h₁ with ⟨hempty, -⟩ | ⟨prevTx, txout, addr, hread, hout, -, -⟩
      · exact hempty
      · -- a transaction read from disk has no output number 2^32 - 1
        exfalso
        rw [readDiskTx, Option.bind_eq_some_iff] at hread
        obtain ⟨txindex, -, hread⟩ := hread
        obtain ⟨-, -, hlen⟩ := Files.readTx_eq_some.mp hread
        have hlt := (List.getElem?_eq_some_iff.mp hout).1
        have hmax : MAX_SIZE < UINT_MAX := by decide
        simp only [hnull.2] at hlt
        omega
    · cases h
  · exact absurd hcb Bool.false_ne_true

end CTransaction

/-! ## The index -/

/-- The outpoint has a slot in the index. -/
def Indexed (m : TxIndexMap) (o : COutPoint) : Prop :=
  ∃ txindex, m o.hash = some txindex ∧ o.n < txindex.vSpent.length

theorem Unspent.indexed {m : TxIndexMap} {o : COutPoint} (h : Unspent m o) : Indexed m o := by
  obtain ⟨txindex, p, hidx, hslot, -⟩ := h
  exact ⟨txindex, hidx, (List.getElem?_eq_some_iff.mp hslot).1⟩

theorem Indexed.spend {m : TxIndexMap} {o : COutPoint} (h : Indexed m o) (pos : CDiskTxPos)
    (o' : COutPoint) : Indexed (spend pos m o') o := by
  obtain ⟨txindex, hidx, hn⟩ := h
  rw [Indexed, spend_apply, hidx]
  refine ⟨_, rfl, ?_⟩
  split
  · simpa using hn
  · exact hn

theorem Indexed.set_of_ne {m : TxIndexMap} {o : COutPoint} (h : Indexed m o) {k : Uint256}
    (hk : o.hash ≠ k) (txindex : CTxIndex) : Indexed (m.set k txindex) o := by
  obtain ⟨txindex₀, hidx, hn⟩ := h
  exact ⟨txindex₀, by rw [Lib.PMap.set_of_ne hk]; exact hidx, hn⟩

theorem Indexed.spends {pos : CDiskTxPos} {os : List COutPoint} {m : TxIndexMap} {o : COutPoint}
    (h : Indexed m o) : Indexed (os.foldl (ShinyCoin.spend pos) m) o := by
  induction os generalizing m with
  | nil => exact h
  | cons o' os ih => exact ih (h.spend pos o')

/-- What was spent has a slot afterwards. -/
theorem SpendsUnspent.indexed {pos : CDiskTxPos} {os : List COutPoint} {m : TxIndexMap}
    (h : SpendsUnspent pos m os) : ∀ o ∈ os, Indexed (os.foldl (spend pos) m) o := by
  induction os generalizing m with
  | nil => simp
  | cons o os ih =>
      intro o' ho'
      rcases List.mem_cons.mp ho' with rfl | ho'
      · exact (h.1.indexed.spend pos o').spends
      · exact ih h.2 o' ho'

/-- No input of `tx` refers to `tx'`. -/
def RefersNot (env : Env) (tx tx' : CTransaction) : Prop :=
  tx.isCoinBase = false → ∀ txin ∈ tx.vin, txin.prevout.hash ≠ env.getHash tx'

/-- The slots a transaction fills are in the index. -/
def InputsIndexed (m : TxIndexMap) (tx : CTransaction) : Prop :=
  tx.isCoinBase = false → ∀ txin ∈ tx.vin, Indexed m txin.prevout

/-- What the loop of `ConnectBlock` establishes for the transactions it has done with. -/
structure OrderInv (env : Env) (s : NodeState) (done rest : List CTransaction)
    (st : ConnectState) : Prop where
  fresh : ∀ tx ∈ rest, FullySpent (st.index s) (env.getHash tx)
  nodup : (rest.map env.getHash).Nodup
  indexed : ∀ tx ∈ done, InputsIndexed (st.index s) tx
  ordered : done.Pairwise (RefersNot env)
  later : ∀ tx ∈ done, ∀ tx' ∈ rest, RefersNot env tx tx'

theorem OrderInv.step {env : Env} {files : Files} {s : NodeState} {block : CBlock}
    {pindex : CBlockIndex} {done rest : List CTransaction} {tx : CTransaction}
    {st st' : ConnectState} {nTxValueIn nTxValueOut : ℤ}
    (hI : OrderInv env s done (tx :: rest) st)
    (h : TxConnected env files s block pindex st tx st' nTxValueIn nTxValueOut) :
    OrderInv env s (done ++ [tx]) rest st' := by
  obtain ⟨hhash, hnodup⟩ := List.nodup_cons.mp hI.nodup
  -- the spends touch none of the entries still to come, nor the transaction's own
  have hspends : tx.isCoinBase = false →
      SpendsUnspent (st.posThisTx pindex) (st.index s) (tx.vin.map CTxIn.prevout) := by
    intro hcb
    obtain ⟨inputs, hspent, -⟩ := h.spends hcb
    exact hspent.unspent
  have hself : ∀ tx' ∈ tx :: rest, RefersNot env tx tx' := by
    intro tx' htx' hcb txin htxin
    exact ((hI.fresh tx' htx').spends (hspends hcb)).1 _ (List.mem_map_of_mem htxin)
  have hsame : ∀ k, FullySpent (st.index s) k →
      spendInputs (st.posThisTx pindex) (st.index s) tx k = st.index s k := by
    intro k hk
    rw [spendInputs]
    split
    · rfl
    · next hcb => exact (hk.spends (hspends (by simpa using hcb))).2
  have hindexed : ∀ o, Indexed (st.index s) o → o.hash ≠ env.getHash tx →
      Indexed (st'.index s) o := by
    intro o ho hne
    rw [h.index, applyTx]
    refine Indexed.set_of_ne ?_ hne _
    rw [spendInputs]
    split
    · exact ho
    · exact ho.spends
  refine ⟨?_, hnodup, ?_, ?_, ?_⟩
  · intro tx' htx'
    have hne : env.getHash tx' ≠ env.getHash tx := by
      intro heq
      exact hhash (heq ▸ List.mem_map_of_mem htx')
    have hf := hI.fresh tx' (List.mem_cons_of_mem _ htx')
    rw [FullySpent, h.index, applyTx, Lib.PMap.set_of_ne hne, hsame _ hf]
    exact hf
  · intro tx' htx'
    rcases List.mem_append.mp htx' with htx' | htx'
    · intro hcb txin htxin
      exact hindexed _ (hI.indexed tx' htx' hcb txin htxin)
        (hI.later tx' htx' tx List.mem_cons_self hcb txin htxin)
    · rw [List.mem_singleton.mp htx']
      intro hcb txin htxin
      rw [h.index, applyTx]
      refine Indexed.set_of_ne ?_ (hself tx List.mem_cons_self hcb txin htxin) _
      rw [spendInputs, hcb, if_neg Bool.false_ne_true]
      exact (hspends hcb).indexed _ (List.mem_map_of_mem htxin)
  · rw [List.pairwise_append]
    refine ⟨hI.ordered, List.pairwise_singleton _ _, ?_⟩
    intro tx' htx' tx'' htx''
    rw [List.mem_singleton.mp htx'']
    exact hI.later tx' htx' tx List.mem_cons_self
  · intro tx' htx' tx'' htx''
    rcases List.mem_append.mp htx' with htx' | htx'
    · exact hI.later tx' htx' tx'' (List.mem_cons_of_mem _ htx'')
    · rw [List.mem_singleton.mp htx']
      exact hself tx'' (List.mem_cons_of_mem _ htx'')

/-- After `ConnectBlock` every input of the block has its slot, and refers to no transaction that
comes later in the block. -/
theorem CBlock.connectTxs_order {env : Env} {files : Files} {s : NodeState} {block : CBlock}
    {pindex : CBlockIndex} {pprev : BlockPtr} {st : ConnectState}
    (hcheck : block.checkConnect env s pindex = .ok ())
    (h : block.connectTxs env files s pindex pprev = .ok st) :
    block.vtx.Pairwise (RefersNot env) ∧ ∀ tx ∈ block.vtx, InputsIndexed (st.index s) tx := by
  obtain ⟨hblock, hover⟩ := checkConnect_ok hcheck
  have hstart : OrderInv env s [] block.vtx
      { nTxPos := block.firstTxPos pindex.nBlockPos, infos := s.infos } := by
    refine ⟨?_, hblock.nodup, by simp, List.Pairwise.nil, by simp⟩
    intro tx htx
    rw [ConnectState.index, Lib.PMap.empty_layer]
    exact hover tx htx
  obtain ⟨done, hdone, hI⟩ := Lib.foldlM_ok_inv
    (fun rest st => ∃ done, done ++ rest = block.vtx ∧ OrderInv env s done rest st)
    (fun tx rest st st' hI hstep => by
      obtain ⟨done, hdone, hI⟩ := hI
      obtain ⟨nTxValueIn, nTxValueOut, hconn⟩ := connectTx_ok hstep
      exact ⟨done ++ [tx], by simpa using hdone, hI.step hconn⟩)
    ⟨[], rfl, hstart⟩ h
  rw [List.append_nil] at hdone
  rw [← hdone]
  exact ⟨hI.ordered, hI.indexed⟩

/-- Relinquishing an input is setting its slot back to null. -/
theorem CTransaction.disconnectInput_of_indexed {m : TxIndexMap} {txin : CTxIn}
    (h : Indexed m txin.prevout) :
    disconnectInput m txin = .ok (spend CDiskTxPos.null m txin.prevout) := by
  obtain ⟨txindex, hidx, hn⟩ := h
  rw [disconnectInput, hidx, spend_of_some hidx]
  exact if_pos hn

theorem CTransaction.disconnectInputs_of_indexed {env : Env} {m : TxIndexMap} {tx : CTransaction}
    (h : InputsIndexed m tx) :
    tx.disconnectInputs env m
      = .ok ((spendInputs CDiskTxPos.null m tx).erase (env.getHash tx)) := by
  have loop : ∀ (txins : List CTxIn) (m : TxIndexMap), (∀ txin ∈ txins, Indexed m txin.prevout) →
      txins.foldlM disconnectInput m
        = .ok ((txins.map CTxIn.prevout).foldl (spend CDiskTxPos.null) m) := by
    intro txins
    induction txins with
    | nil => intro m _; rfl
    | cons txin txins ih =>
        intro m hm
        rw [List.foldlM_cons, disconnectInput_of_indexed (hm txin List.mem_cons_self)]
        exact ih _ (fun txin' h' => (hm txin' (List.mem_cons_of_mem _ h')).spend _ _)
  have hrel : tx.relinquishInputs m = .ok (spendInputs CDiskTxPos.null m tx) := by
    rw [relinquishInputs, spendInputs]
    split
    · rfl
    · next hcb => exact loop _ _ (h (by simpa using hcb))
  rw [disconnectInputs, hrel]
  rfl

/-- Taking a transaction off leaves the slots of the others, unless they are slots of its own. -/
theorem Indexed.disconnectInputs {env : Env} {m : TxIndexMap} {tx : CTransaction} {o : COutPoint}
    (h : Indexed m o) (hne : o.hash ≠ env.getHash tx) :
    Indexed ((spendInputs CDiskTxPos.null m tx).erase (env.getHash tx)) o := by
  have hsp : Indexed (spendInputs CDiskTxPos.null m tx) o := by
    rw [spendInputs]
    split
    · exact h
    · exact h.spends
  obtain ⟨txindex, hidx, hn⟩ := hsp
  exact ⟨txindex, by rw [Lib.PMap.erase_of_ne hne]; exact hidx, hn⟩

namespace CBlock

variable {env : Env} {files : Files} {s s' : NodeState} {block : CBlock} {pindex : CBlockIndex}
  {pprev : BlockPtr} {st : ConnectState}

/-! ## The loops and the infos -/

/-- `ConnectBlock` leaves a numbered row for every info of a transaction that is no coinbase. -/
theorem connectTxs_numbered (hst : s.infos.inTransaction = true)
    (h : block.connectTxs env files s pindex pprev = .ok st) :
    numberedRows st.infos.db = numberedRows s.infos.db
        + (block.vtx.map fun tx => if tx.isCoinBase then 0 else tx.countInfoTxs).sum ∧
      st.infos.inTransaction = true := by
  obtain ⟨done, hdone, hnum, hin⟩ := Lib.foldlM_ok_inv
    (fun rest st => ∃ done, done ++ rest = block.vtx ∧
      numberedRows st.infos.db = numberedRows s.infos.db
        + (done.map fun tx => if tx.isCoinBase then 0 else tx.countInfoTxs).sum ∧
      st.infos.inTransaction = true)
    (fun tx rest st st' hI hstep => by
      obtain ⟨done, hdone, hnum, hin⟩ := hI
      obtain ⟨nTxValueIn, nTxValueOut, hconn⟩ := connectTx_ok hstep
      refine ⟨done ++ [tx], by simpa using hdone, ?_⟩
      rw [List.map_append, List.sum_append, List.map_singleton, List.sum_singleton]
      cases hcb : tx.isCoinBase with
      | true =>
          rw [(hconn.coinbase hcb).2, if_pos rfl]
          exact ⟨hnum, hin⟩
      | false =>
          obtain ⟨inputs, -, -, hinfos⟩ := hconn.spends hcb
          obtain ⟨hnum', hin'⟩ := CTransaction.processTxInfos_numbered (by omega) hinfos
          rw [if_neg Bool.false_ne_true]
          exact ⟨by rw [hnum', hnum]; omega, hin'⟩)
    ⟨[], rfl, by simp, hst⟩ h
  rw [List.append_nil] at hdone
  rw [← hdone]
  exact ⟨hnum, hin⟩

/-- Without infos `ConnectBlock` leaves the store as it is. -/
theorem connectTxs_noInfos (hst : s.infos.inTransaction = true)
    (hno : ∀ tx ∈ block.vtx, tx.NoInfos)
    (h : block.connectTxs env files s pindex pprev = .ok st) : st.infos = s.infos := by
  obtain ⟨-, hinfos⟩ := Lib.foldlM_ok_inv
    (fun rest (st : ConnectState) => (∀ tx ∈ rest, tx.NoInfos) ∧ st.infos = s.infos)
    (fun tx rest st st' hI hstep => by
      obtain ⟨hno, hinfos⟩ := hI
      obtain ⟨nTxValueIn, nTxValueOut, hconn⟩ := connectTx_ok hstep
      refine ⟨fun tx' htx' => hno tx' (List.mem_cons_of_mem _ htx'), ?_⟩
      cases hcb : tx.isCoinBase with
      | true => rw [(hconn.coinbase hcb).2, hinfos]
      | false =>
          obtain ⟨inputs, -, -, hproc⟩ := hconn.spends hcb
          rw [CTransaction.processTxInfos, CTransaction._procUndoTxInfos_of_noInfos
            (by rw [hinfos]; exact hst) (hno tx List.mem_cons_self)] at hproc
          rw [← Except.ok.inj hproc, hinfos])
    ⟨hno, rfl⟩ h
  exact hinfos

theorem disconnectTx_ok {tx : CTransaction} (h : disconnectTx env files s tx = .ok s') :
    ∃ m infos, tx.disconnectInputs env s.txdb.data.txIndex = .ok m ∧
      tx.undoTxInfos env files m s.infos = .ok infos ∧
      s' = { s.updateDb (fun d => { d with txIndex := m }) with infos := infos } := by
  rw [disconnectTx] at h
  split at h
  · next m hm =>
    rw [undoInfosOf] at h
    split at h
    · next infos hinfos =>
      cases h
      exact ⟨m, infos, hm, hinfos, rfl⟩
    · cases h
  · cases h

/-- `DisconnectBlock` takes no numbered row away, and cannot get past a coinbase with infos. -/
theorem disconnectTxs_numbered {txs : List CTransaction}
    (h : txs.foldlM (disconnectTx env files) s = .ok s') :
    numberedRows s'.infos.db = numberedRows s.infos.db ∧
      ∀ tx ∈ txs, tx.isCoinBase = true → tx.NoInfos := by
  induction txs generalizing s with
  | nil =>
      cases h
      exact ⟨rfl, by simp⟩
  | cons tx txs ih =>
      obtain ⟨s₁, h₁, h⟩ := Lib.bind_eq_ok.mp h
      obtain ⟨m, infos, -, hundo, rfl⟩ := disconnectTx_ok h₁
      obtain ⟨hnum, hall⟩ := ih h
      refine ⟨?_, List.forall_mem_cons.mpr
        ⟨fun hcb => CTransaction.noInfos_of_undoTxInfos_coinbase hcb hundo, hall⟩⟩
      rw [hnum]
      exact (CTransaction.undoTxInfos_numbered hundo).1

/-- Without infos the loop of `DisconnectBlock` runs through: what is erased on the way is no
previous transaction of anything still to come. -/
theorem disconnectTxs_noInfos (env : Env) (files : Files) {txs : List CTransaction} (hst : s.infos.inTransaction = true)
    (hord : txs.Pairwise (RefersNot env))
    (hidx : ∀ tx ∈ txs, InputsIndexed s.txdb.data.txIndex tx) (hno : ∀ tx ∈ txs, tx.NoInfos) :
    ∃ s', txs.reverse.foldlM (disconnectTx env files) s = .ok s' ∧ s'.infos = s.infos ∧
      s'.wallets = s.wallets := by
  induction txs using List.reverseRecOn generalizing s with
  | nil => exact ⟨s, rfl, rfl, rfl⟩
  | append_singleton txs tx ih =>
      obtain ⟨hord', -, hlast⟩ := List.pairwise_append.mp hord
      have htx : disconnectTx env files s tx = .ok (s.updateDb fun d => { d with
          txIndex := (spendInputs CDiskTxPos.null d.txIndex tx).erase (env.getHash tx) }) := by
        have hundo : ∀ m, tx.undoTxInfos env files m s.infos = .ok s.infos := fun m =>
          CTransaction._procUndoTxInfos_of_noInfos hst (hno tx (by simp))
        rw [disconnectTx, CTransaction.disconnectInputs_of_indexed (hidx tx (by simp))]
        simp only [undoInfosOf, NodeState.updateDb, hundo]
      obtain ⟨s', hs', hinfos, hws⟩ := ih (s := s.updateDb fun d => { d with
          txIndex := (spendInputs CDiskTxPos.null d.txIndex tx).erase (env.getHash tx) }) hst hord'
        (by
          intro tx' htx' hcb txin htxin
          exact (hidx tx' (by simp [htx']) hcb txin htxin).disconnectInputs
            (hlast tx' htx' tx List.mem_cons_self hcb txin htxin))
        (fun tx' htx' => hno tx' (by simp [htx']))
      refine ⟨s', ?_, hinfos, hws⟩
      rw [List.reverse_append, List.reverse_singleton, List.singleton_append, List.foldlM_cons, htx]
      exact hs'

end CBlock

/-! ## Wallets

`DisconnectBlock` ends with the wallets, and `GetDebit` throws when the inputs of a coinstake are
worth more than all the money there may be. They are not, because `ConnectInputs` added them up
too; but the wallet reads the previous transactions from its own map, so this needs that a hash
stands for one transaction. -/

/-- The node knows the transaction under this hash: from a wallet, from the index, or from the
block. -/
def KnownAs (env : Env) (files : Files) (s : NodeState) (block : CBlock) (h : Uint256)
    (tx : CTransaction) : Prop :=
  (∃ w ∈ s.wallets, ∃ wtx, w.mapWallet h = some wtx ∧ wtx.tx = tx) ∨
  (∃ txindex, s.txdb.data.txIndex h = some txindex ∧
    CTransaction.readTxPrev files s.mempool h txindex = .ok tx) ∨
  (tx ∈ block.vtx ∧ env.getHash tx = h)

/-- Hashes do not collide on the transactions the node knows. -/
def CollisionFree (env : Env) (files : Files) (s : NodeState) (block : CBlock) : Prop :=
  ∀ h tx tx', KnownAs env files s block h tx → KnownAs env files s block h tx' → tx = tx'

/-- The inputs are outputs of known transactions, and together not worth more than `MAX_MONEY`. -/
def Affordable (known : Uint256 → CTransaction → Prop) (tx : CTransaction) : Prop :=
  ∃ value : CTxIn → ℤ, (tx.vin.map value).sum ≤ MAX_MONEY ∧
    ∀ txin ∈ tx.vin, 0 ≤ value txin ∧ ∃ txPrev, known txin.prevout.hash txPrev ∧
      txPrev.vout[txin.prevout.n]?.map CTxOut.nValue = some (value txin)

/-- A wallet that holds known transactions can tell what an affordable transaction costs it. -/
theorem CWallet.isFromMe_isOk {known : Uint256 → CTransaction → Prop}
    (hone : ∀ h tx tx', known h tx → known h tx' → tx = tx') {w : CWallet}
    (hw : WalletTxs known w) {tx : CTransaction} (htx : Affordable known tx) :
    ∃ b, w.isFromMe tx = .ok b := by
  obtain ⟨value, hsum, hval⟩ := htx
  have hin : ∀ txin ∈ tx.vin, 0 ≤ w.getDebitIn txin ∧ w.getDebitIn txin ≤ value txin := by
    intro txin htxin
    obtain ⟨hpos, txPrev, hknown, hout⟩ := hval txin htxin
    rw [getDebitIn, ownOutput]
    cases hm : w.mapWallet txin.prevout.hash with
    | none => exact ⟨le_rfl, hpos⟩
    | some wtx =>
        rw [Option.bind_some, hone _ _ _ (hw _ _ hm) hknown]
        cases hv : txPrev.vout[txin.prevout.n]? with
        | none => rw [hv] at hout; cases hout
        | some txout =>
            rw [hv, Option.map_some, Option.some.injEq] at hout
            rw [Option.filter_some]
            split
            · rw [Option.map_some, Option.getD_some, hout]
              exact ⟨hpos, le_rfl⟩
            · exact ⟨le_rfl, hpos⟩
  have loop : ∀ (txins : List CTxIn) (nDebit : ℤ), 0 ≤ nDebit →
      nDebit + (txins.map value).sum ≤ MAX_MONEY →
      (∀ txin ∈ txins, 0 ≤ w.getDebitIn txin ∧ w.getDebitIn txin ≤ value txin) →
      ∃ v, txins.foldlM (fun nDebit txin => do
        let nDebit := int64 (nDebit + w.getDebitIn txin)
        Lib.require (moneyRange nDebit) (Err.exc "CWallet::GetDebit() : value out of range")
        return nDebit) nDebit = .ok v := by
    intro txins
    induction txins with
    | nil => intro nDebit _ _ _; exact ⟨nDebit, rfl⟩
    | cons txin txins ih =>
        intro nDebit hpos hle hall
        obtain ⟨h1, h2⟩ := hall txin List.mem_cons_self
        have hrest : 0 ≤ (txins.map value).sum := by
          apply List.sum_nonneg
          intro z hz
          obtain ⟨txin', htxin', rfl⟩ := List.mem_map.mp hz
          have := hall txin' (List.mem_cons_of_mem _ htxin')
          omega
        rw [List.map_cons, List.sum_cons] at hle
        have hmax : MAX_MONEY = 2000000000000000 := by decide
        have h64 : int64 (nDebit + w.getDebitIn txin) = nDebit + w.getDebitIn txin :=
          int64_of_moneyRange (by omega) (by omega)
        have hr : moneyRange (nDebit + w.getDebitIn txin) = true :=
          moneyRange_iff.mpr ⟨by omega, by omega⟩
        obtain ⟨v, hv⟩ := ih (nDebit + w.getDebitIn txin) (by omega) (by omega)
          (fun txin' h' => hall txin' (List.mem_cons_of_mem _ h'))
        refine ⟨v, ?_⟩
        rw [List.foldlM_cons]
        simp only [h64, hr, Lib.require, if_true, bind, Except.bind, pure, Except.pure]
        exact hv
  obtain ⟨v, hv⟩ := loop tx.vin 0 le_rfl (by rw [zero_add]; exact hsum) hin
  exact ⟨decide (0 < v), by rw [isFromMe, getDebit, hv]; rfl⟩

section

variable {env : Env} {files : Files} {s : NodeState} {block : CBlock} {pindex : CBlockIndex}

/-- Whatever an entry of the loop's index points to is known. -/
def IndexKnown (env : Env) (files : Files) (s : NodeState) (block : CBlock)
    (m : TxIndexMap) : Prop :=
  ∀ h txindex txPrev, m h = some txindex →
    CTransaction.readTxPrev files s.mempool h txindex = .ok txPrev →
    KnownAs env files s block h txPrev

theorem IndexKnown.spends {pos : CDiskTxPos} {os : List COutPoint} {m : TxIndexMap}
    (h : IndexKnown env files s block m) :
    IndexKnown env files s block (os.foldl (spend pos) m) := by
  induction os generalizing m with
  | nil => exact h
  | cons o os ih =>
      apply ih
      intro k txindex txPrev hidx hread
      rw [spend_apply, Option.map_eq_some_iff] at hidx
      obtain ⟨txindex₀, hidx, rfl⟩ := hidx
      refine h k txindex₀ txPrev hidx ?_
      have hpos : (if k = o.hash then { txindex₀ with vSpent := txindex₀.vSpent.set o.n pos }
          else txindex₀).pos = txindex₀.pos := by split <;> rfl
      rw [CTransaction.readTxPrev, hpos] at hread
      exact hread

/-- What the loop of `ConnectBlock` has added up for the transactions it has done with. -/
structure ValueInv (env : Env) (files : Files) (s : NodeState) (block : CBlock)
    (pindex : CBlockIndex) (done rest : List CTransaction) (st : ConnectState) : Prop where
  known : IndexKnown env files s block (st.index s)
  stored : TxsStored files pindex rest st.nTxPos
  nTxPos : 1 < st.nTxPos
  affordable : ∀ tx ∈ done, tx.isCoinBase = false → Affordable (KnownAs env files s block) tx

theorem ValueInv.step {done rest : List CTransaction} {tx : CTransaction} {st st' : ConnectState}
    {nTxValueIn nTxValueOut : ℤ} (htx : tx ∈ block.vtx)
    (hI : ValueInv env files s block pindex done (tx :: rest) st)
    (h : TxConnected env files s block pindex st tx st' nTxValueIn nTxValueOut) :
    ValueInv env files s block pindex (done ++ [tx]) rest st' := by
  obtain ⟨hread, hstored⟩ : files.readTx (st.posThisTx pindex) = some tx ∧
    TxsStored files pindex rest (st.nTxPos + tx.getSerializeSize) := hI.stored
  have hpool := st.posThisTx_ne_inPool pindex hI.nTxPos
  refine ⟨?_, by rw [h.nTxPos]; exact hstored, by rw [h.nTxPos]; have := hI.nTxPos; omega, ?_⟩
  · intro k txindex txPrev hidx hprev
    rw [h.index, applyTx, Lib.PMap.set_apply] at hidx
    split at hidx
    · next hk =>
      -- the entry of the transaction itself
      cases hidx
      rw [CTransaction.readTxPrev, CTxIndex.new, if_neg hpool, hread] at hprev
      cases hprev
      exact .inr (.inr ⟨htx, hk.symm⟩)
    · have hspent : IndexKnown env files s block (spendInputs (st.posThisTx pindex) (st.index s) tx) := by
        rw [spendInputs]
        split
        · exact hI.known
        · exact hI.known.spends
      exact hspent k txindex txPrev hidx hprev
  · intro tx' htx' hcb
    rcases List.mem_append.mp htx' with htx' | htx'
    · exact hI.affordable tx' htx' hcb
    · rw [List.mem_singleton.mp htx'] at hcb ⊢
      obtain ⟨inputs, hspent, -, -⟩ := h.spends hcb
      refine ⟨CTransaction.prevValue inputs, (moneyRange_iff.mp hspent.moneyRange).2, ?_⟩
      intro txin htxin
      obtain ⟨txindex, txPrev, hin, hn, -⟩ := hspent.range txin htxin
      obtain ⟨hidx, hprev⟩ := hspent.fetched _ _ _ hin
      refine ⟨(moneyRange_iff.mp (hspent.values txin htxin)).1, txPrev,
        hI.known _ _ _ hidx hprev, ?_⟩
      rw [CTransaction.prevValue, hin, Option.bind_some]
      simp [List.getElem?_eq_getElem hn]

/-- After the loop of `ConnectBlock` its index points to known transactions, and what it has added
up is affordable. -/
theorem CBlock.connectTxs_valueInv {pprev : BlockPtr} {st : ConnectState}
    (hstored : block.Stored files pindex)
    (h : block.connectTxs env files s pindex pprev = .ok st) :
    ValueInv env files s block pindex block.vtx [] st := by
  have hstart : ValueInv env files s block pindex [] block.vtx
      { nTxPos := block.firstTxPos pindex.nBlockPos, infos := s.infos } := by
    refine ⟨?_, hstored, block.one_lt_firstTxPos _, by simp⟩
    intro k txindex txPrev hidx hread
    rw [ConnectState.index, Lib.PMap.empty_layer] at hidx
    exact .inr (.inl ⟨txindex, hidx, hread⟩)
  obtain ⟨done, hdone, hI⟩ := Lib.foldlM_ok_inv
    (fun rest st => ∃ done, done ++ rest = block.vtx ∧
      ValueInv env files s block pindex done rest st)
    (fun tx rest st st' hI hstep => by
      obtain ⟨done, hdone, hI⟩ := hI
      obtain ⟨nTxValueIn, nTxValueOut, hconn⟩ := connectTx_ok hstep
      exact ⟨done ++ [tx], by simpa using hdone, hI.step (by rw [← hdone]; simp) hconn⟩)
    ⟨[], rfl, hstart⟩ h
  rw [List.append_nil] at hdone
  rw [← hdone]
  exact hI

end

theorem CTransaction.isCoinBase_of_isCoinStake {tx : CTransaction} (h : tx.isCoinStake = true) :
    tx.isCoinBase = false := by
  rw [isCoinStake] at h
  split at h
  · next txin _ _ _ _ hvin _ =>
    rw [Bool.and_eq_true, Bool.not_eq_true'] at h
    rw [isCoinBase, hvin]
    split
    · next txin' heq =>
      cases heq
      rw [h.1]
      rfl
    · rfl
  · exact absurd h Bool.false_ne_true

/-- Telling the wallets of connected transactions adds known transactions only. -/
theorem syncConnected_walletTxs {env : Env} {block : CBlock}
    {known : Uint256 → CTransaction → Prop} {txs : List CTransaction} {ws ws' : List CWallet}
    (htxs : ∀ tx ∈ txs, known (env.getHash tx) tx) (hws : ∀ w ∈ ws, WalletTxs known w)
    (h : txs.foldlM (syncConnected env block) ws = .ok ws') : ∀ w ∈ ws', WalletTxs known w := by
  obtain ⟨-, hws'⟩ := Lib.foldlM_ok_inv
    (fun rest ws => (∀ tx ∈ rest, known (env.getHash tx) tx) ∧ ∀ w ∈ ws, WalletTxs known w)
    (fun tx rest ws ws' hI hstep => by
      obtain ⟨hrest, hws⟩ := hI
      refine ⟨fun tx' htx' => hrest tx' (List.mem_cons_of_mem _ htx'), ?_⟩
      exact dispatchWallets_forall
        (fun w w' hw h => hw.addToWalletIfInvolvingMe (hrest tx List.mem_cons_self) h) hws hstep)
    ⟨htxs, hws⟩ h
  exact hws'

/-- Wallets that hold known transactions can all be told of the disconnected coinstakes. -/
theorem syncDisconnected_isOk {known : Uint256 → CTransaction → Prop}
    (hone : ∀ h tx tx', known h tx → known h tx' → tx = tx') {txs : List CTransaction}
    {ws : List CWallet} (hws : ∀ w ∈ ws, WalletTxs known w)
    (htxs : ∀ tx ∈ txs, tx.isCoinStake = true → Affordable known tx) :
    ∃ ws', txs.foldlM syncDisconnected ws = .ok ws' ∧ ∀ w ∈ ws', WalletTxs known w := by
  induction txs generalizing ws with
  | nil => exact ⟨ws, rfl, hws⟩
  | cons tx txs ih =>
      have htxs' : ∀ tx' ∈ txs, tx'.isCoinStake = true → Affordable known tx' :=
        fun tx' htx' => htxs tx' (List.mem_cons_of_mem _ htx')
      cases hcs : tx.isCoinStake with
      | false =>
          obtain ⟨ws', hws', hknown'⟩ := ih hws htxs'
          refine ⟨ws', ?_, hknown'⟩
          rw [List.foldlM_cons, syncDisconnected, hcs]
          exact hws'
      | true =>
          have hone' : ∀ w ∈ ws, ∃ w', w.syncDisconnectedTx tx = .ok w' := by
            intro w hw
            obtain ⟨b, hb⟩ := CWallet.isFromMe_isOk hone (hws w hw) (htxs tx List.mem_cons_self hcs)
            cases b with
            | false => exact ⟨w, by rw [CWallet.syncDisconnectedTx, hb]⟩
            | true =>
                refine ⟨tx.vin.foldl CWallet.refundInput w, ?_⟩
                rw [CWallet.syncDisconnectedTx, hb]
                simp only [CWallet.disableTransaction, hcs, hb, Bool.not_true, Bool.false_eq_true,
                  if_false]
          obtain ⟨ws₁, hws₁⟩ := dispatchWallets_isOk hone'
          have hknown₁ : ∀ w ∈ ws₁, WalletTxs known w := by
            refine dispatchWallets_forall ?_ hws hws₁
            intro w w' hw h
            rcases CWallet.syncDisconnectedTx_cases hcs h with ⟨-, rfl⟩ | ⟨-, rfl⟩
            · exact hw
            · exact (CWallet.refundInputs_sameTxs _ _).walletTxs hw
          obtain ⟨ws', hws', hknown'⟩ := ih hknown₁ htxs'
          refine ⟨ws', ?_, hknown'⟩
          rw [List.foldlM_cons, syncDisconnected, hcs, if_pos rfl, hws₁]
          exact hws'

/-! ## The block as a whole -/

namespace CBlock

variable {env : Env} {files : Files} {s s' : NodeState} {block : CBlock} {pindex : CBlockIndex}
  {pprev : BlockPtr}

@[simp] theorem writePrevIndex_infos (s : NodeState) (hashNext : Uint256) :
    (writePrevIndex s pprev hashNext).infos = s.infos := by
  cases pprev <;> rfl

@[simp] theorem writePrevIndex_wallets (s : NodeState) (hashNext : Uint256) :
    (writePrevIndex s pprev hashNext).wallets = s.wallets := by
  cases pprev <;> rfl

theorem disconnectBlock_ok (h : block.disconnectBlock env files pprev s = .ok s') :
    ∃ s₁ ws, block.vtx.reverse.foldlM (disconnectTx env files) s = .ok s₁ ∧
      block.vtx.foldlM syncDisconnected s₁.wallets = .ok ws ∧
      s' = { writePrevIndex (s₁.updateDb fun d => { d with vConnected := d.vConnected.tail })
        pprev 0 with wallets := ws } := by
  rw [disconnectBlock] at h
  obtain ⟨s₁, h₁, h⟩ := Lib.bind_eq_ok.mp h
  rw [syncDisconnectedTxs, writePrevIndex_wallets] at h
  split at h
  · next ws hws =>
    cases h
    exact ⟨s₁, ws, h₁, hws, rfl⟩
  · cases h

/-- What a transaction of the block counts for in `connectTxs_numbered`. -/
theorem noInfos_iff_countInfoTxs {tx : CTransaction} : tx.NoInfos ↔ tx.countInfoTxs = 0 := by
  simp [CTransaction.NoInfos, CTransaction.countInfoTxs, List.sum_eq_zero_iff]

/-- A connected block can be disconnected with the info rows back as they were exactly when none of
its inputs carries infos. -/
theorem disconnectBlock_undoes_iff (env : Env) (files : Files) (block : CBlock)
    (pindex : CBlockIndex) (pprev : BlockPtr) (s s' : NodeState)
    (hopen : s.infos.inTransaction = true) (hstored : block.Stored files pindex)
    (hfree : CollisionFree env files s block)
    (h : block.connectBlock env files pindex pprev s = .ok s') :
    (∃ s'', block.disconnectBlock env files pprev s' = .ok s'' ∧
      s''.infos.db.rows.map Prod.snd = s.infos.db.rows.map Prod.snd) ↔
      ∀ tx ∈ block.vtx, ∀ txin ∈ tx.vin, txin.infos = [] := by
  obtain ⟨st, nCoinbaseOut, ws, hcheck, hst, -, hsync, rfl⟩ := connectBlock_ok h
  have hinfos : ({ block.writeConnected pindex pprev st nCoinbaseOut { s with infos := st.infos } with
      wallets := ws } : NodeState).infos = st.infos := by
    simp [writeConnected, NodeState.updateDb]
  have hindex : ({ block.writeConnected pindex pprev st nCoinbaseOut { s with infos := st.infos } with
      wallets := ws } : NodeState).txdb.data.txIndex = st.index s := by
    cases pprev <;> rfl
  constructor
  · -- what was numbered stays, so nothing can have been processed
    rintro ⟨s'', hdis, hrows⟩
    obtain ⟨s₁, ws', hloop, -, rfl⟩ := disconnectBlock_ok hdis
    obtain ⟨hnum, hcoinbase⟩ := disconnectTxs_numbered hloop
    obtain ⟨hconn, -⟩ := connectTxs_numbered hopen hst
    rw [hinfos] at hnum
    have hsame : numberedRows s₁.infos.db = numberedRows s.infos.db := by
      have hcount : ∀ t : Lib.Table TxDbEntry,
          numberedRows t = (t.rows.map Prod.snd).countP fun e => e.index_tx != -1 := by
        intro t
        rw [List.countP_map]
        rfl
      rw [hcount, hcount]
      rw [← hrows]
      simp [NodeState.updateDb]
    have hzero : (block.vtx.map fun tx => if tx.isCoinBase then 0 else tx.countInfoTxs).sum = 0 := by
      omega
    intro tx htx
    cases hcb : tx.isCoinBase with
    | true => exact hcoinbase tx (List.mem_reverse.mpr htx) hcb
    | false =>
        rw [List.sum_eq_zero_iff] at hzero
        have := hzero _ (List.mem_map_of_mem htx)
        rw [hcb, if_neg Bool.false_ne_true] at this
        exact noInfos_iff_countInfoTxs.mpr this
  · intro hno
    have hsame : st.infos = s.infos := connectTxs_noInfos hopen hno hst
    obtain ⟨hord, hidx⟩ := connectTxs_order hcheck hst
    obtain ⟨s₁, hloop, hinfos₁, hws₁⟩ := disconnectTxs_noInfos env files
      (by rw [hinfos, hsame]; exact hopen) hord (by rw [hindex]; exact hidx) hno
    -- the wallets hold what the node knows, so none of them throws
    have hknown : ∀ w ∈ ws, WalletTxs (KnownAs env files s block) w :=
      syncConnected_walletTxs (fun tx htx => .inr (.inr ⟨htx, rfl⟩))
        (fun w hw k wtx hk => .inl ⟨w, hw, wtx, hk, rfl⟩) hsync
    obtain ⟨ws', hws', -⟩ := syncDisconnected_isOk hfree hknown (fun tx htx hcs =>
      (connectTxs_valueInv hstored hst).affordable tx htx
        (CTransaction.isCoinBase_of_isCoinStake hcs))
    refine ⟨{ writePrevIndex (s₁.updateDb fun d => { d with vConnected := d.vConnected.tail })
      pprev 0 with wallets := ws' }, ?_, ?_⟩
    · rw [disconnectBlock, hloop]
      show syncDisconnectedTxs block _ = _
      rw [syncDisconnectedTxs, writePrevIndex_wallets]
      rw [show (s₁.updateDb fun d => { d with vConnected := d.vConnected.tail }).wallets = ws from hws₁,
        hws']
    · have hback : s₁.infos = s.infos := by rw [hinfos₁, hinfos, hsame]
      simp [NodeState.updateDb, hback]

theorem disconnectBlock_undoes_sampleBlock :
    ∃ s' s'', sampleBlock.connectBlock Env.plain sampleFiles sampleIndex [sampleGenesis]
        sampleState = .ok s' ∧
      sampleBlock.disconnectBlock Env.plain sampleFiles [sampleGenesis] s' = .ok s'' ∧
      s''.infos.db.rows.map Prod.snd = sampleState.infos.db.rows.map Prod.snd := by
  have hconn := Lib.eq_ok_final (show (sampleBlock.connectBlock Env.plain sampleFiles sampleIndex
    [sampleGenesis] sampleState).isOk = true by decide)
  have hfree : CollisionFree Env.plain sampleFiles sampleState sampleBlock := by
    have hblock : ∀ h tx, KnownAs Env.plain sampleFiles sampleState sampleBlock h tx →
        tx ∈ sampleBlock.vtx ∧ Env.plain.getHash tx = h := by
      rintro h tx (⟨w, hw, -⟩ | ⟨txindex, hx, -⟩ | hx)
      · cases hw
      · cases hx
      · exact hx
    intro h tx tx' htx htx'
    obtain ⟨hmem, rfl⟩ := hblock h tx htx
    obtain ⟨hmem', hhash⟩ := hblock _ tx' htx'
    simp only [sampleBlock, List.mem_cons, List.not_mem_nil, or_false] at hmem hmem'
    rcases hmem with rfl | rfl <;> rcases hmem' with rfl | rfl <;> first
      | rfl
      | exact absurd hhash (by decide)
  obtain ⟨s'', hdis, hrows⟩ := (disconnectBlock_undoes_iff Env.plain sampleFiles sampleBlock
    sampleIndex [sampleGenesis] sampleState _ rfl sampleBlock_stored hfree hconn).mpr (by decide)
  exact ⟨_, s'', hconn, hdis, hrows⟩

/-! ### A block that cannot be taken back -/

/-- A coinbase of a later time. -/
def infoCoinbase : CTransaction := { sampleCoinbase with nTime := 2 }

/-- A payment that sets an info of the address it spends from. -/
def infoPayment : CTransaction where
  nTime := 3
  vin := [{ prevout := ⟨2, 0⟩, infos := [⟨⟨INFO_NORMAL, [97]⟩, [98]⟩] }]
  vout := [{ nValue := COIN, scriptPubKey := [3] }]

def infoBlock : CBlock := { nTime := 3, nNonce := 2, vtx := [infoCoinbase, infoPayment] }

def infoIndex : CBlockIndex :=
  { hashBlock := 3, nFile := 1, nBlockPos := 1000, nHeight := 2, nPoWHeight := 2 }

/-- The node once it has connected `sampleBlock`. -/
def infoState : NodeState :=
  Lib.final (sampleBlock.connectBlock Env.plain sampleFiles sampleIndex [sampleGenesis] sampleState)

/-- The undo of the info asks for a record without a block hash and a number, and finds none. -/
theorem not_disconnectBlock_infoBlock :
    infoState.infos.inTransaction = true ∧
      (infoBlock.connectBlock Env.plain sampleFiles infoIndex [sampleIndex, sampleGenesis]
        infoState).isOk = true ∧
      (infoBlock.disconnectBlock Env.plain sampleFiles [sampleIndex, sampleGenesis]
        (Lib.final (infoBlock.connectBlock Env.plain sampleFiles infoIndex
          [sampleIndex, sampleGenesis] infoState))).isOk = false := by
  refine ⟨by decide, by decide, by decide +kernel⟩

end CBlock

end ShinyCoin

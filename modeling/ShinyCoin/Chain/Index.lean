import ShinyCoin.Chain.Block

/-!
# The transaction index as the chain changes it

A block reads the index through its pending changes, so what it works on is
`mapQueuedChanges.layer txdb`. On that index a transaction spends its inputs one after the other and
then enters itself: `applyTx`. `connectTx_ok` says that this is what a round of `ConnectBlock` does,
and what it has checked on the way.
-/

namespace ShinyCoin

/-! ## Spending and creating -/

/-- Mark the outpoint `o` as spent at `pos`. -/
def spend (pos : CDiskTxPos) (m : TxIndexMap) (o : COutPoint) : TxIndexMap :=
  match m o.hash with
  | none => m
  | some txindex => m.set o.hash { txindex with vSpent := txindex.vSpent.set o.n pos }

/-- Mark the inputs of a transaction at `pos` as spent; a coinbase has none. -/
def spendInputs (pos : CDiskTxPos) (m : TxIndexMap) (tx : CTransaction) : TxIndexMap :=
  if tx.isCoinBase then m else (tx.vin.map CTxIn.prevout).foldl (spend pos) m

/-- What a transaction at `pos` does to the index. -/
def applyTx (env : Env) (pos : CDiskTxPos) (m : TxIndexMap) (tx : CTransaction) : TxIndexMap :=
  (spendInputs pos m tx).set (env.getHash tx) (CTxIndex.new pos tx.vout.length)

/-- The outpoint is indexed and its slot is null. -/
def Unspent (m : TxIndexMap) (o : COutPoint) : Prop :=
  ∃ txindex pos, m o.hash = some txindex ∧ txindex.vSpent[o.n]? = some pos ∧ pos.isNull = true

/-- Every outpoint of the list is unspent when its turn comes. -/
def SpendsUnspent (pos : CDiskTxPos) : TxIndexMap → List COutPoint → Prop
  | _, [] => True
  | m, o :: os => Unspent m o ∧ SpendsUnspent pos (spend pos m o) os

theorem spend_of_some {pos : CDiskTxPos} {m : TxIndexMap} {o : COutPoint} {txindex : CTxIndex}
    (h : m o.hash = some txindex) :
    spend pos m o = m.set o.hash { txindex with vSpent := txindex.vSpent.set o.n pos } := by
  rw [spend, h]

theorem spend_of_ne {pos : CDiskTxPos} {m : TxIndexMap} {o : COutPoint} {h : Uint256}
    (hne : h ≠ o.hash) : spend pos m o h = m h := by
  cases hm : m o.hash with
  | none => simp [spend, hm]
  | some txindex => rw [spend_of_some hm, Lib.PMap.set_of_ne hne]

/-- Spending leaves the set of entries, their positions and their sizes alone. -/
theorem spend_apply {pos : CDiskTxPos} {m : TxIndexMap} {o : COutPoint} (h : Uint256) :
    spend pos m o h = (m h).map fun txindex =>
      if h = o.hash then { txindex with vSpent := txindex.vSpent.set o.n pos } else txindex := by
  by_cases hh : h = o.hash
  · subst hh
    cases hm : m o.hash with
    | none => simp [spend, hm]
    | some txindex => simp [spend_of_some hm]
  · rw [spend_of_ne hh]
    simp [hh]

/-- No output of the transaction can be spent any more, if it is indexed at all. -/
def FullySpent (m : TxIndexMap) (h : Uint256) : Prop :=
  ∀ txindex, m h = some txindex → ∀ p ∈ txindex.vSpent, p.isNull = false

theorem FullySpent.ne_hash {m : TxIndexMap} {h : Uint256} (hm : FullySpent m h) {o : COutPoint}
    (ho : Unspent m o) : o.hash ≠ h := by
  rintro rfl
  obtain ⟨txindex, p, hidx, hslot, hp⟩ := ho
  rw [hm txindex hidx p (List.mem_of_getElem? hslot)] at hp
  exact Bool.noConfusion hp

/-- Spending unspent outputs never touches an entry that is completely spent. -/
theorem FullySpent.spends {pos : CDiskTxPos} {h : Uint256} {os : List COutPoint} {m : TxIndexMap}
    (hm : FullySpent m h) (ho : SpendsUnspent pos m os) :
    (∀ o ∈ os, o.hash ≠ h) ∧ os.foldl (spend pos) m h = m h := by
  induction os generalizing m with
  | nil => exact ⟨by simp, rfl⟩
  | cons o os ih =>
      have hne := hm.ne_hash ho.1
      have hsame : spend pos m o h = m h := spend_of_ne hne.symm
      obtain ⟨hall, hfold⟩ := ih (m := spend pos m o) (by rw [FullySpent, hsame]; exact hm) ho.2
      exact ⟨List.forall_mem_cons.mpr ⟨hne, hall⟩, hfold.trans hsame⟩

/-! ## Fetched inputs -/

/-- The fetched entries are those of the index `m`, each with the transaction it points to. -/
def InputsMatch (files : Files) (pool : CTxMemPool) (m : TxIndexMap) (inputs : MapPrevTx) : Prop :=
  ∀ h txindex txPrev, inputs h = some (txindex, txPrev) →
    m h = some txindex ∧ CTransaction.readTxPrev files pool h txindex = .ok txPrev

namespace CTransaction

section

variable {files : Files} {pool : CTxMemPool} {txdb q : TxIndexMap} {fBlock fMiner : Bool}

theorem fetchPrev_ok {hash : Uint256} {prev : CTxIndex × CTransaction}
    (hf : (fBlock || fMiner) = true)
    (h : fetchPrev files pool txdb q fBlock fMiner hash = .ok prev) :
    q.layer txdb hash = some prev.1 ∧ readTxPrev files pool hash prev.1 = .ok prev.2 := by
  rw [fetchPrev, if_pos hf] at h
  split at h
  · cases h
  · next txindex hm =>
    obtain ⟨txPrev, hread, h⟩ := Lib.bind_eq_ok.mp h
    cases h
    exact ⟨hm, hread⟩

theorem fetchInput_ok {inputs inputs' : MapPrevTx} {txin : CTxIn}
    (hf : (fBlock || fMiner) = true)
    (h : fetchInput files pool txdb q fBlock fMiner inputs txin = .ok inputs')
    (hm : InputsMatch files pool (q.layer txdb) inputs) :
    InputsMatch files pool (q.layer txdb) inputs' := by
  rw [fetchInput] at h
  split at h
  · cases h
    exact hm
  · obtain ⟨prev, hprev, h⟩ := Lib.bind_eq_ok.mp h
    cases h
    intro h' txindex txPrev hx
    by_cases hh : h' = txin.prevout.hash
    · subst hh
      rw [Lib.PMap.set_self, Option.some.injEq] at hx
      have := fetchPrev_ok hf hprev
      rw [hx] at this
      exact this
    · rw [Lib.PMap.set_of_ne hh] at hx
      exact hm h' txindex txPrev hx

/-- What `FetchInputs` returns is what the index holds, and every prevout is in range there. -/
theorem fetchInputs_ok {tx : CTransaction} {inputs : MapPrevTx} (hf : (fBlock || fMiner) = true)
    (hcb : tx.isCoinBase = false)
    (h : tx.fetchInputs files pool txdb q fBlock fMiner = .ok inputs) :
    InputsMatch files pool (q.layer txdb) inputs ∧
      ∀ txin ∈ tx.vin, ∃ txindex txPrev, inputs txin.prevout.hash = some (txindex, txPrev) ∧
        txin.prevout.n < txPrev.vout.length ∧ txin.prevout.n < txindex.vSpent.length := by
  rw [fetchInputs, hcb, if_neg Bool.false_ne_true] at h
  obtain ⟨inputs₁, hfetch, h⟩ := Lib.bind_eq_ok.mp h
  obtain ⟨hrange, h⟩ := Lib.seq_eq_ok.mp h
  cases h
  constructor
  · exact Lib.foldlM_ok_inv (fun _ inputs => InputsMatch files pool (q.layer txdb) inputs)
      (fun txin l i i' hi hstep => fetchInput_ok hf hstep hi)
      (by intro h' txindex txPrev hx; simp at hx) hfetch
  · intro txin htxin
    have hx := (Lib.forM_eq_ok.mp hrange) txin htxin
    rw [checkPrevoutRange] at hx
    split at hx
    · cases hx
    · next txindex txPrev hin =>
      rw [Lib.require_eq_ok, Bool.and_eq_true, decide_eq_true_eq, decide_eq_true_eq] at hx
      exact ⟨txindex, txPrev, hin, hx⟩

end

/-! ## Connected inputs -/

section

variable {env : Env} {files : Files} {pool : CTxMemPool} {txdb : TxIndexMap} {fVerify : Bool}
  {pos : CDiskTxPos} {fBlock fMiner : Bool} {tx : CTransaction}

theorem connectInput_ok {st st' : MapPrevTx × TxIndexMap} {x : CTxIn × Nat}
    (hf : (fBlock || fMiner) = true)
    (hm : InputsMatch files pool (st.2.layer txdb) st.1)
    (h : connectInput env fVerify pos fBlock fMiner tx st x = .ok st') :
    Unspent (st.2.layer txdb) x.1.prevout ∧
      st'.2.layer txdb = spend pos (st.2.layer txdb) x.1.prevout ∧
      InputsMatch files pool (st'.2.layer txdb) st'.1 := by
  rw [connectInput] at h
  split at h
  · cases h
  · next txindex txPrev hin =>
    obtain ⟨hidx, hread⟩ := hm _ _ _ hin
    split at h
    · cases h
    · next posSpent hslot =>
      obtain ⟨hnull, h⟩ := Lib.seq_eq_ok.mp h
      obtain ⟨-, h⟩ := Lib.seq_eq_ok.mp h
      rw [Lib.require_eq_ok] at hnull
      cases h
      have hview : ((if (fBlock || fMiner) = true then
          st.2.set x.1.prevout.hash { txindex with vSpent := txindex.vSpent.set x.1.prevout.n pos }
            else st.2).layer txdb) = spend pos (st.2.layer txdb) x.1.prevout := by
        rw [if_pos hf, Lib.PMap.set_layer, spend_of_some hidx]
      refine ⟨⟨txindex, posSpent, hidx, hslot, hnull⟩, hview, ?_⟩
      intro h' txindex' txPrev' hx
      simp only at hx ⊢
      rw [hview]
      by_cases hh : h' = x.1.prevout.hash
      · subst hh
        rw [Lib.PMap.set_self, Option.some.injEq, Prod.mk.injEq] at hx
        obtain ⟨rfl, rfl⟩ := hx
        rw [spend_of_some hidx]
        exact ⟨Lib.PMap.set_self _ _ _, hread⟩
      · rw [Lib.PMap.set_of_ne hh] at hx
        rw [spend_of_ne hh]
        exact hm h' txindex' txPrev' hx

/-- The second loop of `ConnectInputs` spends the inputs in turn, each of them unspent. -/
theorem connectInput_loop {xs : List (CTxIn × Nat)} {st st' : MapPrevTx × TxIndexMap}
    (hf : (fBlock || fMiner) = true)
    (hm : InputsMatch files pool (st.2.layer txdb) st.1)
    (h : xs.foldlM (connectInput env fVerify pos fBlock fMiner tx) st = .ok st') :
    SpendsUnspent pos (st.2.layer txdb) (xs.map fun x => x.1.prevout) ∧
      st'.2.layer txdb = (xs.map fun x => x.1.prevout).foldl (spend pos) (st.2.layer txdb) := by
  induction xs generalizing st with
  | nil =>
      cases h
      exact ⟨trivial, rfl⟩
  | cons x xs ih =>
      obtain ⟨st₁, hx, h⟩ := Lib.bind_eq_ok.mp h
      obtain ⟨hu, hview, hm₁⟩ := connectInput_ok hf hm hx
      have := ih hm₁ h
      rw [hview] at this
      exact ⟨⟨hu, this.1⟩, this.2⟩

end

/-! ## Values -/

/-- The value of the output a fetched input refers to. -/
def prevValue (inputs : MapPrevTx) (txin : CTxIn) : ℤ :=
  ((inputs txin.prevout.hash).bind fun prev => prev.2.vout[txin.prevout.n]?.map CTxOut.nValue).getD 0

/-- The values of the inputs, added up. -/
def sumValueIn (inputs : MapPrevTx) (txins : List CTxIn) : ℤ := (txins.map (prevValue inputs)).sum

end CTransaction

theorem int64_of_moneyRange {z : ℤ} (h : 0 ≤ z) (h' : z ≤ 2 * MAX_MONEY) : int64 z = z := by
  rw [int64]
  apply Int.bmod_eq_of_le
  · omega
  · simp only [MAX_MONEY, COIN] at h'
    omega

theorem moneyRange_iff {z : ℤ} : moneyRange z = true ↔ 0 ≤ z ∧ z ≤ MAX_MONEY := by
  simp [moneyRange]

namespace CTransaction

variable {env : Env} {files : Files} {pool : CTxMemPool} {tx : CTransaction} {inputs : MapPrevTx}
  {pindexBlock : BlockPtr}

theorem checkInput_ok {nValueIn nValueIn' : ℤ} {txin : CTxIn} (hr : moneyRange nValueIn = true)
    (h : checkInput env inputs pindexBlock tx nValueIn txin = .ok nValueIn') :
    nValueIn' = nValueIn + prevValue inputs txin ∧ moneyRange nValueIn' = true ∧
      moneyRange (prevValue inputs txin) = true ∧
      ∃ txout, getOutputFor inputs txin = .ok txout ∧ txout.nValue = prevValue inputs txin := by
  rw [checkInput] at h
  split at h
  · cases h
  · next txindex txPrev hin =>
    split at h
    · cases h
    · next txout hout =>
      obtain ⟨-, h⟩ := Lib.seq_eq_ok.mp h
      obtain ⟨-, h⟩ := Lib.seq_eq_ok.mp h
      obtain ⟨-, h⟩ := Lib.seq_eq_ok.mp h
      obtain ⟨hrange, h⟩ := Lib.seq_eq_ok.mp h
      cases h
      rw [Lib.require_eq_ok, Bool.and_eq_true] at hrange
      have hv : prevValue inputs txin = txout.nValue := by simp [prevValue, hin, hout]
      obtain ⟨h1, h2⟩ := moneyRange_iff.mp hr
      obtain ⟨h3, h4⟩ := moneyRange_iff.mp hrange.1
      have h64 : int64 (nValueIn + txout.nValue) = nValueIn + txout.nValue :=
        int64_of_moneyRange (by omega) (by omega)
      rw [h64] at hrange ⊢
      exact ⟨by rw [hv], hrange.2, by rw [hv]; exact hrange.1, txout,
        by simp [getOutputFor, hin, hout], hv.symm⟩

/-- The first loop of `ConnectInputs` adds up the values of the inputs, which is then what
`GetValueIn` returns. -/
theorem checkInput_loop {txins : List CTxIn} {nValueIn nValueIn' : ℤ}
    (hr : moneyRange nValueIn = true)
    (h : txins.foldlM (checkInput env inputs pindexBlock tx) nValueIn = .ok nValueIn') :
    nValueIn' = nValueIn + sumValueIn inputs txins ∧ moneyRange nValueIn' = true ∧
      (∀ txin ∈ txins, moneyRange (prevValue inputs txin) = true) ∧
      txins.foldlM (fun nResult txin => do
        let txout ← getOutputFor inputs txin
        return int64 (nResult + txout.nValue)) nValueIn = .ok nValueIn' := by
  induction txins generalizing nValueIn with
  | nil =>
      cases h
      exact ⟨by simp [sumValueIn], hr, by simp, rfl⟩
  | cons txin txins ih =>
      obtain ⟨v, hv, h⟩ := Lib.bind_eq_ok.mp h
      obtain ⟨hsum, hr', hrv, txout, hout, hval⟩ := checkInput_ok hr hv
      obtain ⟨hsum', hr'', hall, hfold⟩ := ih hr' h
      refine ⟨?_, hr'', List.forall_mem_cons.mpr ⟨hrv, hall⟩, ?_⟩
      · rw [hsum', hsum, sumValueIn, sumValueIn, List.map_cons, List.sum_cons]
        ring
      · have h64 : int64 (nValueIn + txout.nValue) = v := by
          obtain ⟨h1, h2⟩ := moneyRange_iff.mp hr'
          rw [hval, ← hsum]
          exact int64_of_moneyRange h1 (by simp only [MAX_MONEY, COIN] at h2 ⊢; omega)
        rw [List.foldlM_cons, hout]
        simp only [bind, Except.bind, pure, Except.pure, h64]
        exact hfold

/-- What `ConnectInputs` has checked and done when it returns `true`. -/
theorem connectInputs_ok {txdb q q' : TxIndexMap} {nBestHeight : ℤ} {pos : CDiskTxPos}
    {fBlock fMiner : Bool} (hf : (fBlock || fMiner) = true) (hcb : tx.isCoinBase = false)
    (hm : InputsMatch files pool (q.layer txdb) inputs)
    (h : tx.connectInputs env files nBestHeight txdb inputs q pos pindexBlock fBlock fMiner = .ok q') :
    SpendsUnspent pos (q.layer txdb) (tx.vin.map CTxIn.prevout) ∧
      q'.layer txdb = spendInputs pos (q.layer txdb) tx ∧
      tx.getValueIn inputs = .ok (sumValueIn inputs tx.vin) ∧
      moneyRange (sumValueIn inputs tx.vin) = true ∧
      (∀ txin ∈ tx.vin, moneyRange (prevValue inputs txin) = true) ∧
      tx.checkValueOut env files txdb (sumValueIn inputs tx.vin) = .ok () := by
  rw [connectInputs, hcb, if_neg Bool.false_ne_true] at h
  obtain ⟨nValueIn, hcheck, h⟩ := Lib.bind_eq_ok.mp h
  obtain ⟨st, hconn, h⟩ := Lib.bind_eq_ok.mp h
  obtain ⟨hout, h⟩ := Lib.seq_eq_ok.mp h
  cases h
  obtain ⟨hsum, hr, hvals, hfold⟩ := checkInput_loop (by decide) hcheck
  rw [zero_add] at hsum
  obtain ⟨hu, hview⟩ := connectInput_loop hf hm hconn
  have hprev : (tx.vin.zipIdx.map fun x => x.1.prevout) = tx.vin.map CTxIn.prevout := by
    rw [show (fun x : CTxIn × Nat => x.1.prevout) = CTxIn.prevout ∘ Prod.fst from rfl,
      ← List.map_map, List.zipIdx_map_fst]
  rw [hprev] at hu hview
  rw [← hsum]
  refine ⟨hu, ?_, ?_, hr, hvals, hout⟩
  · rw [spendInputs, hcb, if_neg Bool.false_ne_true]
    exact hview
  · rw [getValueIn, hcb, if_neg Bool.false_ne_true]
    exact hfold

end CTransaction

/-! ## A round of `ConnectBlock` -/

/-- What is known of a transaction whose inputs were connected on the index `m`. -/
structure InputsSpent (env : Env) (files : Files) (s : NodeState) (pos : CDiskTxPos)
    (m : TxIndexMap) (tx : CTransaction) (inputs : MapPrevTx) : Prop where
  fetched : InputsMatch files s.mempool m inputs
  range : ∀ txin ∈ tx.vin, ∃ txindex txPrev, inputs txin.prevout.hash = some (txindex, txPrev) ∧
    txin.prevout.n < txPrev.vout.length ∧ txin.prevout.n < txindex.vSpent.length
  unspent : SpendsUnspent pos m (tx.vin.map CTxIn.prevout)
  moneyRange : moneyRange (CTransaction.sumValueIn inputs tx.vin) = true
  values : ∀ txin ∈ tx.vin, ShinyCoin.moneyRange (CTransaction.prevValue inputs txin) = true
  checked : tx.checkValueOut env files s.txdb.data.txIndex (CTransaction.sumValueIn inputs tx.vin) = .ok ()

/-- The position of the next transaction. -/
def ConnectState.posThisTx (st : ConnectState) (pindex : CBlockIndex) : CDiskTxPos :=
  ⟨pindex.nFile, pindex.nBlockPos, st.nTxPos⟩

/-- The index a round of `ConnectBlock` works on. -/
def ConnectState.index (st : ConnectState) (s : NodeState) : TxIndexMap :=
  st.mapQueuedChanges.layer s.txdb.data.txIndex

/-- What a successful round of `ConnectBlock` does. -/
structure TxConnected (env : Env) (files : Files) (s : NodeState) (block : CBlock)
    (pindex : CBlockIndex) (st : ConnectState) (tx : CTransaction) (st' : ConnectState)
    (nTxValueIn nTxValueOut : ℤ) : Prop where
  getValueOut : tx.getValueOut = .ok nTxValueOut
  index : st'.index s = applyTx env (st.posThisTx pindex) (st.index s) tx
  nTxPos : st'.nTxPos = st.nTxPos + tx.getSerializeSize
  nTx : st'.nTx = st.nTx + 1
  nValueIn : st'.nValueIn = st.nValueIn + nTxValueIn
  nValueOut : st'.nValueOut = st.nValueOut + nTxValueOut
  nFees : st'.nFees
    = st.nFees + if tx.isCoinBase || tx.isCoinStake then 0 else nTxValueIn - nTxValueOut
  coinbase : tx.isCoinBase = true → nTxValueIn = 0 ∧ st'.infos = st.infos
  spends : tx.isCoinBase = false → ∃ inputs,
    InputsSpent env files s (st.posThisTx pindex) (st.index s) tx inputs ∧
    nTxValueIn = CTransaction.sumValueIn inputs tx.vin ∧
    tx.processTxInfos env files s.txdb.data.txIndex st.infos
      (env.getIDHash block.toCBlockHeader) st.nTx = .ok st'.infos

/-- A round for a transaction that spends fetches its inputs and connects them. -/
theorem CBlock.connectTx_spends {env : Env} {files : Files} {s : NodeState} {block : CBlock}
    {pindex : CBlockIndex} {pprev : BlockPtr} {st st' : ConnectState} {tx : CTransaction}
    (hcb : tx.isCoinBase = false)
    (h : block.connectTx env files s pindex pprev st tx = .ok st') :
    ∃ mapInputs q', tx.fetchInputs files s.mempool s.txdb.data.txIndex st.mapQueuedChanges true false
        = .ok mapInputs ∧
      tx.connectInputs env files s.nBestHeight s.txdb.data.txIndex mapInputs st.mapQueuedChanges
        (st.posThisTx pindex) (pindex :: pprev) true false = .ok q' := by
  rw [connectTx] at h
  obtain ⟨-, h⟩ := Lib.seq_eq_ok.mp h
  obtain ⟨st₁, h₁, -⟩ := Lib.bind_eq_ok.mp h
  rw [connectInputsOf, hcb, if_neg Bool.false_ne_true, connectSpends] at h₁
  obtain ⟨mapInputs, hfetch, h₁⟩ := Lib.bind_eq_ok.mp h₁
  obtain ⟨nP2SH, -, h₁⟩ := Lib.bind_eq_ok.mp h₁
  obtain ⟨-, h₁⟩ := Lib.seq_eq_ok.mp h₁
  obtain ⟨nTxValueIn, -, h₁⟩ := Lib.bind_eq_ok.mp h₁
  obtain ⟨nTxValueOut, -, h₁⟩ := Lib.bind_eq_ok.mp h₁
  obtain ⟨q', hconn, -⟩ := Lib.bind_eq_ok.mp h₁
  rw [Lib.mapError_eq_ok] at hfetch hconn
  exact ⟨mapInputs, q', hfetch, hconn⟩

theorem CBlock.connectTx_ok {env : Env} {files : Files} {s : NodeState} {block : CBlock}
    {pindex : CBlockIndex} {pprev : BlockPtr} {st st' : ConnectState} {tx : CTransaction}
    (h : block.connectTx env files s pindex pprev st tx = .ok st') :
    ∃ nTxValueIn nTxValueOut,
      TxConnected env files s block pindex st tx st' nTxValueIn nTxValueOut := by
  rw [connectTx] at h
  obtain ⟨-, h⟩ := Lib.seq_eq_ok.mp h
  obtain ⟨st₁, h₁, h⟩ := Lib.bind_eq_ok.mp h
  cases h
  rw [connectInputsOf] at h₁
  have hset : ∀ q : TxIndexMap, (q.set (env.getHash tx)
      (CTxIndex.new (st.posThisTx pindex) tx.vout.length)).layer s.txdb.data.txIndex
        = (q.layer s.txdb.data.txIndex).set (env.getHash tx)
          (CTxIndex.new (st.posThisTx pindex) tx.vout.length) :=
    fun q => Lib.PMap.set_layer _ _ _ _
  split at h₁
  · next hcb =>
    obtain ⟨nTxValueOut, hout, h₁⟩ := Lib.bind_eq_ok.mp h₁
    cases h₁
    rw [Lib.mapError_eq_ok] at hout
    refine ⟨0, nTxValueOut, ⟨hout, ?_, rfl, rfl, (add_zero _).symm, rfl, by simp [hcb],
      fun _ => ⟨rfl, rfl⟩, fun hcb' => absurd hcb (by simp [hcb'])⟩⟩
    rw [applyTx, spendInputs, if_pos hcb]
    exact hset _
  · next hcb =>
    have hcb' : tx.isCoinBase = false := by simpa using hcb
    rw [connectSpends] at h₁
    obtain ⟨mapInputs, hfetch, h₁⟩ := Lib.bind_eq_ok.mp h₁
    obtain ⟨nP2SH, -, h₁⟩ := Lib.bind_eq_ok.mp h₁
    obtain ⟨-, h₁⟩ := Lib.seq_eq_ok.mp h₁
    obtain ⟨nTxValueIn, hin, h₁⟩ := Lib.bind_eq_ok.mp h₁
    obtain ⟨nTxValueOut, hout, h₁⟩ := Lib.bind_eq_ok.mp h₁
    obtain ⟨q', hconn, h₁⟩ := Lib.bind_eq_ok.mp h₁
    obtain ⟨infos, hinfos, h₁⟩ := Lib.bind_eq_ok.mp h₁
    cases h₁
    rw [Lib.mapError_eq_ok] at hfetch hin hout hconn
    obtain ⟨hm, hrange⟩ := CTransaction.fetchInputs_ok rfl hcb' hfetch
    obtain ⟨hu, hview, hval, hmoney, hvals, hcheck⟩ :=
      CTransaction.connectInputs_ok rfl hcb' hm hconn
    rw [hval] at hin
    cases hin
    refine ⟨_, nTxValueOut, ⟨hout, ?_, rfl, rfl, rfl, rfl, by simp [hcb'],
      fun hcb'' => absurd hcb'' hcb, fun _ => ⟨mapInputs, ⟨hm, hrange, hu, hmoney, hvals, hcheck⟩,
        rfl, hinfos⟩⟩⟩
    rw [applyTx, show spendInputs (st.posThisTx pindex) (st.index s) tx
      = q'.layer s.txdb.data.txIndex from hview.symm]
    exact hset _

/-! ## `ConnectBlock` -/

/-- What `CheckBlock` has seen to. -/
structure CheckedBlock (env : Env) (block : CBlock) : Prop where
  coinbase : ∃ tx txs, block.vtx = tx :: txs ∧ tx.isCoinBase = true ∧
    ∀ tx' ∈ txs, tx'.isCoinBase = false
  coinstake : ∀ tx ∈ block.vtx.drop 2, tx.isCoinStake = false
  transactions : ∀ tx ∈ block.vtx, tx.checkTransaction = .ok ()
  nodup : (block.vtx.map env.getHash).Nodup

theorem CBlock.checkBlock_ok {env : Env} {nAdjustedTime : ℤ} {block : CBlock}
    {fCheckPoWHash : Bool} (h : block.checkBlock env nAdjustedTime fCheckPoWHash = .ok ()) :
    CheckedBlock env block := by
  simp only [checkBlock, Lib.seq_eq_ok, Lib.require_eq_ok, decide_eq_true_eq] at h
  obtain ⟨-, -, hfirst, hrest, hstake, -, -, htxs, hnodup, -⟩ := h
  refine ⟨?_, ?_, ?_, hnodup⟩
  · cases hv : block.vtx with
    | nil => simp [hv] at hfirst
    | cons tx txs =>
        rw [hv] at hfirst hrest
        exact ⟨tx, txs, rfl, by simpa using hfirst, by simpa using hrest⟩
  · simpa using hstake
  · intro tx htx
    have := Lib.forM_eq_ok.mp htxs tx htx
    rw [checkBlockTx, Lib.seq_eq_ok, Lib.mapError_eq_ok] at this
    exact this.1

theorem CBlock.checkConnect_ok {env : Env} {s : NodeState} {block : CBlock} {pindex : CBlockIndex}
    (h : block.checkConnect env s pindex = .ok ()) :
    CheckedBlock env block ∧
      ∀ tx ∈ block.vtx, FullySpent s.txdb.data.txIndex (env.getHash tx) := by
  simp only [checkConnect, Lib.seq_eq_ok, Lib.require_eq_ok] at h
  obtain ⟨hblock, -, hover⟩ := h
  refine ⟨checkBlock_ok hblock, ?_⟩
  intro tx htx txindex hidx p hp
  rw [overwritesNone, List.all_eq_true] at hover
  have := hover tx htx
  rw [hidx] at this
  simpa using List.all_eq_true.mp this p hp

theorem CBlock.writeConnected_wallets (block : CBlock) (pindex : CBlockIndex) (pprev : BlockPtr)
    (st : ConnectState) (nCoinbaseOut : ℤ) (s : NodeState) :
    (block.writeConnected pindex pprev st nCoinbaseOut s).wallets = s.wallets := by
  simp only [writeConnected, writePrevIndex]
  cases pprev <;> rfl

/-- What a successful `ConnectBlock` has computed: the final locals, the coinbase's value, and
what the wallets became. -/
theorem CBlock.connectBlock_ok {env : Env} {files : Files} {s s' : NodeState} {block : CBlock}
    {pindex : CBlockIndex} {pprev : BlockPtr}
    (h : block.connectBlock env files pindex pprev s = .ok s') :
    ∃ st nCoinbaseOut ws,
      block.checkConnect env s pindex = .ok () ∧
      block.connectTxs env files s pindex pprev = .ok st ∧
      block.checkCoinbaseReward pprev (s.statsOf pprev).nPoSDebt st.nFees = .ok nCoinbaseOut ∧
      block.vtx.foldlM (syncConnected env block) s.wallets = .ok ws ∧
      s' = { block.writeConnected pindex pprev st nCoinbaseOut { s with infos := st.infos } with
        wallets := ws } := by
  rw [connectBlock] at h
  obtain ⟨hcheck, h⟩ := Lib.seq_eq_ok.mp h
  obtain ⟨st, htxs, h⟩ := Lib.bind_eq_ok.mp h
  obtain ⟨nCoinbaseOut, hreward, h⟩ := Lib.bind_eq_ok.mp h
  rw [Lib.mapError_eq_ok] at hcheck htxs hreward
  rw [syncConnectedTxs, writeConnected_wallets] at h
  split at h
  · next ws hsync =>
    cases h
    exact ⟨st, nCoinbaseOut, ws, hcheck, htxs, hreward, hsync, rfl⟩
  · cases h

end ShinyCoin

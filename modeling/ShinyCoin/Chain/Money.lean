import ShinyCoin.Chain.Index
import ShinyCoin.Lib.Ledger

/-!
# No double spend, and where the money is

Blocks connected one on top of the other, from a node that has indexed nothing. Two things are
followed through the run: the history of what was entered into the index and what was spent, and
the value of the outputs whose slot is null. The first has no double spend, the second is the money
supply `ConnectBlock` computes without looking at the index.
-/

namespace ShinyCoin

/-! ## The value of the unspent outputs -/

/-- The outputs whose slot is null, added up. -/
def slotSum (vSpent : List CDiskTxPos) (vout : List CTxOut) : ℤ :=
  ((vSpent.zip vout).map fun x => if x.1.isNull then x.2.nValue else 0).sum

/-- The value of the unspent outputs of an index entry, as they are on disk. -/
def unspentValue (files : Files) (txindex : CTxIndex) : ℤ :=
  ((files.readTx txindex.pos).map fun tx => slotSum txindex.vSpent tx.vout).getD 0

/-- The value of an output an index refers to. -/
def outValue (files : Files) (m : TxIndexMap) (o : COutPoint) : ℤ :=
  ((m o.hash).bind fun txindex => (files.readTx txindex.pos).bind fun tx =>
    tx.vout[o.n]?.map CTxOut.nValue).getD 0

/-- The value of all unspent outputs of an index. -/
noncomputable def utxoTotal (files : Files) (m : TxIndexMap) : ℤ :=
  Lib.PMap.total (unspentValue files) m

/-- Filling a null slot takes its output out of the sum. -/
theorem slotSum_set {pos p : CDiskTxPos} (hpos : pos.isNull = false) (hp : p.isNull = true) :
    ∀ (vSpent : List CDiskTxPos) (vout : List CTxOut) (n : Nat), vSpent[n]? = some p →
      slotSum (vSpent.set n pos) vout
        = slotSum vSpent vout - (vout[n]?.map CTxOut.nValue).getD 0
  | [], vout, n, h => by simp at h
  | q :: vSpent, [], n, h => by cases n <;> simp [slotSum]
  | q :: vSpent, txout :: vout, 0, h => by
      rw [List.getElem?_cons_zero, Option.some.injEq] at h
      simp only [slotSum, List.set_cons_zero, List.zip_cons_cons, List.map_cons, List.sum_cons,
        hpos, h, hp, List.getElem?_cons_zero, Option.map_some, Option.getD_some]
      simp
  | q :: vSpent, txout :: vout, n + 1, h => by
      have ih := slotSum_set hpos hp vSpent vout n (by simpa using h)
      rw [slotSum] at ih ⊢
      rw [List.set_cons_succ, List.zip_cons_cons, List.map_cons, List.sum_cons, ih,
        List.getElem?_cons_succ]
      simp only [slotSum, List.zip_cons_cons, List.map_cons, List.sum_cons]
      ring

theorem slotSum_of_spent {vSpent : List CDiskTxPos} (vout : List CTxOut)
    (h : ∀ p ∈ vSpent, p.isNull = false) : slotSum vSpent vout = 0 := by
  rw [slotSum]
  apply List.sum_eq_zero
  intro z hz
  obtain ⟨x, hx, rfl⟩ := List.mem_map.mp hz
  simp [h x.1 (List.of_mem_zip hx).1]

theorem slotSum_new (vout : List CTxOut) :
    slotSum (List.replicate vout.length CDiskTxPos.null) vout = (vout.map CTxOut.nValue).sum := by
  induction vout with
  | nil => rfl
  | cons txout vout ih =>
      rw [slotSum] at ih ⊢
      simp [List.replicate_succ, ih]

section

variable {files : Files} {m : TxIndexMap} {pos : CDiskTxPos}

theorem outValue_spend (o o' : COutPoint) : outValue files (spend pos m o) o' = outValue files m o' := by
  rw [outValue, spend_apply, outValue]
  cases m o'.hash with
  | none => rfl
  | some txindex =>
      simp only [Option.map_some, Option.bind_some]
      split <;> rfl

/-- Spending an unspent output lowers the total by its value. -/
theorem utxoTotal_spend {o : COutPoint} (hm : m.FiniteKeys) (hpos : pos.isNull = false)
    (ho : Unspent m o) : utxoTotal files (spend pos m o) = utxoTotal files m - outValue files m o := by
  obtain ⟨txindex, p, hidx, hslot, hp⟩ := ho
  rw [utxoTotal, spend_of_some hidx, Lib.PMap.total_set hm, hidx, outValue, hidx, utxoTotal]
  simp only [Option.map_some, Option.getD_some, Option.bind_some, unspentValue]
  cases files.readTx txindex.pos with
  | none => simp
  | some tx =>
      simp only [Option.map_some, Option.getD_some, Option.bind_some]
      rw [slotSum_set hpos hp _ _ _ hslot]
      ring

/-- Entering a transaction over a completely spent one adds the value of its outputs. -/
theorem utxoTotal_create {h : Uint256} {tx : CTransaction} (hm : m.FiniteKeys)
    (hread : files.readTx pos = some tx)
    (hold : FullySpent m h) :
    utxoTotal files (m.set h (CTxIndex.new pos tx.vout.length))
      = utxoTotal files m + (tx.vout.map CTxOut.nValue).sum := by
  have hzero : ((m h).map (unspentValue files)).getD 0 = 0 := by
    cases hh : m h with
    | none => rfl
    | some txindex =>
        simp only [Option.map_some, Option.getD_some, unspentValue]
        cases files.readTx txindex.pos with
        | none => rfl
        | some tx' => simp [slotSum_of_spent _ (hold txindex hh)]
  rw [utxoTotal, Lib.PMap.total_set hm, hzero, utxoTotal, unspentValue]
  simp only [CTxIndex.new, hread, Option.map_some, Option.getD_some, slotSum_new]
  ring

end

theorem getValueOut_eq {tx : CTransaction} {nValueOut : ℤ} (h : tx.getValueOut = .ok nValueOut) :
    nValueOut = (tx.vout.map CTxOut.nValue).sum ∧ moneyRange nValueOut = true := by
  have loop : ∀ (vout : List CTxOut) (v v' : ℤ), moneyRange v = true →
      vout.foldlM (fun nValueOut txout => do
        let nValueOut := int64 (nValueOut + txout.nValue)
        Lib.require (moneyRange txout.nValue && moneyRange nValueOut)
          (Err.exc "CTransaction::GetValueOut() : value out of range")
        return nValueOut) v = .ok v' →
      v' = v + (vout.map CTxOut.nValue).sum ∧ moneyRange v' = true := by
    intro vout
    induction vout with
    | nil =>
        intro v v' hv h
        cases h
        exact ⟨by simp, hv⟩
    | cons txout vout ih =>
        intro v v' hv h
        obtain ⟨v₁, h₁, h⟩ := Lib.bind_eq_ok.mp h
        obtain ⟨hr, h₁⟩ := Lib.seq_eq_ok.mp h₁
        cases h₁
        rw [Lib.require_eq_ok, Bool.and_eq_true] at hr
        obtain ⟨h1, h2⟩ := moneyRange_iff.mp hv
        obtain ⟨h3, h4⟩ := moneyRange_iff.mp hr.1
        have h64 : int64 (v + txout.nValue) = v + txout.nValue :=
          int64_of_moneyRange (by omega) (by omega)
        obtain ⟨hsum, hr'⟩ := ih _ _ hr.2 h
        refine ⟨?_, hr'⟩
        rw [hsum, h64, List.map_cons, List.sum_cons]
        ring
  have := loop tx.vout 0 nValueOut (by decide) h
  simpa using this

/-! ## The history of an index -/

/-- What a transaction does to the index, as a history. -/
def txEvents (env : Env) (tx : CTransaction) : List (Lib.Event Uint256) :=
  (if tx.isCoinBase then [] else tx.vin.map fun txin => .spend (txin.prevout.hash, txin.prevout.n))
    ++ [.create (env.getHash tx) tx.vout.length]

/-- What holds of an index with the history `log`. -/
structure IndexInv (m : TxIndexMap) (log : List (Lib.Event Uint256)) : Prop where
  finite : m.FiniteKeys
  onDisk : ∀ h txindex, m h = some txindex → txindex.pos ≠ CDiskTxPos.inPool
  available : ∀ o, Unspent m o → Lib.Available log (o.hash, o.n)
  noDoubleSpend : Lib.NoDoubleSpend log

theorem indexInv_empty : IndexInv Lib.PMap.empty [] where
  finite := Lib.PMap.finiteKeys_empty
  onDisk := by intro h txindex hx; simp at hx
  available := by rintro o ⟨txindex, pos, hx, -⟩; simp at hx
  noDoubleSpend := Lib.noDoubleSpend_nil

section

variable {env : Env} {files : Files} {m : TxIndexMap} {log : List (Lib.Event Uint256)}
  {pos : CDiskTxPos}

/-- What is unspent after a spend was unspent before, and is another output. -/
theorem unspent_of_spend {o o' : COutPoint} (hpos : pos.isNull = false)
    (h : Unspent (spend pos m o) o') : Unspent m o' ∧ o' ≠ o := by
  obtain ⟨txindex, p, hidx, hslot, hp⟩ := h
  rw [spend_apply, Option.map_eq_some_iff] at hidx
  obtain ⟨txindex₀, hidx₀, rfl⟩ := hidx
  by_cases hh : o'.hash = o.hash
  · rw [if_pos hh] at hslot
    by_cases hn : o.n = o'.n
    · -- the slot holds `pos` now
      rw [hn, List.getElem?_set_self'] at hslot
      obtain ⟨q, -, rfl⟩ := Option.map_eq_some_iff.mp hslot
      rw [Function.const_apply, hpos] at hp
      exact Bool.noConfusion hp
    · rw [List.getElem?_set_ne hn] at hslot
      refine ⟨⟨txindex₀, p, hidx₀, hslot, hp⟩, ?_⟩
      rintro rfl
      exact hn rfl
  · rw [if_neg hh] at hslot
    refine ⟨⟨txindex₀, p, hidx₀, hslot, hp⟩, ?_⟩
    rintro rfl
    exact hh rfl

theorem IndexInv.spend (h : IndexInv m log) (hpos : pos.isNull = false) {o : COutPoint}
    (ho : Unspent m o) : IndexInv (spend pos m o) (log ++ [.spend (o.hash, o.n)]) where
  finite := by
    obtain ⟨txindex, p, hidx, -, -⟩ := ho
    rw [spend_of_some hidx]
    exact h.finite.set _ _
  onDisk := by
    intro h' txindex hx
    rw [spend_apply, Option.map_eq_some_iff] at hx
    obtain ⟨txindex₀, hx, rfl⟩ := hx
    have := h.onDisk h' txindex₀ hx
    split <;> exact this
  available := by
    intro o' ho'
    obtain ⟨ho', hne⟩ := unspent_of_spend hpos ho'
    refine (h.available o' ho').spend ?_
    intro heq
    rw [Prod.mk.injEq] at heq
    apply hne
    cases o; cases o'
    simpa using heq
  noDoubleSpend := h.noDoubleSpend.spend (h.available o ho)

theorem IndexInv.create (h : IndexInv m log) (hpos : pos ≠ CDiskTxPos.inPool) (k : Uint256)
    (n : Nat) : IndexInv (m.set k (CTxIndex.new pos n)) (log ++ [.create k n]) where
  finite := h.finite.set _ _
  onDisk := by
    intro h' txindex hx
    rw [Lib.PMap.set_apply] at hx
    split at hx
    · cases hx
      exact hpos
    · exact h.onDisk h' txindex hx
  available := by
    rintro o ⟨txindex, p, hidx, hslot, hp⟩
    rw [Lib.PMap.set_apply] at hidx
    split at hidx
    · next hk =>
      cases hidx
      rw [← hk]
      apply Lib.available_create (o := (o.hash, o.n))
      have := (List.getElem?_eq_some_iff.mp hslot).1
      simpa [CTxIndex.new] using this
    · next hk => exact (h.available o ⟨txindex, p, hidx, hslot, hp⟩).create hk
  noDoubleSpend := h.noDoubleSpend.create k n

theorem IndexInv.spends (hpos : pos.isNull = false) {os : List COutPoint}
    (h : IndexInv m log) (ho : SpendsUnspent pos m os) :
    IndexInv (os.foldl (ShinyCoin.spend pos) m) (log ++ os.map fun o => .spend (o.hash, o.n)) := by
  induction os generalizing m log with
  | nil => simpa using h
  | cons o os ih =>
      have := ih (h.spend hpos ho.1) ho.2
      simpa using this

/-- Spending a list of outputs lowers the total by their values. -/
theorem utxoTotal_spends (hpos : pos.isNull = false) {os : List COutPoint}
    (hm : IndexInv m log) (ho : SpendsUnspent pos m os) :
    utxoTotal files (os.foldl (ShinyCoin.spend pos) m)
      = utxoTotal files m - (os.map (outValue files m)).sum := by
  induction os generalizing m log with
  | nil => simp
  | cons o os ih =>
      have hval : ∀ o', outValue files (ShinyCoin.spend pos m o) o' = outValue files m o' :=
        outValue_spend o
      rw [List.foldl_cons, ih (hm.spend hpos ho.1) ho.2, utxoTotal_spend hm.finite hpos ho.1,
        List.map_congr_left (fun o' _ => hval o'), List.map_cons, List.sum_cons]
      ring

end

/-! ## The loop of `ConnectBlock` -/

/-- Every transaction can be read back from the position `ConnectBlock` computes for it. -/
def TxsStored (files : Files) (pindex : CBlockIndex) : List CTransaction → Nat → Prop
  | [], _ => True
  | tx :: txs, nTxPos =>
      files.readTx ⟨pindex.nFile, pindex.nBlockPos, nTxPos⟩ = some tx ∧
        TxsStored files pindex txs (nTxPos + tx.getSerializeSize)

/-- The block is on disk where its index entry says. -/
def CBlock.Stored (files : Files) (block : CBlock) (pindex : CBlockIndex) : Prop :=
  TxsStored files pindex block.vtx (block.firstTxPos pindex.nBlockPos)

theorem ConnectState.posThisTx_ne_inPool (st : ConnectState) (pindex : CBlockIndex)
    (h : 1 < st.nTxPos) : st.posThisTx pindex ≠ CDiskTxPos.inPool := by
  intro heq
  have := congrArg CDiskTxPos.nTxPos heq
  simp only [posThisTx, CDiskTxPos.inPool] at this
  omega

/-- The header alone takes 80 bytes. -/
theorem CBlock.one_lt_firstTxPos (block : CBlock) (nBlockPos : Nat) :
    1 < block.firstTxPos nBlockPos := by
  have hsize : 0 < getSizeOfCompactSize block.vtx.length := by
    rw [getSizeOfCompactSize]
    split_ifs <;> omega
  have h82 : ({ vtx := [] } : CBlock).getSerializeSize = 82 := by decide
  have h1 : getSizeOfCompactSize 0 = 1 := by decide
  simp only [firstTxPos, h82, h1]
  omega

/-- What holds in the loop of `ConnectBlock` when `rest` is still to come. -/
structure LoopInv (env : Env) (files : Files) (s : NodeState) (pindex : CBlockIndex)
    (log : List (Lib.Event Uint256)) (rest : List CTransaction) (st : ConnectState) : Prop where
  index : IndexInv (st.index s) log
  total : utxoTotal files (st.index s)
    = utxoTotal files s.txdb.data.txIndex + st.nValueOut - st.nValueIn
  fresh : ∀ tx ∈ rest, FullySpent (st.index s) (env.getHash tx)
  nodup : (rest.map env.getHash).Nodup
  stored : TxsStored files pindex rest st.nTxPos
  nTxPos : 1 < st.nTxPos

theorem prevValue_eq {files : Files} {pool : CTxMemPool} {m : TxIndexMap} {inputs : MapPrevTx}
    (hm : InputsMatch files pool m inputs)
    (hdisk : ∀ h txindex, m h = some txindex → txindex.pos ≠ CDiskTxPos.inPool) {txin : CTxIn}
    {prev : CTxIndex × CTransaction} (hin : inputs txin.prevout.hash = some prev) :
    CTransaction.prevValue inputs txin = outValue files m txin.prevout := by
  obtain ⟨hidx, hread⟩ := hm _ _ _ hin
  rw [CTransaction.readTxPrev, if_neg (hdisk _ _ hidx)] at hread
  rw [CTransaction.prevValue, outValue, hin, hidx, Option.bind_some, Option.bind_some]
  cases hx : files.readTx prev.1.pos with
  | none => rw [hx] at hread; cases hread
  | some txPrev =>
      rw [hx] at hread
      cases hread
      rfl

/-- One round keeps the loop's invariant. -/
theorem LoopInv.step {env : Env} {files : Files} {s : NodeState} {block : CBlock}
    {pindex : CBlockIndex} {log : List (Lib.Event Uint256)} {tx : CTransaction}
    {rest : List CTransaction} {st st' : ConnectState} {nTxValueIn nTxValueOut : ℤ}
    (hI : LoopInv env files s pindex log (tx :: rest) st)
    (h : TxConnected env files s block pindex st tx st' nTxValueIn nTxValueOut) :
    LoopInv env files s pindex (log ++ txEvents env tx) rest st' := by
  obtain ⟨hread, hstored⟩ : files.readTx (st.posThisTx pindex) = some tx ∧
    TxsStored files pindex rest (st.nTxPos + tx.getSerializeSize) := hI.stored
  obtain ⟨-, hpos, -⟩ := Files.readTx_eq_some.mp hread
  have hpool := st.posThisTx_ne_inPool pindex hI.nTxPos
  obtain ⟨hhash, hnodup⟩ := List.nodup_cons.mp hI.nodup
  obtain ⟨hval, -⟩ := getValueOut_eq h.getValueOut
  -- the index between the spends and the entry of the transaction itself
  have hmid : IndexInv (spendInputs (st.posThisTx pindex) (st.index s) tx)
        (log ++ if tx.isCoinBase then []
          else tx.vin.map fun txin => .spend (txin.prevout.hash, txin.prevout.n)) ∧
      utxoTotal files (spendInputs (st.posThisTx pindex) (st.index s) tx)
        = utxoTotal files (st.index s) - nTxValueIn ∧
      ∀ h, FullySpent (st.index s) h →
        FullySpent (spendInputs (st.posThisTx pindex) (st.index s) tx) h := by
    cases hcb : tx.isCoinBase with
    | true =>
        rw [spendInputs, if_pos hcb, (h.coinbase hcb).1]
        exact ⟨by simpa using hI.index, by ring, fun h hh => hh⟩
    | false =>
        obtain ⟨inputs, hspent, hvin, -⟩ := h.spends hcb
        rw [spendInputs, hcb, if_neg Bool.false_ne_true]
        refine ⟨?_, ?_, fun h hh => ?_⟩
        · have := hI.index.spends hpos hspent.unspent
          rw [List.map_map] at this
          exact this
        · rw [utxoTotal_spends hpos hI.index hspent.unspent, hvin, CTransaction.sumValueIn,
            List.map_map]
          congr 2
          apply List.map_congr_left
          intro txin htxin
          obtain ⟨txindex, txPrev, hin, -⟩ := hspent.range txin htxin
          exact (prevValue_eq hspent.fetched hI.index.onDisk hin).symm
        · rw [FullySpent, (hh.spends hspent.unspent).2]
          exact hh
  obtain ⟨hinv, htotal, hfresh⟩ := hmid
  refine ⟨?_, ?_, ?_, hnodup, ?_, ?_⟩
  · rw [h.index, applyTx, txEvents, ← List.append_assoc]
    exact hinv.create hpool _ _
  · rw [h.index, applyTx, utxoTotal_create hinv.finite hread
      (hfresh _ (hI.fresh tx List.mem_cons_self)), htotal, hI.total, h.nValueIn, h.nValueOut, hval]
    ring
  · intro tx' htx' txindex hx
    rw [h.index, applyTx, Lib.PMap.set_of_ne] at hx
    · exact hfresh _ (hI.fresh tx' (List.mem_cons_of_mem _ htx')) txindex hx
    · intro heq
      exact hhash (heq ▸ List.mem_map_of_mem htx')
  · rw [h.nTxPos]
    exact hstored
  · rw [h.nTxPos]
    have := hI.nTxPos
    omega

/-- The whole loop, for a block on disk whose checks have passed. -/
theorem CBlock.connectTxs_loopInv {env : Env} {files : Files} {s : NodeState} {block : CBlock}
    {pindex : CBlockIndex} {pprev : BlockPtr} {log : List (Lib.Event Uint256)} {st : ConnectState}
    (hstored : block.Stored files pindex) (hindex : IndexInv s.txdb.data.txIndex log)
    (hcheck : block.checkConnect env s pindex = .ok ())
    (h : block.connectTxs env files s pindex pprev = .ok st) :
    LoopInv env files s pindex (log ++ block.vtx.flatMap (txEvents env)) [] st := by
  obtain ⟨hblock, hover⟩ := checkConnect_ok hcheck
  have hstart : ∃ done, done ++ block.vtx = block.vtx ∧
      LoopInv env files s pindex (log ++ done.flatMap (txEvents env)) block.vtx
        { nTxPos := block.firstTxPos pindex.nBlockPos, infos := s.infos } := by
    have hidx : ({ nTxPos := block.firstTxPos pindex.nBlockPos, infos := s.infos } :
        ConnectState).index s = s.txdb.data.txIndex := Lib.PMap.empty_layer _
    refine ⟨[], rfl, ?_, ?_, ?_, hblock.nodup, hstored, block.one_lt_firstTxPos _⟩
    · rw [hidx]
      simpa using hindex
    · rw [hidx]
      simp
    · rw [hidx]
      exact hover
  obtain ⟨done, hdone, hI⟩ := Lib.foldlM_ok_inv
    (fun rest st => ∃ done, done ++ rest = block.vtx ∧
      LoopInv env files s pindex (log ++ done.flatMap (txEvents env)) rest st)
    (fun tx rest st st' hI hstep => by
      obtain ⟨done, hdone, hI⟩ := hI
      obtain ⟨nTxValueIn, nTxValueOut, hconn⟩ := connectTx_ok hstep
      refine ⟨done ++ [tx], by simpa using hdone, ?_⟩
      have := hI.step hconn
      rw [List.flatMap_append, ← List.append_assoc]
      simpa using this)
    hstart h
  rw [List.append_nil] at hdone
  rw [← hdone]
  exact hI

/-! ## Runs of `ConnectBlock` -/

/-- A connected block, with the counters of its `pprev` and the final locals of the `ConnectBlock`
that connected it. -/
structure ConnectedBlock where
  block : CBlock
  pindex : CBlockIndex
  pprev : BlockPtr
  prevStats : BlockStats
  st : ConnectState

/-- The tip above `genesis` after some blocks were connected. -/
def tipOf (genesis : BlockPtr) (bs : List ConnectedBlock) : BlockPtr :=
  match bs.getLast? with
  | none => genesis
  | some b => b.pindex :: b.pprev

/-- A node that has connected nothing above the genesis block: nothing is indexed and the genesis
block's counters are zero. -/
structure GenesisState (genesis : BlockPtr) (s : NodeState) : Prop where
  txIndex : s.txdb.data.txIndex = Lib.PMap.empty
  stats : s.statsOf genesis = {}

/-- A node may do anything between two calls that leaves the index and the counters alone. -/
def SameLedger (s s' : NodeState) : Prop :=
  s'.txdb.data.txIndex = s.txdb.data.txIndex ∧ s'.blockStats = s.blockStats

/-- Successful `ConnectBlock` calls, each block on top of the one before. -/
inductive ConnectRun (env : Env) (files : Files) (genesis : BlockPtr) :
    List ConnectedBlock → NodeState → Prop where
  | genesis {s : NodeState} (h : GenesisState genesis s) : ConnectRun env files genesis [] s
  | connect {bs : List ConnectedBlock} {s s₁ s' : NodeState} {block : CBlock}
      {pindex : CBlockIndex} {st : ConnectState} (hrun : ConnectRun env files genesis bs s)
      (hsame : SameLedger s s₁)
      (hst : block.connectTxs env files s₁ pindex (tipOf genesis bs) = .ok st)
      (hconn : block.connectBlock env files pindex (tipOf genesis bs) s₁ = .ok s') :
      ConnectRun env files genesis
        (bs ++ [⟨block, pindex, tipOf genesis bs, s₁.statsOf (tipOf genesis bs), st⟩]) s'

@[simp] theorem tipOf_append (genesis : BlockPtr) (bs : List ConnectedBlock) (b : ConnectedBlock) :
    tipOf genesis (bs ++ [b]) = b.pindex :: b.pprev := by
  simp [tipOf]

/-- What the run did to the index, as a history. -/
def runEvents (env : Env) (bs : List ConnectedBlock) : List (Lib.Event Uint256) :=
  bs.flatMap fun b => b.block.vtx.flatMap (txEvents env)

theorem runEvents_append (env : Env) (bs : List ConnectedBlock) (b : ConnectedBlock) :
    runEvents env (bs ++ [b]) = runEvents env bs ++ b.block.vtx.flatMap (txEvents env) := by
  simp [runEvents]

theorem statsOf_congr {s s' : NodeState} (h : s'.blockStats = s.blockStats) (ptr : BlockPtr) :
    s'.statsOf ptr = s.statsOf ptr := by
  cases ptr with
  | nil => rfl
  | cons pindex pprev => simp only [NodeState.statsOf, h]

/-- What `ConnectBlock` leaves in the index and in the counters. -/
theorem CBlock.connectBlock_writes {env : Env} {files : Files} {s s' : NodeState} {block : CBlock}
    {pindex : CBlockIndex} {pprev : BlockPtr} {st : ConnectState}
    (hst : block.connectTxs env files s pindex pprev = .ok st)
    (h : block.connectBlock env files pindex pprev s = .ok s') :
    ∃ nCoinbaseOut, block.checkConnect env s pindex = .ok () ∧
      block.checkCoinbaseReward pprev (s.statsOf pprev).nPoSDebt st.nFees = .ok nCoinbaseOut ∧
      s'.txdb.data.txIndex = st.index s ∧
      s'.statsOf (pindex :: pprev) = block.newStats pprev (s.statsOf pprev) st nCoinbaseOut := by
  obtain ⟨st', nCoinbaseOut, ws, hcheck, hst', hreward, -, rfl⟩ := connectBlock_ok h
  rw [hst] at hst'
  cases hst'
  refine ⟨nCoinbaseOut, hcheck, hreward, ?_, ?_⟩
  · cases pprev <;> rfl
  · have hstats : s.statsOf pprev = ({ s with infos := st.infos } : NodeState).statsOf pprev :=
      (statsOf_congr rfl pprev).symm
    rw [hstats]
    cases pprev <;> simp [writeConnected, writePrevIndex, NodeState.updateDb, NodeState.statsOf]

/-- After every run, the index has the run as its history, and the unspent outputs are worth the
tip's money supply. -/
theorem ConnectRun.index_inv {env : Env} {files : Files} {genesis : BlockPtr}
    {bs : List ConnectedBlock} {s : NodeState} (hrun : ConnectRun env files genesis bs s)
    (hstored : ∀ b ∈ bs, b.block.Stored files b.pindex) :
    IndexInv s.txdb.data.txIndex (runEvents env bs) ∧
      utxoTotal files s.txdb.data.txIndex = (s.statsOf (tipOf genesis bs)).nMoneySupply := by
  induction hrun with
  | genesis h =>
      rw [h.txIndex, show tipOf genesis [] = genesis from rfl, h.stats]
      refine ⟨indexInv_empty, ?_⟩
      simp [utxoTotal, Lib.PMap.total]
  | @connect bs s s₁ s' block pindex st hrun hsame hst hconn ih =>
      obtain ⟨hinv, htotal⟩ := ih (fun b hb => hstored b (by simp [hb]))
      obtain ⟨nCoinbaseOut, hcheck, -, hidx, hstats⟩ := CBlock.connectBlock_writes hst hconn
      have hblock : block.Stored files pindex :=
        hstored ⟨block, pindex, tipOf genesis bs, _, st⟩ (List.mem_append_right _ List.mem_cons_self)
      have hinv₁ : IndexInv s₁.txdb.data.txIndex (runEvents env bs) := by rw [hsame.1]; exact hinv
      have hloop := CBlock.connectTxs_loopInv hblock hinv₁ hcheck hst
      rw [hidx, tipOf_append, hstats]
      refine ⟨?_, ?_⟩
      · rw [runEvents_append]
        exact hloop.index
      · rw [hloop.total, hsame.1, htotal, CBlock.newStats, statsOf_congr hsame.2]

/-- Over every run of `ConnectBlock`: whatever an input spends was entered into the index before
and not spent since, and the unspent outputs are worth exactly the tip's money supply. -/
theorem no_double_spend_and_supply (env : Env) (files : Files) (genesis : BlockPtr)
    (bs : List ConnectedBlock) (s : NodeState) (hrun : ConnectRun env files genesis bs s)
    (hstored : ∀ b ∈ bs, b.block.Stored files b.pindex) :
    (∀ before o after, runEvents env bs = before ++ .spend o :: after →
      ∃ older nOutputs newer, before = older ++ .create o.1 nOutputs :: newer ∧ o.2 < nOutputs ∧
        .spend o ∉ newer ∧ ∀ n, .create o.1 n ∉ newer) ∧
    utxoTotal files s.txdb.data.txIndex = (s.statsOf (tipOf genesis bs)).nMoneySupply := by
  obtain ⟨hinv, htotal⟩ := hrun.index_inv hstored
  refine ⟨?_, htotal⟩
  intro before o after h
  exact hinv.noDoubleSpend before o after h

/-! ## A block to run -/

/-- The genesis block's index entry. -/
def sampleGenesis : CBlockIndex := { hashBlock := 1, nFile := 1, nBlockPos := 0 }

def sampleCoinbase : CTransaction where
  vin := [{ prevout := COutPoint.null, scriptSig := [0, 0] }]
  vout := [{ nValue := COIN, scriptPubKey := [1] }]

/-- A payment of the coinbase of its own block. -/
def samplePayment : CTransaction where
  nTime := 1
  vin := [{ prevout := ⟨1, 0⟩ }]
  vout := [{ nValue := COIN, scriptPubKey := [2] }]

def sampleBlock : CBlock := { nTime := 1, nNonce := 1, vtx := [sampleCoinbase, samplePayment] }

def sampleIndex : CBlockIndex :=
  { hashBlock := 2, nFile := 1, nBlockPos := 0, nHeight := 1, nPoWHeight := 1 }

def sampleFiles : Files where
  block _ _ := none
  tx pos :=
    if pos = ⟨1, 0, 81⟩ then some sampleCoinbase
    else if pos = ⟨1, 0, 150⟩ then some samplePayment
    else none

/-- A node with an open info transaction and nothing else. -/
def sampleState : NodeState :=
  { infos := { CTxInfoStore.new with curTransaction := some Lib.Table.empty } }

theorem sampleBlock_stored : sampleBlock.Stored sampleFiles sampleIndex :=
  ⟨by decide, by decide, trivial⟩

theorem sampleRun : ∃ st s', ConnectRun Env.plain sampleFiles [sampleGenesis]
    [⟨sampleBlock, sampleIndex, [sampleGenesis], {}, st⟩] s' := by
  obtain ⟨st, hst⟩ := Lib.exists_of_isOk (show (sampleBlock.connectTxs Env.plain sampleFiles
    sampleState sampleIndex [sampleGenesis]).isOk = true by decide)
  obtain ⟨s', hs'⟩ := Lib.exists_of_isOk (show (sampleBlock.connectBlock Env.plain sampleFiles
    sampleIndex [sampleGenesis] sampleState).isOk = true by decide)
  have hstart : ConnectRun Env.plain sampleFiles [sampleGenesis] [] sampleState :=
    ConnectRun.genesis ⟨rfl, rfl⟩
  exact ⟨st, s', hstart.connect ⟨rfl, rfl⟩ hst hs'⟩

theorem no_double_spend_and_supply_sampleBlock :
    ∃ st s', ConnectRun Env.plain sampleFiles [sampleGenesis]
        [⟨sampleBlock, sampleIndex, [sampleGenesis], {}, st⟩] s' ∧
      utxoTotal sampleFiles s'.txdb.data.txIndex
        = (s'.statsOf [sampleIndex, sampleGenesis]).nMoneySupply := by
  obtain ⟨st, s', hrun⟩ := sampleRun
  refine ⟨st, s', hrun, (no_double_spend_and_supply _ _ _ _ _ hrun ?_).2⟩
  intro b hb
  rw [List.mem_singleton] at hb
  rw [hb]
  exact sampleBlock_stored

end ShinyCoin

import ShinyCoin.Miner.Template
import ShinyCoin.Chain.Replay

/-!
# One pass over the memory pool

What a pass adds to the block, when it is looked at by itself: transactions of the pool, none of
them twice, each after those it spends, with infos that can be processed in this order, and with the
fees that were added to the total (`Collected`).
-/

namespace ShinyCoin

/-! ## What a template is to be -/

/-- Every transaction of the pool is found under its hash. -/
def CTxMemPool.Keyed (env : Env) (pool : CTxMemPool) : Prop :=
  ∀ h tx, pool.lookup h = some tx → env.getHash tx = h

/-- No transaction on disk is where those of the memory pool are said to be. -/
def NoneInPool (txdb : TxIndexMap) : Prop :=
  ∀ h txindex, txdb h = some txindex → txindex.pos ≠ CDiskTxPos.inPool

/-- The transaction under a hash, for one that comes after `before` in a block. -/
def prevTxOf (env : Env) (files : Files) (txdb : TxIndexMap) (before : List CTransaction)
    (hash : Uint256) : Option CTransaction :=
  (before.find? fun tx => env.getHash tx == hash).or (readDiskTx files txdb hash)

/-- The value of an output spent by a transaction that comes after `before` in a block. -/
def spentValue (env : Env) (files : Files) (txdb : TxIndexMap) (before : List CTransaction)
    (txin : CTxIn) : ℤ :=
  ((prevTxOf env files txdb before txin.prevout.hash).bind fun txPrev =>
    txPrev.vout[txin.prevout.n]?.map CTxOut.nValue).getD 0

/-- What a transaction that comes after `before` takes in more than it pays out. -/
def CTransaction.feeAfter (env : Env) (files : Files) (txdb : TxIndexMap)
    (before : List CTransaction) (tx : CTransaction) : ℤ :=
  (tx.vin.map (spentValue env files txdb before)).sum - (tx.vout.map CTxOut.nValue).sum

/-- The fees of transactions in a row. -/
def feesOf (env : Env) (files : Files) (txdb : TxIndexMap) :
    List CTransaction → List CTransaction → ℤ
  | _, [] => 0
  | before, tx :: txs =>
      tx.feeAfter env files txdb before + feesOf env files txdb (before ++ [tx]) txs

theorem feesOf_concat (env : Env) (files : Files) (txdb : TxIndexMap) (before txs : List CTransaction)
    (tx : CTransaction) :
    feesOf env files txdb before (txs ++ [tx])
      = feesOf env files txdb before txs + tx.feeAfter env files txdb (before ++ txs) := by
  induction txs generalizing before with
  | nil => simp [feesOf]
  | cons tx' txs ih =>
      simp only [List.cons_append, feesOf, ih, List.append_assoc, List.nil_append]
      ring

/-- A transaction stands after the transactions of the pool that it spends. -/
def SpendsBefore (pool : CTxMemPool) (txdb : TxIndexMap) (before : List CTransaction)
    (tx : CTransaction) : Prop :=
  ∀ txin ∈ tx.vin, ∀ txPrev, pool.lookup txin.prevout.hash = some txPrev →
    txdb txin.prevout.hash = none → txPrev ∈ before

/-! ## A round -/

section

variable {env : Env} {files : Files} {miner : Miner} {s : NodeState} {pool : CTxMemPool}
  {st st' : CollectState} {tx : CTransaction}

theorem of_orElse_eq_ok {α β : Type} {x : Except Err α} {b c : β} {f : α → Except Err β}
    (h : orElse x b f = .ok c) : (∃ a, x = .ok a ∧ f a = .ok c) ∨ b = c := by
  cases x with
  | ok a => exact .inl ⟨a, rfl, h⟩
  | error e =>
      cases e with
      | exc what => cases h
      | fail msg => exact .inr (Except.ok.inj h)
      | invalid msg => exact .inr (Except.ok.inj h)

/-- What the round has done when its transaction is added. -/
structure Added (env : Env) (files : Files) (s : NodeState) (pool : CTxMemPool) (st : CollectState)
    (tx : CTransaction) (q : TxIndexMap) (infos : CTxInfoStore) (nTxFees : ℤ) : Prop where
  inputs : ∃ mapInputs nTxValueIn nTxValueOut,
    tx.fetchInputs files pool s.txdb.data.txIndex st.mapTestPool false true = .ok mapInputs ∧
    tx.getValueIn mapInputs = .ok nTxValueIn ∧ tx.getValueOut = .ok nTxValueOut ∧
    nTxFees = nTxValueIn - nTxValueOut ∧
    tx.connectInputs env files s.nBestHeight s.txdb.data.txIndex mapInputs st.mapTestPool
      CDiskTxPos.inPool s.pindexBest false true = .ok q
  infos : tx.processTxInfos env files s.txdb.data.txIndex st.infos = .ok infos

theorem CTransaction.tryTx_added {q : TxIndexMap} {infos : CTxInfoStore} {nTxSigOps : Nat}
    {nTxFees : ℤ} (h : tx.tryTx env files s pool st = .ok (.added q infos nTxSigOps nTxFees)) :
    Added env files s pool st tx q infos nTxFees := by
  rw [tryTx] at h
  split at h
  · cases h
  split at h
  · cases h
  split at h
  · cases h
  rw [tryFetch] at h
  obtain ⟨mapInputs, hfetch, h⟩ | hbad := of_orElse_eq_ok h
  · obtain ⟨nTxValueIn, hin, h⟩ := Lib.bind_eq_ok.mp h
    obtain ⟨nTxValueOut, hout, h⟩ := Lib.bind_eq_ok.mp h
    split at h
    · cases h
    obtain ⟨nP2SH, -, h⟩ := Lib.bind_eq_ok.mp h
    split at h
    · cases h
    rw [tryConnect] at h
    obtain ⟨q', hconn, h⟩ | hbad := of_orElse_eq_ok h
    · obtain ⟨infos', hproc, h⟩ | hbad := of_orElse_eq_ok h
      · rw [Lib.mapError_eq_ok] at hproc
        cases h
        exact ⟨⟨mapInputs, nTxValueIn, nTxValueOut, hfetch, hin, hout, rfl, hconn⟩, hproc⟩
      · cases hbad
    · cases hbad
  · cases hbad

/-! ## The queues -/

/-- The transactions a pass has not looked at yet. -/
def CollectState.pending (st : CollectState) : List CTransaction :=
  st.mapPriority ++ st.vOrphan.map COrphan.ptx

/-- Releasing an orphan moves it to the queue. -/
theorem perm_released (hash : Uint256) (vOrphan : List COrphan) :
    (releasedBy hash vOrphan ++ (waitingAfter hash vOrphan).map COrphan.ptx).Perm
      (vOrphan.map COrphan.ptx) := by
  have hptx : vOrphan.map COrphan.ptx = (vOrphan.map (COrphan.erase hash)).map COrphan.ptx := by
    rw [List.map_map]
    rfl
  rw [hptx, releasedBy, waitingAfter, ← List.map_append]
  exact (List.filter_append_perm _ _).map _

theorem CollectState.pending_add (st : CollectState) (tx : CTransaction) (q : TxIndexMap)
    (infos : CTxInfoStore) (nTxSigOps : Nat) (nTxFees : ℤ) :
    (st.add env miner tx q infos nTxSigOps nTxFees).pending.Perm st.pending := by
  show (Lib.enqueueAll miner.priority st.mapPriority (releasedBy (env.getHash tx) st.vOrphan)
    ++ (waitingAfter (env.getHash tx) st.vOrphan).map COrphan.ptx).Perm _
  refine ((Lib.perm_enqueueAll _ _).append_right _).trans ?_
  rw [List.append_assoc]
  exact (perm_released _ _).append_left _

/-! ## What a pass keeps -/

/-- The state of a pass over `pool` that started with `template` and has added `collected`. -/
structure Collected (env : Env) (files : Files) (s : NodeState) (pool : CTxMemPool)
    (template : Template) (infos : CTxInfoStore) (collected : List CTransaction)
    (st : CollectState) : Prop where
  vtx : st.vtx = template.vtx ++ collected
  nodup : (collected ++ st.pending).Nodup
  fromPool : ∀ tx ∈ collected ++ st.pending, pool.lookup (env.getHash tx) = some tx ∧
    tx.isCoinBase = false ∧ tx.isCoinStake = false
  /-- What the test pool knows is either collected or on disk. -/
  index : ∀ h txindex, st.mapTestPool.layer s.txdb.data.txIndex h = some txindex →
    txindex.pos = CDiskTxPos.inPool ∧ (∃ tx ∈ collected, env.getHash tx = h) ∨
      txindex.pos ≠ CDiskTxPos.inPool ∧ (∀ tx ∈ collected, env.getHash tx ≠ h) ∧
        (s.txdb.data.txIndex h).map CTxIndex.pos = some txindex.pos
  /-- What is spent and not on disk has been collected before. -/
  ordered : ∀ before tx after, collected = before ++ tx :: after → ∀ txin ∈ tx.vin,
    s.txdb.data.txIndex txin.prevout.hash = none →
      ∃ txPrev ∈ before, env.getHash txPrev = txin.prevout.hash
  infos : collected.foldlM (fun st tx => tx.processTxInfos env files s.txdb.data.txIndex st) infos
    = .ok st.infos
  nFees : st.nFees = template.nFees + feesOf env files s.txdb.data.txIndex [] collected

namespace Collected

variable {template : Template} {infos : CTxInfoStore} {collected : List CTransaction}

/-- A collected transaction is the one the pool has under its hash. -/
theorem lookup_eq (h : Collected env files s pool template infos collected st)
    (htx : tx ∈ collected) : pool.lookup (env.getHash tx) = some tx :=
  (h.fromPool tx (List.mem_append_left _ htx)).1

/-- A transaction that was taken off the queue and not added. -/
theorem skip (h : Collected env files s pool template infos collected st)
    {mapPriority : List CTransaction} (hq : st.mapPriority = tx :: mapPriority) :
    Collected env files s pool template infos collected { st with mapPriority := mapPriority } := by
  have hsub : (collected ++ ({ st with mapPriority := mapPriority } : CollectState).pending).Sublist
      (collected ++ st.pending) := by
    refine (List.Sublist.refl _).append ?_
    rw [CollectState.pending, CollectState.pending, hq]
    exact List.sublist_cons_self _ _
  exact { h with
    nodup := h.nodup.sublist hsub
    fromPool := fun tx htx => h.fromPool tx (hsub.subset htx) }

/-- The previous transaction of a fetched input is the one `prevTxOf` tells. -/
theorem prevTxOf_eq (h : Collected env files s pool template infos collected st)
    {hash : Uint256} {txindex : CTxIndex} {txPrev : CTransaction}
    (hidx : st.mapTestPool.layer s.txdb.data.txIndex hash = some txindex)
    (hread : CTransaction.readTxPrev files pool hash txindex = .ok txPrev) :
    prevTxOf env files s.txdb.data.txIndex collected hash = some txPrev := by
  rw [prevTxOf]
  rcases h.index hash txindex hidx with ⟨hpos, prev, hprev, hhash⟩ | ⟨hpos, hnone, hdisk⟩
  · -- a transaction of the block
    have hlookup := h.lookup_eq hprev
    rw [CTransaction.readTxPrev, if_pos hpos, ← hhash, hlookup] at hread
    cases hread
    obtain ⟨prev', hfind⟩ : ∃ prev', (collected.find? fun tx => env.getHash tx == hash)
        = some prev' := by
      rw [← Option.isSome_iff_exists, List.find?_isSome]
      exact ⟨txPrev, hprev, by simp [hhash]⟩
    have hlookup' := h.lookup_eq (List.mem_of_find?_eq_some hfind)
    have hhash' := List.find?_some hfind
    rw [beq_iff_eq] at hhash'
    rw [hhash', ← hhash, hlookup] at hlookup'
    rw [hfind, Option.some_or, Option.some.inj hlookup']
  · -- a transaction on disk
    rw [CTransaction.readTxPrev, if_neg hpos] at hread
    have hfind : (collected.find? fun tx => env.getHash tx == hash) = none := by
      rw [List.find?_eq_none]
      intro tx htx
      rw [beq_iff_eq]
      exact hnone tx htx
    rw [hfind, Option.none_or, readDiskTx]
    obtain ⟨e, he, hepos⟩ := Option.map_eq_some_iff.mp hdisk
    rw [he, Option.bind_some, hepos]
    split at hread
    · cases hread
    · next txPrev' hx =>
      cases hread
      exact hx

/-- A transaction that is added. -/
theorem add (h : Collected env files s pool template infos collected st)
    {mapPriority : List CTransaction} (hq : st.mapPriority = tx :: mapPriority)
    {q : TxIndexMap} {infos' : CTxInfoStore} {nTxSigOps : Nat} {nTxFees : ℤ}
    (hadd : Added env files s pool { st with mapPriority := mapPriority } tx q infos' nTxFees) :
    Collected env files s pool template infos (collected ++ [tx])
      (({ st with mapPriority := mapPriority } : CollectState).add env miner tx q infos' nTxSigOps
        nTxFees) := by
  obtain ⟨mapInputs, nTxValueIn, nTxValueOut, hfetch, hin, hout, rfl, hconn⟩ := hadd.inputs
  obtain ⟨-, hcb, -⟩ := h.fromPool tx
    (List.mem_append_right _ (by rw [CollectState.pending, hq]; exact List.mem_cons_self))
  obtain ⟨hmatch, hrange⟩ := CTransaction.fetchInputs_ok rfl hcb hfetch
  obtain ⟨-, hview, hvalue, -, -, -⟩ := CTransaction.connectInputs_ok rfl hcb hmatch hconn
  have hperm : (collected ++ [tx] ++ (({ st with mapPriority := mapPriority } : CollectState).add env
      miner tx q infos' nTxSigOps (nTxValueIn - nTxValueOut)).pending).Perm
      (collected ++ st.pending) := by
    rw [List.append_assoc]
    refine List.Perm.append_left _ ?_
    rw [CollectState.pending, CollectState.pending, hq]
    exact (CollectState.pending_add { st with mapPriority := mapPriority } tx q infos' nTxSigOps
      _).cons tx
  refine ⟨?_, hperm.nodup_iff.mpr h.nodup, fun tx' htx' => h.fromPool tx' (hperm.mem_iff.mp htx'),
    ?_, ?_, ?_, ?_⟩
  · show st.vtx ++ [tx] = _
    rw [h.vtx, List.append_assoc]
  · -- the test pool has a new entry, and positions stay
    intro k txindex hk
    rw [show (({ st with mapPriority := mapPriority } : CollectState).add env miner tx q infos'
      nTxSigOps (nTxValueIn - nTxValueOut)).mapTestPool
      = q.set (env.getHash tx) (CTxIndex.new CDiskTxPos.inPool tx.vout.length) from rfl,
      Lib.PMap.set_layer, Lib.PMap.set_apply] at hk
    split at hk
    · next heq =>
      cases hk
      exact .inl ⟨rfl, tx, by simp, heq.symm⟩
    · next hne =>
      rw [hview] at hk
      have hpos := pos_spendInputs CDiskTxPos.inPool (st.mapTestPool.layer s.txdb.data.txIndex) tx k
      rw [hk, Option.map_some] at hpos
      obtain ⟨txindex₀, hk₀, hpos₀⟩ := Option.map_eq_some_iff.mp hpos.symm
      rw [← hpos₀]
      rcases h.index k txindex₀ hk₀ with ⟨hin, tx', htx', hhash⟩ | ⟨hout, hnone, hdisk⟩
      · exact .inl ⟨hin, tx', List.mem_append_left _ htx', hhash⟩
      · refine .inr ⟨hout, ?_, hdisk⟩
        intro tx' htx'
        rcases List.mem_append.mp htx' with htx' | htx'
        · exact hnone tx' htx'
        · rw [List.mem_singleton.mp htx']
          exact Ne.symm hne
  · -- what it spends is on disk or has been collected
    intro before tx' after hsplit
    rcases List.eq_nil_or_concat after with rfl | ⟨after', last, rfl⟩
    · obtain ⟨rfl, htx'⟩ := List.append_inj' hsplit rfl
      obtain rfl : tx = tx' := by simpa using htx'
      intro txin htxin hdisk
      obtain ⟨txindex, txPrev, hinput, -, -⟩ := hrange txin htxin
      obtain ⟨hidx, -⟩ := hmatch _ _ _ hinput
      rcases h.index _ _ hidx with ⟨-, prev, hprev, hhash⟩ | ⟨-, -, hdisk'⟩
      · exact ⟨prev, hprev, hhash⟩
      · rw [hdisk] at hdisk'
        cases hdisk'
    · rw [List.concat_eq_append, ← List.cons_append, ← List.append_assoc] at hsplit
      exact h.ordered before tx' after' (List.append_inj_left' hsplit rfl)
  · rw [List.foldlM_append]
    exact Lib.bind_eq_ok.mpr ⟨st.infos, h.infos, Lib.bind_eq_ok.mpr ⟨infos', hadd.infos, rfl⟩⟩
  · show st.nFees + (nTxValueIn - nTxValueOut) = _
    rw [hvalue] at hin
    cases hin
    rw [h.nFees, feesOf_concat, List.nil_append, CTransaction.feeAfter, (getValueOut_eq hout).1,
      CTransaction.sumValueIn, add_assoc]
    congr 4
    refine List.map_congr_left fun txin htxin => ?_
    obtain ⟨txindex, txPrev, hinput, -, -⟩ := hrange txin htxin
    obtain ⟨hidx, hread⟩ := hmatch _ _ _ hinput
    rw [CTransaction.prevValue, hinput, spentValue, h.prevTxOf_eq hidx hread]
    rfl

/-- The loop keeps it, and breaks off with a transaction of the pool. -/
theorem collectTxs {n : Nat} {conflict : Option CTransaction}
    (h : Collected env files s pool template infos collected st)
    (hloop : ShinyCoin.collectTxs env files miner s pool n st = .ok (st', conflict)) :
    ∃ more, Collected env files s pool template infos (collected ++ more) st' ∧
      ∀ tx, conflict = some tx → pool.lookup (env.getHash tx) = some tx := by
  induction n generalizing collected st with
  | zero =>
      cases hloop
      exact ⟨[], by simpa using h, by simp⟩
  | succ n ih =>
      rw [ShinyCoin.collectTxs] at hloop
      split at hloop
      · cases hloop
        exact ⟨[], by simpa using h, by simp⟩
      · next tx mapPriority hq =>
        obtain ⟨outcome, htry, hloop⟩ := Lib.bind_eq_ok.mp hloop
        cases outcome with
        | skipped => exact ih (h.skip hq) hloop
        | conflict =>
            cases hloop
            refine ⟨[], by simpa using h.skip hq, ?_⟩
            intro tx' htx'
            cases htx'
            exact (h.fromPool tx (List.mem_append_right _
              (by rw [CollectState.pending, hq]; exact List.mem_cons_self))).1
        | added q infos' nTxSigOps nTxFees =>
            obtain ⟨more, hmore, hconf⟩ :=
              ih (h.add hq (CTransaction.tryTx_added htry)) hloop
            exact ⟨tx :: more, by simpa using hmore, hconf⟩

end Collected

/-- The rounds suffice: a loop that does not break off has emptied the queue. -/
theorem collectTxs_exhausts {n : Nat} (hn : st.pending.length ≤ n)
    (hloop : collectTxs env files miner s pool n st = .ok (st', none)) : st'.mapPriority = [] := by
  induction n generalizing st with
  | zero =>
      cases hloop
      have hlen : st'.mapPriority.length ≤ 0 := by
        rw [CollectState.pending, List.length_append] at hn
        omega
      exact List.length_eq_zero_iff.mp (Nat.le_zero.mp hlen)
  | succ n ih =>
      rw [collectTxs] at hloop
      split at hloop
      · next hq =>
        cases hloop
        exact hq
      · next tx mapPriority hq =>
        have hlen : ({ st with mapPriority := mapPriority } : CollectState).pending.length ≤ n := by
          rw [CollectState.pending, hq, List.cons_append, List.length_cons] at hn
          exact Nat.le_of_succ_le_succ hn
        obtain ⟨outcome, -, hloop⟩ := Lib.bind_eq_ok.mp hloop
        cases outcome with
        | skipped => exact ih hlen hloop
        | conflict => cases hloop
        | added q infos' nTxSigOps nTxFees =>
            refine ih ?_ hloop
            rw [(CollectState.pending_add _ _ _ _ _ _).length_eq]
            exact hlen

/-! ## A pass -/

theorem CTxMemPool.mem_eligible (h : tx ∈ pool.eligible s) :
    (∃ k, pool.lookup k = some tx) ∧ tx.isCoinBase = false ∧ tx.isCoinStake = false := by
  obtain ⟨hmem, hok⟩ := List.mem_filter.mp h
  obtain ⟨⟨k, tx'⟩, hk, rfl⟩ := List.mem_map.mp hmem
  simp only [Bool.not_eq_true', Bool.or_eq_false_iff] at hok
  exact ⟨⟨k, Std.ExtTreeMap.mem_toList_iff_getElem?_eq_some.mp hk⟩, hok.1.1, hok.1.2⟩

/-- No transaction is in the pool twice. -/
theorem CTxMemPool.Keyed.nodup_eligible (hpool : pool.Keyed env) : (pool.eligible s).Nodup := by
  refine List.Nodup.filter _ (List.Nodup.map_on ?_ ?_)
  · rintro ⟨k, tx⟩ hk ⟨k', tx'⟩ hk' heq
    obtain rfl : tx = tx' := heq
    rw [← hpool k tx (Std.ExtTreeMap.mem_toList_iff_getElem?_eq_some.mp hk),
      ← hpool k' tx (Std.ExtTreeMap.mem_toList_iff_getElem?_eq_some.mp hk')]
  · refine pool.mapTx.distinct_keys_toList.imp ?_
    rintro a b hne rfl
    exact hne Std.ReflCmp.compare_self

/-- A pass starts with every transaction of the pool that may go into a block. -/
theorem perm_pending_start (files : Files) (miner : Miner) (s : NodeState) (pool : CTxMemPool)
    (template : Template) (infos : CTxInfoStore) :
    (template.start files miner s pool infos).pending.Perm (pool.eligible s) := by
  have horphans : (pool.orphans files s).map COrphan.ptx = (pool.eligible s).filter fun tx =>
      !(tx.dependsOn files s.txdb.data.txIndex).isEmpty := by
    rw [CTxMemPool.orphans, List.map_map]
    exact List.map_id _
  show (pool.prioritized files miner s ++ (pool.orphans files s).map COrphan.ptx).Perm _
  rw [horphans]
  refine ((Lib.perm_enqueueAll _ _).append_right _).trans ?_
  rw [List.nil_append]
  exact List.filter_append_perm _ _

theorem Collected.start (hpool : pool.Keyed env) (hdisk : NoneInPool s.txdb.data.txIndex)
    (template : Template) (infos : CTxInfoStore) :
    Collected env files s pool template infos [] (template.start files miner s pool infos) := by
  have hperm := perm_pending_start files miner s pool template infos
  refine ⟨(List.append_nil _).symm, ?_, ?_, ?_, ?_, rfl, ?_⟩
  · rw [List.nil_append, hperm.nodup_iff]
    exact hpool.nodup_eligible
  · intro tx htx
    rw [List.nil_append, hperm.mem_iff] at htx
    obtain ⟨⟨k, hk⟩, hcb, hcs⟩ := CTxMemPool.mem_eligible htx
    rw [hpool k tx hk]
    exact ⟨hk, hcb, hcs⟩
  · intro h txindex hidx
    replace hidx : s.txdb.data.txIndex h = some txindex := hidx
    exact .inr ⟨hdisk h txindex hidx, by simp, by rw [hidx]; rfl⟩
  · intro before tx after hnil
    exact absurd hnil.symm (by simp)
  · show template.nFees = template.nFees + 0
    ring

/-- The loop of a pass that returned. -/
theorem collectPass_loop {template template' : Template} {conflict : Option CTransaction}
    (h : collectPass env files miner s pool template = .ok (template', conflict)) :
    ∃ infos st, s.infos.beginTransaction = .ok infos ∧
      collectTxs env files miner s pool
        ((template.start files miner s pool infos).mapPriority.length
          + (template.start files miner s pool infos).vOrphan.length)
        (template.start files miner s pool infos) = .ok (st, conflict) ∧
      template' = ⟨st.vtx, st.nFees⟩ := by
  rw [collectPass] at h
  obtain ⟨infos, hinfos, h⟩ := Lib.bind_eq_ok.mp h
  rw [Lib.mapError_eq_ok] at hinfos
  obtain ⟨⟨st, conflict'⟩, hloop, h⟩ := Lib.bind_eq_ok.mp h
  cases h
  exact ⟨infos, st, hinfos, hloop, rfl⟩

/-- What a pass that returns has added, and why it broke off, if it did not empty the queue. -/
theorem collectPass_ok (hpool : pool.Keyed env) (hdisk : NoneInPool s.txdb.data.txIndex)
    {template template' : Template} {conflict : Option CTransaction}
    (h : collectPass env files miner s pool template = .ok (template', conflict)) :
    ∃ infos collected st, s.infos.beginTransaction = .ok infos ∧
      Collected env files s pool template infos collected st ∧
      template' = ⟨st.vtx, st.nFees⟩ ∧
      (∀ tx, conflict = some tx → pool.lookup (env.getHash tx) = some tx) ∧
      (conflict = none → st.mapPriority = []) := by
  obtain ⟨infos, st, hinfos, hloop, rfl⟩ := collectPass_loop h
  obtain ⟨collected, hst, hconf⟩ := (Collected.start hpool hdisk template infos).collectTxs hloop
  refine ⟨infos, collected, st, hinfos, by simpa using hst, rfl, hconf, ?_⟩
  rintro rfl
  refine collectTxs_exhausts ?_ hloop
  rw [CollectState.pending, List.length_append, List.length_map]

end

end ShinyCoin

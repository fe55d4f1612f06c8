import ShinyCoin.Miner.Restart
import ShinyCoin.Chain.Consistency

/-!
# Which templates are valid

A block template is valid when no pass over the memory pool broke off after it had collected
something. Otherwise the next pass collects the same transactions again: they are in the block
twice, and their fees are counted twice.
-/

namespace ShinyCoin

section

variable {env : Env} {files : Files} {miner : Miner} {s : NodeState} {pool pool' : CTxMemPool}
  {template template' : Template} {vtx : List CTransaction} {n : Nat}

/-! ## The passes -/

/-- A pass over the pool that breaks off has collected nothing by then, and neither has one over the
pool it leaves. `vtx` is the block before the first pass. -/
def CleanRestarts (env : Env) (files : Files) (miner : Miner) (s : NodeState)
    (vtx : List CTransaction) : Nat → CTxMemPool → Prop
  | 0, _ => True
  | n + 1, pool => ∀ template tx,
      collectPass env files miner s pool ⟨vtx, 0⟩ = .ok (template, some tx) →
        template.vtx = vtx ∧ CleanRestarts env files miner s vtx n (pool.remove env tx)

theorem collectPasses_ok
    (h : collectPasses env files miner s (n + 1) pool template = .ok (template', pool')) :
    collectPass env files miner s pool template = .ok (template', none) ∨
      ∃ template₁ tx, collectPass env files miner s pool template = .ok (template₁, some tx) ∧
        collectPasses env files miner s n (pool.remove env tx) template₁ = .ok (template', pool') := by
  rw [collectPasses] at h
  obtain ⟨⟨template₁, conflict⟩, hpass, h⟩ := Lib.bind_eq_ok.mp h
  cases conflict with
  | none =>
      cases h
      exact .inl hpass
  | some tx => exact .inr ⟨template₁, tx, hpass, h⟩

/-- The passes only add to the block. -/
theorem collectPasses_vtx
    (h : collectPasses env files miner s n pool template = .ok (template', pool')) :
    ∃ more, template'.vtx = template.vtx ++ more := by
  induction n generalizing pool template with
  | zero =>
      cases h
      exact ⟨[], (List.append_nil _).symm⟩
  | succ n ih =>
      have hpass : ∀ {template₁ conflict}, collectPass env files miner s pool template
          = .ok (template₁, conflict) → ∃ more, template₁.vtx = template.vtx ++ more := by
        intro template₁ conflict hpass
        obtain ⟨infos, st, -, hloop, rfl⟩ := collectPass_loop hpass
        exact collectTxs_vtx hloop
      rcases collectPasses_ok h with h | ⟨template₁, tx, h₁, h⟩
      · exact hpass h
      · obtain ⟨more₁, hmore₁⟩ := hpass h₁
        obtain ⟨more, hmore⟩ := ih h
        exact ⟨more₁ ++ more, by rw [hmore, hmore₁, List.append_assoc]⟩

/-- A pass that has collected nothing leaves block and fees as they were. -/
theorem Collected.template_eq {infos : CTxInfoStore} {collected : List CTransaction}
    {st : CollectState} (h : Collected env files s pool template infos collected st)
    (hvtx : st.vtx = template.vtx) : (⟨st.vtx, st.nFees⟩ : Template) = template := by
  have hnil : collected = [] := by
    have := h.vtx
    rw [hvtx] at this
    exact List.append_cancel_left (this.symm.trans (List.append_nil _).symm)
  have hfees := h.nFees
  rw [hnil, feesOf, add_zero] at hfees
  rw [hvtx, hfees]

/-- With clean restarts the block is what the last pass collected. -/
theorem collectPasses_clean (hpool : pool.Keyed env) (hdisk : NoneInPool s.txdb.data.txIndex)
    (hn : pool.mapTx.size < n) (hclean : CleanRestarts env files miner s vtx n pool)
    (h : collectPasses env files miner s n pool ⟨vtx, 0⟩ = .ok (template', pool')) :
    ∃ last infos collected st, s.infos.beginTransaction = .ok infos ∧
      Collected env files s last ⟨vtx, 0⟩ infos collected st ∧ template' = ⟨st.vtx, st.nFees⟩ ∧
      ∀ h tx, last.lookup h = some tx → pool.lookup h = some tx := by
  induction n generalizing pool with
  | zero => omega
  | succ n ih =>
      rcases collectPasses_ok h with h | ⟨template₁, tx, hpass, h⟩
      · obtain ⟨infos, collected, st, hinfos, hst, htemplate, -⟩ := collectPass_ok hpool hdisk h
        exact ⟨pool, infos, collected, st, hinfos, hst, htemplate, fun _ _ h => h⟩
      · obtain ⟨infos, collected, st, hinfos, hst, rfl, hconf, -⟩ := collectPass_ok hpool hdisk hpass
        obtain ⟨hvtx, hclean⟩ := hclean _ tx hpass
        rw [hst.template_eq hvtx] at h
        have htx := hconf tx rfl
        have hsize := CTxMemPool.size_remove htx
        obtain ⟨last, rest⟩ := ih (hpool.remove htx) (by omega) hclean h
        obtain ⟨infos, collected, st, hinfos, hst, htemplate, hsub⟩ := rest
        refine ⟨last, infos, collected, st, hinfos, hst, htemplate, ?_⟩
        intro h tx' hlookup
        have := hsub h tx' hlookup
        rw [CTxMemPool.lookup_remove htx] at this
        split at this
        · cases this
        · exact this

/-- Otherwise something is in the block twice. -/
theorem collectPasses_not_clean (hpool : pool.Keyed env) (hdisk : NoneInPool s.txdb.data.txIndex)
    (hn : pool.mapTx.size < n) (hvtx : vtx ≠ [])
    (hclean : ¬ CleanRestarts env files miner s vtx n pool)
    (h : collectPasses env files miner s n pool ⟨vtx, 0⟩ = .ok (template', pool')) :
    ¬ template'.vtx.tail.Nodup := by
  induction n generalizing pool with
  | zero => exact absurd trivial hclean
  | succ n ih =>
      rcases collectPasses_ok h with h | ⟨template₁, tx, hpass, h⟩
      · refine absurd ?_ hclean
        intro template₁ tx hpass
        rw [h] at hpass
        cases hpass
      · obtain ⟨infos, collected, st, -, hst, rfl, hconf, -⟩ := collectPass_ok hpool hdisk hpass
        have htx := hconf tx rfl
        have hsize := CTxMemPool.size_remove htx
        by_cases hnil : st.vtx = vtx
        · -- this restart is clean, a later one is not
          rw [hst.template_eq hnil] at h
          refine ih (hpool.remove htx) (by omega) (fun hclean' => hclean ?_) h
          intro template₂ tx₂ hpass₂
          rw [hpass] at hpass₂
          cases hpass₂
          exact ⟨hnil, hclean'⟩
        · obtain ⟨n, rfl⟩ : ∃ k, n = k + 1 := Nat.exists_eq_add_one.mpr (by omega)
          obtain ⟨template₂, conflict, hpass₂, rest, hrest⟩ : ∃ template₂ conflict,
              collectPass env files miner s (pool.remove env tx) ⟨st.vtx, st.nFees⟩
                = .ok (template₂, conflict) ∧ ∃ rest, template'.vtx = template₂.vtx ++ rest := by
            rcases collectPasses_ok h with h | ⟨template₂, tx₂, hpass₂, h⟩
            · exact ⟨template', none, h, [], (List.append_nil _).symm⟩
            · exact ⟨template₂, some tx₂, hpass₂, collectPasses_vtx h⟩
          obtain ⟨more, rest₂, hmore, hagain⟩ := collectPass_again hpool hdisk hvtx hpass hpass₂
          obtain ⟨cb, vtx, rfl⟩ := List.exists_cons_of_ne_nil hvtx
          obtain ⟨tx', more, rfl⟩ : ∃ tx' more', more = tx' :: more' := by
            refine List.exists_cons_of_ne_nil ?_
            rintro rfl
            exact hnil (by simpa using hmore)
          replace hmore : st.vtx = cb :: vtx ++ tx' :: more := hmore
          rw [hrest, hagain]
          show ¬ (st.vtx ++ _ ++ _ ++ _).tail.Nodup
          rw [hmore]
          simp [List.nodup_append]

/-! ## The block -/

theorem CoinStake.isCoinStake_txNew (stake : CoinStake) : stake.txNew.isCoinStake = true := by
  simp [txNew, CTransaction.isCoinStake, stake.kernel_isNull, CTxOut.isEmpty]

theorem CoinStake.noInfos_txNew (stake : CoinStake) : stake.txNew.NoInfos := by
  intro txin htxin
  obtain ⟨coin, -, rfl⟩ := List.mem_map.mp htxin
  rfl

theorem Miner.findCoinStake_eq_some {pindexPrev : CBlockIndex} {pprev : BlockPtr}
    {fProofOfStake : Bool} {tx : CTransaction}
    (h : miner.findCoinStake env s pindexPrev pprev fProofOfStake = some tx) :
    ∃ stake : CoinStake, tx = stake.txNew := by
  rw [findCoinStake] at h
  split at h
  · cases h
  · split at h
    · obtain ⟨stake, -, rfl⟩ := Option.map_eq_some_iff.mp (Option.filter_eq_some_iff.mp h).1
      exact ⟨stake, rfl⟩
    · cases h

theorem nValue_payCoinbase (nFees nReward : ℤ) (isProofOfWork : Bool) (txout : CTxOut) :
    (payCoinbase nFees nReward isProofOfWork txout).nValue
      = nFees + if isProofOfWork then nReward else 0 := by
  rw [payCoinbase]
  split
  · rfl
  · split
    · exact (add_zero nFees).symm
    · next hfees => rw [not_not.mp hfees, add_zero]

/-- The block of a template: a coinbase that pays what `ConnectBlock` allows for the fee total, and
the rest of the template. -/
theorem Template.toBlock_vtx {stake : Option CTransaction} {more : List CTransaction}
    (h : template.vtx = miner.startVtx s stake ++ more) (env : Env) (pindexPrev : CBlockIndex)
    (pprev : BlockPtr) (nBits : Nat) :
    ∃ cb, (template.toBlock env s pindexPrev pprev nBits).vtx = cb :: (stake.toList ++ more) ∧
      cb.isCoinBase = true ∧ cb.vout.map CTxOut.nValue
        = [(template.toBlock env s pindexPrev pprev nBits).coinbaseReward (pindexPrev :: pprev)
          (s.statsOf (pindexPrev :: pprev)).nPoSDebt template.nFees] := by
  obtain ⟨vtx, nFees⟩ := template
  replace h : vtx = miner.startVtx s stake ++ more := h
  subst h
  have hvalue := nValue_payCoinbase nFees (getNextProofOfWorkReward (pindexPrev :: pprev)
    (s.statsOf (pindexPrev :: pprev)).nPoSDebt true)
  -- whether there is a coinstake is seen from the second transaction
  cases stake with
  | none =>
      cases more with
      | nil => exact ⟨_, rfl, rfl, congrArg (fun z => [z]) (hvalue _ _)⟩
      | cons tx more => exact ⟨_, rfl, rfl, congrArg (fun z => [z]) (hvalue _ _)⟩
  | some txCoinStake => exact ⟨_, rfl, rfl, congrArg (fun z => [z]) (hvalue _ _)⟩

/-- What a block template is to be. The infos are processed as `CreateNewBlock` does, without the
coinbase, which `ConnectBlock` does not ask for any. -/
structure TemplateValid (env : Env) (files : Files) (s : NodeState) (block : CBlock) : Prop where
  noneTwice : block.vtx.Nodup
  ordered : ∀ before tx after, block.vtx.tail = before ++ tx :: after →
    SpendsBefore s.mempool s.txdb.data.txIndex before tx
  infos : ∃ infos st, s.infos.beginTransaction = .ok infos ∧
    block.vtx.tail.foldlM (fun st tx => tx.processTxInfos env files s.txdb.data.txIndex st) infos
      = .ok st
  coinbase : block.vtx.head?.map (fun tx => tx.vout.map CTxOut.nValue)
    = some [block.coinbaseReward s.pindexBest (s.statsOf s.pindexBest).nPoSDebt
        (feesOf env files s.txdb.data.txIndex []
          (block.vtx.tail.filter fun tx => !tx.isCoinStake))]

/-- `pblock->vtx` before the memory pool is looked at, for the best chain. -/
def Miner.firstVtx (env : Env) (miner : Miner) (s : NodeState) (fProofOfStake : Bool) :
    List CTransaction :=
  match s.pindexBest with
  | [] => []
  | pindexPrev :: pprev =>
      miner.startVtx s (miner.findCoinStake env s pindexPrev pprev fProofOfStake)

/-- What is collected in one go makes a valid template. -/
theorem Collected.templateValid {last : CTxMemPool} {stake : Option CTransaction}
    {infos : CTxInfoStore} {collected : List CTransaction} {st : CollectState}
    {pindexPrev : CBlockIndex} {pprev : BlockPtr} {nBits : Nat}
    (hst : Collected env files s last ⟨miner.startVtx s stake, 0⟩ infos collected st)
    (hbest : s.pindexBest = pindexPrev :: pprev)
    (hinfos : s.infos.beginTransaction = .ok infos)
    (hsub : ∀ h tx, last.lookup h = some tx → s.mempool.lookup h = some tx)
    (hstake : ∀ tx ∈ stake.toList, tx.isCoinStake = true ∧ tx.NoInfos)
    (hspends : ∀ tx ∈ stake.toList, SpendsBefore s.mempool s.txdb.data.txIndex [] tx) :
    TemplateValid env files s
      (Template.toBlock env s pindexPrev pprev nBits ⟨st.vtx, st.nFees⟩) := by
  obtain ⟨cb, hvtx, hcb, hvalue⟩ := Template.toBlock_vtx
    (show (⟨st.vtx, st.nFees⟩ : Template).vtx = _ from hst.vtx) env pindexPrev pprev nBits
  have hkind : ∀ tx ∈ collected, tx.isCoinBase = false ∧ tx.isCoinStake = false := fun tx htx =>
    (hst.fromPool tx (List.mem_append_left _ htx)).2
  refine ⟨?_, ?_, ?_, ?_⟩
  · rw [hvtx, List.nodup_cons, List.nodup_append]
    refine ⟨?_, ?_, (List.nodup_append.mp hst.nodup).1, ?_⟩
    · intro hmem
      rcases List.mem_append.mp hmem with hmem | hmem
      · rw [CTransaction.isCoinBase_of_isCoinStake (hstake cb hmem).1] at hcb
        cases hcb
      · rw [(hkind cb hmem).1] at hcb
        cases hcb
    · cases stake <;> simp
    · rintro tx htx tx' htx' rfl
      have := (hstake tx htx).1
      rw [(hkind tx htx').2] at this
      cases this
  · -- the coinstake comes first, and what was collected is in order
    have hcollected : ∀ before tx after, collected = before ++ tx :: after →
        SpendsBefore s.mempool s.txdb.data.txIndex (stake.toList ++ before) tx := by
      rintro before tx after rfl txin htxin txPrev hlookup hnone
      obtain ⟨txPrev', hmem, hhash⟩ := hst.ordered before tx after rfl txin htxin hnone
      have hlookup' := hsub _ _ (hst.lookup_eq (List.mem_append_left _ hmem))
      rw [hhash, hlookup, Option.some.injEq] at hlookup'
      rw [hlookup']
      exact List.mem_append_right _ hmem
    intro before tx after hsplit
    rw [hvtx, List.tail_cons] at hsplit
    cases stake with
    | none => exact hcollected before tx after hsplit
    | some txCoinStake =>
        cases before with
        | nil =>
            obtain ⟨rfl, -⟩ := List.cons.inj hsplit
            exact hspends _ (List.mem_singleton_self _)
        | cons tx' before =>
            obtain ⟨rfl, htail⟩ := List.cons.inj hsplit
            exact hcollected before tx after htail
  · have hin : infos.inTransaction = true := by
      rw [CTxInfoStore.beginTransaction] at hinfos
      split at hinfos
      · cases hinfos
      · cases hinfos
        rfl
    refine ⟨infos, st.infos, hinfos, ?_⟩
    rw [hvtx, List.tail_cons, List.foldlM_append]
    refine Lib.bind_eq_ok.mpr ⟨infos, ?_, hst.infos⟩
    cases stake with
    | none => rfl
    | some txCoinStake =>
        exact Lib.bind_eq_ok.mpr ⟨infos, CTransaction._procUndoTxInfos_of_noInfos hin
          (hstake _ (List.mem_singleton_self _)).2, rfl⟩
  · have hfilter : (stake.toList ++ collected).filter (fun tx => !tx.isCoinStake) = collected := by
      rw [List.filter_append, List.filter_eq_nil_iff.mpr, List.filter_eq_self.mpr, List.nil_append]
      · intro tx htx
        rw [(hkind tx htx).2]
        rfl
      · intro tx htx
        rw [(hstake tx htx).1]
        exact Bool.false_ne_true
    have hfees := hst.nFees
    rw [zero_add] at hfees
    rw [hvtx, List.head?_cons, Option.map_some, List.tail_cons, hfilter, hvalue, hbest, hfees]

/-- A template is valid exactly when every pass that broke off had collected nothing, and the
coinstake spends nothing that is still in the memory pool. -/
theorem createNewBlock_valid_iff (env : Env) (files : Files) (miner : Miner) (s : NodeState)
    (fProofOfStake : Bool) (block : CBlock) (pool : CTxMemPool) (hpool : s.mempool.Keyed env)
    (hdisk : NoneInPool s.txdb.data.txIndex)
    (h : createNewBlock env files miner s fProofOfStake = .ok (block, pool)) :
    TemplateValid env files s block ↔
      CleanRestarts env files miner s (miner.firstVtx env s fProofOfStake)
          (s.mempool.mapTx.size + 1) s.mempool ∧
        ∀ tx ∈ (miner.firstVtx env s fProofOfStake).tail,
          SpendsBefore s.mempool s.txdb.data.txIndex [] tx := by
  rw [createNewBlock] at h
  split at h
  · cases h
  · next pindexPrev pprev hbest =>
    obtain ⟨⟨template, pool'⟩, hpasses, h⟩ := Lib.bind_eq_ok.mp h
    cases h
    generalize miner.getNextTargetRequired _ _ = nBits
    rw [Miner.firstVtx, hbest]
    dsimp only
    generalize hfind : miner.findCoinStake env s pindexPrev pprev fProofOfStake = stake at hpasses ⊢
    have hstake : ∀ tx ∈ stake.toList, tx.isCoinStake = true ∧ tx.NoInfos := by
      intro tx htx
      rw [Option.mem_toList.mp htx] at hfind
      obtain ⟨coinStake, rfl⟩ := Miner.findCoinStake_eq_some hfind
      exact ⟨coinStake.isCoinStake_txNew, coinStake.noInfos_txNew⟩
    have htail : ∀ more, (miner.startVtx s stake ++ more).tail = stake.toList ++ more := by
      cases stake <;> exact fun _ => rfl
    have hne : miner.startVtx s stake ≠ [] := by
      cases stake <;> exact List.cons_ne_nil _ _
    have hfirst := htail []
    rw [List.append_nil, List.append_nil] at hfirst
    rw [hfirst]
    constructor
    · intro hvalid
      obtain ⟨more, hmore⟩ := collectPasses_vtx hpasses
      obtain ⟨cb, hvtx, -⟩ := Template.toBlock_vtx hmore env pindexPrev pprev nBits
      refine ⟨?_, ?_⟩
      · by_contra hclean
        refine collectPasses_not_clean hpool hdisk (Nat.lt_succ_self _) hne hclean hpasses ?_
        rw [show template.vtx = _ from hmore, htail]
        have hnodup := hvalid.noneTwice
        rw [hvtx] at hnodup
        exact (List.nodup_cons.mp hnodup).2
      · intro tx htx
        obtain rfl : stake = some tx := Option.mem_toList.mp htx
        exact hvalid.ordered [] tx more (by rw [hvtx]; rfl)
    · rintro ⟨hclean, hspends⟩
      obtain ⟨last, infos, collected, st, hinfos, hst, rfl, hsub⟩ :=
        collectPasses_clean hpool hdisk (Nat.lt_succ_self _) hclean hpasses
      exact hst.templateValid hbest hinfos hsub hstake hspends

/-! ## What a node sees to -/

/-- No two transactions of the pool spend the same outpoint. -/
def CTxMemPool.SpendsOnce (pool : CTxMemPool) : Prop :=
  ∀ h tx h' tx', pool.lookup h = some tx → pool.lookup h' = some tx' →
    ∀ prevout ∈ tx.vin.map CTxIn.prevout, prevout ∈ tx'.vin.map CTxIn.prevout → h = h'

theorem CTxMemPool.Keyed.addUnchecked (hpool : pool.Keyed env) (tx : CTransaction) :
    (pool.addUnchecked env tx).Keyed env := by
  intro h tx' hlookup
  replace hlookup : (pool.mapTx.insert (env.getHash tx) tx)[h]? = some tx' := hlookup
  rw [Std.ExtTreeMap.getElem?_insert] at hlookup
  split at hlookup
  · next heq =>
    rw [Option.some.inj hlookup] at heq
    exact Std.LawfulEqCmp.compare_eq_iff_eq.mp heq
  · exact hpool h tx' hlookup

theorem NoneInPool.applyTx {m : TxIndexMap} (hm : NoneInPool m) {pos : CDiskTxPos}
    (hpos : pos ≠ CDiskTxPos.inPool) (tx : CTransaction) : NoneInPool (applyTx env pos m tx) := by
  intro h txindex hk
  rw [ShinyCoin.applyTx, Lib.PMap.set_apply] at hk
  split at hk
  · cases hk
    exact hpos
  · have hsame := pos_spendInputs pos m tx h
    rw [hk, Option.map_some] at hsame
    obtain ⟨txindex₀, hk₀, hpos₀⟩ := Option.map_eq_some_iff.mp hsame.symm
    rw [← hpos₀]
    exact hm h txindex₀ hk₀

theorem NoneInPool.applyTxs {pindex : CBlockIndex} {txs : List CTransaction} {nTxPos : Nat}
    {m : TxIndexMap} (hm : NoneInPool m) (hpos : 1 < nTxPos) :
    NoneInPool (applyTxs env pindex txs nTxPos m) := by
  induction txs generalizing nTxPos m with
  | nil => exact hm
  | cons tx txs ih =>
      refine ih (hm.applyTx ?_ tx) (by omega)
      intro heq
      have := congrArg CDiskTxPos.nTxPos heq
      simp only [CDiskTxPos.inPool] at this
      omega

theorem noneInPool_replayIndex (l : List (CBlock × BlockPtr)) : NoneInPool (replayIndex env l) := by
  induction l with
  | nil =>
      intro h txindex hk
      cases hk
  | cons x l ih =>
      obtain ⟨block, ptr⟩ := x
      cases ptr with
      | nil => exact ih
      | cons pindex pprev => exact ih.applyTxs (block.one_lt_firstTxPos _)

/-- What a node has on disk lies behind the header of a block. -/
theorem Reachable.noneInPool {full : Files} (hs : Reachable env full (PostponedConnect env) s)
    (hzero : ∀ header, env.getIDHash header ≠ 0) : NoneInPool s.txdb.data.txIndex := by
  obtain ⟨-, hpos, -⟩ := hs.inv (kept_infoLedger env full) (infoLedger_empty env full) hzero
    (fun _ _ _ _ h => ⟨h, fun _ _ _ _ _ => trivial⟩)
  intro h txindex hk
  obtain ⟨txindex₀, hk₀, hpos₀⟩ := Option.map_eq_some_iff.mp (hpos h txindex hk)
  rw [← hpos₀]
  exact noneInPool_replayIndex _ h txindex₀ hk₀

end

/-! ## Two transactions that set the same info

The node is on `blockA2`, whose coinbase and that of `blockA1` pay to the same address. -/

/-- A payment that sets an info of the address it spends from, once and for all. -/
def setOnceTx (nTime : Nat) (prevout : COutPoint) : CTransaction where
  nTime := nTime
  vin := [{ prevout := prevout, infos := [⟨⟨INFO_WRITE_ONCE, [97]⟩, [98]⟩] }]
  vout := [{ nValue := COIN - CENT, scriptPubKey := [2] }]

/-- A payment from it. -/
def laterTx : CTransaction where
  nTime := 6
  vin := [{ prevout := ⟨6, 0⟩ }]
  vout := [{ nValue := COIN - 2 * CENT, scriptPubKey := [3] }]

def sampleMiner : Miner where
  scriptPubKey := [1]
  nLastCoinStakeSearchTime := 0
  createCoinStake _ _ := none
  getNextTargetRequired _ _ := 0x03000001
  priority _ := 0

/-- The node with these transactions in its memory pool. -/
def stateWithPool (txs : List CTransaction) : NodeState :=
  { stateA2 with
    mempool := txs.foldl (CTxMemPool.addUnchecked Env.plain) {}
    nAdjustedTime := 10 }

theorem keyed_stateWithPool (txs : List CTransaction) :
    (stateWithPool txs).mempool.Keyed Env.plain := by
  have hfold : ∀ (txs : List CTransaction) (pool : CTxMemPool), pool.Keyed Env.plain →
      (txs.foldl (CTxMemPool.addUnchecked Env.plain) pool).Keyed Env.plain := by
    intro txs
    induction txs with
    | nil => exact fun _ h => h
    | cons tx txs ih => exact fun pool h => ih _ (h.addUnchecked tx)
  refine hfold txs {} ?_
  intro h tx hlookup
  rw [show CTxMemPool.lookup {} h = none from Std.ExtTreeMap.getElem?_empty] at hlookup
  cases hlookup

theorem reachable_stateWithPool (txs : List CTransaction) :
    Reachable Env.plain forkFiles (PostponedConnect Env.plain) (stateWithPool txs) :=
  .other (reachable_stateA2.mono fun _ _ _ _ h => h.1) ⟨rfl, rfl, rfl, rfl, rfl, rfl, rfl⟩

theorem createNewBlock_valid_laterTx :
    ∃ block pool, createNewBlock Env.plain forkFiles sampleMiner
        (stateWithPool [setOnceTx 5 ⟨2, 0⟩, laterTx]) false = .ok (block, pool) ∧
      block.vtx.map Env.plain.getHash = [11, 6, 7] ∧
      TemplateValid Env.plain forkFiles (stateWithPool [setOnceTx 5 ⟨2, 0⟩, laterTx]) block := by
  obtain ⟨⟨block, pool⟩, h⟩ := Lib.exists_of_isOk (show (createNewBlock Env.plain forkFiles
    sampleMiner (stateWithPool [setOnceTx 5 ⟨2, 0⟩, laterTx]) false).isOk = true by decide +kernel)
  have hhashes : (createNewBlock Env.plain forkFiles sampleMiner (stateWithPool
      [setOnceTx 5 ⟨2, 0⟩, laterTx]) false).toOption.map (fun x => x.1.vtx.map Env.plain.getHash)
      = some [11, 6, 7] := by decide +kernel
  rw [h] at hhashes
  refine ⟨block, pool, h, Option.some.inj hhashes, (createNewBlock_valid_iff _ _ _ _ _ _ _
    (keyed_stateWithPool _) ((reachable_stateWithPool _).noneInPool plain_getIDHash_ne_zero)
    h).mpr ⟨?_, ?_⟩⟩
  · have hpass : (collectPass Env.plain forkFiles sampleMiner
        (stateWithPool [setOnceTx 5 ⟨2, 0⟩, laterTx])
        (stateWithPool [setOnceTx 5 ⟨2, 0⟩, laterTx]).mempool
        ⟨sampleMiner.firstVtx Env.plain (stateWithPool [setOnceTx 5 ⟨2, 0⟩, laterTx]) false, 0⟩
        ).toOption.map Prod.snd = some none := by decide +kernel
    rw [CleanRestarts]
    intro template tx hconf
    rw [hconf] at hpass
    cases hpass
  · rw [show (sampleMiner.firstVtx Env.plain (stateWithPool [setOnceTx 5 ⟨2, 0⟩, laterTx])
      false).tail = [] by decide +kernel]
    simp

/-- Either of the two transactions could set the info. The first one does, the second one starts the
collection again, and then the first one is collected once more. -/
theorem not_createNewBlock_valid :
    (stateWithPool [setOnceTx 5 ⟨2, 0⟩, setOnceTx 6 ⟨3, 0⟩]).mempool.Keyed Env.plain ∧
      (stateWithPool [setOnceTx 5 ⟨2, 0⟩, setOnceTx 6 ⟨3, 0⟩]).mempool.SpendsOnce ∧
      Reachable Env.plain forkFiles (PostponedConnect Env.plain)
        (stateWithPool [setOnceTx 5 ⟨2, 0⟩, setOnceTx 6 ⟨3, 0⟩]) ∧
      ∃ block pool, createNewBlock Env.plain forkFiles sampleMiner
          (stateWithPool [setOnceTx 5 ⟨2, 0⟩, setOnceTx 6 ⟨3, 0⟩]) false = .ok (block, pool) ∧
        block.vtx.map Env.plain.getHash = [11, 6, 6] ∧
        ¬ TemplateValid Env.plain forkFiles
          (stateWithPool [setOnceTx 5 ⟨2, 0⟩, setOnceTx 6 ⟨3, 0⟩]) block := by
  refine ⟨keyed_stateWithPool _, ?_, reachable_stateWithPool _, ?_⟩
  · have hpool : (stateWithPool [setOnceTx 5 ⟨2, 0⟩, setOnceTx 6 ⟨3, 0⟩]).mempool.mapTx.toList
        = [(6, setOnceTx 5 ⟨2, 0⟩), (7, setOnceTx 6 ⟨3, 0⟩)] := by decide +kernel
    have hlookup : ∀ h tx, (stateWithPool [setOnceTx 5 ⟨2, 0⟩, setOnceTx 6 ⟨3, 0⟩]).mempool.lookup h
        = some tx → h = 6 ∧ tx = setOnceTx 5 ⟨2, 0⟩ ∨ h = 7 ∧ tx = setOnceTx 6 ⟨3, 0⟩ := by
      intro h tx hlookup
      have hmem := Std.ExtTreeMap.mem_toList_iff_getElem?_eq_some.mpr hlookup
      rw [hpool] at hmem
      simpa using hmem
    intro h tx h' tx' htx htx'
    rcases hlookup h tx htx with ⟨rfl, rfl⟩ | ⟨rfl, rfl⟩ <;>
      rcases hlookup h' tx' htx' with ⟨rfl, rfl⟩ | ⟨rfl, rfl⟩ <;> decide
  · obtain ⟨⟨block, pool⟩, h⟩ := Lib.exists_of_isOk (show (createNewBlock Env.plain forkFiles
      sampleMiner (stateWithPool [setOnceTx 5 ⟨2, 0⟩, setOnceTx 6 ⟨3, 0⟩]) false).isOk = true by
        decide +kernel)
    have hhashes : (createNewBlock Env.plain forkFiles sampleMiner (stateWithPool
        [setOnceTx 5 ⟨2, 0⟩, setOnceTx 6 ⟨3, 0⟩]) false).toOption.map
        (fun x => x.1.vtx.map Env.plain.getHash) = some [11, 6, 6] := by decide +kernel
    have htail : (createNewBlock Env.plain forkFiles sampleMiner (stateWithPool
        [setOnceTx 5 ⟨2, 0⟩, setOnceTx 6 ⟨3, 0⟩]) false).toOption.map (fun x => x.1.vtx.tail)
        = some [setOnceTx 5 ⟨2, 0⟩, setOnceTx 5 ⟨2, 0⟩] := by decide +kernel
    rw [h] at hhashes htail
    refine ⟨block, pool, h, Option.some.inj hhashes, ?_⟩
    intro hvalid
    have hnodup := hvalid.noneTwice.tail
    rw [show block.vtx.tail = _ from Option.some.inj htail] at hnodup
    exact absurd hnodup (by decide)

end ShinyCoin

import ShinyCoin.Miner.Valid

/-!
# The times of a template

The time of a proof-of-stake block is that of its coinstake: the coinstake is kept only when it is
late enough for the parent, and transactions later than the coinstake stay out. Lock times are
looked at when the clock is read, and a coinstake may be older than that.
-/

namespace ShinyCoin

section

variable {env : Env} {files : Files} {miner : Miner} {s : NodeState} {pool pool' : CTxMemPool}
  {st st' : CollectState} {template template' : Template} {vtx : List CTransaction}
  {tx : CTransaction} {n : Nat}

/-! ## What is added -/

theorem CTransaction.tryTx_times {q : TxIndexMap} {infos : CTxInfoStore} {nTxSigOps : Nat}
    {nTxFees : ℤ} (h : tx.tryTx env files s pool st = .ok (.added q infos nTxSigOps nTxFees)) :
    (tx.nTime : ℤ) ≤ s.nAdjustedTime ∧ afterCoinStake st.vtx tx = false := by
  rw [tryTx] at h
  split at h
  · cases h
  split at h
  · cases h
  split at h
  · cases h
  next htimes =>
    simp only [Bool.or_eq_true, decide_eq_true_eq, not_or, not_lt, Bool.not_eq_true] at htimes
    exact htimes

/-- What a transaction of the pool has passed when it is in a block that starts with `vtx`. -/
structure InTime (s : NodeState) (pool : CTxMemPool) (vtx : List CTransaction) (tx : CTransaction) :
    Prop where
  eligible : tx ∈ pool.eligible s
  clock : (tx.nTime : ℤ) ≤ s.nAdjustedTime
  coinStake : ∀ cb txCoinStake rest, vtx = cb :: txCoinStake :: rest →
    txCoinStake.isCoinStake = true → tx.nTime ≤ txCoinStake.nTime

theorem inTime_of_added (hmem : tx ∈ pool.eligible s) {more : List CTransaction}
    (hvtx : st.vtx = vtx ++ more) {q : TxIndexMap} {infos : CTxInfoStore} {nTxSigOps : Nat}
    {nTxFees : ℤ} (h : tx.tryTx env files s pool st = .ok (.added q infos nTxSigOps nTxFees)) :
    InTime s pool vtx tx := by
  obtain ⟨hclock, hafter⟩ := CTransaction.tryTx_times h
  refine ⟨hmem, hclock, ?_⟩
  rintro cb txCoinStake rest rfl hstake
  rw [hvtx] at hafter
  simpa [afterCoinStake, hstake] using hafter

/-- `tx` is the first that is tried, and it is added. -/
def AddsFirst (env : Env) (files : Files) (s : NodeState) (pool : CTxMemPool) (st : CollectState)
    (tx : CTransaction) : Prop :=
  ∃ mapPriority q infos nTxSigOps nTxFees, st.mapPriority = tx :: mapPriority ∧
    tx.tryTx env files s pool { st with mapPriority := mapPriority }
      = .ok (.added q infos nTxSigOps nTxFees)

/-- What the loop adds is in time, and the first transaction is added where nothing keeps it out. -/
theorem collectTxs_added {conflict : Option CTransaction} (collected : List CTransaction)
    (hpending : ∀ tx ∈ st.pending, tx ∈ pool.eligible s) (hvtx : st.vtx = vtx ++ collected)
    (h : collectTxs env files miner s pool n st = .ok (st', conflict)) :
    ∃ more, st'.vtx = st.vtx ++ more ∧ (∀ tx ∈ more, InTime s pool vtx tx) ∧
      ∀ tx, 0 < n → AddsFirst env files s pool st tx → tx ∈ more := by
  induction n generalizing st collected with
  | zero =>
      cases h
      exact ⟨[], by simp, by simp, by simp⟩
  | succ n ih =>
      cases hq : st.mapPriority with
      | nil =>
          rw [collectTxs, hq] at h
          cases h
          exact ⟨[], by simp, by simp, by simp [AddsFirst, hq]⟩
      | cons tx mapPriority =>
          have hsub : ∀ tx' ∈ tx :: ({ st with mapPriority := mapPriority } : CollectState).pending,
              tx' ∈ pool.eligible s := by
            intro tx' htx'
            apply hpending
            rw [CollectState.pending, hq]
            exact htx'
          have hrest := fun tx' htx' => hsub tx' (List.mem_cons_of_mem _ htx')
          rw [collectTxs_cons hq] at h
          obtain ⟨outcome, htry, h⟩ := Lib.bind_eq_ok.mp h
          have hfirst : ∀ tx', AddsFirst env files s pool st tx' → tx' = tx ∧
              ∃ q infos nTxSigOps nTxFees, outcome = .added q infos nTxSigOps nTxFees := by
            rintro tx' ⟨_, q, infos, nTxSigOps, nTxFees, hq', htry'⟩
            cases hq.symm.trans hq'
            cases htry.symm.trans htry'
            exact ⟨rfl, q, infos, nTxSigOps, nTxFees, rfl⟩
          cases outcome with
          | skipped =>
              obtain ⟨more, hmore, htimes, -⟩ := ih collected hrest hvtx h
              refine ⟨more, hmore, htimes, fun tx' _ h' => ?_⟩
              obtain ⟨-, _, _, _, _, hadded⟩ := hfirst tx' h'
              cases hadded
          | conflict =>
              cases h
              refine ⟨[], by simp, by simp, fun tx' _ h' => ?_⟩
              obtain ⟨-, _, _, _, _, hadded⟩ := hfirst tx' h'
              cases hadded
          | added q infos nTxSigOps nTxFees =>
              have hmem := hsub tx List.mem_cons_self
              obtain ⟨more, hmore, htimes, -⟩ := ih (collected ++ [tx])
                (fun tx' htx' => hrest tx' ((CollectState.pending_add _ _ _ _ _ _).mem_iff.mp htx')) (by
                  show st.vtx ++ [tx] = _
                  rw [hvtx, List.append_assoc]) h
              refine ⟨tx :: more, ?_, ?_, fun tx' _ h' => (hfirst tx' h').1 ▸ List.mem_cons_self⟩
              · rw [hmore]
                show st.vtx ++ [tx] ++ more = _
                rw [List.append_assoc, List.singleton_append]
              · intro tx' htx'
                rcases List.mem_cons.mp htx' with rfl | htx'
                · have hvtx' : ({ st with mapPriority := mapPriority } : CollectState).vtx
                      = vtx ++ collected := hvtx
                  exact inTime_of_added hmem hvtx' htry
                · exact htimes tx' htx'

theorem CTxMemPool.eligible_remove_subset (pool : CTxMemPool) (tx : CTransaction) :
    (pool.remove env tx).eligible s ⊆ pool.eligible s := by
  intro tx' htx'
  obtain ⟨hmem, hok⟩ := List.mem_filter.mp htx'
  refine List.mem_filter.mpr ⟨?_, hok⟩
  rw [remove] at hmem
  split at hmem
  · obtain ⟨⟨k, tx''⟩, hk, rfl⟩ := List.mem_map.mp hmem
    rw [Std.ExtTreeMap.mem_toList_iff_getElem?_eq_some, Std.ExtTreeMap.getElem?_erase] at hk
    split at hk
    · cases hk
    · exact List.mem_map.mpr ⟨(k, tx''), Std.ExtTreeMap.mem_toList_iff_getElem?_eq_some.mpr hk, rfl⟩
  · exact hmem

/-- The same of all passes. -/
theorem collectPasses_added (collected : List CTransaction) (hvtx : template.vtx = vtx ++ collected)
    (h : collectPasses env files miner s n pool template = .ok (template', pool')) :
    ∃ more, template'.vtx = template.vtx ++ more ∧ (∀ tx ∈ more, InTime s pool vtx tx) ∧
      ∀ infos tx, 0 < n → s.infos.beginTransaction = .ok infos →
        AddsFirst env files s pool (template.start files miner s pool infos) tx → tx ∈ more := by
  induction n generalizing pool template collected with
  | zero =>
      cases h
      exact ⟨[], by simp, by simp, by simp⟩
  | succ n ih =>
      have hpass : ∀ {template₁ conflict}, collectPass env files miner s pool template
          = .ok (template₁, conflict) → ∃ more, template₁.vtx = template.vtx ++ more ∧
            (∀ tx ∈ more, InTime s pool vtx tx) ∧
            ∀ infos tx, s.infos.beginTransaction = .ok infos →
              AddsFirst env files s pool (template.start files miner s pool infos) tx →
                tx ∈ more := by
        intro template₁ conflict hpass
        obtain ⟨infos, st, hinfos, hloop, rfl⟩ := collectPass_loop hpass
        obtain ⟨more, hmore, htimes, hadds⟩ := collectTxs_added collected
          (fun tx htx => (perm_pending_start files miner s pool template infos).mem_iff.mp htx)
          hvtx hloop
        refine ⟨more, hmore, htimes, fun infos' tx hinfos' hfirst => ?_⟩
        cases hinfos.symm.trans hinfos'
        refine hadds tx ?_ hfirst
        obtain ⟨mapPriority, _, _, _, _, hq, -⟩ := hfirst
        rw [hq, List.length_cons]
        omega
      rcases collectPasses_ok h with h | ⟨template₁, tx, h₁, h⟩
      · obtain ⟨more, hmore, htimes, hadds⟩ := hpass h
        exact ⟨more, hmore, htimes, fun infos tx _ => hadds infos tx⟩
      · obtain ⟨more₁, hmore₁, htimes₁, hadds₁⟩ := hpass h₁
        obtain ⟨more, hmore, htimes, -⟩ := ih (collected ++ more₁)
          (by rw [hmore₁, hvtx, List.append_assoc]) h
        refine ⟨more₁ ++ more, by rw [hmore, hmore₁, List.append_assoc], ?_,
          fun infos tx' _ hinfos hfirst => List.mem_append_left _ (hadds₁ infos tx' hinfos hfirst)⟩
        intro tx' htx'
        rcases List.mem_append.mp htx' with htx' | htx'
        · exact htimes₁ tx' htx'
        · obtain ⟨hel, hclock, hstake⟩ := htimes tx' htx'
          exact ⟨CTxMemPool.eligible_remove_subset pool tx hel, hclock, hstake⟩

/-! ## The header -/

/-- Only the output of the coinbase is set at the end. -/
theorem map_setCoinbaseOut {β : Type} {g : CTransaction → β}
    (hg : ∀ tx vout, g { tx with vout := vout } = g tx) (f : CTxOut → CTxOut)
    (vtx : List CTransaction) : (setCoinbaseOut f vtx).map g = vtx.map g := by
  cases vtx with
  | nil => rfl
  | cons tx vtx => simp [setCoinbaseOut, hg]

theorem Template.map_toBlock {β : Type} {g : CTransaction → β}
    (hg : ∀ tx vout, g { tx with vout := vout } = g tx) (env : Env) (s : NodeState)
    (pindexPrev : CBlockIndex) (pprev : BlockPtr) (nBits : Nat) (template : Template) :
    (template.toBlock env s pindexPrev pprev nBits).vtx.map g = template.vtx.map g :=
  map_setCoinbaseOut hg _ _

theorem uint32_eq {z : ℤ} (h₀ : 0 ≤ z) (h : z < 2 ^ 32) : (uint32 z : ℤ) = z := by
  rw [uint32, Int.toNat_of_nonneg (Int.emod_nonneg _ (by decide)), Int.emod_eq_of_lt h₀ h]

theorem uint32_lt (z : ℤ) : (uint32 z : ℤ) < 2 ^ 32 := by
  rw [uint32, Int.toNat_of_nonneg (Int.emod_nonneg _ (by decide))]
  exact Int.emod_lt_of_pos _ (by decide)

theorem BlockPtr.getMedianTimePast_nonneg (ptr : BlockPtr) : 0 ≤ ptr.getMedianTimePast := by
  rw [getMedianTimePast]
  generalize hl : ((ptr.take nMedianTimeSpan).map fun pindex => (pindex.nTime : ℤ)).insertionSort
    (· ≤ ·) = l
  rw [List.getD_eq_getElem?_getD]
  cases hget : l[l.length / 2]? with
  | none => exact le_rfl
  | some z =>
      have hmem := List.mem_of_getElem? hget
      rw [← hl, List.mem_insertionSort, List.mem_map] at hmem
      obtain ⟨pindex, -, rfl⟩ := hmem
      exact Int.natCast_nonneg _

/-- The latest transaction of a block. -/
theorem CBlock.getMaxTransactionTime_eq {block : CBlock} {nTime : Nat}
    (hle : ∀ tx ∈ block.vtx, tx.nTime ≤ nTime) (hmem : tx ∈ block.vtx) (htx : tx.nTime = nTime) :
    block.getMaxTransactionTime = nTime := by
  have hfold : ∀ (vtx : List CTransaction) (z : ℤ), (∀ tx ∈ vtx, tx.nTime ≤ nTime) → z ≤ nTime →
      (z = nTime ∨ ∃ tx ∈ vtx, tx.nTime = nTime) →
      vtx.foldl (fun maxTransactionTime tx => max maxTransactionTime (tx.nTime : ℤ)) z = nTime := by
    intro vtx
    induction vtx with
    | nil =>
        rintro z - - (h | ⟨tx, htx, -⟩)
        · exact h
        · cases htx
    | cons tx vtx ih =>
        intro z hall hz hsome
        rw [List.forall_mem_cons] at hall
        have hcast : (tx.nTime : ℤ) ≤ nTime := Int.ofNat_le.mpr hall.1
        refine ih _ hall.2 (max_le hz hcast) ?_
        rcases hsome with rfl | ⟨tx', htx', heq⟩
        · exact .inl (max_eq_left hcast)
        · rcases List.mem_cons.mp htx' with rfl | htx'
          · exact .inl ((congrArg (fun t : Nat => max z (t : ℤ)) heq).trans (max_eq_right hz))
          · exact .inr ⟨tx', htx', heq⟩
  exact hfold _ _ hle (Int.natCast_nonneg _) (.inr ⟨tx, hmem, htx⟩)

/-- The time of the header of a proof-of-stake block. -/
theorem Template.toBlock_nTime {pindexPrev : CBlockIndex} {pprev : BlockPtr} {nBits : Nat}
    (hpos : (template.toBlock env s pindexPrev pprev nBits).isProofOfStake = true) :
    (template.toBlock env s pindexPrev pprev nBits).nTime
      = uint32 (max (uint32 (max (BlockPtr.getMedianTimePast (pindexPrev :: pprev) + 1)
          (template.toBlock env s pindexPrev pprev nBits).getMaxTransactionTime) : ℤ)
        (pindexPrev.nTime - nMaxClockDrift)) := by
  have hpow : CBlock.isProofOfWork (template.toBlock env s pindexPrev pprev nBits) = false := by
    rw [CBlock.isProofOfWork, hpos]
    rfl
  exact if_neg (by rw [Bool.not_eq_true]; exact hpow)

/-- A coinstake that is kept is late enough for the parent. -/
theorem Miner.findCoinStake_time {pindexPrev : CBlockIndex} {pprev : BlockPtr}
    {fProofOfStake : Bool} (h : miner.findCoinStake env s pindexPrev pprev fProofOfStake = some tx) :
    (∃ nBits nSearchInterval stake, miner.createCoinStake nBits nSearchInterval = some stake ∧
      tx = stake.txNew) ∧
      BlockPtr.getMedianTimePast (pindexPrev :: pprev) + 1 ≤ tx.nTime ∧
      (pindexPrev.nTime : ℤ) - nMaxClockDrift ≤ tx.nTime := by
  rw [findCoinStake] at h
  split at h
  · cases h
  · split at h
    · obtain ⟨hmap, hkeep⟩ := Option.filter_eq_some_iff.mp h
      obtain ⟨stake, hstake, rfl⟩ := Option.map_eq_some_iff.mp hmap
      exact ⟨⟨_, _, stake, hstake, rfl⟩, max_le_iff.mp (of_decide_eq_true hkeep)⟩
    · cases h

theorem Miner.firstVtx_eq {fProofOfStake : Bool} {pindexPrev : CBlockIndex} {pprev : BlockPtr}
    {stake : Option CTransaction} (hbest : s.pindexBest = pindexPrev :: pprev)
    (hfind : miner.findCoinStake env s pindexPrev pprev fProofOfStake = stake) :
    miner.firstVtx env s fProofOfStake = miner.startVtx s stake := by
  rw [firstVtx, hbest]
  exact congrArg (miner.startVtx s) hfind

/-- What `CreateNewBlock` returns: the coinbase, a coinstake if one was found, and transactions of
the memory pool that are in time. -/
theorem createNewBlock_added {fProofOfStake : Bool} {block : CBlock} {pindexPrev : CBlockIndex}
    {pprev : BlockPtr} (hbest : s.pindexBest = pindexPrev :: pprev)
    (h : createNewBlock env files miner s fProofOfStake = .ok (block, pool)) :
    ∃ (template : Template) (nBits : Nat) (more : List CTransaction),
      block = template.toBlock env s pindexPrev pprev nBits ∧
      template.vtx = miner.startVtx s (miner.findCoinStake env s pindexPrev pprev fProofOfStake)
        ++ more ∧
      (∀ tx ∈ more, InTime s s.mempool (miner.firstVtx env s fProofOfStake) tx) ∧
      ∀ infos tx, s.infos.beginTransaction = .ok infos →
        AddsFirst env files s s.mempool (Template.start files miner s s.mempool infos
          ⟨miner.firstVtx env s fProofOfStake, 0⟩) tx → tx ∈ more := by
  rw [createNewBlock, hbest] at h
  obtain ⟨⟨template, pool'⟩, hpasses, h⟩ := Lib.bind_eq_ok.mp h
  cases h
  rw [← Miner.firstVtx_eq hbest rfl] at hpasses ⊢
  obtain ⟨more, hmore, htimes, hadds⟩ := collectPasses_added []
    (show (⟨miner.firstVtx env s fProofOfStake, 0⟩ : Template).vtx = _ from
      (List.append_nil _).symm) hpasses
  exact ⟨template, _, more, rfl, hmore, htimes, fun infos tx => hadds infos tx (Nat.succ_pos _)⟩

/-- A proof-of-stake block holds the coinstake that was found. -/
theorem exists_coinStake {pindexPrev : CBlockIndex} {pprev : BlockPtr} {fProofOfStake : Bool}
    {nBits : Nat} {more : List CTransaction}
    (hvtx : template.vtx = miner.startVtx s (miner.findCoinStake env s pindexPrev pprev fProofOfStake)
      ++ more)
    (htimes : ∀ tx ∈ more, InTime s s.mempool (miner.firstVtx env s fProofOfStake) tx)
    (hpos : (template.toBlock env s pindexPrev pprev nBits).isProofOfStake = true) :
    ∃ txCoinStake, miner.findCoinStake env s pindexPrev pprev fProofOfStake = some txCoinStake := by
  obtain ⟨cb, hblock, -⟩ := Template.toBlock_vtx hvtx env pindexPrev pprev nBits
  cases hfind : miner.findCoinStake env s pindexPrev pprev fProofOfStake with
  | some txCoinStake => exact ⟨txCoinStake, rfl⟩
  | none =>
      rw [hfind] at hblock
      cases more with
      | nil => simp [CBlock.isProofOfStake, hblock] at hpos
      | cons tx more =>
          have hmem := (htimes tx List.mem_cons_self).eligible
          simp [CBlock.isProofOfStake, hblock, (CTxMemPool.mem_eligible hmem).2.2] at hpos

/-- With a coinstake that is late enough, and nothing later than it, the block has its time. -/
theorem Template.toBlock_nTime_of_coinStake (env : Env) (nBits : Nat) {pindexPrev : CBlockIndex}
    {pprev : BlockPtr} {txCoinStake : CTransaction} {more : List CTransaction}
    (hvtx : template.vtx = miner.startVtx s (some txCoinStake) ++ more)
    (hmore : ∀ tx ∈ more, tx.nTime ≤ txCoinStake.nTime) (hstake : txCoinStake.isCoinStake = true)
    (hlt : txCoinStake.nTime < 2 ^ 32)
    (hmedian : BlockPtr.getMedianTimePast (pindexPrev :: pprev) + 1 ≤ txCoinStake.nTime)
    (hdrift : (pindexPrev.nTime : ℤ) - nMaxClockDrift ≤ txCoinStake.nTime) :
    (template.toBlock env s pindexPrev pprev nBits).nTime = txCoinStake.nTime ∧
      ∀ tx ∈ (template.toBlock env s pindexPrev pprev nBits).vtx, tx.nTime ≤ txCoinStake.nTime := by
  obtain ⟨cb, hblock, -⟩ := Template.toBlock_vtx hvtx env pindexPrev pprev nBits
  have hpos : (template.toBlock env s pindexPrev pprev nBits).isProofOfStake = true := by
    simp [CBlock.isProofOfStake, hblock, hstake]
  -- the coinbase has the time of the coinstake
  have hle : ∀ tx ∈ (template.toBlock env s pindexPrev pprev nBits).vtx,
      tx.nTime ≤ txCoinStake.nTime := by
    intro tx htx
    have hmem : tx.nTime ∈ template.vtx.map CTransaction.nTime := by
      rw [← Template.map_toBlock (fun _ _ => rfl) env s pindexPrev pprev nBits template]
      exact List.mem_map_of_mem htx
    rw [hvtx, List.map_append, List.mem_append] at hmem
    rcases hmem with hmem | hmem
    · simp only [Miner.startVtx, List.map_cons, List.map_nil, List.mem_cons, List.not_mem_nil,
        or_false, or_self] at hmem
      exact hmem.le
    · obtain ⟨tx', htx', heq⟩ := List.mem_map.mp hmem
      rw [← heq]
      exact hmore tx' htx'
  have hmax : (template.toBlock env s pindexPrev pprev nBits).getMaxTransactionTime
      = txCoinStake.nTime :=
    CBlock.getMaxTransactionTime_eq hle (by rw [hblock]; simp) rfl
  refine ⟨?_, hle⟩
  rw [Template.toBlock_nTime hpos, hmax, max_eq_right hmedian,
    uint32_eq (Int.natCast_nonneg _) (by omega), max_eq_left hdrift]
  have := uint32_eq (Int.natCast_nonneg txCoinStake.nTime) (by omega)
  omega

/-- Whatever the memory pool, the clock and the parent: a proof-of-stake block has the time of its
coinstake, is late enough for its parent, and holds nothing that is later. -/
theorem proofOfStake_times (env : Env) (files : Files) (miner : Miner) (s : NodeState)
    (fProofOfStake : Bool) (block : CBlock) (pool : CTxMemPool) (pindexPrev : CBlockIndex)
    (pprev : BlockPtr) (hbest : s.pindexBest = pindexPrev :: pprev)
    (hstake : ∀ nBits nSearchInterval stake,
      miner.createCoinStake nBits nSearchInterval = some stake → stake.nTime < 2 ^ 32)
    (h : createNewBlock env files miner s fProofOfStake = .ok (block, pool))
    (hpos : block.isProofOfStake = true) :
    ∃ cb txCoinStake more, block.vtx = cb :: txCoinStake :: more ∧ txCoinStake.isCoinStake = true ∧
      block.nTime = txCoinStake.nTime ∧
      checkCoinStakeTimestamp env block.nTime txCoinStake.nTime = true ∧
      BlockPtr.getMedianTimePast (pindexPrev :: pprev) < block.nTime ∧
      (pindexPrev.nTime : ℤ) - nMaxClockDrift ≤ block.nTime ∧
      ∀ tx ∈ block.vtx, tx.nTime ≤ block.nTime := by
  obtain ⟨template, nBits, more, rfl, hvtx, htimes, -⟩ := createNewBlock_added hbest h
  obtain ⟨txCoinStake, hfind⟩ := exists_coinStake hvtx htimes hpos
  rw [hfind] at hvtx
  obtain ⟨⟨_, _, stake, hcreate, rfl⟩, hmedian, hdrift⟩ := Miner.findCoinStake_time hfind
  have hkind := stake.isCoinStake_txNew
  obtain ⟨cb, hblock, -⟩ := Template.toBlock_vtx hvtx env pindexPrev pprev nBits
  obtain ⟨hnTime, hle⟩ := Template.toBlock_nTime_of_coinStake env nBits hvtx
    (fun tx htx => (htimes tx htx).coinStake _ _ [] (Miner.firstVtx_eq hbest hfind) hkind) hkind
    (hstake _ _ stake hcreate) hmedian hdrift
  refine ⟨cb, stake.txNew, more, hblock, hkind, hnTime, ?_, by omega, by omega, hnTime ▸ hle⟩
  have hdrift₀ : (0 : ℤ) ≤ nMaxClockDrift := by decide
  rw [hnTime, checkCoinStakeTimestamp]
  split
  · exact beq_self_eq_true _
  · simp only [le_refl, decide_true, Bool.true_and, decide_eq_true_eq]
    omega

/-! ## Lock times -/

/-- Locked until after the time `nTime`, and not given up by its inputs. -/
def CTransaction.lockedAt (tx : CTransaction) (nTime : ℤ) : Bool :=
  decide (LOCKTIME_THRESHOLD ≤ tx.nLockTime) && decide (nTime ≤ tx.nLockTime)
    && !tx.vin.all CTxIn.isFinal

/-- The time a lock must have passed for the block to come: that of the coinstake, or the clock, as
far as it fits into the header and is not zero there. -/
def Miner.lockLimit (env : Env) (miner : Miner) (s : NodeState) (fProofOfStake : Bool) : ℤ :=
  match (miner.firstVtx env s fProofOfStake)[1]? with
  | some txCoinStake => txCoinStake.nTime
  | none => if uint32 s.nAdjustedTime = 0 then s.nAdjustedTime else uint32 s.nAdjustedTime

theorem CTransaction.isFinal_iff {nBestHeight nAdjustedTime nBlockHeight nBlockTime : ℤ} :
    tx.isFinal nBestHeight nAdjustedTime nBlockHeight nBlockTime = true ↔
      tx.nLockTime = 0 ∨
      (tx.nLockTime : ℤ) < (if tx.nLockTime < LOCKTIME_THRESHOLD
        then if nBlockHeight = 0 then nBestHeight else nBlockHeight
        else if nBlockTime = 0 then nAdjustedTime else nBlockTime) ∨
      tx.vin.all CTxIn.isFinal = true := by
  simp only [isFinal, Bool.or_eq_true, beq_iff_eq, decide_eq_true_eq, or_assoc]

theorem CTransaction.lockedAt_eq_false {nTime : ℤ} :
    tx.lockedAt nTime = false ↔
      tx.nLockTime < LOCKTIME_THRESHOLD ∨ (tx.nLockTime : ℤ) < nTime ∨
        tx.vin.all CTxIn.isFinal = true := by
  rw [lockedAt]
  cases tx.vin.all CTxIn.isFinal <;> simp [Decidable.imp_iff_not_or]

/-- A transaction that is final now is final in the next block, unless it is locked until after the
time of that block. -/
theorem isFinal_next_iff {nAdjustedTime nHeight nBlockTime : ℤ}
    (hnow : tx.isFinal nHeight nAdjustedTime 0 0 = true) :
    tx.isFinal nHeight nAdjustedTime (nHeight + 1) nBlockTime = true ↔
      tx.lockedAt (if nBlockTime = 0 then nAdjustedTime else nBlockTime) = false := by
  rw [CTransaction.isFinal_iff] at hnow ⊢
  rw [CTransaction.lockedAt_eq_false]
  have hthreshold : 0 < LOCKTIME_THRESHOLD := by decide
  by_cases hlock : tx.nLockTime < LOCKTIME_THRESHOLD
  · -- locks on heights only open
    simp only [hlock, if_true, true_or, iff_true] at hnow ⊢
    rcases hnow with hzero | hlt | hall
    · exact .inl hzero
    · refine .inr (.inl ?_)
      split <;> omega
    · exact .inr (.inr hall)
  · simp only [hlock, if_false, false_or]
    exact or_iff_right (by omega)

theorem lockedAt_eq_false_of_le {nAdjustedTime nHeight nTime : ℤ}
    (hnow : tx.isFinal nHeight nAdjustedTime 0 0 = true) (hle : nAdjustedTime ≤ nTime) :
    tx.lockedAt nTime = false := by
  rw [CTransaction.isFinal_iff] at hnow
  rw [CTransaction.lockedAt_eq_false]
  have hthreshold : 0 < LOCKTIME_THRESHOLD := by decide
  by_cases hlock : tx.nLockTime < LOCKTIME_THRESHOLD
  · exact .inl hlock
  · simp only [hlock, if_false, if_true] at hnow
    rcases hnow with hzero | hlt | hall
    · omega
    · exact .inr (.inl (by omega))
    · exact .inr (.inr hall)

theorem InTime.isFinal (h : InTime s pool vtx tx) :
    tx.isFinal s.nBestHeight s.nAdjustedTime 0 0 = true := by
  have hok := (List.mem_filter.mp h.eligible).2
  simp only [Bool.not_eq_true', Bool.or_eq_false_iff, Bool.not_eq_false'] at hok
  exact hok.2

/-- The time of the header of a proof-of-work block, from the clock. -/
theorem Template.toBlock_nTime_of_proofOfWork {pindexPrev : CBlockIndex} {pprev : BlockPtr}
    {nBits : Nat} (hpow : (template.toBlock env s pindexPrev pprev nBits).isProofOfWork = true) :
    ∃ nTime : Nat, (nTime : ℤ) < 2 ^ 32 ∧
      (template.toBlock env s pindexPrev pprev nBits).nTime = uint32 (max (nTime : ℤ) s.nAdjustedTime) :=
  ⟨_, uint32_lt _, if_pos hpow⟩

/-- In a proof-of-work block the lock must have passed the clock, or what is left of it. -/
theorem isFinal_proofOfWork_iff {nTime : Nat} (hnTime : (nTime : ℤ) < 2 ^ 32)
    (h : InTime s pool vtx tx) :
    tx.isFinal s.nBestHeight s.nAdjustedTime (s.nBestHeight + 1)
        (uint32 (max (nTime : ℤ) s.nAdjustedTime)) = true ↔
      tx.lockedAt (if uint32 s.nAdjustedTime = 0 then s.nAdjustedTime else uint32 s.nAdjustedTime)
        = false := by
  have hclock : 0 ≤ s.nAdjustedTime := (Int.natCast_nonneg _).trans h.clock
  rw [isFinal_next_iff h.isFinal]
  by_cases hlt : s.nAdjustedTime < 2 ^ 32
  · -- neither is before the clock
    have hmax : (uint32 (max (nTime : ℤ) s.nAdjustedTime) : ℤ) = max (nTime : ℤ) s.nAdjustedTime :=
      uint32_eq (le_max_of_le_right hclock) (max_lt hnTime hlt)
    have hnow := uint32_eq hclock hlt
    rw [lockedAt_eq_false_of_le h.isFinal (by split <;> omega),
      lockedAt_eq_false_of_le h.isFinal (by split <;> omega)]
  · simp only [max_eq_right (show (nTime : ℤ) ≤ s.nAdjustedTime by omega), Int.natCast_eq_zero]

/-- A transaction of the pool is final in the block exactly when it is not locked at the limit. -/
theorem isFinal_toBlock_iff {pindexPrev : CBlockIndex} {pprev : BlockPtr} {fProofOfStake : Bool}
    (nBits : Nat) {more : List CTransaction} (hbest : s.pindexBest = pindexPrev :: pprev)
    (hstake : ∀ nBits nSearchInterval stake,
      miner.createCoinStake nBits nSearchInterval = some stake → stake.nTime < 2 ^ 32)
    (hvtx : template.vtx = miner.startVtx s (miner.findCoinStake env s pindexPrev pprev fProofOfStake)
      ++ more)
    (htimes : ∀ tx ∈ more, InTime s s.mempool (miner.firstVtx env s fProofOfStake) tx)
    (htx : tx ∈ more) :
    tx.isFinal s.nBestHeight s.nAdjustedTime (s.nBestHeight + 1)
        (template.toBlock env s pindexPrev pprev nBits).getBlockTime = true ↔
      tx.lockedAt (miner.lockLimit env s fProofOfStake) = false := by
  have hin := htimes tx htx
  cases hfind : miner.findCoinStake env s pindexPrev pprev fProofOfStake with
  | none =>
      have hpow : (template.toBlock env s pindexPrev pprev nBits).isProofOfWork = true := by
        rw [CBlock.isProofOfWork, Bool.not_eq_true']
        by_contra hpos
        obtain ⟨txCoinStake, hsome⟩ := exists_coinStake hvtx htimes (by simpa using hpos)
        rw [hfind] at hsome
        cases hsome
      obtain ⟨nTime, hlt, heq⟩ := Template.toBlock_nTime_of_proofOfWork hpow
      rw [Miner.lockLimit, Miner.firstVtx_eq hbest hfind, CBlock.getBlockTime, heq]
      exact isFinal_proofOfWork_iff hlt hin
  | some txCoinStake =>
      rw [hfind] at hvtx
      obtain ⟨⟨_, _, stake, hcreate, rfl⟩, hmedian, hdrift⟩ := Miner.findCoinStake_time hfind
      have hfirst := Miner.firstVtx_eq hbest hfind
      have hkind := stake.isCoinStake_txNew
      obtain ⟨heq, -⟩ := Template.toBlock_nTime_of_coinStake env nBits hvtx
        (fun tx htx => (htimes tx htx).coinStake _ _ [] hfirst hkind) hkind
        (hstake _ _ stake hcreate) hmedian hdrift
      have hmedian₀ := BlockPtr.getMedianTimePast_nonneg (pindexPrev :: pprev)
      rw [CBlock.getBlockTime, heq, isFinal_next_iff hin.isFinal, if_neg (by omega),
        Miner.lockLimit, hfirst]
      rfl

/-- The coinbase and the coinstake are final in every block. -/
theorem forall_isFinal_toBlock {pindexPrev : CBlockIndex} {pprev : BlockPtr} {fProofOfStake : Bool}
    {more : List CTransaction} (nBits : Nat) (nBlockTime : ℤ)
    (hvtx : template.vtx = miner.startVtx s (miner.findCoinStake env s pindexPrev pprev fProofOfStake)
      ++ more) :
    (∀ tx ∈ (template.toBlock env s pindexPrev pprev nBits).vtx,
      tx.isFinal s.nBestHeight s.nAdjustedTime (s.nBestHeight + 1) nBlockTime = true) ↔
      ∀ tx ∈ more,
        tx.isFinal s.nBestHeight s.nAdjustedTime (s.nBestHeight + 1) nBlockTime = true := by
  have hmap := Template.map_toBlock (g := fun tx =>
    tx.isFinal s.nBestHeight s.nAdjustedTime (s.nBestHeight + 1) nBlockTime) (fun _ _ => rfl)
    env s pindexPrev pprev nBits template
  rw [← List.forall_mem_map (P := (· = true)), hmap, List.forall_mem_map, hvtx,
    List.forall_mem_append]
  refine and_iff_right ?_
  cases hfind : miner.findCoinStake env s pindexPrev pprev fProofOfStake with
  | none => simp [Miner.startVtx, Miner.coinbaseTx, CTransaction.isFinal]
  | some txCoinStake =>
      obtain ⟨stake, rfl⟩ := Miner.findCoinStake_eq_some hfind
      simp [Miner.startVtx, Miner.coinbaseTx, CoinStake.txNew, CTransaction.isFinal]

/-- No transaction of the memory pool that is in time is locked until after the block to come. -/
def Miner.NoneLocked (env : Env) (miner : Miner) (s : NodeState) (fProofOfStake : Bool) : Prop :=
  ∀ tx, InTime s s.mempool (miner.firstVtx env s fProofOfStake) tx →
    tx.lockedAt (miner.lockLimit env s fProofOfStake) = false

/-- Where no transaction of the pool that is in time is locked until after the time of the coinstake,
or of the clock in a proof-of-work block, the template holds only transactions that are final in it.
Where the first one that is tried is locked, and is added, it does not. -/
theorem template_final_of_noneLocked (env : Env) (files : Files) (miner : Miner) (s : NodeState)
    (fProofOfStake : Bool) (block : CBlock) (pool : CTxMemPool) (pindexPrev : CBlockIndex)
    (pprev : BlockPtr) (hbest : s.pindexBest = pindexPrev :: pprev)
    (hheight : s.nBestHeight = pindexPrev.nHeight)
    (hstake : ∀ nBits nSearchInterval stake,
      miner.createCoinStake nBits nSearchInterval = some stake → stake.nTime < 2 ^ 32)
    (h : createNewBlock env files miner s fProofOfStake = .ok (block, pool)) :
    (miner.NoneLocked env s fProofOfStake →
      ∀ tx ∈ block.vtx, tx.isFinal s.nBestHeight s.nAdjustedTime (pindexPrev.nHeight + 1)
        block.getBlockTime = true) ∧
    ∀ infos tx, s.infos.beginTransaction = .ok infos →
      AddsFirst env files s s.mempool (Template.start files miner s s.mempool infos
        ⟨miner.firstVtx env s fProofOfStake, 0⟩) tx →
      tx.lockedAt (miner.lockLimit env s fProofOfStake) = true →
      ∃ tx ∈ block.vtx, tx.isFinal s.nBestHeight s.nAdjustedTime (pindexPrev.nHeight + 1)
        block.getBlockTime = false := by
  obtain ⟨template, nBits, more, rfl, hvtx, htimes, hadds⟩ := createNewBlock_added hbest h
  have hfinal := fun tx (htx : tx ∈ more) => isFinal_toBlock_iff nBits hbest hstake hvtx htimes htx
  rw [← hheight]
  constructor
  · intro hnone
    rw [forall_isFinal_toBlock nBits _ hvtx]
    exact fun tx htx => (hfinal tx htx).mpr (hnone tx (htimes tx htx))
  · intro infos tx hinfos hfirst hlocked
    have hmem := hadds infos tx hinfos hfirst
    by_contra hall
    have hmore := (forall_isFinal_toBlock nBits _ hvtx).mp fun tx htx => by
      by_contra hnot
      exact hall ⟨tx, htx, by simpa using hnot⟩
    have hfree := (hfinal tx hmem).mp (hmore tx hmem)
    rw [hlocked] at hfree
    cases hfree

end

/-! ## A coinstake before a lock time

The wallet finds a coinstake ten seconds back, and a lock time may have passed since. -/

def sampleStake : CoinStake where
  nTime := 500000010
  kernel := (⟨3, 0⟩, [])
  kernel_isNull := rfl
  coins := []
  txout := { nValue := COIN, scriptPubKey := [1] }
  split := none

def stakingMiner : Miner := { sampleMiner with createCoinStake := fun _ _ => some sampleStake }

/-- A payment with a lock time, and an input that insists on it. -/
def lockedTx (nLockTime : Nat) : CTransaction where
  nTime := 5
  vin := [{ prevout := ⟨2, 0⟩, nSequence := 0 }]
  vout := [{ nValue := COIN - CENT, scriptPubKey := [2] }]
  nLockTime := nLockTime

/-- The node with this payment in its memory pool, at the time 500000020. -/
def stakingState (nLockTime : Nat) : NodeState :=
  { stateWithPool [lockedTx nLockTime] with nAdjustedTime := 500000020 }

theorem reachable_stakingState (nLockTime : Nat) :
    Reachable Env.plain forkFiles (PostponedConnect Env.plain) (stakingState nLockTime) :=
  .other (reachable_stateWithPool [lockedTx nLockTime]) ⟨rfl, rfl, rfl, rfl, rfl, rfl, rfl⟩

theorem pindexBest_stakingState (nLockTime : Nat) :
    (stakingState nLockTime).pindexBest = [indexA2, indexA1, indexG] :=
  show stateA2.pindexBest = _ by decide +kernel

theorem stakingMiner_times (nBits : Nat) (nSearchInterval : ℤ) (stake : CoinStake)
    (h : stakingMiner.createCoinStake nBits nSearchInterval = some stake) : stake.nTime < 2 ^ 32 := by
  obtain rfl : sampleStake = stake := Option.some.inj h
  decide

theorem exists_stakingBlock :
    ∃ block pool, createNewBlock Env.plain forkFiles stakingMiner (stakingState 500000005) true
        = .ok (block, pool) ∧ block.isProofOfStake = true ∧ block.vtx.length = 3 := by
  have hrun : (createNewBlock Env.plain forkFiles stakingMiner (stakingState 500000005)
      true).toOption.map (fun x => (x.1.isProofOfStake, x.1.vtx.length)) = some (true, 3) := by
    decide +kernel
  obtain ⟨⟨block, pool⟩, h⟩ := Lib.exists_of_isOk (show (createNewBlock Env.plain forkFiles
    stakingMiner (stakingState 500000005) true).isOk = true by decide +kernel)
  rw [h] at hrun
  obtain ⟨hpos, hlen⟩ := by simpa only [Prod.mk.injEq] using Option.some.inj hrun
  exact ⟨block, pool, h, hpos, hlen⟩

theorem proofOfStake_times_stakingState :
    ∃ block pool, createNewBlock Env.plain forkFiles stakingMiner (stakingState 500000005) true
        = .ok (block, pool) ∧
      ∃ cb txCoinStake more, block.vtx = cb :: txCoinStake :: more ∧ more ≠ [] ∧
        block.nTime = txCoinStake.nTime := by
  obtain ⟨block, pool, h, hpos, hlen⟩ := exists_stakingBlock
  obtain ⟨cb, txCoinStake, more, hvtx, -, hnTime, -⟩ := proofOfStake_times _ _ _ _ _ _ _ _ _
    (pindexBest_stakingState _) stakingMiner_times h hpos
  refine ⟨block, pool, h, cb, txCoinStake, more, hvtx, ?_, hnTime⟩
  rintro rfl
  rw [hvtx] at hlen
  simp at hlen

/-- The lock time was over at the time of the coinstake. -/
theorem noneLocked_stakingState :
    stakingMiner.NoneLocked Env.plain (stakingState 500000005) true := by
  have hall : ((stakingState 500000005).mempool.eligible (stakingState 500000005)).all (fun tx =>
      !tx.lockedAt (stakingMiner.lockLimit Env.plain (stakingState 500000005) true)) = true := by
    decide +kernel
  intro tx htx
  simpa using List.all_eq_true.mp hall tx htx.eligible

/-- With a later lock time the payment is the first transaction that is tried, and it is added. -/
theorem first_stakingState :
    ∃ infos, (stakingState 500000015).infos.beginTransaction = .ok infos ∧
      AddsFirst Env.plain forkFiles (stakingState 500000015) (stakingState 500000015).mempool
        (Template.start forkFiles stakingMiner (stakingState 500000015)
          (stakingState 500000015).mempool infos
          ⟨stakingMiner.firstVtx Env.plain (stakingState 500000015) true, 0⟩) (lockedTx 500000015) := by
  refine ⟨_, Lib.eq_ok_final
    (show ((stakingState 500000015).infos.beginTransaction).isOk = true by decide +kernel), ?_⟩
  generalize hstart : Template.start forkFiles stakingMiner (stakingState 500000015)
    (stakingState 500000015).mempool (Lib.final (stakingState 500000015).infos.beginTransaction)
    ⟨stakingMiner.firstVtx Env.plain (stakingState 500000015) true, 0⟩ = start
  have hfirst : start.mapPriority = [lockedTx 500000015] := by
    rw [← hstart]
    decide +kernel
  generalize htry : (lockedTx 500000015).tryTx Env.plain forkFiles (stakingState 500000015)
    (stakingState 500000015).mempool { start with mapPriority := [] } = result
  have hrun : result.toOption.map (fun outcome =>
      Outcome.casesOn (motive := fun _ => Bool) outcome false false fun _ _ _ _ => true)
      = some true := by
    rw [← htry, ← hstart]
    decide +kernel
  cases result with
  | error e => cases hrun
  | ok outcome =>
      cases outcome with
      | skipped => cases hrun
      | conflict => cases hrun
      | added q infos nTxSigOps nTxFees => exact ⟨[], q, infos, nTxSigOps, nTxFees, hfirst, htry⟩

theorem template_final_stakingState :
    (∃ block pool, createNewBlock Env.plain forkFiles stakingMiner (stakingState 500000005) true
        = .ok (block, pool) ∧ block.vtx.length = 3 ∧
      ∀ tx ∈ block.vtx, tx.isFinal (stakingState 500000005).nBestHeight
        (stakingState 500000005).nAdjustedTime (indexA2.nHeight + 1) block.getBlockTime = true) ∧
    ∀ block pool, createNewBlock Env.plain forkFiles stakingMiner (stakingState 500000015) true
        = .ok (block, pool) →
      ∃ tx ∈ block.vtx, tx.isFinal (stakingState 500000015).nBestHeight
        (stakingState 500000015).nAdjustedTime (indexA2.nHeight + 1) block.getBlockTime = false := by
  constructor
  · obtain ⟨block, pool, h, -, hlen⟩ := exists_stakingBlock
    exact ⟨block, pool, h, hlen, (template_final_of_noneLocked _ _ _ _ _ _ _ _ _
      (pindexBest_stakingState _) (by decide +kernel) stakingMiner_times h).1 noneLocked_stakingState⟩
  · intro block pool h
    obtain ⟨infos, hinfos, hfirst⟩ := first_stakingState
    exact (template_final_of_noneLocked _ _ _ _ _ _ _ _ _ (pindexBest_stakingState _)
      (by decide +kernel) stakingMiner_times h).2 infos _ hinfos hfirst (by decide +kernel)

/-- The lock time is over when the clock is read, but not at the time of the coinstake. -/
theorem template_not_final :
    Reachable Env.plain forkFiles (PostponedConnect Env.plain) (stakingState 500000015) ∧
      (stakingState 500000015).nBestHeight = indexA2.nHeight ∧
      ∃ block pool, createNewBlock Env.plain forkFiles stakingMiner (stakingState 500000015) true
          = .ok (block, pool) ∧
        ∃ tx ∈ block.vtx, tx.isFinal (stakingState 500000015).nBestHeight
          (stakingState 500000015).nAdjustedTime (indexA2.nHeight + 1) block.getBlockTime = false := by
  refine ⟨reachable_stakingState _, by decide +kernel, ?_⟩
  have hrun : (createNewBlock Env.plain forkFiles stakingMiner (stakingState 500000015)
      true).toOption.map (fun x => x.1.vtx.all fun tx =>
        tx.isFinal (stakingState 500000015).nBestHeight (stakingState 500000015).nAdjustedTime
          (indexA2.nHeight + 1) x.1.getBlockTime) = some false := by
    decide +kernel
  obtain ⟨⟨block, pool⟩, h⟩ := Lib.exists_of_isOk (show (createNewBlock Env.plain forkFiles
    stakingMiner (stakingState 500000015) true).isOk = true by decide +kernel)
  rw [h] at hrun
  obtain ⟨tx, htx, hnot⟩ := List.all_eq_false.mp (Option.some.inj hrun)
  exact ⟨block, pool, h, tx, htx, by simpa using hnot⟩

end ShinyCoin

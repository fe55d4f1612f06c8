import ShinyCoin.Miner.Pass

/-!
# Starting again

A pass that broke off is followed by one over the same pool without the offending transaction. The
new pass sees the same transactions in the same order, so it collects again whatever the old one had
collected (`collectPass_again`). But the old ones are still in the block.
-/

namespace ShinyCoin

section

variable {env : Env} {files : Files} {miner : Miner} {s : NodeState} {pool : CTxMemPool}
  {bad : CTransaction}

/-! ## The pool without a transaction -/

theorem CTxMemPool.lookup_remove (hbad : pool.lookup (env.getHash bad) = some bad) (h : Uint256) :
    (pool.remove env bad).lookup h = if h = env.getHash bad then none else pool.lookup h := by
  rw [remove, if_pos (by rw [hbad]; rfl)]
  show (pool.mapTx.erase (env.getHash bad))[h]? = _
  rw [Std.ExtTreeMap.getElem?_erase]
  by_cases heq : h = env.getHash bad
  · simp [heq]
  · simp [heq, Ne.symm heq, lookup]

theorem CTxMemPool.Keyed.remove (hpool : pool.Keyed env)
    (hbad : pool.lookup (env.getHash bad) = some bad) : (pool.remove env bad).Keyed env := by
  intro h tx htx
  rw [CTxMemPool.lookup_remove hbad] at htx
  split at htx
  · cases htx
  · exact hpool h tx htx

theorem CTxMemPool.size_remove (hbad : pool.lookup (env.getHash bad) = some bad) :
    (pool.remove env bad).mapTx.size + 1 = pool.mapTx.size := by
  have hmem : env.getHash bad ∈ pool.mapTx := by
    rw [Std.ExtTreeMap.mem_iff_isSome_getElem?]
    exact Option.isSome_of_eq_some hbad
  have hpos : pool.mapTx.size ≠ 0 := fun hzero =>
    Std.ExtTreeMap.ne_empty_of_mem hmem (Std.ExtTreeMap.eq_empty_iff_size_eq_zero.mpr hzero)
  rw [CTxMemPool.remove, if_pos (by rw [hbad]; rfl)]
  show (pool.mapTx.erase (env.getHash bad)).size + 1 = _
  rw [Std.ExtTreeMap.size_erase, if_pos (Std.ExtTreeMap.contains_iff_mem.mpr hmem)]
  omega

theorem CTxMemPool.Keyed.eligible_remove (hpool : pool.Keyed env)
    (hbad : pool.lookup (env.getHash bad) = some bad) :
    (pool.remove env bad).eligible s = (pool.eligible s).filter (· != bad) := by
  have herase : pool.mapTx.erase (env.getHash bad)
      = pool.mapTx.filter fun k _ => k != env.getHash bad := by
    refine Std.ExtTreeMap.ext_getElem? fun k => ?_
    rw [Std.ExtTreeMap.getElem?_erase, Std.ExtTreeMap.getElem?_filter']
    by_cases heq : k = env.getHash bad
    · cases pool.mapTx[k]? <;> simp [heq]
    · have hne : (k != env.getHash bad) = true := bne_iff_ne.mpr heq
      cases pool.mapTx[k]? <;> simp [hne, Ne.symm heq, Option.filter]
  -- under the hash of `bad` there is `bad` and nothing else
  have hvalues : (pool.mapTx.erase (env.getHash bad)).toList.map Prod.snd
      = (pool.mapTx.toList.map Prod.snd).filter (· != bad) := by
    rw [herase, Std.ExtTreeMap.toList_filter, List.filter_map]
    refine congrArg _ (List.filter_congr ?_)
    rintro ⟨k, tx⟩ hk
    have hlookup : pool.lookup k = some tx := Std.ExtTreeMap.mem_toList_iff_getElem?_eq_some.mp hk
    rw [Bool.eq_iff_iff]
    simp only [Function.comp_apply, bne_iff_ne, ne_eq, not_iff_not]
    constructor
    · rintro rfl
      rw [hbad] at hlookup
      exact (Option.some.inj hlookup).symm
    · rintro rfl
      exact (hpool k tx hlookup).symm
  rw [CTxMemPool.remove, if_pos (by rw [hbad]; rfl), eligible, eligible]
  show ((pool.mapTx.erase (env.getHash bad)).toList.map Prod.snd).filter _ = _
  rw [hvalues, List.filter_comm]

theorem CTxMemPool.Keyed.orphans_remove (hpool : pool.Keyed env)
    (hbad : pool.lookup (env.getHash bad) = some bad) :
    (pool.remove env bad).orphans files s
      = (pool.orphans files s).filter fun orphan => orphan.ptx != bad := by
  rw [orphans, orphans, hpool.eligible_remove hbad, List.filter_map, List.filter_comm]
  rfl

theorem CTxMemPool.Keyed.prioritized_remove (hpool : pool.Keyed env)
    (hbad : pool.lookup (env.getHash bad) = some bad) :
    (pool.remove env bad).prioritized files miner s
      = (pool.prioritized files miner s).filter (· != bad) := by
  rw [prioritized, prioritized, hpool.eligible_remove hbad,
    Lib.filter_enqueueAll (· != bad) List.Pairwise.nil, List.filter_comm]
  rfl

/-! ## The loop -/

/-- A round of the loop. -/
theorem collectTxs_cons {st : CollectState} {tx : CTransaction} {mapPriority : List CTransaction}
    (hq : st.mapPriority = tx :: mapPriority) (n : Nat) :
    collectTxs env files miner s pool (n + 1) st
      = (tx.tryTx env files s pool { st with mapPriority := mapPriority } >>= fun
        | .skipped => collectTxs env files miner s pool n { st with mapPriority := mapPriority }
        | .conflict => .ok ({ st with mapPriority := mapPriority }, some tx)
        | .added q infos nTxSigOps nTxFees => collectTxs env files miner s pool n
            (CollectState.add env miner { st with mapPriority := mapPriority } tx q infos nTxSigOps
              nTxFees)) := by
  rw [collectTxs]
  simp only [hq]
  rfl

/-- The loop only adds to the block. -/
theorem collectTxs_vtx {n : Nat} {st st' : CollectState} {conflict : Option CTransaction}
    (h : collectTxs env files miner s pool n st = .ok (st', conflict)) :
    ∃ more, st'.vtx = st.vtx ++ more := by
  induction n generalizing st with
  | zero =>
      cases h
      exact ⟨[], (List.append_nil _).symm⟩
  | succ n ih =>
      cases hq : st.mapPriority with
      | nil =>
          rw [collectTxs, hq] at h
          cases h
          exact ⟨[], (List.append_nil _).symm⟩
      | cons tx mapPriority =>
          rw [collectTxs_cons hq] at h
          obtain ⟨outcome, -, h⟩ := Lib.bind_eq_ok.mp h
          cases outcome with
          | skipped =>
              obtain ⟨more, hmore⟩ := ih h
              exact ⟨more, hmore⟩
          | conflict =>
              cases h
              exact ⟨[], (List.append_nil _).symm⟩
          | added q infos nTxSigOps nTxFees =>
              obtain ⟨more, hmore⟩ := ih h
              refine ⟨tx :: more, hmore.trans ?_⟩
              show st.vtx ++ [tx] ++ more = _
              rw [List.append_assoc, List.singleton_append]

/-- The transaction the loop breaks off with was still to come. -/
theorem conflict_mem_pending {n : Nat} {st st' : CollectState} {tx : CTransaction}
    (h : collectTxs env files miner s pool n st = .ok (st', some tx)) : tx ∈ st.pending := by
  induction n generalizing st with
  | zero => cases h
  | succ n ih =>
      cases hq : st.mapPriority with
      | nil =>
          rw [collectTxs, hq] at h
          cases h
      | cons tx' mapPriority =>
          have hpending : st.pending
              = tx' :: ({ st with mapPriority := mapPriority } : CollectState).pending := by
            rw [CollectState.pending, hq]
            rfl
          rw [collectTxs_cons hq] at h
          obtain ⟨outcome, -, h⟩ := Lib.bind_eq_ok.mp h
          rw [hpending]
          cases outcome with
          | skipped => exact List.mem_cons_of_mem _ (ih h)
          | conflict =>
              cases h
              exact List.mem_cons_self
          | added q infos nTxSigOps nTxFees =>
              exact List.mem_cons_of_mem _ ((CollectState.pending_add _ _ _ _ _ _).mem_iff.mp (ih h))

/-! ## Two passes side by side -/

/-- The block is known to be proof of stake or not before anything is collected. -/
theorem afterCoinStake_append {vtx collected : List CTransaction} (hvtx : vtx ≠ [])
    (hcollected : ∀ tx ∈ collected, tx.isCoinStake = false) (tx : CTransaction) :
    afterCoinStake (vtx ++ collected) tx = afterCoinStake vtx tx := by
  match vtx, collected with
  | [], _ => exact absurd rfl hvtx
  | [_], [] => rfl
  | [_], tx' :: _ =>
      simp [afterCoinStake, hcollected tx' List.mem_cons_self]
  | _ :: _ :: _, _ => rfl

/-- `FetchInputs` of the miner asks the pool only for what the test pool says is there. -/
theorem CTransaction.fetchInputs_congr {pool' : CTxMemPool} {txdb q : TxIndexMap}
    (h : ∀ hash txindex, q.layer txdb hash = some txindex → txindex.pos = CDiskTxPos.inPool →
      pool'.lookup hash = pool.lookup hash) (tx : CTransaction) :
    tx.fetchInputs files pool' txdb q false true = tx.fetchInputs files pool txdb q false true := by
  have hprev : ∀ hash, fetchPrev files pool' txdb q false true hash
      = fetchPrev files pool txdb q false true hash := by
    intro hash
    rw [fetchPrev, fetchPrev]
    cases hidx : q.layer txdb hash with
    | none => rfl
    | some txindex =>
        have hread : readTxPrev files pool' hash txindex = readTxPrev files pool hash txindex := by
          rw [readTxPrev, readTxPrev]
          split
          · next hpos => rw [h hash txindex hidx hpos]
          · rfl
        show (readTxPrev files pool' hash txindex >>= _) = (readTxPrev files pool hash txindex >>= _)
        rw [hread]
  have hinput : fetchInput files pool' txdb q false true = fetchInput files pool txdb q false true := by
    funext inputs txin
    rw [fetchInput, fetchInput, hprev]
  rw [fetchInputs, fetchInputs, hinput]

/-- The state `st'` of a pass without `bad`, beside the state `st` of one with it. The second pass
started with the block `vtx'`, and both have collected the same since. -/
structure Mirrors (bad : CTransaction) (vtx vtx' collected : List CTransaction)
    (st st' : CollectState) : Prop where
  mapPriority : st'.mapPriority = st.mapPriority.filter (· != bad)
  vOrphan : st'.vOrphan = st.vOrphan.filter fun orphan => orphan.ptx != bad
  mapTestPool : st'.mapTestPool = st.mapTestPool
  nBlockSize : st'.nBlockSize = st.nBlockSize
  nBlockSigOps : st'.nBlockSigOps = st.nBlockSigOps
  infos : st'.infos = st.infos
  vtx : st.vtx = vtx ++ collected
  vtx' : st'.vtx = vtx' ++ collected

namespace Mirrors

variable {vtx vtx' collected : List CTransaction} {st st' : CollectState} {template : Template}
  {infos : CTxInfoStore} {tx : CTransaction}

/-- Both passes do the same with a transaction other than `bad`. -/
theorem tryTx_eq (hm : Mirrors bad template.vtx vtx' collected st st')
    (hst : Collected env files s pool template infos collected st)
    (hbad : pool.lookup (env.getHash bad) = some bad) (hnot : bad ∉ collected)
    (hafter : afterCoinStake st'.vtx tx = afterCoinStake st.vtx tx) :
    tx.tryTx env files s (pool.remove env bad) st' = tx.tryTx env files s pool st := by
  have hfetch : tx.fetchInputs files (pool.remove env bad) s.txdb.data.txIndex st.mapTestPool false
      true = tx.fetchInputs files pool s.txdb.data.txIndex st.mapTestPool false true := by
    refine CTransaction.fetchInputs_congr ?_ tx
    intro hash txindex hidx hpos
    rcases hst.index hash txindex hidx with ⟨-, prev, hprev, rfl⟩ | ⟨hne, -, -⟩
    · rw [CTxMemPool.lookup_remove hbad, if_neg]
      intro heq
      have := hst.lookup_eq hprev
      rw [heq, hbad] at this
      rw [Option.some.inj this] at hnot
      exact hnot hprev
    · exact absurd hpos hne
  simp only [CTransaction.tryTx, CTransaction.tryFetch, CTransaction.tryConnect, hm.mapTestPool,
    hm.nBlockSize, hm.nBlockSigOps, hm.infos, hfetch, hafter]

/-- `bad` is taken off the queue of the first pass. -/
theorem skip_bad (hm : Mirrors bad vtx vtx' collected st st') {mapPriority : List CTransaction}
    (hq : st.mapPriority = bad :: mapPriority) :
    Mirrors bad vtx vtx' collected { st with mapPriority := mapPriority } st' := by
  have hfilter := hm.mapPriority
  rw [hq, List.filter_cons, if_neg (by simp)] at hfilter
  exact { hm with mapPriority := hfilter }

/-- Another transaction is taken off both queues. -/
theorem skip (hm : Mirrors bad vtx vtx' collected st st') (mapPriority : List CTransaction) :
    Mirrors bad vtx vtx' collected { st with mapPriority := mapPriority }
      { st' with mapPriority := mapPriority.filter (· != bad) } :=
  { hm with mapPriority := rfl }

theorem releasedBy_filter (hash : Uint256) (vOrphan : List COrphan) :
    releasedBy hash (vOrphan.filter fun orphan => orphan.ptx != bad)
      = (releasedBy hash vOrphan).filter (· != bad) := by
  induction vOrphan with
  | nil => rfl
  | cons orphan vOrphan ih =>
      have hptx : (orphan.erase hash).ptx = orphan.ptx := rfl
      simp only [releasedBy] at ih ⊢
      cases hb : orphan.ptx != bad <;> cases he : (orphan.erase hash).setDependsOn.isEmpty <;>
        simp [hb, he, hptx, ih]

theorem waitingAfter_filter (hash : Uint256) (vOrphan : List COrphan) :
    waitingAfter hash (vOrphan.filter fun orphan => orphan.ptx != bad)
      = (waitingAfter hash vOrphan).filter fun orphan => orphan.ptx != bad := by
  induction vOrphan with
  | nil => rfl
  | cons orphan vOrphan ih =>
      have hptx : (orphan.erase hash).ptx = orphan.ptx := rfl
      simp only [waitingAfter] at ih ⊢
      cases hb : orphan.ptx != bad <;> cases he : (orphan.erase hash).setDependsOn.isEmpty <;>
        simp [hb, he, hptx, ih]

/-- Both passes add a transaction. -/
theorem add (hm : Mirrors bad vtx vtx' collected st st')
    (hkey : Lib.ByKey miner.priority st.mapPriority) (tx : CTransaction) (q : TxIndexMap)
    (infos' : CTxInfoStore) (nTxSigOps : Nat) (nTxFees : ℤ) :
    Mirrors bad vtx vtx' (collected ++ [tx]) (st.add env miner tx q infos' nTxSigOps nTxFees)
      (st'.add env miner tx q infos' nTxSigOps nTxFees) := by
  refine ⟨?_, ?_, rfl, ?_, ?_, rfl, ?_, ?_⟩
  · show Lib.enqueueAll miner.priority st'.mapPriority (releasedBy _ st'.vOrphan)
      = (Lib.enqueueAll miner.priority st.mapPriority (releasedBy _ st.vOrphan)).filter _
    rw [hm.mapPriority, hm.vOrphan, releasedBy_filter, Lib.filter_enqueueAll _ hkey]
  · show waitingAfter _ st'.vOrphan = (waitingAfter _ st.vOrphan).filter _
    rw [hm.vOrphan, waitingAfter_filter]
  · exact congrArg (· + tx.getSerializeSize) hm.nBlockSize
  · exact congrArg (· + nTxSigOps) hm.nBlockSigOps
  · show st.vtx ++ [tx] = _
    rw [hm.vtx, List.append_assoc]
  · show st'.vtx ++ [tx] = _
    rw [hm.vtx', List.append_assoc]

/-- The second pass collects all that the first one collected before it broke off. -/
theorem collectTxs {n n' : Nat} {st₁ st₂ : CollectState} {conflict : Option CTransaction}
    (hm : Mirrors bad template.vtx vtx' collected st st')
    (hst : Collected env files s pool template infos collected st)
    (hkey : Lib.ByKey miner.priority st.mapPriority)
    (hbad : pool.lookup (env.getHash bad) = some bad)
    (hafter : ∀ collected, (∀ tx ∈ collected, tx.isCoinStake = false) → ∀ tx,
      afterCoinStake (vtx' ++ collected) tx = afterCoinStake (template.vtx ++ collected) tx)
    (hn : st'.pending.length ≤ n')
    (h : ShinyCoin.collectTxs env files miner s pool n st = .ok (st₁, some bad))
    (h' : ShinyCoin.collectTxs env files miner s (pool.remove env bad) n' st' = .ok (st₂, conflict)) :
    ∃ more rest, st₁.vtx = template.vtx ++ collected ++ more ∧
      st₂.vtx = vtx' ++ collected ++ more ++ rest := by
  induction n generalizing st st' n' collected with
  | zero => cases h
  | succ n ih =>
      cases hq : st.mapPriority with
      | nil =>
          rw [ShinyCoin.collectTxs, hq] at h
          cases h
      | cons tx mapPriority =>
          have hnot : bad ∉ collected := fun hmem =>
            (List.nodup_append.mp hst.nodup).2.2 bad hmem bad (conflict_mem_pending h) rfl
          have hpending : st.pending
              = tx :: ({ st with mapPriority := mapPriority } : CollectState).pending := by
            rw [CollectState.pending, hq]
            rfl
          have hkey₁ : Lib.ByKey miner.priority mapPriority := by
            rw [hq] at hkey
            exact (List.pairwise_cons.mp hkey).2
          rw [collectTxs_cons hq] at h
          obtain ⟨outcome, htry, h⟩ := Lib.bind_eq_ok.mp h
          by_cases htx : tx = bad
          · subst htx
            cases outcome with
            | skipped => exact ih (hm.skip_bad hq) (hst.skip hq) hkey₁ hn h h'
            | conflict =>
                cases h
                obtain ⟨rest, hrest⟩ := collectTxs_vtx h'
                exact ⟨[], rest, by simpa using hm.vtx, by simpa [hm.vtx'] using hrest⟩
            | added q infos' nTxSigOps nTxFees =>
                -- it would have to come a second time
                have hmem := (CollectState.pending_add _ _ _ _ _ _).mem_iff.mp (conflict_mem_pending h)
                have hnodup := (List.nodup_append.mp hst.nodup).2.1
                rw [hpending] at hnodup
                exact absurd hmem (List.nodup_cons.mp hnodup).1
          · have hq' : st'.mapPriority = tx :: mapPriority.filter (· != bad) := by
              rw [hm.mapPriority, hq, List.filter_cons, if_pos (bne_iff_ne.mpr htx)]
            have hm₁ := hm.skip mapPriority
            have hstake : afterCoinStake st'.vtx tx = afterCoinStake st.vtx tx := by
              rw [hm.vtx, hm.vtx']
              exact hafter collected (fun tx' htx' =>
                (hst.fromPool tx' (List.mem_append_left _ htx')).2.2) tx
            have htry' := hm₁.tryTx_eq (hst.skip hq) hbad hnot hstake
            obtain ⟨n', rfl⟩ : ∃ k, n' = k + 1 := by
              refine Nat.exists_eq_add_one.mpr (lt_of_lt_of_le ?_ hn)
              rw [CollectState.pending, hq', List.cons_append, List.length_cons]
              omega
            rw [collectTxs_cons hq', htry', htry] at h'
            have hn₁ : ({ st' with mapPriority := mapPriority.filter (· != bad) } :
                CollectState).pending.length ≤ n' := by
              rw [CollectState.pending, hq', List.cons_append, List.length_cons] at hn
              exact Nat.le_of_succ_le_succ hn
            cases outcome with
            | skipped => exact ih hm₁ (hst.skip hq) hkey₁ hn₁ h h'
            | conflict =>
                cases h
                exact absurd rfl htx
            | added q infos' nTxSigOps nTxFees =>
                obtain ⟨more, rest, h₁, h₂⟩ := ih (hm₁.add hkey₁ tx q infos' nTxSigOps nTxFees)
                  (hst.add hq (CTransaction.tryTx_added htry))
                  (Lib.ByKey.enqueueAll hkey₁ _)
                  (by rw [(CollectState.pending_add _ _ _ _ _ _).length_eq]; exact hn₁) h h'
                exact ⟨tx :: more, rest, by simpa using h₁, by simpa using h₂⟩

end Mirrors

/-- The pass after one that broke off collects the same again. -/
theorem collectPass_again (hpool : pool.Keyed env) (hdisk : NoneInPool s.txdb.data.txIndex)
    {template template₁ template₂ : Template} {conflict : Option CTransaction}
    (hvtx : template.vtx ≠ [])
    (h₁ : collectPass env files miner s pool template = .ok (template₁, some bad))
    (h₂ : collectPass env files miner s (pool.remove env bad) template₁ = .ok (template₂, conflict)) :
    ∃ more rest, template₁.vtx = template.vtx ++ more ∧
      template₂.vtx = template₁.vtx ++ more ++ rest := by
  obtain ⟨_, collected, st, _, hst, htemplate, hconf, -⟩ := collectPass_ok hpool hdisk h₁
  have hbad := hconf bad rfl
  have hstake : ∀ tx ∈ collected, tx.isCoinStake = false := fun tx htx =>
    (hst.fromPool tx (List.mem_append_left _ htx)).2.2
  have hvtx₁ : template₁.vtx = template.vtx ++ collected := by rw [htemplate]; exact hst.vtx
  obtain ⟨infos, st₁, hinfos, hloop₁, rfl⟩ := collectPass_loop h₁
  obtain ⟨infos', st₂, hinfos', hloop₂, rfl⟩ := collectPass_loop h₂
  obtain rfl : infos = infos' := Except.ok.inj (hinfos.symm.trans hinfos')
  have hm : Mirrors bad template.vtx st₁.vtx [] (template.start files miner s pool infos)
      (Template.start files miner s (pool.remove env bad) infos ⟨st₁.vtx, st₁.nFees⟩) :=
    ⟨hpool.prioritized_remove hbad, hpool.orphans_remove hbad, rfl, rfl, rfl, rfl,
      (List.append_nil _).symm, (List.append_nil _).symm⟩
  have hafter : ∀ collected', (∀ tx ∈ collected', tx.isCoinStake = false) → ∀ tx,
      afterCoinStake (st₁.vtx ++ collected') tx = afterCoinStake (template.vtx ++ collected') tx := by
    intro collected' hstake' tx
    rw [show st₁.vtx = template.vtx ++ collected from hvtx₁, List.append_assoc,
      afterCoinStake_append hvtx, afterCoinStake_append hvtx hstake']
    intro tx' htx'
    rcases List.mem_append.mp htx' with htx' | htx'
    · exact hstake tx' htx'
    · exact hstake' tx' htx'
  obtain ⟨more, rest, h₁, h₂⟩ := hm.collectTxs (Collected.start hpool hdisk template infos)
    (Lib.ByKey.enqueueAll List.Pairwise.nil _) hbad hafter
    (by rw [CollectState.pending, List.length_append, List.length_map]) hloop₁ hloop₂
  exact ⟨more, rest, by simpa using h₁, by simpa using h₂⟩

end

end ShinyCoin

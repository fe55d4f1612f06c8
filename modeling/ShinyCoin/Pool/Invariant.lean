import ShinyCoin.Pool.Relay
import ShinyCoin.Miner.Restart
import ShinyCoin.Chain.Consistency

/-!
# The two maps of the memory pool

`mapTx` holds the transactions under their hashes, `mapNextTx` tells which of them spends an
outpoint, and with which input. `remove` erases by the inputs of the transaction it is given, so the
two maps stay in step as long as a hash stands for one transaction.

A transaction of the pool is not in the transaction index: `checkAccept` looks there, when it checks
the inputs at all. `Reorganize` takes the transactions it disconnects into the pool without looking,
and then deletes those that the new branch has.
-/

namespace ShinyCoin

/-- The maps are in step. -/
structure PoolInv (env : Env) (pool : CTxMemPool) : Prop where
  keyed : pool.Keyed env
  next : ∀ o h i, pool.mapNextTx o = some (h, i) ↔
    ∃ tx txin, pool.lookup h = some tx ∧ tx.vin[i]? = some txin ∧ txin.prevout = o

namespace PoolInv

variable {env : Env} {pool : CTxMemPool} {tx : CTransaction}

theorem empty (env : Env) : PoolInv env {} := by
  have hnone : ∀ h : Uint256, ({} : CTxMemPool).lookup h = none :=
    fun h => Std.ExtTreeMap.getElem?_empty
  refine ⟨?_, ?_⟩
  · intro h tx htx
    rw [hnone] at htx
    cases htx
  · intro o h i
    constructor
    · intro ho
      cases ho
    · rintro ⟨tx, txin, htx, -⟩
      rw [hnone] at htx
      cases htx

/-- No two transactions of the pool, and no two inputs of one, spend the same outpoint. -/
theorem spendsOnce (hpool : PoolInv env pool) {h h' : Uint256} {tx tx' : CTransaction} {i i' : Nat}
    {txin txin' : CTxIn} (htx : pool.lookup h = some tx) (htx' : pool.lookup h' = some tx')
    (hin : tx.vin[i]? = some txin) (hin' : tx'.vin[i']? = some txin')
    (heq : txin.prevout = txin'.prevout) : h = h' ∧ i = i' := by
  have h₁ := (hpool.next txin.prevout h i).mpr ⟨tx, txin, htx, hin, rfl⟩
  have h₂ := (hpool.next txin.prevout h' i').mpr ⟨tx', txin', htx', hin', heq.symm⟩
  rw [h₁] at h₂
  exact Prod.mk.inj (Option.some.inj h₂)

/-! ## Adding -/

/-- Setting the outpoints of a list, no two of them the same. -/
theorem foldl_set_eq_some {h : Uint256} {xs : List (CTxIn × Nat)}
    (hnodup : (xs.map fun x => x.1.prevout).Nodup) {m : Lib.PMap COutPoint (Uint256 × Nat)}
    {o : COutPoint} {v : Uint256 × Nat} :
    (xs.foldl (fun m x => m.set x.1.prevout (h, x.2)) m) o = some v ↔
      (∃ x ∈ xs, x.1.prevout = o ∧ v = (h, x.2)) ∨
        (∀ x ∈ xs, x.1.prevout ≠ o) ∧ m o = some v := by
  induction xs generalizing m with
  | nil => simp
  | cons x xs ih =>
      rw [List.map_cons, List.nodup_cons] at hnodup
      obtain ⟨hx, hnodup⟩ := hnodup
      rw [List.foldl_cons, ih hnodup, Lib.PMap.set_apply]
      have hother : x.1.prevout = o → ∀ y ∈ xs, y.1.prevout ≠ o := by
        rintro rfl y hy heq
        exact hx (heq ▸ List.mem_map_of_mem hy)
      by_cases hxo : o = x.1.prevout
      · rw [if_pos hxo]
        constructor
        · rintro (⟨y, hy, hyo, hv⟩ | ⟨-, hv⟩)
          · exact .inl ⟨y, List.mem_cons_of_mem _ hy, hyo, hv⟩
          · exact .inl ⟨x, List.mem_cons_self, hxo.symm, (Option.some.inj hv).symm⟩
        · rintro (⟨y, hy, hyo, rfl⟩ | ⟨hnone, -⟩)
          · rcases List.mem_cons.mp hy with rfl | hy
            · exact .inr ⟨hother hxo.symm, rfl⟩
            · exact .inl ⟨y, hy, hyo, rfl⟩
          · exact absurd hxo.symm (hnone x List.mem_cons_self)
      · rw [if_neg hxo]
        grind

theorem addUnchecked (hpool : PoolInv env pool) (hnew : pool.lookup (env.getHash tx) = none)
    (hnodup : (tx.vin.map CTxIn.prevout).Nodup)
    (hfree : ∀ txin ∈ tx.vin, pool.mapNextTx txin.prevout = none) :
    PoolInv env (pool.addUnchecked env tx) := by
  refine ⟨?_, ?_⟩
  · intro h tx' htx'
    rw [CTxMemPool.lookup_addUnchecked] at htx'
    split at htx'
    · next heq =>
      cases htx'
      exact heq.symm
    · exact hpool.keyed h tx' htx'
  · intro o h i
    have hmap : (tx.vin.zipIdx.map fun x => x.1.prevout) = tx.vin.map CTxIn.prevout := by
      show tx.vin.zipIdx.map (CTxIn.prevout ∘ Prod.fst) = _
      rw [← List.map_map, List.zipIdx_map_fst]
    show (tx.vin.zipIdx.foldl (fun m x => m.set x.1.prevout (env.getHash tx, x.2)) pool.mapNextTx) o
      = some (h, i) ↔ _
    rw [foldl_set_eq_some (by rw [hmap]; exact hnodup)]
    simp only [CTxMemPool.lookup_addUnchecked]
    constructor
    · rintro (⟨⟨txin, j⟩, hmem, rfl, heq⟩ | ⟨hnone, hold⟩)
      · cases heq
        exact ⟨tx, txin, if_pos rfl, List.mem_zipIdx_iff_getElem?.mp hmem, rfl⟩
      · obtain ⟨tx', txin, htx', hin, ho⟩ := (hpool.next o h i).mp hold
        refine ⟨tx', txin, ?_, hin, ho⟩
        rw [if_neg, htx']
        rintro rfl
        rw [hnew] at htx'
        cases htx'
    · rintro ⟨tx', txin, htx', hin, rfl⟩
      split at htx'
      · next heq =>
        cases htx'
        exact .inl ⟨(txin, i), List.mem_zipIdx_iff_getElem?.mpr hin, rfl, by rw [heq]⟩
      · -- an outpoint that the pool spent already is not one of the new transaction
        have hold := (hpool.next txin.prevout h i).mpr ⟨tx', txin, htx', hin, rfl⟩
        refine .inr ⟨?_, hold⟩
        intro x hx heq
        have hfree' := hfree x.1 (List.fst_mem_of_mem_zipIdx hx)
        rw [heq, hold] at hfree'
        cases hfree'

/-! ## Removing -/

theorem foldl_erase_apply {txins : List CTxIn} {m : Lib.PMap COutPoint (Uint256 × Nat)}
    {o : COutPoint} : (txins.foldl (fun m txin => m.erase txin.prevout) m) o
      = if o ∈ txins.map CTxIn.prevout then none else m o := by
  induction txins generalizing m with
  | nil => rfl
  | cons txin txins ih =>
      rw [List.foldl_cons, ih, Lib.PMap.erase_apply, List.map_cons]
      grind

theorem remove (hpool : PoolInv env pool) (htx : pool.lookup (env.getHash tx) = some tx) :
    PoolInv env (pool.remove env tx) := by
  refine ⟨hpool.keyed.remove htx, ?_⟩
  intro o h i
  have hmap : (pool.remove env tx).mapNextTx
      = tx.vin.foldl (fun m txin => m.erase txin.prevout) pool.mapNextTx := by
    rw [CTxMemPool.remove, if_pos (by rw [htx]; rfl)]
  rw [hmap, foldl_erase_apply]
  simp only [CTxMemPool.lookup_remove htx]
  constructor
  · intro ho
    split at ho
    · cases ho
    · next hout =>
      obtain ⟨tx', txin, htx', hin, rfl⟩ := (hpool.next o h i).mp ho
      refine ⟨tx', txin, ?_, hin, rfl⟩
      rw [if_neg, htx']
      rintro rfl
      rw [htx] at htx'
      cases htx'
      exact hout (List.mem_map_of_mem (List.mem_of_getElem? hin))
  · rintro ⟨tx', txin, htx', hin, rfl⟩
    split at htx'
    · cases htx'
    · next hne =>
      rw [if_neg]
      · exact (hpool.next _ h i).mpr ⟨tx', txin, htx', hin, rfl⟩
      · -- no other transaction spends what the removed one spends
        intro hmem
        obtain ⟨txin₀, hmem₀, heq₀⟩ := List.mem_map.mp hmem
        obtain ⟨j, hj⟩ := List.getElem?_of_mem hmem₀
        exact hne (hpool.spendsOnce htx' htx hin hj heq₀.symm).1

end PoolInv

theorem CTransaction.checkTransaction_nodup {tx : CTransaction} (h : tx.checkTransaction = .ok ()) :
    (tx.vin.map CTxIn.prevout).Nodup := by
  simp only [checkTransaction, Lib.bind_eq_ok, Lib.require_eq_ok] at h
  grind

/-! ## The pool with the transactions it may hold -/

/-- The maps are in step, and every transaction of the pool is a known one and no coinbase. -/
structure PoolHolds (env : Env) (known : CTransaction → Prop) (pool : CTxMemPool) : Prop where
  inv : PoolInv env pool
  known : ∀ h tx, pool.lookup h = some tx → known tx ∧ tx.isCoinBase = false

namespace PoolHolds

variable {env : Env} {known : CTransaction → Prop} {pool : CTxMemPool} {tx : CTransaction}
  {txs : List CTransaction} {h : Uint256}

theorem addChecked {s : NodeState} {fCheckInputs : Bool} (hpool : PoolHolds env known s.mempool)
    (htx : known tx) (hcheck : s.checkKnown env tx fCheckInputs = .ok ()) :
    PoolHolds env known (s.mempool.addUnchecked env tx) := by
  obtain ⟨htrans, hcb, -, hnew, -, hfree⟩ := NodeState.checkKnown_ok hcheck
  refine ⟨hpool.inv.addUnchecked hnew (CTransaction.checkTransaction_nodup htrans) hfree, ?_⟩
  intro h tx' htx'
  rw [CTxMemPool.lookup_addUnchecked] at htx'
  split at htx'
  · cases htx'
    exact ⟨htx, hcb⟩
  · exact hpool.known h tx' htx'

/-- One round of `Resurrect memory transactions`. -/
theorem accept (hpool : PoolHolds env known pool) (htx : known tx) :
    PoolHolds env known (pool.accept env tx) := by
  rw [CTxMemPool.accept]
  split
  · next hok =>
    obtain ⟨⟨⟩, hcheck⟩ := Lib.exists_of_isOk hok
    -- a node with this pool would have accepted it, too
    exact PoolHolds.addChecked (s := { mempool := pool }) hpool htx
      ((NodeState.checkKnown_false env _ tx).trans hcheck)
  · exact hpool

theorem accepts (hpool : PoolHolds env known pool) (htxs : ∀ tx ∈ txs, known tx) :
    PoolHolds env known (txs.foldl (CTxMemPool.accept env) pool) := by
  induction txs generalizing pool with
  | nil => exact hpool
  | cons tx txs ih =>
      exact ih (hpool.accept (htxs tx List.mem_cons_self))
        (fun tx' htx' => htxs tx' (List.mem_cons_of_mem _ htx'))

/-- A hash stands for one known transaction. -/
theorem lookup_hash (hinj : ∀ tx tx', known tx → known tx' → env.getHash tx = env.getHash tx' →
    tx = tx') (hpool : PoolHolds env known pool) (htx : known tx)
    (hsome : (pool.lookup (env.getHash tx)).isSome = true) :
    pool.lookup (env.getHash tx) = some tx := by
  obtain ⟨tx', htx'⟩ := Option.isSome_iff_exists.mp hsome
  rw [htx', hinj tx' tx (hpool.known _ _ htx').1 htx (hpool.inv.keyed _ _ htx')]

theorem remove (hinj : ∀ tx tx', known tx → known tx' → env.getHash tx = env.getHash tx' →
    tx = tx') (hpool : PoolHolds env known pool) (htx : known tx) :
    PoolHolds env known (pool.remove env tx) := by
  by_cases hsome : (pool.lookup (env.getHash tx)).isSome = true
  · have hlookup := hpool.lookup_hash hinj htx hsome
    refine ⟨hpool.inv.remove hlookup, ?_⟩
    intro h tx' htx'
    rw [CTxMemPool.lookup_remove hlookup] at htx'
    split at htx'
    · cases htx'
    · exact hpool.known h tx' htx'
  · rw [CTxMemPool.remove, if_neg hsome]
    exact hpool

theorem removes (hinj : ∀ tx tx', known tx → known tx' → env.getHash tx = env.getHash tx' →
    tx = tx') (hpool : PoolHolds env known pool) (htxs : ∀ tx ∈ txs, known tx) :
    PoolHolds env known (txs.foldl (CTxMemPool.remove env) pool) := by
  induction txs generalizing pool with
  | nil => exact hpool
  | cons tx txs ih =>
      exact ih (hpool.remove hinj (htxs tx List.mem_cons_self))
        (fun tx' htx' => htxs tx' (List.mem_cons_of_mem _ htx'))

end PoolHolds

/-! ## Which hashes the pool has -/

namespace CTxMemPool

variable {env : Env} {pool : CTxMemPool} {txs : List CTransaction} {h : Uint256}

/-- Resurrecting adds the hashes of the transactions it is given, at most. -/
theorem lookup_accepts_none (hnone : pool.lookup h = none) (hne : ∀ tx ∈ txs, env.getHash tx ≠ h) :
    (txs.foldl (accept env) pool).lookup h = none := by
  induction txs generalizing pool with
  | nil => exact hnone
  | cons tx txs ih =>
      apply ih
      · rw [accept]
        split
        · rw [lookup_addUnchecked, if_neg (hne tx List.mem_cons_self).symm]
          exact hnone
        · exact hnone
      · exact fun tx' htx' => hne tx' (List.mem_cons_of_mem _ htx')

theorem lookup_remove_apply (env : Env) (pool : CTxMemPool) (tx : CTransaction) (h : Uint256) :
    (pool.remove env tx).lookup h = if h = env.getHash tx then none else pool.lookup h := by
  rw [remove]
  split
  · show (pool.mapTx.erase (env.getHash tx))[h]? = _
    exact Lib.getElem?_erase pool.mapTx (env.getHash tx) h
  · next hnone =>
    split
    · next heq =>
      rw [heq]
      simpa using hnone
    · rfl

/-- Deleting takes the hashes of the transactions it is given, and no others. -/
theorem lookup_removes (env : Env) (pool : CTxMemPool) (txs : List CTransaction) (h : Uint256) :
    (txs.foldl (remove env) pool).lookup h
      = if h ∈ txs.map env.getHash then none else pool.lookup h := by
  induction txs generalizing pool with
  | nil => rfl
  | cons tx txs ih =>
      rw [List.foldl_cons, ih, lookup_remove_apply, List.map_cons]
      grind

end CTxMemPool

/-! ## Which hashes the index has -/

theorem CTxDB.txnCommit_data {txdb txdb' : CTxDB} (h : txdb.txnCommit = some txdb') :
    txdb'.data = txdb.data := by
  rw [txnCommit] at h
  split at h
  · cases h
  · cases h
    rfl

section

variable {env : Env} {files : Files} {h : Uint256}

/-- Connecting a block adds the hashes of its transactions to the index. -/
theorem CBlock.connectBlock_unindexed {block : CBlock} {pindex : CBlockIndex} {pprev : BlockPtr}
    {s s' : NodeState} (hconn : block.connectBlock env files pindex pprev s = .ok s')
    (hnone : s.txdb.data.txIndex h = none) (hne : ∀ tx ∈ block.vtx, env.getHash tx ≠ h) :
    s'.txdb.data.txIndex h = none := by
  rw [connectBlock_txIndex hconn]
  exact applyTxs_eq_none hnone hne

/-- Disconnecting a block adds nothing to the index, and leaves no entry of its transactions. -/
theorem CBlock.disconnectBlock_unindexed {block : CBlock} {pprev : BlockPtr} {s s' : NodeState}
    (hdis : block.disconnectBlock env files pprev s = .ok s')
    (hnone : s.txdb.data.txIndex h = none ∨ ∃ tx ∈ block.vtx, env.getHash tx = h) :
    s'.txdb.data.txIndex h = none := by
  obtain ⟨s₁, h₁, -, hindex, -⟩ := disconnectBlock_ledger hdis
  rw [hindex]
  cases hk : s₁.txdb.data.txIndex h with
  | none => rfl
  | some txindex =>
      obtain ⟨hpos, hne⟩ := disconnectTxs_pos h₁ hk
      rcases hnone with hnone | ⟨tx, htx, heq⟩
      · rw [hnone] at hpos
        cases hpos
      · exact absurd heq (hne tx (List.mem_reverse.mpr htx))

/-- The first loop of `Reorganize`: the index gains nothing, what is queued for the pool is not in
it, and comes from blocks that were read. -/
theorem reorgDisconnects_unindexed {ptrs : List BlockPtr} {st st' : ReorgState}
    (hloop : ptrs.foldlM (reorgDisconnect env files) st = .ok st') :
    (∀ h, st.1.txdb.data.txIndex h = none → st'.1.txdb.data.txIndex h = none) ∧
      ∀ tx ∈ st'.2, tx ∈ st.2 ∨ st'.1.txdb.data.txIndex (env.getHash tx) = none ∧
        ∃ ptr block, files.readBlock env ptr = some block ∧ tx ∈ block.vtx := by
  induction ptrs generalizing st with
  | nil =>
      cases hloop
      exact ⟨fun _ hnone => hnone, fun _ htx => .inl htx⟩
  | cons ptr ptrs ih =>
      obtain ⟨st₁, hstep, hloop⟩ := Lib.bind_eq_ok.mp hloop
      obtain ⟨hgain, hqueue⟩ := ih hloop
      rw [reorgDisconnect] at hstep
      split at hstep
      · cases hstep
      · next block hread =>
        split at hstep
        · cases hstep
        · next s₁ hdis =>
          cases hstep
          refine ⟨fun h hnone => hgain h (CBlock.disconnectBlock_unindexed hdis (.inl hnone)), ?_⟩
          intro tx htx
          rcases hqueue tx htx with hold | hnew
          · rcases List.mem_append.mp hold with hold | hnew
            · exact .inl hold
            · have hmem := List.mem_of_mem_filter hnew
              exact .inr ⟨hgain _ (CBlock.disconnectBlock_unindexed hdis (.inr ⟨tx, hmem, rfl⟩)),
                ptr, block, hread, hmem⟩
          · exact .inr hnew

/-- The second loop: what the index gains is queued to be deleted, and comes from blocks that were
read. -/
theorem reorgConnects_unindexed {ptrs : List BlockPtr} {st st' : ReorgState}
    (hloop : ptrs.foldlM (reorgConnect env files) st = .ok st') :
    (∀ h, st.1.txdb.data.txIndex h = none → (∀ tx ∈ st'.2, env.getHash tx ≠ h) →
        st'.1.txdb.data.txIndex h = none) ∧ st.2 <+: st'.2 ∧
      ∀ tx ∈ st'.2, tx ∈ st.2 ∨ ∃ ptr block, files.readBlock env ptr = some block ∧
        tx ∈ block.vtx := by
  induction ptrs generalizing st with
  | nil =>
      cases hloop
      exact ⟨fun _ hnone _ => hnone, List.prefix_refl _, fun _ htx => .inl htx⟩
  | cons ptr ptrs ih =>
      obtain ⟨st₁, hstep, hloop⟩ := Lib.bind_eq_ok.mp hloop
      obtain ⟨hgain, hpre, hqueue⟩ := ih hloop
      rw [reorgConnect] at hstep
      split at hstep
      · cases hstep
      · next block hread =>
        split at hstep
        · cases hstep
        · next s₁ hconn =>
          cases hstep
          cases ptr with
          | nil => cases hconn
          | cons pindex pprev =>
            refine ⟨?_, (List.prefix_append _ _).trans hpre, ?_⟩
            · intro h hnone hne
              refine hgain h (CBlock.connectBlock_unindexed hconn hnone ?_) hne
              exact fun tx htx => hne tx (hpre.subset (List.mem_append_right _ htx))
            · intro tx htx
              rcases hqueue tx htx with hold | hnew
              · rcases List.mem_append.mp hold with hold | hnew
                · exact .inl hold
                · exact .inr ⟨_, block, hread, hnew⟩
              · exact .inr hnew

/-- What `Reorganize` does to the pool and to the index. -/
theorem reorganize_pool {ptr : BlockPtr} {s s' : NodeState}
    (hre : reorganize env files ptr s = .ok s') :
    ∃ vResurrect vDelete : List CTransaction,
      s'.mempool = vDelete.foldl (CTxMemPool.remove env)
        (vResurrect.foldl (CTxMemPool.accept env) s.mempool) ∧
      (∀ tx ∈ vResurrect ++ vDelete, ∃ ptr block, files.readBlock env ptr = some block ∧
        tx ∈ block.vtx) ∧
      ∀ h, (s.txdb.data.txIndex h = none ∨ h ∈ vResurrect.map env.getHash) →
        h ∉ vDelete.map env.getHash → s'.txdb.data.txIndex h = none := by
  rw [reorganize] at hre
  obtain ⟨pfork, hfork, hre⟩ := Lib.bind_eq_ok.mp hre
  obtain ⟨-, hre⟩ := Lib.seq_eq_ok.mp hre
  obtain ⟨st₁, h₁, hre⟩ := Lib.bind_eq_ok.mp hre
  obtain ⟨st₂, h₂, hre⟩ := Lib.bind_eq_ok.mp hre
  obtain ⟨hgain₁, hqueue₁⟩ := reorgDisconnects_unindexed h₁
  obtain ⟨hgain₂, -, hqueue₂⟩ := reorgConnects_unindexed h₂
  have hpool₁ := (reorgDisconnects_sameMemory.1 st₁ h₁).mempool
  have hpool₂ : st₂.1.mempool = st₁.1.mempool := by
    refine Lib.foldlM_ok_inv (fun _ (st : ReorgState) => st.1.mempool = st₁.1.mempool) ?_ ?_ h₂
    · exact fun _ _ _ _ hI hstep => (reorgConnect_sameMemory hstep).mempool.trans hI
    · rfl
  dsimp only at hre
  split at hre
  · cases hre
  · next txdb hcommit =>
    cases hre
    refine ⟨st₁.2, st₂.2, ?_, ?_, ?_⟩
    · show st₂.2.foldl _ (st₁.2.foldl _ st₂.1.mempool) = _
      rw [hpool₂, hpool₁]
    · intro tx htx
      rcases List.mem_append.mp htx with htx | htx
      · rcases hqueue₁ tx htx with hnil | ⟨-, hread⟩
        · cases hnil
        · exact hread
      · rcases hqueue₂ tx htx with hnil | hread
        · cases hnil
        · exact hread
    · intro h hnone hdel
      show txdb.data.txIndex h = none
      rw [CTxDB.txnCommit_data hcommit]
      apply hgain₂
      · rcases hnone with hnone | hres
        · exact hgain₁ h hnone
        · obtain ⟨tx, htx, rfl⟩ := List.mem_map.mp hres
          rcases hqueue₁ tx htx with hnil | ⟨hnone, -⟩
          · cases hnil
          · exact hnone
      · intro tx htx heq
        exact hdel (heq ▸ List.mem_map_of_mem htx)

/-- What `SetBestChainInner` does to the pool and to the index. -/
theorem CBlock.setBestChainInner_pool {block : CBlock} {pindexNew : CBlockIndex} {pprev : BlockPtr}
    {s s' : NodeState} (hinner : block.setBestChainInner env files pindexNew pprev s = .ok s') :
    s'.mempool = block.vtx.foldl (CTxMemPool.remove env) s.mempool ∧
      ∀ h, s.txdb.data.txIndex h = none → h ∉ block.vtx.map env.getHash →
        s'.txdb.data.txIndex h = none := by
  rw [setBestChainInner] at hinner
  split at hinner
  · cases hinner
  · next s₁ hconn =>
    have hmem := connectBlock_sameMemory env files block pindexNew pprev s
    rw [hconn] at hmem
    replace hmem : s₁.mempool = s.mempool := hmem.mempool
    unfold attach at hinner
    dsimp only at hinner
    split at hinner
    · cases hinner
    · next txdb hcommit =>
      split at hinner
      · cases hinner
      · cases hinner
        refine ⟨?_, ?_⟩
        · show block.vtx.foldl _ s₁.mempool = _
          rw [hmem]
        · intro h hnone hne
          show txdb.data.txIndex h = none
          rw [CTxDB.txnCommit_data hcommit]
          show s₁.txdb.data.txIndex h = none
          refine connectBlock_unindexed hconn hnone ?_
          intro tx htx heq
          exact hne (heq ▸ List.mem_map_of_mem htx)

end

/-! ## Runs -/

/-- The states a node with an empty pool gets to. Every transaction it is given is a known one, and
one that it takes in without checking its inputs meets `Loose`. -/
inductive PoolRun {φ : Type} (renv : RelayEnv φ) (known : CTransaction → Prop)
    (Loose : NodeState → CTransaction → Prop) : NodeState → Prop where
  | empty {s : NodeState} (h : s.mempool = {}) : PoolRun renv known Loose s
  | accept {s s' : NodeState} {files : Files} {free free' : φ} {tx : CTransaction}
      {fCheckInputs : Bool} (hs : PoolRun renv known Loose s) (htx : known tx)
      (hloose : fCheckInputs = false → Loose s tx)
      (h : s.acceptToMemoryPool renv files free tx fCheckInputs = (free', .ok s')) :
      PoolRun renv known Loose s'
  | remove {s : NodeState} {tx : CTransaction} (hs : PoolRun renv known Loose s) (htx : known tx) :
      PoolRun renv known Loose { s with mempool := s.mempool.remove renv.toEnv tx }
  | connect {s s' : NodeState} {files : Files} {block : CBlock} {pindexNew : CBlockIndex}
      {pprev : BlockPtr} (hs : PoolRun renv known Loose s) (htxs : ∀ tx ∈ block.vtx, known tx)
      (h : block.setBestChainInner renv.toEnv files pindexNew pprev s = .ok s') :
      PoolRun renv known Loose s'
  | reorganize {s s' : NodeState} {files : Files} {pindexNew : BlockPtr}
      (hs : PoolRun renv known Loose s)
      (htxs : ∀ ptr block, files.readBlock renv.toEnv ptr = some block → ∀ tx ∈ block.vtx, known tx)
      (h : ShinyCoin.reorganize renv.toEnv files pindexNew s = .ok s') :
      PoolRun renv known Loose s'
  /-- The rest of the node, and calls that fail: no block gets connected. -/
  | other {s s' : NodeState} (hs : PoolRun renv known Loose s) (hpool : s'.mempool = s.mempool)
      (hindex : ∀ h, s.txdb.data.txIndex h = none → s'.txdb.data.txIndex h = none) :
      PoolRun renv known Loose s'

namespace PoolRun

variable {φ : Type} {renv : RelayEnv φ} {known : CTransaction → Prop}
  {Loose : NodeState → CTransaction → Prop} {s s' : NodeState}

theorem holds (hinj : ∀ tx tx', known tx → known tx' → renv.getHash tx = renv.getHash tx' →
    tx = tx') (hs : PoolRun renv known Loose s) : PoolHolds renv.toEnv known s.mempool := by
  induction hs with
  | empty h =>
      rw [h]
      refine ⟨PoolInv.empty _, ?_⟩
      intro h tx htx
      have hnone : ({} : CTxMemPool).lookup h = none := Std.ExtTreeMap.getElem?_empty
      rw [hnone] at htx
      cases htx
  | accept hs htx hloose h ih =>
      obtain ⟨hcheck, rfl⟩ := NodeState.acceptToMemoryPool_ok h
      exact ih.addChecked htx (NodeState.checkAccept_known hcheck)
  | remove hs htx ih => exact ih.remove hinj htx
  | connect hs htxs h ih =>
      rw [(CBlock.setBestChainInner_pool h).1]
      exact ih.removes hinj htxs
  | reorganize hs htxs h ih =>
      obtain ⟨vResurrect, vDelete, hpool, hread, -⟩ := reorganize_pool h
      have hknown : ∀ tx ∈ vResurrect ++ vDelete, known tx := by
        intro tx htx
        obtain ⟨ptr, block, hblock, hmem⟩ := hread tx htx
        exact htxs ptr block hblock tx hmem
      rw [hpool]
      apply PoolHolds.removes hinj
      · exact ih.accepts fun tx htx => hknown tx (List.mem_append_left _ htx)
      · exact fun tx htx => hknown tx (List.mem_append_right _ htx)
  | other hs hpool hindex ih =>
      rw [hpool]
      exact ih

/-- `ContainsTx` says no. -/
def Unindexed (renv : RelayEnv φ) (s : NodeState) (tx : CTransaction) : Prop :=
  s.txdb.data.txIndex (renv.getHash tx) = none

/-- A hash is in the pool or in the index, not in both. -/
theorem unindexed (hs : PoolRun renv known (Unindexed renv) s) (h : Uint256) :
    s.mempool.lookup h = none ∨ s.txdb.data.txIndex h = none := by
  induction hs with
  | empty hpool =>
      rw [hpool]
      exact .inl Std.ExtTreeMap.getElem?_empty
  | @accept s s' files free free' tx fCheckInputs hs htx hloose hacc ih =>
      obtain ⟨hcheck, rfl⟩ := NodeState.acceptToMemoryPool_ok hacc
      obtain ⟨-, -, -, -, hidx, -⟩ :=
        NodeState.checkKnown_ok (NodeState.checkAccept_known hcheck)
      have hnone : s.txdb.data.txIndex (renv.getHash tx) = none := by
        cases hf : fCheckInputs with
        | true => exact hidx hf
        | false => exact hloose hf
      rw [CTxMemPool.lookup_addUnchecked]
      split
      · next heq =>
        rw [heq]
        exact .inr hnone
      · exact ih
  | @remove s tx hs htx ih =>
      rw [CTxMemPool.lookup_remove_apply]
      split
      · exact .inl rfl
      · exact ih
  | @connect s s' files block pindexNew pprev hs htxs hinner ih =>
      obtain ⟨hpool, hindex⟩ := CBlock.setBestChainInner_pool hinner
      rw [hpool, CTxMemPool.lookup_removes]
      split
      · exact .inl rfl
      · next hne => exact ih.imp_right fun hnone => hindex h hnone hne
  | @reorganize s s' files pindexNew hs htxs hre ih =>
      obtain ⟨vResurrect, vDelete, hpool, -, hindex⟩ := reorganize_pool hre
      rw [hpool, CTxMemPool.lookup_removes]
      split
      · exact .inl rfl
      · next hdel =>
        -- what was taken off left the index, and so did not come back unless it is deleted
        by_cases hres : h ∈ vResurrect.map renv.getHash
        · exact .inr (hindex h (.inr hres) hdel)
        · rcases ih with hnone | hnone
          · left
            apply CTxMemPool.lookup_accepts_none hnone
            intro tx htx heq
            exact hres (heq ▸ List.mem_map_of_mem htx)
          · exact .inr (hindex h (.inl hnone) hdel)
  | other hs hpool hindex ih =>
      rw [hpool]
      exact ih.imp_right (hindex h)

end PoolRun

/-! ## The transactions of the main chain -/

theorem applyTxs_eq_none_iff {env : Env} {pindex : CBlockIndex} {txs : List CTransaction}
    {nTxPos : Nat} {m : TxIndexMap} {h : Uint256} :
    applyTxs env pindex txs nTxPos m h = none ↔ m h = none ∧ ∀ tx ∈ txs, env.getHash tx ≠ h := by
  induction txs generalizing nTxPos m with
  | nil => simp [applyTxs]
  | cons tx txs ih =>
      rw [applyTxs, ih, applyTx, Lib.PMap.set_apply, List.forall_mem_cons, ← and_assoc]
      refine and_congr_left' ?_
      have hpos := pos_spendInputs ⟨pindex.nFile, pindex.nBlockPos, nTxPos⟩ m tx h
      split
      · next heq => simp [heq]
      · next hne =>
        rw [← Option.map_eq_none_iff (f := CTxIndex.pos), hpos, Option.map_eq_none_iff]
        simp [Ne.symm hne]

/-- A transaction of a connected block is indexed. -/
theorem replayIndex_ne_none {env : Env} {l : List (CBlock × BlockPtr)} {x : CBlock × BlockPtr}
    (hx : x ∈ l) (hptr : x.2 ≠ []) {tx : CTransaction} (htx : tx ∈ x.1.vtx) :
    replayIndex env l (env.getHash tx) ≠ none := by
  induction l with
  | nil => cases hx
  | cons y rest ih =>
      obtain ⟨block, ptr⟩ := y
      rcases List.mem_cons.mp hx with rfl | hrest
      · cases ptr with
        | nil => exact absurd rfl hptr
        | cons pindex pprev =>
            intro hnone
            exact (applyTxs_eq_none_iff.mp hnone).2 tx htx rfl
      · cases ptr with
        | nil => exact ih hrest
        | cons pindex pprev =>
            intro hnone
            exact ih hrest (applyTxs_eq_none_iff.mp hnone).1

/-- Where the index is that of the main chain, a transaction that is not indexed is in none of its
blocks. -/
theorem BestChainConsistent.notMem {env : Env} {full : Files} {s : NodeState}
    (hs : BestChainConsistent env full s) {tx : CTransaction}
    (hnone : s.txdb.data.txIndex (env.getHash tx) = none) :
    ∀ x ∈ s.txdb.data.vConnected, tx ∉ x.1.vtx := by
  intro x hx htx
  rw [hs.index] at hnone
  refine replayIndex_ne_none hx ?_ htx hnone
  have hmem : x.2 ∈ BlockPtr.above s.pindexBest := by
    rw [← hs.connected]
    exact List.mem_map_of_mem hx
  exact (BlockPtr.mem_path.mp (List.mem_of_mem_dropLast hmem)).1

/-- In every run the maps of the pool are in step and no two of its transactions spend the same
outpoint. In a run that takes no indexed transaction into the pool without checking its inputs, none
of the pool is indexed; on a consistent chain, none is in a block of it. -/
theorem pool_maps_in_step {φ : Type} (renv : RelayEnv φ) (known : CTransaction → Prop)
    (hinj : ∀ tx tx', known tx → known tx' → renv.getHash tx = renv.getHash tx' → tx = tx')
    (s : NodeState) :
    (PoolRun renv known (fun _ _ => True) s → PoolInv renv.toEnv s.mempool ∧
      ∀ h h' tx tx' txin txin', s.mempool.lookup h = some tx → s.mempool.lookup h' = some tx' →
        txin ∈ tx.vin → txin' ∈ tx'.vin → txin.prevout = txin'.prevout → h = h') ∧
    (PoolRun renv known (PoolRun.Unindexed renv) s → ∀ h tx, s.mempool.lookup h = some tx →
      s.txdb.data.txIndex h = none ∧ tx.isCoinBase = false ∧
      ∀ full, BestChainConsistent renv.toEnv full s →
        ∀ x ∈ s.txdb.data.vConnected, tx ∉ x.1.vtx) := by
  refine ⟨?_, ?_⟩
  · intro hs
    have hpool := (hs.holds hinj).inv
    refine ⟨hpool, ?_⟩
    intro h h' tx tx' txin txin' htx htx' hin hin' heq
    obtain ⟨i, hi⟩ := List.getElem?_of_mem hin
    obtain ⟨i', hi'⟩ := List.getElem?_of_mem hin'
    exact (hpool.spendsOnce htx htx' hi hi' heq).1
  · intro hs h tx htx
    have hpool := hs.holds hinj
    have hnone : s.txdb.data.txIndex h = none := by
      rcases hs.unindexed h with hlookup | hnone
      · rw [hlookup] at htx
        cases htx
      · exact hnone
    refine ⟨hnone, (hpool.known h tx htx).2, ?_⟩
    intro full hchain
    apply hchain.notMem
    rw [hpool.inv.keyed h tx htx]
    exact hnone

/-- A node with one unspent payment in its index takes in a transaction that spends it. -/
theorem pool_maps_in_step_paymentMsg :
    ∃ s : NodeState, s.mempool.lookup 6 = some paymentMsg.tx ∧
      s.mempool.mapNextTx ⟨2, 0⟩ = some (6, 0) ∧ s.txdb.data.txIndex 6 = none := by
  have hok : (relayNode.acceptToMemoryPool plainRelay sampleFiles () paymentMsg.tx true).2.isOk
      = true := by decide +kernel
  obtain ⟨s', hs'⟩ := Lib.exists_of_isOk hok
  have hacc : relayNode.acceptToMemoryPool plainRelay sampleFiles () paymentMsg.tx true
      = ((), .ok s') := Prod.ext rfl hs'
  have hrun : ∀ Loose, PoolRun plainRelay (· = paymentMsg.tx) Loose s' := fun Loose =>
    (PoolRun.empty rfl).accept rfl Bool.noConfusion hacc
  obtain ⟨hmaps, hunindexed⟩ := pool_maps_in_step plainRelay (· = paymentMsg.tx)
    (fun tx tx' htx htx' _ => htx.trans htx'.symm) s'
  have hlookup : s'.mempool.lookup 6 = some paymentMsg.tx := by
    rw [(NodeState.acceptToMemoryPool_ok hacc).2, CTxMemPool.lookup_addUnchecked]
    rfl
  refine ⟨s', hlookup, ?_, (hunindexed (hrun _) 6 _ hlookup).1⟩
  rw [((hmaps (hrun _)).1.next _ _ _)]
  exact ⟨_, _, hlookup, rfl, rfl⟩

/-- `forkPayment` is in a block of the main chain. Without its inputs checked it is accepted all the
same. -/
theorem pool_tx_in_main_chain :
    ∃ s, PoolRun plainRelay (· = forkPayment) (fun _ _ => True) s ∧
      Reachable Env.plain forkFiles (SwitchOk Env.plain) s ∧
      s.mempool.lookup (Env.plain.getHash forkPayment) = some forkPayment ∧
      ∃ x ∈ s.txdb.data.vConnected, forkPayment ∈ x.1.vtx := by
  have hok : (({ stateC2 with mempool := {} } : NodeState).acceptToMemoryPool plainRelay forkFiles ()
      forkPayment false).2.isOk = true := by decide +kernel
  obtain ⟨s', hs'⟩ := Lib.exists_of_isOk hok
  have hacc : ({ stateC2 with mempool := {} } : NodeState).acceptToMemoryPool plainRelay forkFiles ()
      forkPayment false = ((), .ok s') := Prod.ext rfl hs'
  have heq := (NodeState.acceptToMemoryPool_ok hacc).2
  have hmem : stateC2.txdb.data.vConnected.any (fun x => x.1.vtx.contains forkPayment) = true := by
    decide +kernel
  refine ⟨s', (PoolRun.empty rfl).accept rfl (fun _ => trivial) hacc, ?_, ?_, ?_⟩
  · refine reachable_stateC2.other ?_
    rw [heq]
    exact ⟨rfl, rfl, rfl, rfl, rfl, rfl, rfl⟩
  · rw [heq, CTxMemPool.lookup_addUnchecked]
    exact if_pos rfl
  · rw [heq]
    simpa using hmem

end ShinyCoin

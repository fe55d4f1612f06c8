import ShinyCoin.Chain.Undo
import ShinyCoin.Chain.Fork

/-!
# The index and the infos as functions of the connected blocks

`replayIndex` is the transaction index the connected blocks make, one after the other, from an empty
one, and `replayInfos` folds `ProcessTxInfos` over them. Connecting a block is one more step of
both. Disconnecting the last block is one step back, for the index as long as the block does not
repeat a transaction that is further down: the old entry was overwritten and is then erased.
-/

namespace ShinyCoin

/-! ## Replaying the index -/

/-- The transactions of a block applied to an index, the first one at `nTxPos`. -/
def applyTxs (env : Env) (pindex : CBlockIndex) :
    List CTransaction → Nat → TxIndexMap → TxIndexMap
  | [], _, m => m
  | tx :: txs, nTxPos, m =>
      applyTxs env pindex txs (nTxPos + tx.getSerializeSize)
        (applyTx env ⟨pindex.nFile, pindex.nBlockPos, nTxPos⟩ m tx)

/-- What a block does to the index. -/
def CBlock.applyTo (env : Env) (block : CBlock) (pindex : CBlockIndex) (m : TxIndexMap) :
    TxIndexMap :=
  applyTxs env pindex block.vtx (block.firstTxPos pindex.nBlockPos) m

/-- The index the connected blocks make, the last one first. -/
def replayIndex (env : Env) : List (CBlock × BlockPtr) → TxIndexMap
  | [] => Lib.PMap.empty
  | (_, []) :: rest => replayIndex env rest
  | (block, pindex :: _) :: rest => block.applyTo env pindex (replayIndex env rest)

/-- Every input of the transactions is unspent when its turn comes. -/
def TxsSpend (env : Env) (pindex : CBlockIndex) : List CTransaction → Nat → TxIndexMap → Prop
  | [], _, _ => True
  | tx :: txs, nTxPos, m =>
      (tx.isCoinBase = false → SpendsUnspent ⟨pindex.nFile, pindex.nBlockPos, nTxPos⟩ m
        (tx.vin.map CTxIn.prevout)) ∧
      TxsSpend env pindex txs (nTxPos + tx.getSerializeSize)
        (applyTx env ⟨pindex.nFile, pindex.nBlockPos, nTxPos⟩ m tx)

/-- Rounds of `ConnectBlock` apply their transactions, each of which spends unspent outputs. -/
theorem CBlock.connectTx_foldlM {env : Env} {files : Files} {s : NodeState} {block : CBlock}
    {pindex : CBlockIndex} {pprev : BlockPtr} {txs : List CTransaction} {st st' : ConnectState}
    (h : txs.foldlM (block.connectTx env files s pindex pprev) st = .ok st') :
    st'.index s = applyTxs env pindex txs st.nTxPos (st.index s) ∧
      TxsSpend env pindex txs st.nTxPos (st.index s) := by
  induction txs generalizing st with
  | nil =>
      cases h
      exact ⟨rfl, trivial⟩
  | cons tx txs ih =>
      obtain ⟨st₁, h₁, h⟩ := Lib.bind_eq_ok.mp h
      obtain ⟨nTxValueIn, nTxValueOut, hconn⟩ := connectTx_ok h₁
      obtain ⟨hidx, hspend⟩ := ih h
      rw [hconn.nTxPos, hconn.index] at hidx hspend
      refine ⟨hidx, ?_, hspend⟩
      intro hcb
      obtain ⟨inputs, hspent, -⟩ := hconn.spends hcb
      exact hspent.unspent

/-- The loop of `ConnectBlock` applies the block's transactions, each of which spends unspent
outputs. -/
theorem CBlock.connectTxs_applyTo {env : Env} {files : Files} {s : NodeState} {block : CBlock}
    {pindex : CBlockIndex} {pprev : BlockPtr} {st : ConnectState}
    (h : block.connectTxs env files s pindex pprev = .ok st) :
    st.index s = block.applyTo env pindex s.txdb.data.txIndex ∧
      TxsSpend env pindex block.vtx (block.firstTxPos pindex.nBlockPos) s.txdb.data.txIndex := by
  have hidx : ({ nTxPos := block.firstTxPos pindex.nBlockPos, infos := s.infos } :
      ConnectState).index s = s.txdb.data.txIndex := Lib.PMap.empty_layer _
  have hloop := connectTx_foldlM h
  rw [hidx] at hloop
  exact hloop

theorem CBlock.connectBlock_txIndex {env : Env} {files : Files} {block : CBlock}
    {pindex : CBlockIndex} {pprev : BlockPtr} {s s' : NodeState}
    (h : block.connectBlock env files pindex pprev s = .ok s') :
    s'.txdb.data.txIndex = block.applyTo env pindex s.txdb.data.txIndex := by
  obtain ⟨st, nCoinbaseOut, ws, -, hst, -, -, rfl⟩ := connectBlock_ok h
  rw [← (connectTxs_applyTo hst).1]
  cases pprev <;> rfl

/-! ## One transaction back -/

/-- Null slots are null in every field, as `SetNull` leaves them. -/
def CleanSlots (m : TxIndexMap) : Prop :=
  ∀ h txindex, m h = some txindex → ∀ p ∈ txindex.vSpent, p.isNull = true → p = CDiskTxPos.null

/-- The slots of the transaction `h` after a list of outpoints was set to `pos`. -/
def setSlots (pos : CDiskTxPos) (h : Uint256) (os : List COutPoint) (vSpent : List CDiskTxPos) :
    List CDiskTxPos :=
  os.foldl (fun v o => if h = o.hash then v.set o.n pos else v) vSpent

theorem spends_apply (pos : CDiskTxPos) (os : List COutPoint) (m : TxIndexMap) (h : Uint256) :
    os.foldl (spend pos) m h = (m h).map fun txindex =>
      { txindex with vSpent := setSlots pos h os txindex.vSpent } := by
  induction os generalizing m with
  | nil => cases hm : m h <;> simp [setSlots, hm]
  | cons o os ih =>
      rw [List.foldl_cons, ih, spend_apply, Option.map_map]
      congr 1
      funext txindex
      simp only [Function.comp, setSlots, List.foldl_cons]
      split <;> rfl

theorem getElem?_setSlots (pos : CDiskTxPos) (h : Uint256) (os : List COutPoint)
    (vSpent : List CDiskTxPos) (n : Nat) :
    (setSlots pos h os vSpent)[n]?
      = if ⟨h, n⟩ ∈ os then vSpent[n]?.map fun _ => pos else vSpent[n]? := by
  induction os generalizing vSpent with
  | nil => simp [setSlots]
  | cons o os ih =>
      rw [setSlots, List.foldl_cons]
      change (setSlots pos h os _)[n]? = _
      rw [ih]
      obtain ⟨k, i⟩ := o
      by_cases hk : h = k
      · subst hk
        by_cases hn : i = n
        · subst hn
          have hset : (vSpent.set i pos)[i]? = vSpent[i]?.map fun _ => pos :=
            List.getElem?_set_self'
          simp only [if_true, hset, List.mem_cons, true_or]
          split <;> cases vSpent[i]? <;> rfl
        · have hne : (⟨h, n⟩ : COutPoint) ≠ ⟨h, i⟩ := by
            intro heq
            exact hn (COutPoint.mk.inj heq).2.symm
          simp [hne, List.getElem?_set_ne hn]
      · have hne : (⟨h, n⟩ : COutPoint) ≠ ⟨k, i⟩ := by
          intro heq
          exact hk (COutPoint.mk.inj heq).1
        simp [hk, hne]

theorem SpendsUnspent.unspent {pos : CDiskTxPos} {os : List COutPoint} {m : TxIndexMap}
    (hpos : pos.isNull = false) (h : SpendsUnspent pos m os) : ∀ o ∈ os, Unspent m o := by
  induction os generalizing m with
  | nil => simp
  | cons o os ih =>
      intro o' ho'
      rcases List.mem_cons.mp ho' with rfl | ho'
      · exact h.1
      · exact (unspent_of_spend hpos (ih h.2 o' ho')).1

/-- Setting the slots that were spent back to null undoes the spending. -/
theorem setSlots_null {pos : CDiskTxPos} {h : Uint256} {os : List COutPoint}
    {vSpent : List CDiskTxPos}
    (hnull : ∀ n p, (⟨h, n⟩ : COutPoint) ∈ os → vSpent[n]? = some p → p = CDiskTxPos.null) :
    setSlots CDiskTxPos.null h os (setSlots pos h os vSpent) = vSpent := by
  apply List.ext_getElem?
  intro n
  rw [getElem?_setSlots, getElem?_setSlots]
  by_cases hn : (⟨h, n⟩ : COutPoint) ∈ os
  · rw [if_pos hn, if_pos hn, Option.map_map]
    cases hv : vSpent[n]? with
    | none => rfl
    | some p => simp [hnull n p hn hv]
  · rw [if_neg hn, if_neg hn]

/-- Taking the last transaction off gives the index before it, if that did not have its hash. -/
theorem unapplyTx {env : Env} {pos : CDiskTxPos} {m : TxIndexMap} {tx : CTransaction}
    (hpos : pos.isNull = false) (hclean : CleanSlots m) (hnew : m (env.getHash tx) = none)
    (hspend : tx.isCoinBase = false → SpendsUnspent pos m (tx.vin.map CTxIn.prevout)) :
    (spendInputs CDiskTxPos.null (applyTx env pos m tx) tx).erase (env.getHash tx) = m := by
  ext1 h
  by_cases hh : h = env.getHash tx
  · rw [hh, Lib.PMap.erase_self, hnew]
  rw [Lib.PMap.erase_of_ne hh, spendInputs]
  split
  · next hcb =>
    rw [applyTx, Lib.PMap.set_of_ne hh, spendInputs, if_pos hcb]
  · next hcb =>
    have hun := (hspend (by simpa using hcb)).unspent hpos
    rw [spends_apply, applyTx, Lib.PMap.set_of_ne hh, spendInputs, if_neg hcb, spends_apply,
      Option.map_map]
    cases hm : m h with
    | none => rfl
    | some txindex =>
        have hback : setSlots CDiskTxPos.null h (tx.vin.map CTxIn.prevout)
            (setSlots pos h (tx.vin.map CTxIn.prevout) txindex.vSpent) = txindex.vSpent := by
          apply setSlots_null
          intro n p hn hp
          obtain ⟨txindex', p', hidx, hslot, hnull⟩ := hun _ hn
          rw [hm, Option.some.injEq] at hidx
          subst hidx
          rw [hp, Option.some.injEq] at hslot
          subst hslot
          exact hclean h txindex hm p (List.mem_of_getElem? hp) hnull
        simp [hback]

theorem CleanSlots.applyTx {env : Env} {pos : CDiskTxPos} {m : TxIndexMap} (h : CleanSlots m)
    (hpos : pos.isNull = false) (tx : CTransaction) : CleanSlots (applyTx env pos m tx) := by
  have hspends : ∀ os : List COutPoint, CleanSlots (os.foldl (spend pos) m) := by
    intro os k txindex hk p hp hnull
    rw [spends_apply, Option.map_eq_some_iff] at hk
    obtain ⟨txindex₀, hk, rfl⟩ := hk
    obtain ⟨n, hn⟩ := List.mem_iff_getElem?.mp hp
    rw [getElem?_setSlots] at hn
    split at hn
    · obtain ⟨q, -, rfl⟩ := Option.map_eq_some_iff.mp hn
      rw [hpos] at hnull
      exact Bool.noConfusion hnull
    · exact h k txindex₀ hk p (List.mem_of_getElem? hn) hnull
  intro k txindex hk p hp hnull
  rw [ShinyCoin.applyTx, Lib.PMap.set_apply] at hk
  split at hk
  · cases hk
    exact List.eq_of_mem_replicate hp
  · rw [spendInputs] at hk
    split at hk
    · exact h k txindex hk p hp hnull
    · exact hspends _ k txindex hk p hp hnull

/-- An entry stays missing while other transactions are applied. -/
theorem applyTx_eq_none {env : Env} {pos : CDiskTxPos} {m : TxIndexMap} {tx : CTransaction}
    {h : Uint256} (hm : m h = none) (hne : h ≠ env.getHash tx) : applyTx env pos m tx h = none := by
  rw [applyTx, Lib.PMap.set_of_ne hne, spendInputs]
  split
  · exact hm
  · rw [spends_apply, hm]
    rfl

/-! ## `DisconnectBlock` on the index -/

namespace CTransaction

theorem disconnectInput_ok {m m' : TxIndexMap} {txin : CTxIn} (h : disconnectInput m txin = .ok m') :
    m' = spend CDiskTxPos.null m txin.prevout := by
  rw [disconnectInput] at h
  split at h
  · cases h
  · next txindex hidx =>
    split at h
    · cases h
      rw [spend_of_some hidx]
    · cases h

/-- A successful `DisconnectInputs` resets the slots and erases the entry. -/
theorem disconnectInputs_ok {env : Env} {m m' : TxIndexMap} {tx : CTransaction}
    (h : tx.disconnectInputs env m = .ok m') :
    m' = (spendInputs CDiskTxPos.null m tx).erase (env.getHash tx) := by
  have loop : ∀ (txins : List CTxIn) (m m' : TxIndexMap), txins.foldlM disconnectInput m = .ok m' →
      m' = (txins.map CTxIn.prevout).foldl (spend CDiskTxPos.null) m := by
    intro txins
    induction txins with
    | nil => intro m m' h; cases h; rfl
    | cons txin txins ih =>
        intro m m' h
        obtain ⟨m₁, h₁, h⟩ := Lib.bind_eq_ok.mp h
        rw [ih m₁ m' h, disconnectInput_ok h₁]
        rfl
  rw [disconnectInputs] at h
  obtain ⟨m₁, h₁, h⟩ := Lib.bind_eq_ok.mp h
  cases h
  congr 1
  rw [relinquishInputs] at h₁
  rw [spendInputs]
  split at h₁
  · next hcb => cases h₁; rw [if_pos hcb]
  · next hcb => rw [if_neg hcb, loop _ _ _ h₁]

end CTransaction

/-- The loop of `DisconnectBlock` goes back to the index the transactions were applied to. -/
theorem CBlock.disconnectTxs_index {env : Env} {files : Files} {pindex : CBlockIndex}
    {txs : List CTransaction} {nTxPos : Nat} {m : TxIndexMap} {s s' : NodeState}
    (hfile : pindex.nFile ≠ UINT_MAX) (hclean : CleanSlots m)
    (hnew : ∀ tx ∈ txs, m (env.getHash tx) = none) (hnodup : (txs.map env.getHash).Nodup)
    (hspend : TxsSpend env pindex txs nTxPos m)
    (hs : s.txdb.data.txIndex = applyTxs env pindex txs nTxPos m)
    (h : txs.reverse.foldlM (disconnectTx env files) s = .ok s') :
    s'.txdb.data.txIndex = m := by
  induction txs generalizing m nTxPos s' with
  | nil =>
      cases h
      exact hs
  | cons tx txs ih =>
      have hpos : (⟨pindex.nFile, pindex.nBlockPos, nTxPos⟩ : CDiskTxPos).isNull = false := by
        simpa [CDiskTxPos.isNull] using hfile
      rw [List.reverse_cons, List.foldlM_append] at h
      obtain ⟨s₁, h₁, h⟩ := Lib.bind_eq_ok.mp h
      obtain ⟨hhash, hnodup⟩ := List.nodup_cons.mp hnodup
      -- the later transactions first
      have hback := ih (hclean.applyTx hpos tx)
        (fun tx' htx' => applyTx_eq_none (hnew tx' (List.mem_cons_of_mem _ htx')) (by
          intro heq
          exact hhash (heq ▸ List.mem_map_of_mem htx')))
        hnodup hspend.2 hs h₁
      obtain ⟨s₂, h₂, h⟩ := Lib.bind_eq_ok.mp h
      cases h
      obtain ⟨m', infos, hdis, -, rfl⟩ := disconnectTx_ok h₂
      rw [hback] at hdis
      show m' = m
      rw [CTransaction.disconnectInputs_ok hdis]
      exact unapplyTx hpos hclean (hnew tx List.mem_cons_self) hspend.1

/-! ## What the index of a chain is made of -/

/-- No transaction of the block has the hash of one of an earlier block. -/
def RepeatsNone (env : Env) (block : CBlock) (rest : List (CBlock × BlockPtr)) : Prop :=
  ∀ tx ∈ block.vtx, ∀ x ∈ rest, ∀ tx' ∈ x.1.vtx, env.getHash tx' ≠ env.getHash tx

/-- Each block could be connected on the index of those below it. -/
def BlocksSpend (env : Env) : List (CBlock × BlockPtr) → Prop
  | [] => True
  | (_, []) :: _ => False
  | (block, pindex :: _) :: rest =>
      pindex.nFile ≠ UINT_MAX ∧ (block.vtx.map env.getHash).Nodup ∧
        TxsSpend env pindex block.vtx (block.firstTxPos pindex.nBlockPos) (replayIndex env rest) ∧
        BlocksSpend env rest

theorem cleanSlots_applyTxs {env : Env} {pindex : CBlockIndex} (hfile : pindex.nFile ≠ UINT_MAX)
    {txs : List CTransaction} {nTxPos : Nat} {m : TxIndexMap} (hm : CleanSlots m) :
    CleanSlots (applyTxs env pindex txs nTxPos m) := by
  induction txs generalizing nTxPos m with
  | nil => exact hm
  | cons tx txs ih => exact ih (hm.applyTx (by simpa [CDiskTxPos.isNull] using hfile) tx)

theorem cleanSlots_replayIndex {env : Env} {l : List (CBlock × BlockPtr)} (h : BlocksSpend env l) :
    CleanSlots (replayIndex env l) := by
  induction l with
  | nil => intro k txindex hk; cases hk
  | cons x rest ih =>
      obtain ⟨block, ptr⟩ := x
      cases ptr with
      | nil => exact h.elim
      | cons pindex pprev => exact cleanSlots_applyTxs h.1 (ih h.2.2.2)

theorem applyTxs_eq_none {env : Env} {pindex : CBlockIndex} {txs : List CTransaction}
    {nTxPos : Nat} {m : TxIndexMap} {h : Uint256} (hm : m h = none)
    (hne : ∀ tx ∈ txs, env.getHash tx ≠ h) : applyTxs env pindex txs nTxPos m h = none := by
  induction txs generalizing nTxPos m with
  | nil => exact hm
  | cons tx txs ih =>
      exact ih (applyTx_eq_none hm (hne tx List.mem_cons_self).symm)
        (fun tx' htx' => hne tx' (List.mem_cons_of_mem _ htx'))

/-- Only the hashes of the connected transactions are indexed. -/
theorem replayIndex_eq_none {env : Env} {l : List (CBlock × BlockPtr)} {h : Uint256}
    (hne : ∀ x ∈ l, ∀ tx ∈ x.1.vtx, env.getHash tx ≠ h) : replayIndex env l h = none := by
  induction l with
  | nil => rfl
  | cons x rest ih =>
      obtain ⟨block, ptr⟩ := x
      have hrest := ih (fun y hy => hne y (List.mem_cons_of_mem _ hy))
      cases ptr with
      | nil => exact hrest
      | cons pindex pprev => exact applyTxs_eq_none hrest (hne _ List.mem_cons_self)

/-! ## Replaying the infos -/

/-- What can be read of the block files at one time. -/
structure Files.PartOf (files full : Files) : Prop where
  block : ∀ nFile nBlockPos b, files.block nFile nBlockPos = some b →
    full.block nFile nBlockPos = some b
  tx : ∀ pos tx, files.tx pos = some tx → full.tx pos = some tx

theorem Files.PartOf.readTx {files full : Files} (h : files.PartOf full) {pos : CDiskTxPos}
    {tx : CTransaction} (htx : files.readTx pos = some tx) : full.readTx pos = some tx := by
  rw [readTx_eq_some] at htx ⊢
  exact ⟨h.tx pos tx htx.1, htx.2⟩

/-- `ProcessTxInfos` over the transactions of a block, numbered as `ConnectBlock` numbers them. -/
def CBlock.processInfos (env : Env) (files : Files) (block : CBlock) (m : TxIndexMap)
    (st : CTxInfoStore) : Except (Err × CTxInfoStore) CTxInfoStore :=
  block.vtx.zipIdx.foldlM (fun st x =>
    if x.1.isCoinBase then .ok st
    else x.1.processTxInfos env files m st (env.getIDHash block.toCBlockHeader) x.2) st

/-- The store the connected blocks make, the last one first, in a transaction on an empty store. -/
def replayInfos (env : Env) (files : Files) :
    List (CBlock × BlockPtr) → Except (Err × CTxInfoStore) CTxInfoStore
  | [] => CTxInfoStore.new.beginTransaction
  | (block, _) :: rest => do
      let st ← replayInfos env files rest
      block.processInfos env files (replayIndex env rest) st

/-- Every entry of `m` has its position in `m'` too. -/
def SamePos (m m' : TxIndexMap) : Prop :=
  ∀ h txindex, m h = some txindex → (m' h).map CTxIndex.pos = some txindex.pos

theorem SamePos.readDiskTx {files full : Files} (hfiles : files.PartOf full) {m m' : TxIndexMap}
    (h : SamePos m m') {hash : Uint256} {tx : CTransaction}
    (htx : readDiskTx files m hash = some tx) : readDiskTx full m' hash = some tx := by
  rw [ShinyCoin.readDiskTx, Option.bind_eq_some_iff] at htx
  obtain ⟨txindex, hidx, htx⟩ := htx
  obtain ⟨txindex', hidx', hpos⟩ := Option.map_eq_some_iff.mp (h hash txindex hidx)
  rw [ShinyCoin.readDiskTx, hidx', Option.bind_some, hpos]
  exact hfiles.readTx htx

theorem pos_spendInputs (pos : CDiskTxPos) (m : TxIndexMap) (tx : CTransaction) (h : Uint256) :
    (spendInputs pos m tx h).map CTxIndex.pos = (m h).map CTxIndex.pos := by
  rw [spendInputs]
  split
  · rfl
  · rw [spends_apply, Option.map_map]
    rfl

theorem SamePos.applyTx {env : Env} {pos : CDiskTxPos} {m m' : TxIndexMap} (h : SamePos m m')
    (tx : CTransaction) : SamePos (applyTx env pos m tx) (applyTx env pos m' tx) := by
  intro k txindex hk
  rw [ShinyCoin.applyTx, Lib.PMap.set_apply] at hk ⊢
  split at hk
  · next heq =>
    cases hk
    rw [if_pos heq]
    rfl
  · next hne =>
    rw [if_neg hne, pos_spendInputs]
    have := pos_spendInputs pos m tx k
    rw [hk] at this
    obtain ⟨txindex₀, hk₀, hpos⟩ := Option.map_eq_some_iff.mp this.symm
    rw [← hpos]
    exact h k txindex₀ hk₀

theorem SamePos.applyTxs {env : Env} {pindex : CBlockIndex} {txs : List CTransaction}
    {nTxPos : Nat} {m m' : TxIndexMap} (h : SamePos m m') :
    SamePos (applyTxs env pindex txs nTxPos m) (applyTxs env pindex txs nTxPos m') := by
  induction txs generalizing nTxPos m m' with
  | nil => exact h
  | cons tx txs ih => exact ih (h.applyTx tx)

/-- Positions of other transactions are as they were. -/
theorem pos_applyTxs {env : Env} {pindex : CBlockIndex} {txs : List CTransaction} {nTxPos : Nat}
    {m : TxIndexMap} {h : Uint256} (hne : ∀ tx ∈ txs, env.getHash tx ≠ h) :
    (applyTxs env pindex txs nTxPos m h).map CTxIndex.pos = (m h).map CTxIndex.pos := by
  induction txs generalizing nTxPos m with
  | nil => rfl
  | cons tx txs ih =>
      rw [ShinyCoin.applyTxs, ih (fun tx' htx' => hne tx' (List.mem_cons_of_mem _ htx')), applyTx,
        Lib.PMap.set_of_ne (hne tx List.mem_cons_self).symm, pos_spendInputs]

/-- What is left of an entry when transactions were taken off, if it is left. -/
theorem CBlock.disconnectTxs_pos {env : Env} {files : Files} {txs : List CTransaction}
    {s s' : NodeState} (h : txs.foldlM (disconnectTx env files) s = .ok s') {k : Uint256}
    {txindex : CTxIndex} (hk : s'.txdb.data.txIndex k = some txindex) :
    (s.txdb.data.txIndex k).map CTxIndex.pos = some txindex.pos ∧
      ∀ tx ∈ txs, env.getHash tx ≠ k := by
  induction txs generalizing s with
  | nil =>
      cases h
      exact ⟨by rw [hk]; rfl, by simp⟩
  | cons tx txs ih =>
      obtain ⟨s₁, h₁, h⟩ := Lib.bind_eq_ok.mp h
      obtain ⟨m, infos, hdis, -, rfl⟩ := disconnectTx_ok h₁
      obtain ⟨hpos, hne⟩ := ih h
      have hm : m = (spendInputs CDiskTxPos.null s.txdb.data.txIndex tx).erase (env.getHash tx) :=
        CTransaction.disconnectInputs_ok hdis
      replace hpos : (m k).map CTxIndex.pos = some txindex.pos := hpos
      rw [hm, Lib.PMap.erase_apply] at hpos
      split at hpos
      · cases hpos
      · next hne' =>
        rw [pos_spendInputs] at hpos
        exact ⟨hpos, List.forall_mem_cons.mpr ⟨Ne.symm hne', hne⟩⟩

/-- Two stores in a transaction, with the same rows. -/
structure SameRows (st st' : CTxInfoStore) : Prop where
  db : st'.db = st.db
  inTransaction : st.inTransaction = true
  inTransaction' : st'.inTransaction = true

/-- `Process` looks at the rows only. -/
theorem SameRows.process {env : Env} {r : TxInfoRecord} {st st₁ st' : CTxInfoStore}
    (h : SameRows st st') (hst : st.process env r = .ok st₁) :
    ∃ st₁', st'.process env r = .ok st₁' ∧ SameRows st₁ st₁' := by
  have hvalid : st'.isValid env r = st.isValid env r := by
    simp only [CTxInfoStore.isValid, CTxInfoStore.checkUniqueValue,
      CTxInfoStore.uniqueAddressWithValue, CTxInfoStore.addressesWithValue,
      CTxInfoStore.checkNotSet, h.db]
  rw [CTxInfoStore.process, if_pos h.inTransaction] at hst
  rw [CTxInfoStore.process, if_pos h.inTransaction']
  rcases CTxInfoStore._process_cases env st r with ⟨hv, n, hp⟩ | ⟨e, -, hp⟩
  · rcases CTxInfoStore._process_cases env st' r with ⟨-, n', hp'⟩ | ⟨e, hv', -⟩
    · rw [hp] at hst
      cases hst
      exact ⟨_, hp', by rw [h.db], h.inTransaction, h.inTransaction'⟩
    · rw [hvalid, hv] at hv'
      cases hv'
  · rw [hp] at hst
    cases hst

/-- `ProcessTxInfos` looks at the rows, and at the transactions it can read. -/
theorem SameRows.processTxInfos {env : Env} {files full : Files} {m m' : TxIndexMap}
    (hread : ∀ hash tx, readDiskTx files m hash = some tx → readDiskTx full m' hash = some tx)
    {tx : CTransaction} {blockHash : Uint256} {nTxInBlock : ℤ} {st st₁ st' : CTxInfoStore}
    (h : SameRows st st') (hst : tx.processTxInfos env files m st blockHash nTxInBlock = .ok st₁) :
    ∃ st₁', tx.processTxInfos env full m' st' blockHash nTxInBlock = .ok st₁' ∧
      SameRows st₁ st₁' := by
  rw [CTransaction.processTxInfos, CTransaction._procUndoTxInfos, if_pos h.inTransaction] at hst
  rw [CTransaction.processTxInfos, CTransaction._procUndoTxInfos, if_pos h.inTransaction']
  refine Lib.foldlM_simulates SameRows ?_ h hst
  intro x _ s t s' hR hs
  rcases CTransaction.procUndoTxIn_ok hs with ⟨hempty, rfl⟩ | ⟨prevTx, txout, addr, hr, ho, ha, hs⟩
  · exact ⟨t, by simp [CTransaction.procUndoTxIn, hempty], hR⟩
  · rw [if_neg Bool.false_ne_true] at hs
    obtain ⟨t', ht', hR'⟩ := Lib.foldlM_simulates (f := fun st r => st.process env r)
      (g := fun st r => st.process env r) SameRows (fun r _ _ _ _ hR hs => hR.process hs) hR hs
    refine ⟨t', ?_, hR'⟩
    rw [CTransaction.procUndoTxIn]
    split
    · next hempty =>
      -- without infos there are no records
      rw [CTransaction.infoRecords, List.isEmpty_iff.mp hempty] at ht'
      exact ht'
    · rw [hread _ _ hr]
      simp only [ho, ha]
      exact ht'

/-- The rows without the number of a transaction. -/
def unnumberedRows (t : Lib.Table TxDbEntry) : Nat := t.count fun e => e.index_tx == -1

theorem CTransaction.processTxInfos_unnumbered {env : Env} {files : Files} {m : TxIndexMap}
    {tx : CTransaction} {blockHash : Uint256} {nTxInBlock : ℤ} {st st' : CTxInfoStore}
    (hn : nTxInBlock ≠ -1)
    (h : tx.processTxInfos env files m st blockHash nTxInBlock = .ok st') :
    unnumberedRows st'.db = unnumberedRows st.db := by
  have records : ∀ (rs : List TxInfoRecord) (s s' : CTxInfoStore),
      (∀ r ∈ rs, r.indexTx = nTxInBlock) → rs.foldlM (fun st r => st.process env r) s = .ok s' →
      unnumberedRows s'.db = unnumberedRows s.db := by
    intro rs
    induction rs with
    | nil => intro s s' _ h; cases h; rfl
    | cons r rs ih =>
        intro s s' hr h
        obtain ⟨s₁, h₁, h⟩ := Lib.bind_eq_ok.mp h
        rw [ih s₁ s' (fun r' hr' => hr r' (List.mem_cons_of_mem _ hr')) h, unnumberedRows,
          (CTxInfoStore.process_ok h₁).2, latest.count_push (fun _ _ => rfl)]
        simp [TxInfoRecord.toRow, hr r List.mem_cons_self, hn, unnumberedRows]
  rw [processTxInfos, _procUndoTxInfos] at h
  split at h
  · refine Lib.foldlM_ok_inv (fun _ s => unnumberedRows s.db = unnumberedRows st.db) ?_ rfl h
    intro x _ s s' hI hs
    rcases procUndoTxIn_ok hs with ⟨-, rfl⟩ | ⟨prevTx, txout, addr, -, -, -, hs⟩
    · exact hI
    · rw [← hI]
      exact records _ s s' (fun r => indexTx_of_mem_infoRecords) hs
  · cases h

/-- Where every row is numbered `UndoTxInfos` finds nothing to undo. -/
theorem CTransaction.undoTxInfos_unnumbered {env : Env} {files : Files} {m : TxIndexMap}
    {tx : CTransaction} {st st' : CTxInfoStore} (hrows : unnumberedRows st.db = 0)
    (h : tx.undoTxInfos env files m st = .ok st') : tx.NoInfos ∧ st' = st := by
  have records : ∀ (rs : List TxInfoRecord) (s' : CTxInfoStore), st.inTransaction = true →
      (∀ r ∈ rs, r.indexTx = -1) → rs.foldlM (fun st r => st.undo env r) st = .ok s' →
      rs = [] ∧ s' = st := by
    intro rs s' hst hr h
    cases rs with
    | nil => cases h; exact ⟨rfl, rfl⟩
    | cons r rs =>
        exfalso
        obtain ⟨s₁, h₁, -⟩ := Lib.bind_eq_ok.mp h
        replace h₁ : st.undo env r = .ok s₁ := h₁
        rw [CTxInfoStore.undo, if_pos hst] at h₁
        rcases CTxInfoStore._undo_cases env st r with ⟨⟨x, hx, -, -, hmatch⟩, -⟩ | ⟨-, h'⟩
        · simp only [TxInfoRecord.matchesRow, Bool.and_eq_true, beq_iff_eq] at hmatch
          have hpos : 0 < unnumberedRows st.db := by
            rw [unnumberedRows, Lib.Table.count_pos]
            exact ⟨x, hx, by simp [hmatch.1.1.2, hr r List.mem_cons_self]⟩
          omega
        · rw [h'] at h₁
          cases h₁
  have inputs : ∀ (xs : List (CTxIn × Nat)) (s' : CTxInfoStore), st.inTransaction = true →
      xs.foldlM (procUndoTxIn env files m true 0 (-1)) st = .ok s' →
      (∀ x ∈ xs, x.1.infos = []) ∧ s' = st := by
    intro xs
    induction xs with
    | nil => intro s' _ h; cases h; exact ⟨by simp, rfl⟩
    | cons x xs ih =>
        intro s' hst h
        obtain ⟨s₁, h₁, h⟩ := Lib.bind_eq_ok.mp h
        have hx : x.1.infos = [] ∧ s₁ = st := by
          rcases procUndoTxIn_ok h₁ with hx | ⟨prevTx, txout, addr, -, -, -, h₁⟩
          · exact hx
          · obtain ⟨hnil, hs₁⟩ := records _ s₁ hst
              (fun r hr => indexTx_of_mem_infoRecords (List.mem_reverse.mp hr)) h₁
            exact ⟨by simpa [infoRecords] using hnil, hs₁⟩
        obtain ⟨hempty, hs₁⟩ := hx
        rw [hs₁] at h
        obtain ⟨hall, hs'⟩ := ih s' hst h
        exact ⟨List.forall_mem_cons.mpr ⟨hempty, hall⟩, hs'⟩
  rw [undoTxInfos, _procUndoTxInfos] at h
  split at h
  · next hst =>
    obtain ⟨hall, rfl⟩ := inputs _ st' hst h
    refine ⟨?_, rfl⟩
    intro txin htxin
    obtain ⟨i, hi⟩ := List.mem_iff_getElem?.mp htxin
    exact hall (txin, i) (List.mem_reverse.mpr (List.mk_mem_zipIdx_iff_getElem?.mpr hi))
  · cases h

/-- A block that was taken off from rows that are all numbered had no infos. -/
theorem CBlock.disconnectTxs_unnumbered {env : Env} {files : Files} {txs : List CTransaction}
    {s s' : NodeState} (hrows : unnumberedRows s.infos.db = 0)
    (h : txs.foldlM (disconnectTx env files) s = .ok s') :
    (∀ tx ∈ txs, tx.NoInfos) ∧ s'.infos = s.infos := by
  induction txs generalizing s with
  | nil =>
      cases h
      exact ⟨by simp, rfl⟩
  | cons tx txs ih =>
      obtain ⟨s₁, h₁, h⟩ := Lib.bind_eq_ok.mp h
      obtain ⟨m, infos, -, hundo, rfl⟩ := disconnectTx_ok h₁
      obtain ⟨hno, rfl⟩ := CTransaction.undoTxInfos_unnumbered hrows hundo
      obtain ⟨hall, hsame⟩ := ih
        (s := { s.updateDb (fun d => { d with txIndex := m }) with infos := s.infos }) hrows h
      exact ⟨List.forall_mem_cons.mpr ⟨hno, hall⟩, hsame⟩

/-- Without infos a block leaves the store as it is. -/
theorem CBlock.processInfos_of_noInfos {env : Env} {files : Files} {block : CBlock}
    {m : TxIndexMap} {st : CTxInfoStore} (hst : st.inTransaction = true)
    (hno : ∀ tx ∈ block.vtx, tx.NoInfos) : block.processInfos env files m st = .ok st := by
  have loop : ∀ xs : List (CTransaction × Nat), (∀ x ∈ xs, x.1.NoInfos) →
      xs.foldlM (fun st x => if x.1.isCoinBase then .ok st
        else x.1.processTxInfos env files m st (env.getIDHash block.toCBlockHeader) x.2) st
        = .ok st := by
    intro xs
    induction xs with
    | nil => intro _; rfl
    | cons x xs ih =>
        intro hx
        have hstep : (if x.1.isCoinBase then .ok st
            else x.1.processTxInfos env files m st (env.getIDHash block.toCBlockHeader) x.2)
            = .ok st := by
          split
          · rfl
          · exact CTransaction._procUndoTxInfos_of_noInfos hst (hx x List.mem_cons_self)
        rw [List.foldlM_cons, hstep]
        exact ih (fun y hy => hx y (List.mem_cons_of_mem _ hy))
  apply loop
  intro x hx
  apply hno x.1
  rw [← List.zipIdx_map_fst 0 block.vtx]
  exact List.mem_map_of_mem hx

/-- The loop of `ConnectBlock` processes the block's infos, and numbers every row. -/
theorem CBlock.connectTxs_processInfos {env : Env} {files full : Files} {s : NodeState}
    {block : CBlock} {pindex : CBlockIndex} {pprev : BlockPtr} {st : ConnectState}
    {m : TxIndexMap} {stRe : CTxInfoStore} (hfiles : files.PartOf full)
    (hpos : SamePos s.txdb.data.txIndex m) (hrows : SameRows s.infos stRe)
    (h : block.connectTxs env files s pindex pprev = .ok st) :
    unnumberedRows st.infos.db = unnumberedRows s.infos.db ∧
      ∃ stRe', block.processInfos env full m stRe = .ok stRe' ∧ SameRows st.infos stRe' := by
  have loop : ∀ (txs : List CTransaction) (st st' : ConnectState) (stRe : CTxInfoStore),
      SameRows st.infos stRe →
      txs.foldlM (block.connectTx env files s pindex pprev) st = .ok st' →
      unnumberedRows st'.infos.db = unnumberedRows st.infos.db ∧
        ∃ stRe', (txs.zipIdx st.nTx).foldlM (fun st x => if x.1.isCoinBase then .ok st
          else x.1.processTxInfos env full m st (env.getIDHash block.toCBlockHeader) x.2) stRe
            = .ok stRe' ∧ SameRows st'.infos stRe' := by
    intro txs
    induction txs with
    | nil =>
        intro st st' stRe hR h
        cases h
        exact ⟨rfl, stRe, rfl, hR⟩
    | cons tx txs ih =>
        intro st st' stRe hR h
        obtain ⟨st₁, h₁, h⟩ := Lib.bind_eq_ok.mp h
        obtain ⟨nTxValueIn, nTxValueOut, hconn⟩ := connectTx_ok h₁
        have hstep : unnumberedRows st₁.infos.db = unnumberedRows st.infos.db ∧
            ∃ stRe₁, (if tx.isCoinBase then .ok stRe
              else tx.processTxInfos env full m stRe (env.getIDHash block.toCBlockHeader) st.nTx)
                = .ok stRe₁ ∧ SameRows st₁.infos stRe₁ := by
          cases hcb : tx.isCoinBase with
          | true =>
              rw [(hconn.coinbase hcb).2]
              exact ⟨rfl, stRe, rfl, hR⟩
          | false =>
              obtain ⟨inputs, -, -, hproc⟩ := hconn.spends hcb
              refine ⟨CTransaction.processTxInfos_unnumbered (by omega) hproc, ?_⟩
              exact hR.processTxInfos (fun _ _ => hpos.readDiskTx hfiles) hproc
        obtain ⟨hnum, stRe₁, hre, hR₁⟩ := hstep
        obtain ⟨hnum', stRe', hre', hR'⟩ := ih st₁ st' stRe₁ hR₁ h
        rw [hconn.nTx] at hre'
        refine ⟨hnum'.trans hnum, stRe', ?_, hR'⟩
        rw [List.zipIdx_cons, List.foldlM_cons, hre]
        exact hre'
  exact loop _ _ _ stRe hrows h

end ShinyCoin

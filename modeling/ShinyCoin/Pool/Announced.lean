import ShinyCoin.Pool.Arrival

/-!
# What a message brings into the pool

A `tx` message brings into the pool its own transaction and the orphans that follow it, and just these
are relayed. Between two messages the pool has the parents of what came into it, and everything that
has come is in the pool or among the orphans.
-/

namespace ShinyCoin

variable {φ : Type}

namespace Arriving

variable {renv : RelayEnv φ} {files : Files} {node : NodeState} {txs : Finset CTransaction}
  {tx tx' : CTransaction}

/-- A transaction that can be accepted is in no block. -/
theorem txIndex_eq (hA : Arriving renv files node txs) (htx : tx ∈ txs) :
    node.txdb.data.txIndex (renv.getHash tx) = none := by
  obtain ⟨pool, -, hknown, -⟩ := hA.accepted htx
  obtain ⟨-, -, -, -, hindex, -⟩ := NodeState.checkKnown_ok hknown
  exact hindex rfl

/-- Where the inputs of a transaction can be looked up, its parents are in the pool. -/
theorem parent_pooled (hA : Arriving renv files node txs) (htx' : tx' ∈ txs) {pool : CTxMemPool}
    (hfetchable : Fetchable files pool node.txdb.data.txIndex tx) {txin : CTxIn}
    (htxin : txin ∈ tx.vin) (hspends : txin.prevout.hash = renv.getHash tx') :
    (pool.lookup (renv.getHash tx')).isSome = true := by
  obtain ⟨prev, hprev⟩ := hfetchable txin htxin
  unfold CTransaction.loosePrev CTransaction.fetchPrev at hprev
  rw [if_neg (by decide), hspends, hA.txIndex_eq htx'] at hprev
  unfold CTransaction.fetchUnindexed at hprev
  cases hlookup : pool.lookup (renv.getHash tx') with
  | none =>
      rw [hlookup] at hprev
      cases hprev
  | some tx => rfl

/-- The hash tells the transactions apart. -/
theorem hash_inj (hA : Arriving renv files node txs) (htx : tx ∈ txs) (htx' : tx' ∈ txs)
    (h : renv.getHash tx = renv.getHash tx') : tx = tx' :=
  hA.one _ _ _ (.inr (.inr (.inr ⟨htx, h⟩))) (.inr (.inr (.inr ⟨htx', rfl⟩)))

end Arriving

namespace RelayState

/-- What `RelayMessage` is called with when a `tx` message is processed: the message itself, and the
stored messages of the orphans that follow it. -/
def announced (renv : RelayEnv φ) (files : Files) (vMsg : CDataStream) (s : RelayState φ) :
    List CDataStream :=
  match s.workQueue renv files vMsg with
  | [] => []
  | _ :: orphans =>
      vMsg :: orphans.filterMap fun hash => s.orphans.mapOrphanTransactions[hash]?

section

variable {renv : RelayEnv φ} {files : Files} {node : NodeState} {txs : Finset CTransaction}
  {s s' : RelayState φ} {tx tx' : CTransaction} {vMsg : CDataStream}

def Pooled (renv : RelayEnv φ) (s : RelayState φ) (tx : CTransaction) : Prop :=
  (s.node.mempool.lookup (renv.getHash tx)).isSome = true

/-- The transaction is in the pool or waits for its parents. -/
def Holds (renv : RelayEnv φ) (s : RelayState φ) (tx : CTransaction) : Prop :=
  s.Pooled renv tx ∨ renv.getHash tx ∈ s.orphans.mapOrphanTransactions

/-- The transaction spends an output of the other one. -/
def Spends (renv : RelayEnv φ) (tx tx' : CTransaction) : Prop :=
  ∃ txin ∈ tx.vin, txin.prevout.hash = renv.getHash tx'

/-- Those of the transactions that are in the pool have their parents there. -/
def Rooted (renv : RelayEnv φ) (txs : Finset CTransaction) (s : RelayState φ) : Prop :=
  ∀ tx ∈ txs, s.Pooled renv tx → ∀ tx' ∈ txs, Spends renv tx tx' → s.Pooled renv tx'

/-- `AddOrphanTx` drops what is larger. -/
def SmallOrphans (o : OrphanTxs) : Prop :=
  ∀ (h : Uint256) (vMsg : CDataStream), o.mapOrphanTransactions[h]? = some vMsg → vMsg.size ≤ 5000

/-- A node between two messages, of which some bring it transactions from `txs`. -/
structure Settled (renv : RelayEnv φ) (files : Files) (node : NodeState) (txs : Finset CTransaction)
    (s : RelayState φ) : Prop where
  quiet : Quiet renv files node txs (s.Holds renv) s
  small : SmallOrphans s.orphans
  rooted : s.Rooted renv txs

/-- From `s` to `s'` the transactions of the messages `msgs` came into the pool, and no others. -/
structure Takes (renv : RelayEnv φ) (txs : Finset CTransaction) (s s' : RelayState φ)
    (msgs : List CDataStream) : Prop where
  keeps : ∀ h, (s.node.mempool.lookup h).isSome = true → (s'.node.mempool.lookup h).isSome = true
  holds : ∀ tx, s.Holds renv tx → s'.Holds renv tx
  news : ∀ h, (s'.node.mempool.lookup h).isSome = true →
    (s.node.mempool.lookup h).isSome = true ∨ ∃ vMsg ∈ msgs, renv.getHash vMsg.tx = h
  msgs : ∀ vMsg ∈ msgs, vMsg.tx ∈ txs ∧ vMsg.size ≤ 5000 ∧
    s.node.mempool.lookup (renv.getHash vMsg.tx) = none ∧ s'.Pooled renv vMsg.tx

theorem Takes.refl : Takes renv txs s s [] :=
  ⟨fun _ h => h, fun _ h => h, fun _ h => .inl h, fun _ h => (List.not_mem_nil h).elim⟩

/-! ## The loop over the orphans -/

/-- Of the loop over `vWorkQueue`, in a message that comes to the state `s`: the queue has just what
has come into the pool so far, the transaction of the message and then orphans. -/
structure Brings (renv : RelayEnv φ) (files : Files) (node : NodeState) (txs : Finset CTransaction)
    (s : RelayState φ) (hash : Uint256) (r : Resolving φ) : Prop where
  serving : Serving renv files node txs r.relay
  stored : r.relay.orphans.mapOrphanTransactions = s.orphans.mapOrphanTransactions
  keeps : ∀ h, (s.node.mempool.lookup h).isSome = true →
    (r.relay.node.mempool.lookup h).isSome = true
  news : ∀ h, (r.relay.node.mempool.lookup h).isSome = true →
    (s.node.mempool.lookup h).isSome = true ∨ h ∈ r.vWorkQueue
  queued : ∀ h ∈ r.vWorkQueue, s.node.mempool.lookup h = none ∧
    (r.relay.node.mempool.lookup h).isSome = true
  queue : ∃ rest, r.vWorkQueue = hash :: rest ∧ ∀ h ∈ rest, h ∈ s.orphans.mapOrphanTransactions
  rooted : r.relay.Rooted renv txs

/-- What comes into the pool has its parents there. -/
theorem Rooted.add (hA : Arriving renv files node txs) (hs : Serving renv files node txs s)
    (hrooted : s.Rooted renv txs) (htx : tx ∈ txs) (hready : s.Ready renv files tx)
    (hpool : s'.node.mempool = s.node.mempool.addUnchecked renv.toEnv tx) :
    s'.Rooted renv txs := by
  intro x hx hpooled x' hx' hspends
  unfold Pooled at hpooled ⊢
  rw [hpool, isSome_addUnchecked] at hpooled ⊢
  rcases hpooled with heq | hold
  · have heq := hA.hash_inj hx htx heq
    subst heq
    obtain ⟨txin, htxin, hspends⟩ := hspends
    have hfetchable := hready.2
    rw [hs.txIndex] at hfetchable
    exact .inr (hA.parent_pooled hx' hfetchable htxin hspends)
  · exact .inr (hrooted x hx hold x' hx' hspends)

/-- One orphan is tried again. -/
theorem Brings.retry (hA : Arriving renv files node txs) {hash : Uint256} {r r' : Resolving φ}
    (hB : Brings renv files node txs s hash r)
    (hstored : renv.getHash vMsg.tx ∈ s.orphans.mapOrphanTransactions) (htx : vMsg.tx ∈ txs) (h : retryOrphan renv files r vMsg = .ok r') :
    Brings renv files node txs s hash r' := by
  simp only [retryOrphan] at h
  cases hB.serving.acceptTx_cases hA htx with
  | @inPool rejection hin hacc hmiss =>
      rw [hacc] at h
      cases h
      exact ⟨hB.serving, hB.stored, hB.keeps, hB.news, hB.queued, hB.queue, hB.rooted⟩
  | @missing rejection hnew hnot hacc hmiss =>
      rw [hacc] at h
      cases h
      exact ⟨hB.serving, hB.stored, hB.keeps, hB.news, hB.queued, hB.queue, hB.rooted⟩
  | @accepted s₁ hready hacc hs₁ horphans hpool =>
      rw [hacc] at h
      cases h
      have hin : ∀ h, (s₁.node.mempool.lookup h).isSome = true ↔
          h = renv.getHash vMsg.tx ∨ (r.relay.node.mempool.lookup h).isSome = true := by
        intro h
        rw [hpool, isSome_addUnchecked]
      refine ⟨hs₁, horphans ▸ hB.stored, fun h hh => ?_, fun h hh => ?_, fun h hh => ?_, ?_,
        hB.rooted.add hA hB.serving htx hready hpool⟩
      · exact (hin h).mpr (.inr (hB.keeps h hh))
      · rcases (hin h).mp hh with rfl | hh
        · exact .inr (List.mem_append_right _ (List.mem_singleton_self _))
        · exact (hB.news h hh).imp_right (List.mem_append_left _)
      · rcases List.mem_append.mp hh with hh | hh
        · obtain ⟨hnone, hsome⟩ := hB.queued h hh
          exact ⟨hnone, (hin h).mpr (.inr hsome)⟩
        · rw [List.mem_singleton.mp hh]
          refine ⟨?_, (hin _).mpr (.inl rfl)⟩
          -- it was not in the pool a moment ago
          cases hlookup : s.node.mempool.lookup (renv.getHash vMsg.tx) with
          | none => rfl
          | some x =>
              have hsome := hB.keeps (renv.getHash vMsg.tx) (by rw [hlookup]; rfl)
              rw [hready.1] at hsome
              exact Bool.noConfusion hsome
      · obtain ⟨rest, hqueue, hrest⟩ := hB.queue
        refine ⟨rest ++ [renv.getHash vMsg.tx], by simp only [hqueue, List.cons_append], ?_⟩
        intro h hh
        rcases List.mem_append.mp hh with hh | hh
        · exact hrest h hh
        · rw [List.mem_singleton.mp hh]
          exact hstored

/-- One key is looked under. -/
theorem Brings.visit (hA : Arriving renv files node txs) {r r' : Resolving φ} {hash k : Uint256}
    {new : List Uint256} (hB : Brings renv files node txs s hash r)
    (h : visitPrev renv files r k = .ok (r', new)) : Brings renv files node txs s hash r' := by
  unfold visitPrev at h
  obtain ⟨r₁, hloop, h⟩ := Lib.bind_eq_ok.mp h
  cases h
  have hfiled := hB.serving.filed
  have hstart : Brings renv files node txs s hash
      { r with relay := { r.relay with orphans := r.relay.orphans.touch k } } :=
    ⟨⟨hB.serving.node_eq, hB.serving.grown, hB.serving.wallets, hfiled.touch k, hB.serving.orphans⟩,
      hB.stored, hB.keeps, hB.news, hB.queued, hB.queue, hB.rooted⟩
  have hwaiting : ∀ v ∈ (OrphanTxs.waiting
      (r.relay.orphans.touch k).mapOrphanTransactionsByPrev k).toList.map Prod.snd,
      renv.getHash v.tx ∈ s.orphans.mapOrphanTransactions ∧ v.tx ∈ txs := by
    intro v hv
    obtain ⟨⟨h, v'⟩, hmem, rfl⟩ := List.mem_map.mp hv
    rw [Std.ExtTreeMap.mem_toList_iff_getElem?_eq_some] at hmem
    have hstored : r.relay.orphans.mapOrphanTransactions[h]? = some v' :=
      ((hfiled.touch k).waits k h v' |>.mp hmem).1
    refine ⟨?_, hB.serving.orphans h v' hstored⟩
    rw [hfiled.keyed h v' hstored, Std.ExtTreeMap.mem_iff_isSome_getElem?, ← hB.stored, hstored]
    rfl
  refine (Lib.foldlM_ok_inv (fun rest x => (∀ v ∈ rest,
      renv.getHash v.tx ∈ s.orphans.mapOrphanTransactions ∧ v.tx ∈ txs) ∧
        Brings renv files node txs s hash x) ?_ ⟨hwaiting, hstart⟩ hloop).2
  rintro v rest x x' ⟨hrest, hx⟩ hstep
  obtain ⟨hstored, htx⟩ := hrest v List.mem_cons_self
  exact ⟨fun v' hv' => hrest v' (List.mem_cons_of_mem _ hv'), hx.retry hA hstored htx hstep⟩

/-- The loop after the message itself was accepted -/
theorem Brings.start (hA : Arriving renv files node txs) (hs : Settled renv files node txs s)
    (htx : tx ∈ txs) (hready : s.Ready renv files tx) (hs' : Serving renv files node txs s')
    (horphans : s'.orphans = s.orphans)
    (hpool : s'.node.mempool = s.node.mempool.addUnchecked renv.toEnv tx) :
    Brings renv files node txs s (renv.getHash tx)
      { relay := s', vWorkQueue := [renv.getHash tx], vEraseQueue := [renv.getHash tx] } := by
  have hin : ∀ h, (s'.node.mempool.lookup h).isSome = true ↔
      h = renv.getHash tx ∨ (s.node.mempool.lookup h).isSome = true := by
    intro h
    rw [hpool, isSome_addUnchecked]
  refine ⟨hs', by rw [horphans], fun h hh => (hin h).mpr (.inr hh), fun h hh => ?_, fun h hh => ?_,
    ⟨[], rfl, fun h hh => (List.not_mem_nil hh).elim⟩,
    hs.rooted.add hA hs.quiet.serving htx hready hpool⟩
  · rcases (hin h).mp hh with rfl | hh
    · exact .inr (List.mem_singleton_self _)
    · exact .inl hh
  · rw [List.mem_singleton.mp hh]
    exact ⟨hready.1, (hin _).mpr (.inl rfl)⟩

/-! ## A message -/

theorem Quiet.holds {seen : CTransaction → Prop} (h : Quiet renv files node txs seen s) :
    Quiet renv files node txs (s.Holds renv) s :=
  ⟨h.serving, h.waits, fun _ h => h⟩

theorem SmallOrphans.eraseOrphanTx {o : OrphanTxs} (h : SmallOrphans o) (hash : Uint256) :
    SmallOrphans (o.eraseOrphanTx hash) := by
  intro k v hv
  have herase := getElem?_eraseOrphanTxs [hash] o k
  rw [List.foldl_cons, List.foldl_nil, hv] at herase
  split at herase
  · cases herase
  · exact h k v herase.symm

theorem SmallOrphans.addOrphanTx (renv : RelayEnv φ) {o : OrphanTxs} (h : SmallOrphans o)
    (hsize : vMsg.size ≤ 5000) :
    SmallOrphans (o.addOrphanTx renv.toEnv vMsg) := by
  intro k v hv
  rw [getElem?_addOrphanTx hsize] at hv
  split at hv
  · cases hv
    exact hsize
  · exact h k v hv

/-- The messages that are relayed, as the loop leaves its queue -/
theorem Brings.takes (hs : Settled renv files node txs s)
    (htx : vMsg.tx ∈ txs) (hsize : vMsg.size ≤ 5000) {r : Resolving φ}
    (hB : Brings renv files node txs s (renv.getHash vMsg.tx) r) {hashes : List Uint256}
    (hqueue : r.vWorkQueue = renv.getHash vMsg.tx :: hashes)
    (hpool : s'.node.mempool = r.relay.node.mempool)
    (hholds : ∀ tx, s.Holds renv tx → s'.Holds renv tx) :
    Takes renv txs s s'
      (vMsg :: hashes.filterMap fun hash => s.orphans.mapOrphanTransactions[hash]?) := by
  have hfiled := hs.quiet.serving.filed
  have hwaited : ∀ h ∈ hashes, h ∈ s.orphans.mapOrphanTransactions := by
    obtain ⟨rest, hrest, hwaited⟩ := hB.queue
    rw [hqueue] at hrest
    cases hrest
    exact hwaited
  refine ⟨fun h hh => ?_, hholds, fun h hh => ?_, fun v hv => ?_⟩
  · rw [hpool]
    exact hB.keeps h hh
  · rw [hpool] at hh
    rcases hB.news h hh with hold | hnew
    · exact .inl hold
    · right
      rw [hqueue] at hnew
      rcases List.mem_cons.mp hnew with rfl | hnew
      · exact ⟨vMsg, List.mem_cons_self, rfl⟩
      · have hstored := Std.ExtTreeMap.getElem?_eq_some_getElem (hwaited h hnew)
        exact ⟨_, List.mem_cons_of_mem _ (List.mem_filterMap.mpr ⟨h, hnew, hstored⟩),
          hfiled.keyed h _ hstored⟩
  · have hqueued : ∀ h ∈ r.vWorkQueue, s.node.mempool.lookup h = none ∧
        (s'.node.mempool.lookup h).isSome = true := by
      rw [hpool]
      exact hB.queued
    rw [hqueue] at hqueued
    rcases List.mem_cons.mp hv with rfl | hv
    · exact ⟨htx, hsize, hqueued _ List.mem_cons_self⟩
    · obtain ⟨h, hh, hstored⟩ := List.mem_filterMap.mp hv
      have heq := hfiled.keyed h v hstored
      refine ⟨hs.quiet.serving.orphans h v hstored, hs.small h v hstored, ?_⟩
      unfold Pooled
      rw [heq]
      exact hqueued h (List.mem_cons_of_mem _ hh)

/-- What a message of one of the transactions does to the node, and what is relayed. -/
theorem Settled.processTx_cases (hA : Arriving renv files node txs)
    (hs : Settled renv files node txs s) (htx : vMsg.tx ∈ txs) (rand : Nat → Uint256) :
    (Lib.final (s.processTx renv files rand vMsg) = s ∧ s.announced renv files vMsg = []) ∨
    (∃ r hashes, Brings renv files node txs s (renv.getHash vMsg.tx) r ∧
      r.vWorkQueue = renv.getHash vMsg.tx :: hashes ∧
      Lib.final (s.processTx renv files rand vMsg) = { r.relay with
        orphans := r.vEraseQueue.foldl OrphanTxs.eraseOrphanTx r.relay.orphans } ∧
      s.announced renv files vMsg
        = vMsg :: hashes.filterMap fun hash => s.orphans.mapOrphanTransactions[hash]?) ∨
    (Lib.final (s.processTx renv files rand vMsg) = { s with
        orphans := (s.orphans.addOrphanTx renv.toEnv vMsg).limitOrphanTxSize
          MAX_ORPHAN_TRANSACTIONS rand } ∧
      s.announced renv files vMsg = []) := by
  unfold RelayState.processTx announced workQueue
  cases hs.quiet.serving.acceptTx_cases hA htx with
  | @inPool r hin hacc hmiss =>
      rw [hacc]
      simp only [hmiss, Bool.false_eq_true, if_false]
      exact .inl ⟨rfl, trivial⟩
  | @accepted s₁ hready hacc hs₁ horphans hpool =>
      obtain ⟨r, hr, -⟩ := hs.quiet.accept hA htx hs₁ horphans hpool
      have hB : Brings renv files node txs s (renv.getHash vMsg.tx) r := Lib.drain_ok_keeps _
        (fun k r r' new hI hv => Brings.visit hA hI hv)
        (Brings.start hA hs htx hready hs₁ horphans hpool) hr
      obtain ⟨hashes, hqueue, -⟩ := hB.queue
      refine .inr (.inl ⟨r, hashes, hB, hqueue, ?_⟩)
      rw [hacc]
      simp only [hr, Lib.final, hqueue]
      exact ⟨trivial, trivial⟩
  | @missing r hnew hnot hacc hmiss =>
      rw [hacc]
      simp only [hmiss, if_true]
      exact .inr (.inr ⟨rfl, trivial⟩)

/-- A message of one of the transactions: it has come, what came into the pool with it is relayed, and
the node is settled again. -/
theorem Settled.processTx (hA : Arriving renv files node txs) (hs : Settled renv files node txs s)
    (hcard : txs.card < MAX_ORPHAN_TRANSACTIONS) (htx : vMsg.tx ∈ txs) (hsize : vMsg.size ≤ 5000)
    (rand : Nat → Uint256) :
    Settled renv files node txs (Lib.final (s.processTx renv files rand vMsg)) ∧
      Holds renv (Lib.final (s.processTx renv files rand vMsg)) vMsg.tx ∧
      Takes renv txs s (Lib.final (s.processTx renv files rand vMsg))
        (s.announced renv files vMsg) := by
  have hquiet := hs.quiet.processTx hA hcard htx hsize rand
  have hcome := hquiet.seen _ (.inr rfl)
  have hholds : ∀ tx, s.Holds renv tx →
      Holds renv (Lib.final (s.processTx renv files rand vMsg)) tx :=
    fun tx h => hquiet.seen tx (.inl h)
  rcases hs.processTx_cases hA htx rand with ⟨heq, hmsgs⟩ | ⟨r, hashes, hB, hqueue, heq, hmsgs⟩ |
    ⟨heq, hmsgs⟩
  · rw [heq] at hcome ⊢
    rw [hmsgs]
    exact ⟨hs, hcome, .refl⟩
  · rw [heq] at hquiet hcome hholds ⊢
    rw [hmsgs]
    refine ⟨⟨hquiet.holds, fun h v hv => ?_, hB.rooted⟩, hcome, hB.takes hs htx hsize hqueue rfl hholds⟩
    have hleft : (r.vEraseQueue.foldl OrphanTxs.eraseOrphanTx
        r.relay.orphans).mapOrphanTransactions[h]? = some v := hv
    rw [getElem?_eraseOrphanTxs, hB.stored] at hleft
    split at hleft
    · cases hleft
    · exact hs.small h v hleft
  · rw [heq] at hquiet hcome hholds ⊢
    rw [hmsgs]
    have hsmall := OrphanTxs.limitOrphanTxSize_inv SmallOrphans (fun o hash h => h.eraseOrphanTx hash)
      MAX_ORPHAN_TRANSACTIONS rand (SmallOrphans.addOrphanTx renv hs.small hsize)
    exact ⟨⟨hquiet.holds, hsmall, hs.rooted⟩, hcome, fun _ h => h, hholds, fun _ h => .inl h,
      fun _ h => (List.not_mem_nil h).elim⟩

/-- A transaction that is submitted to the node itself, and that no orphan waits for -/
theorem Settled.acceptTx (hA : Arriving renv files node txs) (hs : Settled renv files node txs s)
    (htx : tx ∈ txs) (hsize : ({ tx } : CDataStream).size ≤ 5000)
    (hnew : renv.getHash tx ∉ s.orphans.mapOrphanTransactions)
    (hfree : ∀ (h : Uint256) (vMsg : CDataStream), s.orphans.mapOrphanTransactions[h]? = some vMsg →
      ¬ Spends renv vMsg.tx tx) :
    (∃ r, s.acceptTx renv files tx = .ok (s, some r)) ∨
      ∃ s', s.acceptTx renv files tx = .ok (s', none) ∧ Settled renv files node txs s' ∧
        Takes renv txs s s' [{ tx }] := by
  cases hs.quiet.serving.acceptTx_cases hA htx with
  | @inPool r hin hacc hmiss => exact .inl ⟨r, hacc⟩
  | @missing r hnew hnot hacc hmiss => exact .inl ⟨r, hacc⟩
  | @accepted s' hready hacc hs' horphans hpool =>
      right
      have hin : ∀ h, (s'.node.mempool.lookup h).isSome = true ↔
          h = renv.getHash tx ∨ (s.node.mempool.lookup h).isSome = true := by
        intro h
        rw [hpool, isSome_addUnchecked]
      refine ⟨s', hacc, ⟨⟨hs', fun h v hv => ?_, fun _ h => h⟩, ?_,
        hs.rooted.add hA hs.quiet.serving htx hready hpool⟩, ⟨fun h hh => (hin h).mpr (.inr hh),
        fun x hx => ?_, fun h hh => ?_, fun v hv => ?_⟩⟩
      · rw [horphans] at hv
        obtain ⟨hnone, hnot⟩ := hs.quiet.waits h v hv
        refine ⟨?_, fun hready' => ?_⟩
        · rw [hpool, CTxMemPool.lookup_addUnchecked, if_neg]
          · exact hnone
          · rintro rfl
            apply hnew
            rw [Std.ExtTreeMap.mem_iff_isSome_getElem?, hv]
            rfl
        · obtain ⟨-, hold | hspends⟩ := Ready.of_add hA hs.quiet.serving hs' htx hpool hready'
          · exact hnot hold
          · exact hfree h v hv hspends
      · intro h v hv
        rw [horphans] at hv
        exact hs.small h v hv
      · rcases hx with hpooled | hmem
        · exact .inl ((hin _).mpr (.inr hpooled))
        · exact .inr (by rw [horphans]; exact hmem)
      · rcases (hin h).mp hh with rfl | hh
        · exact .inr ⟨_, List.mem_singleton_self _, rfl⟩
        · exact .inl hh
      · rw [List.mem_singleton.mp hv]
        exact ⟨htx, hsize, hready.1, (hin _).mpr (.inl rfl)⟩

/-! ## Two nodes -/

/-- What one settled node has in its pool, and the other one holds, the other one has in its pool. -/
theorem Settled.pooled_of_holds {files' : Files} {node' : NodeState} {t : RelayState φ}
    (hA : Arriving renv files' node' txs) (hs : s.Rooted renv txs)
    (ht : Settled renv files' node' txs t) {rank : CTransaction → Nat}
    (hrank : ∀ tx ∈ txs, ∀ tx' ∈ txs, Spends renv tx tx' → rank tx' < rank tx)
    (hholds : ∀ tx ∈ txs, s.Pooled renv tx → t.Holds renv tx) :
    ∀ tx ∈ txs, s.Pooled renv tx → t.Pooled renv tx := by
  intro tx
  induction hn : rank tx using Nat.strong_induction_on generalizing tx with
  | _ n ih =>
      intro htx hpooled
      rcases hholds tx htx hpooled with hin | hmem
      · exact hin
      · exfalso
        -- the parents are here too, so it would not be left among the orphans
        have hv := Std.ExtTreeMap.getElem?_eq_some_getElem hmem
        obtain ⟨hnone, hnot⟩ := ht.quiet.waits _ _ hv
        have heq : (t.orphans.mapOrphanTransactions[renv.getHash tx]).tx = tx :=
          hA.hash_inj (ht.quiet.serving.orphans _ _ hv) htx (ht.quiet.serving.filed.keyed _ _ hv)
        rw [heq] at hnot
        refine hnot ⟨hnone, ?_⟩
        rw [ht.quiet.serving.txIndex]
        refine hA.fetchable_of_parents ht.quiet.serving.grown htx ?_
        intro tx' htx' hparent
        have hpooled' := ih (rank tx') (by rw [← hn]; exact hrank tx htx tx' htx' hparent) tx' rfl htx'
          (hs tx htx hpooled tx' htx' hparent)
        obtain ⟨x, hx⟩ := Option.isSome_iff_exists.mp hpooled'
        rw [hx, hA.lookup_hash ht.quiet.serving.grown htx' hx]

end

end RelayState

end ShinyCoin

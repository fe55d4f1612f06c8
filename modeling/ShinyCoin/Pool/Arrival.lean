import ShinyCoin.Pool.Loose
import Mathlib.Data.Finset.Card

/-!
# Transactions arrive in any order

Transactions that can all be accepted, parents first, are all in the pool once each of them has
arrived in a message, in whatever order. Between two messages no orphan has all its parents
(`Quiet`). A message that is accepted gives some orphan its last parent only by its hash or by the
hash of an orphan that was accepted after it, so the loop over `vWorkQueue` comes to it (`Resolves`).
-/

namespace ShinyCoin

variable {φ : Type}

namespace RelayState

section

variable {renv : RelayEnv φ} {files : Files} {node : NodeState} {txs : Finset CTransaction}
  {s s' : RelayState φ} {tx : CTransaction} {vMsg : CDataStream}

/-! ## One transaction -/

/-- The node is `node` with some of the transactions added to its pool and its wallets, and what
waits is among the transactions. -/
structure Serving (renv : RelayEnv φ) (files : Files) (node : NodeState) (txs : Finset CTransaction)
    (s : RelayState φ) : Prop where
  node_eq : s.node = { node with mempool := s.node.mempool, wallets := s.node.wallets }
  grown : Grown renv.toEnv node.mempool txs s.node.mempool
  wallets : ∀ w ∈ s.node.wallets, WalletTxs (KnownLoose renv.toEnv files node txs) w
  filed : s.orphans.Filed renv.toEnv
  orphans : ∀ (h : Uint256) (vMsg : CDataStream),
    s.orphans.mapOrphanTransactions[h]? = some vMsg → vMsg.tx ∈ txs

/-- The transaction is not in the pool, and its parents are there. -/
def Ready (renv : RelayEnv φ) (files : Files) (s : RelayState φ) (tx : CTransaction) : Prop :=
  s.node.mempool.lookup (renv.getHash tx) = none ∧
    Fetchable files s.node.mempool s.node.txdb.data.txIndex tx

/-- What accepting one of the transactions can come to. -/
inductive AcceptCase (renv : RelayEnv φ) (files : Files) (node : NodeState)
    (txs : Finset CTransaction) (s : RelayState φ) (tx : CTransaction) : Prop where
  | inPool {r : Rejection} (hin : s.node.mempool.lookup (renv.getHash tx) = some tx)
      (hacc : s.acceptTx renv files tx = .ok (s, some r)) (hmiss : r.fMissingInputs = false)
  | accepted {s' : RelayState φ} (hready : s.Ready renv files tx)
      (hacc : s.acceptTx renv files tx = .ok (s', none)) (hs' : Serving renv files node txs s')
      (horphans : s'.orphans = s.orphans)
      (hpool : s'.node.mempool = s.node.mempool.addUnchecked renv.toEnv tx)
  | missing {r : Rejection} (hnew : s.node.mempool.lookup (renv.getHash tx) = none)
      (hnot : ¬ s.Ready renv files tx) (hacc : s.acceptTx renv files tx = .ok (s, some r))
      (hmiss : r.fMissingInputs = true)

theorem acceptTx_rejected {r : Rejection}
    (h : s.node.checkAccept renv files s.free tx true = (s.free, .error r))
    (hr : r.err.isFalse = true) : s.acceptTx renv files tx = .ok (s, some r) := by
  unfold acceptTx NodeState.acceptToMemoryPool
  rw [h]
  obtain ⟨err, fMissingInputs⟩ := r
  cases err with
  | exc what => exact Bool.noConfusion hr
  | invalid msg => rfl
  | fail msg => rfl

theorem Serving.txIndex (hs : Serving renv files node txs s) :
    s.node.txdb.data.txIndex = node.txdb.data.txIndex := by
  rw [hs.node_eq]

theorem Serving.acceptTx_cases (hA : Arriving renv files node txs)
    (hs : Serving renv files node txs s) (htx : tx ∈ txs) :
    AcceptCase renv files node txs s tx := by
  have heq := hs.node_eq
  cases hlookup : s.node.mempool.lookup (renv.getHash tx) with
  | some tx' =>
      rw [hA.lookup_hash hs.grown htx hlookup] at hlookup
      have hcheck := hA.checkAccept_of_mem htx hlookup s.node.wallets s.free
      rw [← heq] at hcheck
      exact .inPool hlookup (acceptTx_rejected hcheck rfl) rfl
  | none =>
      by_cases hfetchable : Fetchable files s.node.mempool node.txdb.data.txIndex tx
      · have hcheck := hA.checkAccept_of_fetchable hs.grown htx hlookup hfetchable s.node.wallets
          s.free
        rw [← heq] at hcheck
        obtain ⟨ws, hws, hknown⟩ := syncLoose_isOk hA.one hs.wallets
          (.inr (.inr (.inr ⟨htx, rfl⟩))) (hA.affordable htx)
        have hacc : s.acceptTx renv files tx = .ok ({ s with node := { s.node with
            mempool := s.node.mempool.addUnchecked renv.toEnv tx, wallets := ws } }, none) := by
          unfold acceptTx NodeState.acceptToMemoryPool
          rw [hcheck]
          simp only [hws]
        refine .accepted ⟨hlookup, by rw [hs.txIndex]; exact hfetchable⟩ hacc ?_ rfl rfl
        refine ⟨?_, hA.grown_add hs.grown htx, hknown, hs.filed, hs.orphans⟩
        simp only
        rw [heq]
      · obtain ⟨r, hcheck, hmiss, hfalse⟩ := hA.checkAccept_of_missing hs.grown htx hlookup
          hfetchable s.node.wallets s.free
        rw [← heq] at hcheck
        refine .missing hlookup ?_ (acceptTx_rejected hcheck hfalse) hmiss
        rintro ⟨-, hf⟩
        rw [hs.txIndex] at hf
        exact hfetchable hf

/-! ## The loop over the orphans -/

/-- Of the loop over `vWorkQueue`, when the orphans `todo` are still to be tried under the present
key and the keys `ks` are still to come: an orphan that is ready is one of the first, or waits for
one of the others; and `vEraseQueue` has the orphans that are in the pool, and no others. -/
structure Resolves (renv : RelayEnv φ) (files : Files) (node : NodeState)
    (txs : Finset CTransaction) (s₀ : RelayState φ) (todo : List CDataStream) (ks : List Uint256)
    (r : Resolving φ) : Prop where
  serving : Serving renv files node txs r.relay
  stored : r.relay.orphans.mapOrphanTransactions = s₀.orphans.mapOrphanTransactions
  ready : ∀ (h : Uint256) (vMsg : CDataStream), s₀.orphans.mapOrphanTransactions[h]? = some vMsg →
    r.relay.Ready renv files vMsg.tx → vMsg ∈ todo ∨ ∃ txin ∈ vMsg.tx.vin, txin.prevout.hash ∈ ks
  keeps : ∀ h, (s₀.node.mempool.lookup h).isSome = true →
    (r.relay.node.mempool.lookup h).isSome = true
  accepted : ∀ h ∈ r.vEraseQueue, (r.relay.node.mempool.lookup h).isSome = true
  erased : ∀ h ∈ s₀.orphans.mapOrphanTransactions, (r.relay.node.mempool.lookup h).isSome = true →
    h ∈ r.vEraseQueue

theorem isSome_addUnchecked {env : Env} {pool : CTxMemPool} {tx : CTransaction} {h : Uint256} :
    ((pool.addUnchecked env tx).lookup h).isSome = true ↔
      h = env.getHash tx ∨ (pool.lookup h).isSome = true := by
  rw [CTxMemPool.lookup_addUnchecked]
  split
  · next heq => simp [heq]
  · next hne => simp [hne]

/-- When a transaction comes to the pool, what gets ready spends it. -/
theorem Ready.of_add (hA : Arriving renv files node txs) (hs : Serving renv files node txs s)
    (hs' : Serving renv files node txs s') (htx : tx ∈ txs)
    (hpool : s'.node.mempool = s.node.mempool.addUnchecked renv.toEnv tx) {tx' : CTransaction}
    (hready : s'.Ready renv files tx') :
    renv.getHash tx' ≠ renv.getHash tx ∧
      (s.Ready renv files tx' ∨ ∃ txin ∈ tx'.vin, txin.prevout.hash = renv.getHash tx) := by
  obtain ⟨hnew, hfetchable⟩ := hready
  rw [hpool] at hfetchable
  rw [hs'.txIndex] at hfetchable
  rw [hpool, CTxMemPool.lookup_addUnchecked] at hnew
  split at hnew
  · cases hnew
  · next hne =>
    refine ⟨hne, ?_⟩
    by_cases hf : Fetchable files s.node.mempool node.txdb.data.txIndex tx'
    · exact .inl ⟨hnew, by rw [hs.txIndex]; exact hf⟩
    · exact .inr (hA.fetchable_add hs.grown hf htx hfetchable)

/-- One orphan is tried again. -/
theorem Resolves.retry (hA : Arriving renv files node txs) {s₀ : RelayState φ}
    {todo : List CDataStream} {ks : List Uint256} {r : Resolving φ}
    (hI : Resolves renv files node txs s₀ (vMsg :: todo) ks r)
    (hstored : s₀.orphans.mapOrphanTransactions[renv.getHash vMsg.tx]? = some vMsg) :
    ∃ r' new, retryOrphan renv files r vMsg = .ok r' ∧ r'.vWorkQueue = r.vWorkQueue ++ new ∧
      Resolves renv files node txs s₀ todo (ks ++ new) r' := by
  have htx : vMsg.tx ∈ txs := hI.serving.orphans _ vMsg (by rw [hI.stored]; exact hstored)
  have hmem : renv.getHash vMsg.tx ∈ s₀.orphans.mapOrphanTransactions := by
    by_contra hnot
    rw [Lib.getElem?_eq_none_iff.mpr hnot] at hstored
    cases hstored
  -- another orphan that is ready was ready before
  have hrest : ∀ (h : Uint256) (v : CDataStream),
      s₀.orphans.mapOrphanTransactions[h]? = some v → v ≠ vMsg → r.relay.Ready renv files v.tx →
      v ∈ todo ∨ ∃ txin ∈ v.tx.vin, txin.prevout.hash ∈ ks := by
    intro h v hv hne hready
    rcases hI.ready h v hv hready with hmem | hwaits
    · rcases List.mem_cons.mp hmem with heq | hmem
      · exact absurd heq hne
      · exact .inl hmem
    · exact .inr hwaits
  simp only [retryOrphan]
  cases hI.serving.acceptTx_cases hA htx with
  | @inPool rejection hin hacc hmiss =>
      rw [hacc]
      refine ⟨_, [], rfl, (List.append_nil _).symm, ?_⟩
      rw [List.append_nil]
      refine ⟨hI.serving, hI.stored, ?_, hI.keeps, ?_, ?_⟩
      · intro h v hv hready
        refine hrest h v hv ?_ hready
        rintro rfl
        cases hin.symm.trans hready.1
      · intro h hh
        simp only [hmiss, Bool.false_eq_true, if_false] at hh
        rcases List.mem_append.mp hh with hh | hh
        · exact hI.accepted h hh
        · rw [List.mem_singleton.mp hh, hin]
          rfl
      · intro h hh hsome
        simp only [hmiss, Bool.false_eq_true, if_false]
        exact List.mem_append_left _ (hI.erased h hh hsome)
  | @accepted s' hready hacc hs' horphans hpool =>
      rw [hacc]
      refine ⟨_, [renv.getHash vMsg.tx], rfl, rfl, ?_⟩
      refine ⟨hs', by rw [← hI.stored, ← horphans], ?_, ?_, ?_, ?_⟩
      · intro h v hv hv'
        obtain ⟨hne, hold⟩ := Ready.of_add hA hI.serving hs' htx hpool hv'
        rcases hold with hold | ⟨txin, htxin, heq⟩
        · rcases hrest h v hv (fun heq => hne (by rw [heq])) hold with hmem | ⟨txin, htxin, hk⟩
          · exact .inl hmem
          · exact .inr ⟨txin, htxin, List.mem_append_left _ hk⟩
        · exact .inr ⟨txin, htxin, by rw [heq]; simp⟩
      · intro h hh
        show (s'.node.mempool.lookup h).isSome = true
        rw [hpool, isSome_addUnchecked]
        exact .inr (hI.keeps h hh)
      · intro h hh
        show (s'.node.mempool.lookup h).isSome = true
        rw [hpool, isSome_addUnchecked]
        rcases List.mem_append.mp hh with hh | hh
        · exact .inr (hI.accepted h hh)
        · exact .inl (List.mem_singleton.mp hh)
      · intro h hh hsome
        replace hsome : (s'.node.mempool.lookup h).isSome = true := hsome
        rw [hpool, isSome_addUnchecked] at hsome
        rcases hsome with heq | hsome
        · exact List.mem_append_right _ (List.mem_singleton.mpr heq)
        · exact List.mem_append_left _ (hI.erased h hh hsome)
  | @missing rejection hnew hnot hacc hmiss =>
      rw [hacc]
      refine ⟨_, [], rfl, (List.append_nil _).symm, ?_⟩
      rw [List.append_nil]
      refine ⟨hI.serving, hI.stored, ?_, hI.keeps, ?_, ?_⟩
      · intro h v hv hready
        refine hrest h v hv ?_ hready
        rintro rfl
        exact hnot hready
      · intro h hh
        simp only [hmiss, if_true] at hh
        exact hI.accepted h hh
      · intro h hh hsome
        simp only [hmiss, if_true]
        exact hI.erased h hh hsome

theorem Resolves.retries (hA : Arriving renv files node txs) {s₀ : RelayState φ}
    {todo : List CDataStream} {ks : List Uint256} {r : Resolving φ}
    (hI : Resolves renv files node txs s₀ todo ks r)
    (hstored : ∀ vMsg ∈ todo,
      s₀.orphans.mapOrphanTransactions[renv.getHash vMsg.tx]? = some vMsg) :
    ∃ r' new, todo.foldlM (retryOrphan renv files) r = .ok r' ∧
      r'.vWorkQueue = r.vWorkQueue ++ new ∧ Resolves renv files node txs s₀ [] (ks ++ new) r' := by
  induction todo generalizing r ks with
  | nil => exact ⟨r, [], rfl, (List.append_nil _).symm, by rw [List.append_nil]; exact hI⟩
  | cons vMsg todo ih =>
      obtain ⟨r₁, new₁, h₁, hw₁, hI₁⟩ := hI.retry hA (hstored vMsg List.mem_cons_self)
      obtain ⟨r', new₂, h', hw', hI'⟩ := ih hI₁ fun v hv => hstored v (List.mem_cons_of_mem _ hv)
      refine ⟨r', new₁ ++ new₂, ?_, ?_, ?_⟩
      · rw [List.foldlM_cons, h₁]
        exact h'
      · rw [hw', hw₁, List.append_assoc]
      · rw [← List.append_assoc]
        exact hI'

/-- One key is looked under. -/
theorem Resolves.visit (hA : Arriving renv files node txs) {s₀ : RelayState φ} {k : Uint256}
    {ks : List Uint256} {r : Resolving φ} (hI : Resolves renv files node txs s₀ [] (k :: ks) r) :
    ∃ r' new, visitPrev renv files r k = .ok (r', new) ∧
      Resolves renv files node txs s₀ [] (ks ++ new) r' := by
  have hfiled := hI.serving.filed
  have hwaiting : ∀ (h : Uint256) (v : CDataStream), (OrphanTxs.waiting
      (r.relay.orphans.touch k).mapOrphanTransactionsByPrev k)[h]? = some v ↔
        r.relay.orphans.Waits k h v := fun h v => (hfiled.touch k).waits k h v
  have hstart : Resolves renv files node txs s₀ ((OrphanTxs.waiting
      (r.relay.orphans.touch k).mapOrphanTransactionsByPrev k).toList.map Prod.snd) ks
      { r with relay := { r.relay with orphans := r.relay.orphans.touch k } } := by
    refine ⟨⟨hI.serving.node_eq, hI.serving.grown, hI.serving.wallets, hfiled.touch k,
      hI.serving.orphans⟩, hI.stored, ?_, hI.keeps, hI.accepted, hI.erased⟩
    intro h v hv hready
    rcases hI.ready h v hv hready with hnil | ⟨txin, htxin, hk⟩
    · cases hnil
    · rcases List.mem_cons.mp hk with rfl | hk
      · left
        refine List.mem_map.mpr ⟨(h, v), ?_, rfl⟩
        rw [Std.ExtTreeMap.mem_toList_iff_getElem?_eq_some, hwaiting]
        refine ⟨?_, txin, htxin, rfl⟩
        rw [hI.stored]
        exact hv
      · exact .inr ⟨txin, htxin, hk⟩
  obtain ⟨r', new, h, hw, hI'⟩ := hstart.retries hA (by
    intro v hv
    obtain ⟨⟨h, v'⟩, hmem, rfl⟩ := List.mem_map.mp hv
    rw [Std.ExtTreeMap.mem_toList_iff_getElem?_eq_some, hwaiting] at hmem
    rw [← hI.stored, hfiled.keyed h v' hmem.1]
    exact hmem.1)
  refine ⟨r', new, ?_, hI'⟩
  refine Lib.bind_eq_ok.mpr ⟨r', h, ?_⟩
  rw [show r'.vWorkQueue = r.vWorkQueue ++ new from hw, List.drop_left]
  rfl

/-- The loop comes to its end, and no orphan that is not in the pool is ready. -/
theorem resolveOrphans_resolves (hA : Arriving renv files node txs) {s₀ : RelayState φ}
    {hash : Uint256}
    (hI : Resolves renv files node txs s₀ [] [hash]
      { relay := s, vWorkQueue := [hash], vEraseQueue := [hash] }) :
    ∃ r', s.resolveOrphans renv files hash = .ok r' ∧
      Resolves renv files node txs s₀ [] [] r' := by
  refine Lib.drain_isOk (μ := unaccepted) _ ?_ hI ?_
  · intro k ks r hr
    obtain ⟨r', new, hv, hr'⟩ := hr.visit hA
    exact ⟨r', new, hv, hr', visitPrev_pays hr.serving.filed hv⟩
  · have := unaccepted_le (φ := φ) { relay := s, vWorkQueue := [hash], vEraseQueue := [hash] }
    rw [List.length_singleton]
    simp only at this
    omega

/-! ## One message -/

theorem getElem?_eraseOrphanTxs (hashes : List Uint256) (o : OrphanTxs) (h : Uint256) :
    (hashes.foldl OrphanTxs.eraseOrphanTx o).mapOrphanTransactions[h]?
      = if h ∈ hashes then none else o.mapOrphanTransactions[h]? := by
  induction hashes generalizing o with
  | nil => simp
  | cons hash hashes ih =>
      have hone : (o.eraseOrphanTx hash).mapOrphanTransactions[h]?
          = if h = hash then none else o.mapOrphanTransactions[h]? := by
        unfold OrphanTxs.eraseOrphanTx
        split
        · next hnone =>
          split
          · next heq => rw [heq, hnone]
          · rfl
        · exact Lib.getElem?_erase _ _ _
      rw [List.foldl_cons, ih, hone]
      grind

theorem filed_eraseOrphanTxs {env : Env} (hashes : List Uint256) {o : OrphanTxs}
    (h : o.Filed env) : (hashes.foldl OrphanTxs.eraseOrphanTx o).Filed env := by
  induction hashes generalizing o with
  | nil => exact h
  | cons hash hashes ih => exact ih (h.eraseOrphanTx hash)

/-- Between two messages: the transactions that have arrived are in the pool or among the orphans,
and no orphan is in the pool or has all its parents. -/
structure Quiet (renv : RelayEnv φ) (files : Files) (node : NodeState) (txs : Finset CTransaction)
    (seen : CTransaction → Prop) (s : RelayState φ) : Prop where
  serving : Serving renv files node txs s
  waits : ∀ (h : Uint256) (vMsg : CDataStream), s.orphans.mapOrphanTransactions[h]? = some vMsg →
    s.node.mempool.lookup h = none ∧ ¬ s.Ready renv files vMsg.tx
  seen : ∀ tx, seen tx → (s.node.mempool.lookup (renv.getHash tx)).isSome = true ∨
    renv.getHash tx ∈ s.orphans.mapOrphanTransactions

variable {seen : CTransaction → Prop}

theorem getElem?_addOrphanTx {o : OrphanTxs} (hsize : vMsg.size ≤ 5000) (h : Uint256) :
    (o.addOrphanTx renv.toEnv vMsg).mapOrphanTransactions[h]?
      = if h = renv.getHash vMsg.tx ∧ renv.getHash vMsg.tx ∉ o.mapOrphanTransactions then some vMsg
        else o.mapOrphanTransactions[h]? := by
  simp only [OrphanTxs.addOrphanTx]
  split
  · next hmem => rw [if_neg (fun hc => hc.2 hmem)]
  · next hnot =>
    rw [if_neg (by omega), Lib.getElem?_insert]
    simp [hnot]

theorem limitOrphanTxSize_of_le {o : OrphanTxs} {nMaxOrphans : Nat}
    (h : o.mapOrphanTransactions.size ≤ nMaxOrphans) (rand : Nat → Uint256) :
    o.limitOrphanTxSize nMaxOrphans rand = o := by
  unfold OrphanTxs.limitOrphanTxSize
  cases o.mapOrphanTransactions.size with
  | zero => rfl
  | succ n => rw [OrphanTxs.limitLoop, if_neg (by omega)]

/-- There are no more orphans than transactions. -/
theorem Serving.size_le (hs : Serving renv files node txs s) :
    s.orphans.mapOrphanTransactions.size ≤ txs.card := by
  have hkeys : s.orphans.mapOrphanTransactions.keys.toFinset ⊆ txs.image renv.getHash := by
    intro h hh
    rw [List.mem_toFinset, Std.ExtTreeMap.mem_keys] at hh
    obtain ⟨vMsg, hv⟩ : ∃ vMsg, s.orphans.mapOrphanTransactions[h]? = some vMsg :=
      ⟨_, Std.ExtTreeMap.getElem?_eq_some_getElem hh⟩
    rw [Finset.mem_image]
    exact ⟨vMsg.tx, hs.orphans h vMsg hv, hs.filed.keyed h vMsg hv⟩
  rw [← Std.ExtTreeMap.length_keys, ← List.toFinset_card_of_nodup Std.ExtTreeMap.nodup_keys]
  exact (Finset.card_le_card hkeys).trans Finset.card_image_le

/-- The message is accepted, and the orphans that follow it. -/
theorem Quiet.accept (hA : Arriving renv files node txs) (hs : Quiet renv files node txs seen s)
    (htx : vMsg.tx ∈ txs) (hs' : Serving renv files node txs s') (horphans : s'.orphans = s.orphans)
    (hpool : s'.node.mempool = s.node.mempool.addUnchecked renv.toEnv vMsg.tx) :
    ∃ r, s'.resolveOrphans renv files (renv.getHash vMsg.tx) = .ok r ∧
      Quiet renv files node txs (fun tx => seen tx ∨ tx = vMsg.tx)
        { r.relay with orphans := r.vEraseQueue.foldl OrphanTxs.eraseOrphanTx r.relay.orphans } := by
  have hin : (s'.node.mempool.lookup (renv.getHash vMsg.tx)).isSome = true := by
    rw [hpool, isSome_addUnchecked]
    exact .inl rfl
  have hstart : Resolves renv files node txs s' [] [renv.getHash vMsg.tx]
      { relay := s', vWorkQueue := [renv.getHash vMsg.tx],
        vEraseQueue := [renv.getHash vMsg.tx] } := by
    refine ⟨hs', rfl, ?_, fun _ h => h, ?_, ?_⟩
    · intro h v hv hready
      rw [horphans] at hv
      obtain ⟨-, hold | ⟨txin, htxin, heq⟩⟩ :=
        Ready.of_add hA hs.serving hs' htx hpool hready
      · exact absurd hold (hs.waits h v hv).2
      · exact .inr ⟨txin, htxin, List.mem_singleton.mpr heq⟩
    · intro h hh
      rw [List.mem_singleton.mp hh]
      exact hin
    · intro h hh hsome
      rw [horphans] at hh
      replace hsome : (s'.node.mempool.lookup h).isSome = true := hsome
      rw [hpool, isSome_addUnchecked] at hsome
      rcases hsome with heq | hsome
      · exact List.mem_singleton.mpr heq
      · rw [(hs.waits h _ (Std.ExtTreeMap.getElem?_eq_some_getElem hh)).1] at hsome
        exact Bool.noConfusion hsome
  obtain ⟨r, hr, hI⟩ := resolveOrphans_resolves hA hstart
  refine ⟨r, hr, ?_⟩
  -- what is left was stored before, and is not in the pool
  have hleft : ∀ (h : Uint256) (v : CDataStream), (r.vEraseQueue.foldl OrphanTxs.eraseOrphanTx
      r.relay.orphans).mapOrphanTransactions[h]? = some v →
      h ∉ r.vEraseQueue ∧ s'.orphans.mapOrphanTransactions[h]? = some v := by
    intro h v hv
    rw [getElem?_eraseOrphanTxs, hI.stored] at hv
    split at hv
    · cases hv
    · next hnot => exact ⟨hnot, hv⟩
  refine ⟨⟨hI.serving.node_eq, hI.serving.grown, hI.serving.wallets,
    filed_eraseOrphanTxs _ hI.serving.filed, ?_⟩, ?_, ?_⟩
  · intro h v hv
    exact hs'.orphans h v (hleft h v hv).2
  · intro h v hv
    obtain ⟨hnot, hstored⟩ := hleft h v hv
    refine ⟨?_, ?_⟩
    · show r.relay.node.mempool.lookup h = none
      by_contra hsome
      apply hnot
      refine hI.erased h ?_ (Option.isSome_iff_ne_none.mpr hsome)
      by_contra hno
      rw [Lib.getElem?_eq_none_iff.mpr hno] at hstored
      cases hstored
    · intro hready
      rcases hI.ready h v hstored hready with hnil | ⟨txin, -, hnil⟩ <;> cases hnil
  · intro tx hseen
    show (r.relay.node.mempool.lookup (renv.getHash tx)).isSome = true ∨ _
    have hkeep : ∀ h, h ∈ s'.orphans.mapOrphanTransactions →
        (r.relay.node.mempool.lookup h).isSome = true ∨
          h ∈ (r.vEraseQueue.foldl OrphanTxs.eraseOrphanTx r.relay.orphans).mapOrphanTransactions := by
      intro h hh
      by_cases hqueue : h ∈ r.vEraseQueue
      · exact .inl (hI.accepted h hqueue)
      · right
        rw [Std.ExtTreeMap.mem_iff_isSome_getElem?, getElem?_eraseOrphanTxs, if_neg hqueue, hI.stored,
          ← Std.ExtTreeMap.mem_iff_isSome_getElem?]
        exact hh
    rcases hseen with hold | rfl
    · rcases hs.seen tx hold with hsome | hmem
      · refine .inl (hI.keeps _ ?_)
        rw [hpool, isSome_addUnchecked]
        exact .inr hsome
      · exact hkeep _ (by rw [horphans]; exact hmem)
    · exact .inl (hI.keeps _ hin)

/-- The message is kept as an orphan. -/
theorem Quiet.orphan (hs : Quiet renv files node txs seen s) (htx : vMsg.tx ∈ txs)
    (hsize : vMsg.size ≤ 5000) (hnew : s.node.mempool.lookup (renv.getHash vMsg.tx) = none)
    (hnot : ¬ s.Ready renv files vMsg.tx) :
    Quiet renv files node txs (fun tx => seen tx ∨ tx = vMsg.tx)
      { s with orphans := s.orphans.addOrphanTx renv.toEnv vMsg } := by
  have hstored : ∀ h, (s.orphans.addOrphanTx renv.toEnv vMsg).mapOrphanTransactions[h]?
      = if h = renv.getHash vMsg.tx ∧ renv.getHash vMsg.tx ∉ s.orphans.mapOrphanTransactions then
          some vMsg
        else s.orphans.mapOrphanTransactions[h]? :=
    fun h => getElem?_addOrphanTx hsize h
  refine ⟨⟨hs.serving.node_eq, hs.serving.grown, hs.serving.wallets,
    hs.serving.filed.addOrphanTx vMsg, ?_⟩, ?_, ?_⟩
  · intro h v hv
    rw [hstored] at hv
    split at hv
    · cases hv
      exact htx
    · exact hs.serving.orphans h v hv
  · intro h v hv
    rw [hstored] at hv
    split at hv
    · next hc =>
      cases hv
      rw [hc.1]
      exact ⟨hnew, hnot⟩
    · exact hs.waits h v hv
  · intro tx hseen
    show _ ∨ renv.getHash tx ∈ (s.orphans.addOrphanTx renv.toEnv vMsg).mapOrphanTransactions
    rw [Std.ExtTreeMap.mem_iff_isSome_getElem?, hstored]
    split
    · exact .inr rfl
    · next hc =>
      rw [← Std.ExtTreeMap.mem_iff_isSome_getElem?]
      rcases hseen with hold | rfl
      · exact hs.seen tx hold
      · right
        by_contra hno
        exact hc ⟨rfl, hno⟩

/-- A message of one of the transactions, whatever comes of it. -/
theorem Quiet.processTx (hA : Arriving renv files node txs) (hs : Quiet renv files node txs seen s)
    (hcard : txs.card < MAX_ORPHAN_TRANSACTIONS) (htx : vMsg.tx ∈ txs) (hsize : vMsg.size ≤ 5000)
    (rand : Nat → Uint256) :
    Quiet renv files node txs (fun tx => seen tx ∨ tx = vMsg.tx)
      (Lib.final (s.processTx renv files rand vMsg)) := by
  unfold RelayState.processTx
  cases hs.serving.acceptTx_cases hA htx with
  | @inPool r hin hacc hmiss =>
      rw [hacc]
      simp only [hmiss, Bool.false_eq_true, if_false]
      refine ⟨hs.serving, hs.waits, ?_⟩
      intro tx hseen
      rcases hseen with hold | rfl
      · exact hs.seen tx hold
      · refine .inl ?_
        show (s.node.mempool.lookup _).isSome = true
        rw [hin]
        rfl
  | @accepted s' hready hacc hs' horphans hpool =>
      obtain ⟨r, hr, hquiet⟩ := hs.accept hA htx hs' horphans hpool
      rw [hacc]
      simp only [hr]
      exact hquiet
  | @missing r hnew hnot hacc hmiss =>
      rw [hacc]
      simp only [hmiss, if_true]
      have hquiet := hs.orphan htx hsize hnew hnot
      have hle := hquiet.serving.size_le
      rw [limitOrphanTxSize_of_le (hle.trans hcard.le)]
      exact hquiet

/-! ## All messages -/

theorem quiet_start (renv : RelayEnv φ) (files : Files) (node : NodeState) (free : φ)
    (txs : Finset CTransaction) :
    Quiet renv files node txs (fun _ => False) { node := node, free := free } := by
  have hnone : ∀ h : Uint256, (∅ : StreamMap)[h]? = none := fun h => Std.ExtTreeMap.getElem?_empty
  refine ⟨⟨rfl, Grown.refl _ _ _, ?_, OrphanTxs.filed_empty, ?_⟩, ?_, ?_⟩
  · exact fun w hw _ wtx hk => .inl ⟨w, hw, wtx, hk, rfl⟩
  · intro h vMsg hv
    rw [hnone] at hv
    cases hv
  · intro h vMsg hv
    rw [hnone] at hv
    cases hv
  · exact fun _ hseen => hseen.elim

theorem Quiet.run (hA : Arriving renv files node txs) (hcard : txs.card < MAX_ORPHAN_TRANSACTIONS)
    {msgs : List (CDataStream × (Nat → Uint256))}
    (hmsgs : ∀ m ∈ msgs, m.1.tx ∈ txs ∧ m.1.size ≤ 5000)
    (hs : Quiet renv files node txs seen s) :
    Quiet renv files node txs (fun tx => seen tx ∨ ∃ m ∈ msgs, m.1.tx = tx)
      (msgs.foldl (fun s m => Lib.final (s.processTx renv files m.2 m.1)) s) := by
  induction msgs generalizing s seen with
  | nil =>
      refine ⟨hs.serving, hs.waits, ?_⟩
      rintro tx (hold | ⟨m, hm, -⟩)
      · exact hs.seen tx hold
      · cases hm
  | cons m msgs ih =>
      obtain ⟨htx, hsize⟩ := hmsgs m List.mem_cons_self
      have hquiet := ih (fun m' hm' => hmsgs m' (List.mem_cons_of_mem _ hm'))
        (hs.processTx hA hcard htx hsize m.2)
      refine ⟨hquiet.serving, hquiet.waits, ?_⟩
      rintro tx (hold | ⟨m', hm', rfl⟩)
      · exact hquiet.seen tx (.inl (.inl hold))
      · rcases List.mem_cons.mp hm' with rfl | hm'
        · exact hquiet.seen _ (.inl (.inr rfl))
        · exact hquiet.seen _ (.inr ⟨m', hm', rfl⟩)

/-- Once all have arrived, all are in the pool, parents first. -/
theorem Quiet.all_in_pool (hA : Arriving renv files node txs)
    (hs : Quiet renv files node txs (· ∈ txs) s) {rank : CTransaction → Nat}
    (hrank : ∀ tx ∈ txs, ∀ tx' ∈ txs,
      (∃ txin ∈ tx.vin, txin.prevout.hash = renv.getHash tx') → rank tx' < rank tx) :
    ∀ tx ∈ txs, s.node.mempool.lookup (renv.getHash tx) = some tx := by
  intro tx
  induction hn : rank tx using Nat.strong_induction_on generalizing tx with
  | _ n ih =>
      intro htx
      rcases hs.seen tx htx with hsome | hmem
      · obtain ⟨tx', htx'⟩ := Option.isSome_iff_exists.mp hsome
        rw [htx', hA.lookup_hash hs.serving.grown htx htx']
      · exfalso
        -- an orphan whose parents are all in the pool would not be left
        have hv := Std.ExtTreeMap.getElem?_eq_some_getElem hmem
        obtain ⟨hnew, hnot⟩ := hs.waits _ _ hv
        have heq : (s.orphans.mapOrphanTransactions[renv.getHash tx]).tx = tx :=
          hA.one _ _ _ (.inr (.inr (.inr ⟨hs.serving.orphans _ _ hv,
            hs.serving.filed.keyed _ _ hv⟩))) (.inr (.inr (.inr ⟨htx, rfl⟩)))
        rw [heq] at hnot
        refine hnot ⟨hnew, ?_⟩
        rw [hs.serving.txIndex]
        refine hA.fetchable_of_parents hs.serving.grown htx ?_
        intro tx' htx' hparent
        exact ih (rank tx') (by rw [← hn]; exact hrank tx htx tx' htx' hparent) tx' rfl htx'

/-- Transactions that can all be accepted, parents first, arrive in messages, in any order and any
of them more than once: after the last message all of them are in the pool, and none of them is left
among the orphans. The parents of a transaction have a smaller `rank`, since its hash comes after
theirs. -/
theorem all_accepted_in_any_order (renv : RelayEnv φ) (files : Files) (node : NodeState) (free : φ)
    (txs : Finset CTransaction) (hA : Arriving renv files node txs)
    (hcard : txs.card < MAX_ORPHAN_TRANSACTIONS) (rank : CTransaction → Nat)
    (hrank : ∀ tx ∈ txs, ∀ tx' ∈ txs,
      (∃ txin ∈ tx.vin, txin.prevout.hash = renv.getHash tx') → rank tx' < rank tx)
    (msgs : List (CDataStream × (Nat → Uint256)))
    (hmsgs : ∀ m ∈ msgs, m.1.tx ∈ txs ∧ m.1.size ≤ 5000)
    (hall : ∀ tx ∈ txs, ∃ m ∈ msgs, m.1.tx = tx) :
    let s := msgs.foldl (fun s m => Lib.final (RelayState.processTx renv files m.2 m.1 s))
      { node := node, free := free }
    ∀ tx ∈ txs, s.node.mempool.lookup (renv.getHash tx) = some tx ∧
      renv.getHash tx ∉ s.orphans.mapOrphanTransactions := by
  intro s tx htx
  have hquiet := (quiet_start renv files node free txs).run hA hcard hmsgs
  have hin := Quiet.all_in_pool (s := s) hA
    ⟨hquiet.serving, hquiet.waits, fun tx htx => hquiet.seen tx (.inr (hall tx htx))⟩ hrank tx htx
  refine ⟨hin, ?_⟩
  intro hmem
  have hnone := (hquiet.waits _ _ (Std.ExtTreeMap.getElem?_eq_some_getElem hmem)).1
  rw [show (_ : Option CTransaction) = _ from hnone] at hin
  cases hin

end

end RelayState

/-! ### A child before its parent -/

/-- A transaction that spends the payment. -/
def spendMsg : CDataStream := relayTx 6 [⟨6, 0⟩] (COIN - 2 * CENT)

theorem arriving_spendMsg :
    Arriving plainRelay sampleFiles relayNode {paymentMsg.tx, spendMsg.tx} where
  one := by
    have hindex : ∀ h tx, KnownLoose plainRelay.toEnv sampleFiles relayNode
        {paymentMsg.tx, spendMsg.tx} h tx →
        (h = 2 ∧ sampleFiles.readTx ⟨1, 0, 150⟩ = some tx) ∨ (h = 6 ∧ tx = paymentMsg.tx) ∨
          (h = 7 ∧ tx = spendMsg.tx) := by
      rintro h tx (⟨w, hw, -⟩ | ⟨txindex, hidx, hread⟩ | hlookup | ⟨htx, hhash⟩)
      · cases hw
      · replace hidx : Lib.PMap.empty.set 2 (CTxIndex.new ⟨1, 0, 150⟩ 1) h = some txindex := hidx
        rw [Lib.PMap.set_apply] at hidx
        split at hidx
        · cases hidx
          left
          refine ⟨by assumption, ?_⟩
          rw [CTransaction.readTxPrev, if_neg (by decide)] at hread
          split at hread
          · cases hread
          · next heq =>
            cases hread
            exact heq
        · cases hidx
      · have hnone : ({} : CTxMemPool).lookup h = none := Std.ExtTreeMap.getElem?_empty
        rw [show relayNode.mempool = {} from rfl, hnone] at hlookup
        cases hlookup
      · rw [Finset.mem_insert, Finset.mem_singleton] at htx
        rcases htx with rfl | rfl
        · exact .inr (.inl ⟨hhash.symm, rfl⟩)
        · exact .inr (.inr ⟨hhash.symm, rfl⟩)
    intro h tx tx' htx htx'
    rcases hindex h tx htx with ⟨hh, heq⟩ | ⟨hh, heq⟩ | ⟨hh, heq⟩ <;>
    rcases hindex h tx' htx' with ⟨hh', heq'⟩ | ⟨hh', heq'⟩ | ⟨hh', heq'⟩ <;>
    first
    | omega
    | simp_all
  apart := by decide +kernel
  acceptable := by
    intro tx htx
    rw [Finset.mem_insert, Finset.mem_singleton] at htx
    rcases htx with rfl | rfl
    · have hok : (relayNode.checkAccept plainRelay sampleFiles () paymentMsg.tx true).2.isOk = true := by
        decide +kernel
      obtain ⟨u, hu⟩ := Lib.exists_of_isOk hok
      exact ⟨[], by simp, (), (), Prod.ext rfl hu⟩
    · have hok : (({ relayNode with
          mempool := relayNode.mempool.addUnchecked plainRelay.toEnv paymentMsg.tx } :
            NodeState).checkAccept plainRelay sampleFiles () spendMsg.tx true).2.isOk = true := by
        decide +kernel
      obtain ⟨u, hu⟩ := Lib.exists_of_isOk hok
      exact ⟨[paymentMsg.tx], by simp, (), (), Prod.ext rfl hu⟩

theorem all_accepted_in_any_order_spendMsg :
    let s := [(spendMsg, fun _ => 0), (paymentMsg, fun _ => 0)].foldl
      (fun s m => Lib.final (RelayState.processTx plainRelay sampleFiles m.2 m.1 s))
      { node := relayNode, free := () }
    s.node.mempool.lookup 7 = some spendMsg.tx ∧ 7 ∉ s.orphans.mapOrphanTransactions :=
  RelayState.all_accepted_in_any_order plainRelay sampleFiles relayNode () {paymentMsg.tx, spendMsg.tx}
    arriving_spendMsg (by decide) CTransaction.nTime (by decide +kernel)
    [(spendMsg, fun _ => 0), (paymentMsg, fun _ => 0)] (by decide +kernel) (by decide +kernel)
    spendMsg.tx (by simp)

end ShinyCoin

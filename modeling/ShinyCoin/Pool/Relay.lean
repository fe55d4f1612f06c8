import ShinyCoin.Pool.Accept
import ShinyCoin.Pool.Orphans
import ShinyCoin.Chain.Money
import ShinyCoin.Lib.Worklist

/-!
# The `tx` message

A transaction a peer sends is accepted, kept as an orphan, or dropped. When it is accepted, the
orphans that spend it are tried again, then those that spend an orphan that was accepted, and so on;
what was accepted or turned out invalid is erased from the orphans at the end. An exception, from
`AcceptToMemoryPool` or from a wallet, leaves the handler where it is.

Relaying, inventories and misbehaviour points are left out.
-/

namespace ShinyCoin

/-! ## The handler -/

/-- `AddToWalletIfInvolvingMe(tx, NULL, true)` -/
def CWallet.addLooseIfInvolvingMe (env : Env) (w : CWallet) (tx : CTransaction) :
    Except (Err × CWallet) CWallet :=
  if (w.mapWallet (env.getHash tx)).isSome || w.isMineTx tx then w.addToWallet env { tx := tx }
  else
    match w.isFromMe tx with
    | .error e => .error (e, w)
    | .ok true => w.addToWallet env { tx := tx }
    | .ok false => w.walletUpdateSpent tx

/-- `SyncWithWallets(tx, NULL, true)` -/
def syncLoose (env : Env) (tx : CTransaction) (ws : List CWallet) :
    Except (Err × List CWallet) (List CWallet) :=
  dispatchWallets (fun w => w.addLooseIfInvolvingMe env tx) ws

/-- A node with its orphans and its rate limiter. -/
structure RelayState (φ : Type) where
  node : NodeState
  orphans : OrphanTxs := {}
  free : φ

/-- The locals of the loop over the orphans. -/
structure Resolving (φ : Type) where
  relay : RelayState φ
  vWorkQueue : List Uint256
  vEraseQueue : List Uint256

section

variable {φ : Type}

namespace RelayState

/-- `AcceptToMemoryPool`, and `SyncWithWallets` for a transaction that was accepted. A rejection is
returned, an exception is an error. -/
def acceptTx (renv : RelayEnv φ) (files : Files) (s : RelayState φ) (tx : CTransaction) :
    Except (Err × RelayState φ) (RelayState φ × Option Rejection) :=
  match s.node.acceptToMemoryPool renv files s.free tx true with
  | (free, .error { err := .exc what, .. }) => .error (.exc what, { s with free := free })
  | (free, .error r) => .ok ({ s with free := free }, some r)
  | (free, .ok node) =>
      match syncLoose renv.toEnv tx node.wallets with
      | .error (e, ws) => .error (e, { s with node := { node with wallets := ws }, free := free })
      | .ok ws => .ok ({ s with node := { node with wallets := ws }, free := free }, none)

/-- One orphan is tried again. -/
def retryOrphan (renv : RelayEnv φ) (files : Files) (r : Resolving φ) (vMsg : CDataStream) :
    Except (Err × Resolving φ) (Resolving φ) :=
  let hash := renv.getHash vMsg.tx
  match r.relay.acceptTx renv files vMsg.tx with
  | .error (e, s) => .error (e, { r with relay := s })
  | .ok (s, none) =>
      .ok { relay := s
            vWorkQueue := r.vWorkQueue ++ [hash]
            vEraseQueue := r.vEraseQueue ++ [hash] }
  | .ok (s, some rejection) =>
      -- an orphan that still misses inputs stays, any other is invalid
      .ok { r with
        relay := s
        vEraseQueue := if rejection.fMissingInputs then r.vEraseQueue else r.vEraseQueue ++ [hash] }

/-- One round of the loop over `vWorkQueue`: the orphans under `hashPrev`, in the order of their
hashes. -/
def visitPrev (renv : RelayEnv φ) (files : Files) (r : Resolving φ) (hashPrev : Uint256) :
    Except (Err × Resolving φ) (Resolving φ × List Uint256) := do
  let orphans := r.relay.orphans.touch hashPrev
  let vMsgs := (OrphanTxs.waiting orphans.mapOrphanTransactionsByPrev hashPrev).toList.map Prod.snd
  let r' ← vMsgs.foldlM (retryOrphan renv files) { r with relay := { r.relay with orphans := orphans } }
  return (r', r'.vWorkQueue.drop r.vWorkQueue.length)

/-- `Recursively process any orphan transactions that depended on this one`. -/
def resolveOrphans (renv : RelayEnv φ) (files : Files) (s : RelayState φ) (hash : Uint256) :
    Except (Err × Resolving φ) (Resolving φ) :=
  Lib.drain (visitPrev renv files) (s.orphans.mapOrphanTransactions.size + 1) [hash]
    { relay := s, vWorkQueue := [hash], vEraseQueue := [hash] }

/-- `ProcessMessage` for `tx`. The random hashes are for `LimitOrphanTxSize`. -/
def processTx (renv : RelayEnv φ) (files : Files) (rand : Nat → Uint256) (vMsg : CDataStream) :
    Lib.Call Err (RelayState φ) := fun s =>
  match s.acceptTx renv files vMsg.tx with
  | .error e => .error e
  | .ok (s, none) =>
      match s.resolveOrphans renv files (renv.getHash vMsg.tx) with
      | .error (e, r) => .error (e, r.relay)
      | .ok r =>
          .ok { r.relay with orphans := r.vEraseQueue.foldl OrphanTxs.eraseOrphanTx r.relay.orphans }
  | .ok (s, some rejection) =>
      if rejection.fMissingInputs then
        .ok { s with orphans :=
          (s.orphans.addOrphanTx renv.toEnv vMsg).limitOrphanTxSize MAX_ORPHAN_TRANSACTIONS rand }
      else .ok s

/-- What `vWorkQueue` holds when the handler is done: the transactions the message brings into the
pool, its own and the orphans that follow it. -/
def workQueue (renv : RelayEnv φ) (files : Files) (vMsg : CDataStream) (s : RelayState φ) :
    List Uint256 :=
  match s.acceptTx renv files vMsg.tx with
  | .ok (s, none) => (Lib.final (s.resolveOrphans renv files (renv.getHash vMsg.tx))).vWorkQueue
  | _ => []

/-! ## What the handler does to the orphans -/

variable {renv : RelayEnv φ} {files : Files} {s s' : RelayState φ} {tx : CTransaction}

/-- Accepting a transaction leaves the orphans alone. -/
theorem acceptTx_orphans :
    (∀ x, s.acceptTx renv files tx = .ok x → x.1.orphans = s.orphans) ∧
      ∀ e, s.acceptTx renv files tx = .error e → e.2.orphans = s.orphans := by
  unfold acceptTx
  constructor
  · intro x h
    split at h
    · cases h
    · cases h; rfl
    · split at h
      · cases h
      · cases h; rfl
  · intro e h
    split at h
    · cases h; rfl
    · cases h
    · split at h
      · cases h; rfl
      · cases h

theorem retryOrphan_ok {r r' : Resolving φ} {vMsg : CDataStream}
    (h : retryOrphan renv files r vMsg = .ok r') :
    r'.relay.orphans = r.relay.orphans ∧ ∃ new, r'.vWorkQueue = r.vWorkQueue ++ new := by
  simp only [retryOrphan] at h
  split at h
  · cases h
  · next s hs =>
    cases h
    exact ⟨acceptTx_orphans.1 _ hs, _, rfl⟩
  · next s rejection hs =>
    cases h
    exact ⟨acceptTx_orphans.1 _ hs, [], by simp⟩

theorem retryOrphan_error {r : Resolving φ} {vMsg : CDataStream} {e : Err × Resolving φ}
    (h : retryOrphan renv files r vMsg = .error e) :
    e.2.relay.orphans = r.relay.orphans ∧ e.2.vWorkQueue = r.vWorkQueue := by
  simp only [retryOrphan] at h
  split at h
  · next e' s hs =>
    cases h
    exact ⟨acceptTx_orphans.2 _ hs, rfl⟩
  · cases h
  · cases h

/-- What a round keeps of the loop's state: the orphans, and `vWorkQueue` as a beginning of what it
becomes. -/
def Follows (r r' : Resolving φ) : Prop :=
  r'.relay.orphans = r.relay.orphans ∧ ∃ new, r'.vWorkQueue = r.vWorkQueue ++ new

theorem Follows.refl (r : Resolving φ) : Follows r r := ⟨rfl, [], by simp⟩

theorem Follows.trans {r r' r'' : Resolving φ} (h : Follows r r') (h' : Follows r' r'') :
    Follows r r'' := by
  obtain ⟨ho, new, hw⟩ := h
  obtain ⟨ho', new', hw'⟩ := h'
  exact ⟨ho'.trans ho, new ++ new', by rw [hw', hw, List.append_assoc]⟩

theorem retryOrphans_ok {vMsgs : List CDataStream} {r r' : Resolving φ}
    (h : vMsgs.foldlM (retryOrphan renv files) r = .ok r') : Follows r r' :=
  Lib.foldlM_ok_inv (fun _ x => Follows r x)
    (fun _ _ _ _ hI hstep => hI.trans (retryOrphan_ok hstep)) (Follows.refl r) h

theorem retryOrphans_error {vMsgs : List CDataStream} {r : Resolving φ} {e : Err × Resolving φ}
    (h : vMsgs.foldlM (retryOrphan renv files) r = .error e) : Follows r e.2 := by
  obtain ⟨vMsg, _, x, hx, he⟩ := Lib.foldlM_error_inv (fun _ x => Follows r x)
    (fun _ _ _ _ hI hstep => hI.trans (retryOrphan_ok hstep)) (Follows.refl r) h
  obtain ⟨ho, hw⟩ := retryOrphan_error he
  exact hx.trans ⟨ho, [], by simpa using hw⟩

theorem visitPrev_ok {r r' : Resolving φ} {hashPrev : Uint256} {new : List Uint256}
    (h : visitPrev renv files r hashPrev = .ok (r', new)) :
    r'.relay.orphans = r.relay.orphans.touch hashPrev ∧ r'.vWorkQueue = r.vWorkQueue ++ new := by
  unfold visitPrev at h
  obtain ⟨r₁, h₁, h⟩ := Lib.bind_eq_ok.mp h
  cases h
  obtain ⟨ho, new, hw⟩ := retryOrphans_ok h₁
  refine ⟨ho, ?_⟩
  rw [hw]
  simp

theorem visitPrev_error {r : Resolving φ} {hashPrev : Uint256} {e : Err × Resolving φ}
    (h : visitPrev renv files r hashPrev = .error e) :
    e.2.relay.orphans = r.relay.orphans.touch hashPrev ∧
      ∃ new, e.2.vWorkQueue = r.vWorkQueue ++ new := by
  unfold visitPrev at h
  rcases Lib.bind_eq_error.mp h with h | ⟨r₁, -, h⟩
  · exact retryOrphans_error h
  · cases h

/-! ## The maps during the loop -/

/-- Of the loop over `vWorkQueue`, started with the orphans `o`: the orphans stay, the maps stay
filed, the keys that wait were pushed, and a key without an entry comes from a key that was pushed
and that no orphan waits for. -/
structure LoopFiled (renv : RelayEnv φ) (o : OrphanTxs) (ks : List Uint256) (r : Resolving φ) :
    Prop where
  stored : r.relay.orphans.mapOrphanTransactions = o.mapOrphanTransactions
  filed : r.relay.orphans.Filed renv.toEnv
  pushed : ∀ k ∈ ks, k ∈ r.vWorkQueue
  noEmpty : o.NoEmpty → (∀ k ∈ r.vWorkQueue, ∃ hash vMsg, o.Waits k hash vMsg) →
    r.relay.orphans.NoEmpty

/-- Looking under a key that was pushed keeps all that, whatever the queue becomes. -/
theorem LoopFiled.visit {o : OrphanTxs} {k : Uint256} {ks : List Uint256} {r r' : Resolving φ}
    {new : List Uint256} (hI : LoopFiled renv o (k :: ks) r)
    (ho : r'.relay.orphans = r.relay.orphans.touch k) (hw : r'.vWorkQueue = r.vWorkQueue ++ new) :
    LoopFiled renv o (ks ++ new) r' := by
  refine ⟨?_, ?_, ?_, ?_⟩
  · rw [ho]
    exact hI.stored
  · rw [ho]
    exact hI.filed.touch k
  · intro k' hk'
    rw [hw]
    rcases List.mem_append.mp hk' with hk' | hk'
    · exact List.mem_append_left _ (hI.pushed k' (List.mem_cons_of_mem _ hk'))
    · exact List.mem_append_right _ hk'
  · intro hne hwaits
    rw [ho]
    have hold : ∀ k ∈ r.vWorkQueue, ∃ hash vMsg, o.Waits k hash vMsg := by
      intro k' hk'
      apply hwaits
      rw [hw]
      exact List.mem_append_left _ hk'
    apply (hI.noEmpty hne hold).touch
    -- somebody waits for `k`, so there is an entry under it
    obtain ⟨hash, vMsg, hW⟩ := hold k (hI.pushed k List.mem_cons_self)
    have hW' : r.relay.orphans.Waits k hash vMsg := by
      unfold OrphanTxs.Waits
      rw [hI.stored]
      exact hW
    intro hempty
    have := (hI.filed.waits k hash vMsg).mpr hW'
    rw [hempty, Std.ExtTreeMap.getElem?_empty] at this
    cases this

theorem loopFiled_start {hash : Uint256} (hs : s.orphans.Filed renv.toEnv) :
    LoopFiled renv s.orphans [hash]
      { relay := s, vWorkQueue := [hash], vEraseQueue := [hash] } :=
  ⟨rfl, hs, fun _ hk => hk, fun hne _ => hne⟩

/-! ## The loop ends -/

/-- An accepted transaction was not in the pool, and is what was added to it. -/
theorem acceptTx_none (h : s.acceptTx renv files tx = .ok (s', none)) :
    s.node.mempool.lookup (renv.getHash tx) = none ∧
      s'.node.mempool = s.node.mempool.addUnchecked renv.toEnv tx := by
  unfold acceptTx at h
  split at h
  · cases h
  · cases h
  · next free node hacc =>
    obtain ⟨hc, rfl⟩ := NodeState.acceptToMemoryPool_ok hacc
    have hknown := NodeState.checkKnown_ok (NodeState.checkAccept_known hc)
    split at h
    · cases h
    · cases h
      exact ⟨hknown.2.2.2.1, rfl⟩

theorem acceptTx_some {rejection : Rejection}
    (h : s.acceptTx renv files tx = .ok (s', some rejection)) : s'.node = s.node := by
  unfold acceptTx at h
  split at h
  · cases h
  · cases h; rfl
  · split at h <;> cases h

/-- The orphans that are not in the pool yet. -/
def unaccepted (r : Resolving φ) : Nat :=
  r.relay.orphans.mapOrphanTransactions.toList.countP fun e =>
    (r.relay.node.mempool.lookup e.1).isNone

/-- A retry that pushes its orphan takes it from those that are not in the pool. -/
theorem retryOrphan_pays {r r' : Resolving φ} {vMsg : CDataStream}
    (hstored : r.relay.orphans.mapOrphanTransactions[renv.getHash vMsg.tx]? = some vMsg)
    (h : retryOrphan renv files r vMsg = .ok r') :
    unaccepted r' + r'.vWorkQueue.length ≤ unaccepted r + r.vWorkQueue.length := by
  simp only [retryOrphan] at h
  split at h
  · cases h
  · next s hs =>
    cases h
    obtain ⟨hnone, hpool⟩ := acceptTx_none hs
    have hfewer : unaccepted (φ := φ) ⟨s, [], []⟩ + 1 ≤ unaccepted r := by
      unfold unaccepted
      show List.countP (fun e => (s.node.mempool.lookup e.1).isNone)
        s.orphans.mapOrphanTransactions.toList + 1 ≤ _
      rw [acceptTx_orphans.1 _ hs]
      apply Lib.countP_succ_le (a := (renv.getHash vMsg.tx, vMsg))
      · exact Std.ExtTreeMap.mem_toList_iff_getElem?_eq_some.mpr hstored
      · rw [hnone]
        rfl
      · rw [hpool, CTxMemPool.lookup_addUnchecked, if_pos rfl]
        rfl
      · intro e _ he
        rw [hpool, CTxMemPool.lookup_addUnchecked] at he
        split at he
        · exact Bool.noConfusion he
        · exact he
    have hsame : unaccepted (φ := φ) ⟨s, r.vWorkQueue ++ [renv.getHash vMsg.tx],
      r.vEraseQueue ++ [renv.getHash vMsg.tx]⟩ = unaccepted (φ := φ) ⟨s, [], []⟩ := rfl
    rw [hsame, List.length_append, List.length_singleton]
    omega
  · next s rejection hs =>
    cases h
    have hsame : s.node = r.relay.node ∧ s.orphans = r.relay.orphans :=
      ⟨acceptTx_some hs, acceptTx_orphans.1 _ hs⟩
    unfold unaccepted
    simp only [hsame.1, hsame.2]
    exact le_rfl

theorem retryOrphans_pays {vMsgs : List CDataStream} {r r' : Resolving φ}
    (hstored : ∀ vMsg ∈ vMsgs,
      r.relay.orphans.mapOrphanTransactions[renv.getHash vMsg.tx]? = some vMsg)
    (h : vMsgs.foldlM (retryOrphan renv files) r = .ok r') :
    unaccepted r' + r'.vWorkQueue.length ≤ unaccepted r + r.vWorkQueue.length := by
  refine (Lib.foldlM_ok_inv (fun rest x => (∀ vMsg ∈ rest,
      x.relay.orphans.mapOrphanTransactions[renv.getHash vMsg.tx]? = some vMsg) ∧
      unaccepted x + x.vWorkQueue.length ≤ unaccepted r + r.vWorkQueue.length) ?_
    ⟨hstored, le_rfl⟩ h).2
  rintro vMsg rest x x' ⟨hrest, hle⟩ hstep
  refine ⟨?_, (retryOrphan_pays (hrest vMsg List.mem_cons_self) hstep).trans hle⟩
  intro vMsg' hmem
  rw [(retryOrphan_ok hstep).1]
  exact hrest vMsg' (List.mem_cons_of_mem _ hmem)

/-- A round pays for what it pushes: what it looks at are stored orphans. -/
theorem visitPrev_pays {r r' : Resolving φ} {k : Uint256} {new : List Uint256}
    (hfiled : r.relay.orphans.Filed renv.toEnv) (h : visitPrev renv files r k = .ok (r', new)) :
    unaccepted r' + new.length ≤ unaccepted r := by
  have hw := (visitPrev_ok h).2
  unfold visitPrev at h
  obtain ⟨r₁, h₁, h⟩ := Lib.bind_eq_ok.mp h
  cases h
  have hpays := retryOrphans_pays (by
    intro vMsg hvMsg
    obtain ⟨⟨hash, v⟩, hmem, rfl⟩ := List.mem_map.mp hvMsg
    rw [Std.ExtTreeMap.mem_toList_iff_getElem?_eq_some] at hmem
    have hstored := ((hfiled.touch k).waits k hash v |>.mp hmem).1
    show r.relay.orphans.mapOrphanTransactions[renv.getHash v.tx]? = some v
    rw [hfiled.keyed hash v hstored]
    exact hstored) h₁
  have hsame : unaccepted ({ r with relay := { r.relay with
    orphans := r.relay.orphans.touch k } } : Resolving φ) = unaccepted r := rfl
  have hlen := congrArg List.length hw
  rw [List.length_append] at hlen
  rw [hsame] at hpays
  simp only at hpays
  omega

theorem LoopFiled.step {o : OrphanTxs} (k : Uint256) (ks : List Uint256) (r r' : Resolving φ)
    (new : List Uint256) (hI : LoopFiled renv o (k :: ks) r)
    (hv : visitPrev renv files r k = .ok (r', new)) :
    LoopFiled renv o (ks ++ new) r' ∧ unaccepted r' + new.length ≤ unaccepted r := by
  obtain ⟨ho, hw⟩ := visitPrev_ok hv
  exact ⟨hI.visit ho hw, visitPrev_pays hI.filed hv⟩

theorem unaccepted_le (r : Resolving φ) :
    unaccepted r ≤ r.relay.orphans.mapOrphanTransactions.size := by
  rw [← Std.ExtTreeMap.length_toList]
  exact List.countP_le_length

/-- The bound on the rounds of `resolveOrphans` is no restriction. -/
theorem resolveOrphans_add {hash : Uint256} (hs : s.orphans.Filed renv.toEnv) (more : Nat) :
    Lib.drain (visitPrev renv files) (s.orphans.mapOrphanTransactions.size + 1 + more) [hash]
        { relay := s, vWorkQueue := [hash], vEraseQueue := [hash] }
      = s.resolveOrphans renv files hash := by
  refine Lib.drain_add (μ := unaccepted) (I := fun r => r.relay.orphans.Filed renv.toEnv) ?_ hs ?_
    more
  · intro k r r' new hf hv
    refine ⟨?_, visitPrev_pays hf hv⟩
    show r'.relay.orphans.Filed renv.toEnv
    rw [(visitPrev_ok hv).1]
    exact hf.touch k
  · have := unaccepted_le (φ := φ) { relay := s, vWorkQueue := [hash], vEraseQueue := [hash] }
    rw [List.length_singleton]
    show _ ≤ s.orphans.mapOrphanTransactions.size + 1
    simp only at this
    omega

/-- At the end of the loop, and wherever an exception leaves it. -/
theorem resolveOrphans_filed {hash : Uint256} (hs : s.orphans.Filed renv.toEnv) :
    ∃ ks, LoopFiled renv s.orphans ks (Lib.final (s.resolveOrphans renv files hash)) := by
  cases h : s.resolveOrphans renv files hash with
  | ok r' =>
      refine ⟨[], Lib.drain_ok_inv (μ := unaccepted) _ LoopFiled.step (loopFiled_start hs) ?_ h⟩
      have := unaccepted_le (φ := φ) { relay := s, vWorkQueue := [hash], vEraseQueue := [hash] }
      rw [List.length_singleton]
      simp only at this
      omega
  | error e =>
      obtain ⟨k, ks, r, hI, he⟩ := Lib.drain_error_inv _
        (fun k ks r r' new hI hv => (LoopFiled.step k ks r r' new hI hv).1) (loopFiled_start hs) h
      obtain ⟨ho, new, hw⟩ := visitPrev_error he
      exact ⟨_, hI.visit ho hw⟩

/-! ## Every run -/

/-- After a message the maps are filed, and have no key without an entry if an orphan waited for
every transaction the message brought into the pool. -/
theorem processTx_filed {rand : Nat → Uint256} {vMsg : CDataStream}
    (hs : s.orphans.Filed renv.toEnv) :
    (Lib.final (s.processTx renv files rand vMsg)).orphans.Filed renv.toEnv ∧
      (s.orphans.NoEmpty →
        (∀ k ∈ s.workQueue renv files vMsg, ∃ hash v, s.orphans.Waits k hash v) →
        (Lib.final (s.processTx renv files rand vMsg)).orphans.NoEmpty) := by
  unfold processTx workQueue
  cases hacc : s.acceptTx renv files vMsg.tx with
  | error e =>
      show e.2.orphans.Filed renv.toEnv ∧ (_ → _ → e.2.orphans.NoEmpty)
      rw [acceptTx_orphans.2 _ hacc]
      exact ⟨hs, fun hne _ => hne⟩
  | ok x =>
      obtain ⟨s₁, rejection⟩ := x
      have ho : s₁.orphans = s.orphans := acceptTx_orphans.1 _ hacc
      cases rejection with
      | none =>
          have hloop : ∃ ks, LoopFiled renv s₁.orphans ks
              (Lib.final (s₁.resolveOrphans renv files (renv.getHash vMsg.tx))) := by
            apply resolveOrphans_filed
            rw [ho]
            exact hs
          obtain ⟨ks, hL⟩ := hloop
          simp only
          cases hres : s₁.resolveOrphans renv files (renv.getHash vMsg.tx) with
          | error e =>
              rw [hres] at hL
              simp only [Lib.final] at hL ⊢
              refine ⟨hL.filed, fun hne hwaits => hL.noEmpty (by rw [ho]; exact hne) ?_⟩
              rw [ho]
              exact hwaits
          | ok r =>
              rw [hres] at hL
              simp only [Lib.final] at hL ⊢
              -- erasing what was accepted or is invalid keeps both
              have herase : ∀ (I : OrphanTxs → Prop), (∀ o hash, I o → I (o.eraseOrphanTx hash)) →
                  ∀ (hashes : List Uint256) (o : OrphanTxs), I o →
                    I (hashes.foldl OrphanTxs.eraseOrphanTx o) := by
                intro I hI hashes
                induction hashes with
                | nil => exact fun o h => h
                | cons hash hashes ih => exact fun o h => ih _ (hI o hash h)
              refine ⟨herase _ (fun o hash h => h.eraseOrphanTx hash) _ _ hL.filed, ?_⟩
              intro hne hwaits
              apply herase _ (fun o hash h => h.eraseOrphanTx hash)
              refine hL.noEmpty (by rw [ho]; exact hne) ?_
              rw [ho]
              exact hwaits
      | some rejection =>
          simp only
          split
          · simp only [Lib.final, ho]
            refine ⟨?_, fun hne _ => ?_⟩
            · exact OrphanTxs.limitOrphanTxSize_inv _ (fun o hash h => h.eraseOrphanTx hash) _ _
                (hs.addOrphanTx vMsg)
            · exact OrphanTxs.limitOrphanTxSize_inv _ (fun o hash h => h.eraseOrphanTx hash) _ _
                (hne.addOrphanTx vMsg)
          · simp only [Lib.final, ho]
            exact ⟨hs, fun hne _ => hne⟩

end RelayState

/-- What can happen to the orphans. Between two calls the rest of the node may have become
anything. -/
inductive OrphanOp (φ : Type) where
  | tx (files : Files) (rand : Nat → Uint256) (vMsg : CDataStream)
  | addOrphanTx (vMsg : CDataStream)
  | eraseOrphanTx (hash : Uint256)
  | limitOrphanTxSize (nMaxOrphans : Nat) (rand : Nat → Uint256)
  | other (node : NodeState) (free : φ)

namespace RelayState

/-- The state an operation leaves, whether or not an exception ended it. -/
def exec (renv : RelayEnv φ) (s : RelayState φ) : OrphanOp φ → RelayState φ
  | .tx files rand vMsg => Lib.final (s.processTx renv files rand vMsg)
  | .addOrphanTx vMsg => { s with orphans := s.orphans.addOrphanTx renv.toEnv vMsg }
  | .eraseOrphanTx hash => { s with orphans := s.orphans.eraseOrphanTx hash }
  | .limitOrphanTxSize nMaxOrphans rand =>
      { s with orphans := s.orphans.limitOrphanTxSize nMaxOrphans rand }
  | .other node free => { s with node := node, free := free }

/-- A stored orphan waits for every transaction a message brings into the pool. -/
def AllWaitedFor (renv : RelayEnv φ) (s : RelayState φ) : OrphanOp φ → Prop
  | .tx files _ vMsg => ∀ k ∈ s.workQueue renv files vMsg, ∃ hash v, s.orphans.Waits k hash v
  | _ => True

/-- That holds of every step of the run. -/
def AlwaysWaitedFor (renv : RelayEnv φ) : RelayState φ → List (OrphanOp φ) → Prop
  | _, [] => True
  | s, op :: ops => s.AllWaitedFor renv op ∧ AlwaysWaitedFor renv (s.exec renv op) ops

variable {renv : RelayEnv φ} {s : RelayState φ}

theorem exec_filed (hs : s.orphans.Filed renv.toEnv) (op : OrphanOp φ) :
    (s.exec renv op).orphans.Filed renv.toEnv ∧
      (s.orphans.NoEmpty → s.AllWaitedFor renv op → (s.exec renv op).orphans.NoEmpty) := by
  cases op with
  | tx files rand vMsg => exact processTx_filed hs
  | addOrphanTx vMsg => exact ⟨hs.addOrphanTx vMsg, fun hne _ => hne.addOrphanTx vMsg⟩
  | eraseOrphanTx hash => exact ⟨hs.eraseOrphanTx hash, fun hne _ => hne.eraseOrphanTx hash⟩
  | limitOrphanTxSize nMaxOrphans rand =>
      exact ⟨OrphanTxs.limitOrphanTxSize_inv _ (fun o hash h => h.eraseOrphanTx hash) _ _ hs,
        fun hne _ => OrphanTxs.limitOrphanTxSize_inv _ (fun o hash h => h.eraseOrphanTx hash) _ _ hne⟩
  | other node free => exact ⟨hs, fun hne _ => hne⟩

theorem agree_run (ops : List (OrphanOp φ)) (hs : s.orphans.Filed renv.toEnv)
    (hne : s.orphans.NoEmpty) (h : AlwaysWaitedFor renv s ops) :
    (ops.foldl (exec renv) s).orphans.Agree renv.toEnv := by
  induction ops generalizing s with
  | nil => exact OrphanTxs.agree_iff.mpr ⟨hs, hne⟩
  | cons op ops ih =>
      obtain ⟨hs', hne'⟩ := exec_filed hs op
      exact ih hs' (hne' hne h.1) h.2

/-- In a run that starts without orphans and in which a stored orphan waits for every transaction a
message brings into the pool, the maps agree exactly after every step; so there is no key left when
there is no orphan left. `LimitOrphanTxSize` ends with at most as many orphans as it is given. -/
theorem orphan_maps_agree (renv : RelayEnv φ) (node : NodeState) (free : φ)
    (ops : List (OrphanOp φ)) (h : AlwaysWaitedFor renv { node := node, free := free } ops) :
    let s := ops.foldl (exec renv) { node := node, free := free }
    s.orphans.Agree renv.toEnv ∧
      (s.orphans.mapOrphanTransactions = ∅ → ∀ p, s.orphans.mapOrphanTransactionsByPrev p = none) ∧
      ∀ nMaxOrphans rand,
        (s.orphans.limitOrphanTxSize nMaxOrphans rand).mapOrphanTransactions.size ≤ nMaxOrphans ∧
        ∀ more, OrphanTxs.limitLoop nMaxOrphans (s.orphans.mapOrphanTransactions.size + more) rand
          s.orphans = s.orphans.limitOrphanTxSize nMaxOrphans rand := by
  intro s
  have hagree : s.orphans.Agree renv.toEnv :=
    agree_run ops OrphanTxs.filed_empty OrphanTxs.noEmpty_empty h
  refine ⟨hagree, ?_, ?_⟩
  · intro hempty p
    cases hp : s.orphans.mapOrphanTransactionsByPrev p with
    | none => rfl
    | some left =>
        obtain ⟨hash, vMsg, hW⟩ := (hagree.2.1 p).mp (by rw [hp]; rfl)
        unfold OrphanTxs.Waits at hW
        rw [hempty, Std.ExtTreeMap.getElem?_empty] at hW
        cases hW.1
  · intro nMaxOrphans rand
    exact OrphanTxs.limitLoop_spec nMaxOrphans le_rfl

end RelayState

end

/-! ### An orphan that waits, and a key nobody waits for -/

def plainRelay : RelayEnv Unit :=
  { Env.plain with
    isInputStandard := fun _ _ _ => true
    decayFree := id
    overLimit := fun _ => false
    chargeFree := fun _ _ => () }

/-- A node that has one unspent payment in its index. -/
def relayNode : NodeState :=
  { txdb := { data := { txIndex := Lib.PMap.empty.set 2 (CTxIndex.new ⟨1, 0, 150⟩ 1) } } }

/-- A transaction with the hash `nTime + 1`. -/
def relayTx (nTime : Nat) (prevouts : List COutPoint) (nValue : ℤ) : CDataStream where
  tx :=
    { nTime := nTime
      vin := prevouts.map fun prevout => { prevout := prevout }
      vout := [{ nValue := nValue, scriptPubKey := [2] }] }

/-- A payment that can be accepted. -/
def paymentMsg : CDataStream := relayTx 5 [⟨2, 0⟩] (COIN - CENT)

/-- A transaction that spends it, and one that nobody knows. -/
def childMsg : CDataStream := relayTx 6 [⟨6, 0⟩, ⟨9, 0⟩] CENT

namespace RelayState

theorem orphan_maps_agree_paymentMsg :
    (([.tx sampleFiles (fun _ => 0) childMsg, .tx sampleFiles (fun _ => 0) paymentMsg] :
        List (OrphanOp Unit)).foldl (exec plainRelay)
      { node := relayNode, free := () }).orphans.Agree plainRelay.toEnv := by
  refine (orphan_maps_agree plainRelay relayNode () [.tx sampleFiles (fun _ => 0) childMsg,
    .tx sampleFiles (fun _ => 0) paymentMsg] ⟨?_, ?_, trivial⟩).1
  · have hqueue : workQueue plainRelay sampleFiles childMsg { node := relayNode, free := () } = [] := by
      decide +kernel
    intro k hk
    rw [hqueue] at hk
    cases hk
  · -- the payment is accepted, and the child still waits for its other input
    have hqueue : workQueue plainRelay sampleFiles paymentMsg (exec plainRelay
        { node := relayNode, free := () } (.tx sampleFiles (fun _ => 0) childMsg)) = [6] := by
      decide +kernel
    have hstored : (exec plainRelay { node := relayNode, free := () }
        (.tx sampleFiles (fun _ => 0) childMsg)).orphans.mapOrphanTransactions[7]? = some childMsg := by
      decide +kernel
    intro k hk
    rw [hqueue, List.mem_singleton] at hk
    rw [hk]
    exact ⟨7, childMsg, hstored, _, List.mem_cons_self, rfl⟩

/-- Accepting a transaction nobody waits for leaves a key without an entry, though there is no
orphan. -/
theorem not_agree_paymentMsg :
    let s := exec plainRelay { node := relayNode, free := () } (.tx sampleFiles (fun _ => 0) paymentMsg)
    s.orphans.mapOrphanTransactions = ∅ ∧ s.orphans.mapOrphanTransactionsByPrev 6 = some ∅ ∧
      ¬ s.orphans.Agree plainRelay.toEnv := by
  intro s
  have hempty : s.orphans.mapOrphanTransactions = ∅ := by
    rw [Std.ExtTreeMap.eq_empty_iff_size_eq_zero]
    decide +kernel
  have hkey : s.orphans.mapOrphanTransactionsByPrev 6 = some ∅ := by
    have hsize : (s.orphans.mapOrphanTransactionsByPrev 6).map Std.ExtTreeMap.size = some 0 := by
      decide +kernel
    obtain ⟨left, hleft, hzero⟩ := Option.map_eq_some_iff.mp hsize
    rw [hleft, Std.ExtTreeMap.eq_empty_iff_size_eq_zero.mpr hzero]
  refine ⟨hempty, hkey, ?_⟩
  intro hagree
  obtain ⟨hash, vMsg, hW⟩ := (hagree.2.1 6).mp (by rw [hkey]; rfl)
  unfold OrphanTxs.Waits at hW
  rw [hempty, Std.ExtTreeMap.getElem?_empty] at hW
  cases hW.1

end RelayState

end ShinyCoin

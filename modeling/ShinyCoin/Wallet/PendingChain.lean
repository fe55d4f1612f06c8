import ShinyCoin.Wallet.PendingSpent

/-!
# The chain's calls

`SetBestChain` gets to the pool and to the wallets through `ConnectBlock`, `DisconnectBlock`,
`AcceptToMemoryPool` of what was disconnected and the removal of what was connected, and through
nothing else. So a call of it, however it ends, is a sequence of the steps that a run is made of.
-/

namespace ShinyCoin

/-! ## What the chain's calls keep -/

/-- Kept by everything that the chain does to the pool and to the wallets -/
structure KeptByChain (env : Env) (files : Files) (Q : NodeState → Prop) : Prop where
  other : ∀ {s s' : NodeState}, Q s → s'.mempool = s.mempool → s'.wallets = s.wallets → Q s'
  connect : ∀ {s : NodeState} (block : CBlock) (pindex : CBlockIndex) (pprev : BlockPtr), Q s →
    Q (Lib.final (block.connectBlock env files pindex pprev s))
  disconnect : ∀ {s : NodeState} (block : CBlock) (pprev : BlockPtr), Q s →
    Q (Lib.final (block.disconnectBlock env files pprev s))
  accept : ∀ {s : NodeState} (tx : CTransaction), Q s →
    Q { s with mempool := s.mempool.accept env tx }
  remove : ∀ {s : NodeState} (tx : CTransaction), Q s →
    Q { s with mempool := s.mempool.remove env tx }

/-- What holds of the node wherever a loop of `Reorganize` ends -/
def ReorgEnds (Q : NodeState → Prop) : Except (Err × NodeState) ReorgState → Prop
  | .ok st => Q st.1
  | .error es => Q es.2

theorem reorgEnds_foldlM {α : Type} {Q : NodeState → Prop}
    {f : ReorgState → α → Except (Err × NodeState) ReorgState}
    (hstep : ∀ st a, Q st.1 → ReorgEnds Q (f st a)) (l : List α) (st : ReorgState) (h : Q st.1) :
    ReorgEnds Q (l.foldlM f st) := by
  induction l generalizing st with
  | nil => exact h
  | cons a l ih =>
      have hround := hstep st a h
      rw [List.foldlM_cons]
      cases hf : f st a with
      | error es =>
          rw [hf] at hround
          exact hround
      | ok st' =>
          rw [hf] at hround
          exact ih st' hround

namespace KeptByChain

variable {env : Env} {files : Files} {Q : NodeState → Prop} {s : NodeState} {block : CBlock}
  {pindexNew : CBlockIndex} {pprev : BlockPtr}

theorem accepts (hQ : KeptByChain env files Q) (txs : List CTransaction) (h : Q s) :
    Q { s with mempool := txs.foldl (CTxMemPool.accept env) s.mempool } := by
  induction txs generalizing s with
  | nil => exact h
  | cons tx txs ih => exact ih (hQ.accept tx h)

theorem removes (hQ : KeptByChain env files Q) (txs : List CTransaction) (h : Q s) :
    Q { s with mempool := txs.foldl (CTxMemPool.remove env) s.mempool } := by
  induction txs generalizing s with
  | nil => exact h
  | cons tx txs ih => exact ih (hQ.remove tx h)

/-! ### Reorganize -/

theorem reorgDisconnect (hQ : KeptByChain env files Q) (st : ReorgState) (ptr : BlockPtr)
    (h : Q st.1) : ReorgEnds Q (ShinyCoin.reorgDisconnect env files st ptr) := by
  unfold ShinyCoin.reorgDisconnect
  split
  · exact h
  · next block _ =>
    have hcall := hQ.disconnect block ptr.tail h
    split
    · next heq =>
      rw [heq] at hcall
      exact hcall
    · next heq =>
      rw [heq] at hcall
      exact hcall

theorem abortAfter (hQ : KeptByChain env files Q) (e : Err) (h : Q s) : Q (s.abortAfter e) := by
  unfold NodeState.abortAfter
  split
  · exact hQ.other h rfl rfl
  · exact h

theorem reorgConnect (hQ : KeptByChain env files Q) (st : ReorgState) (ptr : BlockPtr)
    (h : Q st.1) : ReorgEnds Q (ShinyCoin.reorgConnect env files st ptr) := by
  unfold ShinyCoin.reorgConnect
  split
  · exact h
  · next block _ =>
    cases ptr with
    | nil =>
        simp only [CBlock.connectBlockPtr]
        exact hQ.abortAfter (.exc "pindex is NULL") h
    | cons pindex pprev =>
        have hcall := hQ.connect block pindex pprev h
        simp only [CBlock.connectBlockPtr]
        split
        · next heq =>
          rw [heq] at hcall
          exact hQ.abortAfter _ hcall
        · next heq =>
          rw [heq] at hcall
          exact hcall

/-- The pool is told of both branches at the end. -/
theorem reorgMemory (hQ : KeptByChain env files Q) (vDisconnect vConnect : List BlockPtr)
    (vResurrect vDelete : List CTransaction) (h : Q s) :
    Q (ShinyCoin.reorgMemory env vDisconnect vConnect vResurrect vDelete s) :=
  hQ.other (hQ.removes vDelete (hQ.accepts vResurrect h)) rfl rfl

theorem reorganize (hQ : KeptByChain env files Q) (ptr : BlockPtr) (h : Q s) :
    Q (Lib.final (ShinyCoin.reorganize env files ptr s)) := by
  unfold ShinyCoin.reorganize
  apply Lib.final_bind
  · intro es herror
    obtain ⟨e, -, rfl⟩ := Lib.mapError_eq_error.mp herror
    exact h
  · intro pfork _
    apply Lib.final_bind
    · intro es herror
      unfold Lib.require at herror
      split at herror <;> cases herror
      exact h
    · intro _ _
      have hoff : ReorgEnds Q _ := reorgEnds_foldlM hQ.reorgDisconnect (disconnectList pfork s)
        (s, []) h
      apply Lib.final_bind
      · intro es herror
        rw [herror] at hoff
        exact hoff
      · intro st₁ hst₁
        rw [hst₁] at hoff
        have hon : ReorgEnds Q _ := reorgEnds_foldlM hQ.reorgConnect (connectList pfork ptr)
          (st₁.1, []) hoff
        apply Lib.final_bind
        · intro es herror
          rw [herror] at hon
          exact hon
        · intro st₂ hst₂
          rw [hst₂] at hon
          dsimp only
          split
          · exact hQ.other hon rfl rfl
          · exact hQ.reorgMemory _ _ _ _ (hQ.other hon rfl rfl)

/-! ### SetBestChain -/

theorem invalidChainFound (hQ : KeptByChain env files Q) (h : Q s) :
    Q (ShinyCoin.invalidChainFound pindexNew s) := by
  unfold ShinyCoin.invalidChainFound
  split
  · exact hQ.other h rfl rfl
  · exact h

theorem rejectAfter (hQ : KeptByChain env files Q) (e : Err) (h : Q s) :
    Q (s.rejectAfter e pindexNew) := by
  unfold NodeState.rejectAfter
  split
  · exact hQ.invalidChainFound (hQ.other h rfl rfl)
  · exact h

theorem attach (hQ : KeptByChain env files Q) (h : Q s) :
    Q (Lib.final (block.attach env pindexNew pprev s)) := by
  unfold CBlock.attach
  dsimp only
  split
  · exact hQ.other h rfl rfl
  · split
    · exact hQ.other h rfl rfl
    · exact hQ.other (hQ.removes block.vtx h) rfl rfl

theorem setBestChainInner (hQ : KeptByChain env files Q) (h : Q s) :
    Q (Lib.final (block.setBestChainInner env files pindexNew pprev s)) := by
  have hcall := hQ.connect block pindexNew pprev h
  unfold CBlock.setBestChainInner
  split
  · next heq =>
    rw [heq] at hcall
    exact hQ.rejectAfter _ hcall
  · next heq =>
    rw [heq] at hcall
    exact hQ.attach hcall

theorem connectPostponed (hQ : KeptByChain env files Q) (ptr : BlockPtr) (h : Q s) :
    Q (Lib.final (ShinyCoin.connectPostponed env files s ptr)) := by
  unfold ShinyCoin.connectPostponed
  split
  · exact h
  · split
    · exact h
    · exact hQ.setBestChainInner (hQ.other h rfl rfl)

theorem connectSecondary (hQ : KeptByChain env files Q) (ptrs : List BlockPtr) (h : Q s) :
    Q (Lib.final (ShinyCoin.connectSecondary env files ptrs s)) := by
  have hloop := Lib.final_foldlM Q (fun _ ptr hs => hQ.connectPostponed ptr hs) ptrs h
  unfold ShinyCoin.connectSecondary
  split
  · next heq =>
    rw [heq] at hloop
    exact hloop
  · next heq =>
    rw [heq] at hloop
    split <;> exact hloop

theorem switchBranch (hQ : KeptByChain env files Q) (h : Q s) :
    Q (Lib.final (ShinyCoin.switchBranch env files pindexNew pprev s)) := by
  unfold ShinyCoin.switchBranch
  split
  · exact h
  · next best _ _ =>
    have hcall := hQ.reorganize (postpone best.bnChainTrust (pindexNew :: pprev)).2 h
    dsimp only
    split
    · next heq =>
      rw [heq] at hcall
      exact hQ.rejectAfter _ hcall
    · next heq =>
      rw [heq] at hcall
      exact hQ.connectSecondary _ hcall

theorem switchTo (hQ : KeptByChain env files Q) (h : Q s) :
    Q (Lib.final (block.switchTo env files pindexNew pprev s)) := by
  unfold CBlock.switchTo
  dsimp only
  split_ifs
  · unfold setGenesis
    dsimp only
    split <;> exact hQ.other h rfl rfl
  · have hcall : Q (Lib.final (block.setBestChainInner env files pindexNew pprev s)) :=
      hQ.setBestChainInner h
    cases hinner : block.setBestChainInner env files pindexNew pprev s with
    | error es =>
        rw [hinner] at hcall
        exact hcall
    | ok s' =>
        rw [hinner] at hcall
        exact hcall
  · exact hQ.switchBranch h

/-- However a call of `SetBestChain` ends, it keeps what the calls keep that it is made of. -/
theorem setBestChain (hQ : KeptByChain env files Q) (h : Q s) :
    Q (Lib.final (block.setBestChain env files pindexNew pprev s)) := by
  unfold CBlock.setBestChain
  split
  · exact h
  · next infos _ =>
    have hswitch : Q (Lib.final ((block.switchTo env files pindexNew pprev
        { s with txdb := s.txdb.txnBegin, infos := infos }).bind
          (block.newBest env pindexNew pprev))) := by
      have hcall : Q (Lib.final (block.switchTo env files pindexNew pprev
          { s with txdb := s.txdb.txnBegin, infos := infos })) :=
        hQ.switchTo (hQ.other h rfl rfl)
      apply Lib.final_bind
      · intro es herror
        rw [herror] at hcall
        exact hcall
      · intro s' hok
        rw [hok] at hcall
        unfold CBlock.newBest
        split
        · exact hcall
        · exact hQ.other hcall rfl rfl
    split
    · next heq =>
      rw [heq] at hswitch
      exact hQ.other hswitch rfl rfl
    · next heq =>
      rw [heq] at hswitch
      exact hswitch

end KeptByChain

/-! ## Calls as sequences of steps -/

/-- A step that is neither a commit nor a repair -/
def PendingOp.isChain {φ : Type} : PendingOp φ → Bool
  | .commitTransaction _ _ _ => false
  | .fixSpentCoins _ => false
  | _ => true

namespace CommitState

variable {φ : Type} {cenv : CommitEnv φ} {s : CommitState φ} {files : Files} {node node' : NodeState}
  {block : CBlock} {pindex : CBlockIndex} {pprev : BlockPtr}

/-- One step of the chain -/
def ChainStep (cenv : CommitEnv φ) (s s' : CommitState φ) : Prop :=
  ∃ op : PendingOp φ, op.isChain = true ∧ s' = s.exec cenv op

theorem registered_setRegistered (h : node.wallets ≠ []) :
    (s.setRegistered node).registered = node := by
  obtain ⟨w, ws, hws⟩ := List.exists_cons_of_ne_nil h
  unfold setRegistered registered
  cases node
  cases hws
  rfl

theorem setRegistered_setRegistered (h : node'.wallets ≠ []) :
    (s.setRegistered node).setRegistered node' = s.setRegistered node' := by
  obtain ⟨w, ws, hws⟩ := List.exists_cons_of_ne_nil h
  unfold setRegistered
  rw [hws]
  rfl

/-- No wallet is unregistered. -/
theorem wallets_connectBlock_ne_nil (h : node.wallets ≠ []) :
    (Lib.final (block.connectBlock cenv.toEnv files pindex pprev node)).wallets ≠ [] := by
  obtain ⟨w, ws, hws⟩ := List.exists_cons_of_ne_nil h
  rcases CBlock.wallets_connectBlock cenv.toEnv files block pindex pprev node
    with heq | heq <;> rw [heq]
  · exact h
  · have hall : w.Marks fun _ => False := fun _ ho => ho.elim
    have hnew : ∀ tx ∈ block.vtx, w.NewMarks cenv.toEnv (fun _ => False) { tx := tx } :=
      fun _ _ _ _ _ _ _ ho => ho.elim
    obtain ⟨w', ws', hsync, -⟩ := hall.syncConnecteds hnew ws
    rw [hws, hsync]
    exact List.cons_ne_nil w' ws'

theorem wallets_disconnectBlock_ne_nil (h : node.wallets ≠ []) :
    (Lib.final (block.disconnectBlock cenv.toEnv files pprev node)).wallets ≠ [] := by
  obtain ⟨w, ws, hws⟩ := List.exists_cons_of_ne_nil h
  rcases CBlock.wallets_disconnectBlock cenv.toEnv files block pprev node
    with heq | heq <;> rw [heq]
  · exact h
  · have hall : w.Marks fun _ => False := fun _ ho => ho.elim
    have hnot : ∀ o ∈ w.refundedBy block.vtx, ¬ False := fun _ _ ho => ho
    obtain ⟨w', ws', hsync, -⟩ := hall.syncDisconnecteds hnot ws
    rw [hws, hsync]
    exact List.cons_ne_nil w' ws'

/-- The nodes that steps of the chain lead to -/
def Leads (cenv : CommitEnv φ) (s : CommitState φ) (node : NodeState) : Prop :=
  node.wallets ≠ [] ∧ Relation.ReflTransGen (ChainStep cenv) s (s.setRegistered node)

theorem Leads.step (h : s.Leads cenv node) (op : PendingOp φ) (hchain : op.isChain = true)
    (hwallets : node'.wallets ≠ []) (hexec : (s.setRegistered node).exec cenv op
      = (s.setRegistered node).setRegistered node') : s.Leads cenv node' := by
  refine ⟨hwallets, h.2.tail ⟨op, hchain, ?_⟩⟩
  rw [hexec, setRegistered_setRegistered hwallets]

theorem keptByChain_leads : KeptByChain cenv.toEnv files (s.Leads cenv) where
  other := by
    intro node node' h hpool hwallets
    have hne : node'.wallets ≠ [] := by
      rw [hwallets]
      exact h.1
    apply h.step (.elsewhere { node' with wallets := node'.wallets.tail } s.keys s.free) rfl hne
    unfold CommitState.exec setRegistered
    dsimp only
    rw [← hpool, ← hwallets]
    obtain ⟨w, ws, hws⟩ := List.exists_cons_of_ne_nil hne
    rw [hws]
    rfl
  connect := by
    intro node block pindex pprev h
    apply h.step (.connectBlock files block pindex pprev) rfl (wallets_connectBlock_ne_nil h.1)
    rw [← registered_setRegistered (s := s) h.1]
    rfl
  disconnect := by
    intro node block pprev h
    apply h.step (.disconnectBlock files block pprev) rfl (wallets_disconnectBlock_ne_nil h.1)
    rw [← registered_setRegistered (s := s) h.1]
    rfl
  accept := by
    intro node tx h
    refine h.step (.resurrect tx) rfl ?_ ?_
    · exact h.1
    · obtain ⟨w, ws, hws⟩ := List.exists_cons_of_ne_nil h.1
      unfold CommitState.exec setPool setRegistered
      dsimp only
      rw [hws]
      rfl
  remove := by
    intro node tx h
    refine h.step (.remove tx) rfl ?_ ?_
    · exact h.1
    · obtain ⟨w, ws, hws⟩ := List.exists_cons_of_ne_nil h.1
      unfold CommitState.exec setPool setRegistered
      dsimp only
      rw [hws]
      rfl

/-- A call of `SetBestChain`, whether it returns, fails or throws, is a sequence of steps of the
chain. -/
theorem setBestChain_steps {pindexNew : CBlockIndex} : Relation.ReflTransGen (ChainStep cenv) s
    (s.setRegistered (Lib.final (block.setBestChain cenv.toEnv files pindexNew pprev s.registered))) := by
  have hstart : s.Leads cenv s.registered := ⟨List.cons_ne_nil _ _, .refl⟩
  exact (keptByChain_leads.setBestChain hstart).2

end CommitState

end ShinyCoin

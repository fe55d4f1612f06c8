import ShinyCoin.Wallet.Wallet

/-!
# What the chain's calls do to a wallet

All of them keep the transactions a wallet knows (`SameTxs`) except that connecting a transaction
may add it. What is the wallet's own, and what a transaction costs it, depends on those transactions
only.
-/

namespace ShinyCoin

/-- The same transactions under the same hashes, with the same keys. -/
structure SameTxs (w w' : CWallet) : Prop where
  isMine : w'.isMine = w.isMine
  txs : ∀ h, (w'.mapWallet h).map CWalletTx.tx = (w.mapWallet h).map CWalletTx.tx

namespace SameTxs

variable {w w' w'' : CWallet}

theorem refl (w : CWallet) : SameTxs w w := ⟨rfl, fun _ => rfl⟩

theorem trans (h : SameTxs w w') (h' : SameTxs w' w'') : SameTxs w w'' :=
  ⟨h'.isMine.trans h.isMine, fun k => (h'.txs k).trans (h.txs k)⟩

theorem setTx {hash : Uint256} {wtx wtx' : CWalletTx} (hw : w.mapWallet hash = some wtx)
    (htx : wtx'.tx = wtx.tx) : SameTxs w (w.setTx hash wtx') := by
  refine ⟨rfl, fun k => ?_⟩
  by_cases hk : k = hash
  · subst hk
    simp [CWallet.setTx, hw, htx]
  · simp [CWallet.setTx, Lib.PMap.set_of_ne hk]

theorem ownOutput (h : SameTxs w w') (o : COutPoint) : w'.ownOutput o = w.ownOutput o := by
  have htx := h.txs o.hash
  have hown : ∀ v : CWallet, v.ownOutput o = ((v.mapWallet o.hash).map CWalletTx.tx).bind fun tx =>
      tx.vout[o.n]?.filter fun txout => v.isMine txout.scriptPubKey := by
    intro v
    rw [CWallet.ownOutput]
    cases v.mapWallet o.hash <;> rfl
  rw [hown, hown, htx, h.isMine]

theorem getDebit (h : SameTxs w w') (tx : CTransaction) : w'.getDebit tx = w.getDebit tx := by
  have hin : w'.getDebitIn = w.getDebitIn := by
    funext txin
    rw [CWallet.getDebitIn, h.ownOutput, CWallet.getDebitIn]
  rw [CWallet.getDebit, hin, CWallet.getDebit]

theorem isFromMe (h : SameTxs w w') (tx : CTransaction) : w'.isFromMe tx = w.isFromMe tx := by
  rw [CWallet.isFromMe, h.getDebit, CWallet.isFromMe]

end SameTxs

@[simp] theorem CWalletTx.setSpent_tx (wtx : CWalletTx) (n : Nat) (b : Bool) :
    (wtx.setSpent n b).tx = wtx.tx := rfl

namespace CWallet

variable {env : Env} {w w' : CWallet} {tx : CTransaction} {block : CBlock}

/-! ## Spent outputs -/

/-- A round of `WalletUpdateSpent` marks an unmarked output of the wallet's own, or does nothing. -/
theorem updateSpentBy_cases {txin : CTxIn} (h : w.updateSpentBy txin = .ok w') :
    (w' = w ∧ ((w.ownOutput txin.prevout).isSome = false ∨
        ∃ wtx, w.mapWallet txin.prevout.hash = some wtx ∧
          wtx.vfSpent.getD txin.prevout.n false = true)) ∨
      ∃ wtx, w.mapWallet txin.prevout.hash = some wtx ∧
        wtx.vfSpent.getD txin.prevout.n false = false ∧ (w.ownOutput txin.prevout).isSome = true ∧
        w' = w.setTx txin.prevout.hash (wtx.setSpent txin.prevout.n true) := by
  rw [updateSpentBy] at h
  split at h
  · next hw =>
    cases h
    exact .inl ⟨rfl, .inl (by simp [ownOutput, hw])⟩
  · next wtx hw =>
    split at h
    · cases h
    · next fSpent hf =>
      obtain ⟨-, hf⟩ := Lib.seq_eq_ok.mp hf
      cases hf
      split at h
      · next hc =>
        cases h
        rw [Bool.and_eq_true, Bool.not_eq_true'] at hc
        exact .inr ⟨wtx, hw, hc.1, hc.2, rfl⟩
      · next hc =>
        cases h
        left
        refine ⟨rfl, ?_⟩
        cases hspent : wtx.vfSpent.getD txin.prevout.n false with
        | true => exact .inr ⟨wtx, hw, hspent⟩
        | false =>
            left
            rw [hspent] at hc
            simpa using hc

theorem updateSpentBy_sameTxs {txin : CTxIn} (h : w.updateSpentBy txin = .ok w') :
    SameTxs w w' := by
  rcases updateSpentBy_cases h with ⟨rfl, -⟩ | ⟨wtx, hw, -, -, rfl⟩
  · exact SameTxs.refl w'
  · exact SameTxs.setTx hw rfl

theorem walletUpdateSpent_sameTxs (h : w.walletUpdateSpent tx = .ok w') : SameTxs w w' :=
  Lib.foldlM_ok_inv (fun _ v => SameTxs w v)
    (fun _ _ _ _ hI hstep => hI.trans (updateSpentBy_sameTxs hstep)) (SameTxs.refl w) h

/-- A round of `DisableTransaction` unmarks an output of the wallet's own, or does nothing. -/
theorem refundInput_cases (w : CWallet) (txin : CTxIn) :
    w.refundInput txin = w ∧ (w.ownOutput txin.prevout).isSome = false ∨
      ∃ prev, w.mapWallet txin.prevout.hash = some prev ∧
        (w.ownOutput txin.prevout).isSome = true ∧
        w.refundInput txin = w.setTx txin.prevout.hash (prev.setSpent txin.prevout.n false) := by
  rw [refundInput]
  split
  · next prev out hw ho => exact .inr ⟨prev, hw, by rw [ho]; rfl, rfl⟩
  · next hne =>
    left
    refine ⟨rfl, ?_⟩
    cases hw : w.mapWallet txin.prevout.hash with
    | none => simp [ownOutput, hw]
    | some prev =>
        cases ho : w.ownOutput txin.prevout with
        | none => rfl
        | some out => exact absurd ho (hne prev out hw)

theorem refundInput_sameTxs (w : CWallet) (txin : CTxIn) : SameTxs w (w.refundInput txin) := by
  rcases refundInput_cases w txin with ⟨h, -⟩ | ⟨prev, hw, -, h⟩ <;> rw [h]
  · exact SameTxs.refl w
  · exact SameTxs.setTx hw rfl

theorem refundInputs_sameTxs (txins : List CTxIn) (w : CWallet) :
    SameTxs w (txins.foldl refundInput w) := by
  induction txins generalizing w with
  | nil => exact SameTxs.refl w
  | cons txin txins ih => exact (refundInput_sameTxs w txin).trans (ih _)

/-- Telling a wallet of a disconnected coinstake refunds its inputs when the wallet had staked. -/
theorem syncDisconnectedTx_cases (hcs : tx.isCoinStake = true)
    (h : w.syncDisconnectedTx tx = .ok w') :
    (w.isFromMe tx = .ok false ∧ w' = w) ∨
      (w.isFromMe tx = .ok true ∧ w' = tx.vin.foldl refundInput w) := by
  rw [syncDisconnectedTx] at h
  split at h
  · cases h
  · next hf =>
    cases h
    exact .inl ⟨hf, rfl⟩
  · next hf =>
    rw [disableTransaction, hcs, hf] at h
    cases h
    exact .inr ⟨hf, rfl⟩

/-! ## Added transactions -/

theorem mergeTx_tx (wtx wtxIn : CWalletTx) : (mergeTx wtx wtxIn).tx = wtx.tx := by
  simp only [mergeTx, CWalletTx.updateSpent]
  split_ifs <;> rfl

theorem setMerkleBranch_tx (wtx : CWalletTx) :
    (CWalletTx.setMerkleBranch env wtx block).tx = wtx.tx := by
  rw [CWalletTx.setMerkleBranch]
  split <;> rfl

/-- Telling a wallet of a connected transaction: the transaction is added when it is new and
involves the wallet, and the outputs it spends are marked. -/
theorem addToWalletIfInvolvingMe_cases (h : w.addToWalletIfInvolvingMe env tx block = .ok w') :
    (∃ wtx, w.mapWallet (env.getHash tx) = some wtx ∧
      (w.setTx (env.getHash tx) (mergeTx wtx (CWalletTx.setMerkleBranch env { tx := tx } block))).walletUpdateSpent
        wtx.tx = .ok w') ∨
    (w.mapWallet (env.getHash tx) = none ∧ (w.isMineTx tx = true ∨ w.isFromMe tx = .ok true) ∧
      (w.setTx (env.getHash tx) (CWalletTx.setMerkleBranch env { tx := tx } block)).walletUpdateSpent
        tx = .ok w') ∨
    (w.mapWallet (env.getHash tx) = none ∧ w.isMineTx tx = false ∧ w.isFromMe tx = .ok false ∧
      w.walletUpdateSpent tx = .ok w') := by
  have hadd : ∀ v, w.addToWallet env (CWalletTx.setMerkleBranch env { tx := tx } block) = .ok v →
      (∃ wtx, w.mapWallet (env.getHash tx) = some wtx ∧
        (w.setTx (env.getHash tx) (mergeTx wtx (CWalletTx.setMerkleBranch env { tx := tx } block))).walletUpdateSpent
          wtx.tx = .ok v) ∨
      (w.mapWallet (env.getHash tx) = none ∧
        (w.setTx (env.getHash tx) (CWalletTx.setMerkleBranch env { tx := tx } block)).walletUpdateSpent
          tx = .ok v) := by
    intro v hv
    simp only [addToWallet, setMerkleBranch_tx] at hv
    cases hw : w.mapWallet (env.getHash tx) with
    | none =>
        rw [hw] at hv
        right
        refine ⟨rfl, ?_⟩
        simpa only [setMerkleBranch_tx] using hv
    | some wtx =>
        rw [hw] at hv
        left
        refine ⟨wtx, rfl, ?_⟩
        simpa only [mergeTx_tx] using hv
  rw [addToWalletIfInvolvingMe] at h
  split at h
  · next hc =>
    rw [Bool.or_eq_true] at hc
    rcases hadd _ h with ⟨wtx, hw, hv⟩ | ⟨hw, hv⟩
    · exact .inl ⟨wtx, hw, hv⟩
    · right; left
      refine ⟨hw, ?_, hv⟩
      rcases hc with hc | hc
      · rw [hw] at hc
        exact Bool.noConfusion hc
      · exact .inl hc
  · next hc =>
    rw [Bool.or_eq_true, not_or] at hc
    split at h
    · cases h
    · next hf =>
      rcases hadd _ h with ⟨wtx, hw, hv⟩ | ⟨hw, hv⟩
      · exact .inl ⟨wtx, hw, hv⟩
      · exact .inr (.inl ⟨hw, .inr hf, hv⟩)
    · next hf =>
      right; right
      refine ⟨?_, by simpa using hc.2, hf, h⟩
      simpa using hc.1

/-! ## Exceptions -/

theorem isFromMe_error {e : Err} (h : w.isFromMe tx = .error e) : ∃ what, e = .exc what := by
  rw [isFromMe] at h
  rcases Lib.bind_eq_error.mp h with h | ⟨nDebit, -, h⟩
  · rw [getDebit] at h
    obtain ⟨txin, _, nDebit, -, hstep⟩ :=
      Lib.foldlM_error_inv (fun _ _ => True) (fun _ _ _ _ _ _ => trivial) trivial h
    rcases Lib.bind_eq_error.mp hstep with hstep | ⟨-, -, hstep⟩
    · exact ⟨_, (Lib.require_eq_error.mp hstep).2.symm⟩
    · cases hstep
  · cases h

/-- A wallet that is told of a coinstake fails by throwing only. -/
theorem syncDisconnectedTx_error {e : Err} (h : w.syncDisconnectedTx tx = .error (e, w')) :
    ∃ what, e = .exc what := by
  rw [syncDisconnectedTx] at h
  split at h
  · next e' hf =>
    cases h
    exact isFromMe_error hf
  · cases h
  · next hf =>
    rw [disableTransaction, hf] at h
    split at h <;> cases h

theorem walletUpdateSpent_error {e : Err} (h : w.walletUpdateSpent tx = .error (e, w')) :
    ∃ what, e = .exc what := by
  obtain ⟨txin, _, v, -, hstep⟩ :=
    Lib.foldlM_error_inv (fun _ _ => True) (fun _ _ _ _ _ _ => trivial) trivial h
  rw [updateSpentBy] at hstep
  split at hstep
  · cases hstep
  · split at hstep
    · next e' hspent =>
      cases hstep
      rcases Lib.bind_eq_error.mp hspent with hspent | ⟨-, -, hspent⟩
      · exact ⟨_, (Lib.require_eq_error.mp hspent).2.symm⟩
      · cases hspent
    · split at hstep <;> cases hstep

theorem addToWalletIfInvolvingMe_error {e : Err}
    (h : w.addToWalletIfInvolvingMe env tx block = .error (e, w')) : ∃ what, e = .exc what := by
  rw [addToWalletIfInvolvingMe] at h
  split at h
  · exact walletUpdateSpent_error h
  · split at h
    · next e' hf =>
      cases h
      exact isFromMe_error hf
    · exact walletUpdateSpent_error h
    · exact walletUpdateSpent_error h

end CWallet

/-! ## Known transactions -/

/-- Every transaction of the wallet is one of those `P` knows under its hash. -/
def WalletTxs (P : Uint256 → CTransaction → Prop) (w : CWallet) : Prop :=
  ∀ h wtx, w.mapWallet h = some wtx → P h wtx.tx

section

variable {P : Uint256 → CTransaction → Prop} {env : Env} {w w' : CWallet} {tx : CTransaction}
  {block : CBlock}

theorem SameTxs.walletTxs (h : SameTxs w w') (hP : WalletTxs P w) : WalletTxs P w' := by
  intro k wtx hk
  have := h.txs k
  rw [hk, Option.map_some] at this
  obtain ⟨wtx₀, hk₀, heq⟩ := Option.map_eq_some_iff.mp this.symm
  rw [← heq]
  exact hP k wtx₀ hk₀

theorem WalletTxs.setTx (hP : WalletTxs P w) {hash : Uint256} {wtx : CWalletTx}
    (hwtx : P hash wtx.tx) : WalletTxs P (w.setTx hash wtx) := by
  intro k wtx' hk
  by_cases heq : k = hash
  · subst heq
    rw [show (w.setTx k wtx).mapWallet k = some wtx from Lib.PMap.set_self _ _ _] at hk
    cases hk
    exact hwtx
  · rw [show (w.setTx hash wtx).mapWallet k = w.mapWallet k from Lib.PMap.set_of_ne heq] at hk
    exact hP k wtx' hk

theorem WalletTxs.addToWalletIfInvolvingMe (hP : WalletTxs P w) (htx : P (env.getHash tx) tx)
    (h : w.addToWalletIfInvolvingMe env tx block = .ok w') : WalletTxs P w' := by
  rcases CWallet.addToWalletIfInvolvingMe_cases h with ⟨wtx, hw, h⟩ | ⟨-, -, h⟩ | ⟨-, -, -, h⟩
  · refine (CWallet.walletUpdateSpent_sameTxs h).walletTxs (hP.setTx ?_)
    rw [CWallet.mergeTx_tx]
    exact hP _ wtx hw
  · refine (CWallet.walletUpdateSpent_sameTxs h).walletTxs (hP.setTx ?_)
    rw [CWallet.setMerkleBranch_tx]
    exact htx
  · exact (CWallet.walletUpdateSpent_sameTxs h).walletTxs hP

/-- A dispatch that returns is the call, wallet by wallet. -/
theorem dispatchWallets_eq_ok {f : CWallet → Except (Err × CWallet) CWallet}
    {ws ws' : List CWallet} :
    dispatchWallets f ws = .ok ws' ↔ List.Forall₂ (fun w w' => f w = .ok w') ws ws' := by
  induction ws generalizing ws' with
  | nil =>
      rw [dispatchWallets, List.forall₂_nil_left_iff]
      exact ⟨fun h => (Except.ok.inj h).symm, fun h => by rw [h]⟩
  | cons w ws ih =>
      rw [dispatchWallets, List.forall₂_cons_left_iff]
      cases hw : f w with
      | error e => simp
      | ok w₁ =>
          cases hws : dispatchWallets f ws with
          | error e =>
              refine iff_of_false (by simp) ?_
              rintro ⟨w₂, ws₂, -, h₂, -⟩
              rw [← ih, hws] at h₂
              cases h₂
          | ok ws₁ =>
              constructor
              · intro h
                exact ⟨w₁, ws₁, rfl, ih.mp hws, (Except.ok.inj h).symm⟩
              · rintro ⟨w₂, ws₂, h₁, h₂, rfl⟩
                rw [← ih, hws] at h₂
                cases h₁
                cases h₂
                rfl

/-- What holds of every wallet and is kept by the call holds of every wallet after a dispatch. -/
theorem dispatchWallets_forall {Q : CWallet → Prop} {f : CWallet → Except (Err × CWallet) CWallet}
    (hf : ∀ w w', Q w → f w = .ok w' → Q w') {ws ws' : List CWallet} (hQ : ∀ w ∈ ws, Q w)
    (h : dispatchWallets f ws = .ok ws') : ∀ w' ∈ ws', Q w' := by
  induction dispatchWallets_eq_ok.mp h with
  | nil => simp
  | cons hstep hrest ih =>
      intro v hv
      rcases List.mem_cons.mp hv with rfl | hv
      · exact hf _ v (hQ _ List.mem_cons_self) hstep
      · exact ih (fun u hu => hQ u (List.mem_cons_of_mem _ hu)) (dispatchWallets_eq_ok.mpr hrest) v hv

/-- The error of a dispatch is that of one of the wallets. -/
theorem dispatchWallets_error {f : CWallet → Except (Err × CWallet) CWallet} {e : Err}
    {ws ws' : List CWallet} (h : dispatchWallets f ws = .error (e, ws')) :
    ∃ w ∈ ws, ∃ w', f w = .error (e, w') := by
  induction ws generalizing ws' with
  | nil => cases h
  | cons w ws ih =>
      rw [dispatchWallets] at h
      split at h
      · next e' w' hw =>
        cases h
        exact ⟨w, List.mem_cons_self, w', hw⟩
      · split at h
        · next e' ws₁ hws =>
          cases h
          obtain ⟨v, hv, hvs⟩ := ih hws
          exact ⟨v, List.mem_cons_of_mem _ hv, hvs⟩
        · cases h

/-- A dispatch returns when every wallet does. -/
theorem dispatchWallets_isOk {f : CWallet → Except (Err × CWallet) CWallet} {ws : List CWallet}
    (hf : ∀ w ∈ ws, ∃ w', f w = .ok w') : ∃ ws', dispatchWallets f ws = .ok ws' := by
  induction ws with
  | nil => exact ⟨[], rfl⟩
  | cons w ws ih =>
      obtain ⟨w', hw'⟩ := hf w List.mem_cons_self
      obtain ⟨ws', hws'⟩ := ih (fun v hv => hf v (List.mem_cons_of_mem _ hv))
      exact ⟨w' :: ws', by simp [dispatchWallets, hw', hws']⟩

end

end ShinyCoin

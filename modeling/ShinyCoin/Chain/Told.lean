import ShinyCoin.Chain.Undo

/-!
# What wallets can be told

A wallet that is told of a transaction throws when what the transaction spends is worth more than all
the money there may be, or when it spends an output that the previous transaction, as the wallet has
it, does not have. Neither can be where the inputs were fetched and added up before, nor where none
of them is known.
-/

namespace ShinyCoin

section

variable {known : Uint256 → CTransaction → Prop} {env : Env} {w : CWallet} {tx : CTransaction}
  {block : CBlock}

/-- Every wallet that holds known transactions can be told what the transaction spends. -/
structure Tellable (known : Uint256 → CTransaction → Prop) (tx : CTransaction) : Prop where
  spent : ∀ w, WalletTxs known w → ∃ w', w.walletUpdateSpent tx = .ok w' ∧ WalletTxs known w'
  fromMe : ∀ w, WalletTxs known w → ∃ b, w.isFromMe tx = .ok b

/-- `WalletUpdateSpent` fails at an input only. -/
theorem CWallet.walletUpdateSpent_total
    (hstep : ∀ w txin, txin ∈ tx.vin → WalletTxs known w → ∃ w', w.updateSpentBy txin = .ok w')
    (hw : WalletTxs known w) :
    ∃ w', w.walletUpdateSpent tx = .ok w' ∧ WalletTxs known w' := by
  obtain ⟨w', h', hw'⟩ := Lib.foldlM_total (f := updateSpentBy) (l := tx.vin)
    (fun _ v => WalletTxs known v) (by
      intro done txin rest v hvin hv
      obtain ⟨v', hv'⟩ := hstep v txin (by rw [hvin]; simp) hv
      exact ⟨v', hv', (updateSpentBy_sameTxs hv').walletTxs hv⟩) hw
  exact ⟨w', h', hw'⟩

theorem Affordable.tellable (hone : ∀ h tx tx', known h tx → known h tx' → tx = tx')
    (htx : Affordable known tx) : Tellable known tx := by
  refine ⟨fun w hw => CWallet.walletUpdateSpent_total ?_ hw,
    fun w hw => CWallet.isFromMe_isOk hone hw htx⟩
  obtain ⟨value, -, hval⟩ := htx
  intro v txin htxin hv
  unfold CWallet.updateSpentBy
  cases hm : v.mapWallet txin.prevout.hash with
  | none => exact ⟨v, rfl⟩
  | some wtx =>
      -- the output is in range of the transaction that was fetched
      obtain ⟨-, txPrev, hknown, hout⟩ := hval txin htxin
      obtain ⟨txout, hout, -⟩ := Option.map_eq_some_iff.mp hout
      have hlt := (List.getElem?_eq_some_iff.mp hout).1
      rw [← hone _ _ _ (hv _ _ hm) hknown] at hlt
      simp only [CWalletTx.isSpent, Lib.require, hlt, decide_true, if_true, bind, Except.bind, pure,
        Except.pure]
      split <;> exact ⟨_, rfl⟩

/-- A coinbase, for one, spends nothing that is known. -/
theorem tellable_of_unknown (htx : ∀ txin ∈ tx.vin, ∀ txPrev, ¬ known txin.prevout.hash txPrev) :
    Tellable known tx := by
  have hnone : ∀ w, WalletTxs known w → ∀ txin ∈ tx.vin,
      w.mapWallet txin.prevout.hash = none := by
    intro w hw txin htxin
    cases hm : w.mapWallet txin.prevout.hash with
    | none => rfl
    | some wtx => exact absurd (hw _ _ hm) (htx txin htxin _)
  constructor
  · refine fun w hw => CWallet.walletUpdateSpent_total ?_ hw
    intro v txin htxin hv
    exact ⟨v, by rw [CWallet.updateSpentBy, hnone v hv txin htxin]⟩
  · intro w hw
    -- nothing is debited
    obtain ⟨nDebit, hdebit, -⟩ := Lib.foldlM_total
      (f := fun nDebit txin => do
        let nDebit := int64 (nDebit + w.getDebitIn txin)
        Lib.require (moneyRange nDebit) (Err.exc "CWallet::GetDebit() : value out of range")
        return nDebit) (l := tx.vin) (fun _ nDebit => nDebit = 0) (by
      rintro done txin rest _ hvin rfl
      refine ⟨0, ?_, rfl⟩
      have hzero : w.getDebitIn txin = 0 := by
        rw [CWallet.getDebitIn, CWallet.ownOutput, hnone w hw txin (by rw [hvin]; simp)]
        rfl
      rw [hzero]
      rfl) rfl
    refine ⟨decide (0 < nDebit), ?_⟩
    rw [CWallet.isFromMe, CWallet.getDebit, hdebit]
    rfl

namespace CWallet

theorem addToWallet_isOk (hone : ∀ h tx tx', known h tx → known h tx' → tx = tx')
    (hw : WalletTxs known w) (hknown : known (env.getHash tx) tx) (htx : Tellable known tx)
    (wtxIn : CWalletTx) (hin : wtxIn.tx = tx) :
    ∃ w', w.addToWallet env wtxIn = .ok w' ∧ WalletTxs known w' := by
  subst hin
  -- the entry is of this transaction, be it a new one or an old one
  have hput : ∀ wtx : CWalletTx, wtx.tx = wtxIn.tx → ∃ w',
      (w.setTx (env.getHash wtxIn.tx) wtx).walletUpdateSpent wtx.tx = .ok w' ∧
        WalletTxs known w' := by
    intro wtx hwtx
    rw [hwtx]
    refine htx.spent _ (hw.setTx ?_)
    rw [hwtx]
    exact hknown
  simp only [addToWallet]
  split
  · exact hput wtxIn rfl
  · next wtx hm =>
    apply hput
    rw [mergeTx_tx]
    exact hone _ _ _ (hw _ _ hm) hknown

theorem addToWalletIfInvolvingMe_isOk (hone : ∀ h tx tx', known h tx → known h tx' → tx = tx')
    (hw : WalletTxs known w) (hknown : known (env.getHash tx) tx) (htx : Tellable known tx)
    (block : CBlock) : ∃ w', w.addToWalletIfInvolvingMe env tx block = .ok w' := by
  have hadd : ∃ w', w.addToWallet env (CWalletTx.setMerkleBranch env { tx := tx } block) = .ok w' :=
    (addToWallet_isOk hone hw hknown htx _ (setMerkleBranch_tx ..)).imp fun _ h => h.1
  unfold addToWalletIfInvolvingMe
  split
  · exact hadd
  · obtain ⟨b, hb⟩ := htx.fromMe w hw
    rw [hb]
    cases b with
    | true => exact hadd
    | false => exact (htx.spent w hw).imp fun _ h => h.1

end CWallet

/-- The wallets can be told of a connected block. -/
theorem syncConnected_isOk (block : CBlock)
    (hone : ∀ h tx tx', known h tx → known h tx' → tx = tx') {txs : List CTransaction}
    {ws : List CWallet} (hws : ∀ w ∈ ws, WalletTxs known w)
    (hknown : ∀ tx ∈ txs, known (env.getHash tx) tx) (htxs : ∀ tx ∈ txs, Tellable known tx) :
    ∃ ws', txs.foldlM (syncConnected env block) ws = .ok ws' := by
  obtain ⟨ws', h', -⟩ := Lib.foldlM_total (f := syncConnected env block) (l := txs)
    (fun _ ws => ∀ w ∈ ws, WalletTxs known w) (by
      intro done tx rest ws htx hws
      have hmem : tx ∈ txs := by
        rw [htx]
        simp
      obtain ⟨ws', hws'⟩ := dispatchWallets_isOk fun w hw =>
        CWallet.addToWalletIfInvolvingMe_isOk hone (hws w hw) (hknown tx hmem) (htxs tx hmem) block
      exact ⟨ws', hws', dispatchWallets_forall
        (fun w w' hw h => hw.addToWalletIfInvolvingMe (hknown tx hmem) h) hws hws'⟩) hws
  exact ⟨ws', h'⟩

end

end ShinyCoin

import ShinyCoin.Chain.Frame
import ShinyCoin.Wallet.Pending

/-!
# Marks that stay

`Marks` says of a wallet that some outputs are marked as far as they are its own. Whatever marks
outputs keeps it, a new transaction keeps it where its own outputs are none of them, and a refund
where it refunds none of them. A careful run keeps it for what the pool spends.
-/

namespace ShinyCoin

namespace CWallet

variable {env : Env} {w w' : CWallet} {wtx wtx' : CWalletTx} {hash : Uint256} {tx : CTransaction}
  {block : CBlock} {pending : COutPoint → Prop}

theorem ownOutput_eq_some {o : COutPoint} {txout : CTxOut} : w.ownOutput o = some txout ↔
    ∃ wtx, w.mapWallet o.hash = some wtx ∧ wtx.tx.vout[o.n]? = some txout ∧
      w.isMine txout.scriptPubKey = true := by
  unfold ownOutput
  simp [Option.bind_eq_some_iff, Option.filter_eq_some_iff]

namespace Marks

/-! ## One entry -/

/-- An entry whose marks all stay -/
theorem setTx_same (h : w.Marks pending) (hw : w.mapWallet hash = some wtx)
    (htx : wtx'.tx = wtx.tx) (hmarks : ∀ n, wtx.isSpent n = .ok true → wtx'.isSpent n = .ok true) :
    (w.setTx hash wtx').Marks pending := by
  intro o ho hown
  rw [(SameTxs.setTx hw htx).ownOutput] at hown
  obtain ⟨wtx₀, hw₀, hspent⟩ := h o ho hown
  rw [spent_setTx]
  by_cases hhash : o.hash = hash
  · left
    rw [hhash, hw] at hw₀
    cases hw₀
    exact ⟨hhash, hmarks o.n hspent⟩
  · exact .inr ⟨hhash, wtx₀, hw₀, hspent⟩

/-- A new entry -/
theorem setTx_new (h : w.Marks pending)
    (hnew : ∀ n txout, wtx.tx.vout[n]? = some txout → w.isMine txout.scriptPubKey = true →
      pending ⟨hash, n⟩ → wtx.isSpent n = .ok true) : (w.setTx hash wtx).Marks pending := by
  rintro ⟨k, n⟩ ho hown
  rw [spent_setTx]
  obtain ⟨txout, htxout⟩ := Option.isSome_iff_exists.mp hown
  obtain ⟨wtx₀, hw₀, hout, hmine⟩ := ownOutput_eq_some.mp htxout
  by_cases hk : k = hash
  · left
    subst hk
    rw [show (w.setTx _ wtx).mapWallet _ = some wtx from Lib.PMap.set_self _ _ _] at hw₀
    cases hw₀
    exact ⟨rfl, hnew n txout hout hmine ho⟩
  · right
    rw [show (w.setTx _ wtx).mapWallet k = w.mapWallet k from Lib.PMap.set_of_ne hk] at hw₀
    have hold : w.ownOutput ⟨k, n⟩ = some txout := ownOutput_eq_some.mpr ⟨wtx₀, hw₀, hout, hmine⟩
    refine ⟨hk, h ⟨k, n⟩ ho ?_⟩
    rw [hold]
    rfl

theorem setSpent (h : w.Marks pending) (hw : w.mapWallet hash = some wtx) (n : Nat) :
    (w.setTx hash (wtx.setSpent n true)).Marks pending := by
  refine h.setTx_same hw (CWalletTx.setSpent_tx wtx n true) ?_
  intro m hm
  obtain ⟨hlt, hflag⟩ := CWalletTx.isSpent_eq_true.mp hm
  refine CWalletTx.isSpent_eq_true.mpr ⟨hlt, ?_⟩
  rw [CWalletTx.getD_setSpent wtx true hlt]
  split
  · rfl
  · exact hflag

/-- Only the mark of an output that is not among `pending` is taken away. -/
theorem setUnspent (h : w.Marks pending) (hw : w.mapWallet hash = some wtx) {n : Nat}
    (hnot : ¬ pending ⟨hash, n⟩) : (w.setTx hash (wtx.setSpent n false)).Marks pending := by
  rintro ⟨k, m⟩ ho hown
  rw [(SameTxs.setTx hw (CWalletTx.setSpent_tx wtx n false)).ownOutput] at hown
  obtain ⟨wtx₀, hw₀, hspent⟩ := h ⟨k, m⟩ ho hown
  rw [spent_setTx]
  by_cases hk : k = hash
  · left
    subst hk
    replace hw₀ : w.mapWallet k = some wtx₀ := hw₀
    rw [hw] at hw₀
    cases hw₀
    have hne : m ≠ n := by
      rintro rfl
      exact hnot ho
    obtain ⟨hlt, hflag⟩ := CWalletTx.isSpent_eq_true.mp hspent
    refine ⟨rfl, CWalletTx.isSpent_eq_true.mpr ⟨hlt, ?_⟩⟩
    rw [CWalletTx.getD_setSpent wtx false hlt, if_neg hne]
    exact hflag
  · exact .inr ⟨hk, wtx₀, hw₀, hspent⟩

/-! ## Connecting -/

theorem updateSpentBy (h : w.Marks pending) (txin : CTxIn) :
    (Lib.final (w.updateSpentBy txin)).Marks pending := by
  cases hstep : w.updateSpentBy txin with
  | error e =>
      unfold CWallet.updateSpentBy at hstep
      split at hstep
      · cases hstep
      · split at hstep
        · cases hstep
          exact h
        · split at hstep <;> cases hstep
  | ok w' =>
      rcases updateSpentBy_cases hstep with ⟨rfl, -⟩ | ⟨wtx, hw, -, -, rfl⟩
      · exact h
      · exact h.setSpent hw _

theorem walletUpdateSpent (h : w.Marks pending) (tx : CTransaction) :
    (Lib.final (w.walletUpdateSpent tx)).Marks pending :=
  Lib.final_foldlM (Marks pending) (fun _ txin hI => updateSpentBy hI txin) tx.vin h

/-- The first half of `AddToWallet` -/
theorem putEntry (h : w.Marks pending) (hnew : w.NewMarks env pending wtx) :
    (w.putEntry env wtx).Marks pending := by
  unfold CWallet.putEntry
  split
  · next hw => exact h.setTx_new (hnew hw)
  · next wtx₀ hw =>
    apply h.setTx_same hw (mergeTx_tx wtx₀ wtx)
    intro n hn
    exact (mergeTx_isSpent wtx₀ wtx n).mpr (.inl hn)

theorem addToWallet (h : w.Marks pending) (hnew : w.NewMarks env pending wtx) :
    (Lib.final (w.addToWallet env wtx)).Marks pending := by
  have hput := h.putEntry hnew
  cases hw : w.mapWallet (env.getHash wtx.tx) with
  | none =>
      simp only [CWallet.putEntry, hw] at hput
      simp only [CWallet.addToWallet, hw]
      exact hput.walletUpdateSpent _
  | some wtx₀ =>
      simp only [CWallet.putEntry, hw] at hput
      simp only [CWallet.addToWallet, hw]
      exact hput.walletUpdateSpent _

theorem markSpent (h : w.Marks pending) {txin : CTxIn} (hmark : w.markSpent txin = .ok w') :
    w'.Marks pending := by
  unfold CWallet.markSpent at hmark
  split at hmark
  · cases hmark
  · next coin hcoin =>
    split at hmark <;> cases hmark
    exact h.setSpent hcoin _

theorem markSpentUntil (h : w.Marks pending) (txins : List CTxIn) :
    (w.markSpentUntil txins).Marks pending := by
  induction txins generalizing w with
  | nil => exact h
  | cons txin txins ih =>
      unfold CWallet.markSpentUntil
      cases hmark : w.markSpent txin with
      | ok w₁ => exact ih (h.markSpent hmark)
      | error e =>
          dsimp only
          split
          · apply h.setTx_new
            intro n txout hout
            cases hout
          · exact h

theorem addToWalletIfInvolvingMe (h : w.Marks pending) (hnew : w.NewMarks env pending { tx := tx }) :
    (Lib.final (w.addToWalletIfInvolvingMe env tx block)).Marks pending := by
  have hadd : (Lib.final (w.addToWallet env (CWalletTx.setMerkleBranch env { tx := tx } block))).Marks
      pending := by
    apply h.addToWallet
    intro hw n txout hout hmine ho
    rw [setMerkleBranch_tx] at hw hout ho
    have hspent := hnew hw n txout hout hmine ho
    obtain ⟨-, hflag⟩ := CWalletTx.isSpent_eq_true.mp hspent
    cases hflag
  unfold CWallet.addToWalletIfInvolvingMe
  split
  · exact hadd
  · split
    · exact h
    · exact hadd
    · exact h.walletUpdateSpent tx

/-! ## Disconnecting -/

theorem refundInput (h : w.Marks pending) {txin : CTxIn}
    (hnot : (w.ownOutput txin.prevout).isSome = true → ¬ pending txin.prevout) :
    (w.refundInput txin).Marks pending := by
  rcases refundInput_cases w txin with ⟨heq, -⟩ | ⟨prev, hw, hown, heq⟩ <;> rw [heq]
  · exact h
  · exact h.setUnspent hw (hnot hown)

theorem refundInputs (txins : List CTxIn) (h : w.Marks pending)
    (hnot : ∀ txin ∈ txins, (w.ownOutput txin.prevout).isSome = true → ¬ pending txin.prevout) :
    (txins.foldl CWallet.refundInput w).Marks pending := by
  induction txins generalizing w with
  | nil => exact h
  | cons txin txins ih =>
      rw [List.forall_mem_cons] at hnot
      apply ih (h.refundInput hnot.1)
      intro txin' hmem hown
      rw [(refundInput_sameTxs w txin).ownOutput] at hown
      exact hnot.2 txin' hmem hown

theorem syncDisconnectedTx (h : w.Marks pending) (hcs : tx.isCoinStake = true)
    (hnot : w.isFromMe tx = .ok true → ∀ o ∈ w.ownSpends tx, ¬ pending o) :
    (Lib.final (w.syncDisconnectedTx tx)).Marks pending := by
  cases hstep : w.syncDisconnectedTx tx with
  | error e =>
      unfold CWallet.syncDisconnectedTx disableTransaction at hstep
      split at hstep
      · cases hstep
        exact h
      · cases hstep
      · next hf =>
        rw [hcs] at hstep
        cases hstep
  | ok w' =>
      rcases syncDisconnectedTx_cases hcs hstep with ⟨-, rfl⟩ | ⟨hf, rfl⟩
      · exact h
      · apply h.refundInputs
        intro txin hmem hown
        exact hnot hf _ (mem_ownSpends.mpr ⟨List.mem_map_of_mem hmem, hown⟩)

end Marks

/-! ## The repair -/

theorem fixCoin_tx (v : CWallet) (vSpent : List Bool) (kept : KeptTx) (n : Nat) :
    (KeptWallet.fixCoin v vSpent kept n).wtx.tx = kept.wtx.tx := by
  unfold KeptWallet.fixCoin
  dsimp only
  split_ifs <;> rfl

/-- An output of the wallet's own gets the mark that the index has for it, and keeps it when the loop
is at another one. -/
theorem isSpent_fixCoin {v : CWallet} {vSpent : List Bool} {kept : KeptTx} {m : Nat}
    (hmine : (kept.wtx.tx.vout[m]?.map fun txout => v.isMine txout.scriptPubKey) = some true)
    (n : Nat) : (KeptWallet.fixCoin v vSpent kept n).wtx.isSpent m = .ok true ↔
      if m = n then vSpent.getD m false = true else kept.wtx.isSpent m = .ok true := by
  have hlt : m < kept.wtx.tx.vout.length := by
    obtain ⟨txout, hout, -⟩ := Option.map_eq_some_iff.mp hmine
    exact (List.getElem?_eq_some_iff.mp hout).1
  have hset : ∀ b, (kept.wtx.setSpent n b).isSpent m = .ok true ↔
      if m = n then b = true else kept.wtx.isSpent m = .ok true := by
    intro b
    rw [CWalletTx.isSpent_eq_true, CWalletTx.getD_setSpent kept.wtx b hlt]
    split
    · exact and_iff_right hlt
    · show m < kept.wtx.tx.vout.length ∧ _ ↔ _
      exact CWalletTx.isSpent_eq_true.symm
  unfold KeptWallet.fixCoin
  dsimp only
  by_cases hmn : m = n
  · subst hmn
    have hflag : kept.wtx.isSpent m = .ok true ↔ kept.wtx.vfSpent.getD m false = true :=
      CWalletTx.isSpent_eq_true.trans (and_iff_right hlt)
    rw [hmine, if_pos rfl]
    cases hindex : vSpent.getD m false <;> cases hkept : kept.wtx.vfSpent.getD m false
    · rw [hkept] at hflag
      simpa using hflag
    · simpa [KeptTx.setSpent] using hset false
    · simpa [KeptTx.setSpent] using hset true
    · rw [hkept] at hflag
      simpa using hflag
  · rw [if_neg hmn]
    split_ifs with hlost hfound
    · exact (hset false).trans (by rw [if_neg hmn])
    · exact (hset true).trans (by rw [if_neg hmn])
    · exact Iff.rfl

theorem isSpent_fixCoins {v : CWallet} {vSpent : List Bool} {kept : KeptTx} {m : Nat}
    (hmine : (kept.wtx.tx.vout[m]?.map fun txout => v.isMine txout.scriptPubKey) = some true)
    (l : List Nat) : (l.foldl (KeptWallet.fixCoin v vSpent) kept).wtx.isSpent m = .ok true ↔
      if m ∈ l then vSpent.getD m false = true else kept.wtx.isSpent m = .ok true := by
  induction l generalizing kept with
  | nil => simp
  | cons n l ih =>
      rw [List.foldl_cons, ih (by rw [fixCoin_tx]; exact hmine), isSpent_fixCoin hmine]
      by_cases hl : m ∈ l <;> by_cases hn : m = n <;> simp [hl, hn]

theorem fixTx_tx (v : CWallet) (readTxIndex : Uint256 → Option (List Bool)) (kept : KeptTx) :
    (KeptWallet.fixTx env v readTxIndex kept).wtx.tx = kept.wtx.tx := by
  unfold KeptWallet.fixTx
  split
  · rfl
  · next vSpent _ =>
      apply List.foldlRecOn (motive := fun kept' : KeptTx => kept'.wtx.tx = kept.wtx.tx)
      · rfl
      · intro kept' hkept' n _
        rw [fixCoin_tx, hkept']

theorem fixSpentCoins_sameTxs (w : CWallet) (readTxIndex : Uint256 → Option (List Bool))
    (fCheckOnly : Bool) : SameTxs w (w.fixSpentCoins env readTxIndex fCheckOnly) := by
  unfold fixSpentCoins
  split
  · exact .refl w
  · refine ⟨rfl, fun h => ?_⟩
    show ((w.mapWallet h).map _).map CWalletTx.tx = _
    rw [Option.map_map]
    cases w.mapWallet h with
    | none => rfl
    | some wtx => exact congrArg some (fixTx_tx w readTxIndex { wtx := wtx })

/-- The repair gives an output of the wallet's own the mark that the index has for it, and leaves what
the index does not have. -/
theorem spent_fixSpentCoins (readTxIndex : Uint256 → Option (List Bool)) {o : COutPoint}
    (hown : (w.ownOutput o).isSome = true) (hw : w.mapWallet o.hash = some wtx) :
    (w.fixSpentCoins env readTxIndex false).Spent o ↔
      match readTxIndex (env.getHash wtx.tx) with
      | none => w.Spent o
      | some vSpent => vSpent.getD o.n false = true := by
  have hentry : ∀ wtx', (w.fixSpentCoins env readTxIndex false).mapWallet o.hash = some wtx' ↔
      (KeptWallet.fixTx env w readTxIndex { wtx := wtx }).wtx = wtx' := by
    intro wtx'
    show (w.mapWallet o.hash).map _ = _ ↔ _
    rw [hw]
    exact Option.some_inj
  have hfixed : (w.fixSpentCoins env readTxIndex false).Spent o ↔
      (KeptWallet.fixTx env w readTxIndex { wtx := wtx }).wtx.isSpent o.n = .ok true := by
    simp [Spent, hentry]
  obtain ⟨txout, htxout⟩ := Option.isSome_iff_exists.mp hown
  obtain ⟨wtx', hw', hout, hmine⟩ := ownOutput_eq_some.mp htxout
  rw [hw] at hw'
  cases hw'
  rw [hfixed, KeptWallet.fixTx]
  cases readTxIndex (env.getHash wtx.tx) with
  | none => simp [Spent, hw]
  | some vSpent =>
      have hrange : o.n ∈ List.range wtx.tx.vout.length :=
        List.mem_range.mpr (List.getElem?_eq_some_iff.mp hout).1
      refine (isSpent_fixCoins ?_ _).trans (by rw [if_pos hrange])
      rw [hout, Option.map_some, hmine]

/-- The repair keeps the marks exactly when it takes none from an output that the index has as not
spent. -/
theorem Marks.fixSpentCoins_iff (h : w.Marks pending)
    {readTxIndex : Uint256 → Option (List Bool)} {fCheckOnly : Bool} :
    (w.fixSpentCoins env readTxIndex fCheckOnly).Marks pending ↔
      (fCheckOnly = false → ∀ o, pending o → (w.ownOutput o).isSome = true →
        ∀ wtx, w.mapWallet o.hash = some wtx →
          ∀ vSpent, readTxIndex (env.getHash wtx.tx) = some vSpent → vSpent.getD o.n false = true) := by
  cases fCheckOnly with
  | true => exact ⟨fun _ hf => (Bool.noConfusion hf), fun _ => h⟩
  | false =>
      have hsame : SameTxs w (w.fixSpentCoins env readTxIndex false) :=
        fixSpentCoins_sameTxs w readTxIndex false
      constructor
      · intro hfix _ o ho hown wtx hw vSpent hread
        have hspent := hfix o ho (by rw [hsame.ownOutput]; exact hown)
        rw [spent_fixSpentCoins readTxIndex hown hw, hread] at hspent
        exact hspent
      · intro hindex o ho hown
        rw [hsame.ownOutput] at hown
        obtain ⟨wtx, hw, hspent⟩ := h o ho hown
        rw [spent_fixSpentCoins readTxIndex hown hw]
        split
        · exact ⟨wtx, hw, hspent⟩
        · next vSpent hread => exact hindex rfl o ho hown wtx hw vSpent hread

theorem fixCoin_wtx (v : CWallet) (vSpent : List Bool) (kept : KeptTx) (n : Nat) :
    (KeptWallet.fixCoin v vSpent kept n).wtx
      = (KeptWallet.fixCoin v vSpent { wtx := kept.wtx } n).wtx := by
  unfold KeptWallet.fixCoin
  dsimp only
  split_ifs <;> rfl

theorem fixTx_wtx (v : CWallet) (readTxIndex : Uint256 → Option (List Bool)) (kept : KeptTx) :
    (KeptWallet.fixTx env v readTxIndex kept).wtx
      = (KeptWallet.fixTx env v readTxIndex { wtx := kept.wtx }).wtx := by
  have hfold : ∀ (vSpent : List Bool) (l : List Nat) (kept kept' : KeptTx), kept.wtx = kept'.wtx →
      (l.foldl (KeptWallet.fixCoin v vSpent) kept).wtx
        = (l.foldl (KeptWallet.fixCoin v vSpent) kept').wtx := by
    intro vSpent l
    induction l with
    | nil => exact fun _ _ h => h
    | cons n l ih =>
        intro kept kept' h
        apply ih
        rw [fixCoin_wtx, h, ← fixCoin_wtx]
  unfold KeptWallet.fixTx
  cases readTxIndex (env.getHash kept.wtx.tx) with
  | none => rfl
  | some vSpent => exact hfold vSpent _ kept _ rfl

/-- The numbers that are kept have no part in the repair. -/
theorem view_fixSpentCoins (scripts : ScriptEnv) (w : KeptWallet)
    (readTxIndex : Uint256 → Option (List Bool)) (fCheckOnly : Bool) :
    (w.fixSpentCoins scripts env readTxIndex fCheckOnly).view scripts
      = (w.view scripts).fixSpentCoins env readTxIndex fCheckOnly := by
  unfold KeptWallet.fixSpentCoins CWallet.fixSpentCoins
  split
  · rfl
  · unfold KeptWallet.view
    congr 1
    funext hash
    dsimp only
    cases w.mapWallet hash with
    | none => rfl
    | some kept => exact congrArg some (fixTx_wtx _ readTxIndex kept)

/-! ## The wallet among those that are registered -/

/-- What a loop of calls to all wallets leaves of the first one, when a call that returns keeps `I` and
any call leads from `I` to `Q` -/
theorem final_dispatches {α : Type} {f : α → CWallet → Except (Err × CWallet) CWallet}
    {I Q : CWallet → Prop} {l : List α} (hIQ : ∀ w, I w → Q w)
    (hstep : ∀ a ∈ l, ∀ w, I w → Q (Lib.final (f a w)) ∧ ∀ w', f a w = .ok w' → I w')
    {ws : List CWallet} (hI : I w) :
    ∃ w' ws', Lib.final (l.foldlM (fun ws a => dispatchWallets (f a) ws) (w :: ws)) = w' :: ws' ∧
      Q w' := by
  induction l generalizing w ws with
  | nil => exact ⟨w, ws, rfl, hIQ w hI⟩
  | cons a l ih =>
      rw [List.forall_mem_cons] at hstep
      obtain ⟨hfinal, hok⟩ := hstep.1 w hI
      rw [List.foldlM_cons]
      cases hall : dispatchWallets (f a) (w :: ws) with
      | error e =>
          rw [dispatchWallets] at hall
          cases hw : f a w with
          | error e' =>
              rw [hw] at hall hfinal
              cases hall
              exact ⟨_, ws, rfl, hfinal⟩
          | ok w₁ =>
              rw [hw] at hall
              dsimp only at hall
              split at hall <;> cases hall
              exact ⟨w₁, _, rfl, hIQ w₁ (hok w₁ hw)⟩
      | ok ws₁ =>
          obtain ⟨w₁, ws₂, hw, -, rfl⟩ :=
            List.forall₂_cons_left_iff.mp (dispatchWallets_eq_ok.mp hall)
          exact ih hstep.2 (hok w₁ hw)

theorem isMine_of_addToWalletIfInvolvingMe (h : w.addToWalletIfInvolvingMe env tx block = .ok w') :
    w'.isMine = w.isMine := by
  rcases addToWalletIfInvolvingMe_cases h with ⟨wtx, -, h⟩ | ⟨-, -, h⟩ | ⟨-, -, -, h⟩
  · exact (walletUpdateSpent_sameTxs h).isMine
  · exact (walletUpdateSpent_sameTxs h).isMine
  · exact (walletUpdateSpent_sameTxs h).isMine

theorem Marks.syncConnecteds (h : w.Marks pending)
    (hnew : ∀ tx ∈ block.vtx, w.NewMarks env pending { tx := tx }) (ws : List CWallet) :
    ∃ w' ws', Lib.final (block.vtx.foldlM (syncConnected env block) (w :: ws)) = w' :: ws' ∧
      w'.Marks pending := by
  have hround : syncConnected env block = fun ws (tx : CTransaction) =>
      dispatchWallets (fun w => w.addToWalletIfInvolvingMe env tx block) ws := rfl
  rw [hround]
  -- the keys stay, and so do the entries
  apply final_dispatches (I := fun v : CWallet => v.Marks pending ∧ v.isMine = w.isMine ∧
    ∀ k, (w.mapWallet k).isSome = true → (v.mapWallet k).isSome = true) (fun v hv => hv.1)
  · rintro tx htx v ⟨hv, hmine, hkept⟩
    have hnew' : v.NewMarks env pending { tx := tx } := by
      intro hnone n txout hout hout' ho
      rw [hmine] at hout'
      refine hnew tx htx ?_ n txout hout hout' ho
      cases hw : w.mapWallet (env.getHash tx) with
      | none => rfl
      | some wtx =>
          have hsome := hkept (env.getHash tx) (by rw [hw]; rfl)
          rw [show v.mapWallet (env.getHash tx) = none from hnone] at hsome
          cases hsome
    refine ⟨hv.addToWalletIfInvolvingMe hnew', ?_⟩
    intro v' hok
    have hv' : (Lib.final (v.addToWalletIfInvolvingMe env tx block)).Marks pending :=
      hv.addToWalletIfInvolvingMe hnew'
    rw [hok] at hv'
    refine ⟨hv', (isMine_of_addToWalletIfInvolvingMe hok).trans hmine, ?_⟩
    exact fun k hk => isSome_of_addToWalletIfInvolvingMe hok (hkept k hk)
  · exact ⟨h, rfl, fun k hk => hk⟩

theorem Marks.syncDisconnecteds (h : w.Marks pending)
    (hnot : ∀ o ∈ w.refundedBy block.vtx, ¬ pending o) (ws : List CWallet) :
    ∃ w' ws', Lib.final (block.vtx.foldlM syncDisconnected (w :: ws)) = w' :: ws' ∧
      w'.Marks pending := by
  rw [syncDisconnected_eq]
  apply final_dispatches (I := fun v : CWallet => v.Marks pending ∧ SameTxs w v) (fun v hv => hv.1)
  · rintro tx htx v ⟨hv, hsame⟩
    cases hcs : tx.isCoinStake with
    | false =>
        refine ⟨hv, ?_⟩
        intro v' hok
        cases hok
        exact ⟨hv, hsame⟩
    | true =>
        rw [if_pos rfl]
        have hown : v.ownSpends tx = w.ownSpends tx := by
          unfold ownSpends
          exact List.filter_congr fun o _ => by rw [hsame.ownOutput]
        have hfinal : (Lib.final (v.syncDisconnectedTx tx)).Marks pending := by
          apply hv.syncDisconnectedTx hcs
          intro hf o ho
          rw [hsame.isFromMe] at hf
          rw [hown] at ho
          refine hnot o (List.mem_flatMap.mpr ⟨tx, htx, ?_⟩)
          rw [hcs, fromMe_of_ok hf]
          exact ho
        refine ⟨hfinal, ?_⟩
        intro v' hok
        rw [hok] at hfinal
        refine ⟨hfinal, hsame.trans ?_⟩
        rcases syncDisconnectedTx_cases hcs hok with ⟨-, rfl⟩ | ⟨-, rfl⟩
        · exact .refl _
        · exact refundInputs_sameTxs tx.vin v
  · exact ⟨h, .refl w⟩

/-- What transactions that were taken off leave marked -/
theorem spent_syncOff {off : List CTransaction} {o : COutPoint} (hoff : w.syncOff off = .ok w')
    (hown : (w.ownOutput o).isSome = true) : w'.Spent o ↔ o ∉ w.refundedBy off ∧ w.Spent o := by
  have hI : FlagInv w (w.refundedBy off) [] w' := (FlagInv.refl w).syncOff hoff
  obtain ⟨wtx, hw, hlt⟩ := exists_of_ownOutput hown
  obtain ⟨wtx', hw', htx⟩ := hI.txs.exists_entry hw
  have hreads := hI.reads o.hash wtx wtx' o.n hw hw' hlt
  rw [if_neg List.not_mem_nil] at hreads
  have hspent : w.Spent o ↔ wtx.vfSpent.getD o.n false = true := by
    simp [Spent, hw, CWalletTx.isSpent_eq_true, hlt]
  have hspent' : w'.Spent o ↔ wtx'.vfSpent.getD o.n false = true := by
    simp [Spent, hw', CWalletTx.isSpent_eq_true, htx, hlt]
  rw [hspent', hreads, hspent]
  by_cases hmem : o ∈ w.refundedBy off <;> simp [hmem]

/-- Blocks that were taken off leave the marks exactly when they refund none of them. -/
theorem Marks.syncOff_iff (h : w.Marks pending) {off : List CTransaction}
    (hoff : w.syncOff off = .ok w') :
    w'.Marks pending ↔ ∀ o ∈ w.refundedBy off, ¬ pending o := by
  have hsame : SameTxs w w' := ((FlagInv.refl w).syncOff hoff).txs
  constructor
  · intro hmarks o ho hpending
    have hown := own_of_mem_refundedBy ho
    have hspent := hmarks o hpending (by rw [hsame.ownOutput]; exact hown)
    exact ((spent_syncOff hoff hown).mp hspent).1 ho
  · intro hnot o hpending hown
    rw [hsame.ownOutput] at hown
    exact (spent_syncOff hoff hown).mpr ⟨fun ho => hnot o ho hpending, h o hpending hown⟩

end CWallet

namespace CBlock

/-- Whether it returns, fails or throws, `ConnectBlock` leaves the wallets alone or leaves what its loop
over them leaves. -/
theorem wallets_connectBlock (env : Env) (files : Files) (block : CBlock) (pindex : CBlockIndex)
    (pprev : BlockPtr) (s : NodeState) :
    (Lib.final (block.connectBlock env files pindex pprev s)).wallets = s.wallets ∨
      (Lib.final (block.connectBlock env files pindex pprev s)).wallets
        = Lib.final (block.vtx.foldlM (syncConnected env block) s.wallets) := by
  cases hcall : block.connectBlock env files pindex pprev s with
  | ok s' =>
      obtain ⟨st, nCoinbaseOut, ws, -, -, -, hsync, rfl⟩ := connectBlock_ok hcall
      rw [hsync]
      exact .inr rfl
  | error es =>
      obtain ⟨e, s'⟩ := es
      rcases connectBlock_error hcall with ⟨infos, rfl, -⟩ | ⟨st, nCoinbaseOut, ws, -, hsync, rfl⟩
      · exact .inl rfl
      · rw [hsync]
        exact .inr rfl

theorem wallets_disconnectBlock (env : Env) (files : Files) (block : CBlock) (pprev : BlockPtr)
    (s : NodeState) :
    (Lib.final (block.disconnectBlock env files pprev s)).wallets = s.wallets ∨
      (Lib.final (block.disconnectBlock env files pprev s)).wallets
        = Lib.final (block.vtx.foldlM syncDisconnected s.wallets) := by
  have hwallets := (disconnectTxs_sameMemory env files s block.vtx.reverse).2
  cases hcall : block.disconnectBlock env files pprev s with
  | ok s' =>
      obtain ⟨s₁, ws, hloop, hsync, rfl⟩ := disconnectBlock_ok hcall
      rw [hloop] at hwallets
      rw [← show s₁.wallets = s.wallets from hwallets, hsync]
      exact .inr rfl
  | error es =>
      obtain ⟨e, s'⟩ := es
      rcases disconnectBlock_error hcall with hloop | ⟨s₁, ws, hloop, hsync, rfl⟩
      · rw [hloop] at hwallets
        exact .inl hwallets
      · rw [hloop] at hwallets
        rw [← show s₁.wallets = s.wallets from hwallets, hsync]
        exact .inr rfl

end CBlock

end ShinyCoin

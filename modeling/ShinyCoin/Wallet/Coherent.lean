import ShinyCoin.Wallet.Balance
import ShinyCoin.Wallet.Flags

/-!
# The numbers a wallet keeps

`KeptOk` says that the numbers of a wallet transaction that count as known are what the wallet
would compute. Marking outputs keeps it, since the flags enter the available credit only, and so do
the queries. A transaction that comes or goes changes the debits of the transactions that spend it,
a redeem script changes which outputs are the wallet's own, and neither clears any number of another
transaction: `Careful` says when no number that is kept depends on the change.
-/

namespace ShinyCoin

/-! ## What the numbers depend on -/

namespace CWallet

variable {v v' : CWallet}

theorem getCreditOut_congr {txout : CTxOut}
    (h : v'.isMine txout.scriptPubKey = v.isMine txout.scriptPubKey ∨ txout.nValue = 0) :
    v'.getCreditOut txout = v.getCreditOut txout := by
  unfold getCreditOut
  obtain h | h := h
  · rw [h]
  · simp [h]

theorem getCredit_congr {tx : CTransaction}
    (h : ∀ txout ∈ tx.vout, v'.getCreditOut txout = v.getCreditOut txout) :
    v'.getCredit tx = v.getCredit tx := by
  unfold getCredit
  apply Lib.foldlM_congr
  intro nCredit txout hmem
  rw [h txout hmem]

theorem getDebit_congr {tx : CTransaction}
    (h : ∀ txin ∈ tx.vin, v'.getDebitIn txin = v.getDebitIn txin) :
    v'.getDebit tx = v.getDebit tx := by
  unfold getDebit
  apply Lib.foldlM_congr
  intro nDebit txin hmem
  rw [h txin hmem]

theorem getAvailableCredit_congr {wtx wtx' : CWalletTx} (htx : wtx'.tx = wtx.tx)
    (h : ∀ i txout, wtx.tx.vout[i]? = some txout →
      wtx'.vfSpent.getD i false = wtx.vfSpent.getD i false ∧
        (wtx.vfSpent.getD i false = false → v'.getCreditOut txout = v.getCreditOut txout)) :
    v'.getAvailableCredit wtx' = v.getAvailableCredit wtx := by
  unfold getAvailableCredit
  rw [htx]
  apply Lib.foldlM_congr
  intro nCredit coin hmem
  obtain ⟨hflag, hcredit⟩ := h coin.2 coin.1 (List.mem_zipIdx_iff_getElem?.mp hmem)
  rw [hflag]
  cases hspent : wtx.vfSpent.getD coin.2 false with
  | true => rfl
  | false => rw [hcredit hspent]

end CWallet

namespace SameTxs

variable {v v' : CWallet}

theorem getCredit (h : SameTxs v v') (tx : CTransaction) : v'.getCredit tx = v.getCredit tx :=
  CWallet.getCredit_congr fun _ _ => CWallet.getCreditOut_congr (.inl (by rw [h.isMine]))

theorem getAvailableCredit (h : SameTxs v v') (wtx : CWalletTx) :
    v'.getAvailableCredit wtx = v.getAvailableCredit wtx :=
  CWallet.getAvailableCredit_congr rfl fun _ _ _ =>
    ⟨rfl, fun _ => CWallet.getCreditOut_congr (.inl (by rw [h.isMine]))⟩

end SameTxs

/-! ## Numbers that are right -/

structure KeptOk (v : CWallet) (kept : KeptTx) : Prop where
  debit : kept.fDebitCached = true → v.getDebit kept.wtx.tx = .ok kept.nDebitCached
  credit : kept.fCreditCached = true → v.getCredit kept.wtx.tx = .ok kept.nCreditCached
  available : kept.fAvailableCreditCached = true →
    v.getAvailableCredit kept.wtx = .ok kept.nAvailableCreditCached

namespace KeptOk

variable {v v' : CWallet} {kept : KeptTx}

theorem markDirty (v : CWallet) (kept : KeptTx) : KeptOk v kept.markDirty := ⟨nofun, nofun, nofun⟩

theorem congr (h : KeptOk v kept) (hsame : SameTxs v v') : KeptOk v' kept where
  debit := fun hc => (hsame.getDebit _).trans (h.debit hc)
  credit := fun hc => (hsame.getCredit _).trans (h.credit hc)
  available := fun hc => (hsame.getAvailableCredit _).trans (h.available hc)

/-- The keys stay, and so do the debits of the inputs that a debit counts. -/
theorem of_debits (h : KeptOk v kept) (hmine : v'.isMine = v.isMine)
    (hdebits : kept.fDebitCached = true → ∀ txin ∈ kept.wtx.tx.vin,
      v'.getDebitIn txin = v.getDebitIn txin) : KeptOk v' kept where
  debit := fun hc => (CWallet.getDebit_congr (hdebits hc)).trans (h.debit hc)
  credit := fun hc => (CWallet.getCredit_congr fun _ _ =>
    CWallet.getCreditOut_congr (.inl (by rw [hmine]))).trans (h.credit hc)
  available := fun hc => (CWallet.getAvailableCredit_congr rfl fun _ _ _ =>
    ⟨rfl, fun _ => CWallet.getCreditOut_congr (.inl (by rw [hmine]))⟩).trans (h.available hc)

theorem setSpent (h : KeptOk v kept) {n : Nat} (hn : n < kept.wtx.tx.vout.length) (b : Bool) :
    KeptOk v (kept.setSpent n b) where
  debit := h.debit
  credit := h.credit
  available := by
    intro hc
    obtain ⟨hcached, hflag⟩ := Bool.and_eq_true_iff.mp hc
    rw [beq_iff_eq, CWalletTx.getD_resizeSpent _ hn] at hflag
    refine Eq.trans ?_ (h.available hcached)
    apply CWallet.getAvailableCredit_congr (CWalletTx.setSpent_tx kept.wtx n b)
    intro i txout hi
    refine ⟨?_, fun _ => rfl⟩
    rw [CWalletTx.getD_setSpent kept.wtx b (List.getElem?_eq_some_iff.mp hi).1]
    by_cases heq : i = n
    · rw [if_pos heq, heq, hflag]
    · rw [if_neg heq]

end KeptOk

namespace KeptWallet

variable {env : Env} {scripts : ScriptEnv} {maturity : Maturity} {w w' : KeptWallet}
  {hash : Uint256} {kept kept' : KeptTx}

def Coherent (scripts : ScriptEnv) (w : KeptWallet) : Prop :=
  ∀ hash kept, w.mapWallet hash = some kept → KeptOk (w.view scripts) kept

theorem view_mapWallet (h : w.mapWallet hash = some kept) :
    (w.view scripts).mapWallet hash = some kept.wtx := by
  show (w.mapWallet hash).map KeptTx.wtx = some kept.wtx
  rw [h]
  rfl

theorem view_setTx (w : KeptWallet) (hash : Uint256) (kept : KeptTx) :
    (w.setTx hash kept).view scripts = (w.view scripts).setTx hash kept.wtx := by
  have hmap : ((w.setTx hash kept).view scripts).mapWallet
      = ((w.view scripts).setTx hash kept.wtx).mapWallet := by
    funext h
    show ((w.mapWallet.set hash kept) h).map KeptTx.wtx
      = (w.view scripts).mapWallet.set hash kept.wtx h
    rw [Lib.PMap.set_apply, Lib.PMap.set_apply]
    split_ifs <;> rfl
  exact congrArg (fun m => CWallet.mk m (w.keystore.isMine scripts)) hmap

/-- An entry is replaced by one of the same transaction with the right numbers. -/
theorem Coherent.setTx (h : Coherent scripts w) (hw : w.mapWallet hash = some kept)
    (htx : kept'.wtx.tx = kept.wtx.tx) (hkept : KeptOk (w.view scripts) kept') :
    Coherent scripts (w.setTx hash kept') := by
  have hsame : SameTxs (w.view scripts) ((w.setTx hash kept').view scripts) := by
    rw [view_setTx]
    exact .setTx (view_mapWallet hw) htx
  intro k kept₁ hk
  replace hk : (w.mapWallet.set hash kept') k = some kept₁ := hk
  rw [Lib.PMap.set_apply] at hk
  split_ifs at hk
  · cases hk
    exact hkept.congr hsame
  · exact (h k kept₁ hk).congr hsame

/-! ## Queries -/

theorem getDebit_keeps (h : KeptOk (w.view scripts) kept) {n : ℤ}
    (hget : w.getDebit scripts kept = .ok (n, kept')) :
    kept'.wtx = kept.wtx ∧ KeptOk (w.view scripts) kept' := by
  unfold getDebit at hget
  split_ifs at hget with hempty hcached
  · cases hget
    exact ⟨rfl, h⟩
  · cases hget
    exact ⟨rfl, h⟩
  · obtain ⟨nDebit, hdebit, hrest⟩ := Lib.bind_eq_ok.mp hget
    cases hrest
    exact ⟨rfl, ⟨fun _ => hdebit, h.credit, h.available⟩⟩

theorem getCredit_keeps (h : KeptOk (w.view scripts) kept) {fUseCache : Bool} {n : ℤ}
    (hget : w.getCredit scripts maturity fUseCache kept = .ok (n, kept')) :
    kept'.wtx = kept.wtx ∧ KeptOk (w.view scripts) kept' := by
  unfold getCredit at hget
  split_ifs at hget with himmature hcached
  · cases hget
    exact ⟨rfl, h⟩
  · cases hget
    exact ⟨rfl, h⟩
  · obtain ⟨nCredit, hcredit, hrest⟩ := Lib.bind_eq_ok.mp hget
    cases hrest
    exact ⟨rfl, ⟨h.debit, fun _ => hcredit, h.available⟩⟩

theorem getAvailableCredit_keeps (h : KeptOk (w.view scripts) kept) {fUseCache : Bool} {n : ℤ}
    (hget : w.getAvailableCredit scripts maturity fUseCache kept = .ok (n, kept')) :
    kept'.wtx = kept.wtx ∧ KeptOk (w.view scripts) kept' := by
  unfold getAvailableCredit at hget
  split_ifs at hget with himmature hcached
  · cases hget
    exact ⟨rfl, h⟩
  · cases hget
    exact ⟨rfl, h⟩
  · obtain ⟨nCredit, hcredit, hrest⟩ := Lib.bind_eq_ok.mp hget
    cases hrest
    exact ⟨rfl, ⟨h.debit, h.credit, fun _ => hcredit⟩⟩

theorem Coherent.query (h : Coherent scripts w) {get : KeptTx → Except Err (ℤ × KeptTx)}
    (hget : ∀ kept n kept', KeptOk (w.view scripts) kept → get kept = .ok (n, kept') →
      kept'.wtx = kept.wtx ∧ KeptOk (w.view scripts) kept') (hash : Uint256) :
    Coherent scripts (w.query hash get) := by
  unfold KeptWallet.query
  cases hw : w.mapWallet hash with
  | none => exact h
  | some kept =>
      dsimp only
      cases hanswer : get kept with
      | error e => exact h
      | ok answer =>
          obtain ⟨n, kept'⟩ := answer
          obtain ⟨hwtx, hok⟩ := hget kept n kept' (h hash kept hw) hanswer
          exact h.setTx hw (by rw [hwtx]) hok

/-- What the queries give, from numbers that are right -/
theorem Coherent.balancesMatch (h : Coherent scripts w) : w.BalancesMatch scripts := by
  intro maturity hash kept hw hmature
  obtain ⟨hdebit, hcredit, havailable⟩ := h hash kept hw
  refine ⟨?_, ?_, ?_⟩
  · unfold getDebit
    split_ifs with hempty hcached
    · rw [List.isEmpty_iff] at hempty
      simp [CWallet.getDebit, hempty]
      rfl
    · rw [hdebit hcached]
      rfl
    · cases (w.view scripts).getDebit kept.wtx.tx <;> rfl
  · unfold getCredit
    rw [hmature, if_neg Bool.false_ne_true, Bool.true_and]
    split_ifs with hcached
    · rw [hcredit hcached]
      rfl
    · cases (w.view scripts).getCredit kept.wtx.tx <;> rfl
  · unfold getAvailableCredit
    rw [hmature, if_neg Bool.false_ne_true, Bool.true_and]
    split_ifs with hcached
    · rw [havailable hcached]
      rfl
    · cases (w.view scripts).getAvailableCredit kept.wtx <;> rfl

/-! ## Spent flags -/

theorem Coherent.updateSpentBy (h : Coherent scripts w) (txin : CTxIn) :
    Coherent scripts (Lib.final (w.updateSpentBy scripts maturity txin)) := by
  unfold KeptWallet.updateSpentBy
  cases hw : w.mapWallet txin.prevout.hash with
  | none => exact h
  | some kept =>
      dsimp only
      cases hspent : kept.wtx.isSpent txin.prevout.n with
      | error e => exact h
      | ok fSpent =>
          dsimp only
          obtain ⟨hrange, -⟩ := Lib.seq_eq_ok.mp hspent
          rw [Lib.require_eq_ok, decide_eq_true_iff] at hrange
          split_ifs
          · cases hget : w.getCredit scripts maturity true kept with
            | error e => exact h
            | ok answer =>
                obtain ⟨n, kept'⟩ := answer
                obtain ⟨hwtx, hok⟩ := getCredit_keeps (h _ kept hw) hget
                rw [← hwtx] at hrange
                exact h.setTx hw (by rw [← hwtx]; rfl) (hok.setSpent hrange true)
          · exact h

theorem Coherent.walletUpdateSpent (h : Coherent scripts w) (tx : CTransaction) :
    Coherent scripts (Lib.final (w.walletUpdateSpent scripts maturity tx)) :=
  Lib.final_foldlM (Coherent scripts) (fun _ txin hI => hI.updateSpentBy txin) tx.vin h

theorem Coherent.markSpent (h : Coherent scripts w) (hash : Uint256) (nOut : Nat) (b : Bool) :
    Coherent scripts (w.markSpent hash nOut b) := by
  unfold KeptWallet.markSpent
  cases hw : w.mapWallet hash with
  | none => exact h
  | some kept =>
      dsimp only
      split_ifs with hn
      · exact h.setTx hw rfl ((h hash kept hw).setSpent hn b)
      · exact h

theorem Coherent.disableTransaction (h : Coherent scripts w) (tx : CTransaction) :
    Coherent scripts (w.disableTransaction scripts tx) := by
  have hfold : ∀ (l : List CTxIn) (w : KeptWallet), Coherent scripts w →
      Coherent scripts (l.foldl (refundInput scripts) w) := by
    intro l
    induction l with
    | nil => exact fun _ h => h
    | cons txin l ih =>
        intro w h
        apply ih
        unfold refundInput
        split_ifs
        · exact h.markSpent _ _ false
        · exact h
  unfold KeptWallet.disableTransaction
  split_ifs
  · exact hfold tx.vin w h
  · exact h

/-- An output that `FixSpentCoins` looks at is in range. -/
theorem fixCoin_keeps {v : CWallet} {vSpent : List Bool} (h : KeptOk v kept) (n : Nat) :
    (fixCoin v vSpent kept n).wtx.tx = kept.wtx.tx ∧ KeptOk v (fixCoin v vSpent kept n) := by
  have hrange : ∀ p q : Bool,
      ((kept.wtx.tx.vout[n]?.map fun txout => v.isMine txout.scriptPubKey).getD false && p && q)
        = true → n < kept.wtx.tx.vout.length := by
    intro p q hand
    by_contra hge
    rw [List.getElem?_eq_none (Nat.le_of_not_lt hge)] at hand
    simp at hand
  unfold fixCoin
  dsimp only
  split_ifs with hlost hfound
  · exact ⟨rfl, h.setSpent (hrange _ _ hlost) false⟩
  · exact ⟨rfl, h.setSpent (hrange _ _ hfound) true⟩
  · exact ⟨rfl, h⟩

theorem fixCoins_keeps {v : CWallet} {vSpent : List Bool} (l : List Nat) (h : KeptOk v kept) :
    (l.foldl (fixCoin v vSpent) kept).wtx.tx = kept.wtx.tx ∧
      KeptOk v (l.foldl (fixCoin v vSpent) kept) := by
  induction l generalizing kept with
  | nil => exact ⟨rfl, h⟩
  | cons n l ih =>
      obtain ⟨htx, hok⟩ : (fixCoin v vSpent kept n).wtx.tx = kept.wtx.tx ∧ _ := fixCoin_keeps h n
      obtain ⟨htx', hok'⟩ := ih hok
      exact ⟨htx'.trans htx, hok'⟩

theorem fixTx_keeps {v : CWallet} {readTxIndex : Uint256 → Option (List Bool)}
    (h : KeptOk v kept) : (fixTx env v readTxIndex kept).wtx.tx = kept.wtx.tx ∧
      KeptOk v (fixTx env v readTxIndex kept) := by
  unfold fixTx
  split
  · exact ⟨rfl, h⟩
  · exact fixCoins_keeps _ h

theorem Coherent.fixSpentCoins (h : Coherent scripts w)
    (readTxIndex : Uint256 → Option (List Bool)) (fCheckOnly : Bool) :
    Coherent scripts (w.fixSpentCoins scripts env readTxIndex fCheckOnly) := by
  unfold KeptWallet.fixSpentCoins
  split_ifs
  · exact h
  · intro hash kept' hw
    obtain ⟨kept, hkept, rfl⟩ := Option.map_eq_some_iff.mp hw
    apply (fixTx_keeps (h hash kept hkept)).2.congr
    refine ⟨rfl, fun k => ?_⟩
    show (((w.mapWallet k).map (fixTx env (w.view scripts) readTxIndex)).map KeptTx.wtx).map
      CWalletTx.tx = ((w.mapWallet k).map KeptTx.wtx).map CWalletTx.tx
    cases hk : w.mapWallet k with
    | none => rfl
    | some kept₁ => exact congrArg some (fixTx_keeps (h k kept₁ hk)).1

/-! ## The wallet without the numbers -/

theorem getCredit_wtx {fUseCache : Bool} {n : ℤ}
    (hget : w.getCredit scripts maturity fUseCache kept = .ok (n, kept')) :
    kept'.wtx = kept.wtx := by
  unfold getCredit at hget
  split_ifs at hget
  · cases hget
    rfl
  · cases hget
    rfl
  · obtain ⟨nCredit, -, hrest⟩ := Lib.bind_eq_ok.mp hget
    cases hrest
    rfl

/-- Without the numbers, a round of `WalletUpdateSpent` is one of the wallet's view of the chain. -/
theorem view_updateSpentBy {txin : CTxIn} (h : w.updateSpentBy scripts maturity txin = .ok w') :
    (w.view scripts).updateSpentBy txin = .ok (w'.view scripts) := by
  unfold updateSpentBy at h
  unfold CWallet.updateSpentBy
  cases hw : w.mapWallet txin.prevout.hash with
  | none =>
      rw [hw] at h
      cases h
      rw [show (w.view scripts).mapWallet txin.prevout.hash = none from
        congrArg (Option.map KeptTx.wtx) hw]
  | some kept =>
      rw [hw] at h
      rw [view_mapWallet hw]
      dsimp only at h ⊢
      cases hspent : kept.wtx.isSpent txin.prevout.n with
      | error e =>
          rw [hspent] at h
          cases h
      | ok fSpent =>
          rw [hspent] at h
          dsimp only at h ⊢
          split_ifs at h ⊢
          · cases hget : w.getCredit scripts maturity true kept with
            | error e =>
                rw [hget] at h
                cases h
            | ok answer =>
                obtain ⟨n, kept'⟩ := answer
                rw [hget] at h
                cases h
                rw [view_setTx]
                show _ = Except.ok ((w.view scripts).setTx _ (kept'.wtx.setSpent _ true))
                rw [getCredit_wtx hget]
          · cases h
            rfl

theorem view_walletUpdateSpent {tx : CTransaction}
    (h : w.walletUpdateSpent scripts maturity tx = .ok w') :
    (w.view scripts).walletUpdateSpent tx = .ok (w'.view scripts) := by
  obtain ⟨v, hv, rfl⟩ := Lib.foldlM_simulates (fun w v => v = w.view scripts)
    (fun txin _ w v w' hR hstep => ⟨_, hR ▸ view_updateSpentBy hstep, rfl⟩) rfl h
  exact hv

theorem view_addToWallet {wtxIn : KeptTx}
    (h : w.addToWallet scripts env maturity wtxIn true = .ok w') :
    (w.view scripts).addToWallet env wtxIn.wtx = .ok (w'.view scripts) := by
  unfold addToWallet at h
  unfold CWallet.addToWallet
  dsimp only at h ⊢
  cases hw : w.mapWallet (env.getHash wtxIn.wtx.tx) with
  | none =>
      rw [hw] at h
      rw [show (w.view scripts).mapWallet (env.getHash wtxIn.wtx.tx) = none from
        congrArg (Option.map KeptTx.wtx) hw]
      have hview := view_walletUpdateSpent h
      rwa [view_setTx] at hview
  | some kept =>
      rw [hw] at h
      rw [view_mapWallet hw]
      dsimp only at h ⊢
      rw [if_pos (.inr rfl)] at h
      have hview := view_walletUpdateSpent h
      rw [view_setTx] at hview
      rw [CWallet.mergeTx_tx]
      exact hview

/-! ## What changes the wallet's own outputs -/

theorem coherent_markDirty (w : KeptWallet) : Coherent scripts w.markDirty := by
  intro hash kept hw
  obtain ⟨kept₀, -, rfl⟩ := Option.map_eq_some_iff.mp hw
  exact .markDirty _ kept₀

theorem Loaded.coherent (h : w.Loaded) : Coherent scripts w := by
  intro hash kept hw
  rw [h hash kept hw]
  exact .markDirty _ kept

/-- No debit that is kept counts an output of this transaction, except one of nothing. -/
def DebitFree (scripts : ScriptEnv) (w : KeptWallet) (hash : Uint256) (tx : CTransaction) : Prop :=
  ∀ h kept, h ≠ hash → w.mapWallet h = some kept → kept.fDebitCached = true →
    ∀ txin ∈ kept.wtx.tx.vin, txin.prevout.hash = hash →
      ∀ txout, tx.vout[txin.prevout.n]? = some txout →
        (w.view scripts).isMine txout.scriptPubKey = true → txout.nValue = 0

/-- The output becomes the wallet's own, or is no longer, and it has a value. -/
def Turns (v v' : CWallet) (txout : CTxOut) : Prop :=
  v'.isMine txout.scriptPubKey ≠ v.isMine txout.scriptPubKey ∧ txout.nValue ≠ 0

/-- No number that is kept counts an output that a redeem script turns. -/
structure ScriptFree (scripts : ScriptEnv) (w : KeptWallet) (redeemScript : CScript) : Prop where
  debit : ∀ hash kept, w.mapWallet hash = some kept → kept.fDebitCached = true →
    ∀ txin ∈ kept.wtx.tx.vin, ∀ prev txout, w.mapWallet txin.prevout.hash = some prev →
      prev.wtx.tx.vout[txin.prevout.n]? = some txout →
        ¬ Turns (w.view scripts) ((w.addCScript scripts redeemScript).view scripts) txout
  credit : ∀ hash kept, w.mapWallet hash = some kept → kept.fCreditCached = true →
    ∀ txout ∈ kept.wtx.tx.vout,
      ¬ Turns (w.view scripts) ((w.addCScript scripts redeemScript).view scripts) txout
  available : ∀ hash kept, w.mapWallet hash = some kept → kept.fAvailableCreditCached = true →
    ∀ i txout, kept.wtx.tx.vout[i]? = some txout → kept.wtx.vfSpent.getD i false = false →
      ¬ Turns (w.view scripts) ((w.addCScript scripts redeemScript).view scripts) txout

/-- The call changes nothing that a number depends on which it does not clear. -/
def Careful (env : Env) (scripts : ScriptEnv) (w : KeptWallet) : WalletOp → Prop
  | .addToWallet _ wtxIn _ =>
      w.mapWallet (env.getHash wtxIn.wtx.tx) = none →
        DebitFree scripts w (env.getHash wtxIn.wtx.tx) wtxIn.wtx.tx
  | .addToWalletIfInvolvingMe _ tx _ _ _ =>
      w.mapWallet (env.getHash tx) = none →
        (w.view scripts).isMineTx tx = true ∨ (w.view scripts).isFromMe tx = .ok true →
          DebitFree scripts w (env.getHash tx) tx
  | .eraseFromWallet hash =>
      w.fFileBacked = true → ∀ kept, w.mapWallet hash = some kept →
        DebitFree scripts w hash kept.wtx.tx
  | .addCScript redeemScript => ScriptFree scripts w redeemScript
  | _ => True

/-- What an input counts, by the output it spends -/
theorem getDebitIn_eq {v : CWallet} {txin : CTxIn} {wtx : CWalletTx}
    (hw : v.mapWallet txin.prevout.hash = some wtx) : v.getDebitIn txin =
      ((wtx.tx.vout[txin.prevout.n]?.map fun txout =>
        if v.isMine txout.scriptPubKey then txout.nValue else 0).getD 0) := by
  unfold CWallet.getDebitIn CWallet.ownOutput
  rw [hw]
  cases hout : wtx.tx.vout[txin.prevout.n]? with
  | none => simp [hout]
  | some txout => cases hmine : v.isMine txout.scriptPubKey <;> simp [Option.bind, Option.filter, hout, hmine]

/-- An input whose output has no value or is not the wallet's own -/
theorem getDebitIn_eq_zero {v : CWallet} {txin : CTxIn} {wtx : CWalletTx}
    (hw : v.mapWallet txin.prevout.hash = some wtx)
    (hfree : ∀ txout, wtx.tx.vout[txin.prevout.n]? = some txout →
      v.isMine txout.scriptPubKey = true → txout.nValue = 0) : v.getDebitIn txin = 0 := by
  rw [getDebitIn_eq hw]
  cases hout : wtx.tx.vout[txin.prevout.n]? with
  | none => rfl
  | some txout =>
      show (if v.isMine txout.scriptPubKey then txout.nValue else 0) = 0
      split_ifs with hmine
      · exact hfree txout hout hmine
      · rfl

theorem getDebitIn_of_none {v : CWallet} {txin : CTxIn}
    (hw : v.mapWallet txin.prevout.hash = none) : v.getDebitIn txin = 0 := by
  simp [CWallet.getDebitIn, CWallet.ownOutput, hw]

theorem getDebitIn_congr {v v' : CWallet} {txin : CTxIn}
    (hmap : v'.mapWallet txin.prevout.hash = v.mapWallet txin.prevout.hash)
    (hmine : v'.isMine = v.isMine) :
    v'.getDebitIn txin = v.getDebitIn txin := by
  unfold CWallet.getDebitIn CWallet.ownOutput
  rw [hmap, hmine]

/-- A transaction is added. -/
theorem Coherent.insert (h : Coherent scripts w) (hnone : w.mapWallet hash = none)
    (hfree : DebitFree scripts w hash kept.wtx.tx) (hkept : kept = kept.markDirty) :
    Coherent scripts (w.setTx hash kept) := by
  intro k kept₁ hk
  replace hk : (w.mapWallet.set hash kept) k = some kept₁ := hk
  rw [Lib.PMap.set_apply] at hk
  split_ifs at hk with heq
  · cases hk
    rw [hkept]
    exact .markDirty _ kept
  · refine (h k kept₁ hk).of_debits rfl fun hcached txin hin => ?_
    by_cases hhash : txin.prevout.hash = hash
    · have hold : (w.view scripts).mapWallet txin.prevout.hash = none := by
        rw [hhash]
        exact congrArg (Option.map KeptTx.wtx) hnone
      have hnew : ((w.setTx hash kept).view scripts).mapWallet txin.prevout.hash
          = some kept.wtx := by
        rw [hhash]
        exact view_mapWallet (Lib.PMap.set_self ..)
      rw [getDebitIn_of_none hold]
      exact getDebitIn_eq_zero hnew (hfree k kept₁ heq hk hcached txin hin hhash)
    · refine getDebitIn_congr ?_ rfl
      exact congrArg (Option.map KeptTx.wtx) (Lib.PMap.set_of_ne hhash)

theorem Coherent.eraseFromWallet (h : Coherent scripts w)
    (hfree : w.fFileBacked = true → ∀ kept, w.mapWallet hash = some kept →
      DebitFree scripts w hash kept.wtx.tx) : Coherent scripts (w.eraseFromWallet hash) := by
  unfold KeptWallet.eraseFromWallet
  split_ifs with hbacked
  · intro k kept₁ hk
    replace hk : w.mapWallet.erase hash k = some kept₁ := hk
    rw [Lib.PMap.erase_apply] at hk
    split_ifs at hk with heq
    refine (h k kept₁ hk).of_debits rfl fun hcached txin hin => ?_
    by_cases hhash : txin.prevout.hash = hash
    · cases hold : w.mapWallet hash with
      | none =>
          refine getDebitIn_congr ?_ rfl
          rw [hhash]
          show (w.mapWallet.erase hash hash).map KeptTx.wtx = (w.mapWallet hash).map KeptTx.wtx
          rw [Lib.PMap.erase_self, hold]
      | some kept =>
          have hnew : (KeptWallet.view scripts { w with mapWallet := w.mapWallet.erase hash }).mapWallet
              txin.prevout.hash = none := by
            rw [hhash]
            exact congrArg (Option.map KeptTx.wtx) (Lib.PMap.erase_self ..)
          have hview : (w.view scripts).mapWallet txin.prevout.hash = some kept.wtx := by
            rw [hhash]
            exact view_mapWallet hold
          rw [getDebitIn_of_none hnew]
          exact (getDebitIn_eq_zero hview
            (hfree hbacked kept hold k kept₁ heq hk hcached txin hin hhash)).symm
    · refine getDebitIn_congr ?_ rfl
      exact congrArg (Option.map KeptTx.wtx) (Lib.PMap.erase_of_ne hhash)
  · exact h

/-- An output that does not turn counts the same. -/
theorem not_turns {v v' : CWallet} {txout : CTxOut} (h : ¬ Turns v v' txout) :
    v'.isMine txout.scriptPubKey = v.isMine txout.scriptPubKey ∨ txout.nValue = 0 := by
  by_contra hno
  rw [not_or] at hno
  exact h hno

theorem Coherent.addCScript (h : Coherent scripts w) {redeemScript : CScript}
    (hfree : ScriptFree scripts w redeemScript) :
    Coherent scripts (w.addCScript scripts redeemScript) := by
  intro hash kept hw
  replace hw : w.mapWallet hash = some kept := hw
  obtain ⟨hdebit, hcredit, havailable⟩ := h hash kept hw
  refine ⟨fun hc => ?_, fun hc => ?_, fun hc => ?_⟩
  · refine Eq.trans (CWallet.getDebit_congr fun txin hin => ?_) (hdebit hc)
    cases hprev : w.mapWallet txin.prevout.hash with
    | none =>
        have hnone : (w.view scripts).mapWallet txin.prevout.hash = none :=
          congrArg (Option.map KeptTx.wtx) hprev
        rw [getDebitIn_of_none hnone]
        exact getDebitIn_of_none hnone
    | some prev =>
        have hsome : (w.view scripts).mapWallet txin.prevout.hash = some prev.wtx :=
          view_mapWallet hprev
        have hsome' : ((w.addCScript scripts redeemScript).view scripts).mapWallet
            txin.prevout.hash = some prev.wtx := hsome
        rw [getDebitIn_eq hsome, getDebitIn_eq hsome']
        cases hout : prev.wtx.tx.vout[txin.prevout.n]? with
        | none => rfl
        | some txout =>
            obtain hmine | hzero :=
              not_turns (hfree.debit hash kept hw hc txin hin prev txout hprev hout)
            · simp [hmine]
            · simp [hzero]
  · refine Eq.trans (CWallet.getCredit_congr fun txout hmem => ?_) (hcredit hc)
    exact CWallet.getCreditOut_congr (not_turns (hfree.credit hash kept hw hc txout hmem))
  · refine Eq.trans (CWallet.getAvailableCredit_congr rfl fun i txout hi => ?_) (havailable hc)
    exact ⟨rfl, fun hunspent => CWallet.getCreditOut_congr
      (not_turns (hfree.available hash kept hw hc i txout hi hunspent))⟩

theorem Coherent.addToWallet (h : Coherent scripts w) {wtxIn : KeptTx} {fWritten : Bool}
    (hfree : w.mapWallet (env.getHash wtxIn.wtx.tx) = none →
      DebitFree scripts w (env.getHash wtxIn.wtx.tx) wtxIn.wtx.tx) :
    Coherent scripts (Lib.final (w.addToWallet scripts env maturity wtxIn fWritten)) := by
  unfold KeptWallet.addToWallet
  dsimp only
  cases hw : w.mapWallet (env.getHash wtxIn.wtx.tx) with
  | none =>
      have hinsert : Coherent scripts
          (w.setTx (env.getHash wtxIn.wtx.tx) wtxIn.markDirty) := h.insert hw (hfree hw) rfl
      dsimp only
      split_ifs
      · exact hinsert.walletUpdateSpent wtxIn.wtx.tx
      · exact hinsert
  | some kept =>
      have hmerge : Coherent scripts
          (w.setTx (env.getHash wtxIn.wtx.tx) (kept.markDirty.merge wtxIn.wtx)) := by
        refine h.setTx hw ?_ ⟨nofun, nofun, nofun⟩
        exact CWallet.mergeTx_tx kept.wtx wtxIn.wtx
      dsimp only
      split_ifs
      · exact hmerge.walletUpdateSpent kept.wtx.tx
      · exact hmerge

theorem ofTx_tx (env : Env) (tx : CTransaction) (pblock : Option CBlock) :
    (CWalletTx.ofTx env tx pblock).tx = tx := by
  unfold CWalletTx.ofTx
  split
  · rfl
  · exact CWallet.setMerkleBranch_tx _

theorem Coherent.addToWalletIfInvolvingMe (h : Coherent scripts w) {tx : CTransaction}
    {pblock : Option CBlock} {fUpdate fWritten : Bool}
    (hfree : w.mapWallet (env.getHash tx) = none →
      (w.view scripts).isMineTx tx = true ∨ (w.view scripts).isFromMe tx = .ok true →
        DebitFree scripts w (env.getHash tx) tx) :
    Coherent scripts (Lib.final
      (w.addToWalletIfInvolvingMe scripts env maturity tx pblock fUpdate fWritten)) := by
  have hadd : (w.mapWallet (env.getHash tx) = none → DebitFree scripts w (env.getHash tx) tx) →
      Coherent scripts (Lib.final (w.addToWallet scripts env maturity
        { wtx := CWalletTx.ofTx env tx pblock } fWritten)) := by
    intro hnew
    apply h.addToWallet
    rw [ofTx_tx]
    exact hnew
  unfold KeptWallet.addToWalletIfInvolvingMe
  dsimp only
  split_ifs with hskip hinvolved
  · exact h
  · apply hadd
    intro hnone
    rw [hnone] at hinvolved
    exact hfree hnone (.inl (by simpa using hinvolved))
  · split
    · exact h
    · next hfrom => exact hadd fun hnone => hfree hnone (.inr hfrom)
    · exact h.walletUpdateSpent tx

theorem Coherent.step (h : Coherent scripts w) {op : WalletOp} (hcareful : Careful env scripts w op) :
    Coherent scripts (w.step env scripts op) := by
  cases op with
  | addToWallet maturity wtxIn fWritten => exact h.addToWallet hcareful
  | addToWalletIfInvolvingMe maturity tx pblock fUpdate fWritten =>
      exact h.addToWalletIfInvolvingMe hcareful
  | walletUpdateSpent maturity tx => exact h.walletUpdateSpent tx
  | markSpent hash nOut => exact h.markSpent hash nOut true
  | markUnspent hash nOut => exact h.markSpent hash nOut false
  | disableTransaction tx => exact h.disableTransaction tx
  | fixSpentCoins readTxIndex fCheckOnly => exact h.fixSpentCoins readTxIndex fCheckOnly
  | addKey address => exact coherent_markDirty _
  | markDirty => exact coherent_markDirty w
  | addCScript redeemScript => exact h.addCScript hcareful
  | eraseFromWallet hash => exact h.eraseFromWallet hcareful
  | getDebit hash => exact h.query (fun _ _ _ hok hget => getDebit_keeps hok hget) hash
  | getCredit maturity hash fUseCache =>
      exact h.query (fun _ _ _ hok hget => getCredit_keeps hok hget) hash
  | getAvailableCredit maturity hash fUseCache =>
      exact h.query (fun _ _ _ hok hget => getAvailableCredit_keeps hok hget) hash

/-! ## Runs -/

/-- The wallets that careful calls lead to -/
inductive CarefulRun (env : Env) (scripts : ScriptEnv) (w : KeptWallet) : KeptWallet → Prop
  | start : CarefulRun env scripts w w
  | step {w' : KeptWallet} {op : WalletOp} : CarefulRun env scripts w w' →
      Careful env scripts w' op → CarefulRun env scripts w (w'.step env scripts op)

theorem CarefulRun.coherent (h : CarefulRun env scripts w w') (hloaded : w.Loaded) :
    Coherent scripts w' := by
  induction h with
  | start => exact Loaded.coherent hloaded
  | step _ hcareful ih => exact ih.step hcareful

/-- As long as no call comes or goes under a number that is kept, the numbers are right. -/
theorem balancesMatch_of_careful (hloaded : w.Loaded) (h : CarefulRun env scripts w w') :
    w'.BalancesMatch scripts :=
  (h.coherent hloaded).balancesMatch

/-! ## A redeem script that comes late -/

/-- Scripts of a byte for the kind and the rest for the hash -/
def sampleScripts : ScriptEnv where
  solver script := match script with
    | 1 :: hash160 => some (.pubkeyhash hash160)
    | 2 :: hash160 => some (.scripthash hash160)
    | _ => none
  hash160 := id
  pubkeyVersion := 63

def keyScript : CScript := [1, 7]

/-- It pays to the hash of a script that the wallet does not know yet. -/
def scriptHashTx : CTransaction := { vin := [], vout := [{ nValue := 5, scriptPubKey := [2, 1, 7] }] }

def keyWallet : KeptWallet where
  keystore := { mapKeys := [⟨63, [7]⟩] }
  mapWallet := .empty
  fFileBacked := true

/-- The credit is asked for before the redeem script is there. -/
def lateScript : List WalletOp :=
  [.addToWallet (fun _ => 0) { wtx := { tx := scriptHashTx } } true, .getCredit (fun _ => 0) 1 true,
    .addCScript keyScript]

theorem keyWallet_loaded : keyWallet.Loaded := by
  intro hash kept hw
  cases (hw : none = some kept)

/-- The credit that is kept leaves out what the redeem script makes the wallet's own. -/
theorem not_balancesMatch_lateScript :
    ¬ ∀ (env : Env) (scripts : ScriptEnv) (w : KeptWallet) (ops : List WalletOp), w.Loaded →
      (ops.foldl (step env scripts) w).BalancesMatch scripts := by
  intro hall
  have hmatch := hall .plain sampleScripts keyWallet lateScript keyWallet_loaded (fun _ => 0) 1
    { wtx := { tx := scriptHashTx }, fCreditCached := true, nCreditCached := 0 } rfl rfl
  obtain ⟨-, hcredit, -⟩ := hmatch
  cases hcredit

/-- When the redeem script is there before the transaction, all goes well. -/
theorem balancesMatch_of_careful_keyWallet :
    (((keyWallet.step .plain sampleScripts (.addCScript keyScript)).step .plain sampleScripts
      (.addToWallet (fun _ => 0) { wtx := { tx := scriptHashTx } } true)).step .plain sampleScripts
      (.getCredit (fun _ => 0) 1 true)).BalancesMatch sampleScripts := by
  have hscript : ScriptFree sampleScripts keyWallet keyScript :=
    ⟨fun _ _ hw => (by cases hw), fun _ _ hw => (by cases hw), fun _ _ hw => (by cases hw)⟩
  apply balancesMatch_of_careful keyWallet_loaded
  refine .step (.step (.step .start hscript) fun _ h kept hne hw => ?_) trivial
  cases hw

end KeptWallet

end ShinyCoin

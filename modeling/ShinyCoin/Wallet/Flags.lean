import ShinyCoin.Wallet.Sync
import Mathlib.Data.List.GetD

/-!
# The spent flags of a wallet

What is left of a wallet's `vfSpent` after blocks were taken off and others put on. A coinstake that
is taken off refunds the outputs it staked; a transaction that is put on marks those it spends, and
may be added to the wallet. Nothing takes this back: the flags are the old ones only where the two
happen to cancel out (`syncBlocks_flags_iff`).
-/

namespace ShinyCoin

/-! ## One flag -/

namespace CWalletTx

theorem length_resizeSpent (wtx : CWalletTx) : wtx.resizeSpent.length = wtx.tx.vout.length := by
  simp only [resizeSpent, List.length_append, List.length_take, List.length_replicate]
  omega

theorem getD_resizeSpent (wtx : CWalletTx) {n : Nat} (hn : n < wtx.tx.vout.length) :
    wtx.resizeSpent.getD n false = wtx.vfSpent.getD n false := by
  rw [resizeSpent]
  by_cases h : n < wtx.vfSpent.length
  · have hlen : n < (wtx.vfSpent.take wtx.tx.vout.length).length := by
      rw [List.length_take]
      omega
    rw [List.getD_append _ _ _ _ hlen]
    simp [List.getD, hn]
  · have hlen : (wtx.vfSpent.take wtx.tx.vout.length).length ≤ n := by
      rw [List.length_take]
      omega
    rw [List.getD_append_right _ _ _ _ hlen, List.getD_eq_default _ _ (not_lt.mp h)]
    apply List.getD_replicate
    rw [List.length_take]
    omega

theorem length_setSpent (wtx : CWalletTx) (n : Nat) (b : Bool) :
    (wtx.setSpent n b).vfSpent.length = wtx.tx.vout.length := by
  rw [setSpent, List.length_set, length_resizeSpent]

theorem getD_setSpent (wtx : CWalletTx) (b : Bool) {n m : Nat} (hm : m < wtx.tx.vout.length) :
    (wtx.setSpent n b).vfSpent.getD m false = if m = n then b else wtx.vfSpent.getD m false := by
  have hlen : m < wtx.resizeSpent.length := by rwa [length_resizeSpent]
  rw [← getD_resizeSpent wtx hm, setSpent, List.getD_eq_getElem?_getD, List.getD_eq_getElem?_getD,
    List.getElem?_set]
  by_cases h : n = m
  · subst h
    simp [hlen]
  · rw [if_neg h, if_neg (Ne.symm h)]

end CWalletTx

namespace CWallet

/-- The flags of every transaction of the wallet. -/
def flags (w : CWallet) (hash : Uint256) : Option (List Bool) :=
  (w.mapWallet hash).map CWalletTx.vfSpent

/-- The flag of an output of the wallet. -/
def marked (w : CWallet) (o : COutPoint) : Bool := ((w.flags o.hash).getD []).getD o.n false

/-- The outputs of the wallet's own that a transaction spends. -/
def ownSpends (w : CWallet) (tx : CTransaction) : List COutPoint :=
  (tx.vin.map CTxIn.prevout).filter fun o => (w.ownOutput o).isSome

theorem mem_ownSpends {w : CWallet} {tx : CTransaction} {o : COutPoint} :
    o ∈ w.ownSpends tx ↔ o ∈ tx.vin.map CTxIn.prevout ∧ (w.ownOutput o).isSome = true :=
  List.mem_filter

/-- An output of the wallet's own is an output of one of its transactions. -/
theorem exists_of_ownOutput {w : CWallet} {o : COutPoint} (h : (w.ownOutput o).isSome = true) :
    ∃ wtx, w.mapWallet o.hash = some wtx ∧ o.n < wtx.tx.vout.length := by
  rw [ownOutput] at h
  cases hw : w.mapWallet o.hash with
  | none =>
      rw [hw] at h
      exact Bool.noConfusion h
  | some wtx =>
      refine ⟨wtx, rfl, ?_⟩
      rw [hw, Option.bind_some] at h
      by_contra hn
      rw [List.getElem?_eq_none (not_lt.mp hn)] at h
      exact Bool.noConfusion h

end CWallet

/-! ## Refunds and marks -/

/-- The flags of `v` are those of `w` with the outputs `refunds` unmarked and then the outputs
`marks` marked. An entry with a refund has been resized; one without keeps its list if every mark
was there before. -/
structure FlagInv (w : CWallet) (refunds marks : List COutPoint) (v : CWallet) : Prop where
  txs : SameTxs w v
  reads : ∀ h wtx wtx' n, w.mapWallet h = some wtx → v.mapWallet h = some wtx' →
    n < wtx.tx.vout.length → wtx'.vfSpent.getD n false
      = if ⟨h, n⟩ ∈ marks then true else if ⟨h, n⟩ ∈ refunds then false else wtx.vfSpent.getD n false
  resized : ∀ o ∈ refunds, ∀ wtx', v.mapWallet o.hash = some wtx' →
    wtx'.vfSpent.length = wtx'.tx.vout.length
  kept : ∀ h wtx wtx', w.mapWallet h = some wtx → v.mapWallet h = some wtx' →
    (∀ o ∈ refunds, o.hash ≠ h) → (∀ o ∈ marks, o.hash = h → w.marked o = true) →
    wtx'.vfSpent = wtx.vfSpent

/-- The entry an own output belongs to, before and after. -/
theorem SameTxs.exists_entry {w v : CWallet} (h : SameTxs w v) {hash : Uint256} {wtx : CWalletTx}
    (hw : w.mapWallet hash = some wtx) : ∃ wtx', v.mapWallet hash = some wtx' ∧ wtx'.tx = wtx.tx := by
  have := h.txs hash
  rw [hw, Option.map_some] at this
  exact Option.map_eq_some_iff.mp this

theorem CWallet.marked_eq {w : CWallet} {o : COutPoint} {wtx : CWalletTx}
    (hw : w.mapWallet o.hash = some wtx) : w.marked o = wtx.vfSpent.getD o.n false := by
  simp [CWallet.marked, CWallet.flags, hw]

namespace FlagInv

variable {w v v' : CWallet} {refunds marks : List COutPoint}

theorem refl (w : CWallet) : FlagInv w [] [] w where
  txs := SameTxs.refl w
  reads := by
    intro h wtx wtx' n hw hw' _
    rw [hw] at hw'
    cases hw'
    simp
  resized := by simp
  kept := by
    intro h wtx wtx' hw hw' _ _
    rw [hw] at hw'
    cases hw'
    rfl

/-- The entry of `v` for an entry of `w`, after one of its outputs was set. -/
theorem setTx_cases {h k : Uint256} {prev wtx' : CWalletTx} {n : Nat} {b : Bool}
    (hk : (v.setTx h (prev.setSpent n b)).mapWallet k = some wtx') :
    (k = h ∧ wtx' = prev.setSpent n b) ∨ (k ≠ h ∧ v.mapWallet k = some wtx') := by
  rw [show (v.setTx h (prev.setSpent n b)).mapWallet
    = v.mapWallet.set h (prev.setSpent n b) from rfl, Lib.PMap.set_apply] at hk
  split at hk
  · next heq => exact .inl ⟨heq, (Option.some.inj hk).symm⟩
  · next hne => exact .inr ⟨hne, hk⟩

/-- What an entry of `v` reads once an output was set. -/
theorem getD_setTx {o : COutPoint} {prev wtx' : CWalletTx} {b : Bool} {k : Uint256} {n : Nat}
    (hprev : v.mapWallet o.hash = some prev)
    (hk : (v.setTx o.hash (prev.setSpent o.n b)).mapWallet k = some wtx')
    (hn : n < wtx'.tx.vout.length) :
    ∃ wtx₁, v.mapWallet k = some wtx₁ ∧
      wtx'.vfSpent.getD n false = if ⟨k, n⟩ = o then b else wtx₁.vfSpent.getD n false := by
  rcases setTx_cases hk with ⟨rfl, rfl⟩ | ⟨hne, hk⟩
  · refine ⟨prev, hprev, ?_⟩
    rw [CWalletTx.getD_setSpent prev b hn]
    by_cases heq : n = o.n
    · rw [heq, if_pos rfl, if_pos rfl]
    · rw [if_neg heq, if_neg fun h => heq (congrArg COutPoint.n h)]
  · exact ⟨wtx', hk, by rw [if_neg fun h => hne (congrArg COutPoint.hash h)]⟩

/-- The entry of `w` a set entry of `v` comes from. -/
theorem entry_tx (hI : FlagInv w refunds marks v) {o : COutPoint} {prev wtx wtx' : CWalletTx}
    {b : Bool} {k : Uint256} (hprev : v.mapWallet o.hash = some prev)
    (hw : w.mapWallet k = some wtx)
    (hk : (v.setTx o.hash (prev.setSpent o.n b)).mapWallet k = some wtx') : wtx'.tx = wtx.tx := by
  obtain ⟨wtx₁, h₁, htx⟩ :=
    (hI.txs.trans (SameTxs.setTx hprev (CWalletTx.setSpent_tx prev o.n b))).exists_entry hw
  rw [hk] at h₁
  cases h₁
  exact htx

/-- A round of `DisableTransaction`. -/
theorem refundInput (hI : FlagInv w refunds [] v) (txin : CTxIn) :
    FlagInv w (refunds ++ ([txin.prevout].filter fun o => (w.ownOutput o).isSome)) []
      (v.refundInput txin) := by
  rcases CWallet.refundInput_cases v txin with ⟨h, hown⟩ | ⟨prev, hprev, hown, h⟩ <;> rw [h] <;>
    rw [hI.txs.ownOutput] at hown
  · simpa [hown] using hI
  · simp only [List.filter_cons, hown, if_true, List.filter_nil]
    refine ⟨hI.txs.trans (SameTxs.setTx hprev rfl), ?_, ?_, ?_⟩
    · intro k wtx wtx' n hw hk hn
      have htx := hI.entry_tx hprev hw hk
      obtain ⟨wtx₁, h₁, hread⟩ := getD_setTx hprev hk (by rw [htx]; exact hn)
      rw [hread, hI.reads k wtx wtx₁ n hw h₁ hn]
      by_cases heq : (⟨k, n⟩ : COutPoint) = txin.prevout <;> simp [heq]
    · intro o ho wtx' hk
      rcases setTx_cases hk with ⟨-, rfl⟩ | ⟨hne, hk⟩
      · exact CWalletTx.length_setSpent _ _ _
      · rcases List.mem_append.mp ho with ho | ho
        · exact hI.resized o ho wtx' hk
        · exact absurd (by rw [List.mem_singleton.mp ho]) hne
    · intro k wtx wtx' hw hk hno hmarks
      rcases setTx_cases hk with ⟨rfl, rfl⟩ | ⟨hne, hk⟩
      · exact absurd rfl (hno txin.prevout (by simp))
      · exact hI.kept k wtx wtx' hw hk (fun o ho => hno o (List.mem_append_left _ ho)) hmarks

/-- A round of `WalletUpdateSpent`. -/
theorem updateSpentBy (hI : FlagInv w refunds marks v) {txin : CTxIn}
    (h : v.updateSpentBy txin = .ok v') :
    FlagInv w refunds (marks ++ ([txin.prevout].filter fun o => (w.ownOutput o).isSome)) v' := by
  rcases CWallet.updateSpentBy_cases h with hcase | ⟨prev, hprev, hunmarked, hown, rfl⟩
  · obtain ⟨rfl, hcase⟩ := hcase
    cases hown : (w.ownOutput txin.prevout).isSome with
    | false => simpa [hown] using hI
    | true =>
        -- the output was marked already
        rw [hI.txs.ownOutput, hown] at hcase
        obtain ⟨wtx₁, h₁, hmarked⟩ := hcase.resolve_left Bool.noConfusion
        simp only [List.filter_cons, hown, if_true, List.filter_nil]
        refine ⟨hI.txs, ?_, hI.resized, ?_⟩
        · intro k wtx wtx' n hw hk hn
          by_cases heq : (⟨k, n⟩ : COutPoint) = txin.prevout
          · rw [← heq] at h₁ hmarked
            rw [hk] at h₁
            cases h₁
            rw [hmarked]
            simp [heq]
          · rw [hI.reads k wtx wtx' n hw hk hn]
            simp [heq]
        · intro k wtx wtx' hw hk hno hmarks
          exact hI.kept k wtx wtx' hw hk hno fun o ho => hmarks o (List.mem_append_left _ ho)
  · rw [hI.txs.ownOutput] at hown
    simp only [List.filter_cons, hown, if_true, List.filter_nil]
    refine ⟨hI.txs.trans (SameTxs.setTx hprev rfl), ?_, ?_, ?_⟩
    · intro k wtx wtx' n hw hk hn
      have htx := hI.entry_tx hprev hw hk
      obtain ⟨wtx₁, h₁, hread⟩ := getD_setTx hprev hk (by rw [htx]; exact hn)
      rw [hread, hI.reads k wtx wtx₁ n hw h₁ hn]
      by_cases heq : (⟨k, n⟩ : COutPoint) = txin.prevout <;> simp [heq]
    · intro o ho wtx' hk
      rcases setTx_cases hk with ⟨-, rfl⟩ | ⟨hne, hk⟩
      · exact CWalletTx.length_setSpent _ _ _
      · exact hI.resized o ho wtx' hk
    · intro k wtx wtx' hw hk hno hmarks
      rcases setTx_cases hk with ⟨rfl, rfl⟩ | ⟨hne, hk⟩
      · -- the output was not marked before either, since nothing was refunded in this entry
        have hbefore := hI.kept _ wtx prev hw hprev hno fun o ho =>
          hmarks o (List.mem_append_left _ ho)
        have := hmarks txin.prevout (by simp) rfl
        rw [CWallet.marked_eq hw, ← hbefore, hunmarked] at this
        exact Bool.noConfusion this
      · exact hI.kept k wtx wtx' hw hk hno fun o ho => hmarks o (List.mem_append_left _ ho)

/-- The loop of `DisableTransaction`. -/
theorem refundInputs (txins : List CTxIn) (hI : FlagInv w refunds [] v) :
    FlagInv w (refunds ++ (txins.map CTxIn.prevout).filter fun o => (w.ownOutput o).isSome) []
      (txins.foldl CWallet.refundInput v) := by
  induction txins generalizing refunds v with
  | nil => simpa using hI
  | cons txin txins ih =>
      have := ih (hI.refundInput txin)
      rw [List.append_assoc, ← List.filter_append] at this
      exact this

theorem walletUpdateSpent {tx : CTransaction} (hI : FlagInv w refunds marks v)
    (h : v.walletUpdateSpent tx = .ok v') : FlagInv w refunds (marks ++ w.ownSpends tx) v' := by
  rw [CWallet.walletUpdateSpent] at h
  rw [CWallet.ownSpends]
  generalize tx.vin = txins at h ⊢
  induction txins generalizing marks v with
  | nil =>
      cases h
      simpa using hI
  | cons txin txins ih =>
      obtain ⟨v₁, h₁, h⟩ := Lib.bind_eq_ok.mp h
      have := ih (hI.updateSpentBy h₁) h
      rw [List.append_assoc, ← List.filter_append] at this
      exact this

/-- An entry whose transaction and flags stay the same. -/
theorem setTx (hI : FlagInv w refunds marks v) {h : Uint256} {wtx wtx' : CWalletTx}
    (hv : v.mapWallet h = some wtx) (htx : wtx'.tx = wtx.tx) (hf : wtx'.vfSpent = wtx.vfSpent) :
    FlagInv w refunds marks (v.setTx h wtx') := by
  have hsame : ∀ k wtx₁, (v.setTx h wtx').mapWallet k = some wtx₁ →
      ∃ wtx₂, v.mapWallet k = some wtx₂ ∧ wtx₁.tx = wtx₂.tx ∧ wtx₁.vfSpent = wtx₂.vfSpent := by
    intro k wtx₁ hk
    rw [show (v.setTx h wtx').mapWallet = v.mapWallet.set h wtx' from rfl, Lib.PMap.set_apply] at hk
    split at hk
    · next heq =>
      cases hk
      exact ⟨wtx, by rw [heq]; exact hv, htx, hf⟩
    · exact ⟨wtx₁, hk, rfl, rfl⟩
  refine ⟨hI.txs.trans (SameTxs.setTx hv htx), ?_, ?_, ?_⟩
  · intro k wtx₀ wtx₁ n hw hk hn
    obtain ⟨wtx₂, h₂, -, hf₂⟩ := hsame k wtx₁ hk
    rw [hf₂]
    exact hI.reads k wtx₀ wtx₂ n hw h₂ hn
  · intro o ho wtx₁ hk
    obtain ⟨wtx₂, h₂, htx₂, hf₂⟩ := hsame _ wtx₁ hk
    rw [hf₂, htx₂]
    exact hI.resized o ho wtx₂ h₂
  · intro k wtx₀ wtx₁ hw hk hno hmarks
    obtain ⟨wtx₂, h₂, -, hf₂⟩ := hsame k wtx₁ hk
    rw [hf₂]
    exact hI.kept k wtx₀ wtx₂ hw h₂ hno hmarks

end FlagInv

/-! ## Blocks taken off and put on -/

namespace CWallet

/-- The wallet is told that the transactions `off` are disconnected. -/
def syncOff (w : CWallet) (off : List CTransaction) : Except (Err × CWallet) CWallet :=
  off.foldlM (fun w tx => if tx.isCoinStake then w.syncDisconnectedTx tx else .ok w) w

/-- The wallet is told that the transactions `on` are connected, each with its block. -/
def syncOn (env : Env) (w : CWallet) (on : List (CBlock × CTransaction)) :
    Except (Err × CWallet) CWallet :=
  on.foldlM (fun w x => w.addToWalletIfInvolvingMe env x.2 x.1) w

/-- `IsFromMe`, when it returns. -/
def fromMe (w : CWallet) (tx : CTransaction) : Bool := (w.isFromMe tx).toOption.getD false

/-- What the wallet has under a transaction's hash, or else the transaction. -/
def seenTx (env : Env) (w : CWallet) (tx : CTransaction) : CTransaction :=
  ((w.mapWallet (env.getHash tx)).map CWalletTx.tx).getD tx

/-- The transaction is new to the wallet, and pays it or spends from it. -/
def adds (env : Env) (w : CWallet) (tx : CTransaction) : Bool :=
  (w.mapWallet (env.getHash tx)).isNone && (w.isMineTx tx || w.fromMe tx)

/-- The outputs of the wallet's own that its coinstakes among `off` had staked. -/
def refundedBy (w : CWallet) (off : List CTransaction) : List COutPoint :=
  off.flatMap fun tx => if tx.isCoinStake && w.fromMe tx then w.ownSpends tx else []

/-- The outputs of the wallet's own that `on` spends. -/
def spentBy (env : Env) (w : CWallet) (on : List (CBlock × CTransaction)) : List COutPoint :=
  on.flatMap fun x => w.ownSpends (w.seenTx env x.2)

/-- Taking `off` off and putting `on` on leaves the wallet's flags as they are: `on` brings nothing
new, everything it spends was marked, and whatever `off` had staked was not, unless `on` spends it
again. -/
structure Settled (env : Env) (w : CWallet) (off : List CTransaction)
    (on : List (CBlock × CTransaction)) : Prop where
  noneAdded : ∀ x ∈ on, w.adds env x.2 = false
  fullLength : ∀ o ∈ w.refundedBy off, ∀ wtx, w.mapWallet o.hash = some wtx →
    wtx.vfSpent.length = wtx.tx.vout.length
  refunded : ∀ o ∈ w.refundedBy off, o ∉ w.spentBy env on → w.marked o = false
  spent : ∀ o ∈ w.spentBy env on, w.marked o = true

theorem mergeTx_vfSpent (env : Env) (wtx : CWalletTx) (tx : CTransaction) (block : CBlock) :
    (mergeTx wtx (CWalletTx.setMerkleBranch env { tx := tx } block)).vfSpent = wtx.vfSpent := by
  have hnone : (CWalletTx.setMerkleBranch env { tx := tx } block).vfSpent = [] := by
    rw [CWalletTx.setMerkleBranch]
    split <;> rfl
  have hupdate : ∀ wtx : CWalletTx, (wtx.updateSpent []).vfSpent = wtx.vfSpent := by
    intro wtx
    apply List.ext_getElem?
    intro i
    simp [CWalletTx.updateSpent]
  simp only [mergeTx, hnone, hupdate]
  split_ifs <;> rfl

variable {env : Env} {w v v' : CWallet}

theorem fromMe_of_ok {tx : CTransaction} {b : Bool} (h : w.isFromMe tx = .ok b) :
    w.fromMe tx = b := by
  rw [fromMe, h]
  rfl

/-- An entry is never removed. -/
theorem isSome_of_addToWalletIfInvolvingMe {tx : CTransaction} {block : CBlock}
    (h : v.addToWalletIfInvolvingMe env tx block = .ok v') {k : Uint256}
    (hk : (v.mapWallet k).isSome = true) : (v'.mapWallet k).isSome = true := by
  have hset : ∀ (h' : Uint256) (wtx : CWalletTx),
      ((v.setTx h' wtx).mapWallet k).isSome = true := by
    intro h' wtx
    rw [show (v.setTx h' wtx).mapWallet = v.mapWallet.set h' wtx from rfl, Lib.PMap.set_apply]
    split
    · rfl
    · exact hk
  have hsame : ∀ v₁ : CWallet, SameTxs v₁ v' → (v₁.mapWallet k).isSome = true →
      (v'.mapWallet k).isSome = true := by
    intro v₁ h₁ hs
    rw [← Option.isSome_map (f := CWalletTx.tx), h₁.txs, Option.isSome_map]
    exact hs
  rcases addToWalletIfInvolvingMe_cases h with ⟨wtx, -, h⟩ | ⟨-, -, h⟩ | ⟨-, -, -, h⟩
  · exact hsame _ (walletUpdateSpent_sameTxs h) (hset _ _)
  · exact hsame _ (walletUpdateSpent_sameTxs h) (hset _ _)
  · exact hsame _ (walletUpdateSpent_sameTxs h) hk

theorem isSome_of_syncOn {on : List (CBlock × CTransaction)} (h : v.syncOn env on = .ok v')
    {k : Uint256} (hk : (v.mapWallet k).isSome = true) : (v'.mapWallet k).isSome = true :=
  Lib.foldlM_ok_inv (fun _ (u : CWallet) => (u.mapWallet k).isSome = true)
    (fun _ _ _ _ hI hstep => isSome_of_addToWalletIfInvolvingMe hstep hI) hk h

end CWallet

namespace FlagInv

variable {env : Env} {w v v' : CWallet} {refunds marks : List COutPoint}

/-- A coinstake that is disconnected. -/
theorem syncDisconnectedTx {tx : CTransaction} (hI : FlagInv w refunds [] v)
    (hcs : tx.isCoinStake = true) (h : v.syncDisconnectedTx tx = .ok v') :
    FlagInv w (refunds ++ if w.fromMe tx then w.ownSpends tx else []) [] v' := by
  rcases CWallet.syncDisconnectedTx_cases hcs h with ⟨hf, rfl⟩ | ⟨hf, rfl⟩ <;>
    rw [hI.txs.isFromMe] at hf <;> rw [CWallet.fromMe_of_ok hf]
  · simpa using hI
  · exact hI.refundInputs tx.vin

theorem syncOff {off : List CTransaction} (hI : FlagInv w refunds [] v)
    (h : v.syncOff off = .ok v') : FlagInv w (refunds ++ w.refundedBy off) [] v' := by
  induction off generalizing refunds v with
  | nil =>
      cases h
      simpa [CWallet.refundedBy] using hI
  | cons tx off ih =>
      obtain ⟨v₁, h₁, h⟩ := Lib.bind_eq_ok.mp h
      dsimp only at h₁
      have hstep : FlagInv w
          (refunds ++ if tx.isCoinStake && w.fromMe tx then w.ownSpends tx else []) [] v₁ := by
        cases hcs : tx.isCoinStake with
        | true =>
            rw [hcs, if_pos rfl] at h₁
            simpa using hI.syncDisconnectedTx hcs h₁
        | false =>
            rw [hcs, if_neg Bool.false_ne_true] at h₁
            cases h₁
            simpa using hI
      have := ih hstep h
      rw [List.append_assoc] at this
      simpa only [CWallet.refundedBy, List.flatMap_cons] using this

/-- A transaction that is connected either marks what it spends, or is added. -/
theorem addToWalletIfInvolvingMe {tx : CTransaction} {block : CBlock}
    (hI : FlagInv w refunds marks v) (h : v.addToWalletIfInvolvingMe env tx block = .ok v') :
    w.adds env tx = false ∧ FlagInv w refunds (marks ++ w.ownSpends (w.seenTx env tx)) v' ∨
      w.adds env tx = true ∧ (w.mapWallet (env.getHash tx)).isSome = false ∧
        (v'.mapWallet (env.getHash tx)).isSome = true := by
  have htxs := hI.txs.txs (env.getHash tx)
  rcases CWallet.addToWalletIfInvolvingMe_cases h with ⟨wtx, hw, h⟩ | ⟨hw, hmine, h⟩ |
    ⟨hw, hmine, hfrom, h⟩
  · -- an entry that is there already
    left
    rw [hw, Option.map_some] at htxs
    obtain ⟨wtx₀, hw₀, htx⟩ := Option.map_eq_some_iff.mp htxs.symm
    refine ⟨by simp [CWallet.adds, hw₀], ?_⟩
    have hseen : w.seenTx env tx = wtx.tx := by simp [CWallet.seenTx, hw₀, htx]
    rw [hseen]
    exact (hI.setTx hw (CWallet.mergeTx_tx _ _)
      (CWallet.mergeTx_vfSpent env wtx tx block)).walletUpdateSpent h
  · -- a new entry
    right
    rw [hw, Option.map_none] at htxs
    have hw₀ : w.mapWallet (env.getHash tx) = none := Option.map_eq_none_iff.mp htxs.symm
    refine ⟨?_, by rw [hw₀]; rfl, ?_⟩
    · have : (w.isMineTx tx || w.fromMe tx) = true := by
        rcases hmine with hmine | hfrom
        · rw [CWallet.isMineTx, hI.txs.isMine] at hmine
          rw [CWallet.isMineTx, hmine, Bool.true_or]
        · rw [hI.txs.isFromMe] at hfrom
          rw [CWallet.fromMe_of_ok hfrom, Bool.or_true]
      rw [CWallet.adds, hw₀, this]
      rfl
    · have hsame := (CWallet.walletUpdateSpent_sameTxs h).txs (env.getHash tx)
      rw [show ∀ wtx, (v.setTx (env.getHash tx) wtx).mapWallet (env.getHash tx) = some wtx from
        fun wtx => Lib.PMap.set_self _ _ _] at hsame
      obtain ⟨wtx', hw', -⟩ := Option.map_eq_some_iff.mp hsame
      rw [hw']
      rfl
  · -- a transaction that does not involve the wallet
    left
    rw [hw, Option.map_none] at htxs
    have hw₀ : w.mapWallet (env.getHash tx) = none := Option.map_eq_none_iff.mp htxs.symm
    rw [CWallet.isMineTx, hI.txs.isMine] at hmine
    rw [hI.txs.isFromMe] at hfrom
    refine ⟨?_, ?_⟩
    · rw [CWallet.adds, CWallet.isMineTx, hmine, CWallet.fromMe_of_ok hfrom, Bool.or_false,
        Bool.and_false]
    · have hseen : w.seenTx env tx = tx := by simp [CWallet.seenTx, hw₀]
      rw [hseen]
      exact hI.walletUpdateSpent h

/-- Blocks put on: unless one of their transactions is added, their spends are marked. -/
theorem syncOn {on : List (CBlock × CTransaction)} (hI : FlagInv w refunds marks v)
    (h : v.syncOn env on = .ok v') :
    (∀ x ∈ on, w.adds env x.2 = false) ∧ FlagInv w refunds (marks ++ w.spentBy env on) v' ∨
      (∃ x ∈ on, w.adds env x.2 = true) ∧
        ∃ k, (w.mapWallet k).isSome = false ∧ (v'.mapWallet k).isSome = true := by
  induction on generalizing marks v with
  | nil =>
      cases h
      exact .inl ⟨by simp, by simpa [CWallet.spentBy] using hI⟩
  | cons x on ih =>
      obtain ⟨v₁, h₁, h⟩ := Lib.bind_eq_ok.mp h
      rcases hI.addToWalletIfInvolvingMe h₁ with ⟨hadds, hI₁⟩ | ⟨hadds, hk, hk'⟩
      · rcases ih hI₁ h with ⟨hnone, hI'⟩ | ⟨⟨y, hy, hadds'⟩, hnew⟩
        · left
          refine ⟨fun y hy => ?_, ?_⟩
          · rcases List.mem_cons.mp hy with rfl | hy
            · exact hadds
            · exact hnone y hy
          · rw [List.append_assoc] at hI'
            simpa only [CWallet.spentBy, List.flatMap_cons] using hI'
        · exact .inr ⟨⟨y, List.mem_cons_of_mem _ hy, hadds'⟩, hnew⟩
      · exact .inr ⟨⟨x, List.mem_cons_self, hadds⟩, _, hk, CWallet.isSome_of_syncOn h hk'⟩

/-- When marks and refunds leave the flags as they were. -/
theorem flags_eq_iff (hI : FlagInv w refunds marks v)
    (hrefunds : ∀ o ∈ refunds, (w.ownOutput o).isSome = true)
    (hmarks : ∀ o ∈ marks, (w.ownOutput o).isSome = true) :
    v.flags = w.flags ↔
      (∀ o ∈ refunds, ∀ wtx, w.mapWallet o.hash = some wtx →
        wtx.vfSpent.length = wtx.tx.vout.length) ∧
      (∀ o ∈ refunds, o ∉ marks → w.marked o = false) ∧ ∀ o ∈ marks, w.marked o = true := by
  constructor
  · intro heq
    -- an own output reads the same before and after
    have hread : ∀ o, (w.ownOutput o).isSome = true → ∃ wtx wtx',
        w.mapWallet o.hash = some wtx ∧ v.mapWallet o.hash = some wtx' ∧
        wtx'.vfSpent = wtx.vfSpent ∧ wtx'.tx = wtx.tx ∧ w.marked o
          = if o ∈ marks then true else if o ∈ refunds then false else w.marked o := by
      intro o ho
      obtain ⟨wtx, hw, hn⟩ := CWallet.exists_of_ownOutput ho
      obtain ⟨wtx', hv, htx⟩ := hI.txs.exists_entry hw
      have hfl : v.flags o.hash = w.flags o.hash := by rw [heq]
      simp only [CWallet.flags, hw, hv, Option.map_some, Option.some.injEq] at hfl
      refine ⟨wtx, wtx', hw, hv, hfl, htx, ?_⟩
      have := hI.reads o.hash wtx wtx' o.n hw hv hn
      rw [hfl, ← CWallet.marked_eq hw] at this
      exact this
    refine ⟨?_, ?_, ?_⟩
    · intro o ho wtx hw
      obtain ⟨wtx₁, wtx', hw₁, hv, hfl, htx, -⟩ := hread o (hrefunds o ho)
      rw [hw] at hw₁
      cases hw₁
      rw [← hfl, ← htx]
      exact hI.resized o ho wtx' hv
    · intro o ho hnot
      obtain ⟨-, -, -, -, -, -, hm⟩ := hread o (hrefunds o ho)
      rw [if_neg hnot, if_pos ho] at hm
      exact hm
    · intro o ho
      obtain ⟨-, -, -, -, -, -, hm⟩ := hread o (hmarks o ho)
      rw [if_pos ho] at hm
      exact hm
  · rintro ⟨hlen, hunmarked, hmarked⟩
    funext k
    have htxs := hI.txs.txs k
    cases hw : w.mapWallet k with
    | none =>
        rw [hw, Option.map_none, Option.map_eq_none_iff] at htxs
        simp [CWallet.flags, hw, htxs]
    | some wtx =>
        obtain ⟨wtx', hv, htx⟩ := hI.txs.exists_entry hw
        simp only [CWallet.flags, hw, hv, Option.map_some, Option.some.injEq]
        by_cases hany : ∃ o ∈ refunds, o.hash = k
        · obtain ⟨o, ho, rfl⟩ := hany
          have hlen' := hI.resized o ho wtx' hv
          have hlen₀ := hlen o ho wtx hw
          apply List.ext_getElem (by rw [hlen', hlen₀, htx])
          intro n hn hn'
          have := hI.reads o.hash wtx wtx' n hw hv (by rw [← hlen₀]; exact hn')
          rw [List.getD_eq_getElem _ _ hn, List.getD_eq_getElem _ _ hn'] at this
          rw [this]
          have hm : w.marked ⟨o.hash, n⟩ = wtx.vfSpent[n] := by
            rw [CWallet.marked, CWallet.flags, hw, Option.map_some, Option.getD_some,
              List.getD_eq_getElem _ _ hn']
          split_ifs with h₁ h₂
          · rw [← hm, hmarked _ h₁]
          · rw [← hm, hunmarked _ h₂ h₁]
          · rfl
        · push Not at hany
          refine hI.kept k wtx wtx' hw hv hany ?_
          rintro o ho -
          exact hmarked o ho

end FlagInv

namespace CWallet

variable {env : Env} {w v w' : CWallet} {off : List CTransaction}
  {on : List (CBlock × CTransaction)}

theorem own_of_mem_refundedBy {o : COutPoint} (h : o ∈ w.refundedBy off) :
    (w.ownOutput o).isSome = true := by
  obtain ⟨tx, -, ho⟩ := List.mem_flatMap.mp h
  split at ho
  · exact (mem_ownSpends.mp ho).2
  · cases ho

theorem own_of_mem_spentBy {o : COutPoint} (h : o ∈ w.spentBy env on) :
    (w.ownOutput o).isSome = true := by
  obtain ⟨x, -, ho⟩ := List.mem_flatMap.mp h
  exact (mem_ownSpends.mp ho).2

/-- After blocks were taken off and others put on, the wallet's flags are what they were exactly
when it was `Settled`. -/
theorem syncBlocks_flags_iff (hoff : w.syncOff off = .ok v) (hon : v.syncOn env on = .ok w') :
    w'.flags = w.flags ↔ w.Settled env off on := by
  have hI : FlagInv w (w.refundedBy off) [] v := (FlagInv.refl w).syncOff hoff
  rcases hI.syncOn hon with ⟨hnone, hI'⟩ | ⟨⟨x, hx, hadds⟩, k, hk, hk'⟩
  · rw [hI'.flags_eq_iff (fun o ho => own_of_mem_refundedBy ho)
      (fun o ho => own_of_mem_spentBy ho)]
    exact ⟨fun ⟨hlen, hr, hs⟩ => ⟨hnone, hlen, hr, hs⟩,
      fun hset => ⟨hset.fullLength, hset.refunded, hset.spent⟩⟩
  · refine iff_of_false ?_ ?_
    · intro heq
      have hfl : w'.flags k = w.flags k := by rw [heq]
      rw [flags, flags] at hfl
      rw [← Option.isSome_map (f := CWalletTx.vfSpent), hfl, Option.isSome_map, hk] at hk'
      exact Bool.noConfusion hk'
    · intro hset
      rw [hset.noneAdded x hx] at hadds
      exact Bool.noConfusion hadds

end CWallet

/-! ## Every wallet -/

section

variable {α : Type} {ws ws' : List CWallet}

/-- A loop of dispatches is a loop for each wallet. -/
theorem foldlM_dispatchWallets {f : α → CWallet → Except (Err × CWallet) CWallet} {l : List α}
    (h : l.foldlM (fun ws a => dispatchWallets (f a) ws) ws = .ok ws') :
    List.Forall₂ (fun w w' => l.foldlM (fun w a => f a w) w = .ok w') ws ws' := by
  induction l generalizing ws with
  | nil =>
      cases h
      exact List.forall₂_same.mpr fun _ _ => rfl
  | cons a l ih =>
      obtain ⟨ws₁, h₁, h⟩ := Lib.bind_eq_ok.mp h
      refine Lib.forall₂_comp ?_ (dispatchWallets_eq_ok.mp h₁) (ih h)
      intro w w₁ w' hw hw'
      rw [List.foldlM_cons, hw]
      exact hw'

theorem syncDisconnected_eq : syncDisconnected = fun ws (tx : CTransaction) => dispatchWallets
    (fun w => if tx.isCoinStake then w.syncDisconnectedTx tx else .ok w) ws := by
  funext ws tx
  rw [syncDisconnected]
  split
  · rfl
  · exact (dispatchWallets_eq_ok.mpr (List.forall₂_same.mpr fun _ _ => rfl)).symm

theorem syncDisconnecteds_ok {off : List CTransaction}
    (h : off.foldlM syncDisconnected ws = .ok ws') :
    List.Forall₂ (fun w w' => w.syncOff off = .ok w') ws ws' := by
  rw [syncDisconnected_eq] at h
  exact foldlM_dispatchWallets h

theorem syncConnecteds_ok {env : Env} {block : CBlock} {txs : List CTransaction}
    (h : txs.foldlM (syncConnected env block) ws = .ok ws') :
    List.Forall₂ (fun w w' => w.syncOn env (txs.map (block, ·)) = .ok w') ws ws' := by
  have := foldlM_dispatchWallets (f := fun tx w => w.addToWalletIfInvolvingMe env tx block) h
  simpa only [CWallet.syncOn, List.foldlM_map] using this

end

end ShinyCoin

import ShinyCoin.Pool.Loose
import ShinyCoin.Script.Address
import ShinyCoin.Wallet.Flags
import ShinyCoin.Wallet.KeyPoolSafe

/-!
# Committing a transaction

`CommitTransaction` has the pool check a new transaction, takes the transaction into the wallet,
marks the outputs it spends, and has the pool accept it, which checks it a second time. The second
check can only say what the first one said: of all that changed in between it looks at nothing.

That a write to the wallet's database fails is left out, as are the address book, the requests that
are counted and the relay to the peers.
-/

namespace ShinyCoin

/-! ## The default key -/

/-- `GetKeyFromPool(result, false)`, with `result` where it returns true -/
def KeyPool.resultFromPool (g : KeyGen) (keypool : ℤ) (s : KeyPool) :
    Except Err (Option Bytes × KeyPool) :=
  match s.reserveKeyFromKeyPool g keypool with
  | ((_, .error e), _) => .error e
  | ((nIndex, .ok key), s) =>
      if nIndex = -1 then
        if s.fLocked then .ok (none, s)
        else
          let (key, s) := s.generateNewKey g
          .ok (some key, { s with kept := key :: s.kept })
      else
        let s := s.keepIndex nIndex
        .ok (some key, { s with kept := key :: s.kept })

/-- What committing needs besides accepting: addresses, new keys, and `-keypool` -/
structure CommitEnv (φ : Type) extends RelayEnv φ where
  addresses : AddressEnv
  g : KeyGen
  keypool : ℤ
  /-- `QT_GUI` is defined. -/
  fQtGui : Bool

section

variable {φ : Type}

/-- One round of "If default receiving address gets used, replace it with a new one" -/
def replaceDefaultKey (cenv : CommitEnv φ) (scriptDefaultKey : CScript) (keys : KeyPool)
    (txout : CTxOut) : Except Err KeyPool :=
  if txout.scriptPubKey = scriptDefaultKey then
    match keys.resultFromPool cenv.g cenv.keypool with
    | .error e => .error e
    | .ok (none, keys) => .ok keys
    | .ok (some newDefaultKey, keys) => .ok { keys with vchDefaultKey := newDefaultKey }
  else .ok keys

def replaceDefaultKeys (cenv : CommitEnv φ) (keys : KeyPool) (tx : CTransaction) :
    Except Err KeyPool :=
  if cenv.fQtGui then .ok keys
  else
    match cenv.addresses.setBitcoinAddress (cenv.addresses.setPubKey keys.vchDefaultKey) with
    | none => .error (.exc "vchData.size() == 20")
    | some scriptDefaultKey => tx.vout.foldlM (replaceDefaultKey cenv scriptDefaultKey) keys

/-! ## Committing -/

/-- A round of "Mark old coins as spent". An entry that is not there is made without outputs. -/
def CWallet.markSpent (w : CWallet) (txin : CTxIn) : Except Err CWallet :=
  match w.mapWallet txin.prevout.hash with
  | none => .error (.exc "CWalletTx::MarkSpent() : nOut out of range")
  | some coin =>
      if txin.prevout.n < coin.tx.vout.length then
        .ok (w.setTx txin.prevout.hash (coin.setSpent txin.prevout.n true))
      else .error (.exc "CWalletTx::MarkSpent() : nOut out of range")

/-- What is there when a wallet commits: the wallet and its keys, the node with the other wallets that
are registered, and the state of the rate limiter. -/
structure CommitState (φ : Type) where
  node : NodeState
  wallet : CWallet
  keys : KeyPool
  free : φ

namespace CommitState

/-- The node, with all wallets that are registered -/
def registered (s : CommitState φ) : NodeState :=
  { s.node with wallets := s.wallet :: s.node.wallets }

/-- What happens between the two checks -/
def record (cenv : CommitEnv φ) (r : Nat) (wtxNew : CWalletTx) (s : CommitState φ) :
    Except Err (CommitState φ) := do
  let keys ← replaceDefaultKeys cenv (s.keys.keepKey r) (s.wallet.seenTx cenv.toEnv wtxNew.tx)
  let wallet ← (s.wallet.addToWallet cenv.toEnv wtxNew).mapError Prod.fst
  let wallet ← wtxNew.tx.vin.foldlM CWallet.markSpent wallet
  return { s with wallet := wallet, keys := keys }

/-- `CommitTransaction(wtxNew, reservekey)`, for the `r`-th `CReserveKey`: what it returns, or the
exception -/
def commitTransaction (cenv : CommitEnv φ) (files : Files) (r : Nat) (wtxNew : CWalletTx)
    (s : CommitState φ) : Except Err (Bool × CommitState φ) :=
  match s.registered.checkAccept cenv.toRelayEnv files s.free wtxNew.tx true with
  | (_, .error { err := .exc what, .. }) => .error (.exc what)
  | (free, .error _) => .ok (false, { s with free := free })
  | (free, .ok ()) => do
      let s ← record cenv r wtxNew { s with free := free }
      match s.registered.acceptToMemoryPool cenv.toRelayEnv files s.free wtxNew.tx true with
      | (_, .error { err := .exc what, .. }) => .error (.exc what)
      -- "This must not fail. The transaction has already been signed and recorded."
      | (free, .error _) => .ok (false, { s with free := free })
      | (free, .ok node) =>
          .ok (true, { s with node := { node with wallets := s.node.wallets }, free := free })

end CommitState

/-! ## Spent outputs -/

theorem CWalletTx.isSpent_eq_true {wtx : CWalletTx} {n : Nat} : wtx.isSpent n = .ok true
    ↔ n < wtx.tx.vout.length ∧ wtx.vfSpent.getD n false = true := by
  unfold isSpent
  rw [Lib.seq_eq_ok, Lib.require_eq_ok, decide_eq_true_eq]
  exact and_congr_right fun _ => ⟨fun h => Except.ok.inj h, fun h => congrArg Except.ok h⟩

namespace CWallet

/-- An output of a transaction of the wallet that is marked as spent -/
def Spent (w : CWallet) (o : COutPoint) : Prop :=
  ∃ wtx, w.mapWallet o.hash = some wtx ∧ wtx.isSpent o.n = .ok true

/-- What is marked in `w'` over `w` is among `os`. -/
structure MarksAmong (os : List COutPoint) (w w' : CWallet) : Prop where
  kept : ∀ o, w.Spent o → w'.Spent o
  among : ∀ o, w'.Spent o → w.Spent o ∨ o ∈ os

variable {os : List COutPoint} {w w' w'' : CWallet} {wtx : CWalletTx}

theorem MarksAmong.refl (os : List COutPoint) (w : CWallet) : MarksAmong os w w :=
  ⟨fun _ h => h, fun _ h => .inl h⟩

theorem MarksAmong.trans (h : MarksAmong os w w') (h' : MarksAmong os w' w'') :
    MarksAmong os w w'' := by
  refine ⟨fun o ho => h'.kept o (h.kept o ho), ?_⟩
  intro o ho
  rcases h'.among o ho with ho | ho
  · exact h.among o ho
  · exact .inr ho

/-- An output that is marked -/
theorem spent_setSpent {h : Uint256} {n : Nat} (hw : w.mapWallet h = some wtx)
    (hn : n < wtx.tx.vout.length) (o : COutPoint) :
    (w.setTx h (wtx.setSpent n true)).Spent o ↔ o = ⟨h, n⟩ ∨ w.Spent o := by
  obtain ⟨hash, m⟩ := o
  unfold Spent setTx
  by_cases hhash : hash = h
  · subst hhash
    simp only [Lib.PMap.set_self, Option.some.injEq, exists_eq_left', hw,
      CWalletTx.isSpent_eq_true, CWalletTx.setSpent_tx, COutPoint.mk.injEq, true_and]
    by_cases hm : m < wtx.tx.vout.length
    · rw [CWalletTx.getD_setSpent wtx true hm]
      by_cases heq : m = n
      · simp [heq, hn]
      · simp [heq, hm]
    · have hne : m ≠ n := by omega
      simp [hm, hne]
  · simp [Lib.PMap.set_of_ne hhash, hhash]

/-- A round of `WalletUpdateSpent` -/
theorem MarksAmong.updateSpentBy {txin : CTxIn} (h : w.updateSpentBy txin = .ok w') :
    MarksAmong [txin.prevout] w w' := by
  rcases updateSpentBy_cases h with ⟨rfl, -⟩ | ⟨wtx, hw, -, hown, rfl⟩
  · exact .refl _ _
  · obtain ⟨wtx', hw', hlt⟩ := exists_of_ownOutput hown
    rw [hw] at hw'
    cases hw'
    constructor
    · exact fun o ho => (spent_setSpent hw hlt o).mpr (.inr ho)
    · intro o ho
      rcases (spent_setSpent hw hlt o).mp ho with rfl | ho
      · exact .inr List.mem_cons_self
      · exact .inl ho

theorem MarksAmong.mono {os' : List COutPoint} (h : MarksAmong os w w') (hsub : os ⊆ os') :
    MarksAmong os' w w' :=
  ⟨h.kept, fun o ho => (h.among o ho).imp_right fun ho => hsub ho⟩

theorem MarksAmong.walletUpdateSpent {tx : CTransaction} (h : w.walletUpdateSpent tx = .ok w') :
    MarksAmong (tx.vin.map CTxIn.prevout) w w' := by
  unfold CWallet.walletUpdateSpent at h
  generalize tx.vin = txins at h
  induction txins generalizing w with
  | nil =>
      cases h
      exact .refl _ _
  | cons txin txins ih =>
      obtain ⟨w₁, h₁, h⟩ := Lib.bind_eq_ok.mp h
      have hsub : [txin.prevout] ⊆ (txin :: txins).map CTxIn.prevout := by simp
      exact ((MarksAmong.updateSpentBy h₁).mono hsub).trans ((ih h).mono (List.subset_cons_self _ _))

/-- What `wtxNew` brings along: its outputs that its own flags mark. Where the wallet has the
transaction already, they are taken over as far as the entry's flags reach. -/
def BroughtSpent (env : Env) (w : CWallet) (wtxNew : CWalletTx) (o : COutPoint) : Prop :=
  o.hash = env.getHash wtxNew.tx ∧ wtxNew.isSpent o.n = .ok true ∧
    ∀ wtx, w.mapWallet o.hash = some wtx → o.n < wtx.vfSpent.length

theorem getD_updateSpent (wtx : CWalletTx) (vfNewSpent : List Bool) (n : Nat) :
    (wtx.updateSpent vfNewSpent).vfSpent.getD n false
      = (wtx.vfSpent.getD n false || (decide (n < wtx.vfSpent.length) && vfNewSpent.getD n false)) := by
  unfold CWalletTx.updateSpent
  rw [List.getD_eq_getElem?_getD, List.getElem?_mapIdx, List.getD_eq_getElem?_getD]
  by_cases hn : n < wtx.vfSpent.length
  · simp [hn]
  · simp [hn]

theorem mergeTx_isSpent (wtx wtxIn : CWalletTx) (n : Nat) : (mergeTx wtx wtxIn).isSpent n = .ok true
    ↔ wtx.isSpent n = .ok true ∨ n < wtx.tx.vout.length ∧ n < wtx.vfSpent.length ∧
      wtxIn.vfSpent.getD n false = true := by
  have hflag : (mergeTx wtx wtxIn).vfSpent.getD n false
      = (wtx.vfSpent.getD n false
        || (decide (n < wtx.vfSpent.length) && wtxIn.vfSpent.getD n false)) := by
    unfold mergeTx
    dsimp only
    rw [getD_updateSpent]
    split_ifs <;> rfl
  rw [CWalletTx.isSpent_eq_true, CWalletTx.isSpent_eq_true, mergeTx_tx, hflag, Bool.or_eq_true,
    Bool.and_eq_true, decide_eq_true_eq]
  tauto

theorem spent_setTx (w : CWallet) (h : Uint256) (wtx : CWalletTx) (o : COutPoint) :
    (w.setTx h wtx).Spent o ↔ o.hash = h ∧ wtx.isSpent o.n = .ok true ∨ o.hash ≠ h ∧ w.Spent o := by
  unfold Spent setTx
  by_cases hhash : o.hash = h
  · simp [hhash]
  · simp [Lib.PMap.set_of_ne hhash, hhash]

/-- The wallet with `wtxNew` in it, or merged into the entry that is there -/
theorem spent_addToWallet {env : Env} {wtxNew : CWalletTx} (h : w.addToWallet env wtxNew = .ok w')
    (hhash : ∀ wtx, w.mapWallet (env.getHash wtxNew.tx) = some wtx → wtx.tx = wtxNew.tx) :
    ∃ w₁, (∀ o, w₁.Spent o ↔ w.Spent o ∨ w.BroughtSpent env wtxNew o) ∧
      MarksAmong (wtxNew.tx.vin.map CTxIn.prevout) w₁ w' := by
  cases hentry : w.mapWallet (env.getHash wtxNew.tx) with
  | none =>
      simp only [addToWallet, hentry] at h
      refine ⟨_, ?_, MarksAmong.walletUpdateSpent h⟩
      intro o
      rw [spent_setTx]
      unfold BroughtSpent
      by_cases hsame : o.hash = env.getHash wtxNew.tx
      · have hnot : ¬ w.Spent o := by
          rintro ⟨wtx, hwtx, -⟩
          rw [hsame, hentry] at hwtx
          cases hwtx
        simp [hsame, hnot, hentry]
      · simp [hsame]
  | some wtx =>
      have htx := hhash wtx hentry
      simp only [addToWallet, hentry, mergeTx_tx, htx] at h
      refine ⟨_, ?_, MarksAmong.walletUpdateSpent h⟩
      intro o
      rw [spent_setTx, mergeTx_isSpent, htx]
      unfold BroughtSpent
      by_cases hsame : o.hash = env.getHash wtxNew.tx
      · have hspent : w.Spent o ↔ wtx.isSpent o.n = .ok true := by
          unfold Spent
          rw [hsame, hentry]
          simp
        have hlen : (∀ wtx', w.mapWallet o.hash = some wtx' → o.n < wtx'.vfSpent.length)
            ↔ o.n < wtx.vfSpent.length := by
          rw [hsame, hentry]
          simp
        have hnew : wtxNew.isSpent o.n = .ok true
            ↔ o.n < wtxNew.tx.vout.length ∧ wtxNew.vfSpent.getD o.n false = true :=
          CWalletTx.isSpent_eq_true
        rw [hspent, hlen, hnew]
        tauto
      · simp [hsame]

/-- A round of "Mark old coins as spent" -/
theorem spent_markSpent {txin : CTxIn} (h : w.markSpent txin = .ok w') (o : COutPoint) :
    w'.Spent o ↔ o = txin.prevout ∨ w.Spent o := by
  unfold markSpent at h
  split at h
  · cases h
  · next coin hcoin =>
      split at h
      · next hlt =>
          cases h
          exact spent_setSpent hcoin hlt o
      · cases h

theorem spent_markSpents {txins : List CTxIn} (h : txins.foldlM markSpent w = .ok w')
    (o : COutPoint) : w'.Spent o ↔ o ∈ txins.map CTxIn.prevout ∨ w.Spent o := by
  induction txins generalizing w with
  | nil =>
      cases h
      simp
  | cons txin txins ih =>
      obtain ⟨w₁, h₁, h⟩ := Lib.bind_eq_ok.mp h
      rw [ih h, spent_markSpent h₁ o, List.map_cons, List.mem_cons]
      tauto

/-! ## Outputs that are there -/

/-- An output of a transaction of the wallet -/
def HasOutput (w : CWallet) (o : COutPoint) : Prop :=
  ∃ wtx, w.mapWallet o.hash = some wtx ∧ o.n < wtx.tx.vout.length

theorem HasOutput.setTx {o : COutPoint} {h : Uint256} (ho : w.HasOutput o)
    (hsame : ∀ wtx', w.mapWallet h = some wtx' → wtx'.tx = wtx.tx) :
    (w.setTx h wtx).HasOutput o := by
  obtain ⟨wtx₀, hwtx, hlt⟩ := ho
  unfold HasOutput CWallet.setTx
  by_cases hhash : o.hash = h
  · rw [hhash] at hwtx ⊢
    exact ⟨wtx, Lib.PMap.set_self _ _ _, hsame wtx₀ hwtx ▸ hlt⟩
  · exact ⟨wtx₀, (Lib.PMap.set_of_ne hhash).trans hwtx, hlt⟩

theorem HasOutput.setSpent {o : COutPoint} {h : Uint256} {n : Nat} (ho : w.HasOutput o)
    (hw : w.mapWallet h = some wtx) : (w.setTx h (wtx.setSpent n true)).HasOutput o := by
  apply ho.setTx
  intro wtx' hwtx'
  rw [hw] at hwtx'
  cases hwtx'
  rfl

/-- A loop over outputs that are there, whose rounds return and take none of them away -/
theorem exists_foldlM {ε : Type} {f : CWallet → CTxIn → Except ε CWallet} {txins : List CTxIn}
    (hround : ∀ w txin, w.HasOutput txin.prevout →
      ∃ w', f w txin = .ok w' ∧ ∀ o, w.HasOutput o → w'.HasOutput o)
    (h : ∀ txin ∈ txins, w.HasOutput txin.prevout) :
    ∃ w', txins.foldlM f w = .ok w' ∧ ∀ o, w.HasOutput o → w'.HasOutput o := by
  induction txins generalizing w with
  | nil => exact ⟨w, rfl, fun _ ho => ho⟩
  | cons txin txins ih =>
      obtain ⟨w₁, h₁, hkept₁⟩ := hround w txin (h txin List.mem_cons_self)
      obtain ⟨w', h', hkept'⟩ := ih fun txin' hmem => hkept₁ _ (h txin' (List.mem_cons_of_mem _ hmem))
      refine ⟨w', ?_, fun o ho => hkept' o (hkept₁ o ho)⟩
      rw [List.foldlM_cons, h₁]
      exact h'

theorem markSpent_isOk {txin : CTxIn} (h : w.HasOutput txin.prevout) :
    ∃ w', w.markSpent txin = .ok w' ∧ ∀ o, w.HasOutput o → w'.HasOutput o := by
  obtain ⟨coin, hcoin, hlt⟩ := h
  refine ⟨w.setTx txin.prevout.hash (coin.setSpent txin.prevout.n true), ?_,
    fun o ho => ho.setSpent hcoin⟩
  unfold markSpent
  rw [hcoin]
  exact if_pos hlt

theorem updateSpentBy_isOk {txin : CTxIn} (h : w.HasOutput txin.prevout) :
    ∃ w', w.updateSpentBy txin = .ok w' ∧ ∀ o, w.HasOutput o → w'.HasOutput o := by
  obtain ⟨wtx, hwtx, hlt⟩ := h
  have hread : wtx.isSpent txin.prevout.n = .ok (wtx.vfSpent.getD txin.prevout.n false) := by
    unfold CWalletTx.isSpent Lib.require
    rw [if_pos (decide_eq_true hlt)]
    rfl
  unfold updateSpentBy
  simp only [hwtx, hread]
  split
  · exact ⟨_, rfl, fun o ho => ho.setSpent hwtx⟩
  · exact ⟨_, rfl, fun o ho => ho⟩

theorem addToWallet_hasOutput {env : Env} {wtxNew : CWalletTx}
    (hhash : ∀ wtx, w.mapWallet (env.getHash wtxNew.tx) = some wtx → wtx.tx = wtxNew.tx)
    (h : ∀ txin ∈ wtxNew.tx.vin, w.HasOutput txin.prevout) :
    ∃ w', w.addToWallet env wtxNew = .ok w' ∧ ∀ txin ∈ wtxNew.tx.vin, w'.HasOutput txin.prevout := by
  have hput : ∀ wtx : CWalletTx, wtx.tx = wtxNew.tx → ∃ w',
      (w.setTx (env.getHash wtxNew.tx) wtx).walletUpdateSpent wtx.tx = .ok w' ∧
        ∀ txin ∈ wtxNew.tx.vin, w'.HasOutput txin.prevout := by
    intro wtx htx
    rw [htx]
    have hset : ∀ txin ∈ wtxNew.tx.vin,
        (w.setTx (env.getHash wtxNew.tx) wtx).HasOutput txin.prevout := by
      intro txin hmem
      exact (h txin hmem).setTx fun wtx' hwtx' => (hhash wtx' hwtx').trans htx.symm
    obtain ⟨w', h', hkept⟩ := exists_foldlM (fun _ _ => updateSpentBy_isOk) hset
    exact ⟨w', h', fun txin hmem => hkept _ (hset txin hmem)⟩
  cases hentry : w.mapWallet (env.getHash wtxNew.tx) with
  | none =>
      simp only [addToWallet, hentry]
      exact hput wtxNew rfl
  | some wtx =>
      simp only [addToWallet, hentry]
      exact hput _ ((mergeTx_tx wtx wtxNew).trans (hhash wtx hentry))

end CWallet

/-! ## The two checks -/

/-- The checks look at no wallet, and the rate limiter has no say in them. -/
theorem NodeState.checkAccept_wallets (renv : RelayEnv φ) (files : Files) (s : NodeState)
    (ws : List CWallet) (free free' : φ) (tx : CTransaction) :
    NodeState.checkAccept renv files { s with wallets := ws } free' tx true
      = (free', (s.checkAccept renv files free tx true).2) := by
  have hknown : NodeState.checkKnown renv.toEnv { s with wallets := ws } tx true
      = s.checkKnown renv.toEnv tx true := rfl
  unfold checkAccept
  rw [hknown, checkInputs_eq, checkInputs_eq]
  cases s.checkKnown renv.toEnv tx true with
  | error e => rfl
  | ok _ => rfl

namespace CommitState

variable {cenv : CommitEnv φ} {files : Files} {r : Nat} {wtxNew : CWalletTx} {s s' : CommitState φ}

theorem record_node (h : s.record cenv r wtxNew = .ok s') : s'.node = s.node := by
  obtain ⟨keys, -, h⟩ := Lib.bind_eq_ok.mp h
  obtain ⟨wallet, -, h⟩ := Lib.bind_eq_ok.mp h
  obtain ⟨wallet', -, h⟩ := Lib.bind_eq_ok.mp h
  cases h
  rfl

/-- What passed the first check is accepted, whatever became of the wallet. -/
theorem acceptToMemoryPool_of_checkAccept {free : φ}
    (hcheck : s.registered.checkAccept cenv.toRelayEnv files s.free wtxNew.tx true = (free, .ok ()))
    (hnode : s'.node = s.node) :
    s'.registered.acceptToMemoryPool cenv.toRelayEnv files s'.free wtxNew.tx true
      = (s'.free, .ok { s'.registered with
          mempool := s'.node.mempool.addUnchecked cenv.toEnv wtxNew.tx }) := by
  have hsame := NodeState.checkAccept_wallets cenv.toRelayEnv files s.registered
    (s'.wallet :: s'.node.wallets) s.free s'.free wtxNew.tx
  have hreg : { s.registered with wallets := s'.wallet :: s'.node.wallets } = s'.registered := by
    unfold registered
    rw [hnode]
  rw [hreg, hcheck] at hsame
  unfold NodeState.acceptToMemoryPool
  rw [hsame]
  rfl

/-- Between the checks nothing fails but the key pool. -/
theorem record_isOk {keys : KeyPool}
    (hinputs : ∀ txin ∈ wtxNew.tx.vin, s.wallet.HasOutput txin.prevout)
    (hhash : ∀ wtx, s.wallet.mapWallet (cenv.getHash wtxNew.tx) = some wtx → wtx.tx = wtxNew.tx)
    (hkeys : replaceDefaultKeys cenv (s.keys.keepKey r) (s.wallet.seenTx cenv.toEnv wtxNew.tx)
      = .ok keys) :
    ∃ s', s.record cenv r wtxNew = .ok s' := by
  obtain ⟨w₁, hadd, houts⟩ := CWallet.addToWallet_hasOutput hhash hinputs
  obtain ⟨w₂, hmark, -⟩ := CWallet.exists_foldlM (fun _ _ => CWallet.markSpent_isOk) houts
  refine ⟨{ s with wallet := w₂, keys := keys }, ?_⟩
  unfold record
  rw [hkeys, hadd]
  show (wtxNew.tx.vin.foldlM CWallet.markSpent w₁ >>= _) = _
  rw [hmark]
  rfl

theorem record_spent
    (hhash : ∀ wtx, s.wallet.mapWallet (cenv.getHash wtxNew.tx) = some wtx → wtx.tx = wtxNew.tx)
    (h : s.record cenv r wtxNew = .ok s') (o : COutPoint) :
    s'.wallet.Spent o ↔ s.wallet.Spent o ∨ o ∈ wtxNew.tx.vin.map CTxIn.prevout ∨
      s.wallet.BroughtSpent cenv.toEnv wtxNew o := by
  obtain ⟨keys, -, h⟩ := Lib.bind_eq_ok.mp h
  obtain ⟨w₂, hadd, h⟩ := Lib.bind_eq_ok.mp h
  obtain ⟨w₃, hmark, h⟩ := Lib.bind_eq_ok.mp h
  cases h
  obtain ⟨w₁, hset, hupdate⟩ := CWallet.spent_addToWallet (Lib.mapError_eq_ok.mp hadd) hhash
  show w₃.Spent o ↔ _
  rw [CWallet.spent_markSpents hmark o]
  constructor
  · rintro (ho | ho)
    · exact .inr (.inl ho)
    · rcases hupdate.among o ho with ho | ho
      · exact ((hset o).mp ho).imp_right .inr
      · exact .inr (.inl ho)
  · rintro (ho | ho | ho)
    · exact .inr (hupdate.kept o ((hset o).mpr (.inl ho)))
    · exact .inl ho
    · exact .inr (hupdate.kept o ((hset o).mpr (.inr ho)))

/-! ## All or nothing -/

/-- The state after what the first check let through -/
def committed (cenv : CommitEnv φ) (tx : CTransaction) (s : CommitState φ) : CommitState φ :=
  { s with node := { s.node with mempool := s.node.mempool.addUnchecked cenv.toEnv tx } }

theorem commitTransaction_of_record {free : φ} {s₁ : CommitState φ}
    (hcheck : s.registered.checkAccept cenv.toRelayEnv files s.free wtxNew.tx true = (free, .ok ()))
    (hrecord : record cenv r wtxNew { s with free := free } = .ok s₁) :
    s.commitTransaction cenv files r wtxNew = .ok (true, s₁.committed cenv wtxNew.tx) := by
  have hnode : s₁.node = s.node := record_node (s := { s with free := free }) hrecord
  have haccept := acceptToMemoryPool_of_checkAccept hcheck hnode
  unfold commitTransaction
  rw [hcheck]
  show (record cenv r wtxNew { s with free := free } >>= _) = _
  rw [hrecord]
  show (match s₁.registered.acceptToMemoryPool cenv.toRelayEnv files s₁.free wtxNew.tx true with
    | (_, .error { err := .exc what, .. }) => _
    | (free, .error _) => _
    | (free, .ok node) => _) = _
  rw [haccept]
  rfl

/-- Where the call returns, the first check has decided what it returns. -/
theorem commitTransaction_cases {fRet : Bool}
    (h : s.commitTransaction cenv files r wtxNew = .ok (fRet, s')) :
    (fRet = false ∧ s' = { s with free := s'.free }) ∨
      (fRet = true ∧ ∃ free s₁, record cenv r wtxNew { s with free := free } = .ok s₁ ∧
        s' = s₁.committed cenv wtxNew.tx) := by
  cases hcheck : s.registered.checkAccept cenv.toRelayEnv files s.free wtxNew.tx true with
  | mk free result =>
      cases result with
      | error rej =>
          left
          unfold commitTransaction at h
          rw [hcheck] at h
          split at h
          · cases h
          · cases h
            exact ⟨rfl, rfl⟩
          · next heq => cases heq
      | ok _ =>
          cases hrecord : record cenv r wtxNew { s with free := free } with
          | error e =>
              unfold commitTransaction at h
              rw [hcheck] at h
              replace h : (record cenv r wtxNew { s with free := free } >>= _) = _ := h
              rw [hrecord] at h
              cases h
          | ok s₁ =>
              right
              rw [commitTransaction_of_record hcheck hrecord] at h
              cases h
              exact ⟨rfl, free, s₁, hrecord, rfl⟩

end CommitState

open CommitState in
/-- Committing a transaction whose inputs are outputs of the wallet's transactions. Where false is
returned nothing has changed but the state of the rate limiter. Where true is returned the transaction
is in the pool, and what became spent is what it spends, besides what it brings along as spent. After
the first check only the key pool can stop the call, and the second check says what the first one
said. -/
theorem commitTransaction_allOrNothing (cenv : CommitEnv φ) (files : Files) (r : Nat)
    (wtxNew : CWalletTx) (s : CommitState φ)
    (hinputs : ∀ txin ∈ wtxNew.tx.vin, s.wallet.HasOutput txin.prevout)
    (hhash : ∀ wtx, s.wallet.mapWallet (cenv.getHash wtxNew.tx) = some wtx → wtx.tx = wtxNew.tx) :
    (∀ s', s.commitTransaction cenv files r wtxNew = .ok (false, s') →
      s' = { s with free := s'.free }) ∧
    (∀ s', s.commitTransaction cenv files r wtxNew = .ok (true, s') →
      s'.node.mempool.lookup (cenv.getHash wtxNew.tx) = some wtxNew.tx ∧
      ∀ o, s'.wallet.Spent o ↔ s.wallet.Spent o ∨ o ∈ wtxNew.tx.vin.map CTxIn.prevout ∨
        s.wallet.BroughtSpent cenv.toEnv wtxNew o) ∧
    ∀ free, s.registered.checkAccept cenv.toRelayEnv files s.free wtxNew.tx true = (free, .ok ()) →
      (∀ s₁, record cenv r wtxNew { s with free := free } = .ok s₁ → ∃ node,
        s₁.registered.acceptToMemoryPool cenv.toRelayEnv files s₁.free wtxNew.tx true
          = (s₁.free, .ok node)) ∧
      ∀ keys, replaceDefaultKeys cenv (s.keys.keepKey r) (s.wallet.seenTx cenv.toEnv wtxNew.tx)
          = .ok keys →
        ∃ s', s.commitTransaction cenv files r wtxNew = .ok (true, s') := by
  refine ⟨?_, ?_, fun free hcheck => ⟨?_, ?_⟩⟩
  · intro s' h
    rcases commitTransaction_cases h with ⟨-, hsame⟩ | ⟨hfalse, -⟩
    · exact hsame
    · cases hfalse
  · intro s' h
    rcases commitTransaction_cases h with ⟨hfalse, -⟩ | ⟨-, free, s₁, hrecord, rfl⟩
    · cases hfalse
    · refine ⟨?_, fun o => record_spent (s := { s with free := free }) hhash hrecord o⟩
      show (s₁.node.mempool.addUnchecked cenv.toEnv wtxNew.tx).lookup _ = _
      rw [CTxMemPool.lookup_addUnchecked, if_pos rfl]
  · intro s₁ hrecord
    have hnode : s₁.node = s.node := record_node (s := { s with free := free }) hrecord
    exact ⟨_, acceptToMemoryPool_of_checkAccept hcheck hnode⟩
  · intro keys hkeys
    obtain ⟨s₁, hrecord⟩ := record_isOk (s := { s with free := free }) hinputs hhash hkeys
    exact ⟨_, commitTransaction_of_record hcheck hrecord⟩

end

/-! ### A payment from a wallet -/

def plainCommit (fQtGui : Bool) : CommitEnv Unit where
  toRelayEnv := plainRelay
  addresses := mainAddresses
  g := KeyPool.numbered
  keypool := 0
  fQtGui := fQtGui

/-- A wallet with the transaction that the payment spends -/
def payingState : CommitState Unit where
  node := relayNode
  wallet :=
    { mapWallet := Lib.PMap.empty.set 2 { tx := samplePayment }
      isMine := fun _ => true }
  keys := {}
  free := ()

theorem payingState_hasOutput :
    ∀ txin ∈ paymentMsg.tx.vin, payingState.wallet.HasOutput txin.prevout := by
  intro txin htxin
  obtain rfl : txin = { prevout := ⟨2, 0⟩ } := List.mem_singleton.mp htxin
  exact ⟨{ tx := samplePayment }, rfl, by decide⟩

theorem payingState_unknown (wtx : CWalletTx) : payingState.wallet.mapWallet 6 ≠ some wtx := by
  intro h
  cases h

theorem payingState_checkAccept : ∃ free, payingState.registered.checkAccept plainRelay sampleFiles ()
    paymentMsg.tx true = (free, .ok ()) := by
  have hok : (payingState.registered.checkAccept plainRelay sampleFiles () paymentMsg.tx true).2.isOk
      = true := by
    decide +kernel
  obtain ⟨u, hu⟩ := Lib.exists_of_isOk hok
  exact ⟨(), Prod.ext rfl hu⟩

theorem commitTransaction_allOrNothing_payment :
    ∃ s', payingState.commitTransaction (plainCommit true) sampleFiles 0 { tx := paymentMsg.tx }
        = .ok (true, s') ∧
      s'.node.mempool.lookup 6 = some paymentMsg.tx ∧ s'.wallet.Spent ⟨2, 0⟩ := by
  have h := commitTransaction_allOrNothing (plainCommit true) sampleFiles 0 { tx := paymentMsg.tx }
    payingState payingState_hasOutput fun wtx hwtx => absurd hwtx (payingState_unknown wtx)
  obtain ⟨free, hcheck⟩ := payingState_checkAccept
  obtain ⟨s', hs'⟩ := (h.2.2 free hcheck).2 _ rfl
  obtain ⟨hpool, hspent⟩ := h.2.1 s' hs'
  exact ⟨s', hs', hpool, (hspent ⟨2, 0⟩).mpr (.inr (.inl List.mem_cons_self))⟩

open CommitState in
/-- Its own output comes marked as spent, and is taken into the wallet like this. -/
theorem commitTransaction_bringsSpent :
    ∃ s', payingState.commitTransaction (plainCommit true) sampleFiles 0
        { tx := paymentMsg.tx, vfSpent := [true] } = .ok (true, s') ∧
      s'.wallet.Spent ⟨6, 0⟩ ∧ ¬ payingState.wallet.Spent ⟨6, 0⟩ ∧
      ⟨6, 0⟩ ∉ paymentMsg.tx.vin.map CTxIn.prevout := by
  have hunknown : ∀ wtx, payingState.wallet.mapWallet 6 = some wtx → wtx.tx = paymentMsg.tx :=
    fun wtx hwtx => absurd hwtx (payingState_unknown wtx)
  obtain ⟨free, hcheck⟩ := payingState_checkAccept
  have hrecord : ∃ s₁, record (plainCommit true) 0 { tx := paymentMsg.tx, vfSpent := [true] }
      { payingState with free := free } = .ok s₁ :=
    record_isOk payingState_hasOutput hunknown rfl
  obtain ⟨s₁, hrecord⟩ := hrecord
  refine ⟨_, commitTransaction_of_record hcheck hrecord, ?_, ?_, by decide⟩
  · apply (record_spent hunknown hrecord ⟨6, 0⟩).mpr
    exact .inr (.inr ⟨rfl, rfl, fun wtx hwtx => absurd hwtx (payingState_unknown wtx)⟩)
  · rintro ⟨wtx, hwtx, -⟩
    exact payingState_unknown wtx hwtx

end ShinyCoin

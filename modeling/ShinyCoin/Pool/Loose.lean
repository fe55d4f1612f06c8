import ShinyCoin.Pool.Relay
import ShinyCoin.Chain.Told

/-!
# When a loose transaction is accepted

Of the memory pool, accepting a transaction looks at three things: whether the transaction is there,
whether one of its outpoints is spent there, and what is there under the hashes it spends. So of a
set of transactions that do not conflict, one that is accepted over some of the others is accepted
over any others that have its parents, and misses inputs as long as one of them is not there.

The rate limiter never comes into it: the minimal fee for relaying is not less than the fee it lets
pass.
-/

namespace ShinyCoin

/-! ## The rate limiter -/

theorem CTransaction.le_clampFee_relay (nMinFee : ℤ) :
    MIN_RELAY_TX_FEE ≤ clampFee .GMF_RELAY nMinFee := by
  unfold clampFee
  have hmax : MIN_RELAY_TX_FEE ≤ MAX_MONEY := by decide
  grind

theorem CTransaction.le_getMinFee_relay (tx : CTransaction) (nBlockSize : Nat) :
    MIN_RELAY_TX_FEE ≤ tx.getMinFee nBlockSize .GMF_RELAY := by
  unfold getMinFee
  have hmax : MIN_RELAY_TX_FEE ≤ MAX_MONEY := by decide
  have hclamp := le_clampFee_relay
  grind

section

variable {φ : Type} {renv : RelayEnv φ} {files : Files} {tx : CTransaction}

namespace NodeState

theorem checkFees_ok {mapInputs : MapPrevTx} {nFees : ℤ}
    (h : checkFees renv mapInputs tx = .ok nFees) : MIN_RELAY_TX_FEE ≤ nFees := by
  unfold checkFees at h
  obtain ⟨fStandard, -, h⟩ := Lib.bind_eq_ok.mp h
  obtain ⟨-, h⟩ := Lib.seq_eq_ok.mp h
  obtain ⟨nValueIn, -, h⟩ := Lib.bind_eq_ok.mp h
  obtain ⟨nValueOut, -, h⟩ := Lib.bind_eq_ok.mp h
  obtain ⟨hfee, h⟩ := Lib.seq_eq_ok.mp h
  rw [Lib.require_eq_ok, decide_eq_true_eq] at hfee
  cases h
  exact (tx.le_getMinFee_relay 1000).trans hfee

/-- A fee that is enough to be relayed is none the limiter is for. -/
theorem limitFree_of_checkFees {mapInputs : MapPrevTx} {nFees : ℤ} (s : NodeState) (free : φ)
    (h : checkFees renv mapInputs tx = .ok nFees) :
    s.limitFree renv free nFees tx = (free, .ok ()) := by
  rw [limitFree, if_neg (not_lt.mpr (checkFees_ok h))]

/-- What is left of the checks once the inputs are fetched. -/
def checkFetched (renv : RelayEnv φ) (files : Files) (s : NodeState) (tx : CTransaction)
    (mapInputs : MapPrevTx) : Except Rejection Unit :=
  match checkFees renv mapInputs tx with
  | .error e => .error { err := e }
  | .ok _ => (s.connectLoose renv.toEnv files mapInputs tx).mapError ({ err := · })

/-- The limiter keeps its state. -/
theorem checkInputs_eq (s : NodeState) (free : φ) :
    s.checkInputs renv files free tx
      = (free, (s.fetchLoose files tx).bind (s.checkFetched renv files tx)) := by
  unfold checkInputs
  cases hfetch : s.fetchLoose files tx with
  | error r => rfl
  | ok mapInputs =>
      simp only [Except.bind, checkFetched]
      cases hfees : checkFees renv mapInputs tx with
      | error e => rfl
      | ok nFees => simp only [limitFree_of_checkFees s free hfees]

end NodeState

end

/-! ## Fetching its inputs -/

namespace CTransaction

/-- The lookup of a previous transaction of a loose one. -/
def loosePrev (files : Files) (pool : CTxMemPool) (txdb : TxIndexMap) (hash : Uint256) :
    Except Err (CTxIndex × CTransaction) :=
  fetchPrev files pool txdb Lib.PMap.empty false false hash

/-- The loop of `FetchInputs` for a loose transaction. -/
def fetchLoop (files : Files) (pool : CTxMemPool) (txdb : TxIndexMap) (txins : List CTxIn)
    (inputs : MapPrevTx) : Except Err MapPrevTx :=
  txins.foldlM (fetchInput files pool txdb Lib.PMap.empty false false) inputs

section

variable {files : Files} {pool pool' : CTxMemPool} {txdb : TxIndexMap} {txins : List CTxIn}
  {inputs inputs' : MapPrevTx}

/-- What is fetched was looked up. -/
theorem fetchLoop_ok (h : fetchLoop files pool txdb txins inputs = .ok inputs')
    (hinputs : ∀ k prev, inputs k = some prev → loosePrev files pool txdb k = .ok prev) :
    (∀ k prev, inputs' k = some prev → loosePrev files pool txdb k = .ok prev) ∧
      ∀ txin ∈ txins, ∃ prev, loosePrev files pool txdb txin.prevout.hash = .ok prev := by
  induction txins generalizing inputs with
  | nil =>
      cases h
      exact ⟨hinputs, by simp⟩
  | cons txin txins ih =>
      obtain ⟨inputs₁, hstep, h⟩ := Lib.bind_eq_ok.mp h
      rw [fetchInput] at hstep
      split at hstep
      · next prev hprev =>
        cases hstep
        obtain ⟨hall, hrest⟩ := ih h hinputs
        exact ⟨hall, List.forall_mem_cons.mpr ⟨⟨prev, hinputs _ _ hprev⟩, hrest⟩⟩
      · obtain ⟨prev, hprev, hstep⟩ := Lib.bind_eq_ok.mp hstep
        cases hstep
        obtain ⟨hall, hrest⟩ := ih h (by
          intro k prev' hk
          rw [Lib.PMap.set_apply] at hk
          split at hk
          · next heq =>
            cases hk
            rw [heq]
            exact hprev
          · exact hinputs k prev' hk)
        exact ⟨hall, List.forall_mem_cons.mpr ⟨⟨prev, hprev⟩, hrest⟩⟩

/-- The loop fails with the failure of a lookup. -/
theorem fetchLoop_error {e : Err} (h : fetchLoop files pool txdb txins inputs = .error e) :
    ∃ txin ∈ txins, loosePrev files pool txdb txin.prevout.hash = .error e := by
  induction txins generalizing inputs with
  | nil => cases h
  | cons txin txins ih =>
      rcases Lib.bind_eq_error.mp h with hstep | ⟨inputs₁, -, h⟩
      · rw [fetchInput] at hstep
        split at hstep
        · cases hstep
        · rcases Lib.bind_eq_error.mp hstep with hprev | ⟨_, -, hstep⟩
          · exact ⟨txin, List.mem_cons_self, hprev⟩
          · cases hstep
      · obtain ⟨txin', hmem, he⟩ := ih h
        exact ⟨txin', List.mem_cons_of_mem _ hmem, he⟩

theorem fetchLoop_congr (h : ∀ txin ∈ txins, loosePrev files pool' txdb txin.prevout.hash
    = loosePrev files pool txdb txin.prevout.hash) (inputs : MapPrevTx) :
    fetchLoop files pool' txdb txins inputs = fetchLoop files pool txdb txins inputs := by
  induction txins generalizing inputs with
  | nil => rfl
  | cons txin txins ih =>
      have hstep : fetchInput files pool' txdb Lib.PMap.empty false false inputs txin
          = fetchInput files pool txdb Lib.PMap.empty false false inputs txin := by
        have hprev := h txin List.mem_cons_self
        unfold loosePrev at hprev
        rw [fetchInput, fetchInput, hprev]
      have hrest := ih fun txin' hmem => h txin' (List.mem_cons_of_mem _ hmem)
      unfold fetchLoop at hrest ⊢
      rw [List.foldlM_cons, List.foldlM_cons, hstep]
      exact bind_congr hrest

end

end CTransaction

/-- The inputs of a transaction can be looked up. -/
def Fetchable (files : Files) (pool : CTxMemPool) (txdb : TxIndexMap) (tx : CTransaction) : Prop :=
  ∀ txin ∈ tx.vin, ∃ prev, CTransaction.loosePrev files pool txdb txin.prevout.hash = .ok prev

/-! ## A pool that grows -/

/-- The pool is `base` with some of the transactions `txs` added. -/
structure Grown (env : Env) (base : CTxMemPool) (txs : Finset CTransaction) (pool : CTxMemPool) :
    Prop where
  keeps : ∀ h tx, base.lookup h = some tx → pool.lookup h = some tx
  added : ∀ h tx, pool.lookup h = some tx → base.lookup h = some tx ∨ tx ∈ txs ∧ env.getHash tx = h
  keepsSpent : ∀ o, (base.mapNextTx o).isSome = true → (pool.mapNextTx o).isSome = true
  spent : ∀ o, (pool.mapNextTx o).isSome = true → (base.mapNextTx o).isSome = true ∨
    ∃ tx ∈ txs, pool.lookup (env.getHash tx) = some tx ∧ ∃ txin ∈ tx.vin, txin.prevout = o

theorem isSome_foldl_set {h : Uint256} {xs : List (CTxIn × Nat)}
    {m : Lib.PMap COutPoint (Uint256 × Nat)} {o : COutPoint} :
    ((xs.foldl (fun m x => m.set x.1.prevout (h, x.2)) m) o).isSome = true ↔
      (m o).isSome = true ∨ ∃ x ∈ xs, x.1.prevout = o := by
  induction xs generalizing m with
  | nil => simp
  | cons x xs ih =>
      rw [List.foldl_cons, ih, Lib.PMap.set_apply]
      grind

theorem CTxMemPool.isSome_mapNextTx_addUnchecked (env : Env) (pool : CTxMemPool)
    (tx : CTransaction) (o : COutPoint) :
    ((pool.addUnchecked env tx).mapNextTx o).isSome = true ↔
      (pool.mapNextTx o).isSome = true ∨ ∃ txin ∈ tx.vin, txin.prevout = o := by
  unfold addUnchecked
  rw [isSome_foldl_set]
  refine or_congr_right ?_
  constructor
  · rintro ⟨x, hx, ho⟩
    exact ⟨x.1, List.fst_mem_of_mem_zipIdx hx, ho⟩
  · rintro ⟨txin, htxin, ho⟩
    obtain ⟨i, hi⟩ := List.getElem?_of_mem htxin
    exact ⟨(txin, i), List.mem_zipIdx_iff_getElem?.mpr hi, ho⟩

namespace Grown

variable {env : Env} {base pool : CTxMemPool} {txs : Finset CTransaction} {tx : CTransaction}

theorem refl (env : Env) (base : CTxMemPool) (txs : Finset CTransaction) :
    Grown env base txs base :=
  ⟨fun _ _ h => h, fun _ _ h => .inl h, fun _ h => h, fun _ h => .inl h⟩

theorem add (hpool : Grown env base txs pool) (htx : tx ∈ txs)
    (hone : ∀ tx', pool.lookup (env.getHash tx) = some tx' → tx' = tx) :
    Grown env base txs (pool.addUnchecked env tx) := by
  -- what is there stays, and the new transaction comes to it
  have hlookup : ∀ h tx', (pool.addUnchecked env tx).lookup h = some tx' ↔
      pool.lookup h = some tx' ∨ tx' = tx ∧ env.getHash tx = h := by
    intro h tx'
    rw [CTxMemPool.lookup_addUnchecked]
    split
    · next heq =>
      constructor
      · intro hsome
        exact .inr ⟨(Option.some.inj hsome).symm, heq.symm⟩
      · rintro (hold | ⟨rfl, -⟩)
        · rw [heq] at hold
          rw [hone tx' hold]
        · rfl
    · next hne =>
      constructor
      · exact .inl
      · rintro (hold | ⟨-, heq⟩)
        · exact hold
        · exact absurd heq.symm hne
  refine ⟨?_, ?_, ?_, ?_⟩
  · exact fun h tx' hbase => (hlookup h tx').mpr (.inl (hpool.keeps h tx' hbase))
  · intro h tx' hsome
    rcases (hlookup h tx').mp hsome with hold | ⟨rfl, heq⟩
    · exact hpool.added h tx' hold
    · exact .inr ⟨htx, heq⟩
  · intro o ho
    rw [CTxMemPool.isSome_mapNextTx_addUnchecked]
    exact .inl (hpool.keepsSpent o ho)
  · intro o ho
    rw [CTxMemPool.isSome_mapNextTx_addUnchecked] at ho
    rcases ho with ho | hspends
    · rcases hpool.spent o ho with hbase | ⟨tx', htx', hin, hspends⟩
      · exact .inl hbase
      · exact .inr ⟨tx', htx', (hlookup _ _).mpr (.inl hin), hspends⟩
    · exact .inr ⟨tx, htx, (hlookup _ _).mpr (.inr ⟨rfl, rfl⟩), hspends⟩

end Grown

/-! ## Transactions that can all be accepted -/

/-- The node knows the transaction under this hash: from a wallet, from the index, from the pool, or
from among `txs`. -/
def KnownLoose (env : Env) (files : Files) (node : NodeState) (txs : Finset CTransaction)
    (h : Uint256) (tx : CTransaction) : Prop :=
  (∃ w ∈ node.wallets, ∃ wtx, w.mapWallet h = some wtx ∧ wtx.tx = tx) ∨
  (∃ txindex, node.txdb.data.txIndex h = some txindex ∧
    CTransaction.readTxPrev files node.mempool h txindex = .ok tx) ∨
  node.mempool.lookup h = some tx ∨ tx ∈ txs ∧ env.getHash tx = h

/-- With some of the transactions `txs` in the pool, those it spends among them, the transaction
passes the checks of `accept`. -/
def AcceptableOver {φ : Type} (renv : RelayEnv φ) (files : Files) (node : NodeState)
    (txs : Finset CTransaction) (tx : CTransaction) : Prop :=
  ∃ before : List CTransaction, (∀ tx' ∈ before, tx' ∈ txs) ∧ ∃ free free',
    ({ node with mempool := before.foldl (CTxMemPool.addUnchecked renv.toEnv) node.mempool } :
      NodeState).checkAccept renv files free tx true = (free', .ok ())

/-- No two of the transactions conflict, and each is accepted when its parents are there. -/
structure Arriving {φ : Type} (renv : RelayEnv φ) (files : Files) (node : NodeState)
    (txs : Finset CTransaction) : Prop where
  one : ∀ h tx tx', KnownLoose renv.toEnv files node txs h tx →
    KnownLoose renv.toEnv files node txs h tx' → tx = tx'
  apart : ∀ tx ∈ txs, ∀ tx' ∈ txs, tx ≠ tx' → ∀ txin ∈ tx.vin, ∀ txin' ∈ tx'.vin,
    txin.prevout ≠ txin'.prevout
  acceptable : ∀ tx ∈ txs, AcceptableOver renv files node txs tx

namespace Grown

variable {env : Env} {files : Files} {node : NodeState} {txs : Finset CTransaction}
  {pool : CTxMemPool} {tx : CTransaction}

theorem known (hpool : Grown env node.mempool txs pool) {h : Uint256} (hlookup : pool.lookup h = some tx) :
    KnownLoose env files node txs h tx :=
  .inr (.inr (hpool.added h tx hlookup))

/-- What was looked up for a loose transaction is known. -/
theorem known_loosePrev (hpool : Grown env node.mempool txs pool) {h : Uint256}
    {prev : CTxIndex × CTransaction}
    (hprev : CTransaction.loosePrev files pool node.txdb.data.txIndex h = .ok prev) :
    KnownLoose env files node txs h prev.2 := by
  unfold CTransaction.loosePrev CTransaction.fetchPrev at hprev
  rw [if_neg (by decide)] at hprev
  split at hprev
  · unfold CTransaction.fetchUnindexed at hprev
    split at hprev
    · cases hprev
    · next hlookup =>
      cases hprev
      exact hpool.known hlookup
  · next txindex hidx =>
    obtain ⟨txPrev, hread, hprev⟩ := Lib.bind_eq_ok.mp hprev
    cases hprev
    unfold CTransaction.readTxPrev at hread
    split at hread
    · split at hread
      · cases hread
      · next hlookup =>
        cases hread
        exact hpool.known hlookup
    · next hpos =>
      refine .inr (.inl ⟨txindex, hidx, ?_⟩)
      rw [CTransaction.readTxPrev, if_neg hpos]
      exact hread

end Grown

namespace Arriving

variable {φ : Type} {renv : RelayEnv φ} {files : Files} {node : NodeState}
  {txs : Finset CTransaction} {pool pool' : CTxMemPool} {tx : CTransaction}

/-- Under the hash of one of the transactions the pool has that one or nothing. -/
theorem lookup_hash (hA : Arriving renv files node txs)
    (hpool : Grown renv.toEnv node.mempool txs pool) (htx : tx ∈ txs) {tx' : CTransaction}
    (hlookup : pool.lookup (renv.getHash tx) = some tx') : tx' = tx :=
  hA.one _ _ _ (hpool.known hlookup) (.inr (.inr (.inr ⟨htx, rfl⟩)))

theorem grown_add (hA : Arriving renv files node txs)
    (hpool : Grown renv.toEnv node.mempool txs pool) (htx : tx ∈ txs) :
    Grown renv.toEnv node.mempool txs (pool.addUnchecked renv.toEnv tx) :=
  hpool.add htx fun _ hlookup => hA.lookup_hash hpool htx hlookup

theorem grown_foldl (hA : Arriving renv files node txs)
    (hpool : Grown renv.toEnv node.mempool txs pool) {before : List CTransaction}
    (hbefore : ∀ tx ∈ before, tx ∈ txs) :
    Grown renv.toEnv node.mempool txs (before.foldl (CTxMemPool.addUnchecked renv.toEnv) pool) := by
  induction before generalizing pool with
  | nil => exact hpool
  | cons tx before ih =>
      exact ih (hA.grown_add hpool (hbefore tx List.mem_cons_self))
        fun tx' htx' => hbefore tx' (List.mem_cons_of_mem _ htx')

/-- A lookup over one pool that has grown is the same over another, or one of the transactions is
still to come there. -/
theorem loosePrev_cases (hA : Arriving renv files node txs)
    (hpool : Grown renv.toEnv node.mempool txs pool)
    (hpool' : Grown renv.toEnv node.mempool txs pool') {h : Uint256}
    {prev : CTxIndex × CTransaction}
    (hprev : CTransaction.loosePrev files pool node.txdb.data.txIndex h = .ok prev) :
    CTransaction.loosePrev files pool' node.txdb.data.txIndex h = .ok prev ∨
      (∃ msg, CTransaction.loosePrev files pool' node.txdb.data.txIndex h = .error (.fail msg)) ∧
        pool'.lookup h = none ∧ ∃ tx, pool.lookup h = some tx := by
  unfold CTransaction.loosePrev CTransaction.fetchPrev at hprev ⊢
  rw [if_neg (by decide)] at hprev ⊢
  cases hidx : node.txdb.data.txIndex h with
  | none =>
      simp only [hidx, CTransaction.fetchUnindexed] at hprev ⊢
      cases hlookup : pool.lookup h with
      | none =>
          rw [hlookup] at hprev
          cases hprev
      | some txPrev =>
          rw [hlookup] at hprev
          cases hprev
          cases hlookup' : pool'.lookup h with
          | none => exact .inr ⟨⟨_, rfl⟩, rfl, txPrev, rfl⟩
          | some txPrev' =>
              rw [hA.one h txPrev' txPrev (hpool'.known hlookup') (hpool.known hlookup)]
              exact .inl rfl
  | some txindex =>
      simp only [hidx] at hprev ⊢
      obtain ⟨txPrev, hread, hprev⟩ := Lib.bind_eq_ok.mp hprev
      cases hprev
      unfold CTransaction.readTxPrev at hread ⊢
      by_cases hpos : txindex.pos = CDiskTxPos.inPool
      · rw [if_pos hpos] at hread ⊢
        cases hlookup : pool.lookup h with
        | none =>
            rw [hlookup] at hread
            cases hread
        | some txPrev₀ =>
            rw [hlookup] at hread
            cases hread
            cases hlookup' : pool'.lookup h with
            | none => exact .inr ⟨⟨_, rfl⟩, rfl, txPrev, rfl⟩
            | some txPrev' =>
                rw [hA.one h txPrev' txPrev (hpool'.known hlookup') (hpool.known hlookup)]
                exact .inl rfl
      · rw [if_neg hpos] at hread ⊢
        rw [hread]
        exact .inl rfl

/-- What a transaction was accepted with, over a pool that has grown. -/
theorem accepted (hA : Arriving renv files node txs) (htx : tx ∈ txs) :
    ∃ pool, Grown renv.toEnv node.mempool txs pool ∧
      ({ node with mempool := pool } : NodeState).checkKnown renv.toEnv tx true = .ok () ∧
      ∃ inputs, ({ node with mempool := pool } : NodeState).fetchLoose files tx = .ok inputs ∧
        node.checkFetched renv files tx inputs = .ok () := by
  obtain ⟨before, hbefore, free, free', hacc⟩ := hA.acceptable tx htx
  refine ⟨_, hA.grown_foldl (Grown.refl _ _ _) hbefore, NodeState.checkAccept_known hacc, ?_⟩
  unfold NodeState.checkAccept at hacc
  rw [NodeState.checkAccept_known hacc] at hacc
  simp only [if_true, NodeState.checkInputs_eq, Prod.mk.injEq] at hacc
  obtain ⟨inputs, hfetch, hchecked⟩ := Lib.bind_eq_ok.mp hacc.2
  exact ⟨inputs, hfetch, hchecked⟩

theorem isCoinBase_eq (hA : Arriving renv files node txs) (htx : tx ∈ txs) :
    tx.isCoinBase = false := by
  obtain ⟨pool, -, hknown, -⟩ := hA.accepted htx
  exact (NodeState.checkKnown_ok hknown).2.1

end Arriving

namespace NodeState

/-- The checks before the inputs depend on the pool in the last two only. -/
theorem checkKnown_pool {env : Env} {node : NodeState} {pool : CTxMemPool} {tx : CTransaction}
    (h : ({ node with mempool := pool } : NodeState).checkKnown env tx true = .ok ())
    (pool' : CTxMemPool) (ws : List CWallet) :
    ({ node with mempool := pool', wallets := ws } : NodeState).checkKnown env tx true =
      (do
        Lib.require (pool'.lookup (env.getHash tx)).isNone (Err.fail "")
        Lib.require (tx.vin.all fun txin => (pool'.mapNextTx txin.prevout).isNone) (Err.fail "")) := by
  simp only [checkKnown, Lib.seq_eq_ok, Lib.require_eq_ok, Lib.mapError_eq_ok] at h
  obtain ⟨hcheck, hcb, hcs, htime, hstandard, -, hidx, -⟩ := h
  simp only [checkKnown, hcheck, hcb, hcs, htime, hstandard, hidx, Lib.require, if_true,
    Except.mapError, bind, Except.bind]

/-- `FetchInputs` of a loose transaction that is no coinbase is its loop. -/
theorem fetchLoose_congr {node node' : NodeState} {files : Files} {tx : CTransaction}
    (hcb : tx.isCoinBase = false)
    (h : CTransaction.fetchLoop files node'.mempool node'.txdb.data.txIndex tx.vin Lib.PMap.empty
      = CTransaction.fetchLoop files node.mempool node.txdb.data.txIndex tx.vin Lib.PMap.empty) :
    node'.fetchLoose files tx = node.fetchLoose files tx := by
  unfold CTransaction.fetchLoop at h
  unfold fetchLoose CTransaction.fetchInputs
  rw [hcb, if_neg Bool.false_ne_true, if_neg Bool.false_ne_true, h]

theorem fetchLoose_ok {node : NodeState} {files : Files} {tx : CTransaction} {inputs : MapPrevTx}
    (hcb : tx.isCoinBase = false) (h : node.fetchLoose files tx = .ok inputs) :
    CTransaction.fetchLoop files node.mempool node.txdb.data.txIndex tx.vin Lib.PMap.empty
      = .ok inputs ∧
    ∀ txin ∈ tx.vin, ∃ txindex txPrev, inputs txin.prevout.hash = some (txindex, txPrev) ∧
      txin.prevout.n < txPrev.vout.length := by
  unfold fetchLoose at h
  split at h
  · next hfetch =>
    cases h
    unfold CTransaction.fetchInputs at hfetch
    rw [hcb, if_neg Bool.false_ne_true] at hfetch
    obtain ⟨inputs₁, hloop, hfetch⟩ := Lib.bind_eq_ok.mp hfetch
    obtain ⟨hrange, hfetch⟩ := Lib.seq_eq_ok.mp hfetch
    cases hfetch
    refine ⟨hloop, ?_⟩
    intro txin htxin
    have hx := Lib.forM_eq_ok.mp hrange txin htxin
    rw [CTransaction.checkPrevoutRange] at hx
    split at hx
    · cases hx
    · next txindex txPrev hin =>
      rw [Lib.require_eq_ok, Bool.and_eq_true, decide_eq_true_eq] at hx
      exact ⟨txindex, txPrev, hin, hx.1⟩
  · cases h
  · cases h
  · cases h

/-- A lookup that fails makes it an orphan. -/
theorem fetchLoose_missing {node : NodeState} {files : Files} {tx : CTransaction} {msg : String}
    (hcb : tx.isCoinBase = false)
    (h : CTransaction.fetchLoop files node.mempool node.txdb.data.txIndex tx.vin Lib.PMap.empty
      = .error (.fail msg)) :
    ∃ r, node.fetchLoose files tx = .error r ∧ r.fMissingInputs = true ∧ r.err.isFalse = true := by
  unfold CTransaction.fetchLoop at h
  unfold fetchLoose CTransaction.fetchInputs
  rw [hcb, if_neg Bool.false_ne_true, h]
  exact ⟨_, rfl, rfl, rfl⟩

end NodeState

namespace Arriving

variable {φ : Type} {renv : RelayEnv φ} {files : Files} {node : NodeState}
  {txs : Finset CTransaction} {pool : CTxMemPool} {tx : CTransaction}

theorem fetchable_accepted (hcb : tx.isCoinBase = false) {inputs : MapPrevTx}
    (hfetch : ({ node with mempool := pool } : NodeState).fetchLoose files tx = .ok inputs) :
    Fetchable files pool node.txdb.data.txIndex tx :=
  (CTransaction.fetchLoop_ok (NodeState.fetchLoose_ok hcb hfetch).1 (by simp)).2

/-- Nothing in a pool without it spends what it spends. -/
theorem checkKnown_of_new (hA : Arriving renv files node txs)
    (hpool : Grown renv.toEnv node.mempool txs pool) (htx : tx ∈ txs)
    (hnew : pool.lookup (renv.getHash tx) = none) (ws : List CWallet) :
    ({ node with mempool := pool, wallets := ws } : NodeState).checkKnown renv.toEnv tx true
      = .ok () := by
  obtain ⟨pool₁, hpool₁, hknown, -⟩ := hA.accepted htx
  rw [NodeState.checkKnown_pool hknown pool ws, hnew]
  have hfree : (tx.vin.all fun txin => (pool.mapNextTx txin.prevout).isNone) = true := by
    rw [List.all_eq_true]
    intro txin htxin
    cases hspent : pool.mapNextTx txin.prevout with
    | none => rfl
    | some v =>
        exfalso
        rcases hpool.spent txin.prevout (by rw [hspent]; rfl) with hbase | ⟨tx', htx', hin, hspends⟩
        · have := hpool₁.keepsSpent _ hbase
          rw [(NodeState.checkKnown_ok hknown).2.2.2.2.2 txin htxin] at this
          exact Bool.noConfusion this
        · obtain ⟨txin', htxin', heq⟩ := hspends
          have hne : tx ≠ tx' := by
            rintro rfl
            rw [hnew] at hin
            cases hin
          exact hA.apart tx htx tx' htx' hne txin htxin txin' htxin' heq.symm
  rw [hfree]
  rfl

/-- In the pool already: it is rejected, and misses nothing. -/
theorem checkAccept_of_mem (hA : Arriving renv files node txs) (htx : tx ∈ txs)
    (hin : pool.lookup (renv.getHash tx) = some tx) (ws : List CWallet) (free : φ) :
    ({ node with mempool := pool, wallets := ws } : NodeState).checkAccept renv files free tx true
      = (free, .error { err := .fail "" }) := by
  obtain ⟨pool₁, -, hknown, -⟩ := hA.accepted htx
  rw [NodeState.checkAccept, NodeState.checkKnown_pool hknown pool ws, hin]
  rfl

/-- Its parents are there: it is accepted. -/
theorem checkAccept_of_fetchable (hA : Arriving renv files node txs)
    (hpool : Grown renv.toEnv node.mempool txs pool) (htx : tx ∈ txs)
    (hnew : pool.lookup (renv.getHash tx) = none)
    (hfetchable : Fetchable files pool node.txdb.data.txIndex tx) (ws : List CWallet) (free : φ) :
    ({ node with mempool := pool, wallets := ws } : NodeState).checkAccept renv files free tx true
      = (free, .ok ()) := by
  obtain ⟨pool₁, hpool₁, hknown, inputs, hfetch, hchecked⟩ := hA.accepted htx
  have hcb := hA.isCoinBase_eq htx
  rw [NodeState.checkAccept, hA.checkKnown_of_new hpool htx hnew ws]
  simp only [if_true, NodeState.checkInputs_eq]
  -- both pools have the same previous transactions
  have hsame : ∀ txin ∈ tx.vin,
      CTransaction.loosePrev files pool node.txdb.data.txIndex txin.prevout.hash
        = CTransaction.loosePrev files pool₁ node.txdb.data.txIndex txin.prevout.hash := by
    intro txin htxin
    obtain ⟨prev, hprev⟩ := hfetchable txin htxin
    obtain ⟨prev₁, hprev₁⟩ := fetchable_accepted hcb hfetch txin htxin
    rcases hA.loosePrev_cases hpool₁ hpool hprev₁ with heq | ⟨⟨msg, herr⟩, -⟩
    · rw [hprev₁, heq]
    · rw [hprev] at herr
      cases herr
  have hfetch' : ({ node with mempool := pool, wallets := ws } : NodeState).fetchLoose files tx
      = .ok inputs := by
    rw [← hfetch]
    apply NodeState.fetchLoose_congr hcb
    exact CTransaction.fetchLoop_congr hsame _
  rw [hfetch']
  exact congrArg (Prod.mk free) hchecked

/-- A parent is not there: it misses inputs. -/
theorem checkAccept_of_missing (hA : Arriving renv files node txs)
    (hpool : Grown renv.toEnv node.mempool txs pool) (htx : tx ∈ txs)
    (hnew : pool.lookup (renv.getHash tx) = none)
    (hmissing : ¬ Fetchable files pool node.txdb.data.txIndex tx) (ws : List CWallet) (free : φ) :
    ∃ r, ({ node with mempool := pool, wallets := ws } : NodeState).checkAccept renv files free tx
        true = (free, .error r) ∧ r.fMissingInputs = true ∧ r.err.isFalse = true := by
  obtain ⟨pool₁, hpool₁, -, inputs, hfetch, -⟩ := hA.accepted htx
  have hcb := hA.isCoinBase_eq htx
  rw [NodeState.checkAccept, hA.checkKnown_of_new hpool htx hnew ws]
  simp only [if_true, NodeState.checkInputs_eq]
  have hloop : ∃ msg, CTransaction.fetchLoop files pool node.txdb.data.txIndex tx.vin
      Lib.PMap.empty = .error (.fail msg) := by
    cases hrun : CTransaction.fetchLoop files pool node.txdb.data.txIndex tx.vin
        Lib.PMap.empty with
    | ok inputs' => exact absurd (CTransaction.fetchLoop_ok hrun (by simp)).2 hmissing
    | error e =>
        -- the lookup that fails is of a transaction still to come
        obtain ⟨txin, htxin, herr⟩ := CTransaction.fetchLoop_error hrun
        obtain ⟨prev₁, hprev₁⟩ := fetchable_accepted hcb hfetch txin htxin
        rcases hA.loosePrev_cases hpool₁ hpool hprev₁ with heq | ⟨⟨msg, hmsg⟩, -⟩
        · rw [herr] at heq
          cases heq
        · rw [herr] at hmsg
          cases hmsg
          exact ⟨msg, rfl⟩
  obtain ⟨msg, hloop⟩ := hloop
  obtain ⟨r, hr, hmiss, hfalse⟩ : ∃ r, ({ node with mempool := pool, wallets := ws } :
      NodeState).fetchLoose files tx = .error r ∧ r.fMissingInputs = true ∧ r.err.isFalse = true :=
    NodeState.fetchLoose_missing hcb hloop
  exact ⟨r, by rw [hr]; rfl, hmiss, hfalse⟩

/-- A parent that is not there is one of the transactions, and its coming is what is waited for. -/
theorem fetchable_add (hA : Arriving renv files node txs)
    (hpool : Grown renv.toEnv node.mempool txs pool)
    (hmissing : ¬ Fetchable files pool node.txdb.data.txIndex tx) {tx' : CTransaction}
    (htx' : tx' ∈ txs)
    (hfetchable : Fetchable files (pool.addUnchecked renv.toEnv tx') node.txdb.data.txIndex tx) :
    ∃ txin ∈ tx.vin, txin.prevout.hash = renv.getHash tx' := by
  unfold Fetchable at hmissing
  push Not at hmissing
  obtain ⟨txin, htxin, hno⟩ := hmissing
  obtain ⟨prev, hprev⟩ := hfetchable txin htxin
  refine ⟨txin, htxin, ?_⟩
  rcases hA.loosePrev_cases (hA.grown_add hpool htx') hpool hprev with heq | ⟨-, hnone⟩
  · exact absurd heq (hno prev)
  · by_contra hne
    -- the lookup does not depend on what was added
    have hsame : (pool.addUnchecked renv.toEnv tx').lookup txin.prevout.hash
        = pool.lookup txin.prevout.hash := by
      rw [CTxMemPool.lookup_addUnchecked, if_neg hne]
    apply hno prev
    rw [← hprev]
    unfold CTransaction.loosePrev CTransaction.fetchPrev CTransaction.fetchUnindexed
      CTransaction.readTxPrev
    rw [hsame]

/-- The inputs of a transaction whose parents are all in the pool can be looked up. -/
theorem fetchable_of_parents (hA : Arriving renv files node txs)
    (hpool : Grown renv.toEnv node.mempool txs pool) (htx : tx ∈ txs)
    (hparents : ∀ tx' ∈ txs, (∃ txin ∈ tx.vin, txin.prevout.hash = renv.getHash tx') →
      pool.lookup (renv.getHash tx') = some tx') :
    Fetchable files pool node.txdb.data.txIndex tx := by
  obtain ⟨pool₁, hpool₁, -, inputs, hfetch, -⟩ := hA.accepted htx
  intro txin htxin
  obtain ⟨prev, hprev⟩ := fetchable_accepted (hA.isCoinBase_eq htx) hfetch txin htxin
  rcases hA.loosePrev_cases hpool₁ hpool hprev with heq | ⟨-, hnone, tx', hlookup⟩
  · exact ⟨prev, heq⟩
  · exfalso
    rcases hpool₁.added _ _ hlookup with hbase | ⟨htx', heq⟩
    · rw [hpool.keeps _ _ hbase] at hnone
      cases hnone
    · have hin := hparents tx' htx' ⟨txin, htxin, heq.symm⟩
      rw [heq, hnone] at hin
      cases hin

end Arriving

/-! ## The wallets take it in -/

section

variable {known : Uint256 → CTransaction → Prop} {env : Env} {w : CWallet} {tx : CTransaction}

namespace CWallet

theorem addLooseIfInvolvingMe_isOk (hone : ∀ h tx tx', known h tx → known h tx' → tx = tx')
    (hw : WalletTxs known w) (hknown : known (env.getHash tx) tx) (htx : Affordable known tx) :
    ∃ w', w.addLooseIfInvolvingMe env tx = .ok w' ∧ WalletTxs known w' := by
  have htell := htx.tellable hone
  have hadd : ∃ w', w.addToWallet env { tx := tx } = .ok w' ∧ WalletTxs known w' :=
    addToWallet_isOk hone hw hknown htell { tx := tx } rfl
  unfold addLooseIfInvolvingMe
  split
  · exact hadd
  · obtain ⟨b, hb⟩ := htell.fromMe w hw
    rw [hb]
    cases b with
    | true => exact hadd
    | false => exact htell.spent w hw

end CWallet

theorem syncLoose_isOk (hone : ∀ h tx tx', known h tx → known h tx' → tx = tx')
    {ws : List CWallet} (hws : ∀ w ∈ ws, WalletTxs known w) (hknown : known (env.getHash tx) tx)
    (htx : Affordable known tx) :
    ∃ ws', syncLoose env tx ws = .ok ws' ∧ ∀ w ∈ ws', WalletTxs known w := by
  obtain ⟨ws', hws'⟩ := dispatchWallets_isOk fun w hw =>
    (CWallet.addLooseIfInvolvingMe_isOk hone (hws w hw) hknown htx).imp fun _ h => h.1
  refine ⟨ws', hws', dispatchWallets_forall ?_ hws hws'⟩
  intro w w' hw h
  obtain ⟨w₁, h₁, hw₁⟩ := CWallet.addLooseIfInvolvingMe_isOk hone hw hknown htx
  cases h.symm.trans h₁
  exact hw₁

end

namespace Arriving

variable {φ : Type} {renv : RelayEnv φ} {files : Files} {node : NodeState}
  {txs : Finset CTransaction} {tx : CTransaction}

theorem affordable (hA : Arriving renv files node txs) (htx : tx ∈ txs) :
    Affordable (KnownLoose renv.toEnv files node txs) tx := by
  obtain ⟨pool, hpool, -, inputs, hfetch, hchecked⟩ := hA.accepted htx
  have hcb := hA.isCoinBase_eq htx
  obtain ⟨hloop, hrange⟩ := NodeState.fetchLoose_ok hcb hfetch
  -- `ConnectInputs` has added up the values
  unfold NodeState.checkFetched at hchecked
  split at hchecked
  · cases hchecked
  · rw [Lib.mapError_eq_ok] at hchecked
    unfold NodeState.connectLoose at hchecked
    obtain ⟨_, hconn, -⟩ := Lib.bind_eq_ok.mp hchecked
    rw [Lib.mapError_eq_ok, CTransaction.connectInputs, hcb, if_neg Bool.false_ne_true] at hconn
    obtain ⟨nValueIn, hcheck, -⟩ := Lib.bind_eq_ok.mp hconn
    obtain ⟨hsum, hmoney, hvals, -⟩ := CTransaction.checkInput_loop (by decide) hcheck
    rw [zero_add] at hsum
    rw [hsum] at hmoney
    refine ⟨CTransaction.prevValue inputs, (moneyRange_iff.mp hmoney).2, ?_⟩
    intro txin htxin
    obtain ⟨txindex, txPrev, hin, hn⟩ := hrange txin htxin
    have hprev := (CTransaction.fetchLoop_ok hloop (by simp)).1 _ _ hin
    refine ⟨(moneyRange_iff.mp (hvals txin htxin)).1, txPrev, hpool.known_loosePrev hprev, ?_⟩
    rw [CTransaction.prevValue, hin, Option.bind_some]
    simp [List.getElem?_eq_getElem hn]

end Arriving

end ShinyCoin

import ShinyCoin.Chain.BestChain
import ShinyCoin.Lib.TreeMap

/-!
# Accepting a loose transaction

`CTxMemPool::checkAccept` with its inputs checked: on top of what a transaction of a disconnected
block has to pass, it must not be in the index, its inputs must be in the index or in the pool, it
must pay enough, its inputs must connect and its infos must process. The view the infos are
processed in is rolled back in every case, so a check leaves no trace but the state of the rate
limiter.

Scripts are evaluated elsewhere; whether an input is standard is a parameter. So is the rate
limiter, a decaying average in floating point whose state is a type of its own.
-/

namespace ShinyCoin

/-- What accepting needs besides `Env`. `φ` is the state of the rate limiter, the readings of the
clock included. -/
structure RelayEnv (φ : Type) extends Env where
  /-- One round of the loop of `AreInputsStandard`: the transaction, the number of the input, and the
  output it spends. -/
  isInputStandard : CTransaction → Nat → CTxOut → Bool
  /-- `dFreeCount *= pow(1.0 - 1.0/600.0, (double)(nNow - nLastTime)); nLastTime = nNow;` -/
  decayFree : φ → φ
  /-- `dFreeCount > GetArg("-limitfreerelay", 15)*10*1000` -/
  overLimit : φ → Bool
  /-- `dFreeCount += nSize` -/
  chargeFree : φ → Nat → φ

/-- Why a transaction was not accepted, with `*pfMissingInputs`. -/
structure Rejection where
  err : Err
  fMissingInputs : Bool := false
  deriving DecidableEq, Repr

/-- `return error(msg)` for whatever a call returned `false` with; exceptions pass. -/
def Err.orFail (msg : String) : Err → Err
  | .exc what => .exc what
  | _ => .fail msg

/-- `IsFromMe(tx)` over the registered wallets. -/
def isFromMe (tx : CTransaction) : List CWallet → Except Err Bool
  | [] => .ok false
  | w :: ws => do
      let fFromMe ← w.isFromMe tx
      if fFromMe then return true else isFromMe tx ws

section

variable {φ : Type}

def CTransaction.areInputsStandard (renv : RelayEnv φ) (inputs : MapPrevTx) (tx : CTransaction) :
    Except Err Bool :=
  if tx.isCoinBase then .ok true
  else tx.vin.zipIdx.foldlM (fun fStandard x =>
    if fStandard then do
      let prev ← CTransaction.getOutputFor inputs x.1
      return renv.isInputStandard tx x.2 prev
    else .ok false) true

namespace NodeState

/-- The checks before the inputs are looked at. -/
def checkKnown (env : Env) (s : NodeState) (tx : CTransaction) (fCheckInputs : Bool) :
    Except Err Unit := do
  tx.checkTransaction.mapError fun _ => Err.fail "CTxMemPool::accept() : CheckTransaction failed"
  Lib.require (!tx.isCoinBase) (Err.fail "CTxMemPool::accept() : coinbase as individual tx")
  Lib.require (!tx.isCoinStake) (Err.fail "CTxMemPool::accept() : coinstake as individual tx")
  Lib.require (tx.nLockTime ≤ 2 ^ 31 - 1)
    (Err.fail "CTxMemPool::accept() : not accepting nLockTime beyond 2038 yet")
  Lib.require (env.fTestNet || env.isStandard tx)
    (Err.fail "CTxMemPool::accept() : nonstandard transaction type")
  Lib.require (s.mempool.lookup (env.getHash tx)).isNone (Err.fail "")
  -- `txdb.ContainsTx(hash)`
  Lib.require (!fCheckInputs || (s.txdb.data.txIndex (env.getHash tx)).isNone) (Err.fail "")
  Lib.require (tx.vin.all fun txin => (s.mempool.mapNextTx txin.prevout).isNone) (Err.fail "")

/-- `FetchInputs` for a loose transaction: missing inputs make an orphan, an input that cannot exist
does not. -/
def fetchLoose (files : Files) (s : NodeState) (tx : CTransaction) :
    Except Rejection MapPrevTx :=
  match tx.fetchInputs files s.mempool s.txdb.data.txIndex Lib.PMap.empty false false with
  | .ok mapInputs => .ok mapInputs
  | .error (.exc what) => .error { err := .exc what }
  | .error (.invalid _) =>
      .error { err := .fail "CTxMemPool::accept() : FetchInputs found invalid tx" }
  | .error (.fail _) =>
      .error { err := .fail "CTxMemPool::accept() : FetchInputs failed", fMissingInputs := true }

/-- `nFees`, once the inputs are standard and it is enough to get into a block. -/
def checkFees (renv : RelayEnv φ) (mapInputs : MapPrevTx) (tx : CTransaction) :
    Except Err ℤ := do
  let fStandard ← tx.areInputsStandard renv mapInputs
  Lib.require (fStandard || renv.fTestNet)
    (Err.fail "CTxMemPool::accept() : nonstandard transaction input")
  let nValueIn ← tx.getValueIn mapInputs
  let nValueOut ← tx.getValueOut
  let nFees := int64 (nValueIn - nValueOut)
  Lib.require (tx.getMinFee 1000 .GMF_RELAY ≤ nFees)
    (Err.fail "CTxMemPool::accept() : not enough fees")
  return nFees

/-- `Continuously rate-limit free transactions`. -/
def limitFree (renv : RelayEnv φ) (s : NodeState) (free : φ) (nFees : ℤ) (tx : CTransaction) :
    φ × Except Err Unit :=
  if nFees < MIN_RELAY_TX_FEE then
    let free := renv.decayFree free
    if renv.overLimit free then
      match isFromMe tx s.wallets with
      | .error e => (free, .error e)
      | .ok false =>
          (free, .error (.fail "CTxMemPool::accept() : free transaction rejected by rate limiter"))
      | .ok true => (renv.chargeFree free tx.getSerializeSize, .ok ())
    else (renv.chargeFree free tx.getSerializeSize, .ok ())
  else (free, .ok ())

/-- `Check against previous transactions`, and the infos in a view that is rolled back. -/
def connectLoose (env : Env) (files : Files) (s : NodeState) (mapInputs : MapPrevTx)
    (tx : CTransaction) : Except Err Unit := do
  let _ ← (tx.connectInputs env files s.nBestHeight s.txdb.data.txIndex mapInputs Lib.PMap.empty
    CDiskTxPos.inPool s.pindexBest false false).mapError
      (Err.orFail "CTxMemPool::accept() : ConnectInputs failed")
  let st ← s.infos.beginTransaction.mapError Prod.fst
  let _ ← (tx.processTxInfos env files s.txdb.data.txIndex st).mapError
    fun e => e.1.orFail "CTxMemPool::accept() : ProcessTxInfos failed"
  return ()

/-- The part of `checkAccept` under `fCheckInputs`. -/
def checkInputs (renv : RelayEnv φ) (files : Files) (s : NodeState) (free : φ)
    (tx : CTransaction) : φ × Except Rejection Unit :=
  match s.fetchLoose files tx with
  | .error r => (free, .error r)
  | .ok mapInputs =>
      match checkFees renv mapInputs tx with
      | .error e => (free, .error { err := e })
      | .ok nFees =>
          match s.limitFree renv free nFees tx with
          | (free, .error e) => (free, .error { err := e })
          | (free, .ok ()) =>
              (free, (s.connectLoose renv.toEnv files mapInputs tx).mapError ({ err := · }))

/-- `checkAccept(txdb, tx, fCheckInputs, pfMissingInputs, …)`. Replacing a transaction of the pool
is disabled, so `ptxOld` stays `NULL`. -/
def checkAccept (renv : RelayEnv φ) (files : Files) (s : NodeState) (free : φ) (tx : CTransaction)
    (fCheckInputs : Bool) : φ × Except Rejection Unit :=
  match s.checkKnown renv.toEnv tx fCheckInputs with
  | .error e => (free, .error { err := e })
  | .ok () => if fCheckInputs then s.checkInputs renv files free tx else (free, .ok ())

/-- `AcceptToMemoryPool(txdb, fCheckInputs, pfMissingInputs)` -/
def acceptToMemoryPool (renv : RelayEnv φ) (files : Files) (s : NodeState) (free : φ)
    (tx : CTransaction) (fCheckInputs : Bool) : φ × Except Rejection NodeState :=
  match s.checkAccept renv files free tx fCheckInputs with
  | (free, .error r) => (free, .error r)
  | (free, .ok ()) => (free, .ok { s with mempool := s.mempool.addUnchecked renv.toEnv tx })

/-! ## What accepting can do -/

variable {renv : RelayEnv φ} {files : Files} {s s' : NodeState} {free free' : φ}
  {tx : CTransaction} {fCheckInputs : Bool}

/-- Without its inputs checked a transaction is accepted as one of a disconnected block is. -/
theorem checkKnown_false (env : Env) (s : NodeState) (tx : CTransaction) :
    s.checkKnown env tx false = s.mempool.checkAccept env tx := rfl

theorem checkAccept_known (h : s.checkAccept renv files free tx fCheckInputs = (free', .ok ())) :
    s.checkKnown renv.toEnv tx fCheckInputs = .ok () := by
  unfold checkAccept at h
  split at h
  · cases h
  · next hk => exact hk

/-- An accepted transaction was checked and is now in the pool; nothing else changed. -/
theorem acceptToMemoryPool_ok
    (h : s.acceptToMemoryPool renv files free tx fCheckInputs = (free', .ok s')) :
    s.checkAccept renv files free tx fCheckInputs = (free', .ok ()) ∧
      s' = { s with mempool := s.mempool.addUnchecked renv.toEnv tx } := by
  unfold acceptToMemoryPool at h
  split at h
  · cases h
  · next hc =>
    cases h
    exact ⟨hc, rfl⟩

end NodeState

theorem CTxMemPool.lookup_addUnchecked (env : Env) (pool : CTxMemPool) (tx : CTransaction)
    (h : Uint256) : (pool.addUnchecked env tx).lookup h =
      if h = env.getHash tx then some tx else pool.lookup h :=
  Lib.getElem?_insert pool.mapTx (env.getHash tx) h tx

/-- What passed the checks is neither in the pool nor, with its inputs checked, in the index, and
none of its inputs is spent in the pool. -/
theorem NodeState.checkKnown_ok {env : Env} {s : NodeState} {tx : CTransaction}
    {fCheckInputs : Bool} (h : s.checkKnown env tx fCheckInputs = .ok ()) :
    tx.checkTransaction = .ok () ∧ tx.isCoinBase = false ∧ tx.isCoinStake = false ∧
      s.mempool.lookup (env.getHash tx) = none ∧
      (fCheckInputs = true → s.txdb.data.txIndex (env.getHash tx) = none) ∧
      ∀ txin ∈ tx.vin, s.mempool.mapNextTx txin.prevout = none := by
  simp only [checkKnown, Lib.seq_eq_ok, Lib.require_eq_ok, Lib.mapError_eq_ok] at h
  obtain ⟨hcheck, hcb, hcs, -, -, hpool, hidx, hnext⟩ := h
  refine ⟨hcheck, by simpa using hcb, by simpa using hcs, by simpa using hpool, ?_, ?_⟩
  · intro hf
    simpa [hf] using hidx
  · simpa using hnext

end

end ShinyCoin

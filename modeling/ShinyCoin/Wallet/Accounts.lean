import ShinyCoin.Chain.Amounts
import ShinyCoin.Lib.Booked
import ShinyCoin.Script.Address
import ShinyCoin.Wallet.Coherent

/-!
# Amounts of accounts

`GetAmounts` splits a wallet transaction into what was generated, received, sent and paid as a fee,
and leaves out what looks like change; `GetAccountAmounts` gives each account its part. Change is
always the wallet's own, so the parts of a transaction that was received or sent come to its credit
less its debit. A coinbase or coinstake takes an early exit with its credit alone.
-/

namespace ShinyCoin

/-- The scripts of a wallet with these addresses -/
def AddressEnv.scripts (ae : AddressEnv) : ScriptEnv where
  solver scriptPubKey := (solver scriptPubKey).map ScriptSolution.ofSolver
  hash160 := ae.hash160
  pubkeyVersion := if ae.fTestNet then PUBKEY_ADDRESS_TEST else PUBKEY_ADDRESS

/-- A wallet with its address book, which names the account of an address. The keys are stored under
the addresses of their public keys. -/
structure AccountWallet (ae : AddressEnv) extends KeptWallet where
  mapAddressBook : Lib.PMap CBitcoinAddress Bytes
  key_address : ∀ address ∈ keystore.mapKeys, ∃ vchPubKey, address = ae.setPubKey vchPubKey

/-- A wallet transaction with the account it was sent from. A debit is kept after `GetDebit` found it
in range. -/
structure AccountTx extends KeptTx where
  strFromAccount : Bytes := []
  debit_range : fDebitCached = true → moneyRange nDebitCached = true

/-- What `GetAmounts` finds -/
structure Amounts where
  nGeneratedImmature : ℤ := 0
  nGeneratedMature : ℤ := 0
  listReceived : List (CBitcoinAddress × ℤ) := []
  listSent : List (CBitcoinAddress × ℤ) := []
  nFee : ℤ := 0
  strSentAccount : Bytes

/-- What `GetAccountAmounts` finds -/
structure AccountAmounts where
  nGenerated : ℤ := 0
  nReceived : ℤ := 0
  nSent : ℤ := 0
  nFee : ℤ := 0

/-- The text `" unknown "`, which stands for an address. -/
def unknownText : Bytes := [32, 117, 110, 107, 110, 111, 119, 110, 32]

namespace AccountWallet

variable {ae : AddressEnv}

/-- The wallet with its own test of outputs -/
abbrev own (w : AccountWallet ae) : CWallet := w.view ae.scripts

def isChange (w : AccountWallet ae) (txout : CTxOut) : Bool :=
  match ae.extractAddress txout.scriptPubKey with
  | none => false
  | some address => w.keystore.haveKey address && (w.mapAddressBook address).isNone

/-- One round of the loop of `GetAmounts` -/
def addOutput (env : Env) (w : AccountWallet ae) (nDebit : ℤ) (amounts : Amounts) (txout : CTxOut) :
    Amounts :=
  let address := (ae.extractAddress txout.scriptPubKey).getD (CBitcoinAddress.ofString env unknownText)
  -- "Don't report 'change' txouts"
  if 0 < nDebit ∧ w.isChange txout then amounts
  else
    let amounts :=
      if 0 < nDebit then
        { amounts with listSent := amounts.listSent ++ [(address, txout.nValue)] }
      else amounts
    if w.own.isMine txout.scriptPubKey then
      { amounts with listReceived := amounts.listReceived ++ [(address, txout.nValue)] }
    else amounts

/-- `GetAmounts`; the transaction comes back with the numbers it keeps now. -/
def getAmounts (env : Env) (maturity : Maturity) (w : AccountWallet ae) (tx : AccountTx) :
    Except Err (Amounts × KeptTx) := do
  let amounts : Amounts := { strSentAccount := tx.strFromAccount }
  if tx.wtx.tx.isCoinBase || tx.wtx.tx.isCoinStake then
    if 0 < maturity tx.wtx then
      let nCredit ← w.own.getCredit tx.wtx.tx
      return ({ amounts with nGeneratedImmature := nCredit }, tx.toKeptTx)
    let (nCredit, kept) ← w.getCredit ae.scripts maturity true tx.toKeptTx
    return ({ amounts with nGeneratedMature := nCredit }, kept)
  let (nDebit, kept) ← w.getDebit ae.scripts tx.toKeptTx
  if 0 < nDebit then
    let nValueOut ← tx.wtx.tx.getValueOut
    let amounts := { amounts with nFee := int64 (nDebit - nValueOut) }
    return (tx.wtx.tx.vout.foldl (w.addOutput env nDebit) amounts, kept)
  return (tx.wtx.tx.vout.foldl (w.addOutput env nDebit) amounts, kept)

/-- Whether an address counts for an account: the one the address book names, or else the one without
a name -/
def countsFor (w : AccountWallet ae) (strAccount : Bytes) (address : CBitcoinAddress) : Bool :=
  match w.mapAddressBook address with
  | some account => account == strAccount
  | none => strAccount.isEmpty

/-- The part of an account in what `GetAmounts` found -/
def accountAmounts (w : AccountWallet ae) (all : Amounts) (strAccount : Bytes) : AccountAmounts where
  nGenerated := if strAccount = [] then all.nGeneratedMature else 0
  nSent :=
    if strAccount = all.strSentAccount then
      all.listSent.foldl (fun nSent s => int64 (nSent + s.2)) 0
    else 0
  nFee := if strAccount = all.strSentAccount then all.nFee else 0
  nReceived := all.listReceived.foldl
    (fun nReceived r => if w.countsFor strAccount r.1 then int64 (nReceived + r.2) else nReceived) 0

def getAccountAmounts (env : Env) (maturity : Maturity) (w : AccountWallet ae) (tx : AccountTx)
    (strAccount : Bytes) : Except Err (AccountAmounts × KeptTx) := do
  let (all, kept) ← w.getAmounts env maturity tx
  return (w.accountAmounts all strAccount, kept)

end AccountWallet

/-- What an account has of a transaction -/
def AccountAmounts.balance (amounts : AccountAmounts) : ℤ :=
  amounts.nGenerated + amounts.nReceived - amounts.nSent - amounts.nFee

/-! ## Sums in 64 bits -/

section

variable {α : Type}

theorem int64_eq_of_moneyRange {n : ℤ} (h : moneyRange n = true) : int64 n = n := by
  obtain ⟨hpos, hle⟩ := moneyRange_iff.mp h
  apply int64_of_moneyRange hpos
  simp only [MAX_MONEY, COIN] at hle ⊢
  omega

/-- A loop that adds up and throws out of range returns the sum where no partial sum is out of
range. -/
theorem foldlM_sum_eq_ok {f : α → ℤ} {err : Err} {xs : List α} {n n' : ℤ}
    (hn : moneyRange n = true) :
    xs.foldlM (fun n x => do
        let n := int64 (n + f x)
        Lib.require (moneyRange n) err
        return n) n = .ok n' ↔
      (∀ part, part <+: xs.map f → moneyRange (int64 (n + part.sum)) = true) ∧
        n' = int64 (n + (xs.map f).sum) := by
  induction xs generalizing n with
  | nil =>
      rw [List.map_nil, List.sum_nil, add_zero, int64_eq_of_moneyRange hn]
      constructor
      · intro h
        cases h
        refine ⟨?_, rfl⟩
        intro part hprefix
        rw [List.prefix_nil.mp hprefix, List.sum_nil, add_zero, int64_eq_of_moneyRange hn]
        exact hn
      · rintro ⟨-, rfl⟩
        rfl
  | cons x xs ih =>
      have hpart : ∀ part : List ℤ,
          int64 (int64 (n + f x) + part.sum) = int64 (n + (f x :: part).sum) := by
        intro part
        rw [CTransaction.int64_int64_add, List.sum_cons, add_assoc]
      rw [List.foldlM_cons, Lib.bind_eq_ok, List.map_cons]
      constructor
      · rintro ⟨n₁, h₁, h⟩
        obtain ⟨hrange, hret⟩ := Lib.seq_eq_ok.mp h₁
        cases hret
        obtain ⟨hrest, rfl⟩ := (ih (Lib.require_eq_ok.mp hrange)).mp h
        refine ⟨?_, hpart _⟩
        intro part hprefix
        rcases List.prefix_cons_iff.mp hprefix with rfl | ⟨part, rfl, hrestPrefix⟩
        · simpa [int64_eq_of_moneyRange hn] using hn
        · rw [← hpart]
          exact hrest part hrestPrefix
      · rintro ⟨hparts, rfl⟩
        have hfirst : moneyRange (int64 (n + f x)) = true := by
          simpa using hparts [f x] (by simp)
        refine ⟨int64 (n + f x), ?_, (ih hfirst).mpr ⟨?_, (hpart _).symm⟩⟩
        · exact Lib.seq_eq_ok.mpr ⟨Lib.require_eq_ok.mpr hfirst, rfl⟩
        · intro part hprefix
          rw [hpart]
          exact hparts (f x :: part) ((List.prefix_cons_inj _).mpr hprefix)

/-- A loop that adds up what passes a test -/
theorem foldl_int64 (p : α → Bool) (f : α → ℤ) (xs : List α) {n : ℤ} (hn : int64 n = n) :
    xs.foldl (fun n x => if p x then int64 (n + f x) else n) n
      = int64 (n + ((xs.filter p).map f).sum) := by
  induction xs generalizing n with
  | nil => simp [hn]
  | cons x xs ih =>
      rw [List.foldl_cons, List.filter_cons]
      cases hp : p x with
      | false => simpa using ih hn
      | true =>
          have hstep : int64 (int64 (n + f x)) = int64 (n + f x) := by
            simpa using CTransaction.int64_int64_add (n + f x) 0
          rw [if_pos rfl, if_pos rfl, ih hstep, CTransaction.int64_int64_add, List.map_cons, List.sum_cons,
            add_assoc]

end

/-! ## Credit and debit -/

namespace CWallet

/-- The values of the outputs that are the wallet's own -/
def ownSum (v : CWallet) (vout : List CTxOut) : ℤ :=
  ((vout.filter fun txout => v.isMine txout.scriptPubKey).map CTxOut.nValue).sum

def ownValue (v : CWallet) (tx : CTransaction) : ℤ := v.ownSum tx.vout

/-- What each input spends of the wallet -/
def spentValues (v : CWallet) (tx : CTransaction) : List ℤ := tx.vin.map v.getDebitIn

/-- What the transaction spends of the wallet, in 64 bits -/
def spentValue (v : CWallet) (tx : CTransaction) : ℤ := int64 (v.spentValues tx).sum

variable {v : CWallet} {tx : CTransaction} {n : ℤ}

theorem getDebit_eq_ok : v.getDebit tx = .ok n ↔
    (∀ part, part <+: v.spentValues tx → moneyRange (int64 part.sum) = true) ∧
      n = v.spentValue tx := by
  unfold getDebit spentValue spentValues
  rw [foldlM_sum_eq_ok (by decide)]
  simp only [zero_add]

theorem moneyRange_spentValue
    (h : ∀ part, part <+: v.spentValues tx → moneyRange (int64 part.sum) = true) :
    moneyRange (v.spentValue tx) = true :=
  h _ (List.prefix_refl _)

theorem getCreditOut_eq_ok {txout : CTxOut} : v.getCreditOut txout = .ok n ↔
    moneyRange txout.nValue = true ∧
      n = if v.isMine txout.scriptPubKey then txout.nValue else 0 := by
  unfold getCreditOut
  rw [Lib.seq_eq_ok, Lib.require_eq_ok]
  constructor
  · rintro ⟨hrange, h⟩
    cases h
    exact ⟨hrange, rfl⟩
  · rintro ⟨hrange, rfl⟩
    exact ⟨hrange, rfl⟩

theorem ownSum_cons (v : CWallet) (txout : CTxOut) (vout : List CTxOut) :
    v.ownSum (txout :: vout)
      = (if v.isMine txout.scriptPubKey then txout.nValue else 0) + v.ownSum vout := by
  unfold ownSum
  rw [List.filter_cons]
  split
  · rw [List.map_cons, List.sum_cons]
  · rw [zero_add]

theorem ownSum_nonneg {vout : List CTxOut}
    (h : ∀ txout ∈ vout, moneyRange txout.nValue = true) : 0 ≤ v.ownSum vout :=
  CTransaction.sum_nonneg_of_moneyRange fun txout hmem => h txout (List.mem_of_mem_filter hmem)

/-- One step of the loop of `GetCredit`, by what an output in range adds -/
theorem int64_add_own {start : ℤ} {txout : CTxOut} (hstart : moneyRange start = true)
    (hrange : moneyRange txout.nValue = true) :
    int64 (start + if v.isMine txout.scriptPubKey then txout.nValue else 0)
      = start + if v.isMine txout.scriptPubKey then txout.nValue else 0 := by
  obtain ⟨hpos, hle⟩ := moneyRange_iff.mp hstart
  obtain ⟨hvalue, hmax⟩ := moneyRange_iff.mp hrange
  apply int64_of_moneyRange
  · split <;> omega
  · simp only [MAX_MONEY, COIN] at hle hmax ⊢
    split <;> omega

/-- Outputs in range never make the credit less, so it is in range where the last sum is. -/
theorem foldlM_getCredit_eq_ok {vout : List CTxOut} {start : ℤ} (hstart : moneyRange start = true) :
    vout.foldlM (fun nCredit txout => do
        let nValue ← v.getCreditOut txout
        let nCredit := int64 (nCredit + nValue)
        Lib.require (moneyRange nCredit) (Err.exc "CWallet::GetCredit() : value out of range")
        return nCredit) start = .ok n ↔
      (∀ txout ∈ vout, moneyRange txout.nValue = true) ∧
        n ≤ MAX_MONEY ∧ n = start + v.ownSum vout := by
  induction vout generalizing start with
  | nil =>
      have hle := (moneyRange_iff.mp hstart).2
      constructor
      · intro h
        cases h
        exact ⟨by simp, hle, by simp [ownSum]⟩
      · rintro ⟨-, -, rfl⟩
        simp [ownSum, pure, Except.pure]
  | cons txout vout ih =>
      rw [List.foldlM_cons, Lib.bind_eq_ok, ownSum_cons, ← add_assoc, List.forall_mem_cons]
      constructor
      · rintro ⟨n₁, h₁, h⟩
        obtain ⟨nValue, hout, h₁⟩ := Lib.bind_eq_ok.mp h₁
        obtain ⟨hrange, rfl⟩ := getCreditOut_eq_ok.mp hout
        obtain ⟨hcredit, hret⟩ := Lib.seq_eq_ok.mp h₁
        cases hret
        obtain ⟨hrest, hn, heq⟩ := (ih (Lib.require_eq_ok.mp hcredit)).mp h
        rw [int64_add_own hstart hrange] at heq
        exact ⟨⟨hrange, hrest⟩, hn, heq⟩
      · rintro ⟨⟨hrange, hrest⟩, hn, heq⟩
        have hothers := ownSum_nonneg (v := v) hrest
        obtain ⟨hpos, -⟩ := moneyRange_iff.mp hstart
        obtain ⟨hvalue, -⟩ := moneyRange_iff.mp hrange
        have hcredit : moneyRange
            (start + if v.isMine txout.scriptPubKey then txout.nValue else 0) = true := by
          apply moneyRange_iff.mpr
          constructor
          · split <;> omega
          · omega
        refine ⟨_, Lib.bind_eq_ok.mpr ⟨_, getCreditOut_eq_ok.mpr ⟨hrange, rfl⟩,
          Lib.seq_eq_ok.mpr ⟨?_, rfl⟩⟩, ?_⟩
        · rw [int64_add_own hstart hrange]
          exact Lib.require_eq_ok.mpr hcredit
        · rw [int64_add_own hstart hrange]
          exact (ih hcredit).mpr ⟨hrest, hn, heq⟩

theorem getCredit_eq_ok : v.getCredit tx = .ok n ↔
    (∀ txout ∈ tx.vout, moneyRange txout.nValue = true) ∧
      v.ownValue tx ≤ MAX_MONEY ∧ n = v.ownValue tx := by
  unfold getCredit ownValue
  rw [foldlM_getCredit_eq_ok (by decide), zero_add]
  constructor
  · rintro ⟨hrange, hn, rfl⟩
    exact ⟨hrange, hn, rfl⟩
  · rintro ⟨hrange, hn, rfl⟩
    exact ⟨hrange, hn, rfl⟩

end CWallet

namespace AccountWallet

variable {ae : AddressEnv} {w : AccountWallet ae}

/-! ## Change -/

/-- A key's address has the version of keys. -/
theorem haveKey_setScriptHash160 (w : AccountWallet ae) (hash160 : Bytes) :
    w.keystore.haveKey (ae.setScriptHash160 hash160) = false := by
  rw [CKeyStore.haveKey, List.contains_eq_mem, decide_eq_false_iff_not]
  intro hmem
  obtain ⟨vchPubKey, heq⟩ := w.key_address _ hmem
  have hversion := congrArg CBitcoinAddress.nVersion heq
  unfold AddressEnv.setScriptHash160 AddressEnv.setPubKey AddressEnv.setHash160 at hversion
  cases hnet : ae.fTestNet <;> simp [hnet] at hversion <;> revert hversion <;> decide

/-- What is taken for change is the wallet's own. -/
theorem isMine_of_isChange {txout : CTxOut} (h : w.isChange txout = true) :
    w.own.isMine txout.scriptPubKey = true := by
  show w.keystore.isMine ae.scripts txout.scriptPubKey = true
  unfold isChange at h
  cases hextract : ae.extractAddress txout.scriptPubKey with
  | none =>
      rw [hextract] at h
      cases h
  | some address =>
      rw [hextract] at h
      have hkey := (Bool.and_eq_true_iff.mp h).1
      have hsolution : ae.scripts.solver txout.scriptPubKey
          = (solver txout.scriptPubKey).map ScriptSolution.ofSolver := rfl
      unfold CKeyStore.isMine CKeyStore.isMineWithin
      rw [hsolution]
      unfold AddressEnv.extractAddress at hextract
      cases hsolver : solver txout.scriptPubKey with
      | none =>
          rw [hsolver] at hextract
          cases hextract
      | some solution =>
          rw [hsolver] at hextract
          obtain ⟨typeRet, vSolutions⟩ := solution
          cases typeRet with
          | nonstandard => cases hextract
          | multisig => cases hextract
          | pubkey =>
              cases hextract
              exact hkey
          | pubkeyhash =>
              cases hextract
              have hstandard := solver_standard hsolver
              generalize txout.scriptPubKey = script at hstandard
              cases hstandard with
              | pubkeyhash _ hlen =>
                  rw [List.headD_cons, uint160, if_pos hlen] at hkey
                  exact hkey
          | scripthash =>
              cases hextract
              rw [haveKey_setScriptHash160] at hkey
              cases hkey

end AccountWallet

end ShinyCoin

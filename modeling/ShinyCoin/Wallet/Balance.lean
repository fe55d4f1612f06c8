import ShinyCoin.Wallet.Sync

/-!
# Balances that are kept

A wallet transaction keeps its debit, its credit and its available credit once they have been
asked for. What they are depends on the spent flags, on the transactions in the wallet and on the
keys and redeem scripts of the key store, so whatever changes one of these has to clear the numbers
that depend on it. The operations are those of the wallet's view of the chain with these numbers,
and those that change the key store.
-/

namespace ShinyCoin

/-! ## The key store -/

/-- What `Solver` finds in a script -/
inductive ScriptSolution where
  | nonstandard
  | pubkey (vchPubKey : Bytes)
  | pubkeyhash (hash160 : Bytes)
  | scripthash (hash160 : Bytes)
  | multisig (keys : List Bytes)

/-- The scripts and hashes a key store works with -/
structure ScriptEnv where
  solver : CScript → Option ScriptSolution
  hash160 : Bytes → Bytes
  /-- The version byte of an address of a key -/
  pubkeyVersion : UInt8

/-- `CBasicKeyStore`: the addresses of `mapKeys`, and `mapScripts` -/
structure CKeyStore where
  mapKeys : List CBitcoinAddress := []
  mapScripts : List (Bytes × CScript) := []

namespace CKeyStore

def haveKey (keystore : CKeyStore) (address : CBitcoinAddress) : Bool :=
  keystore.mapKeys.contains address

def getCScript (keystore : CKeyStore) (hash : Bytes) : Option CScript :=
  (keystore.mapScripts.find? (·.1 == hash)).map (·.2)

def addKey (keystore : CKeyStore) (address : CBitcoinAddress) : CKeyStore :=
  { keystore with mapKeys := address :: keystore.mapKeys }

def addCScript (scripts : ScriptEnv) (keystore : CKeyStore) (redeemScript : CScript) : CKeyStore :=
  let hash := scripts.hash160 redeemScript
  let others := keystore.mapScripts.filter (·.1 != hash)
  { keystore with mapScripts := (hash, redeemScript) :: others }

/-- `::IsMine` with a bound on how many redeem scripts lead to others. No script has its own hash in
it, so there is no need to come to one of `mapScripts` twice. -/
def isMineWithin (scripts : ScriptEnv) (keystore : CKeyStore) : Nat → CScript → Bool
  | n, scriptPubKey =>
      match scripts.solver scriptPubKey with
      | none | some .nonstandard => false
      | some (.pubkey vchPubKey) =>
          keystore.haveKey ⟨scripts.pubkeyVersion, scripts.hash160 vchPubKey⟩
      | some (.pubkeyhash hash160) => keystore.haveKey ⟨scripts.pubkeyVersion, hash160⟩
      | some (.scripthash hash160) =>
          match n, keystore.getCScript hash160 with
          | n + 1, some subscript => isMineWithin scripts keystore n subscript
          | _, _ => false
      | some (.multisig keys) =>
          keys.all fun key => keystore.haveKey ⟨scripts.pubkeyVersion, scripts.hash160 key⟩

/-- `::IsMine(keystore, scriptPubKey)` -/
def isMine (scripts : ScriptEnv) (keystore : CKeyStore) (scriptPubKey : CScript) : Bool :=
  keystore.isMineWithin scripts keystore.mapScripts.length scriptPubKey

end CKeyStore

/-! ## The numbers, from scratch -/

namespace CWallet

/-- `GetCredit(txout)` -/
def getCreditOut (w : CWallet) (txout : CTxOut) : Except Err ℤ := do
  Lib.require (moneyRange txout.nValue) (Err.exc "CWallet::GetCredit() : value out of range")
  return if w.isMine txout.scriptPubKey then txout.nValue else 0

/-- `GetCredit(tx)` -/
def getCredit (w : CWallet) (tx : CTransaction) : Except Err ℤ :=
  tx.vout.foldlM (fun nCredit txout => do
    let nValue ← w.getCreditOut txout
    let nCredit := int64 (nCredit + nValue)
    Lib.require (moneyRange nCredit) (Err.exc "CWallet::GetCredit() : value out of range")
    return nCredit) 0

/-- The loop of `CWalletTx::GetAvailableCredit` -/
def getAvailableCredit (w : CWallet) (wtx : CWalletTx) : Except Err ℤ :=
  wtx.tx.vout.zipIdx.foldlM (fun nCredit coin => do
    if wtx.vfSpent.getD coin.2 false then return nCredit
    let nValue ← w.getCreditOut coin.1
    let nCredit := int64 (nCredit + nValue)
    Lib.require (moneyRange nCredit)
      (Err.exc "CWalletTx::GetAvailableCredit() : value out of range")
    return nCredit) 0

end CWallet

/-- `CWalletTx(this, tx)`, with the branch if the transaction was found in a block -/
def CWalletTx.ofTx (env : Env) (tx : CTransaction) (pblock : Option CBlock) : CWalletTx :=
  match pblock with
  | none => { tx := tx }
  | some block => CWalletTx.setMerkleBranch env { tx := tx } block

/-! ## Wallet transactions with the numbers they keep -/

/-- A wallet transaction with the three numbers that are in memory only -/
structure KeptTx where
  wtx : CWalletTx
  fDebitCached : Bool := false
  fCreditCached : Bool := false
  fAvailableCreditCached : Bool := false
  nDebitCached : ℤ := 0
  nCreditCached : ℤ := 0
  nAvailableCreditCached : ℤ := 0

namespace KeptTx

def markDirty (kept : KeptTx) : KeptTx :=
  { kept with fCreditCached := false, fAvailableCreditCached := false, fDebitCached := false }

/-- `MarkSpent` (`b` true) and `MarkUnspent` (`b` false) of an output in range -/
def setSpent (kept : KeptTx) (nOut : Nat) (b : Bool) : KeptTx :=
  { kept with
    wtx := kept.wtx.setSpent nOut b
    fAvailableCreditCached :=
      kept.fAvailableCreditCached && kept.wtx.resizeSpent.getD nOut false == b }

/-- The entry that is there already, after the other one was merged into it -/
def merge (kept : KeptTx) (wtxIn : CWalletTx) : KeptTx :=
  let wtx := CWallet.mergeTx kept.wtx wtxIn
  { kept with
    wtx := wtx
    fAvailableCreditCached :=
      kept.fAvailableCreditCached && wtx.vfSpent == kept.wtx.vfSpent }

end KeptTx

/-- `GetBlocksToMaturity`, which the chain decides -/
abbrev Maturity := CWalletTx → ℤ

/-- The credit of a coinbase or coinstake that is not deep enough counts as nothing. -/
def Maturity.immature (maturity : Maturity) (wtx : CWalletTx) : Bool :=
  (wtx.tx.isCoinBase || wtx.tx.isCoinStake) && decide (0 < maturity wtx)

structure KeptWallet where
  keystore : CKeyStore
  mapWallet : Lib.PMap Uint256 KeptTx
  fFileBacked : Bool

namespace KeptWallet

variable (scripts : ScriptEnv)

/-- The wallet without the numbers -/
def view (w : KeptWallet) : CWallet where
  mapWallet hash := (w.mapWallet hash).map KeptTx.wtx
  isMine := w.keystore.isMine scripts

def setTx (w : KeptWallet) (hash : Uint256) (kept : KeptTx) : KeptWallet :=
  { w with mapWallet := w.mapWallet.set hash kept }

/-! ### Queries -/

/-- `CWalletTx::GetDebit()` -/
def getDebit (w : KeptWallet) (kept : KeptTx) : Except Err (ℤ × KeptTx) := do
  if kept.wtx.tx.vin.isEmpty then return (0, kept)
  if kept.fDebitCached then return (kept.nDebitCached, kept)
  let nDebit ← (w.view scripts).getDebit kept.wtx.tx
  return (nDebit, { kept with nDebitCached := nDebit, fDebitCached := true })

/-- `CWalletTx::GetCredit(fUseCache)` -/
def getCredit (maturity : Maturity) (w : KeptWallet) (fUseCache : Bool) (kept : KeptTx) :
    Except Err (ℤ × KeptTx) := do
  if maturity.immature kept.wtx then return (0, kept)
  if fUseCache && kept.fCreditCached then return (kept.nCreditCached, kept)
  let nCredit ← (w.view scripts).getCredit kept.wtx.tx
  return (nCredit, { kept with nCreditCached := nCredit, fCreditCached := true })

/-- `CWalletTx::GetAvailableCredit(fUseCache)` -/
def getAvailableCredit (maturity : Maturity) (w : KeptWallet) (fUseCache : Bool) (kept : KeptTx) :
    Except Err (ℤ × KeptTx) := do
  if maturity.immature kept.wtx then return (0, kept)
  if fUseCache && kept.fAvailableCreditCached then return (kept.nAvailableCreditCached, kept)
  let nCredit ← (w.view scripts).getAvailableCredit kept.wtx
  return (nCredit, { kept with nAvailableCreditCached := nCredit, fAvailableCreditCached := true })

/-- A query on an entry of the wallet, without its answer -/
def query (w : KeptWallet) (hash : Uint256) (get : KeptTx → Except Err (ℤ × KeptTx)) : KeptWallet :=
  match w.mapWallet hash with
  | none => w
  | some kept =>
      match get kept with
      | .error _ => w
      | .ok (_, kept') => w.setTx hash kept'

/-! ### Spent flags -/

/-- One round of the loop of `WalletUpdateSpent`, with the credit it prints -/
def updateSpentBy (maturity : Maturity) (w : KeptWallet) (txin : CTxIn) :
    Except (Err × KeptWallet) KeptWallet :=
  match w.mapWallet txin.prevout.hash with
  | none => .ok w
  | some kept =>
      match kept.wtx.isSpent txin.prevout.n with
      | .error e => .error (e, w)
      | .ok fSpent =>
          if !fSpent && ((w.view scripts).ownOutput txin.prevout).isSome then
            match w.getCredit scripts maturity true kept with
            | .error e => .error (e, w)
            | .ok (_, kept) => .ok (w.setTx txin.prevout.hash (kept.setSpent txin.prevout.n true))
          else .ok w

def walletUpdateSpent (maturity : Maturity) (w : KeptWallet) (tx : CTransaction) :
    Except (Err × KeptWallet) KeptWallet :=
  tx.vin.foldlM (updateSpentBy scripts maturity) w

/-- `MarkSpent` and `MarkUnspent` on an entry; out of range they throw. -/
def markSpent (w : KeptWallet) (hash : Uint256) (nOut : Nat) (b : Bool) : KeptWallet :=
  match w.mapWallet hash with
  | none => w
  | some kept => if nOut < kept.wtx.tx.vout.length then w.setTx hash (kept.setSpent nOut b) else w

/-- One round of the loop of `DisableTransaction` -/
def refundInput (w : KeptWallet) (txin : CTxIn) : KeptWallet :=
  if ((w.view scripts).ownOutput txin.prevout).isSome then
    w.markSpent txin.prevout.hash txin.prevout.n false
  else w

def disableTransaction (w : KeptWallet) (tx : CTransaction) : KeptWallet :=
  if tx.isCoinStake && ((w.view scripts).isFromMe tx).toOption.getD false then
    tx.vin.foldl (refundInput scripts) w
  else w

/-- What `FixSpentCoins` does about an output; `vSpent` has the places of the index that are not
null. -/
def fixCoin (v : CWallet) (vSpent : List Bool) (kept : KeptTx) (n : Nat) : KeptTx :=
  let fMine := (kept.wtx.tx.vout[n]?.map fun txout => v.isMine txout.scriptPubKey).getD false
  let fSpent := kept.wtx.vfSpent.getD n false
  if fMine && fSpent && !vSpent.getD n false then kept.setSpent n false
  else if fMine && !fSpent && vSpent.getD n false then kept.setSpent n true
  else kept

/-- `FixSpentCoins` on one transaction, by what `ReadTxIndex` finds for its hash -/
def fixTx (env : Env) (v : CWallet) (readTxIndex : Uint256 → Option (List Bool)) (kept : KeptTx) :
    KeptTx :=
  match readTxIndex (env.getHash kept.wtx.tx) with
  | none => kept
  | some vSpent => (List.range kept.wtx.tx.vout.length).foldl (fixCoin v vSpent) kept

def fixSpentCoins (env : Env) (w : KeptWallet) (readTxIndex : Uint256 → Option (List Bool))
    (fCheckOnly : Bool) : KeptWallet :=
  if fCheckOnly then w
  else
    let fixed hash := (w.mapWallet hash).map (fixTx env (w.view scripts) readTxIndex)
    { w with mapWallet := fixed }

/-! ### Transactions -/

/-- `AddToWallet`; `fWritten` is whether the entry could be written to the file. -/
def addToWallet (env : Env) (maturity : Maturity) (w : KeptWallet) (wtxIn : KeptTx)
    (fWritten : Bool) : Except (Err × KeptWallet) KeptWallet :=
  let hash := env.getHash wtxIn.wtx.tx
  match w.mapWallet hash with
  | none =>
      let w := w.setTx hash wtxIn.markDirty
      if fWritten then w.walletUpdateSpent scripts maturity wtxIn.wtx.tx else .ok w
  | some kept =>
      let merged := kept.markDirty.merge wtxIn.wtx
      let w := w.setTx hash merged
      if merged.wtx = kept.wtx ∨ fWritten then w.walletUpdateSpent scripts maturity kept.wtx.tx
      else .ok w

def addToWalletIfInvolvingMe (env : Env) (maturity : Maturity) (w : KeptWallet) (tx : CTransaction)
    (pblock : Option CBlock) (fUpdate fWritten : Bool) : Except (Err × KeptWallet) KeptWallet :=
  let wtx := CWalletTx.ofTx env tx pblock
  let fExisted := (w.mapWallet (env.getHash tx)).isSome
  if fExisted && !fUpdate then .ok w
  else if fExisted || (w.view scripts).isMineTx tx then
    w.addToWallet scripts env maturity { wtx := wtx } fWritten
  else
    match (w.view scripts).isFromMe tx with
    | .error e => .error (e, w)
    | .ok true => w.addToWallet scripts env maturity { wtx := wtx } fWritten
    | .ok false => w.walletUpdateSpent scripts maturity tx

def eraseFromWallet (w : KeptWallet) (hash : Uint256) : KeptWallet :=
  if w.fFileBacked then { w with mapWallet := w.mapWallet.erase hash } else w

/-! ### Keys and scripts -/

/-- `CWallet::MarkDirty` -/
def markDirty (w : KeptWallet) : KeptWallet :=
  { w with mapWallet := fun hash => (w.mapWallet hash).map KeptTx.markDirty }

/-- `AddKey` and `MarkDirty` -/
def addKey (w : KeptWallet) (address : CBitcoinAddress) : KeptWallet :=
  { w with keystore := w.keystore.addKey address }.markDirty

def addCScript (w : KeptWallet) (redeemScript : CScript) : KeptWallet :=
  { w with keystore := w.keystore.addCScript scripts redeemScript }

end KeptWallet

/-! ## Runs -/

/-- A call to the wallet, with what the chain and the file have to say at that time -/
inductive WalletOp where
  | addToWallet (maturity : Maturity) (wtxIn : KeptTx) (fWritten : Bool)
  | addToWalletIfInvolvingMe (maturity : Maturity) (tx : CTransaction) (pblock : Option CBlock)
      (fUpdate fWritten : Bool)
  | walletUpdateSpent (maturity : Maturity) (tx : CTransaction)
  | markSpent (hash : Uint256) (nOut : Nat)
  | markUnspent (hash : Uint256) (nOut : Nat)
  | disableTransaction (tx : CTransaction)
  | fixSpentCoins (readTxIndex : Uint256 → Option (List Bool)) (fCheckOnly : Bool)
  | addKey (address : CBitcoinAddress)
  | markDirty
  | addCScript (redeemScript : CScript)
  | eraseFromWallet (hash : Uint256)
  | getDebit (hash : Uint256)
  | getCredit (maturity : Maturity) (hash : Uint256) (fUseCache : Bool)
  | getAvailableCredit (maturity : Maturity) (hash : Uint256) (fUseCache : Bool)

namespace KeptWallet

/-- The wallet after a call, whether it returned or threw -/
def step (env : Env) (scripts : ScriptEnv) (w : KeptWallet) : WalletOp → KeptWallet
  | .addToWallet maturity wtxIn fWritten =>
      Lib.final (w.addToWallet scripts env maturity wtxIn fWritten)
  | .addToWalletIfInvolvingMe maturity tx pblock fUpdate fWritten =>
      Lib.final (w.addToWalletIfInvolvingMe scripts env maturity tx pblock fUpdate fWritten)
  | .walletUpdateSpent maturity tx => Lib.final (w.walletUpdateSpent scripts maturity tx)
  | .markSpent hash nOut => w.markSpent hash nOut true
  | .markUnspent hash nOut => w.markSpent hash nOut false
  | .disableTransaction tx => w.disableTransaction scripts tx
  | .fixSpentCoins readTxIndex fCheckOnly => w.fixSpentCoins scripts env readTxIndex fCheckOnly
  | .addKey address => w.addKey address
  | .markDirty => w.markDirty
  | .addCScript redeemScript => w.addCScript scripts redeemScript
  | .eraseFromWallet hash => w.eraseFromWallet hash
  | .getDebit hash => w.query hash (w.getDebit scripts)
  | .getCredit maturity hash fUseCache => w.query hash (w.getCredit scripts maturity fUseCache)
  | .getAvailableCredit maturity hash fUseCache =>
      w.query hash (w.getAvailableCredit scripts maturity fUseCache)

/-- A wallet as it was loaded -/
def Loaded (w : KeptWallet) : Prop :=
  ∀ hash kept, w.mapWallet hash = some kept → kept = kept.markDirty

/-- The queries on a transaction whose credit counts give what they would without the numbers that
are kept. -/
def BalancesMatch (scripts : ScriptEnv) (w : KeptWallet) : Prop :=
  ∀ (maturity : Maturity) hash kept, w.mapWallet hash = some kept →
    maturity.immature kept.wtx = false →
      (w.getDebit scripts kept).map (·.1) = (w.view scripts).getDebit kept.wtx.tx ∧
      (w.getCredit scripts maturity true kept).map (·.1) = (w.view scripts).getCredit kept.wtx.tx ∧
      (w.getAvailableCredit scripts maturity true kept).map (·.1)
        = (w.view scripts).getAvailableCredit kept.wtx

end KeptWallet

end ShinyCoin

import ShinyCoin.Core.Env
import ShinyCoin.Lib.PMap

/-!
# The wallet's view of the chain

What `ConnectBlock` and `DisconnectBlock` tell the registered wallets: `SyncWithWallets` adds a
connected transaction that involves the wallet and marks the outputs it spends, and marks the
inputs of a disconnected coinstake of ours as unspent again. None of it belongs to a database
transaction of the chain.

The keys of a wallet enter only through `isMine`. Balances that are cached for display, the order
form of a payment and the replacement of the default key are left out.
-/

namespace ShinyCoin

/-- `CWalletTx`, a `CMerkleTx` with the flags of its spent outputs. -/
structure CWalletTx where
  tx : CTransaction
  hashBlock : Uint256 := 0
  vMerkleBranch : List Uint256 := []
  nIndex : ℤ := -1
  fFromMe : Bool := false
  vfSpent : List Bool := []
  deriving DecidableEq, Repr

namespace CWalletTx

/-- `vfSpent.resize(vout.size())` -/
def resizeSpent (wtx : CWalletTx) : List Bool :=
  wtx.vfSpent.take wtx.tx.vout.length
    ++ List.replicate (wtx.tx.vout.length - wtx.vfSpent.length) false

/-- `MarkSpent` (`b` true) and `MarkUnspent` (`b` false). Both throw when the output is out of
range, which their callers have excluded. -/
def setSpent (wtx : CWalletTx) (nOut : Nat) (b : Bool) : CWalletTx :=
  { wtx with vfSpent := wtx.resizeSpent.set nOut b }

def isSpent (wtx : CWalletTx) (nOut : Nat) : Except Err Bool := do
  Lib.require (nOut < wtx.tx.vout.length) (Err.exc "CWalletTx::IsSpent() : nOut out of range")
  return wtx.vfSpent.getD nOut false

/-- `UpdateSpent`: flags set in `vfNewSpent` are set here too, as far as both reach. -/
def updateSpent (wtx : CWalletTx) (vfNewSpent : List Bool) : CWalletTx :=
  { wtx with vfSpent := wtx.vfSpent.mapIdx fun i f => f || vfNewSpent.getD i false }

/-- `SetMerkleBranch(pblock)`, without the depth it returns. -/
def setMerkleBranch (env : Env) (wtx : CWalletTx) (block : CBlock) : CWalletTx :=
  match block.vtx.findIdx? (· = wtx.tx) with
  | none =>
      { wtx with hashBlock := env.getIDHash block.toCBlockHeader, vMerkleBranch := [], nIndex := -1 }
  | some i =>
      { wtx with
        hashBlock := env.getIDHash block.toCBlockHeader
        vMerkleBranch := env.getMerkleBranch block.vtx i
        nIndex := i }

end CWalletTx

structure CWallet where
  mapWallet : Lib.PMap Uint256 CWalletTx
  /-- `::IsMine(keystore, scriptPubKey)` -/
  isMine : CScript → Bool

namespace CWallet

/-- `IsMine(tx)` -/
def isMineTx (w : CWallet) (tx : CTransaction) : Bool :=
  tx.vout.any fun txout => w.isMine txout.scriptPubKey

/-- The wallet's own output an outpoint refers to. -/
def ownOutput (w : CWallet) (o : COutPoint) : Option CTxOut :=
  (w.mapWallet o.hash).bind fun prev =>
    prev.tx.vout[o.n]?.filter fun txout => w.isMine txout.scriptPubKey

/-- `GetDebit(txin)` -/
def getDebitIn (w : CWallet) (txin : CTxIn) : ℤ :=
  ((w.ownOutput txin.prevout).map CTxOut.nValue).getD 0

/-- `GetDebit(tx)` -/
def getDebit (w : CWallet) (tx : CTransaction) : Except Err ℤ :=
  tx.vin.foldlM (fun nDebit txin => do
    let nDebit := int64 (nDebit + w.getDebitIn txin)
    Lib.require (moneyRange nDebit) (Err.exc "CWallet::GetDebit() : value out of range")
    return nDebit) 0

def isFromMe (w : CWallet) (tx : CTransaction) : Except Err Bool := do
  let nDebit ← w.getDebit tx
  return decide (0 < nDebit)

/-- The wallet with `wtx` under `hash`. -/
def setTx (w : CWallet) (hash : Uint256) (wtx : CWalletTx) : CWallet :=
  { w with mapWallet := w.mapWallet.set hash wtx }

/-- One round of the loop of `WalletUpdateSpent`. -/
def updateSpentBy (w : CWallet) (txin : CTxIn) : Except (Err × CWallet) CWallet :=
  match w.mapWallet txin.prevout.hash with
  | none => .ok w
  | some wtx =>
      match wtx.isSpent txin.prevout.n with
      | .error e => .error (e, w)
      | .ok fSpent =>
          if !fSpent && (w.ownOutput txin.prevout).isSome then
            .ok (w.setTx txin.prevout.hash (wtx.setSpent txin.prevout.n true))
          else .ok w

def walletUpdateSpent (w : CWallet) (tx : CTransaction) : Except (Err × CWallet) CWallet :=
  tx.vin.foldlM updateSpentBy w

/-- What `AddToWallet` makes of an entry that is there already. -/
def mergeTx (wtx wtxIn : CWalletTx) : CWalletTx :=
  let wtx := if wtxIn.hashBlock != 0 then { wtx with hashBlock := wtxIn.hashBlock } else wtx
  let wtx := if wtxIn.nIndex != -1 then
      { wtx with vMerkleBranch := wtxIn.vMerkleBranch, nIndex := wtxIn.nIndex }
    else wtx
  let wtx := if wtxIn.fFromMe then { wtx with fFromMe := wtxIn.fFromMe } else wtx
  wtx.updateSpent wtxIn.vfSpent

def addToWallet (env : Env) (w : CWallet) (wtxIn : CWalletTx) : Except (Err × CWallet) CWallet :=
  let hash := env.getHash wtxIn.tx
  let wtx := match w.mapWallet hash with
    | none => wtxIn
    | some wtx => mergeTx wtx wtxIn
  (w.setTx hash wtx).walletUpdateSpent wtx.tx

/-- `AddToWalletIfInvolvingMe(tx, pblock, true)`: an existing entry is updated. -/
def addToWalletIfInvolvingMe (env : Env) (w : CWallet) (tx : CTransaction) (block : CBlock) :
    Except (Err × CWallet) CWallet :=
  if (w.mapWallet (env.getHash tx)).isSome || w.isMineTx tx then
    w.addToWallet env (CWalletTx.setMerkleBranch env { tx := tx } block)
  else
    match w.isFromMe tx with
    | .error e => .error (e, w)
    | .ok true => w.addToWallet env (CWalletTx.setMerkleBranch env { tx := tx } block)
    | .ok false => w.walletUpdateSpent tx

/-- One round of the loop of `DisableTransaction`. -/
def refundInput (w : CWallet) (txin : CTxIn) : CWallet :=
  match w.mapWallet txin.prevout.hash, w.ownOutput txin.prevout with
  | some prev, some _ => w.setTx txin.prevout.hash (prev.setSpent txin.prevout.n false)
  | _, _ => w

def disableTransaction (w : CWallet) (tx : CTransaction) : Except (Err × CWallet) CWallet :=
  if !tx.isCoinStake then .ok w
  else
    match w.isFromMe tx with
    | .error e => .error (e, w)
    | .ok false => .ok w
    | .ok true => .ok (tx.vin.foldl refundInput w)

end CWallet

/-! ## Dispatch to the registered wallets -/

/-- A call to every wallet in turn; it stops at the first exception. -/
def dispatchWallets (f : CWallet → Except (Err × CWallet) CWallet) :
    List CWallet → Except (Err × List CWallet) (List CWallet)
  | [] => .ok []
  | w :: ws =>
      match f w with
      | .error (e, w') => .error (e, w' :: ws)
      | .ok w' =>
          match dispatchWallets f ws with
          | .error (e, ws') => .error (e, w' :: ws')
          | .ok ws' => .ok (w' :: ws')

/-- `SyncWithWallets(tx, pblock, true)` for a block that was connected. -/
def syncConnected (env : Env) (block : CBlock) (ws : List CWallet) (tx : CTransaction) :
    Except (Err × List CWallet) (List CWallet) :=
  dispatchWallets (fun w => w.addToWalletIfInvolvingMe env tx block) ws

/-- What `SyncWithWallets(tx, pblock, false, false)` does with one wallet: it asks `IsFromMe`
before `DisableTransaction` asks it again. -/
def CWallet.syncDisconnectedTx (w : CWallet) (tx : CTransaction) :
    Except (Err × CWallet) CWallet :=
  match w.isFromMe tx with
  | .error e => .error (e, w)
  | .ok false => .ok w
  | .ok true => w.disableTransaction tx

def syncDisconnected (ws : List CWallet) (tx : CTransaction) :
    Except (Err × List CWallet) (List CWallet) :=
  if tx.isCoinStake then dispatchWallets (fun w => w.syncDisconnectedTx tx) ws else .ok ws

end ShinyCoin

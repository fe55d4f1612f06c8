import ShinyCoin.Wallet.Commit

/-!
# Coins that the pool spends

The wallet marks a coin when it commits a transaction that spends it. Afterwards blocks are connected
and disconnected, transactions go back to the pool and leave it, and `FixSpentCoins` sets the marks to
what the index on disk says. The pool has no part in the last of these, and none in the refund of a
coinstake.

What is followed here is one wallet of a node, over calls that may return, fail or throw.
-/

namespace ShinyCoin

/-! ## The repair -/

/-- `FixSpentCoins`, without the numbers that are kept -/
def CWallet.fixSpentCoins (env : Env) (w : CWallet) (readTxIndex : Uint256 → Option (List Bool))
    (fCheckOnly : Bool) : CWallet :=
  if fCheckOnly then w
  else
    let fixed hash := (w.mapWallet hash).map fun wtx =>
      (KeptWallet.fixTx env w readTxIndex { wtx := wtx }).wtx
    { w with mapWallet := fixed }

/-- `ReadTxIndex`, by which places of `vSpent` are not null -/
def NodeState.readTxIndex (s : NodeState) (hash : Uint256) : Option (List Bool) :=
  (s.txdb.data.txIndex hash).map fun txindex => txindex.vSpent.map fun pos => !pos.isNull

/-! ## What a throw leaves -/

namespace CWallet

/-- The first half of `AddToWallet`: the entry is there, or the one that was there is merged. -/
def putEntry (env : Env) (w : CWallet) (wtxIn : CWalletTx) : CWallet :=
  match w.mapWallet (env.getHash wtxIn.tx) with
  | none => w.setTx (env.getHash wtxIn.tx) wtxIn
  | some wtx => w.setTx (env.getHash wtxIn.tx) (mergeTx wtx wtxIn)

/-- "Mark old coins as spent", up to the mark that throws; `mapWallet[hash]` makes an entry. -/
def markSpentUntil (w : CWallet) : List CTxIn → CWallet
  | [] => w
  | txin :: txins =>
      match w.markSpent txin with
      | .ok w => w.markSpentUntil txins
      | .error _ =>
          match w.mapWallet txin.prevout.hash with
          | none => w.setTx txin.prevout.hash { tx := { vin := [], vout := [] } }
          | some _ => w

end CWallet

/-! ## Marks -/

namespace CWallet

/-- The outputs `pending` are marked as spent, as far as they are the wallet's own. -/
def Marks (pending : COutPoint → Prop) (w : CWallet) : Prop :=
  ∀ o, pending o → (w.ownOutput o).isSome = true → w.Spent o

/-- None of the wallet's own outputs of a transaction that is new to it is among `pending`, unless it
comes marked. -/
def NewMarks (env : Env) (pending : COutPoint → Prop) (w : CWallet) (wtx : CWalletTx) : Prop :=
  w.mapWallet (env.getHash wtx.tx) = none → ∀ n txout, wtx.tx.vout[n]? = some txout →
    w.isMine txout.scriptPubKey = true → pending ⟨env.getHash wtx.tx, n⟩ → wtx.isSpent n = .ok true

end CWallet

/-- An output that a transaction of the pool spends -/
def CTxMemPool.Spends (pool : CTxMemPool) (o : COutPoint) : Prop :=
  ∃ hash tx, pool.lookup hash = some tx ∧ o ∈ tx.vin.map CTxIn.prevout

/-! ## Runs -/

inductive PendingOp (φ : Type) where
  /-- `CommitTransaction` -/
  | commitTransaction (files : Files) (r : Nat) (wtxNew : CWalletTx)
  /-- `ConnectBlock` -/
  | connectBlock (files : Files) (block : CBlock) (pindex : CBlockIndex) (pprev : BlockPtr)
  /-- `DisconnectBlock` -/
  | disconnectBlock (files : Files) (block : CBlock) (pprev : BlockPtr)
  /-- `AcceptToMemoryPool` of a transaction of a block that was disconnected -/
  | resurrect (tx : CTransaction)
  /-- A transaction of a block that was connected leaves the pool. -/
  | remove (tx : CTransaction)
  | fixSpentCoins (fCheckOnly : Bool)
  /-- What has no part in it: databases, pointers, other wallets, keys and the rate limiter -/
  | elsewhere (node : NodeState) (keys : KeyPool) (free : φ)

namespace CommitState

variable {φ : Type}

/-- The state after a call on the node with all wallets -/
def setRegistered (s : CommitState φ) (node : NodeState) : CommitState φ :=
  { s with
    node := { node with wallets := node.wallets.tail }
    wallet := node.wallets.headD s.wallet }

def setPool (s : CommitState φ) (pool : CTxMemPool) : CommitState φ :=
  { s with node := { s.node with mempool := pool } }

/-- What a `CommitTransaction` that throws leaves of the wallet: nothing has changed before the pool
has checked the transaction, the key pool throws after the entry is there, and the marks are set one
by one. -/
def thrownWallet (cenv : CommitEnv φ) (files : Files) (r : Nat) (wtxNew : CWalletTx)
    (s : CommitState φ) : CWallet :=
  match s.registered.checkAccept cenv.toRelayEnv files s.free wtxNew.tx true with
  | (_, .error _) => s.wallet
  | (_, .ok ()) =>
      match replaceDefaultKeys cenv (s.keys.keepKey r) (s.wallet.seenTx cenv.toEnv wtxNew.tx) with
      | .error _ => s.wallet.putEntry cenv.toEnv wtxNew
      | .ok _ =>
          match s.wallet.addToWallet cenv.toEnv wtxNew with
          | .error (_, wallet) => wallet
          | .ok wallet => wallet.markSpentUntil wtxNew.tx.vin

/-- The state after a call. What a throw leaves of the key pool and of the rate limiter is up to
`elsewhere`. -/
def exec (cenv : CommitEnv φ) (s : CommitState φ) : PendingOp φ → CommitState φ
  | .commitTransaction files r wtxNew =>
      match s.commitTransaction cenv files r wtxNew with
      | .ok (_, s) => s
      | .error _ => { s with wallet := s.thrownWallet cenv files r wtxNew }
  | .connectBlock files block pindex pprev =>
      s.setRegistered (Lib.final (block.connectBlock cenv.toEnv files pindex pprev s.registered))
  | .disconnectBlock files block pprev =>
      s.setRegistered (Lib.final (block.disconnectBlock cenv.toEnv files pprev s.registered))
  | .resurrect tx => s.setPool (s.node.mempool.accept cenv.toEnv tx)
  | .remove tx => s.setPool (s.node.mempool.remove cenv.toEnv tx)
  | .fixSpentCoins fCheckOnly =>
      { s with wallet := s.wallet.fixSpentCoins cenv.toEnv s.node.readTxIndex fCheckOnly }
  | .elsewhere node keys free =>
      { s with node := { node with mempool := s.node.mempool }, keys := keys, free := free }

/-- Every output of a wallet transaction that is the wallet's own and that the pool spends is marked
as spent. -/
def PendingMarked (s : CommitState φ) : Prop := s.wallet.Marks s.node.mempool.Spends

/-! ## Careful calls -/

/-- A call that takes no mark from a coin the pool spends, and lets the pool spend none without
one -/
def Careful (cenv : CommitEnv φ) (s : CommitState φ) : PendingOp φ → Prop
  -- the pool spends nothing of what is new to the wallet
  | .commitTransaction _ _ wtxNew => s.wallet.NewMarks cenv.toEnv s.node.mempool.Spends wtxNew
  | .connectBlock _ block _ _ => ∀ tx ∈ block.vtx,
      s.wallet.NewMarks cenv.toEnv s.node.mempool.Spends { tx := tx }
  -- the pool spends no coin that a coinstake of the wallet's own had staked
  | .disconnectBlock _ block _ => ∀ o ∈ s.wallet.refundedBy block.vtx, ¬ s.node.mempool.Spends o
  -- the wallet knew that the transaction spends its coins
  | .resurrect tx => (s.node.mempool.checkAccept cenv.toEnv tx).isOk = true →
      ∀ o ∈ s.wallet.ownSpends tx, s.wallet.Spent o
  | .remove _ => True
  -- the pool spends a coin that is in the index only where the index has it as spent
  | .fixSpentCoins fCheckOnly => fCheckOnly = false → ∀ o, s.node.mempool.Spends o →
      (s.wallet.ownOutput o).isSome = true → ∀ wtx, s.wallet.mapWallet o.hash = some wtx →
        ∀ vSpent, s.node.readTxIndex (cenv.getHash wtx.tx) = some vSpent →
          vSpent.getD o.n false = true
  | .elsewhere _ _ _ => True

/-- The states that careful calls lead to -/
inductive CarefulRun (cenv : CommitEnv φ) (s : CommitState φ) : CommitState φ → Prop
  | start : CarefulRun cenv s s
  | step {s' : CommitState φ} {op : PendingOp φ} : CarefulRun cenv s s' → s'.Careful cenv op →
      CarefulRun cenv s (s'.exec cenv op)

end CommitState

end ShinyCoin

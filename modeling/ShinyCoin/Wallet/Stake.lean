import ShinyCoin.Miner.Template
import ShinyCoin.Script.Solver
import ShinyCoin.Stake.Kernel
import ShinyCoin.Wallet.Balance
import ShinyCoin.Wallet.Create

/-!
# Creating a coinstake

`CreateCoinStake` selects coins for all of the balance but the reserve, and goes through them until one
of them has a kernel, in one of the last seconds. The stake of an old coin is not split, and coins of
the same key are added to it. Then it goes round until the fee it started the round with is enough.

The credits that the wallet keeps are taken to be up to date.
-/

namespace ShinyCoin

def nStakeSplitAge : Nat := 60 * 60 * 24 * 90

def nMaxStakeSearchInterval : Nat := 60

/-- What `CreateCoinStake` is called with -/
structure StakeRequest where
  nBits : Nat
  nSearchInterval : ℤ
  txNew : CTransaction
  /-- `-reservebalance`, if it is given, as `ParseMoney` reads it -/
  reserveBalance : Option (Option ℤ)

/-- How what is left to chance turns out, what the keys yield, and when the program is told to stop -/
structure StakeChoices where
  select : Nat → SelectChoices
  /-- `fShutdown` at a coin, after a number of seconds -/
  fShutdown : Coin → Nat → Bool
  /-- `keystore.GetKey(keyID, key)` and `key.GetPubKey()` -/
  getPubKey : Bytes → Option Bytes
  /-- `SignSignature(*this, txFrom, txTo, nIn)` in a round, with the `scriptSig` it makes -/
  signSignature : Nat → CTransaction → CTransaction → Nat → Option CScript

/-! ## The balance -/

namespace SpendingWallet

variable {env : Env}

/-- The transactions and the keys -/
def view (w : SpendingWallet env) : CWallet where
  mapWallet hash := w.mapWallet[hash]?
  isMine := w.isMine

/-- `GetAvailableCredit()` -/
def getAvailableCredit (w : SpendingWallet env) (wtx : CWalletTx) : Except Err ℤ :=
  if (wtx.tx.isCoinBase || wtx.tx.isCoinStake) && decide (0 < w.getBlocksToMaturity wtx) then .ok 0
  else w.view.getAvailableCredit wtx

def getBalance (w : SpendingWallet env) : Except Err ℤ :=
  w.mapWallet.toList.foldlM (fun nTotal x =>
    if !(w.isFinal x.2 && w.isConfirmed x.2) then .ok nTotal
    else do
      let nCredit ← w.getAvailableCredit x.2
      return int64 (nTotal + nCredit)) 0

end SpendingWallet

/-- `nReserveBalance`; `none` for an amount that is not one -/
def StakeRequest.nReserveBalance (request : StakeRequest) : Option ℤ :=
  match request.reserveBalance with
  | none => some 0
  | some nReserveBalance => nReserveBalance

/-! ## The kernel -/

/-- The transaction so far, `nCredit`, `scriptPubKeyKernel` and `vwtxPrev` -/
structure StakeDraft where
  tx : CTransaction
  nCredit : ℤ
  scriptPubKeyKernel : CScript
  vwtxPrev : List CTransaction

def Coin.scriptPubKey (c : Coin) : CScript := (c.wtx.tx.vout[c.n]?.map CTxOut.scriptPubKey).getD []

/-- "Search backward in time", from `n` seconds on, `left` of them at most -/
def searchBack (found fShutdown : Nat → Bool) (n : Nat) : Nat → Option Nat
  | 0 => none
  | left + 1 =>
      if fShutdown n then none
      else if found n then some n
      else searchBack found fShutdown (n + 1) left

/-- `scriptPubKeyOut`, for a kernel that pays to a public key or to an address -/
def kernelScriptOut (getPubKey : Bytes → Option Bytes) (scriptPubKeyKernel : CScript) :
    Option CScript :=
  match solver scriptPubKeyKernel with
  | some (.pubkeyhash, vSolutions) =>
      (getPubKey (vSolutions.headD [])).map fun vchPubKey => pushData vchPubKey ++ [OP_CHECKSIG]
  | some (.pubkey, _) => some scriptPubKeyKernel
  | _ => none

/-- What the transaction starts with -/
def StakeRequest.startTx (request : StakeRequest) : CTransaction :=
  { request.txNew with vin := [], vout := [{ nValue := 0 }] }

/-- "added kernel": the coin, and the stake in one or in two outputs -/
def addKernel (env : Env) (request : StakeRequest) (block : CBlockHeader) (c : Coin) (n : Nat)
    (scriptPubKeyOut : CScript) : StakeDraft :=
  let nTime := uint32 (request.txNew.nTime - n)
  let split := if nTime < block.nTime + nStakeSplitAge then
    [{ nValue := 0, scriptPubKey := scriptPubKeyOut }] else []
  { tx := { request.startTx with
      nTime := nTime
      vin := [{ prevout := c.prevout env }]
      vout := { nValue := 0 } :: { nValue := 0, scriptPubKey := scriptPubKeyOut } :: split }
    nCredit := c.nValue
    scriptPubKeyKernel := c.scriptPubKey
    vwtxPrev := [c.wtx.tx] }

/-- The kernel of a coin in one of the last seconds -/
def stakeKernel (env : Env) (s : NodeState) (request : StakeRequest) (c : Coin) (txindex : CTxIndex)
    (block : CBlockHeader) (n : Nat) : Bool :=
  (s.checkStakeKernelHash env request.nBits block txindex.offset c.wtx.tx (c.prevout env)
    (uint32 (request.txNew.nTime - n)) 0).1

/-- One round of the search -/
def tryKernel (env : Env) (files : Files) (s : NodeState) (request : StakeRequest)
    (ch : StakeChoices) (c : Coin) : Option StakeDraft :=
  (s.txdb.data.txIndex (env.getHash c.wtx.tx)).bind fun txindex =>
    (files.readHeaderAt txindex.pos.nFile txindex.pos.nBlockPos).bind fun block =>
      -- "only count coins meeting min age requirement"
      if uint32 ((request.txNew.nTime : ℤ) - nMaxStakeSearchInterval) < block.nTime + env.nStakeMinAge then
        none
      else
        (searchBack (stakeKernel env s request c txindex block) (ch.fShutdown c) 0
          (min request.nSearchInterval nMaxStakeSearchInterval).toNat).bind fun n =>
          (kernelScriptOut ch.getPubKey c.scriptPubKey).map fun scriptPubKeyOut =>
            addKernel env request block c n scriptPubKeyOut

/-- "if kernel is found stop searching" -/
def findKernel (env : Env) (files : Files) (s : NodeState) (request : StakeRequest)
    (ch : StakeChoices) : List Coin → Option StakeDraft
  | [] => none
  | c :: setCoins =>
      match tryKernel env files s request ch c with
      | some draft => some draft
      | none =>
          if ch.fShutdown c nMaxStakeSearchInterval then none
          else findKernel env files s request ch setCoins

/-! ## More inputs -/

/-- "Only add coins of the same key/address as kernel" -/
def StakeDraft.sameKey (env : Env) (draft : StakeDraft) (c : Coin) : Bool :=
  draft.tx.vout.length == 2
    && (c.scriptPubKey == draft.scriptPubKeyKernel
      || some c.scriptPubKey == draft.tx.vout[1]?.map CTxOut.scriptPubKey)
    && (draft.tx.vin.head?.map fun txin => txin.prevout.hash) != some (env.getHash c.wtx.tx)

def StakeDraft.addCoin (env : Env) (draft : StakeDraft) (c : Coin) : StakeDraft :=
  { draft with
    tx := { draft.tx with vin := draft.tx.vin ++ [{ prevout := c.prevout env }] }
    nCredit := draft.nCredit + c.nValue
    vwtxPrev := draft.vwtxPrev ++ [c.wtx.tx] }

/-- "Attempt to add more inputs", as long as they leave the reserve -/
def addInputs (env : Env) (nCombineThreshold nAvailable : ℤ) (draft : StakeDraft) :
    List Coin → StakeDraft
  | [] => draft
  | c :: setCoins =>
      if !draft.sameKey env c then addInputs env nCombineThreshold nAvailable draft setCoins
      else if 100 ≤ draft.tx.vin.length then draft
      else if nCombineThreshold < draft.nCredit then draft
      else if nAvailable < draft.nCredit + c.nValue then draft
      else if nCombineThreshold < c.nValue then
        addInputs env nCombineThreshold nAvailable draft setCoins
      -- the sum is one of two `unsigned int`
      else if draft.tx.nTime < uint32 (c.wtx.tx.nTime + STAKE_MAX_AGE) then
        addInputs env nCombineThreshold nAvailable draft setCoins
      else addInputs env nCombineThreshold nAvailable (draft.addCoin env c) setCoins

/-! ## The outputs and the fee -/

def CTransaction.setValue (tx : CTransaction) (i : Nat) (nValue : ℤ) : CTransaction :=
  { tx with vout := tx.vout.modify i fun txout => { txout with nValue := nValue } }

/-- "Set output amount" -/
def CTransaction.setStake (tx : CTransaction) (nAmount : ℤ) : CTransaction :=
  if tx.vout.length = 3 then
    (tx.setValue 1 (nAmount.tdiv 2)).setValue 2 (nAmount - nAmount.tdiv 2)
  else tx.setValue 1 nAmount

/-- The fee loop, `fuel` rounds of it at most: what it is left with, if it is left. A signature that
cannot be made and a coinstake that is too large end it without a transaction. -/
def feeLoop (signSignature : Nat → CTransaction → CTransaction → Nat → Option CScript)
    (vwtxPrev : List CTransaction) (nCredit : ℤ) :
    Nat → Nat → CTransaction → ℤ → Option (Option (CTransaction × ℤ))
  | 0, _, _, _ => none
  | fuel + 1, round, tx, nMinFee =>
      match signInputs (signSignature round) vwtxPrev 0 (tx.setStake (nCredit - nMinFee)) with
      | none => some none
      | some tx =>
          if MAX_BLOCK_SIZE_GEN / 5 ≤ tx.getSerializeSize then some none
          else if nMinFee < tx.getMinFee 1 .GMF_BLOCK - MIN_TX_FEE then
            feeLoop signSignature vwtxPrev nCredit fuel (round + 1) tx
              (tx.getMinFee 1 .GMF_BLOCK - MIN_TX_FEE)
          else some (some (tx, nMinFee))

/-! ## CreateCoinStake -/

namespace SpendingWallet

variable {env : Env}

/-- `nBalance - nReserveBalance`, where the balance is more than the reserve -/
def stakeable (w : SpendingWallet env) (request : StakeRequest) : Option ℤ :=
  match w.getBalance, request.nReserveBalance with
  | .ok nBalance, some nReserveBalance =>
      if nBalance ≤ nReserveBalance then none else some (nBalance - nReserveBalance)
  | _, _ => none

/-- The coins that are staked, before there is a fee -/
def draftStake (w : SpendingWallet env) (files : Files) (s : NodeState) (request : StakeRequest)
    (ch : StakeChoices) (nAvailable : ℤ) : Option StakeDraft :=
  let nCombineThreshold :=
    (getNextProofOfWorkReward s.pindexBest (s.statsOf s.pindexBest).nPoSDebt true).tdiv 3
  (w.selectCoins ch.select nAvailable request.txNew.nTime).bind fun (setCoins, _) =>
    (findKernel env files s request ch setCoins).bind fun draft =>
      if draft.nCredit = 0 ∨ nAvailable < draft.nCredit then none
      else some (addInputs env nCombineThreshold nAvailable draft setCoins)

/-- `CreateCoinStake`, with the fee loop left after `fuel` rounds: `some (some txNew)` where it returns
`true`, `some none` where it returns `false` or throws, and `none` where the loop goes on. -/
def createCoinStake (w : SpendingWallet env) (files : Files) (s : NodeState) (request : StakeRequest)
    (ch : StakeChoices) (fuel : Nat) : Option (Option CTransaction) :=
  match (w.stakeable request).bind (w.draftStake files s request ch) with
  | none => some none
  | some draft =>
      match draft.tx.getCoinAge env files s.txdb.data.txIndex with
      | none => some none
      | some nCoinAgeSeconds =>
          let nReward := getProofOfStakeReward (int64 nCoinAgeSeconds)
          if nReward = 0 then some none
          else
            (feeLoop ch.signSignature draft.vwtxPrev (draft.nCredit + nReward) fuel 0 draft.tx 0).map
              fun result => result.bind fun (tx, nMinFee) =>
                if nReward ≤ nMinFee then none else some tx

end SpendingWallet

end ShinyCoin

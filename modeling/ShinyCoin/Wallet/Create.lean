import ShinyCoin.Wallet.Coins
import ShinyCoin.Chain.Transaction

/-!
# Creating a transaction

`CreateTransaction` goes round until the fee it started the round with is enough. A round takes an
output of each address that infos are for, sends back what is left of it after the fee, and signs
these inputs. Then it adds the outputs to the payees and the change, and the coins that pay for them
and for the rest of the fee, and signs those.

The previous transactions that go along with a wallet's transaction are left out, and so is the key
pool.
-/

namespace ShinyCoin

/-- How what is left to chance turns out in one round, and what signing yields. -/
structure RoundChoices where
  select : Nat → SelectChoices
  /-- The change goes before output `nChangePos % vout.size()`, if there is one. -/
  nChangePos : Nat
  /-- The script of the key that is reserved for the change -/
  scriptChange : CScript
  /-- `SignSignature(keystore, txFrom, txTo, nIn)`, with the `scriptSig` it makes -/
  signSignature : CTransaction → CTransaction → Nat → Option CScript

/-- What `CreateTransaction` is asked for. `wtxNew` has its time and its version already. -/
structure PaymentRequest where
  vecSend : List (CScript × ℤ)
  vecTxInfos : List (CBitcoinAddress × List CTxInfo)
  wtxNew : CTransaction

theorem CTransaction.getMinFee_le_maxMoney (tx : CTransaction) (mode : GetMinFeeMode) :
    tx.getMinFee 1 mode ≤ MAX_MONEY := by
  unfold CTransaction.getMinFee
  rw [if_neg (by simp)]
  unfold CTransaction.clampFee
  dsimp only
  generalize max (tx.getBaseFee mode) _ = nMinFee
  split
  · next hrange =>
    unfold moneyRange at hrange
    exact of_decide_eq_true (Bool.and_eq_true_iff.mp hrange).2
  · exact le_rfl

/-! ## Signing -/

def CTransaction.setScriptSig (tx : CTransaction) (nIn : Nat) (scriptSig : CScript) :
    CTransaction :=
  { tx with vin := tx.vin.modify nIn fun txin => { txin with scriptSig := scriptSig } }

/-- Sign the inputs from number `nIn` on, one for each previous transaction. -/
def signInputs (signSignature : CTransaction → CTransaction → Nat → Option CScript) :
    List CTransaction → Nat → CTransaction → Option CTransaction
  | [], _, tx => some tx
  | txFrom :: vFrom, nIn, tx =>
      (signSignature txFrom tx nIn).bind fun scriptSig =>
        signInputs signSignature vFrom (nIn + 1) (tx.setScriptSig nIn scriptSig)

/-! ## The inputs with infos -/

/-- `sendBack` and `nFeeLeft` once an output of value `nValue` has paid of the fee what it can. -/
def takeFee (nValue nFeeLeft : ℤ) : ℤ × ℤ :=
  if nFeeLeft ≤ nValue then (nValue - nFeeLeft, 0)
  else if 0 < nValue then (0, nFeeLeft - nValue)
  else (nValue, nFeeLeft)

/-- The transaction so far, `vecInfoTxFrom` and `nFeeLeft`. -/
structure InfoDraft where
  vin : List CTxIn := []
  vout : List CTxOut := []
  vecInfoTxFrom : List CTransaction := []
  nFeeLeft : ℤ

namespace SpendingWallet

variable {env : Env}

/-- The output can be spent and goes to the address. -/
def paysTo (env : Env) (w : SpendingWallet env) (nTime : Nat) (addr : CBitcoinAddress)
    (wtx : CWalletTx) (i : Nat) : Bool :=
  match wtx.tx.vout[i]? with
  | none => false
  | some txout =>
      wtx.isUnspent i && w.isMine txout.scriptPubKey && decide (wtx.tx.nTime ≤ nTime)
        && (env.extractAddress txout.scriptPubKey == some addr)

/-- The first such output of one transaction. -/
def infoOutputOf (w : SpendingWallet env) (nTime : Nat) (addr : CBitcoinAddress)
    (x : Uint256 × CWalletTx) : Option Coin :=
  if !w.isFinal x.2 || decide (w.getDepthInMainChain x.2 < 1)
      || decide (0 < w.getBlocksToMaturity x.2) then none
  else
    ((List.range x.2.tx.vout.length).find? (w.paysTo env nTime addr x.2)).map fun i =>
      ⟨x.1, x.2, i, (x.2.tx.vout[i]?.map CTxOut.nValue).getD 0⟩

/-- The first one in the order of `mapWallet`. -/
def infoOutput (w : SpendingWallet env) (nTime : Nat) (addr : CBitcoinAddress) : Option Coin :=
  w.mapWallet.toList.findSome? (w.infoOutputOf nTime addr)

/-- The input for the infos of one address. -/
def addInfoInput (w : SpendingWallet env) (nTime : Nat) (draft : InfoDraft)
    (addr_info : CBitcoinAddress × List CTxInfo) : Option InfoDraft :=
  if !w.haveKey addr_info.1 then none
  else
    (w.infoOutput nTime addr_info.1).map fun c =>
      let paid := takeFee c.nValue draft.nFeeLeft
      { vin := draft.vin ++ [{ prevout := ⟨c.hash, c.n⟩, infos := addr_info.2 }]
        vout := draft.vout ++ if 0 < paid.1 then
          [{ nValue := paid.1, scriptPubKey := w.setBitcoinAddress addr_info.1 }] else []
        vecInfoTxFrom := draft.vecInfoTxFrom ++ [c.wtx.tx]
        nFeeLeft := paid.2 }

def addInfoInputs (w : SpendingWallet env) (nTime : Nat)
    (vecTxInfos : List (CBitcoinAddress × List CTxInfo)) (nFeeRet : ℤ) : Option InfoDraft :=
  vecTxInfos.foldlM (w.addInfoInput nTime) { nFeeLeft := nFeeRet }

/-- The transaction once its inputs with infos are signed, and `nFeeLeft`. -/
def signedInfos (w : SpendingWallet env) (ch : RoundChoices) (request : PaymentRequest)
    (nFeeRet : ℤ) : Option (CTransaction × ℤ) :=
  (w.addInfoInputs request.wtxNew.nTime request.vecTxInfos nFeeRet).bind fun draft =>
    (signInputs ch.signSignature draft.vecInfoTxFrom 0
      { request.wtxNew with vin := draft.vin, vout := draft.vout }).map fun tx =>
      (tx, draft.nFeeLeft)

/-! ## The payees, the change and the coins -/

/-- The coins for what the inputs with infos do not pay, and their value. -/
def chooseCoins (w : SpendingWallet env) (ch : RoundChoices) (nTime : Nat) (nTotalValue : ℤ) :
    Option (List Coin × ℤ) :=
  if 0 < nTotalValue then w.selectCoins ch.select nTotalValue nTime else some ([], 0)

/-- What a sub-cent change adds to a low fee. -/
def moveToFee (nFeeRet nChange : ℤ) : ℤ :=
  if nFeeRet < MIN_TX_FEE ∧ 0 < nChange ∧ nChange < CENT then min nChange (MIN_TX_FEE - nFeeRet)
  else 0

/-- `Insert change txn at random position`; `GetRandInt(0)` is 0. -/
def insertChange (ch : RoundChoices) (nChange : ℤ) (vout : List CTxOut) : List CTxOut :=
  if 0 < nChange then
    vout.insertIdx (ch.nChangePos % max 1 vout.length)
      { nValue := nChange, scriptPubKey := ch.scriptChange }
  else vout

/-- The transaction with everything in it, before the coins are signed for. -/
def payOut (env : Env) (ch : RoundChoices) (vecSend : List (CScript × ℤ)) (nChange : ℤ)
    (setCoins : List Coin) (tx : CTransaction) : CTransaction :=
  { tx with
    vin := tx.vin ++ setCoins.map fun c => { prevout := c.prevout env }
    vout := insertChange ch nChange
      (tx.vout ++ vecSend.map fun s => { nValue := s.2, scriptPubKey := s.1 }) }

/-- `nValue` -/
def totalValue (vecSend : List (CScript × ℤ)) : ℤ :=
  vecSend.foldl (fun nValue s => int64 (nValue + s.2)) 0

/-- One round, with the fee it ends with. -/
def createRound (w : SpendingWallet env) (ch : RoundChoices) (request : PaymentRequest)
    (nFeeRet : ℤ) : Option (CTransaction × ℤ) :=
  (w.signedInfos ch request nFeeRet).bind fun (tx, nFeeLeft) =>
    (w.chooseCoins ch request.wtxNew.nTime (totalValue request.vecSend + nFeeLeft)).bind
      fun (setCoins, nValueIn) =>
        let nChange := nValueIn - totalValue request.vecSend - nFeeLeft
        let nMoveToFee := moveToFee nFeeRet nChange
        (signInputs ch.signSignature (setCoins.map fun c => c.wtx.tx) request.vecTxInfos.length
          (payOut env ch request.vecSend (nChange - nMoveToFee) setCoins tx)).bind fun tx =>
            if MAX_BLOCK_SIZE_GEN / 5 ≤ tx.getSerializeSize then none
            else some (tx, nFeeRet + nMoveToFee)

/-! ## The fee loop -/

/-- `max(nPayFee, nMinFee)` -/
def requiredFee (w : SpendingWallet env) (tx : CTransaction) : ℤ :=
  max (w.nTransactionFee * (1 + (tx.getSerializeSize / 1000 : Nat))) (tx.getMinFee 1 .GMF_SEND)

/-- More than any round can require. -/
def maxFee (w : SpendingWallet env) : ℤ :=
  max (|w.nTransactionFee| * (1 + (MAX_BLOCK_SIZE_GEN : ℕ))) MAX_MONEY

theorem createRound_size {w : SpendingWallet env} {ch : RoundChoices} {request : PaymentRequest}
    {nFeeRet nFee : ℤ} {tx : CTransaction}
    (h : w.createRound ch request nFeeRet = some (tx, nFee)) :
    tx.getSerializeSize < MAX_BLOCK_SIZE_GEN / 5 ∧ nFeeRet ≤ nFee := by
  unfold createRound at h
  obtain ⟨⟨tx₁, nFeeLeft⟩, -, h⟩ := Option.bind_eq_some_iff.mp h
  obtain ⟨⟨setCoins, nValueIn⟩, -, h⟩ := Option.bind_eq_some_iff.mp h
  obtain ⟨tx₂, -, h⟩ := Option.bind_eq_some_iff.mp h
  split at h
  · cases h
  · next hsize =>
    cases h
    refine ⟨not_le.mp hsize, ?_⟩
    unfold moveToFee
    split <;> omega

theorem requiredFee_le {w : SpendingWallet env} {tx : CTransaction}
    (hsize : tx.getSerializeSize < MAX_BLOCK_SIZE_GEN / 5) : w.requiredFee tx ≤ w.maxFee := by
  unfold requiredFee maxFee
  apply max_le_max
  · have hbytes : (tx.getSerializeSize / 1000 : Nat) ≤ MAX_BLOCK_SIZE_GEN := by omega
    have habs := le_abs_self w.nTransactionFee
    have := abs_nonneg w.nTransactionFee
    calc w.nTransactionFee * (1 + (tx.getSerializeSize / 1000 : Nat))
        ≤ |w.nTransactionFee| * (1 + (tx.getSerializeSize / 1000 : Nat)) := by gcongr
      _ ≤ |w.nTransactionFee| * (1 + (MAX_BLOCK_SIZE_GEN : ℕ)) := by gcongr
  · exact CTransaction.getMinFee_le_maxMoney tx .GMF_SEND

/-- The loop; the fee rises from round to round, and no round can require more than `maxFee`. -/
def createLoop (w : SpendingWallet env) (chs : Nat → RoundChoices) (request : PaymentRequest)
    (round : Nat) (nFeeRet : ℤ) : Option (CTransaction × ℤ) :=
  match _h : w.createRound (chs round) request nFeeRet with
  | none => none
  | some (tx, nFee) =>
      if nFee < w.requiredFee tx then createLoop w chs request (round + 1) (w.requiredFee tx)
      else some (tx, nFee)
termination_by (w.maxFee - nFeeRet).toNat
decreasing_by
  obtain ⟨hsize, hfee⟩ := createRound_size _h
  have := w.requiredFee_le hsize
  omega

/-- `CreateTransaction`: the transaction and `nFeeRet`, where it returns `true`. -/
def createTransaction (w : SpendingWallet env) (chs : Nat → RoundChoices)
    (request : PaymentRequest) : Option (CTransaction × ℤ) :=
  if !(request.vecSend.all fun s => moneyRange s.2) || !moneyRange (totalValue request.vecSend) then
    none
  else if request.vecSend.isEmpty && request.vecTxInfos.isEmpty then none
  else w.createLoop chs request 0 w.nTransactionFee

end SpendingWallet

end ShinyCoin

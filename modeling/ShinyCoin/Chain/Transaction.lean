import ShinyCoin.TxInfo.Store

/-!
# Checks, fees and rewards

What `main.cpp` decides about a transaction or a block without looking at the chain state:
`CheckTransaction`, `CheckBlock`, `GetMinFee`, and the reward schedules. Amounts of a transaction
are summed in 64 bits, as they come from a peer.
-/

namespace ShinyCoin

/-! ## Transactions -/

namespace CTransaction

/-- `CTxIn::CheckTxInfos` of every input. -/
def checkTxInfos (tx : CTransaction) : Bool :=
  tx.vin.all fun txin => txin.infos.all fun info => info.isValid.isOk

/-- One round of the loop over the outputs in `CheckTransaction`. -/
def checkTxOut (tx : CTransaction) (nValueOut : ℤ) (txout : CTxOut) : Except Err ℤ := do
  Lib.require (!txout.isEmpty || tx.isCoinBase || tx.isCoinStake)
    (Err.fail "CTransaction::CheckTransaction() : txout empty for user transaction")
  Lib.require (txout.nValue ≤ MAX_MONEY)
    (Err.fail "CTransaction::CheckTransaction() : txout.nValue too high")
  Lib.require (0 ≤ txout.nValue)
    (Err.fail "CTransaction::CheckTransaction() : negative txout.nValue")
  return int64 (nValueOut + txout.nValue)

/-- The last check of `CheckTransaction`: the script of a coinbase, the prevouts of the others. -/
def checkPrevouts (tx : CTransaction) : Except Err Unit :=
  if tx.isCoinBase then
    Lib.require (tx.vin.all fun txin => 2 ≤ txin.scriptSig.length && txin.scriptSig.length ≤ 100)
      (Err.fail "CTransaction::CheckTransaction() : coinbase script size")
  else
    Lib.require (tx.vin.all fun txin => !txin.prevout.isNull)
      (Err.fail "CTransaction::CheckTransaction() : prevout is null")

def checkTransaction (tx : CTransaction) : Except Err Unit := do
  Lib.require (tx.nVersion = .TT_NORMAL)
    (Err.fail "CTransaction::CheckTransaction() : Found nVersion other than 1")
  Lib.require (tx.vout.all fun txout => txout.subCurrency.isEmpty)
    (Err.fail "CTransaction:::CheckTransaction() : Subcurrency not implemented yet")
  Lib.require (!tx.vin.isEmpty) (Err.fail "CTransaction::CheckTransaction() : vin empty")
  Lib.require tx.checkTxInfos (Err.fail "CTransaction::CheckTransaction() : invalid infos")
  Lib.require (!tx.vout.isEmpty || tx.vin.any fun txin => !txin.infos.isEmpty)
    (Err.fail "CTransaction::CheckTransaction() : vout empty")
  Lib.require (tx.getSerializeSize ≤ MAX_BLOCK_SIZE)
    (Err.fail "CTransaction::CheckTransaction() : size limits failed")
  let nValueOut ← tx.vout.foldlM tx.checkTxOut 0
  Lib.require (moneyRange nValueOut)
    (Err.fail "CTransaction::CheckTransaction() : txout total out of range")
  Lib.require (tx.vin.map CTxIn.prevout).Nodup (Err.fail "")
  tx.checkPrevouts

def getLegacySigOpCount (env : Env) (tx : CTransaction) : Nat :=
  (tx.vin.map fun txin => env.getSigOpCount txin.scriptSig).sum
    + (tx.vout.map fun txout => env.getSigOpCount txout.scriptPubKey).sum

/-! ## Fees -/

inductive GetMinFeeMode where
  | GMF_BLOCK
  | GMF_RELAY
  | GMF_SEND
  deriving DecidableEq, Repr

/-- The fee of `GetMinFee` before it is raised for a full block. -/
def getBaseFee (tx : CTransaction) (mode : GetMinFeeMode) : ℤ :=
  let nBaseFee := if mode = .GMF_RELAY then BASE_RELAY_TX_FEE else BASE_TX_FEE
  (1 + (tx.getSerializeSize / 1000 : Nat)) * nBaseFee
    + (tx.vout.countP fun txout => txout.nValue < CENT) * DUST_FEE
    + tx.countInfoTxs * TX_INFO_FEE

/-- The end of `GetMinFee`: not below the minimum, not out of range. -/
def clampFee (mode : GetMinFeeMode) (nMinFee : ℤ) : ℤ :=
  let nMinFee := max nMinFee (if mode = .GMF_RELAY then MIN_RELAY_TX_FEE else MIN_TX_FEE)
  if moneyRange nMinFee then nMinFee else MAX_MONEY

def getMinFee (tx : CTransaction) (nBlockSize : Nat) (mode : GetMinFeeMode) : ℤ :=
  let nNewBlockSize := nBlockSize + tx.getSerializeSize
  if nBlockSize != 1 && decide (MAX_BLOCK_SIZE_GEN / 2 ≤ nNewBlockSize) then
    if MAX_BLOCK_SIZE_GEN ≤ nNewBlockSize then MAX_MONEY
    else clampFee mode
      (int64 (tx.getBaseFee mode * (MAX_BLOCK_SIZE_GEN / (MAX_BLOCK_SIZE_GEN - nNewBlockSize) : Nat)))
  else clampFee mode (tx.getBaseFee mode)

end CTransaction

/-! ## Rewards -/

/-- The subsidy scheduled for a proof-of-work height, before stake is accounted for. -/
def fullSubsidy (nPoWHeight : ℤ) : ℤ :=
  min (if nPoWHeight < 576 then
      COIN + ((399 * COIN * (nPoWHeight - 1) * (nPoWHeight - 1)).tdiv 575).tdiv 575
    else (400 * COIN * 26280 * 26280).tdiv (nPoWHeight * nPoWHeight)) MAX_MINT_PROOF_OF_WORK

/-- `GetNextProofOfWorkReward(pPrev, fAccountForPoS)`, `nPoSDebt` being `pPrev->nPoSDebt`. -/
def getNextProofOfWorkReward (pPrev : BlockPtr) (nPoSDebt : ℤ) (fAccountForPoS : Bool) : ℤ :=
  match pPrev with
  | [] => COIN
  | prev :: _ =>
      let nFullSubsidy := fullSubsidy (prev.nPoWHeight + 1)
      if fAccountForPoS then max (nFullSubsidy.tdiv 4) (nFullSubsidy - nPoSDebt) else nFullSubsidy

def getProofOfStakeReward (nCoinAgeSeconds : ℤ) : ℤ :=
  ((((int64 (CENT * nCoinAgeSeconds * 33)).tdiv 60).tdiv 60).tdiv 24).tdiv (365 * 33 + 8)

/-! ## Blocks -/

def checkCoinStakeTimestamp (env : Env) (nTimeBlock nTimeTx : Nat) : Bool :=
  if env.isProtocolV03 nTimeTx then nTimeBlock == nTimeTx
  else decide (nTimeTx ≤ nTimeBlock) && decide ((nTimeBlock : ℤ) ≤ nTimeTx + nMaxClockDrift)

namespace CBlock

/-- The timestamp of the coinstake of a proof-of-stake block. -/
def checkCoinStakeTime (env : Env) (block : CBlock) : Bool :=
  match block.vtx with
  | _ :: tx :: _ => !tx.isCoinStake || checkCoinStakeTimestamp env block.nTime tx.nTime
  | _ => true

/-- The proof of work, looked at only when `fCheckPoWHash` is set. -/
def checkPoWHash (env : Env) (block : CBlock) (fCheckPoWHash : Bool) : Except Err Unit :=
  if block.isProofOfWork && fCheckPoWHash then
    match env.getPoWHash block.toCBlockHeader with
    | none => .error (.fail "CheckBlock() : could not get proof of work hash")
    | some powHash => Lib.require (env.checkProofOfWork powHash block.nBits)
        (Err.fail "CheckBlock() : proof of work failed")
  else .ok ()

/-- One round of `Check transactions`. -/
def checkBlockTx (block : CBlock) (tx : CTransaction) : Except Err Unit := do
  tx.checkTransaction.mapError fun _ => Err.fail "CheckBlock() : CheckTransaction failed"
  Lib.require (tx.nTime ≤ block.nTime)
    (Err.fail "CheckBlock() : block timestamp earlier than transaction timestamp")

def checkBlock (env : Env) (nAdjustedTime : ℤ) (block : CBlock) (fCheckPoWHash : Bool) :
    Except Err Unit := do
  Lib.require (!block.vtx.isEmpty && decide (block.vtx.length ≤ MAX_BLOCK_SIZE)
      && decide (block.getSerializeSize ≤ MAX_BLOCK_SIZE))
    (Err.fail "CheckBlock() : size limits failed")
  Lib.require (block.getBlockTime ≤ nAdjustedTime + nMaxClockDrift)
    (Err.fail "CheckBlock() : block timestamp too far in the future")
  Lib.require ((block.vtx.head?.map CTransaction.isCoinBase).getD false)
    (Err.fail "CheckBlock() : first tx is not coinbase")
  Lib.require ((block.vtx.drop 1).all fun tx => !tx.isCoinBase)
    (Err.fail "CheckBlock() : more than one coinbase")
  Lib.require ((block.vtx.drop 2).all fun tx => !tx.isCoinStake)
    (Err.fail "CheckBlock() : coinstake in wrong position")
  Lib.require ((block.vtx.head?.map fun tx => decide (block.getBlockTime ≤ tx.nTime + nMaxClockDrift)).getD
      true)
    (Err.fail "CheckBlock() : coinbase timestamp is too early")
  Lib.require (block.checkCoinStakeTime env)
    (Err.fail "CheckBlock() : coinstake timestamp violation")
  block.vtx.forM block.checkBlockTx
  Lib.require (block.vtx.map env.getHash).Nodup (Err.fail "CheckBlock() : duplicate transaction")
  Lib.require ((block.vtx.map (CTransaction.getLegacySigOpCount env)).sum ≤ MAX_BLOCK_SIGOPS)
    (Err.fail "CheckBlock() : out-of-bounds SigOpCount")
  Lib.require (block.hashMerkleRoot == env.buildMerkleTree block.vtx)
    (Err.fail "CheckBlock() : hashMerkleRoot mismatch")
  Lib.require (env.checkBlockSignature block) (Err.fail "CheckBlock() : bad block signature")
  block.checkPoWHash env fCheckPoWHash

end CBlock

end ShinyCoin

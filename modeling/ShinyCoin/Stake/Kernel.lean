import ShinyCoin.Chain.BestChain

/-!
# The stake kernel

`CheckProofOfStake` finds the staked output through the transaction index, and hashes it with the
stake modifier of a block about a selection interval later than the output. That block is looked for
along `pnext`, so on the chain the node follows at the time.

The height of the modifier is only printed, and is left out.
-/

namespace ShinyCoin

def MODIFIER_INTERVAL : Nat := 5400
def MODIFIER_INTERVAL_TEST : Nat := 150

/-- Ratio of the lengths of the last and the first group of a selection interval. -/
def MODIFIER_INTERVAL_RATIO : Nat := 3

def STAKE_MAX_AGE : ℤ := 60 * 60 * 24 * 60

/-- The bytes of a number of `width` bytes, the lowest first. -/
def littleEndian (width n : Nat) : Bytes :=
  (List.range width).map fun i => UInt8.ofNat (n / 256 ^ i)

def CBlockIndex.generatedStakeModifier (pindex : CBlockIndex) : Bool :=
  pindex.nFlags &&& BLOCK_STAKE_MODIFIER != 0

namespace Env

def nModifierInterval (env : Env) : Nat :=
  if env.fTestNet then MODIFIER_INTERVAL_TEST else MODIFIER_INTERVAL

def getStakeModifierSelectionIntervalSection (env : Env) (nSection : Nat) : Nat :=
  env.nModifierInterval * 63 / (63 + (63 - nSection) * ( MODIFIER_INTERVAL_RATIO - 1))

def getStakeModifierSelectionInterval (env : Env) : Nat :=
  ((List.range 64).map env.getStakeModifierSelectionIntervalSection).sum

theorem getStakeModifierSelectionInterval_pos (env : Env) :
    0 < env.getStakeModifierSelectionInterval := by
  unfold getStakeModifierSelectionInterval getStakeModifierSelectionIntervalSection
    nModifierInterval
  cases env.fTestNet <;> decide

end Env

/-! ## The modifier -/

namespace NodeState

/-- `loop to find the stake modifier later by a selection interval`; `none` when it reaches the best
block. Every round goes up a block of the best chain, whose length bounds the rounds. -/
def modifierLoop (env : Env) (s : NodeState) (pindexFrom : CBlockIndex) :
    Nat → BlockPtr → ℤ → Option Nat
  | fuel, pindex, nStakeModifierTime =>
      if nStakeModifierTime < pindexFrom.nTime + env.getStakeModifierSelectionInterval then
        match fuel, s.pnext (BlockPtr.hash pindex) with
        | fuel + 1, some (p :: pprev) =>
            modifierLoop env s pindexFrom fuel (p :: pprev)
              (if p.generatedStakeModifier then p.nTime else nStakeModifierTime)
        | _, _ => none
      else pindex.head?.map CBlockIndex.nStakeModifier

def getKernelStakeModifier (env : Env) (s : NodeState) (hashBlockFrom : Uint256) : Option Nat :=
  match s.mapBlockIndex hashBlockFrom with
  | some (pindexFrom :: pprev) =>
      s.modifierLoop env pindexFrom s.pindexBest.length (pindexFrom :: pprev) pindexFrom.nTime
  | _ => none

/-! ## The kernel hash -/

/-- What the kernel hash starts with: the modifier, or `nBits` before v0.3. -/
def kernelSeed (env : Env) (s : NodeState) (nBits : Nat) (blockFrom : CBlockHeader)
    (nTimeTx : Nat) : Option Bytes :=
  if env.isProtocolV03 nTimeTx then
    (s.getKernelStakeModifier env (env.getIDHash blockFrom)).map (littleEndian 8)
  else some (littleEndian 4 nBits)

/-- `bnCoinDayWeight`. The value is 0 for an output that does not exist; the caller has looked. -/
def coinDayWeight (env : Env) (txPrev : CTransaction) (prevout : COutPoint) (nTimeTx : Nat) : ℤ :=
  let nValueIn := (txPrev.vout[prevout.n]?.map CTxOut.nValue).getD 0
  let nTimeWeight := min ((nTimeTx : ℤ) - txPrev.nTime) STAKE_MAX_AGE
    - if env.isProtocolV03 nTimeTx then env.nStakeMinAge else 0
  ((nValueIn * nTimeWeight).tdiv COIN).tdiv (24 * 60 * 60)

/-- `CheckStakeKernelHash`: the verdict, and `hashProofOfStake`, which stays as it is where no hash is
computed. -/
def checkStakeKernelHash (env : Env) (s : NodeState) (nBits : Nat) (blockFrom : CBlockHeader)
    (nTxPrevOffset : Nat) (txPrev : CTransaction) (prevout : COutPoint) (nTimeTx : Nat)
    (hashProofOfStake : Uint256) : Bool × Uint256 :=
  if nTimeTx < txPrev.nTime then (false, hashProofOfStake)
  else if nTimeTx < (blockFrom.nTime + env.nStakeMinAge) % 2 ^ 32 then (false, hashProofOfStake)
  else
    match s.kernelSeed env nBits blockFrom nTimeTx with
    | none => (false, hashProofOfStake)
    | some seed =>
        let hash := env.hash (seed ++ littleEndian 4 blockFrom.nTime ++ littleEndian 4 nTxPrevOffset
          ++ littleEndian 4 txPrev.nTime ++ littleEndian 4 prevout.n ++ littleEndian 4 nTimeTx)
        (decide ((hash : ℤ) ≤ coinDayWeight env txPrev prevout nTimeTx * setCompact nBits), hash)

end NodeState

/-! ## CheckProofOfStake -/

/-- The answer of `CheckProofOfStake`: the verdict, what `DoS` adds to the coinstake's `nDoS`, and
`hashProofOfStake`. -/
structure StakeVerdict where
  fOk : Bool
  nDoS : Nat
  hashProofOfStake : Uint256
  deriving DecidableEq, Repr

/-- `txindex.pos.nTxPos - txindex.pos.nBlockPos`, on 32 bits -/
def CTxIndex.offset (txindex : CTxIndex) : Nat :=
  (((txindex.pos.nTxPos : ℤ) - txindex.pos.nBlockPos) % 2 ^ 32).toNat

def NodeState.checkProofOfStake (env : Env) (files : Files) (s : NodeState) (tx : CTransaction)
    (nBits : Nat) (hashProofOfStake : Uint256) : StakeVerdict :=
  match tx.isCoinStake, tx.vin with
  | true, txin :: _ =>
      match readFromDisk files s.txdb.data.txIndex txin.prevout with
      | none => ⟨false, 1, hashProofOfStake⟩
      | some (txPrev, txindex) =>
          if !env.verifySignature txPrev tx 0 then ⟨false, 100, hashProofOfStake⟩
          else
            match files.readHeaderAt txindex.pos.nFile txindex.pos.nBlockPos with
            | none => ⟨false, 0, hashProofOfStake⟩
            | some block =>
                let r := s.checkStakeKernelHash env nBits block txindex.offset txPrev txin.prevout
                  tx.nTime hashProofOfStake
                ⟨r.1, if r.1 then 0 else 1, r.2⟩
  | _, _ => ⟨false, 0, hashProofOfStake⟩

end ShinyCoin

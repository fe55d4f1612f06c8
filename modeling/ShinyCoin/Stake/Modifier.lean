import ShinyCoin.Reload.Load
import Mathlib.Data.List.Sort
import Mathlib.Data.Prod.Lex

/-!
# The next stake modifier

A block of a new interval has a new stake modifier, made of a bit of each of 64 blocks of the
interval before. They are selected round by round: in each round the window of times grows by a
section, and the block with the least selection hash is taken that has not been selected. The
candidates are sorted by their times, which need not increase along the chain.

`SelectBlockFromCandidates` looks blocks up by their hashes; `none` is where it, and with it
`ComputeNextStakeModifier`, fails.
-/

namespace ShinyCoin

def nProtocolV04SwitchTime : Nat := 1399300000
def nProtocolV04TestSwitchTime : Nat := 1395700000

def Env.isProtocolV04 (env : Env) (nTimeBlock : Nat) : Bool :=
  decide ((if env.fTestNet then nProtocolV04TestSwitchTime else nProtocolV04SwitchTime) ≤ nTimeBlock)

def CBlockIndex.getStakeEntropyBit (pindex : CBlockIndex) : Nat :=
  (pindex.nFlags &&& BLOCK_STAKE_ENTROPY) >>> 1

/-- `GetLastStakeModifier`: the modifier and the time of the block that generated it. It fails on
`NULL`, and where not even the genesis block generated one. -/
def BlockPtr.getLastStakeModifier : BlockPtr → Option (Nat × ℤ)
  | [] => none
  | pindex :: pprev =>
      if pindex.generatedStakeModifier then some (pindex.nStakeModifier, pindex.nTime)
      else getLastStakeModifier pprev

/-! ## One round -/

/-- `hashSelection`: "divided by 2**32 so that proof-of-stake block is always favored" -/
def selectionHash (env : Env) (nStakeModifierPrev : Nat) (pindex : CBlockIndex) : Nat :=
  let hashProof := if pindex.isProofOfStake then pindex.hashProofOfStake else pindex.hashBlock
  let hashSelection := env.hash (littleEndian 32 hashProof ++ littleEndian 8 nStakeModifierPrev)
  if pindex.isProofOfStake then hashSelection >>> 32 else hashSelection

/-- The loop of `SelectBlockFromCandidates`, with `hashBest` and `*pindexSelected` once something is
selected. -/
def selectFrom (env : Env) (mapBlockIndex : Uint256 → Option BlockPtr)
    (mapSelectedBlocks : List CBlockIndex) (nSelectionIntervalStop : ℤ) (nStakeModifierPrev : Nat) :
    List (ℤ × Uint256) → Option (Nat × CBlockIndex) → Option (Nat × CBlockIndex)
  | [], best => best
  | item :: items, best =>
      match mapBlockIndex item.2 with
      | some (pindex :: _) =>
          if best.isSome && decide (nSelectionIntervalStop < pindex.nTime) then best
          else if mapSelectedBlocks.any fun p => p.hashBlock == pindex.hashBlock then
            selectFrom env mapBlockIndex mapSelectedBlocks nSelectionIntervalStop nStakeModifierPrev
              items best
          else
            let hashSelection := selectionHash env nStakeModifierPrev pindex
            selectFrom env mapBlockIndex mapSelectedBlocks nSelectionIntervalStop nStakeModifierPrev
              items (match best with
                | some (hashBest, pindexBest) =>
                    if hashSelection < hashBest then some (hashSelection, pindex)
                    else some (hashBest, pindexBest)
                | none => some (hashSelection, pindex))
      | _ => none

def selectBlockFromCandidates (env : Env) (mapBlockIndex : Uint256 → Option BlockPtr)
    (vSortedByTimestamp : List (ℤ × Uint256)) (mapSelectedBlocks : List CBlockIndex)
    (nSelectionIntervalStop : ℤ) (nStakeModifierPrev : Nat) : Option CBlockIndex :=
  (selectFrom env mapBlockIndex mapSelectedBlocks nSelectionIntervalStop nStakeModifierPrev
    vSortedByTimestamp none).map Prod.snd

/-! ## The candidates -/

/-- `nSelectionIntervalStart`, before `pindexPrev` -/
def Env.selectionIntervalStart (env : Env) (pindexPrev : CBlockIndex) : ℤ :=
  (pindexPrev.nTime / env.nModifierInterval * env.nModifierInterval : Nat)
    - env.getStakeModifierSelectionInterval

/-- The blocks back to the start of the selection interval; the walk ends at the first one that is
earlier. -/
def Env.candidates (env : Env) : BlockPtr → List CBlockIndex
  | [] => []
  | pindexPrev :: pprev => (pindexPrev :: pprev).takeWhile fun pindex =>
      decide (env.selectionIntervalStart pindexPrev ≤ pindex.nTime)

/-- The pair that is sorted. -/
def CBlockIndex.stamp (pindex : CBlockIndex) : ℤ × Uint256 := (pindex.nTime, pindex.hashBlock)

def Env.vSortedByTimestamp (env : Env) (pindexPrev : BlockPtr) : List (ℤ × Uint256) :=
  ((env.candidates pindexPrev).map CBlockIndex.stamp).reverse.insertionSort
    fun a b => toLex a ≤ toLex b

/-! ## All rounds -/

/-- The locals of the selection; the selected blocks are in the order of the rounds. -/
structure ModifierRounds where
  nSelectionIntervalStop : ℤ
  nStakeModifierNew : Nat := 0
  mapSelectedBlocks : List CBlockIndex := []

def modifierRound (env : Env) (mapBlockIndex : Uint256 → Option BlockPtr)
    (vSortedByTimestamp : List (ℤ × Uint256)) (nStakeModifier : Nat) (st : ModifierRounds)
    (nRound : Nat) : Option ModifierRounds :=
  let nSelectionIntervalStop :=
    st.nSelectionIntervalStop + env.getStakeModifierSelectionIntervalSection nRound
  (selectBlockFromCandidates env mapBlockIndex vSortedByTimestamp st.mapSelectedBlocks
    nSelectionIntervalStop nStakeModifier).map fun pindex =>
      { nSelectionIntervalStop := nSelectionIntervalStop
        nStakeModifierNew := st.nStakeModifierNew ||| pindex.getStakeEntropyBit <<< nRound
        mapSelectedBlocks := st.mapSelectedBlocks ++ [pindex] }

/-- "Select 64 blocks from candidate blocks to generate stake modifier" -/
def modifierRounds (env : Env) (mapBlockIndex : Uint256 → Option BlockPtr) (nStakeModifier : Nat)
    (pindexPrev : CBlockIndex) (pprev : BlockPtr) : Option ModifierRounds :=
  let vSortedByTimestamp := env.vSortedByTimestamp (pindexPrev :: pprev)
  (List.range (min 64 vSortedByTimestamp.length)).foldlM
    (modifierRound env mapBlockIndex vSortedByTimestamp nStakeModifier)
    { nSelectionIntervalStop := env.selectionIntervalStart pindexPrev }

/-- `ComputeNextStakeModifier`: the modifier, and whether it is a new one. -/
def computeNextStakeModifier (env : Env) (mapBlockIndex : Uint256 → Option BlockPtr) :
    BlockPtr → Option (Nat × Bool)
  | [] => none
  | [_] => some (0, true)
  | pindexCurrent :: pindexPrev :: pprev => do
      let (nStakeModifier, nModifierTime) ← BlockPtr.getLastStakeModifier (pindexPrev :: pprev)
      if (pindexPrev.nTime : ℤ) / env.nModifierInterval ≤ nModifierTime / env.nModifierInterval then
        return (nStakeModifier, false)
      if (pindexCurrent.nTime : ℤ) / env.nModifierInterval ≤ nModifierTime / env.nModifierInterval
          ∧ env.isProtocolV04 pindexCurrent.nTime then
        return (nStakeModifier, false)
      let st ← modifierRounds env mapBlockIndex nStakeModifier pindexPrev pprev
      return (st.nStakeModifierNew, true)

end ShinyCoin

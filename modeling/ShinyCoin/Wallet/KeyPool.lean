import ShinyCoin.Core.Types
import ShinyCoin.Lib.PMap
import Mathlib.Data.Finset.Max

/-!
# The key pool

`setKeyPool` holds the indexes of the records in the wallet's database whose keys are free.
`ReserveKeyFromKeyPool` takes the lowest index out; it comes back with `ReturnKey`, or its record is
erased with `KeepKey`. New keys get the indexes after the highest one in the set: an index that is
reserved is not in the set, so it can be given away again.
-/

namespace ShinyCoin

/-- `GenerateNewKey`: public keys that never repeat. -/
structure KeyGen where
  key : Nat → Bytes
  key_injective : Function.Injective key

/-- A `CReserveKey` -/
structure CReserveKey where
  nIndex : ℤ := -1
  vchPubKey : Bytes := []
  deriving DecidableEq, Repr

/-- What the key pool works on: the set, the database records, the keys of the wallet, and the
`CReserveKey`s by number. `kept` collects the keys that were handed out for good. -/
structure KeyPool where
  setKeyPool : Finset ℤ := ∅
  pool : Lib.PMap ℤ Bytes := Lib.PMap.empty
  keys : List Bytes := []
  nGenerated : Nat := 0
  fFileBacked : Bool := true
  fLocked : Bool := false
  vchDefaultKey : Bytes := []
  reserveKeys : Nat → CReserveKey := fun _ => {}
  kept : List Bytes := []

namespace KeyPool

/-! ## Filling the pool -/

/-- `nEnd`: after the highest index in the set, 1 for the empty set -/
def nEnd (s : KeyPool) : ℤ := s.setKeyPool.max.unbotD 0 + 1

/-- `GenerateNewKey` -/
def generateNewKey (g : KeyGen) (s : KeyPool) : Bytes × KeyPool :=
  (g.key s.nGenerated, { s with keys := g.key s.nGenerated :: s.keys, nGenerated := s.nGenerated + 1 })

/-- `WritePool(nIndex, CKeyPool(GenerateNewKey()))` and the insertion into the set -/
def addKey (g : KeyGen) (s : KeyPool) (nIndex : ℤ) : KeyPool :=
  let (key, s) := s.generateNewKey g
  { s with pool := s.pool.set nIndex key, setKeyPool := insert nIndex s.setKeyPool }

theorem lt_nEnd {s : KeyPool} {n : ℤ} (h : n ∈ s.setKeyPool) : n < s.nEnd := by
  obtain ⟨m, hm⟩ := Finset.max_of_mem h
  have hle : n ≤ m := WithBot.coe_le_coe.mp (hm ▸ Finset.le_max h)
  show n < s.setKeyPool.max.unbotD 0 + 1
  rw [hm]
  exact Int.lt_add_one_of_le hle

theorem nEnd_notMem (s : KeyPool) : s.nEnd ∉ s.setKeyPool := fun h => lt_irrefl _ (lt_nEnd h)

theorem nEnd_addKey (g : KeyGen) (s : KeyPool) : (s.addKey g s.nEnd).nEnd = s.nEnd + 1 := by
  show (insert s.nEnd s.setKeyPool).max.unbotD 0 + 1 = s.nEnd + 1
  have hmax : (insert s.nEnd s.setKeyPool).max = (s.nEnd : WithBot ℤ) := by
    apply le_antisymm
    · apply Finset.max_le
      intro n hn
      rcases Finset.mem_insert.mp hn with rfl | hn
      · exact le_rfl
      · exact WithBot.coe_le_coe.mpr (lt_nEnd hn).le
    · exact Finset.le_max (Finset.mem_insert_self _ _)
  rw [hmax]
  rfl

/-- `nTargetSize + 1`, for the value of `-keypool`; both are `unsigned int`. -/
def targetSize (keypool : ℤ) : Nat := ((max keypool 0).toNat + 1) % 2 ^ 32

/-- The loop of `TopUpKeyPool` -/
def topUpLoop (g : KeyGen) (target : Nat) (s : KeyPool) : KeyPool :=
  if s.setKeyPool.card < target then topUpLoop g target (s.addKey g s.nEnd) else s
termination_by target - s.setKeyPool.card
decreasing_by
  have hcard : (s.addKey g s.nEnd).setKeyPool.card = s.setKeyPool.card + 1 :=
    Finset.card_insert_of_notMem s.nEnd_notMem
  omega

def topUpKeyPool (g : KeyGen) (keypool : ℤ) (s : KeyPool) : KeyPool :=
  if s.fLocked then s else topUpLoop g (targetSize keypool) s

/-- The start of `NewKeyPool`: `Mark old keypool keys as used` -/
def clearPool (s : KeyPool) : KeyPool :=
  { s with pool := fun n => if n ∈ s.setKeyPool then none else s.pool n, setKeyPool := ∅ }

def newKeyPool (g : KeyGen) (keypool : ℤ) (s : KeyPool) : KeyPool :=
  if s.fLocked then s.clearPool
  else (List.range (max keypool 0).toNat).foldl (fun s (i : Nat) => s.addKey g ((i : ℤ) + 1)) s.clearPool

/-! ## Taking keys out -/

/-- `ReserveKeyFromKeyPool`: `nIndex`, and the key or the exception -/
def reserveKeyFromKeyPool (g : KeyGen) (keypool : ℤ) (s : KeyPool) :
    (ℤ × Except Err Bytes) × KeyPool :=
  let s := s.topUpKeyPool g keypool
  match s.setKeyPool.min with
  | none => ((-1, .ok []), s)
  | some nIndex =>
      let s := { s with setKeyPool := s.setKeyPool.erase nIndex }
      match s.pool nIndex with
      | none => ((nIndex, .error (.exc "ReserveKeyFromKeyPool() : read failed")), s)
      | some key =>
          if key ∈ s.keys then ((nIndex, .ok key), s)
          else ((nIndex, .error (.exc "ReserveKeyFromKeyPool() : unknown key in key pool")), s)

/-- `CWallet::KeepKey` -/
def keepIndex (s : KeyPool) (nIndex : ℤ) : KeyPool :=
  if s.fFileBacked then { s with pool := s.pool.erase nIndex } else s

/-- `GetKeyFromPool`, for an address -/
def getKeyFromPool (g : KeyGen) (keypool : ℤ) (fAllowReuse : Bool) (s : KeyPool) : KeyPool :=
  match s.reserveKeyFromKeyPool g keypool with
  | ((_, .error _), s) => s
  | ((nIndex, .ok key), s) =>
      if nIndex = -1 then
        if fAllowReuse && !s.vchDefaultKey.isEmpty then s
        else if s.fLocked then s
        else
          let (key, s) := s.generateNewKey g
          { s with kept := key :: s.kept }
      else
        let s := s.keepIndex nIndex
        { s with kept := key :: s.kept }

/-! ## CReserveKey -/

def setReserveKey (s : KeyPool) (r : Nat) (k : CReserveKey) : KeyPool :=
  { s with reserveKeys := Function.update s.reserveKeys r k }

/-- `GetReservedKey`. Without a free key it hands out the default key and reserves nothing; if
`ReserveKeyFromKeyPool` throws, `nIndex` is set already. -/
def getReservedKey (g : KeyGen) (keypool : ℤ) (r : Nat) (s : KeyPool) : KeyPool :=
  if (s.reserveKeys r).nIndex = -1 then
    match s.reserveKeyFromKeyPool g keypool with
    | ((nIndex, .error _), s) => s.setReserveKey r { s.reserveKeys r with nIndex := nIndex }
    | ((nIndex, .ok key), s) =>
        s.setReserveKey r ⟨nIndex, if nIndex ≠ -1 then key else s.vchDefaultKey⟩
  else s

/-- `CReserveKey::KeepKey` -/
def keepKey (r : Nat) (s : KeyPool) : KeyPool :=
  let k := s.reserveKeys r
  let s := if k.nIndex ≠ -1 then { s.keepIndex k.nIndex with kept := k.vchPubKey :: s.kept } else s
  s.setReserveKey r {}

/-- `CReserveKey::ReturnKey` -/
def returnKey (r : Nat) (s : KeyPool) : KeyPool :=
  let k := s.reserveKeys r
  let s := if k.nIndex ≠ -1 then { s with setKeyPool := insert k.nIndex s.setKeyPool } else s
  s.setReserveKey r {}

end KeyPool

/-! ## Runs -/

inductive KeyPoolOp where
  | topUpKeyPool
  | newKeyPool
  | lock
  | unlock
  | getReservedKey (r : Nat)
  | keepKey (r : Nat)
  | returnKey (r : Nat)
  | getKeyFromPool (fAllowReuse : Bool)
  deriving DecidableEq, Repr

namespace KeyPool

def step (g : KeyGen) (keypool : ℤ) (s : KeyPool) : KeyPoolOp → KeyPool
  | .topUpKeyPool => s.topUpKeyPool g keypool
  | .newKeyPool => s.newKeyPool g keypool
  | .lock => { s with fLocked := true }
  | .unlock => { s with fLocked := false }
  | .getReservedKey r => s.getReservedKey g keypool r
  | .keepKey r => s.keepKey r
  | .returnKey r => s.returnKey r
  | .getKeyFromPool fAllowReuse => s.getKeyFromPool g keypool fAllowReuse

/-- The index is held by a reservation. -/
def Held (s : KeyPool) (n : ℤ) : Prop := n ≠ -1 ∧ ∃ r, (s.reserveKeys r).nIndex = n

/-- `TopUpKeyPool` would write a record under the index. -/
def TopsUp (keypool : ℤ) (s : KeyPool) (n : ℤ) : Prop :=
  s.fLocked = false ∧ s.nEnd ≤ n ∧ n < s.nEnd + (targetSize keypool - s.setKeyPool.card : Nat)

/-- The step would write a record under the index. -/
def Writes (keypool : ℤ) (s : KeyPool) (n : ℤ) : KeyPoolOp → Prop
  | .topUpKeyPool => s.TopsUp keypool n
  | .newKeyPool => s.fLocked = false ∧ 1 ≤ n ∧ n ≤ max keypool 0
  | .getReservedKey r => (s.reserveKeys r).nIndex = -1 ∧ s.TopsUp keypool n
  | .getKeyFromPool _ => s.TopsUp keypool n
  | _ => False

/-- No step of the run writes a record under an index that is reserved then. -/
def Cautious (g : KeyGen) (keypool : ℤ) : KeyPool → List KeyPoolOp → Prop
  | _, [] => True
  | s, op :: ops => (∀ n, s.Writes keypool n op → ¬ s.Held n) ∧
      Cautious g keypool (s.step g keypool op) ops

def run (g : KeyGen) (keypool : ℤ) (s : KeyPool) (ops : List KeyPoolOp) : KeyPool :=
  ops.foldl (step g keypool) s

/-- What is expected of the pool. -/
structure Safe (g : KeyGen) (keypool : ℤ) (s : KeyPool) : Prop where
  distinct : ∀ r r', (s.reserveKeys r).nIndex ≠ -1 →
    (s.reserveKeys r).nIndex = (s.reserveKeys r').nIndex → r = r'
  recorded : ∀ n ∈ s.setKeyPool, ∃ key, s.pool n = some key
  reserves : ∀ e, (s.reserveKeyFromKeyPool g keypool).1.2 ≠ .error e
  not_kept : ∀ r, (s.reserveKeys r).nIndex ≠ -1 → (s.reserveKeys r).vchPubKey ∉ s.kept
  kept_once : s.kept.Nodup

end KeyPool

end ShinyCoin

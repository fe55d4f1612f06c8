import ShinyCoin.Net.AddrTried

/-!
# Runs of the address manager

A run is a list of calls, each with its arguments, its times and its random numbers.
-/

namespace ShinyCoin

/-- A call of an operation of the address manager -/
inductive AddrManCall where
  | add (call : CAddrMan.AddCall)
  | good (rand : Nat → Nat) (addr : CService) (nTime : Int64)
  | attempt (addr : CService) (nTime : Int64)
  | connected (addr : CService) (nTime : Int64)
  | getAddr (rand : Nat → Nat) (vAddr : List CAddress)

namespace AddrManCall

/-- `Good_` is not called with the time 0. -/
def GoodTimed : AddrManCall → Prop
  | good _ _ nTime => nTime ≠ 0
  | _ => True

/-- `ok` holds of a time that the call leaves in an entry. -/
def WellTimed (ok : Int64 → Prop) : AddrManCall → Prop
  | good _ _ nTime => ok nTime
  | attempt _ nTime => ok nTime
  | _ => True

end AddrManCall

namespace CAddrMan

variable {env : NetEnv} {ok : Int64 → Prop} {am : CAddrMan} {off : Nat → ℤ}

/-- The tables after a call, unless it fails -/
def step (env : NetEnv) (am : CAddrMan) : AddrManCall → Option CAddrMan
  | .add call => (am.add env call).map Prod.snd
  | .good rand addr nTime => am.good env rand addr nTime
  | .attempt addr nTime => am.attempt addr nTime
  | .connected addr nTime => am.connected addr nTime
  | .getAddr rand vAddr => (am.getAddr rand vAddr).map Prod.snd

def run (env : NetEnv) (am : CAddrMan) (calls : List AddrManCall) : Option CAddrMan :=
  calls.foldlM (step env) am

namespace Valid

theorem empty (nKey : Bytes) : Valid env ok (fun _ => 0) { nKey := nKey } := by
  have hnone : ∀ nId : Nat, ({ nKey := nKey } : CAddrMan).mapInfo[nId]? = none :=
    fun _ => Std.ExtTreeMap.getElem?_empty
  have hfield : ∀ {β : Type} (f : CAddrInfo → β) (nId : Nat),
      ({ nKey := nKey } : CAddrMan).field f nId = none := by
    intro β f nId
    rw [field, hnone, Option.map_none]
  exact {
    ids := fun nId info hget => nomatch (hnone nId).symm.trans hget
    times := fun nId info hget => nomatch (hnone nId).symm.trans hget
    random := Lib.Positions.empty.congr fun nId => by rw [hfield]
    addr := Lib.Inverse.empty.congr fun nId => by rw [hfield]
    tried_info := fun nId info hget => nomatch (hnone nId).symm.trans hget
    new_info := fun nId info hget => nomatch (hnone nId).symm.trans hget
    tried := Lib.Placed.empty.congr fun nId => by rw [triedBucket, hnone, Option.bind_none]
    tried_nodup := fun _ => List.nodup_nil
    tried_le := fun _ => Nat.zero_le _
    refs := by
      intro nId
      rw [hfield]
      simp [newBuckets]
    new_le := fun _ => Nat.zero_le _
    nTried_eq := Lib.HasCount.empty fun nId => by simp [hfield]
    nNew_eq := Lib.HasCount.empty fun nId => by simp [hfield] }

/-- The entries in the random order are those of the two kinds. -/
theorem vRandom_length (h : am.Valid env ok off) : (am.vRandom.length : ℤ) = am.nTried + am.nNew := by
  obtain ⟨tried, htried, hnTried⟩ := h.nTried_eq
  obtain ⟨new, hnew, hnNew⟩ := h.nNew_eq
  have hdisjoint : Disjoint tried new := by
    rw [Finset.disjoint_left]
    intro x hx hx'
    have hboth := ((htried x).mp hx).symm.trans ((hnew x).mp hx')
    cases hboth
  have hall : am.vRandom.toFinset = tried ∪ new := by
    ext x
    rw [List.mem_toFinset, h.random.mem_iff, Finset.mem_union, htried, hnew]
    unfold field
    cases hget : am.mapInfo[x]? with
    | none => simp [hget]
    | some info => cases hin : info.fInTried <;> simp [hget, hin]
  rw [← List.toFinset_card_of_nodup h.random.nodup, hall, Finset.card_union_of_disjoint hdisjoint,
    Nat.cast_add, hnTried, hnNew]

theorem step (h : am.Valid env ok fun _ => 0) (hok : ok 0) (call : AddrManCall)
    (hgood : call.GoodTimed) (htimed : call.WellTimed ok) :
    ∃ am', am.step env call = some am' ∧ am'.Valid env ok fun _ => 0 := by
  cases call with
  | add call =>
      obtain ⟨r, am', hadd, hvalid⟩ := h.add hok call
      refine ⟨am', ?_, hvalid⟩
      show (am.add env call).map Prod.snd = _
      rw [hadd]
      rfl
  | good rand addr nTime => exact h.good rand addr htimed hgood
  | attempt addr nTime => exact h.attempt addr htimed
  | connected addr nTime => exact h.connected addr nTime
  | getAddr rand vAddr =>
      obtain ⟨out, hout, hvalid⟩ := h.getAddr rand vAddr
      refine ⟨out.2, ?_, hvalid⟩
      show (am.getAddr rand vAddr).map Prod.snd = _
      rw [hout]
      rfl

theorem run (h : am.Valid env ok fun _ => 0) (hok : ok 0) {calls : List AddrManCall}
    (hgood : ∀ call ∈ calls, call.GoodTimed) (htimed : ∀ call ∈ calls, call.WellTimed ok) :
    ∃ am', am.run env calls = some am' ∧ am'.Valid env ok fun _ => 0 :=
  Lib.foldlM_exists (fun am : CAddrMan => am.Valid env ok fun _ => 0)
    (fun _ call hcall hvalid => hvalid.step hok call (hgood call hcall) (htimed call hcall)) h

end Valid

/-- No assertion fails in a run from the empty tables, and what `Check_` checks holds after it. The
times in the entries are not negative if those in the calls are not. -/
theorem run_valid (env : NetEnv) (nKey : Bytes) (calls : List AddrManCall)
    (hgood : ∀ call ∈ calls, call.GoodTimed) :
    ∃ am, ({ nKey := nKey } : CAddrMan).run env calls = some am ∧
      am.Valid env (fun _ => True) (fun _ => 0) ∧
      (am.vRandom.length : ℤ) = am.nTried + am.nNew ∧
      ((∀ call ∈ calls, call.WellTimed fun nTime => 0 ≤ nTime.toInt) →
        am.Valid env (fun nTime => 0 ≤ nTime.toInt) fun _ => 0) := by
  have htimed : ∀ call : AddrManCall, call.WellTimed fun _ => True := by
    intro call
    cases call <;> exact trivial
  obtain ⟨am, hrun, hvalid⟩ := (Valid.empty nKey : Valid env (fun _ => True) _ _).run trivial hgood
    fun call _ => htimed call
  refine ⟨am, hrun, hvalid, hvalid.vRandom_length, ?_⟩
  intro hepoch
  obtain ⟨am', hrun', hvalid'⟩ := (Valid.empty nKey : Valid env (fun nTime => 0 ≤ nTime.toInt) _ _).run
    (by decide) hgood hepoch
  rw [hrun] at hrun'
  cases hrun'
  exact hvalid'

/-- One group and one bucket for all addresses -/
def oneGroup : NetEnv where
  isRoutable := fun _ => true
  getGroup := fun _ => []
  hash := fun _ => 0

def someAddr : CAddress where
  ip := Vector.replicate 16 1
  port := 8333
  nServices := 1
  nTime := 1000

def addSomeAddr : AddrManCall :=
  .add
    { addr := someAddr
      source := someAddr.toCNetAddr
      nTimePenalty := 0
      nAdjustedTime := 1000
      nNow := fun _ => 1000
      rand := fun _ => 0 }

theorem run_valid_good :
    ∃ am, ({ nKey := [] } : CAddrMan).run oneGroup
        [addSomeAddr, .good (fun _ => 0) someAddr.toCService 1000] = some am ∧
      am.Valid oneGroup (fun _ => True) (fun _ => 0) ∧
      (am.vRandom.length : ℤ) = am.nTried + am.nNew ∧
      ((∀ call ∈ [addSomeAddr, .good (fun _ => 0) someAddr.toCService 1000],
          call.WellTimed fun nTime => 0 ≤ nTime.toInt) →
        am.Valid oneGroup (fun nTime => 0 ≤ nTime.toInt) fun _ => 0) :=
  run_valid oneGroup [] _ (by simp [addSomeAddr, AddrManCall.GoodTimed])

/-- A try at a time before 1970 -/
theorem not_run_notNegative :
    ¬ ∀ (env : NetEnv) (nKey : Bytes) (calls : List AddrManCall),
      (∀ call ∈ calls, call.GoodTimed) →
        ∃ am, ({ nKey := nKey } : CAddrMan).run env calls = some am ∧
          am.Valid env (fun nTime => 0 ≤ nTime.toInt) fun _ => 0 := by
  intro hall
  obtain ⟨am, hrun, hvalid⟩ := hall oneGroup [] [addSomeAddr, .attempt someAddr.toCService (-1)]
    (by simp [addSomeAddr, AddrManCall.GoodTimed])
  have hentry : (({ nKey := [] } : CAddrMan).run oneGroup
      [addSomeAddr, .attempt someAddr.toCService (-1)]).bind (fun am => am.mapInfo[0]?.map fun info =>
        info.nLastTry) = some (-1 : Int64) := by
    decide
  rw [hrun, Option.bind_some] at hentry
  obtain ⟨info, hget, htry⟩ := Option.map_eq_some_iff.mp hentry
  have := (hvalid.times 0 info hget).1
  rw [htry] at this
  exact absurd this (by decide)

end CAddrMan

end ShinyCoin

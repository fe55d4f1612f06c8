import ShinyCoin.Net.AddrRun
import ShinyCoin.Lib.Shuffle

/-!
# The entry that is evicted

`SelectTried` draws up to four entries of a bucket, remembers of each draw the position it was drawn
from, and returns the one of the least recently successful entry. By then the entry has moved: the
round swapped it to its own place at the front, and at the remembered position is what was at the
front before. So the position is the right one only when the round drew its own place, or the place
of another round that inspects an entry just as old.

An entry is inspected in each round, and the inspected entries are those that are at the front of
the bucket after the call.
-/

namespace ShinyCoin

namespace CAddrMan

/-! ## What is inspected -/

/-- `nPos` in the round `i`, for a bucket of `size` entries -/
def drawnPos (rand : Nat → Nat) (size i : Nat) : Nat := getRandInt (rand i) (size - i) + i

/-- How many rounds there are. -/
def inspectRounds (size : Nat) : Nat := min ADDRMAN_TRIED_ENTRIES_INSPECT_ON_EVICT size

/-- The entry that the round `i` draws, by its place in the bucket before the call. -/
def inspected (rand : Nat → Nat) (vTried : List Nat) (i : Nat) : Option Nat :=
  vTried[Lib.origin (drawnPos rand vTried.length) i (drawnPos rand vTried.length i)]?

def inspectedEntries (rand : Nat → Nat) (vTried : List Nat) : List Nat :=
  (List.range (inspectRounds vTried.length)).filterMap (inspected rand vTried)

/-- `mapInfo[nId].nLastSuccess` -/
def lastSuccess (am : CAddrMan) (nId : Nat) : ℤ :=
  ((am.mapInfo[nId]?).map fun info => info.nLastSuccess.toInt).getD 0

/-- When the entry that the round `i` draws was last successful. -/
def inspectedSuccess (am : CAddrMan) (rand : Nat → Nat) (vTried : List Nat) (i : Nat) : ℤ :=
  ((inspected rand vTried i).map am.lastSuccess).getD 0

/-- An inspected entry, and none of them was successful less recently. -/
def OldestInspected (am : CAddrMan) (rand : Nat → Nat) (vTried : List Nat) (nId : Nat) : Prop :=
  nId ∈ inspectedEntries rand vTried ∧
    ∀ x ∈ inspectedEntries rand vTried, am.lastSuccess nId ≤ am.lastSuccess x

/-- The first round to draw a least recently successful entry draws it from the place of a round
that draws an entry just as old. Its own place is one. -/
def DrawnInPlace (am : CAddrMan) (rand : Nat → Nat) (vTried : List Nat) : Prop :=
  ∃ m, Lib.FirstLeast (am.inspectedSuccess rand vTried) (inspectRounds vTried.length) m ∧
    drawnPos rand vTried.length m < inspectRounds vTried.length ∧
    am.inspectedSuccess rand vTried (drawnPos rand vTried.length m)
      = am.inspectedSuccess rand vTried m

section

variable {am : CAddrMan} {rand : Nat → Nat} {vTried : List Nat} {i k x y : Nat}

theorem le_drawnPos (rand : Nat → Nat) (size i : Nat) : i ≤ drawnPos rand size i :=
  Nat.le_add_left i _

theorem drawnPos_lt (rand : Nat → Nat) {size : Nat} (hi : i < size) : drawnPos rand size i < size := by
  rw [drawnPos, getRandInt, if_neg (by omega)]
  have := Nat.mod_lt (rand i) (show size - i > 0 by omega)
  omega

theorem origin_lt {size : Nat} (hi : i ≤ size) (hx : x < size) :
    Lib.origin (drawnPos rand size) i x < size := by
  induction i generalizing x with
  | zero => exact hx
  | succ i ih =>
      apply ih (by omega)
      rw [Equiv.swap_apply_def]
      split
      · exact drawnPos_lt rand (by omega)
      · split <;> omega

theorem exists_inspected (rand : Nat → Nat) (hi : i < vTried.length) :
    ∃ x, inspected rand vTried i = some x :=
  ⟨_, List.getElem?_eq_getElem (origin_lt hi.le (drawnPos_lt rand hi))⟩

theorem inspected_mem (h : inspected rand vTried i = some x) : x ∈ vTried :=
  List.mem_of_getElem? h

theorem mem_inspectedEntries :
    x ∈ inspectedEntries rand vTried ↔
      ∃ i < inspectRounds vTried.length, inspected rand vTried i = some x := by
  simp [inspectedEntries, List.mem_filterMap]

theorem inspectedSuccess_eq (h : inspected rand vTried i = some x) :
    am.inspectedSuccess rand vTried i = am.lastSuccess x := by
  rw [inspectedSuccess, h]
  rfl

theorem lastSuccess_eq {info : CAddrInfo} (h : am.mapInfo[x]? = some info) :
    am.lastSuccess x = info.nLastSuccess.toInt := by
  rw [lastSuccess, h]
  rfl

/-! ## The loop -/

/-- After `i` rounds: the bucket is shuffled, and what is kept is the first of the least recently
successful entries drawn so far, with the position it was drawn from. -/
structure Inspecting (am : CAddrMan) (rand : Nat → Nat) (vTried : List Nat) (i : Nat)
    (sel : Selection) : Prop where
  length : sel.vTried.length = vTried.length
  shuffled : Lib.Shuffled (drawnPos rand vTried.length) vTried i sel.vTried
  start : i = 0 → sel.nOldest = none ∧ sel.nOldestPos = none
  oldest : 0 < i → ∃ m, Lib.FirstLeast (am.inspectedSuccess rand vTried) i m ∧
    sel.nOldest = inspected rand vTried m ∧
    sel.nOldestPos = some (drawnPos rand vTried.length m)

theorem Inspecting.step {sel : Selection} (h : am.Inspecting rand vTried i sel)
    (hknown : ∀ x ∈ vTried, ∃ info, am.mapInfo[x]? = some info) (hi : i < vTried.length) :
    ∃ sel', am.selectStep rand sel i = some sel' ∧ am.Inspecting rand vTried (i + 1) sel' := by
  obtain ⟨nTemp, hdrawn⟩ := exists_inspected rand hi
  have hpos : sel.vTried[drawnPos rand vTried.length i]? = some nTemp := by
    rw [h.shuffled]
    exact hdrawn
  obtain ⟨front, hfront⟩ : ∃ y, sel.vTried[i]? = some y :=
    ⟨_, List.getElem?_eq_getElem (by rw [h.length]; exact hi)⟩
  obtain ⟨info, hget⟩ := hknown nTemp (inspected_mem hdrawn)
  have hlength : ((sel.vTried.set (drawnPos rand vTried.length i) front).set i nTemp).length
      = vTried.length := by
    rw [List.length_set, List.length_set, h.length]
  have hshuffled := h.shuffled.step hfront hpos
  unfold selectStep
  dsimp only
  rw [h.length]
  change ∃ sel', (sel.vTried[drawnPos rand vTried.length i]?.bind _) = some sel' ∧ _
  rw [hpos, Option.bind_some, hfront, Option.bind_some]
  rcases Nat.eq_zero_or_pos i with rfl | hpos'
  · rw [(h.start rfl).1]
    refine ⟨_, rfl, hlength, hshuffled, fun h0 => absurd h0 (Nat.succ_ne_zero 0), fun _ => ?_⟩
    exact ⟨0, Lib.FirstLeast.one _, hdrawn.symm, rfl⟩
  · obtain ⟨m, hleast, hold, hat⟩ := h.oldest hpos'
    obtain ⟨nOldest, hm⟩ := exists_inspected rand (hleast.lt.trans hi)
    obtain ⟨infoOldest, hgetOld⟩ := hknown nOldest (inspected_mem hm)
    rw [hold, hm]
    dsimp only
    rw [hget, Option.bind_some, hgetOld, Option.map_some]
    refine ⟨_, rfl, ?_⟩
    have hnext := hleast.step
    have hcompare : info.nLastSuccess < infoOldest.nLastSuccess ↔
        am.inspectedSuccess rand vTried i < am.inspectedSuccess rand vTried m := by
      rw [inspectedSuccess_eq hdrawn, inspectedSuccess_eq hm, lastSuccess_eq hget,
        lastSuccess_eq hgetOld, Int64.lt_iff_toInt_lt]
    split
    next hlt =>
      rw [if_pos (hcompare.mp hlt)] at hnext
      exact ⟨hlength, hshuffled, fun h0 => absurd h0 (Nat.succ_ne_zero i),
        fun _ => ⟨i, hnext, hdrawn.symm, rfl⟩⟩
    next hge =>
      rw [if_neg (mt hcompare.mpr hge)] at hnext
      exact ⟨hlength, hshuffled, fun h0 => absurd h0 (Nat.succ_ne_zero i),
        fun _ => ⟨m, hnext, hm.symm, hat⟩⟩

theorem inspecting_run (rand : Nat → Nat) (hknown : ∀ x ∈ vTried, ∃ info, am.mapInfo[x]? = some info)
    (hk : k ≤ vTried.length) :
    ∃ sel, (List.range k).foldlM (am.selectStep rand) { vTried := vTried } = some sel ∧
      am.Inspecting rand vTried k sel := by
  induction k with
  | zero =>
      exact ⟨_, rfl, rfl, Lib.shuffled_zero _ _, fun _ => ⟨rfl, rfl⟩,
        fun h => absurd h (Nat.lt_irrefl 0)⟩
  | succ k ih =>
      obtain ⟨sel, hloop, hsel⟩ := ih (by omega)
      obtain ⟨sel', hstep, hsel'⟩ := hsel.step hknown hk
      refine ⟨sel', ?_, hsel'⟩
      rw [List.range_succ, List.foldlM_append, hloop]
      simpa using hstep

/-! ## The entry at the position -/

/-- What the rounds drew is at the front. -/
theorem Inspecting.take {sel : Selection}
    (h : am.Inspecting rand vTried (inspectRounds vTried.length) sel) :
    sel.vTried.take (inspectRounds vTried.length) = inspectedEntries rand vTried := by
  rw [inspectedEntries]
  apply Lib.take_eq_filterMap
  intro i hi
  rw [h.shuffled, Lib.origin_drawn (fun j _ => le_drawnPos rand _ j) hi, inspected]

/-- The entry at the remembered position is the right one exactly when it was drawn in place. -/
theorem Inspecting.oldest_iff {sel : Selection}
    (h : am.Inspecting rand vTried (inspectRounds vTried.length) sel) (hnodup : vTried.Nodup)
    (hne : vTried ≠ []) :
    ∃ p x, sel.nOldestPos = some p ∧ sel.vTried[p]? = some x ∧
      (am.OldestInspected rand vTried x ↔ am.DrawnInPlace rand vTried) := by
  have hk : inspectRounds vTried.length ≤ vTried.length := Nat.min_le_right _ _
  have hpos : 0 < inspectRounds vTried.length :=
    Nat.lt_min.mpr ⟨by decide, List.length_pos_iff.mpr hne⟩
  obtain ⟨m, hleast, -, hat⟩ := h.oldest hpos
  have hplace := drawnPos_lt rand (hleast.lt.trans_le hk)
  obtain ⟨x, hx⟩ : ∃ x, sel.vTried[drawnPos rand vTried.length m]? = some x :=
    ⟨_, List.getElem?_eq_getElem (by rw [h.length]; exact hplace)⟩
  refine ⟨_, x, hat, hx, ?_, ?_⟩
  · -- an inspected entry is only at the place of its round
    rintro ⟨hmem, hold⟩
    obtain ⟨i, hi, hdrawn⟩ := mem_inspectedEntries.mp hmem
    have hm : drawnPos rand vTried.length m = i :=
      h.shuffled.drawn_unique hnodup (fun j _ => le_drawnPos rand _ j) hi hx hdrawn
    obtain ⟨y, hy⟩ := exists_inspected rand (hleast.lt.trans_le hk)
    refine ⟨m, hleast, hm ▸ hi, le_antisymm ?_ (hleast.least _ (hm ▸ hi))⟩
    rw [hm, inspectedSuccess_eq hdrawn, inspectedSuccess_eq hy]
    exact hold y (mem_inspectedEntries.mpr ⟨m, hleast.lt, hy⟩)
  · rintro ⟨m', hleast', hlt, heq⟩
    obtain rfl := hleast.unique hleast'
    have hdrawn : inspected rand vTried (drawnPos rand vTried.length m) = some x := by
      rw [h.shuffled, Lib.origin_drawn (fun j _ => le_drawnPos rand _ j) hlt] at hx
      exact hx
    refine ⟨mem_inspectedEntries.mpr ⟨_, hlt, hdrawn⟩, fun y hy => ?_⟩
    obtain ⟨i, hi, hy⟩ := mem_inspectedEntries.mp hy
    rw [← inspectedSuccess_eq hdrawn, ← inspectedSuccess_eq hy, heq]
    exact hleast.least i hi

end

/-! ## The calls -/

section

variable {am : CAddrMan} {b : TriedBucket}

/-- `SelectTried` on a bucket that is not empty: a position, the bucket shuffled, and which entry is
at the position. -/
theorem selectTried_oldest (rand : Nat → Nat) (hnodup : (am.vvTried b).Nodup)
    (hknown : ∀ x ∈ am.vvTried b, ∃ info, am.mapInfo[x]? = some info) (hne : am.vvTried b ≠ []) :
    ∃ p vTried x, am.selectTried rand b
        = some (some p, { am with vvTried := Function.update am.vvTried b vTried }) ∧
      vTried.Perm (am.vvTried b) ∧
      vTried.take (inspectRounds (am.vvTried b).length) = inspectedEntries rand (am.vvTried b) ∧
      vTried[p]? = some x ∧
      (am.OldestInspected rand (am.vvTried b) x ↔ am.DrawnInPlace rand (am.vvTried b)) := by
  obtain ⟨p, vTried, hselect, hperm, -⟩ := selectTried_eq rand hknown hne
  obtain ⟨sel, hloop, hsel⟩ := inspecting_run rand hknown
    (Nat.min_le_right ADDRMAN_TRIED_ENTRIES_INSPECT_ON_EVICT (am.vvTried b).length)
  obtain ⟨p', x, hp', hx, hiff⟩ := hsel.oldest_iff hnodup hne
  have hsame := hselect
  rw [selectTried, hloop, Option.map_some, hp', Option.some.injEq, Prod.mk.injEq] at hsame
  obtain ⟨hp, ham⟩ := hsame
  obtain rfl : p' = p := Option.some.inj hp
  have hlist : sel.vTried = vTried := by
    have hb := congrFun (congrArg CAddrMan.vvTried ham) b
    simpa using hb
  subst hlist
  exact ⟨p', sel.vTried, x, hselect, hperm, hsel.take, hx, hiff⟩

theorem oldestInspected_congr {am' : CAddrMan} (h : am'.lastSuccess = am.lastSuccess)
    (rand : Nat → Nat) (vTried : List Nat) (x : Nat) :
    am'.OldestInspected rand vTried x ↔ am.OldestInspected rand vTried x := by
  rw [OldestInspected, OldestInspected, h]

theorem drawnInPlace_congr {am' : CAddrMan} (h : am'.lastSuccess = am.lastSuccess)
    (rand : Nat → Nat) (vTried : List Nat) :
    am'.DrawnInPlace rand vTried ↔ am.DrawnInPlace rand vTried := by
  have hs : am'.inspectedSuccess rand vTried = am.inspectedSuccess rand vTried := by
    funext i
    rw [inspectedSuccess, inspectedSuccess, h]
  rw [DrawnInPlace, DrawnInPlace, hs]

/-- What `MakeTried` does to the tables before it looks at the tried bucket. -/
theorem lastSuccess_insert {nId : Nat} {info : CAddrInfo} (hget : am.mapInfo[nId]? = some info)
    (vvNew : NewBucket → Finset Nat) (nNew nRefCount : ℤ) :
    lastSuccess { am with
      mapInfo := am.mapInfo.insert nId { info with nRefCount := nRefCount }
      vvNew := vvNew
      nNew := nNew } = am.lastSuccess := by
  funext x
  rw [lastSuccess, lastSuccess, Lib.getElem?_insert]
  split
  next hx =>
    subst hx
    rw [hget]
    rfl
  next => rfl

/-- `MakeTried` into a full bucket: one entry goes back to a new bucket, and the new entry takes its
place in the shuffled bucket. -/
theorem makeTried_oldest {env : NetEnv} {ok : Int64 → Prop} {nId : Nat} {info : CAddrInfo}
    {nOrigin : NewBucket} (h : am.Valid env ok fun _ => 0) (rand : Nat → Nat)
    (hget : am.mapInfo[nId]? = some info) (hin : info.fInTried = false)
    (hmem : nId ∈ am.vvNew nOrigin) (hb : info.getTriedBucket env am.nKey = b)
    (hfull : (am.vvTried b).length = ADDRMAN_TRIED_BUCKET_SIZE) :
    ∃ am' x, am.makeTried env rand nId nOrigin = some am' ∧
      x ∈ am.vvTried b ∧ (am'.vvTried b).Perm (nId :: (am.vvTried b).erase x) ∧
      (∃ nBack, x ∈ am'.vvNew nBack) ∧ am'.field (fun info => info.fInTried) x = some false ∧
      (am.OldestInspected rand (am.vvTried b) x ↔ am.DrawnInPlace rand (am.vvTried b)) := by
  have hnot := h.notMem_tried hget hin b
  have hne : am.vvTried b ≠ [] := by
    intro hnil
    rw [hnil] at hfull
    exact absurd hfull (by decide)
  have hget₁ : (am.mapInfo.insert nId { info with nRefCount := 0 })[nId]?
      = some { info with nRefCount := 0 } := by
    rw [Lib.getElem?_insert, if_pos rfl]
  have hbucket : CAddrInfo.getTriedBucket env am.nKey { info with nRefCount := 0 } = b :=
    (CAddrInfo.getTriedBucket_congr env am.nKey rfl).trans hb
  have hknown : ∀ x ∈ am.vvTried b,
      x ≠ nId ∧ ∃ y, (am.mapInfo.insert nId { info with nRefCount := 0 })[x]? = some y := by
    intro x hx
    obtain ⟨y, hy, -⟩ := h.exists_of_mem_tried hx
    have hxne : x ≠ nId := ne_of_mem_of_not_mem hx hnot
    exact ⟨hxne, y, by rw [Lib.getElem?_insert, if_neg hxne, hy]⟩
  have hlast := lastSuccess_insert hget (fun b => (am.vvNew b).erase nId) (am.nNew - 1) 0
  obtain ⟨p, vTried, x, hselect, hperm, -, hx, hiff⟩ := @selectTried_oldest
    { am with
      mapInfo := am.mapInfo.insert nId { info with nRefCount := 0 }
      vvNew := fun b => (am.vvNew b).erase nId
      nNew := am.nNew - 1 } b rand (h.tried_nodup b) (fun y hy => (hknown y hy).2) hne
  have hmemOld : x ∈ am.vvTried b := hperm.mem_iff.mp (List.mem_of_getElem? hx)
  obtain ⟨hxne, infoOld, hgetOld⟩ := hknown x hmemOld
  rw [oldestInspected_congr hlast, drawnInPlace_congr hlast] at hiff
  have hgetNew : ((am.mapInfo.insert nId { info with nRefCount := 0 }).insert x
      { infoOld with fInTried := false, nRefCount := 1 })[nId]? = some { info with nRefCount := 0 } := by
    rw [Lib.getElem?_insert, if_neg (Ne.symm hxne), hget₁]
  rw [CAddrMan.makeTried, if_neg (not_not.mpr hmem), h.removeFromAllNew_eq hget, Option.bind_some]
  dsimp only
  rw [hget₁, Option.bind_some, if_neg (not_not.mpr rfl), hbucket, if_neg (by omega), hselect,
    Option.bind_some]
  dsimp only
  rw [Option.bind_some, evictTried]
  dsimp only
  rw [Function.update_self, hx, Option.bind_some, hgetOld, Option.map_some, Option.bind_some]
  generalize (if ((am.vvNew (infoOld.getNewBucket env am.nKey)).erase nId).card
    < ADDRMAN_NEW_BUCKET_SIZE then infoOld.getNewBucket env am.nKey else nOrigin) = nBack
  rw [Valid.updateInfo_eq _ hgetNew]
  refine ⟨_, x, rfl, hmemOld, ?_, ⟨nBack, ?_⟩, ?_, hiff⟩
  · dsimp only
    rw [Function.update_self]
    have hset := cons_set_perm hx nId
    have hrest : (nId :: vTried).Perm (nId :: x :: (am.vvTried b).erase x) :=
      (hperm.trans (List.perm_cons_erase hmemOld)).cons nId
    exact ((hset.trans hrest).trans (List.Perm.swap _ _ _)).cons_inv
  · dsimp only
    rw [Function.update_self]
    exact Finset.mem_insert_self _ _
  · rw [field]
    dsimp only
    rw [Lib.getElem?_insert, if_neg hxne, Lib.getElem?_insert, if_pos rfl]
    rfl

end

/-- Whatever the bucket, the times and the draws, `SelectTried` returns a position of the bucket and
only shuffles it, with the inspected entries in front; and the entry at the position is the least
recently successful of them exactly when it was drawn in place. That entry is the one `MakeTried`
evicts from a full bucket. -/
theorem evicts_oldest_iff (am : CAddrMan) (b : TriedBucket) (rand : Nat → Nat)
    (hnodup : (am.vvTried b).Nodup)
    (hknown : ∀ x ∈ am.vvTried b, ∃ info, am.mapInfo[x]? = some info) :
    (∃ nPos vTried, am.selectTried rand b
        = some (nPos, { am with vvTried := Function.update am.vvTried b vTried }) ∧
      vTried.Perm (am.vvTried b) ∧
      vTried.take (inspectRounds (am.vvTried b).length) = inspectedEntries rand (am.vvTried b) ∧
      ((∃ p x, nPos = some p ∧ vTried[p]? = some x ∧ am.OldestInspected rand (am.vvTried b) x) ↔
        am.DrawnInPlace rand (am.vvTried b))) ∧
      ∀ env ok nId info nOrigin, am.Valid env ok (fun _ => 0) →
        am.mapInfo[nId]? = some info → info.fInTried = false → nId ∈ am.vvNew nOrigin →
        info.getTriedBucket env am.nKey = b →
        (am.vvTried b).length = ADDRMAN_TRIED_BUCKET_SIZE →
        ∃ am' x, am.makeTried env rand nId nOrigin = some am' ∧
          x ∈ am.vvTried b ∧ (am'.vvTried b).Perm (nId :: (am.vvTried b).erase x) ∧
          (∃ nBack, x ∈ am'.vvNew nBack) ∧ am'.field (fun info => info.fInTried) x = some false ∧
          (am.OldestInspected rand (am.vvTried b) x ↔ am.DrawnInPlace rand (am.vvTried b)) := by
  refine ⟨?_, fun env ok nId info nOrigin h => makeTried_oldest h rand⟩
  by_cases hne : am.vvTried b = []
  · -- nothing is inspected, and the position is -1
    refine ⟨none, [], ?_, by rw [hne], by simp [inspectedEntries, inspectRounds, hne], ?_⟩
    · simp [selectTried, hne]
    · rw [hne]
      constructor
      · rintro ⟨p, x, hp, -⟩
        cases hp
      · rintro ⟨m, hleast, -⟩
        exact absurd hleast.lt (Nat.not_lt_zero m)
  · obtain ⟨p, vTried, x, hselect, hperm, htake, hx, hiff⟩ :=
      selectTried_oldest rand hnodup hknown hne
    refine ⟨some p, vTried, hselect, hperm, htake, ?_⟩
    rw [← hiff]
    constructor
    · rintro ⟨p', x', hp, hx', hold⟩
      cases hp
      cases hx.symm.trans hx'
      exact hold
    · intro hold
      exact ⟨p, x, rfl, hx, hold⟩

/-- A tried entry with this last success -/
def triedInfo (nLastSuccess : Int64) : CAddrInfo :=
  { CAddrInfo.new someAddr someAddr.toCNetAddr with
    nLastSuccess := nLastSuccess
    fInTried := true }

def firstBucket : TriedBucket := ⟨0, by decide⟩

/-- A full tried bucket; the last entry is the least recently successful. -/
def fullManager : CAddrMan where
  nKey := []
  mapInfo := (List.range 64).foldl
    (fun m nId => m.insert nId (triedInfo (if nId = 63 then 1 else 2))) ∅
  vvTried := Function.update (fun _ => []) firstBucket (List.range 64)

/-- The first round draws the last entry, the others what is at their place. -/
def lastFirst (i : Nat) : Nat := if i = 0 then 63 else 0

/-- The draw is not in place: the position returned is the last one, and what is there by then is
the first entry of the bucket, which was not inspected. -/
theorem evicts_uninspected :
    ∃ am', fullManager.selectTried lastFirst firstBucket = some (some 63, am') ∧
      (am'.vvTried firstBucket)[63]? = some 0 ∧
      ¬ fullManager.OldestInspected lastFirst (fullManager.vvTried firstBucket) 0 := by
  have hselect : (fullManager.selectTried lastFirst firstBucket).map
      (fun r => (r.1, (r.2.vvTried firstBucket)[63]?)) = some (some 63, some 0) := by
    decide +kernel
  obtain ⟨⟨nPos, am'⟩, hrun, heq⟩ := Option.map_eq_some_iff.mp hselect
  rw [Prod.mk.injEq] at heq
  obtain ⟨rfl, hentry⟩ := heq
  refine ⟨am', hrun, hentry, ?_⟩
  rintro ⟨hmem, -⟩
  have hinspected : inspectedEntries lastFirst (fullManager.vvTried firstBucket) = [63, 1, 2, 3] := by
    decide +kernel
  rw [hinspected] at hmem
  exact absurd hmem (by decide)

/-- Each round draws what is at its place, and the entries are equally old. -/
theorem evicts_oldest_fullManager :
    ∃ nPos vTried, fullManager.selectTried (fun _ => 0) firstBucket
        = some (nPos, { fullManager with
            vvTried := Function.update fullManager.vvTried firstBucket vTried }) ∧
      ∃ p x, nPos = some p ∧ vTried[p]? = some x ∧
        fullManager.OldestInspected (fun _ => 0) (fullManager.vvTried firstBucket) x := by
  have hknown : ∀ x ∈ fullManager.vvTried firstBucket, ∃ info, fullManager.mapInfo[x]? = some info := by
    have hall : (fullManager.vvTried firstBucket).all
        (fun x => (fullManager.mapInfo[x]?).isSome) = true := by decide +kernel
    intro x hx
    exact Option.isSome_iff_exists.mp (List.all_eq_true.mp hall x hx)
  obtain ⟨⟨nPos, vTried, hselect, -, -, hiff⟩, -⟩ := evicts_oldest_iff fullManager firstBucket
    (fun _ => 0) (show (List.range 64).Nodup from List.nodup_range) hknown
  refine ⟨nPos, vTried, hselect, hiff.mpr ⟨0, ?_, by decide, rfl⟩⟩
  have hsuccess : ∀ i < 4, fullManager.inspectedSuccess (fun _ => 0)
      (fullManager.vvTried firstBucket) i = 2 := by
    decide +kernel
  have hzero := hsuccess 0 (by decide)
  refine ⟨by decide, fun j hj => ?_, fun j hj => absurd hj (Nat.not_lt_zero j)⟩
  rw [hzero, hsuccess j hj]

end CAddrMan

end ShinyCoin

import ShinyCoin.Net.AddrValid

/-!
# The address manager under other ids

The ids say nothing. With other ids, in another random order and without the times of the last try
the tables hold the same, and what holds of them is kept.
-/

namespace ShinyCoin

/-- An entry without the time of the last try, which is in memory only, and its position -/
def CAddrInfo.stored (info : CAddrInfo) : CAddrInfo := { info with nLastTry := 0, nRandomPos := 0 }

namespace CAddrMan

variable {env : NetEnv} {ok : Int64 → Prop} {am am' : CAddrMan} {ids : List Nat} {nId x : Nat}
  {info : CAddrInfo}

/-- `x` in `am'` is what `ids[x]` is in `am`, and nothing is lost. -/
structure Renamed (ids : List Nat) (am am' : CAddrMan) : Prop where
  nKey : am'.nKey = am.nKey
  nNew : am'.nNew = am.nNew
  nTried : am'.nTried = am.nTried
  nodup : ids.Nodup
  mem : ∀ nId, nId ∈ ids ↔ ∃ info, am.mapInfo[nId]? = some info
  info : ∀ x, am'.field CAddrInfo.stored x = ids[x]?.bind (am.field CAddrInfo.stored)
  new : ∀ b x, x ∈ am'.vvNew b ↔ ∃ nId ∈ am.vvNew b, ids[x]? = some nId
  tried : ∀ b, ((am'.vvTried b).map fun x => ids[x]?).Perm ((am.vvTried b).map some)

namespace Renamed

theorem field_eq (h : Renamed ids am am') {β : Type} (f : CAddrInfo → β)
    (hf : ∀ info : CAddrInfo, f info.stored = f info) (x : Nat) :
    am'.field f x = ids[x]?.bind (am.field f) := by
  have hstored : ∀ (am : CAddrMan) (x : Nat), am.field f x = (am.field CAddrInfo.stored x).map f := by
    intro am x
    unfold field
    rw [Option.map_map]
    congr 1
    funext info
    exact (hf info).symm
  rw [hstored, h.info]
  cases ids[x]? with
  | none => rfl
  | some nId => exact (hstored am nId).symm

/-- Every entry is one of the old ones. -/
theorem exists_info (h : Renamed ids am am') {info' : CAddrInfo} (hget : am'.mapInfo[x]? = some info') :
    ∃ nId info, ids[x]? = some nId ∧ am.mapInfo[nId]? = some info ∧ info'.stored = info.stored := by
  have hinfo := h.info x
  rw [CAddrMan.field_eq hget] at hinfo
  obtain ⟨nId, hid, hinfo⟩ := Option.bind_eq_some_iff.mp hinfo.symm
  obtain ⟨info, hinfo', hstored⟩ := Option.map_eq_some_iff.mp hinfo
  exact ⟨nId, info, hid, hinfo', hstored.symm⟩

theorem mem_tried (h : Renamed ids am am') (b : TriedBucket) (x : Nat) :
    x ∈ am'.vvTried b ↔ ∃ nId ∈ am.vvTried b, ids[x]? = some nId := by
  constructor
  · intro hx
    have hmem : ids[x]? ∈ (am.vvTried b).map some :=
      (h.tried b).mem_iff.mp (List.mem_map_of_mem hx)
    obtain ⟨nId, hnId, hsome⟩ := List.mem_map.mp hmem
    exact ⟨nId, hnId, hsome.symm⟩
  · rintro ⟨nId, hnId, hid⟩
    have hmem : some nId ∈ (am'.vvTried b).map fun x => ids[x]? :=
      (h.tried b).mem_iff.mpr (List.mem_map_of_mem hnId)
    obtain ⟨x', hx', hid'⟩ := List.mem_map.mp hmem
    have hpos := ((Lib.getElem?_eq_some_iff_idxOf h.nodup).mp hid).2
    have hpos' := ((Lib.getElem?_eq_some_iff_idxOf h.nodup).mp hid').2
    rwa [← hpos, hpos']

theorem newBuckets_eq (h : Renamed ids am am') (x : Nat) :
    am'.newBuckets x = (ids[x]?.map am.newBuckets).getD ∅ := by
  ext b
  rw [mem_newBuckets, h.new]
  cases hid : ids[x]? with
  | none => simp
  | some nId => simp [mem_newBuckets]

theorem triedBucket_eq (h : Renamed ids am am') (x : Nat) :
    am'.triedBucket env x = ids[x]?.bind (am.triedBucket env) := by
  have hbucket : ∀ (am : CAddrMan) (x : Nat), am.triedBucket env x
      = (am.field (fun info => if info.fInTried then some (info.getTriedBucket env am.nKey) else none) x).join := by
    intro am x
    unfold triedBucket field
    cases am.mapInfo[x]? <;> rfl
  rw [hbucket, h.nKey, h.field_eq]
  · cases ids[x]? with
    | none => rfl
    | some nId => exact (hbucket am nId).symm
  · intro info
    rfl

/-- What holds of the tables is kept, if the indexes are right and the times of the last try are. -/
theorem valid (hr : Renamed ids am am') (h : am.Valid env ok fun _ => 0)
    (hlast : ∀ (x : Nat) (info : CAddrInfo), am'.mapInfo[x]? = some info → ok info.nLastTry)
    (hrandom : Lib.Positions am'.vRandom (am'.field fun info => info.nRandomPos))
    (haddr : Lib.Inverse am'.mapAddr (am'.field fun info => info.toCNetAddr))
    (hcount : ids.length ≤ am'.nIdCount) : am'.Valid env ok fun _ => 0 where
  ids := by
    intro x info hget
    obtain ⟨nId, -, hid, -⟩ := hr.exists_info hget
    exact (List.getElem?_eq_some_iff.mp hid).1.trans_le hcount
  times := by
    intro x info hget
    obtain ⟨nId, old, hid, hold, hstored⟩ := hr.exists_info hget
    refine ⟨hlast x info hget, ?_⟩
    have hsuccess : info.nLastSuccess = old.nLastSuccess := congrArg (fun i => i.nLastSuccess) hstored
    rw [hsuccess]
    exact (h.times nId old hold).2
  random := hrandom
  addr := haddr
  tried_info := by
    intro x info hget hin
    obtain ⟨nId, old, hid, hold, hstored⟩ := hr.exists_info hget
    have hsuccess : info.nLastSuccess = old.nLastSuccess := congrArg (fun i => i.nLastSuccess) hstored
    have hrefs : info.nRefCount = old.nRefCount := congrArg (fun i => i.nRefCount) hstored
    have htried : info.fInTried = old.fInTried := congrArg (fun i => i.fInTried) hstored
    rw [hsuccess, hrefs]
    exact h.tried_info nId old hold (htried ▸ hin)
  new_info := by
    intro x info hget hin
    obtain ⟨nId, old, hid, hold, hstored⟩ := hr.exists_info hget
    have hrefs : info.nRefCount = old.nRefCount := congrArg (fun i => i.nRefCount) hstored
    have htried : info.fInTried = old.fInTried := congrArg (fun i => i.fInTried) hstored
    rw [hrefs]
    exact h.new_info nId old hold (htried ▸ hin)
  tried := by
    intro b x
    rw [hr.mem_tried, hr.triedBucket_eq]
    cases hid : ids[x]? with
    | none => simp
    | some nId =>
        rw [Option.bind_some, ← h.tried b nId]
        simp
  tried_nodup := by
    intro b
    have hnodup : ((am.vvTried b).map some).Nodup :=
      (h.tried_nodup b).map (Option.some_injective _)
    exact ((hr.tried b).nodup_iff.mpr hnodup).of_map _
  tried_le := by
    intro b
    have hlen := (hr.tried b).length_eq
    rw [List.length_map, List.length_map] at hlen
    rw [hlen]
    exact h.tried_le b
  refs := by
    intro x
    rw [hr.field_eq _ fun _ => rfl, hr.newBuckets_eq]
    cases ids[x]? with
    | none => rfl
    | some nId => exact h.refs nId
  new_le := by
    intro b
    have himage : am'.vvNew b ⊆ (am.vvNew b).image ids.idxOf := by
      intro x hx
      obtain ⟨nId, hnId, hid⟩ := (hr.new b x).mp hx
      exact Finset.mem_image.mpr
        ⟨nId, hnId, ((Lib.getElem?_eq_some_iff_idxOf hr.nodup).mp hid).2⟩
    exact ((Finset.card_le_card himage).trans Finset.card_image_le).trans (h.new_le b)
  nTried_eq := by
    rw [hr.nTried]
    apply (h.nTried_eq.positions hr.nodup _).congr
    · intro x
      rw [hr.field_eq _ fun _ => rfl, Option.bind_eq_some_iff]
    · intro nId hnId
      obtain ⟨info, hget, -⟩ := Option.map_eq_some_iff.mp hnId
      exact (hr.mem nId).mpr ⟨info, hget⟩
  nNew_eq := by
    rw [hr.nNew]
    apply (h.nNew_eq.positions hr.nodup _).congr
    · intro x
      rw [hr.field_eq _ fun _ => rfl, Option.bind_eq_some_iff]
    · intro nId hnId
      obtain ⟨info, hget, -⟩ := Option.map_eq_some_iff.mp hnId
      exact (hr.mem nId).mpr ⟨info, hget⟩

end Renamed

end CAddrMan

end ShinyCoin

import ShinyCoin.Net.AddrFile
import ShinyCoin.Net.AddrValid

/-!
# What is in the address file

An entry is read as it was written. The new entries come first, then the tried ones, in the order
of their ids; the counts are right, and there are few enough entries for them to fit.
-/

namespace ShinyCoin

/-! ## One entry -/

theorem CNetAddr.yields_unserialize (addr : CNetAddr) :
    Lib.Yields unserialize addr.serialize addr := by
  have hbytes := Lib.yields_readBytes endOfData addr.ip.toList
  rw [Vector.length_toList] at hbytes
  apply (hbytes.last fun ip => (⟨Vector.ofFn fun i => ip.getD i 0⟩ : CNetAddr)).congr rfl
  have hip : (Vector.ofFn fun i : Fin 16 => addr.ip.toList.getD i 0) = addr.ip := by
    apply Vector.ext
    intro i hi
    rw [Vector.getElem_ofFn]
    simp [List.getD_eq_getElem?_getD, hi]
  rw [hip]

theorem htons_htons {port : Nat} (h : port < 65536) : htons (htons port) = port := by
  unfold htons
  omega

theorem htons_lt {port : Nat} (h : port < 65536) : htons port < 65536 := by
  unfold htons
  omega

theorem CService.yields_unserialize (addr : CService) :
    Lib.Yields unserialize addr.serialize addr := by
  have hlt : addr.port.toNat < 65536 := addr.port.toNat_lt
  apply (CNetAddr.yields_unserialize addr.toCNetAddr).bind
  have hport := Lib.yields_readLE endOfData (w := 2) (htons_lt hlt)
  apply (hport.last fun portN =>
    ({ toCNetAddr := addr.toCNetAddr, port := UInt16.ofNat (htons portN) } : CService)).congr rfl
  rw [htons_htons hlt, UInt16.ofNat_toNat]

theorem CAddress.yields_unserialize (addr : CAddress) {nVersion : ℤ} (hlo : 0 ≤ nVersion)
    (hhi : nVersion < 2 ^ 31) :
    Lib.Yields unserialize (addr.serialize nVersion) { addr with nLastTry := 0 } := by
  apply (Lib.yields_readLEInt endOfData (by norm_num; omega) (by norm_num; omega)).bind
  apply (Lib.yields_readLE endOfData (show _ < 256 ^ 4 from addr.nTime.toNat_lt)).bind
  apply (Lib.yields_readLE endOfData (show _ < 256 ^ 8 from addr.nServices.toNat_lt)).bind
  apply ((CService.yields_unserialize addr.toCService).last fun service =>
    ({ toCService := service
       nServices := UInt64.ofNat addr.nServices.toNat
       nTime := UInt32.ofNat addr.nTime.toNat } : CAddress)).congr rfl
  rw [UInt64.ofNat_toNat, UInt32.ofNat_toNat]

/-- What is read of an entry -/
def CAddrInfo.fresh (info : CAddrInfo) : CAddrInfo :=
  { info with nLastTry := 0, nRefCount := 0, fInTried := false, nRandomPos := -1 }

theorem CAddrInfo.yields_unserialize (info : CAddrInfo) {nVersion : ℤ} (hlo : 0 ≤ nVersion)
    (hhi : nVersion < 2 ^ 31) :
    Lib.Yields unserialize (info.serialize nVersion) info.fresh := by
  have hsuccess := info.nLastSuccess.toInt_lt
  have hsuccess' := info.nLastSuccess.le_toInt
  have hattempts := info.nAttempts.toInt_lt
  have hattempts' := info.nAttempts.le_toInt
  apply (CAddress.yields_unserialize info.toCAddress hlo hhi).bind
  apply (CNetAddr.yields_unserialize info.source).bind
  apply (Lib.yields_readLEInt endOfData (by norm_num; omega) (by norm_num; omega)).bind
  have hlast := Lib.yields_readLEInt endOfData (w := 4) (z := info.nAttempts.toInt)
    (by norm_num; omega) (by norm_num; omega)
  apply (hlast.last fun nAttempts =>
    ({ toCAddress := { info.toCAddress with nLastTry := 0 }
       source := info.source
       nLastSuccess := Int64.ofInt info.nLastSuccess.toInt
       nAttempts := Int32.ofInt nAttempts } : CAddrInfo)).congr rfl
  rw [Int64.ofInt_toInt, Int32.ofInt_toInt]
  rfl

namespace CAddrMan

variable {env : NetEnv} {ok : Int64 → Prop} {am : CAddrMan} {off : Nat → ℤ} {nId : Nat}
  {info : CAddrInfo}

/-! ## The order of the file -/

def newEntries (am : CAddrMan) : List (Nat × CAddrInfo) :=
  am.mapInfo.toList.filter fun entry => entry.2.nRefCount ≠ 0

def triedEntries (am : CAddrMan) : List (Nat × CAddrInfo) :=
  am.mapInfo.toList.filter fun entry => entry.2.fInTried

/-- The entries in the order of the file -/
def entries (am : CAddrMan) : List (Nat × CAddrInfo) := am.newEntries ++ am.triedEntries

/-- The ids that the entries had before; their positions are the new ids. -/
def fileIds (am : CAddrMan) : List Nat := am.entries.map Prod.fst

theorem mem_toList {entry : Nat × CAddrInfo} :
    entry ∈ am.mapInfo.toList ↔ am.mapInfo[entry.1]? = some entry.2 :=
  Std.ExtTreeMap.mem_toList_iff_getElem?_eq_some

theorem nodup_keys (am : CAddrMan) : (am.mapInfo.toList.map Prod.fst).Nodup := by
  rw [Std.ExtTreeMap.map_fst_toList_eq_keys]
  exact Std.ExtTreeMap.nodup_keys

theorem mem_newEntries {entry : Nat × CAddrInfo} :
    entry ∈ am.newEntries ↔ am.mapInfo[entry.1]? = some entry.2 ∧ entry.2.nRefCount ≠ 0 := by
  unfold newEntries
  rw [List.mem_filter, mem_toList]
  simp

theorem mem_triedEntries {entry : Nat × CAddrInfo} :
    entry ∈ am.triedEntries ↔ am.mapInfo[entry.1]? = some entry.2 ∧ entry.2.fInTried = true := by
  unfold triedEntries
  rw [List.mem_filter, mem_toList]

/-- What is written of the new entries, and their numbers -/
theorem writeNew_eq (nVersion nNew : ℤ) (infos : List (Nat × CAddrInfo)) (nIds : ℤ)
    (mapUnkIds : Lib.PMap Nat ℤ)
    (hcount : nIds + (infos.filter fun entry => entry.2.nRefCount ≠ 0).length = nNew)
    (hkeys : (infos.map Prod.fst).Nodup) :
    ∃ m, writeNew nVersion nNew infos nIds mapUnkIds
        = ((infos.filter fun entry => entry.2.nRefCount ≠ 0).flatMap fun entry =>
            entry.2.serialize nVersion, m) ∧
      (∀ k, k ∉ infos.map Prod.fst → m k = mapUnkIds k) ∧
      ∀ (j : Nat) (entry : Nat × CAddrInfo),
        (infos.filter fun entry => entry.2.nRefCount ≠ 0)[j]? = some entry →
          m entry.1 = some (nIds + j) := by
  induction infos generalizing nIds mapUnkIds with
  | nil => exact ⟨mapUnkIds, rfl, fun _ _ => rfl, fun j entry h => by simp at h⟩
  | cons entry infos ih =>
      obtain ⟨id, info⟩ := entry
      rw [List.map_cons, List.nodup_cons] at hkeys
      unfold writeNew
      by_cases hend : nIds = nNew
      · have hnil : ((id, info) :: infos).filter (fun entry => entry.2.nRefCount ≠ 0) = [] := by
          apply List.eq_nil_of_length_eq_zero
          omega
        rw [if_pos hend, hnil]
        exact ⟨mapUnkIds, rfl, fun _ _ => rfl, fun j entry h => by simp at h⟩
      · rw [if_neg hend]
        by_cases hrefs : info.nRefCount ≠ 0
        · have hcons : ((id, info) :: infos).filter (fun entry => entry.2.nRefCount ≠ 0)
              = (id, info) :: infos.filter (fun entry => entry.2.nRefCount ≠ 0) := by
            rw [List.filter_cons, if_pos (by simpa using hrefs)]
          rw [hcons] at hcount ⊢
          rw [List.length_cons] at hcount
          obtain ⟨m, hm, hother, hpos⟩ := ih (nIds + 1) (mapUnkIds.set id nIds)
            (by push_cast at hcount; omega) hkeys.2
          refine ⟨m, ?_, ?_, ?_⟩
          · rw [if_pos hrefs, hm]
            rfl
          · intro k hk
            rw [List.map_cons, List.mem_cons, not_or] at hk
            rw [hother k hk.2, Lib.PMap.set_of_ne hk.1]
          · intro j entry hentry
            cases j with
            | zero =>
                cases hentry
                rw [hother id hkeys.1, Lib.PMap.set_self]
                simp
            | succ j =>
                rw [hpos j entry hentry]
                push_cast
                congr 1
                omega
        · have hcons : ((id, info) :: infos).filter (fun entry => entry.2.nRefCount ≠ 0)
              = infos.filter (fun entry => entry.2.nRefCount ≠ 0) := by
            rw [List.filter_cons, if_neg (by simpa using hrefs)]
          rw [hcons] at hcount ⊢
          obtain ⟨m, hm, hother, hpos⟩ := ih nIds (mapUnkIds.set id nIds) hcount hkeys.2
          refine ⟨m, ?_, ?_, hpos⟩
          · rw [if_neg hrefs, hm]
          · intro k hk
            rw [List.map_cons, List.mem_cons, not_or] at hk
            rw [hother k hk.2, Lib.PMap.set_of_ne hk.1]

theorem writeTried_eq (nVersion nTried : ℤ) (infos : List (Nat × CAddrInfo)) (nIds : ℤ)
    (hcount : nIds + (infos.filter fun entry => entry.2.fInTried).length = nTried) :
    writeTried nVersion nTried infos nIds
      = (infos.filter fun entry => entry.2.fInTried).flatMap fun entry => entry.2.serialize nVersion := by
  induction infos generalizing nIds with
  | nil => rfl
  | cons entry infos ih =>
      obtain ⟨id, info⟩ := entry
      unfold writeTried
      by_cases hend : nIds = nTried
      · have hnil : ((id, info) :: infos).filter (fun entry => entry.2.fInTried) = [] := by
          apply List.eq_nil_of_length_eq_zero
          omega
        rw [if_pos hend, hnil]
        rfl
      · rw [if_neg hend]
        rw [List.filter_cons] at hcount ⊢
        by_cases hin : info.fInTried = true
        · rw [if_pos hin] at hcount ⊢
          rw [List.length_cons] at hcount
          rw [if_pos hin, ih (nIds + 1) (by push_cast at hcount; omega)]
          rfl
        · rw [if_neg hin] at hcount ⊢
          rw [if_neg hin, ih nIds hcount]

namespace Valid

theorem nRefCount_ne_zero (h : am.Valid env ok fun _ => 0) (hget : am.mapInfo[nId]? = some info) :
    info.nRefCount ≠ 0 ↔ info.fInTried = false := by
  constructor
  · intro hrefs
    by_contra hin
    exact hrefs (h.tried_info nId info hget (by simpa using hin)).2
  · intro hin
    have := (h.new_info nId info hget hin).1 rfl
    omega

theorem length_newEntries (h : am.Valid env ok fun _ => 0) : (am.newEntries.length : ℤ) = am.nNew := by
  have hnodup : (am.newEntries.map Prod.fst).Nodup := am.nodup_keys.sublist (List.filter_sublist.map _)
  have hcount := Lib.HasCount.of_list hnodup
    (P := fun nId => am.field (fun info => info.fInTried) nId = some false) fun nId => by
      rw [List.mem_map]
      constructor
      · rintro ⟨⟨id, info⟩, hmem, rfl⟩
        obtain ⟨hget, hrefs⟩ := mem_newEntries.mp hmem
        rw [field_eq hget, (h.nRefCount_ne_zero hget).mp hrefs]
      · intro hfield
        obtain ⟨info, hget, hin⟩ := Option.map_eq_some_iff.mp hfield
        exact ⟨(nId, info), mem_newEntries.mpr ⟨hget, (h.nRefCount_ne_zero hget).mpr hin⟩, rfl⟩
  rw [List.length_map] at hcount
  exact hcount.unique h.nNew_eq

theorem length_triedEntries (h : am.Valid env ok fun _ => 0) :
    (am.triedEntries.length : ℤ) = am.nTried := by
  have hnodup : (am.triedEntries.map Prod.fst).Nodup :=
    am.nodup_keys.sublist (List.filter_sublist.map _)
  have hcount := Lib.HasCount.of_list hnodup
    (P := fun nId => am.field (fun info => info.fInTried) nId = some true) fun nId => by
      rw [List.mem_map]
      constructor
      · rintro ⟨⟨id, info⟩, hmem, rfl⟩
        obtain ⟨hget, hin⟩ := mem_triedEntries.mp hmem
        rw [field_eq hget, hin]
      · intro hfield
        obtain ⟨info, hget, hin⟩ := Option.map_eq_some_iff.mp hfield
        exact ⟨(nId, info), mem_triedEntries.mpr ⟨hget, hin⟩, rfl⟩
  rw [List.length_map] at hcount
  exact hcount.unique h.nTried_eq

/-- The buckets have room for so many new entries only. -/
theorem nNew_le (h : am.Valid env ok fun _ => 0) :
    am.nNew ≤ (ADDRMAN_NEW_BUCKET_COUNT * ADDRMAN_NEW_BUCKET_SIZE : Nat) := by
  have hcard : (Finset.univ.biUnion am.vvNew).card
      ≤ ADDRMAN_NEW_BUCKET_COUNT * ADDRMAN_NEW_BUCKET_SIZE := by
    have hle := Finset.card_biUnion_le_card_mul Finset.univ am.vvNew ADDRMAN_NEW_BUCKET_SIZE
      fun b _ => h.new_le b
    have huniv : (Finset.univ : Finset NewBucket).card = ADDRMAN_NEW_BUCKET_COUNT := Finset.card_fin _
    rwa [huniv] at hle
  have hsub : ∀ nId, am.field (fun info => info.fInTried) nId = some false →
      nId ∈ Finset.univ.biUnion am.vvNew := by
    intro nId hfield
    obtain ⟨info, hget, hin⟩ := Option.map_eq_some_iff.mp hfield
    have hone := (h.new_info nId info hget hin).1 rfl
    have hrefs := h.nRefCount_eq hget
    obtain ⟨b, hb⟩ := Finset.card_pos.mp (show 0 < (am.newBuckets nId).card by omega)
    rw [Finset.mem_biUnion]
    exact ⟨b, Finset.mem_univ b, mem_newBuckets.mp hb⟩
  exact (h.nNew_eq.le_card hsub).trans (Nat.cast_le.mpr hcard)

theorem nTried_le (h : am.Valid env ok fun _ => 0) :
    am.nTried ≤ (ADDRMAN_TRIED_BUCKET_COUNT * ADDRMAN_TRIED_BUCKET_SIZE : Nat) := by
  obtain ⟨s, hmem, hcard⟩ : ∃ s : Finset Nat, (∀ b, ∀ nId ∈ am.vvTried b, nId ∈ s) ∧
      s.card ≤ ADDRMAN_TRIED_BUCKET_COUNT * ADDRMAN_TRIED_BUCKET_SIZE := by
    refine ⟨Finset.univ.biUnion fun b => (am.vvTried b).toFinset, ?_, ?_⟩
    · intro b nId hnId
      rw [Finset.mem_biUnion]
      exact ⟨b, Finset.mem_univ b, List.mem_toFinset.mpr hnId⟩
    · have hle := Finset.card_biUnion_le_card_mul Finset.univ (fun b => (am.vvTried b).toFinset)
        ADDRMAN_TRIED_BUCKET_SIZE fun b _ => (List.toFinset_card_le _).trans (h.tried_le b)
      have huniv : (Finset.univ : Finset TriedBucket).card = ADDRMAN_TRIED_BUCKET_COUNT :=
        Finset.card_fin _
      rwa [huniv] at hle
  have hsub : ∀ nId, am.field (fun info => info.fInTried) nId = some true → nId ∈ s := by
    intro nId hfield
    obtain ⟨info, hget, hin⟩ := Option.map_eq_some_iff.mp hfield
    apply hmem (info.getTriedBucket env am.nKey)
    rw [h.tried _ nId, triedBucket_eq hget, hin]
    rfl
  exact (h.nTried_eq.le_card hsub).trans (Nat.cast_le.mpr hcard)

theorem mem_entries (h : am.Valid env ok fun _ => 0) {entry : Nat × CAddrInfo} :
    entry ∈ am.entries ↔ am.mapInfo[entry.1]? = some entry.2 := by
  unfold entries
  rw [List.mem_append, mem_newEntries, mem_triedEntries, ← and_or_left]
  constructor
  · exact And.left
  · intro hget
    refine ⟨hget, ?_⟩
    rw [h.nRefCount_ne_zero hget]
    cases entry.2.fInTried
    · exact .inl rfl
    · exact .inr rfl

theorem nodup_fileIds (h : am.Valid env ok fun _ => 0) : am.fileIds.Nodup := by
  unfold fileIds entries
  rw [List.map_append]
  apply List.Nodup.append
  · exact am.nodup_keys.sublist (List.filter_sublist.map _)
  · exact am.nodup_keys.sublist (List.filter_sublist.map _)
  · rintro nId hnew htried
    obtain ⟨⟨id, info⟩, hmem, rfl⟩ := List.mem_map.mp hnew
    obtain ⟨⟨id', info'⟩, hmem', heq⟩ := List.mem_map.mp htried
    obtain ⟨hget, hrefs⟩ := mem_newEntries.mp hmem
    obtain ⟨hget', hin⟩ := mem_triedEntries.mp hmem'
    dsimp only at heq hget hget' hrefs hin
    rw [heq, hget] at hget'
    cases hget'
    rw [h.nRefCount_ne_zero hget, hin] at hrefs
    cases hrefs

end Valid

end CAddrMan

end ShinyCoin

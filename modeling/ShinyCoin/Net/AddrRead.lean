import ShinyCoin.Net.AddrWrite
import ShinyCoin.Net.AddrRename
import ShinyCoin.Net.AddrRun

/-!
# The address file round trip

The reader sees what was written: the new entries, the tried ones, then the new buckets. From the
entries it makes the indexes again, and from the buckets the reference counts.
-/

namespace ShinyCoin

namespace CAddrMan

variable {env : NetEnv} {ok : Int64 → Prop} {am s s' : CAddrMan} {nId x : Nat} {info : CAddrInfo}
  {done rest : List (Nat × CAddrInfo)} {entry : Nat × CAddrInfo}

/-- An entry as it is in the tables that are read, with its references so far -/
def loadedInfo (info : CAddrInfo) (x : Nat) (nRefCount : ℤ) : CAddrInfo :=
  { info with nLastTry := 0, nRefCount := nRefCount, nRandomPos := x }

/-! ## The entries come in -/

/-- The entries that were read so far are there, with the indexes made again. -/
structure Loaded (am : CAddrMan) (done : List (Nat × CAddrInfo)) (s : CAddrMan) : Prop where
  nKey : s.nKey = am.nKey
  info : ∀ x, s.mapInfo[x]? = done[x]?.map fun entry => loadedInfo entry.2 x 0
  random : s.vRandom = List.range done.length
  addr : Lib.Inverse s.mapAddr (s.field fun info => info.toCNetAddr)
  vvNew : ∀ b, s.vvNew b = ∅

theorem Loaded.append (h : am.Loaded done s) (hnew : ∀ old ∈ done, old.2.toCNetAddr ≠ entry.2.toCNetAddr)
    (hkey : s'.nKey = s.nKey)
    (hinfo : s'.mapInfo = s.mapInfo.insert done.length (loadedInfo entry.2 s.vRandom.length 0))
    (haddr : s'.mapAddr = s.mapAddr.set entry.2.toCNetAddr done.length)
    (hrandom : s'.vRandom = s.vRandom ++ [done.length]) (hvvNew : s'.vvNew = s.vvNew) :
    am.Loaded (done ++ [entry]) s' := by
  have hlen : s.vRandom.length = done.length := by rw [h.random, List.length_range]
  have hlookup : ∀ x, s'.mapInfo[x]? = if x = done.length then some (loadedInfo entry.2 x 0)
      else s.mapInfo[x]? := by
    intro x
    rw [hinfo, Lib.getElem?_insert, hlen]
    split
    · next heq => rw [heq]
    · rfl
  have hnone : s.field (fun info => info.toCNetAddr) done.length = none := by
    unfold field
    rw [h.info, List.getElem?_eq_none (le_refl _)]
    rfl
  have hfresh : s.mapAddr entry.2.toCNetAddr = none := by
    cases hget : s.mapAddr entry.2.toCNetAddr with
    | none => rfl
    | some k =>
        have hattr := (h.addr _ k).mp hget
        unfold field at hattr
        rw [h.info, Option.map_map] at hattr
        obtain ⟨old, hold, hsame⟩ := Option.map_eq_some_iff.mp hattr
        exact absurd hsame (hnew old (List.mem_of_getElem? hold))
  constructor
  case nKey => rw [hkey, h.nKey]
  case info =>
    intro x
    rw [hlookup]
    split
    · next heq =>
        rw [heq, List.getElem?_append_right (le_refl _), Nat.sub_self]
        rfl
    · next hne =>
        rw [h.info]
        by_cases hlt : x < done.length
        · rw [List.getElem?_append_left hlt]
        · rw [List.getElem?_eq_none (by omega), List.getElem?_eq_none (by simp; omega)]
  case random =>
    rw [hrandom, h.random, List.length_append, List.length_singleton, List.range_succ]
  case addr =>
    rw [haddr]
    apply h.addr.set hfresh hnone
    · unfold field
      rw [hlookup, if_pos rfl]
      rfl
    · intro x hx
      unfold field
      rw [hlookup, if_neg hx]
  case vvNew =>
    rw [hvvNew]
    exact h.vvNew

theorem fresh_new (hin : info.fInTried = false) (n : Nat) :
    { info.fresh with nRandomPos := n } = loadedInfo info n 0 := by
  unfold CAddrInfo.fresh loadedInfo
  rw [hin]

theorem fresh_tried (hin : info.fInTried = true) (n : Nat) :
    { info.fresh with nRandomPos := n, fInTried := true } = loadedInfo info n 0 := by
  unfold CAddrInfo.fresh loadedInfo
  rw [hin]

namespace Valid

/-- The entries have different addresses. -/
theorem toCNetAddr_ne (h : am.Valid env ok fun _ => 0) (hentries : am.entries = done ++ entry :: rest) :
    ∀ old ∈ done, old.2.toCNetAddr ≠ entry.2.toCNetAddr := by
  intro old hold hsame
  have hget : am.mapInfo[old.1]? = some old.2 :=
    h.mem_entries.mp (hentries ▸ List.mem_append_left _ hold)
  have hget' : am.mapInfo[entry.1]? = some entry.2 :=
    h.mem_entries.mp (hentries ▸ List.mem_append_right _ List.mem_cons_self)
  have hid := (h.addr _ old.1).mpr (field_eq hget)
  have hid' := (h.addr _ entry.1).mpr (field_eq hget')
  rw [hsame, hid'] at hid
  have hnodup := h.nodup_fileIds
  unfold fileIds at hnodup
  rw [hentries, List.map_append, List.map_cons] at hnodup
  have hdisjoint := List.disjoint_of_nodup_append hnodup
  apply hdisjoint (List.mem_map_of_mem hold)
  rw [← Option.some.inj hid]
  exact List.mem_cons_self

/-- The loop over the new entries -/
theorem yields_readNew (h : am.Valid env ok fun _ => 0) {start : CAddrMan} (hstart : am.Loaded [] start)
    (nVersion : ℤ) (hlo : 0 ≤ nVersion) (hhi : nVersion < 2 ^ 31) :
    ∃ s, Lib.Yields ((List.range am.newEntries.length).foldlM (readNew env ADDRMAN_NEW_BUCKET_COUNT) start)
        (am.newEntries.flatMap fun entry => entry.2.serialize nVersion) s ∧
      am.Loaded am.newEntries s ∧
      s.nNew = start.nNew ∧ s.nTried = start.nTried ∧ s.vvTried = start.vvTried := by
  apply Lib.yields_foldlM (fun done s => am.Loaded done s ∧
    s.nNew = start.nNew ∧ s.nTried = start.nTried ∧ s.vvTried = start.vvTried)
  · rintro done entry rest s hnew ⟨hloaded, hnNew, hnTried, hvvTried⟩
    have hmem : entry ∈ am.newEntries := by
      rw [hnew]
      exact List.mem_append_right _ List.mem_cons_self
    obtain ⟨hget, hrefs⟩ := mem_newEntries.mp hmem
    have hin := (h.nRefCount_ne_zero hget).mp hrefs
    have hentries : am.entries = done ++ entry :: (rest ++ am.triedEntries) := by
      unfold entries
      rw [hnew, List.append_assoc, List.cons_append]
    have hadd : s.addNew env ADDRMAN_NEW_BUCKET_COUNT done.length entry.2.fresh
        = { s with
            mapInfo := s.mapInfo.insert done.length (loadedInfo entry.2 s.vRandom.length 0)
            mapAddr := s.mapAddr.set entry.2.toCNetAddr done.length
            vRandom := s.vRandom ++ [done.length] } := by
      unfold addNew
      dsimp only
      rw [if_neg (not_not.mpr rfl), fresh_new hin]
      rfl
    refine ⟨_, (CAddrInfo.yields_unserialize entry.2 hlo hhi).last _, ?_, ?_⟩
    · apply hloaded.append (h.toCNetAddr_ne hentries)
      all_goals rw [hadd]
    · rw [hadd]
      exact ⟨hnNew, hnTried, hvvTried⟩
  · exact ⟨hstart, rfl, rfl, rfl⟩

/-- The tried entries of a bucket, in the order of the file -/
theorem perm_vvTried (h : am.Valid env ok fun _ => 0) (b : TriedBucket) :
    ((am.triedEntries.filter fun entry => am.triedBucket env entry.1 = some b).map Prod.fst).Perm
      (am.vvTried b) := by
  apply (List.perm_ext_iff_of_nodup _ (h.tried_nodup b)).mpr
  · intro nId
    rw [h.tried b nId, List.mem_map]
    constructor
    · rintro ⟨entry, hentry, rfl⟩
      simpa using (List.mem_filter.mp hentry).2
    · intro hplace
      unfold triedBucket at hplace
      obtain ⟨info, hget, hin⟩ := Option.bind_eq_some_iff.mp hplace
      split at hin
      · next htried =>
          refine ⟨(nId, info), List.mem_filter.mpr ⟨mem_triedEntries.mpr ⟨hget, htried⟩, ?_⟩, rfl⟩
          rw [decide_eq_true_eq, CAddrMan.triedBucket_eq hget, if_pos htried]
          exact hin
      · cases hin
  · exact am.nodup_keys.sublist ((List.filter_sublist.trans List.filter_sublist).map _)

end Valid

/-- In the loop over the tried entries: none was lost, and the buckets have those that belong there. -/
structure TriedSoFar (env : NetEnv) (am start : CAddrMan) (done : List (Nat × CAddrInfo))
    (r : CAddrMan × ℤ) : Prop where
  loaded : am.Loaded (am.newEntries ++ done) r.1
  nLost : r.2 = 0
  nIdCount : r.1.nIdCount = (am.newEntries ++ done).length
  nNew : r.1.nNew = start.nNew
  nTried : r.1.nTried = start.nTried
  vvTried : ∀ b, ((r.1.vvTried b).map fun x => am.fileIds[x]?)
    = (done.filter fun entry => am.triedBucket env entry.1 = some b).map fun entry => some entry.1

theorem TriedSoFar.step (h : am.Valid env ok fun _ => 0) {start : CAddrMan} {r : CAddrMan × ℤ}
    (hr : TriedSoFar env am start done r) (htried : am.triedEntries = done ++ entry :: rest) :
    TriedSoFar env am start (done ++ [entry]) (r.1.addTried env r.2 entry.2.fresh) := by
  have hmem : entry ∈ am.triedEntries := by
    rw [htried]
    exact List.mem_append_right _ List.mem_cons_self
  obtain ⟨hget, hin⟩ := mem_triedEntries.mp hmem
  have hentries : am.entries = (am.newEntries ++ done) ++ entry :: rest := by
    unfold entries
    rw [htried, List.append_assoc]
  have hid : am.fileIds[(am.newEntries ++ done).length]? = some entry.1 := by
    unfold fileIds
    rw [hentries, List.getElem?_map, List.getElem?_append_right (le_refl _), Nat.sub_self]
    rfl
  have hbucket : entry.2.fresh.getTriedBucket env r.1.nKey = entry.2.getTriedBucket env am.nKey := by
    rw [hr.loaded.nKey]
    exact CAddrInfo.getTriedBucket_congr env am.nKey rfl
  have hplace : am.triedBucket env entry.1 = some (entry.2.getTriedBucket env am.nKey) := by
    rw [triedBucket_eq hget, hin]
    rfl
  generalize entry.2.getTriedBucket env am.nKey = b at hbucket hplace
  have hroom : (r.1.vvTried b).length < ADDRMAN_TRIED_BUCKET_SIZE := by
    have hlen := congrArg List.length (hr.vvTried b)
    rw [List.length_map, List.length_map] at hlen
    have hall := (h.perm_vvTried b).length_eq
    rw [List.length_map, htried, List.filter_append, List.filter_cons, if_pos (by simpa using hplace),
      List.length_append, List.length_cons] at hall
    have hle := h.tried_le b
    omega
  have hadd : r.1.addTried env r.2 entry.2.fresh
      = ({ r.1 with
          mapInfo := r.1.mapInfo.insert (am.newEntries ++ done).length
            (loadedInfo entry.2 r.1.vRandom.length 0)
          mapAddr := r.1.mapAddr.set entry.2.toCNetAddr (am.newEntries ++ done).length
          vRandom := r.1.vRandom ++ [(am.newEntries ++ done).length]
          vvTried := Function.update r.1.vvTried b (r.1.vvTried b ++ [(am.newEntries ++ done).length])
          nIdCount := (am.newEntries ++ done).length + 1 }, r.2) := by
    unfold addTried
    dsimp only
    rw [hbucket, if_pos hroom, hr.nIdCount, fresh_tried hin]
    rfl
  rw [hadd]
  constructor
  case loaded =>
    rw [← List.append_assoc]
    exact hr.loaded.append (h.toCNetAddr_ne hentries) rfl rfl rfl rfl rfl
  case nLost => exact hr.nLost
  case nIdCount => simp [Nat.add_assoc]
  case nNew => exact hr.nNew
  case nTried => exact hr.nTried
  case vvTried =>
    intro b'
    dsimp only
    by_cases hb : b' = b
    · subst hb
      rw [Function.update_self, List.map_append, hr.vvTried b', List.filter_append, List.map_append,
        List.map_singleton, hid, List.filter_singleton, decide_eq_true hplace]
      rfl
    · rw [Function.update_of_ne hb, hr.vvTried b', List.filter_append, List.map_append]
      simp [hplace, Ne.symm hb]

namespace Valid

/-- The loop over the tried entries: none is lost. -/
theorem yields_readTried (h : am.Valid env ok fun _ => 0) (start : CAddrMan)
    (hstart : am.Loaded am.newEntries start) (hcount : start.nIdCount = am.newEntries.length)
    (hempty : ∀ b, start.vvTried b = []) (nVersion : ℤ) (hlo : 0 ≤ nVersion) (hhi : nVersion < 2 ^ 31) :
    ∃ r, Lib.Yields ((List.range am.triedEntries.length).foldlM (readTried env) (start, 0))
        (am.triedEntries.flatMap fun entry => entry.2.serialize nVersion) r ∧
      TriedSoFar env am start am.triedEntries r := by
  apply Lib.yields_foldlM (TriedSoFar env am start)
  · intro done entry rest r htried hr
    exact ⟨_, (CAddrInfo.yields_unserialize entry.2 hlo hhi).last _, hr.step h htried⟩
  · constructor
    case loaded => rwa [List.append_nil]
    case nLost => rfl
    case nIdCount => rwa [List.append_nil]
    case nNew => rfl
    case nTried => rfl
    case vvTried =>
      intro b
      rw [hempty]
      rfl

end Valid

/-! ## The new buckets are filled -/

/-- In the loops over the new buckets: an entry has as many references as buckets so far, and what is
in a bucket belongs there. -/
structure Filling (am base s : CAddrMan) : Prop where
  rest : s = { base with mapInfo := s.mapInfo, vvNew := s.vvNew }
  info : ∀ x, s.mapInfo[x]? = am.entries[x]?.map fun entry =>
    loadedInfo entry.2 x (s.newBuckets x).card
  sub : ∀ b, ∀ x ∈ s.vvNew b, ∃ nId ∈ am.vvNew b, am.fileIds[x]? = some nId

theorem Filling.addIndex {base : CAddrMan} (hs : Filling am base s) (h : am.Valid env ok fun _ => 0)
    {b : NewBucket} (hmem : nId ∈ am.vvNew b) (hx : am.fileIds[x]? = some nId) (hnot : x ∉ s.vvNew b) :
    Filling am base (s.addIndex ADDRMAN_NEW_BUCKET_COUNT b x) ∧
      (s.addIndex ADDRMAN_NEW_BUCKET_COUNT b x).vvNew
        = Function.update s.vvNew b (insert x (s.vvNew b)) := by
  have hentry : ∃ info, am.entries[x]? = some (nId, info) ∧ am.mapInfo[nId]? = some info := by
    unfold fileIds at hx
    rw [List.getElem?_map] at hx
    obtain ⟨⟨id, info⟩, hget, rfl⟩ := Option.map_eq_some_iff.mp hx
    exact ⟨info, hget, h.mem_entries.mp (List.mem_of_getElem? hget)⟩
  obtain ⟨info, hentry, hget⟩ := hentry
  -- one of at most four buckets is still missing
  have hlt : (s.newBuckets x).card < (am.newBuckets nId).card := by
    apply Finset.card_lt_card
    refine Finset.ssubset_iff_subset_ne.mpr ⟨?_, ?_⟩
    · intro b' hb'
      obtain ⟨nId', hmem', hx'⟩ := hs.sub b' x (mem_newBuckets.mp hb')
      rw [hx] at hx'
      cases hx'
      exact mem_newBuckets.mpr hmem'
    · intro heq
      have hb := mem_newBuckets.mpr hmem
      rw [← heq] at hb
      exact hnot (mem_newBuckets.mp hb)
  have hfour : ((s.newBuckets x).card : ℤ) < ADDRMAN_NEW_BUCKETS_PER_ADDRESS := by
    obtain ⟨info', hget', hin⟩ := h.exists_of_mem_new hmem rfl
    rw [hget] at hget'
    cases hget'
    have hle := (h.new_info nId info hget hin).2
    have hrefs := h.nRefCount_eq hget
    have : (ADDRMAN_NEW_BUCKETS_PER_ADDRESS : ℤ) = 4 := rfl
    omega
  have hold : s.mapInfo[x]? = some (loadedInfo info x (s.newBuckets x).card) := by
    rw [hs.info, hentry]
    rfl
  have hadd : s.addIndex ADDRMAN_NEW_BUCKET_COUNT b x
      = { s with
          mapInfo := s.mapInfo.insert x (loadedInfo info x ((s.newBuckets x).card + 1))
          vvNew := Function.update s.vvNew b (insert x (s.vvNew b)) } := by
    unfold CAddrMan.addIndex
    dsimp only
    rw [hold, Option.getD_some, if_pos ⟨rfl, hfour⟩]
    rfl
  rw [hadd]
  refine ⟨⟨?_, ?_, ?_⟩, rfl⟩
  · have hrest := hs.rest
    rw [hrest]
  · intro y
    have hbuckets : newBuckets { s with
          mapInfo := s.mapInfo.insert x (loadedInfo info x ((s.newBuckets x).card + 1))
          vvNew := Function.update s.vvNew b (insert x (s.vvNew b)) } y
        = if y = x then insert b (s.newBuckets x) else s.newBuckets y := Valid.newBuckets_insert b x y
    rw [hbuckets]
    dsimp only
    rw [Lib.getElem?_insert]
    split
    · next heq =>
        rw [heq, hentry, Finset.card_insert_of_notMem (fun hb => hnot (mem_newBuckets.mp hb))]
        rfl
    · exact hs.info y
  · intro b' y hy
    dsimp only at hy
    by_cases hb : b' = b
    · subst hb
      rw [Function.update_self, Finset.mem_insert] at hy
      rcases hy with rfl | hy
      · exact ⟨nId, hmem, hx⟩
      · exact hs.sub b' y hy
    · rw [Function.update_of_ne hb] at hy
      exact hs.sub b' y hy

/-- The numbers that were written for the new entries are their positions. -/
def Numbered (am : CAddrMan) (mapUnkIds : Lib.PMap Nat ℤ) : Prop :=
  ∀ b, ∀ nId ∈ am.vvNew b, ∃ x : Nat, mapUnkIds nId = some (x : ℤ) ∧ am.fileIds[x]? = some nId

/-- The loop over the indexes of a bucket -/
theorem Filling.yields_readIndex {base : CAddrMan} (hs : Filling am base s)
    (h : am.Valid env ok fun _ => 0) {mapUnkIds : Lib.PMap Nat ℤ} (hnumbers : am.Numbered mapUnkIds)
    (hlen : am.fileIds.length < 2 ^ 31) (b : NewBucket) (hempty : s.vvNew b = ∅) :
    ∃ s', Lib.Yields
        ((List.range (am.vvNew b).sort.length).foldlM (readIndex ADDRMAN_NEW_BUCKET_COUNT b) s)
        ((am.vvNew b).sort.flatMap fun nId => Lib.toLEInt 4 ((mapUnkIds nId).getD 0)) s' ∧
      Filling am base s' ∧ (∀ b', b' ≠ b → s'.vvNew b' = s.vvNew b') ∧
      ∀ x, x ∈ s'.vvNew b ↔ ∃ nId ∈ (am.vvNew b).sort, am.fileIds[x]? = some nId := by
  apply Lib.yields_foldlM (fun done s' => Filling am base s' ∧
    (∀ b', b' ≠ b → s'.vvNew b' = s.vvNew b') ∧
    ∀ x, x ∈ s'.vvNew b ↔ ∃ nId ∈ done, am.fileIds[x]? = some nId)
  · rintro done nId rest s₁ hsort ⟨hfilling, hothers, hdone⟩
    have hmem : nId ∈ am.vvNew b := by
      apply (Finset.mem_sort (· ≤ ·)).mp
      rw [hsort]
      exact List.mem_append_right _ List.mem_cons_self
    obtain ⟨x, hnumber, hx⟩ := hnumbers b nId hmem
    have hnot : x ∉ s₁.vvNew b := by
      intro hin
      obtain ⟨nId', hnId', hx'⟩ := (hdone x).mp hin
      rw [hx] at hx'
      cases hx'
      have hnodup : (am.vvNew b).sort.Nodup := Finset.sort_nodup _ (· ≤ ·)
      rw [hsort] at hnodup
      exact List.disjoint_of_nodup_append hnodup hnId' List.mem_cons_self
    obtain ⟨hfilling', hadded⟩ := hfilling.addIndex h hmem hx hnot
    refine ⟨_, ?_, hfilling', ?_, ?_⟩
    · have hlt : x < 2 ^ 31 := (List.getElem?_eq_some_iff.mp hx).1.trans hlen
      rw [hnumber, Option.getD_some, ← List.append_nil (Lib.toLEInt 4 (x : ℤ))]
      unfold readIndex
      apply (Lib.yields_readLEInt endOfData (by norm_num; omega) (by norm_num; omega)).bind
      rw [if_neg (by omega), Int.toNat_natCast]
      exact .pure _
    · intro b' hb'
      rw [hadded, Function.update_of_ne hb', hothers b' hb']
    · intro y
      rw [hadded, Function.update_self, Finset.mem_insert, hdone]
      constructor
      · rintro (rfl | ⟨nId', hnId', hy⟩)
        · exact ⟨nId, by simp, hx⟩
        · exact ⟨nId', List.mem_append_left _ hnId', hy⟩
      · rintro ⟨nId', hnId', hy⟩
        rcases List.mem_append.mp hnId' with hold | hnew
        · exact .inr ⟨nId', hold, hy⟩
        · rw [List.mem_singleton] at hnew
          subst hnew
          have hpos := ((Lib.getElem?_eq_some_iff_idxOf h.nodup_fileIds).mp hx).2
          have hpos' := ((Lib.getElem?_eq_some_iff_idxOf h.nodup_fileIds).mp hy).2
          exact .inl (hpos'.symm.trans hpos)
  · refine ⟨hs, fun _ _ => rfl, ?_⟩
    intro x
    rw [hempty]
    simp

theorem length_of_finRange {n : Nat} {done rest : List (Fin n)} {b : Fin n}
    (h : List.finRange n = done ++ b :: rest) : done.length = b := by
  have hget : (List.finRange n)[done.length]? = some b := by
    rw [h, List.getElem?_append_right (le_refl _), Nat.sub_self]
    rfl
  obtain ⟨hlt, heq⟩ := List.getElem?_eq_some_iff.mp hget
  rw [List.getElem_finRange] at heq
  rw [← heq]
  rfl

/-- The loop over the new buckets -/
theorem Filling.yields_readBucket {base : CAddrMan} (hs : Filling am base s)
    (h : am.Valid env ok fun _ => 0) {mapUnkIds : Lib.PMap Nat ℤ} (hnumbers : am.Numbered mapUnkIds)
    (hlen : am.fileIds.length < 2 ^ 31) (hempty : ∀ b, s.vvNew b = ∅) :
    ∃ s', Lib.Yields
        ((List.range (List.finRange ADDRMAN_NEW_BUCKET_COUNT).length).foldlM
          (readBucket ADDRMAN_NEW_BUCKET_COUNT) s)
        ((List.finRange ADDRMAN_NEW_BUCKET_COUNT).flatMap fun b =>
          writeBucket mapUnkIds (am.vvNew b)) s' ∧
      Filling am base s' ∧
      ∀ b x, x ∈ s'.vvNew b ↔
        b ∈ List.finRange ADDRMAN_NEW_BUCKET_COUNT ∧ ∃ nId ∈ am.vvNew b, am.fileIds[x]? = some nId := by
  apply Lib.yields_foldlM (fun (done : List NewBucket) s' => Filling am base s' ∧
    ∀ b x, x ∈ s'.vvNew b ↔ b ∈ done ∧ ∃ nId ∈ am.vvNew b, am.fileIds[x]? = some nId)
  · rintro done b rest s₁ hbuckets ⟨hfilling, hdone⟩
    have hnot : b ∉ done := by
      intro hmem
      have hnodup := List.nodup_finRange ADDRMAN_NEW_BUCKET_COUNT
      rw [hbuckets] at hnodup
      exact List.disjoint_of_nodup_append hnodup hmem List.mem_cons_self
    have hempty₁ : s₁.vvNew b = ∅ := by
      apply Finset.eq_empty_of_forall_notMem
      intro x hx
      exact hnot ((hdone b x).mp hx).1
    obtain ⟨s₂, hread, hfilling₂, hothers, hfull⟩ :=
      hfilling.yields_readIndex h hnumbers hlen b hempty₁
    refine ⟨s₂, ?_, hfilling₂, ?_⟩
    · have hle := h.new_le b
      have hsize : ADDRMAN_NEW_BUCKET_SIZE = 64 := rfl
      rw [length_of_finRange hbuckets]
      unfold readBucket writeBucket
      rw [dif_pos b.isLt]
      apply (Lib.yields_readLEInt endOfData (by norm_num; omega) (by norm_num; omega)).bind
      rw [Int.toNat_natCast]
      rw [Finset.length_sort] at hread
      exact hread
    · intro b' x
      rw [List.mem_append, List.mem_singleton]
      by_cases hb : b' = b
      · subst hb
        rw [hfull]
        simp
      · rw [hothers b' hb, hdone]
        simp [hb]
  · refine ⟨hs, ?_⟩
    intro b x
    rw [hempty]
    simp

/-! ## The whole file -/

theorem getElem?_fileIds (x : Nat) : am.fileIds[x]? = am.entries[x]?.map Prod.fst :=
  List.getElem?_map

theorem Valid.numbered (h : am.Valid env ok fun _ => 0) {m : Lib.PMap Nat ℤ}
    (hm : ∀ (j : Nat) (entry : Nat × CAddrInfo), am.newEntries[j]? = some entry →
      m entry.1 = some (0 + (j : ℤ))) :
    am.Numbered m := by
  intro b nId hmem
  obtain ⟨info, hget, hin⟩ := h.exists_of_mem_new hmem rfl
  have hentry : (nId, info) ∈ am.newEntries :=
    mem_newEntries.mpr ⟨hget, (h.nRefCount_ne_zero hget).mpr hin⟩
  obtain ⟨j, hj⟩ := List.mem_iff_getElem?.mp hentry
  refine ⟨j, ?_, ?_⟩
  · rw [hm j _ hj, zero_add]
  · have hlt := (List.getElem?_eq_some_iff.mp hj).1
    rw [getElem?_fileIds]
    unfold entries
    rw [List.getElem?_append_left hlt, hj]
    rfl

theorem Loaded.start (am : CAddrMan) :
    am.Loaded [] { nKey := am.nKey, nNew := am.nNew, nTried := am.nTried } where
  nKey := rfl
  info := fun _ => Std.ExtTreeMap.getElem?_empty
  random := rfl
  addr := Lib.Inverse.empty.congr fun _ => by rw [field, Std.ExtTreeMap.getElem?_empty, Option.map_none]
  vvNew := fun _ => rfl

/-- All entries are there, and no bucket is filled yet. -/
theorem Loaded.filling (h : am.Loaded am.entries s) : Filling am s s where
  rest := rfl
  info := by
    intro x
    have hnone : s.newBuckets x = ∅ := by
      apply Finset.eq_empty_of_forall_notMem
      intro b hb
      rw [mem_newBuckets, h.vvNew] at hb
      exact absurd hb (Finset.notMem_empty x)
    rw [hnone, h.info]
    rfl
  sub := by
    intro b x hx
    rw [h.vvNew] at hx
    exact absurd hx (Finset.notMem_empty x)

/-- What is there in the end is what was there before, under other ids. -/
theorem Filling.renamed {base : CAddrMan} (hs : Filling am base s) (h : am.Valid env ok fun _ => 0)
    (hkey : base.nKey = am.nKey) (hnNew : base.nNew = am.nNew) (hnTried : base.nTried = am.nTried)
    (htried : ∀ b, ((base.vvTried b).map fun x => am.fileIds[x]?).Perm ((am.vvTried b).map some))
    (hnew : ∀ b x, x ∈ s.vvNew b ↔ ∃ nId ∈ am.vvNew b, am.fileIds[x]? = some nId) :
    Renamed am.fileIds am s where
  nKey := by rw [hs.rest, hkey]
  nNew := by rw [hs.rest, hnNew]
  nTried := by rw [hs.rest, hnTried]
  nodup := h.nodup_fileIds
  mem := by
    intro nId
    unfold fileIds
    rw [List.mem_map]
    constructor
    · rintro ⟨entry, hentry, rfl⟩
      exact ⟨entry.2, h.mem_entries.mp hentry⟩
    · rintro ⟨info, hget⟩
      exact ⟨(nId, info), h.mem_entries.mpr hget, rfl⟩
  info := by
    intro x
    rw [getElem?_fileIds]
    unfold field
    rw [hs.info]
    cases hentry : am.entries[x]? with
    | none => rfl
    | some entry =>
        have hget := h.mem_entries.mp (List.mem_of_getElem? hentry)
        have hid : am.fileIds[x]? = some entry.1 := by
          rw [getElem?_fileIds, hentry]
          rfl
        have hbuckets : s.newBuckets x = am.newBuckets entry.1 := by
          ext b
          rw [mem_newBuckets, mem_newBuckets, hnew, hid]
          simp
        have hrefs : ((s.newBuckets x).card : ℤ) = entry.2.nRefCount := by
          rw [hbuckets, h.nRefCount_eq hget, add_zero]
        rw [hrefs]
        show some (loadedInfo entry.2 x entry.2.nRefCount).stored = am.mapInfo[entry.1]?.map _
        rw [hget]
        rfl
  new := hnew
  tried := by
    intro b
    have hvvTried : s.vvTried = base.vvTried := by rw [hs.rest]
    rw [hvvTried]
    exact htried b

theorem Filling.valid {base : CAddrMan} (hs : Filling am base s) (hbase : am.Loaded am.entries base)
    (hids : base.nIdCount = am.entries.length) (hr : Renamed am.fileIds am s)
    (h : am.Valid env ok fun _ => 0) (hok : ok 0) : s.Valid env ok fun _ => 0 := by
  apply hr.valid h
  · intro x info hget
    rw [hs.info] at hget
    obtain ⟨entry, -, rfl⟩ := Option.map_eq_some_iff.mp hget
    exact hok
  · have hrandom : s.vRandom = List.range am.entries.length := by rw [hs.rest, hbase.random]
    rw [hrandom]
    apply Lib.Positions.range
    intro x
    unfold field
    rw [hs.info]
    split
    · next hlt =>
        rw [List.getElem?_eq_getElem hlt]
        rfl
    · next hge =>
        rw [List.getElem?_eq_none (not_lt.mp hge)]
        rfl
  · have haddr : s.mapAddr = base.mapAddr := by rw [hs.rest]
    rw [haddr]
    apply hbase.addr.congr
    intro x
    unfold field
    rw [hs.info, hbase.info, Option.map_map, Option.map_map]
    rfl
  · have hcount : s.nIdCount = base.nIdCount := by rw [hs.rest]
    rw [hcount, hids]
    unfold fileIds
    rw [List.length_map]

/-- The bytes of the file -/
theorem Valid.serialize_eq (h : am.Valid env ok fun _ => 0) :
    ∃ m, am.Numbered m ∧ am.serialize = Lib.toLE 1 0 ++ (writeBytes am.nKey
      ++ (Lib.toLEInt 4 am.nNew ++ (Lib.toLEInt 4 am.nTried ++ (Lib.toLEInt 4 ADDRMAN_NEW_BUCKET_COUNT
      ++ ((am.newEntries.flatMap fun entry => entry.2.serialize 0)
      ++ ((am.triedEntries.flatMap fun entry => entry.2.serialize 0)
      ++ (List.finRange ADDRMAN_NEW_BUCKET_COUNT).flatMap fun b => writeBucket m (am.vvNew b))))))) := by
  obtain ⟨m, hm, -, hnumbers⟩ := writeNew_eq 0 am.nNew am.mapInfo.toList 0 Lib.PMap.empty
    ((zero_add _).trans h.length_newEntries) am.nodup_keys
  refine ⟨m, h.numbered hnumbers, ?_⟩
  unfold serialize
  dsimp only
  rw [Nat.cast_zero, hm,
    writeTried_eq 0 am.nTried am.mapInfo.toList 0 ((zero_add _).trans h.length_triedEntries)]
  rfl

/-- The file is read as what it was written from: under other ids, but with the same entries in the
same buckets. -/
theorem unserialize_serialize (env : NetEnv) {ok : Int64 → Prop} (hok : ok 0) (am : CAddrMan)
    (h : am.Valid env ok fun _ => 0) (hkey : am.nKey.length ≤ MAX_SIZE) :
    ∃ am', (∀ rest, (unserialize env).run (am.serialize ++ rest) = .ok (am', rest)) ∧
      am'.Valid env ok (fun _ => 0) ∧ ∃ ids, Renamed ids am am' := by
  have hnNew := h.length_newEntries
  have hnTried := h.length_triedEntries
  have hnewLe : am.nNew ≤ (16384 : Nat) := h.nNew_le
  have htriedLe : am.nTried ≤ (4096 : Nat) := h.nTried_le
  have hcount : ADDRMAN_NEW_BUCKET_COUNT = 256 := rfl
  have hlen : am.fileIds.length < 2 ^ 31 := by
    unfold fileIds entries
    rw [List.length_map, List.length_append]
    omega
  obtain ⟨m, hnumbers, hwritten⟩ := h.serialize_eq
  -- the entries
  obtain ⟨s₁, hreadNew, hloaded₁, hnNew₁, hnTried₁, hvvTried₁⟩ :=
    h.yields_readNew (Loaded.start am) 0 (le_refl _) (by norm_num)
  obtain ⟨r, hreadTried, hr⟩ := h.yields_readTried { s₁ with nIdCount := am.newEntries.length }
    ⟨hloaded₁.nKey, hloaded₁.info, hloaded₁.random, hloaded₁.addr, hloaded₁.vvNew⟩ rfl
    (fun b => congrFun hvvTried₁ b) 0 (le_refl _) (by norm_num)
  -- the buckets
  have hloaded : am.Loaded am.entries { r.1 with nTried := r.1.nTried - r.2 } :=
    ⟨hr.loaded.nKey, hr.loaded.info, hr.loaded.random, hr.loaded.addr, hr.loaded.vvNew⟩
  obtain ⟨am', hreadBuckets, hfilling, hfull⟩ :=
    hloaded.filling.yields_readBucket h hnumbers hlen hloaded.vvNew
  have hrenamed : Renamed am.fileIds am am' := by
    apply hfilling.renamed h hloaded.nKey
    · exact hr.nNew.trans hnNew₁
    · show r.1.nTried - r.2 = am.nTried
      rw [hr.nLost, hr.nTried, sub_zero]
      exact hnTried₁
    · intro b
      have hperm := (h.perm_vvTried b).map some
      rw [List.map_map] at hperm
      show ((r.1.vvTried b).map _).Perm _
      rw [hr.vvTried]
      exact hperm
    · intro b x
      rw [hfull]
      simp
  have hyields : Lib.Yields (unserialize env) am.serialize am' := by
    rw [hwritten]
    unfold unserialize
    apply (Lib.yields_readLE endOfData (by norm_num)).bind
    apply (yields_readByteVector hkey).bind
    apply (Lib.yields_readLEInt endOfData (by norm_num; omega) (by norm_num; omega)).bind
    apply (Lib.yields_readLEInt endOfData (by norm_num; omega) (by norm_num; omega)).bind
    apply (Lib.yields_readLEInt endOfData (by norm_num; omega) (by norm_num; omega)).bind
    rw [← hnNew, ← hnTried, Int.toNat_natCast, Int.toNat_natCast, Int.toNat_natCast, hnNew, hnTried]
    apply hreadNew.bind
    apply hreadTried.bind
    rw [List.length_finRange] at hreadBuckets
    exact hreadBuckets
  exact ⟨am', hyields, hfilling.valid hloaded hr.nIdCount hrenamed h hok, am.fileIds, hrenamed⟩

/-! ### Tables with a gap -/

/-- The bucket depends on the group of the source, which is the first byte of its address. -/
def twoGroups : NetEnv where
  isRoutable := fun _ => true
  getGroup := fun addr => [addr.ip.get 0]
  hash := fun b => (b.map UInt8.toNat).sum

def hostAddr (n : UInt8) (nTime : UInt32) : CAddress where
  ip := (Vector.replicate 16 1).set 15 n
  port := 8333
  nServices := 1
  nTime := nTime

/-- The address is heard of from a source in the group. -/
def addHost (n : UInt8) (nTime : UInt32) (group : UInt8) : AddrManCall :=
  .add
    { addr := hostAddr n nTime
      source := ⟨Vector.replicate 16 group⟩
      nTimePenalty := 0
      nAdjustedTime := 1000
      nNow := fun _ => 1000
      rand := fun _ => 0 }

/-- The first address gets into the tried table, the second one into two buckets. -/
def firstHosts : List AddrManCall :=
  [addHost 0 1000 1, addHost 1 1000 1, addHost 2 1000 1, addHost 1 1001 2,
    .good (fun _ => 0) (hostAddr 0 1000).toCService 1000]

/-- The ids from 3 to 8 are no longer there. -/
def gappedTables : Option CAddrMan :=
  (({ nKey := [] } : CAddrMan).run twoGroups firstHosts).bind fun am =>
    { am with nIdCount := 9 }.run twoGroups [addHost 3 1000 2]

theorem Valid.skipIds {env : NetEnv} {ok : Int64 → Prop} {am : CAddrMan} {nIdCount : Nat}
    (h : am.Valid env ok fun _ => 0) (hle : am.nIdCount ≤ nIdCount) :
    { am with nIdCount := nIdCount }.Valid env ok fun _ => 0 :=
  { h with ids := fun nId info hget => (h.ids nId info hget).trans_le hle }

theorem gappedTables_valid :
    ∃ am, gappedTables = some am ∧ am.Valid twoGroups (fun nTime => 0 ≤ nTime.toInt) fun _ => 0 := by
  have hgood : ∀ call ∈ firstHosts, call.GoodTimed := by
    simp [firstHosts, addHost, AddrManCall.GoodTimed]
  obtain ⟨am, hrun, hvalid⟩ :=
    (Valid.empty [] : Valid twoGroups (fun nTime => 0 ≤ nTime.toInt) _ _).run (by decide) hgood
      (by simp [firstHosts, addHost, AddrManCall.WellTimed])
  have hcount : (({ nKey := [] } : CAddrMan).run twoGroups firstHosts).map nIdCount = some 3 := by
    decide +kernel
  rw [hrun, Option.map_some, Option.some.injEq] at hcount
  unfold gappedTables
  rw [hrun]
  exact (hvalid.skipIds (by omega)).run (by decide) (by simp [addHost, AddrManCall.GoodTimed])
    (by simp [addHost, AddrManCall.WellTimed])

theorem unserialize_serialize_gappedTables :
    ∃ am, gappedTables = some am ∧ (am.nNew = 3 ∧ am.nTried = 1) ∧ (1 ∈ am.vvNew 6 ∧ 1 ∈ am.vvNew 8) ∧
      ∃ am', (∀ rest, (unserialize twoGroups).run (am.serialize ++ rest) = .ok (am', rest)) ∧
        am'.Valid twoGroups (fun nTime => 0 ≤ nTime.toInt) (fun _ => 0) ∧ ∃ ids, Renamed ids am am' := by
  obtain ⟨am, hrun, hvalid⟩ := gappedTables_valid
  have hcounts : gappedTables.map (fun am => (am.nKey, am.nNew, am.nTried)) = some ([], 3, 1) := by
    decide +kernel
  have hbuckets : gappedTables.map (fun am => decide (1 ∈ am.vvNew 6 ∧ 1 ∈ am.vvNew 8)) = some true := by
    decide +kernel
  rw [hrun, Option.map_some, Option.some.injEq] at hcounts hbuckets
  simp only [Prod.mk.injEq] at hcounts
  obtain ⟨hkey, hnew, htried⟩ := hcounts
  refine ⟨am, hrun, ⟨hnew, htried⟩, of_decide_eq_true hbuckets,
    unserialize_serialize twoGroups (by decide) am hvalid ?_⟩
  rw [hkey]
  exact Nat.zero_le _

end CAddrMan

end ShinyCoin

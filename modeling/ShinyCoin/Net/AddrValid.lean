import ShinyCoin.Net.AddrMan
import ShinyCoin.Lib.Index

/-!
# What holds of the address manager

The tables say the same things several times. `Valid` are the conditions of `Check_`, with the places
of the entries in the buckets; which times are well is left open. In the middle of an
operation the reference count of an entry may be ahead of the new buckets, or behind. One lemma for
each change that an operation makes to the tables.
-/

namespace ShinyCoin

/-- The bucket of a tried entry depends on its service only. -/
theorem CAddrInfo.getTriedBucket_congr (env : NetEnv) (nKey : Bytes)
    {info info' : CAddrInfo}
    (h : info'.toCService = info.toCService) :
    info'.getTriedBucket env nKey = info.getTriedBucket env nKey := by
  simp only [CAddrInfo.getTriedBucket, h]

namespace CAddrMan

variable {env : NetEnv} {ok : Int64 → Prop} {am am' : CAddrMan} {off off' : Nat → ℤ} {nId nId' x : Nat}
  {info info' : CAddrInfo}

/-- An attribute of the entries -/
def field {β : Type} (am : CAddrMan) (f : CAddrInfo → β) (nId : Nat) : Option β :=
  am.mapInfo[nId]?.map f

/-- The bucket that a tried entry belongs to -/
def triedBucket (env : NetEnv) (am : CAddrMan) (nId : Nat) : Option TriedBucket :=
  am.mapInfo[nId]?.bind fun info =>
    if info.fInTried then some (info.getTriedBucket env am.nKey) else none

/-- The new buckets that an id is in -/
def newBuckets (am : CAddrMan) (nId : Nat) : Finset NewBucket :=
  Finset.univ.filter fun b => nId ∈ am.vvNew b

/-- The conditions of `Check_`; `off` is by how much the reference count of an entry is ahead of the
new buckets, and `ok` is what holds of the times of the last try and the last success. -/
structure Valid (env : NetEnv) (ok : Int64 → Prop) (off : Nat → ℤ) (am : CAddrMan) : Prop where
  ids : ∀ (nId : Nat) (info : CAddrInfo), am.mapInfo[nId]? = some info → nId < am.nIdCount
  times : ∀ (nId : Nat) (info : CAddrInfo), am.mapInfo[nId]? = some info →
    ok info.nLastTry ∧ ok info.nLastSuccess
  /-- `vRandom` holds the ids of `mapInfo`, each at its `nRandomPos`. -/
  random : Lib.Positions am.vRandom (am.field fun info => info.nRandomPos)
  /-- `mapAddr` leads from an address to the id that has it. -/
  addr : Lib.Inverse am.mapAddr (am.field fun info => info.toCNetAddr)
  tried_info : ∀ (nId : Nat) (info : CAddrInfo), am.mapInfo[nId]? = some info → info.fInTried = true →
    info.nLastSuccess ≠ 0 ∧ info.nRefCount = 0
  new_info : ∀ (nId : Nat) (info : CAddrInfo), am.mapInfo[nId]? = some info → info.fInTried = false →
    (off nId = 0 → 1 ≤ info.nRefCount) ∧ info.nRefCount ≤ 4
  /-- A tried entry is in the bucket it belongs to and in no other, and nothing else is there. -/
  tried : Lib.Placed am.vvTried (am.triedBucket env)
  tried_nodup : ∀ b, (am.vvTried b).Nodup
  tried_le : ∀ b, (am.vvTried b).length ≤ ADDRMAN_TRIED_BUCKET_SIZE
  /-- An entry is in as many new buckets as it has references. -/
  refs : ∀ nId, (am.field (fun info => info.nRefCount) nId).getD 0
    = (am.newBuckets nId).card + off nId
  new_le : ∀ b, (am.vvNew b).card ≤ ADDRMAN_NEW_BUCKET_SIZE
  nTried_eq : Lib.HasCount (fun nId => am.field (fun info => info.fInTried) nId = some true) am.nTried
  nNew_eq : Lib.HasCount (fun nId => am.field (fun info => info.fInTried) nId = some false) am.nNew

/-! ## Reading the tables -/

theorem field_eq {β : Type} {f : CAddrInfo → β} (h : am.mapInfo[nId]? = some info) :
    am.field f nId = some (f info) := by
  unfold field
  rw [h]
  rfl

theorem field_insert {β : Type} (f : CAddrInfo → β) (nId : Nat) (info : CAddrInfo) (x : Nat) :
    field { am with mapInfo := am.mapInfo.insert nId info } f x
      = if x = nId then some (f info) else am.field f x := by
  unfold field
  rw [Lib.getElem?_insert]
  split <;> rfl

/-- One entry of the table is set. -/
theorem lookup_cases {m : Std.ExtTreeMap Nat CAddrInfo compare}
    (hm : ∀ x, m[x]? = if x = nId then some info' else am.mapInfo[x]?) (h : m[x]? = some info) :
    x = nId ∧ info = info' ∨ x ≠ nId ∧ am.mapInfo[x]? = some info := by
  rw [hm] at h
  split at h
  · next heq => exact .inl ⟨heq, (Option.some.inj h).symm⟩
  · next hne => exact .inr ⟨hne, h⟩

theorem field_of_lookup {β : Type} (f : CAddrInfo → β) {m : Std.ExtTreeMap Nat CAddrInfo compare}
    (hm : ∀ x, m[x]? = if x = nId then some info' else am.mapInfo[x]?) :
    (m[nId]?).map f = some (f info') ∧ ∀ x, x ≠ nId → (m[x]?).map f = am.field f x := by
  constructor
  · rw [hm, if_pos rfl]
    rfl
  · intro x hx
    rw [hm, if_neg hx]
    rfl

theorem field_of_same {β : Type} {m : Std.ExtTreeMap Nat CAddrInfo compare}
    (hm : ∀ x, m[x]? = if x = nId then some info' else am.mapInfo[x]?)
    (hget : am.mapInfo[nId]? = some info) (f : CAddrInfo → β) (hf : f info' = f info) (x : Nat) :
    (m[x]?).map f = am.field f x := by
  by_cases hx : x = nId
  · rw [hx, (field_of_lookup f hm).1, hf, field_eq hget]
  · exact (field_of_lookup f hm).2 x hx

theorem mem_newBuckets {b : NewBucket} : b ∈ am.newBuckets nId ↔ nId ∈ am.vvNew b := by
  unfold newBuckets
  rw [Finset.mem_filter]
  simp

theorem triedBucket_eq (h : am.mapInfo[nId]? = some info) :
    am.triedBucket env nId
      = if info.fInTried then some (info.getTriedBucket env am.nKey) else none := by
  unfold triedBucket
  rw [h]
  rfl

namespace Valid

theorem nRefCount_eq (h : am.Valid env ok off) (hget : am.mapInfo[nId]? = some info) :
    info.nRefCount = (am.newBuckets nId).card + off nId := by
  have hrefs := h.refs nId
  rw [field_eq hget] at hrefs
  exact hrefs

/-- What is in a new bucket has an entry, and is not tried. -/
theorem exists_of_mem_new (h : am.Valid env ok off) {b : NewBucket} (hmem : nId ∈ am.vvNew b)
    (hoff : off nId = 0) : ∃ info, am.mapInfo[nId]? = some info ∧ info.fInTried = false := by
  have hpos : 0 < (am.newBuckets nId).card := Finset.card_pos.mpr ⟨b, mem_newBuckets.mpr hmem⟩
  have hrefs := h.refs nId
  cases hget : am.mapInfo[nId]? with
  | none =>
      unfold field at hrefs
      rw [hget, hoff] at hrefs
      simp only [Option.map_none, Option.getD_none] at hrefs
      omega
  | some info =>
      refine ⟨info, rfl, ?_⟩
      by_contra htried
      have hzero := (h.tried_info nId info hget (by simpa using htried)).2
      have := h.nRefCount_eq hget
      omega

/-- The id behind an address -/
theorem find_eq_some (h : am.Valid env ok off) {addr : CNetAddr} (hfind : am.find addr = some (nId, info)) :
    am.mapInfo[nId]? = some info ∧ info.toCNetAddr = addr := by
  unfold find at hfind
  obtain ⟨id, hid, hfind⟩ := Option.bind_eq_some_iff.mp hfind
  obtain ⟨info', hget, heq⟩ := Option.map_eq_some_iff.mp hfind
  cases heq
  have hattr := (h.addr addr nId).mp hid
  rw [field_eq hget] at hattr
  exact ⟨hget, Option.some.inj hattr⟩

theorem find_eq_none (h : am.Valid env ok off) {addr : CNetAddr} (hfind : am.find addr = none) :
    am.mapAddr addr = none := by
  unfold find at hfind
  cases haddr : am.mapAddr addr with
  | none => rfl
  | some id =>
      have hattr := (h.addr addr id).mp haddr
      obtain ⟨info, hget, -⟩ := Option.map_eq_some_iff.mp hattr
      rw [haddr, Option.bind_some, hget] at hfind
      cases hfind

theorem notMem_tried (h : am.Valid env ok off) (hget : am.mapInfo[nId]? = some info)
    (hnew : info.fInTried = false) (b : TriedBucket) : nId ∉ am.vvTried b := by
  rw [h.tried b nId, triedBucket_eq hget, hnew]
  simp

/-! ## Changing an entry -/

/-- An entry changes in what no other table knows, and perhaps in its reference count. -/
theorem insert_info (h : am.Valid env ok off) (hget : am.mapInfo[nId]? = some info)
    (info' : CAddrInfo) (htimes : ok info'.nLastTry ∧ ok info'.nLastSuccess)
    (haddr : info'.toCService = info.toCService) (hpos : info'.nRandomPos = info.nRandomPos)
    (hin : info'.fInTried = info.fInTried)
    (hrefs : off' nId = off nId + (info'.nRefCount - info.nRefCount))
    (hoff : ∀ x, x ≠ nId → off' x = off x)
    (htried : info'.fInTried = true → info'.nLastSuccess ≠ 0 ∧ info'.nRefCount = 0)
    (hnew : info'.fInTried = false → (off' nId = 0 → 1 ≤ info'.nRefCount) ∧ info'.nRefCount ≤ 4) :
    Valid env ok off' { am with mapInfo := am.mapInfo.insert nId info' } := by
  have hm : ∀ x, (am.mapInfo.insert nId info')[x]? = if x = nId then some info' else am.mapInfo[x]? :=
    fun x => Lib.getElem?_insert _ _ _ _
  have hgetD : ∀ {β : Type} (f : CAddrInfo → β), f info' = f info → ∀ x,
      field { am with mapInfo := am.mapInfo.insert nId info' } f x = am.field f x :=
    fun f hf => field_of_same hm hget f hf
  have hbucket : ∀ x, triedBucket env { am with mapInfo := am.mapInfo.insert nId info' } x
      = am.triedBucket env x := by
    intro x
    unfold triedBucket
    rw [Lib.getElem?_insert]
    split
    · next heq =>
        have hsame := CAddrInfo.getTriedBucket_congr env am.nKey haddr
        rw [heq, hget, Option.bind_some, Option.bind_some, hin]
        dsimp only
        rw [hsame]
    · rfl
  constructor
  case ids =>
    intro x y hxy
    rcases lookup_cases hm hxy with ⟨rfl, -⟩ | ⟨-, hxy⟩
    · exact h.ids x info hget
    · exact h.ids x y hxy
  case times =>
    intro x y hxy
    rcases lookup_cases hm hxy with ⟨-, rfl⟩ | ⟨-, hxy⟩
    · exact htimes
    · exact h.times x y hxy
  case random => exact h.random.congr (hgetD _ hpos)
  case addr => exact h.addr.congr (hgetD _ (congrArg CService.toCNetAddr haddr))
  case tried_info =>
    intro x y hxy
    rcases lookup_cases hm hxy with ⟨-, rfl⟩ | ⟨-, hxy⟩
    · exact htried
    · exact h.tried_info x y hxy
  case new_info =>
    intro x y hxy
    rcases lookup_cases hm hxy with ⟨rfl, rfl⟩ | ⟨hne, hxy⟩
    · exact hnew
    · rw [hoff x hne]
      exact h.new_info x y hxy
  case tried => exact h.tried.congr hbucket
  case tried_nodup => exact h.tried_nodup
  case tried_le => exact h.tried_le
  case refs =>
    intro x
    rw [field_insert]
    by_cases hx : x = nId
    · have := h.nRefCount_eq hget
      rw [if_pos hx, hx, Option.getD_some, hrefs]
      show info'.nRefCount = (am.newBuckets nId).card + _
      omega
    · rw [if_neg hx, hoff x hx]
      exact h.refs x
  case new_le => exact h.new_le
  case nTried_eq => exact h.nTried_eq.congr fun x => by rw [hgetD _ hin]
  case nNew_eq => exact h.nNew_eq.congr fun x => by rw [hgetD _ hin]

/-- The same for a change that leaves the reference count alone -/
theorem insert_stats (h : am.Valid env ok off) (hget : am.mapInfo[nId]? = some info)
    (info' : CAddrInfo) (htimes : ok info'.nLastTry ∧ ok info'.nLastSuccess)
    (haddr : info'.toCService = info.toCService) (hpos : info'.nRandomPos = info.nRandomPos)
    (hin : info'.fInTried = info.fInTried) (hrefs : info'.nRefCount = info.nRefCount)
    (hsuccess : info.nLastSuccess ≠ 0 → info'.nLastSuccess ≠ 0) :
    Valid env ok off { am with mapInfo := am.mapInfo.insert nId info' } := by
  apply h.insert_info hget info' htimes haddr hpos hin (by omega) (fun _ _ => rfl)
  · intro htried
    obtain ⟨hlast, hzero⟩ := h.tried_info nId info hget (hin ▸ htried)
    exact ⟨hsuccess hlast, hrefs.trans hzero⟩
  · intro hnew
    rw [hrefs]
    exact h.new_info nId info hget (hin ▸ hnew)

/-! ## New buckets -/

theorem newBuckets_insert (b : NewBucket) (nId x : Nat) :
    newBuckets { am with vvNew := Function.update am.vvNew b (insert nId (am.vvNew b)) } x
      = if x = nId then insert b (am.newBuckets nId) else am.newBuckets x := by
  ext b'
  rw [mem_newBuckets]
  dsimp only
  by_cases hb : b' = b
  · subst hb
    rw [Function.update_self, Finset.mem_insert]
    split
    · next heq => simp [heq]
    · next hne => simp [hne, mem_newBuckets]
  · rw [Function.update_of_ne hb]
    split
    · next heq => simp [heq, hb, mem_newBuckets]
    · rw [mem_newBuckets]

theorem newBuckets_erase (b : NewBucket) (nId x : Nat) :
    newBuckets { am with vvNew := Function.update am.vvNew b ((am.vvNew b).erase nId) } x
      = if x = nId then (am.newBuckets nId).erase b else am.newBuckets x := by
  ext b'
  rw [mem_newBuckets]
  dsimp only
  by_cases hb : b' = b
  · subst hb
    rw [Function.update_self, Finset.mem_erase]
    split
    · next heq => simp [heq]
    · next hne => simp [hne, mem_newBuckets]
  · rw [Function.update_of_ne hb]
    split
    · next heq => simp [heq, hb, mem_newBuckets]
    · rw [mem_newBuckets]

theorem insert_new (h : am.Valid env ok off) {b : NewBucket} (hnot : nId ∉ am.vvNew b)
    (hlt : (am.vvNew b).card < ADDRMAN_NEW_BUCKET_SIZE) (hid : off' nId = off nId - 1)
    (hoff : ∀ x, x ≠ nId → off' x = off x) :
    Valid env ok off' { am with vvNew := Function.update am.vvNew b (insert nId (am.vvNew b)) } := by
  have hcard : (insert b (am.newBuckets nId)).card = (am.newBuckets nId).card + 1 :=
    Finset.card_insert_of_notMem fun hmem => hnot (mem_newBuckets.mp hmem)
  refine { h with new_info := ?_, refs := ?_, new_le := ?_ }
  · intro x info hget hin
    obtain ⟨hone, hfour⟩ := h.new_info x info hget hin
    refine ⟨fun hzero => ?_, hfour⟩
    by_cases hx : x = nId
    · subst hx
      have := h.nRefCount_eq hget
      omega
    · exact hone ((hoff x hx).symm.trans hzero)
  · intro x
    rw [newBuckets_insert]
    by_cases hx : x = nId
    · have := h.refs nId
      rw [if_pos hx, hx, hcard, hid]
      show (am.field _ nId).getD 0 = _
      omega
    · rw [if_neg hx, hoff x hx]
      exact h.refs x
  · intro b'
    by_cases hb : b' = b
    · subst hb
      show (Function.update am.vvNew b' _ b').card ≤ _
      rw [Function.update_self, Finset.card_insert_of_notMem hnot]
      exact hlt
    · show (Function.update am.vvNew b _ b').card ≤ _
      rw [Function.update_of_ne hb]
      exact h.new_le b'

theorem erase_new (h : am.Valid env ok off) {b : NewBucket} (hmem : nId ∈ am.vvNew b)
    (hid : off' nId = off nId + 1) (hoff : ∀ x, x ≠ nId → off' x = off x)
    (hpos : ∀ info, am.mapInfo[nId]? = some info → info.fInTried = false → 1 ≤ info.nRefCount) :
    Valid env ok off' { am with vvNew := Function.update am.vvNew b ((am.vvNew b).erase nId) } := by
  have hcard : ((am.newBuckets nId).erase b).card + 1 = (am.newBuckets nId).card :=
    Finset.card_erase_add_one (mem_newBuckets.mpr hmem)
  refine { h with new_info := ?_, refs := ?_, new_le := ?_ }
  · intro x info hget hin
    obtain ⟨hone, hfour⟩ := h.new_info x info hget hin
    refine ⟨fun hzero => ?_, hfour⟩
    by_cases hx : x = nId
    · subst hx
      exact hpos info hget hin
    · exact hone ((hoff x hx).symm.trans hzero)
  · intro x
    rw [newBuckets_erase]
    by_cases hx : x = nId
    · have := h.refs nId
      rw [if_pos hx, hx, hid]
      show (am.field _ nId).getD 0 = _
      omega
    · rw [if_neg hx, hoff x hx]
      exact h.refs x
  · intro b'
    by_cases hb : b' = b
    · subst hb
      show (Function.update am.vvNew b' _ b').card ≤ _
      rw [Function.update_self]
      exact (Finset.card_erase_le).trans (h.new_le b')
    · show (Function.update am.vvNew b _ b').card ≤ _
      rw [Function.update_of_ne hb]
      exact h.new_le b'

/-! ## Positions in vRandom -/

end Valid

/-- The same tables, but for the order of `vRandom` and the positions in it -/
structure Reordered (am am' : CAddrMan) : Prop where
  rest : am' = { am with mapInfo := am'.mapInfo, vRandom := am'.vRandom }
  info : ∀ nId, am'.field (fun info => { info with nRandomPos := 0 }) nId
    = am.field (fun info => { info with nRandomPos := 0 }) nId
  length : am'.vRandom.length = am.vRandom.length

namespace Reordered

theorem refl (am : CAddrMan) : Reordered am am := ⟨rfl, fun _ => rfl, rfl⟩

theorem field_eq (h : Reordered am am') {β : Type} (f : CAddrInfo → β)
    (hf : ∀ info : CAddrInfo, f { info with nRandomPos := 0 } = f info) (nId : Nat) :
    am'.field f nId = am.field f nId := by
  have hinfo := congrArg (fun o => o.map f) (h.info nId)
  unfold field at hinfo ⊢
  simp only [Option.map_map, Function.comp_def, hf] at hinfo
  exact hinfo

theorem exists_info (h : Reordered am am') (hget : am'.mapInfo[nId]? = some info') :
    ∃ info, am.mapInfo[nId]? = some info ∧ info' = { info with nRandomPos := info'.nRandomPos } := by
  have hinfo := h.info nId
  rw [CAddrMan.field_eq hget] at hinfo
  obtain ⟨info, hinfo', heq⟩ := Option.map_eq_some_iff.mp hinfo.symm
  refine ⟨info, hinfo', ?_⟩
  cases info
  cases info'
  cases heq
  rfl

theorem get (h : Reordered am am') (hget : am.mapInfo[nId]? = some info) :
    ∃ z, am'.mapInfo[nId]? = some { info with nRandomPos := z } := by
  have hinfo := h.info nId
  rw [CAddrMan.field_eq hget] at hinfo
  obtain ⟨info', hinfo', heq⟩ := Option.map_eq_some_iff.mp hinfo
  refine ⟨info'.nRandomPos, ?_⟩
  rw [hinfo']
  cases info
  cases info'
  cases heq
  rfl

theorem valid (hr : Reordered am am') (h : am.Valid env ok off)
    (hrandom : Lib.Positions am'.vRandom (am'.field fun info => info.nRandomPos)) :
    am'.Valid env ok off := by
  have hbuckets : ∀ x, am'.triedBucket env x = am.triedBucket env x := by
    intro x
    have hkey : am'.nKey = am.nKey := by rw [hr.rest]
    cases hget : am.mapInfo[x]? with
    | none =>
        have hnone : am'.mapInfo[x]? = none := by
          have hinfo := hr.info x
          unfold field at hinfo
          rw [hget] at hinfo
          exact Option.map_eq_none_iff.mp hinfo
        unfold triedBucket
        rw [hget, hnone]
        rfl
    | some info =>
        obtain ⟨z, hget'⟩ := hr.get hget
        rw [triedBucket_eq hget, triedBucket_eq hget', hkey]
        rfl
  have hvvTried : am'.vvTried = am.vvTried := by rw [hr.rest]
  have hvvNew : am'.vvNew = am.vvNew := by rw [hr.rest]
  have hnTried : am'.nTried = am.nTried := by rw [hr.rest]
  have hnNew : am'.nNew = am.nNew := by rw [hr.rest]
  constructor
  case ids =>
    intro x y hxy
    obtain ⟨info, hget, -⟩ := hr.exists_info hxy
    have hcount : am'.nIdCount = am.nIdCount := by rw [hr.rest]
    rw [hcount]
    exact h.ids x info hget
  case times =>
    intro x y hxy
    obtain ⟨info, hget, heq⟩ := hr.exists_info hxy
    rw [heq]
    exact h.times x info hget
  case random => exact hrandom
  case addr =>
    have haddr : am'.mapAddr = am.mapAddr := by rw [hr.rest]
    rw [haddr]
    exact h.addr.congr (hr.field_eq _ fun _ => rfl)
  case tried_info =>
    intro x y hxy hin
    obtain ⟨info, hget, heq⟩ := hr.exists_info hxy
    rw [heq] at hin ⊢
    exact h.tried_info x info hget hin
  case new_info =>
    intro x y hxy hin
    obtain ⟨info, hget, heq⟩ := hr.exists_info hxy
    rw [heq] at hin ⊢
    exact h.new_info x info hget hin
  case tried =>
    rw [hvvTried]
    exact h.tried.congr hbuckets
  case tried_nodup =>
    rw [hvvTried]
    exact h.tried_nodup
  case tried_le =>
    rw [hvvTried]
    exact h.tried_le
  case refs =>
    intro x
    have hnew : am'.newBuckets x = am.newBuckets x := by
      unfold newBuckets
      rw [hvvNew]
    rw [hr.field_eq _ fun _ => rfl, hnew]
    exact h.refs x
  case new_le =>
    rw [hvvNew]
    exact h.new_le
  case nTried_eq =>
    rw [hnTried]
    exact h.nTried_eq.congr fun x => by rw [hr.field_eq _ fun _ => rfl]
  case nNew_eq =>
    rw [hnNew]
    exact h.nNew_eq.congr fun x => by rw [hr.field_eq _ fun _ => rfl]

end Reordered

namespace Valid

theorem get_of_vRandom (h : am.Valid env ok off) {i : Nat} (hi : am.vRandom[i]? = some nId) :
    ∃ info, am.mapInfo[nId]? = some info ∧ info.nRandomPos = i :=
  Option.map_eq_some_iff.mp (h.random.pos_eq hi)

theorem swapRandom (h : am.Valid env ok off) {i j : Nat} (hi : am.vRandom[i]? = some nId)
    (hj : am.vRandom[j]? = some nId') :
    ∃ am', am.swapRandom i j = some am' ∧ am'.Valid env ok off ∧ Reordered am am' ∧
      am'.vRandom[j]? = some nId := by
  by_cases hij : i = j
  · subst hij
    exact ⟨am, if_pos rfl, h, .refl am, hi⟩
  · obtain ⟨info, hget, hpos⟩ := h.get_of_vRandom hi
    obtain ⟨info', hget', hpos'⟩ := h.get_of_vRandom hj
    have hne : nId ≠ nId' := by
      rintro rfl
      rw [hget] at hget'
      cases hget'
      omega
    have hjlt : j < am.vRandom.length := (List.getElem?_eq_some_iff.mp hj).1
    let am₁ : CAddrMan :=
      { am with
        mapInfo := (am.mapInfo.insert nId { info with nRandomPos := j }).insert nId'
          { info' with nRandomPos := i }
        vRandom := (am.vRandom.set i nId').set j nId }
    have hlookup : ∀ x, am₁.mapInfo[x]? = if x = nId' then some { info' with nRandomPos := (i : ℤ) }
        else if x = nId then some { info with nRandomPos := (j : ℤ) } else am.mapInfo[x]? := by
      intro x
      rw [Lib.getElem?_insert, Lib.getElem?_insert]
    have hswap : am.swapRandom i j = some am₁ := by
      have hfirst : am.updateInfo nId (fun info => { info with nRandomPos := j })
          = some { am with mapInfo := am.mapInfo.insert nId { info with nRandomPos := j } } := by
        unfold updateInfo
        rw [hget]
        rfl
      have hsecond : (am.mapInfo.insert nId { info with nRandomPos := (j : ℤ) })[nId']? = some info' := by
        rw [Lib.getElem?_insert, if_neg (Ne.symm hne), hget']
      unfold CAddrMan.swapRandom
      rw [if_neg (by omega), if_neg (by omega), Int.toNat_natCast, Int.toNat_natCast, hi,
        Option.bind_some, hj, Option.bind_some, hfirst, Option.bind_some]
      unfold updateInfo
      dsimp only
      rw [hsecond]
      rfl
    have hreordered : Reordered am am₁ := by
      refine ⟨rfl, ?_, ?_⟩
      · intro x
        unfold field
        rw [hlookup]
        split
        · next heq => rw [heq, hget']; rfl
        · split
          · next heq => rw [heq, hget]; rfl
          · rfl
      · show ((am.vRandom.set i nId').set j nId).length = _
        rw [List.length_set, List.length_set]
    have hrandom : Lib.Positions am₁.vRandom (am₁.field fun info => info.nRandomPos) := by
      apply h.random.swap hi hj hij
      · unfold field
        rw [hlookup, if_neg hne, if_pos rfl]
        rfl
      · unfold field
        rw [hlookup, if_pos rfl]
        rfl
      · intro x hx hx'
        unfold field
        rw [hlookup, if_neg hx', if_neg hx]
    refine ⟨am₁, hswap, hreordered.valid h hrandom, hreordered, ?_⟩
    show ((am.vRandom.set i nId').set j nId)[j]? = _
    rw [List.getElem?_set, if_pos rfl, if_pos (by rw [List.length_set]; exact hjlt)]

/-- An entry without references goes. -/
theorem deleteInfo (h : am.Valid env ok off) (hget : am.mapInfo[nId]? = some info)
    (hin : info.fInTried = false) (hrefs : info.nRefCount = 0) :
    ∃ am', am.deleteInfo nId info = some am' ∧ am'.Valid env ok off ∧ am'.vvNew = am.vvNew ∧
      am'.mapInfo[nId]? = none := by
  obtain ⟨hz, hzlt, hpos⟩ := h.random.get (field_eq hget)
  obtain ⟨i, hi⟩ := Int.eq_ofNat_of_zero_le hz
  rw [hi, Int.toNat_natCast] at hpos
  have hlen : 0 < am.vRandom.length := List.length_pos_of_mem (List.mem_of_getElem? hpos)
  obtain ⟨last, hlast⟩ : ∃ last, am.vRandom[am.vRandom.length - 1]? = some last :=
    ⟨_, List.getElem?_eq_getElem (by omega)⟩
  obtain ⟨am₁, hswap, hvalid, hreordered, hend⟩ := h.swapRandom hpos hlast
  obtain ⟨z, hget₁⟩ := hreordered.get hget
  have hback : am₁.vRandom.getLast? = some nId := by
    rw [List.getLast?_eq_getElem?, hreordered.length]
    exact hend
  have hlookup : ∀ x, (am₁.mapInfo.erase nId)[x]? = if x = nId then none else am₁.mapInfo[x]? :=
    fun x => Lib.getElem?_erase _ _ _
  refine ⟨{ am₁ with
    vRandom := am₁.vRandom.dropLast
    mapAddr := am₁.mapAddr.erase info.toCNetAddr
    mapInfo := am₁.mapInfo.erase nId
    nNew := am₁.nNew - 1 }, ?_, ?_, ?_, ?_⟩
  · unfold CAddrMan.deleteInfo
    rw [hi, show ((am.vRandom.length : ℤ) - 1) = ((am.vRandom.length - 1 : Nat) : ℤ) by omega, hswap]
    rfl
  · have hfield : ∀ {β : Type} (f : CAddrInfo → β) (x : Nat), x ≠ nId →
        ((am₁.mapInfo.erase nId)[x]?).map f = am₁.field f x := by
      intro β f x hx
      rw [hlookup, if_neg hx]
      rfl
    have hgone : ∀ {β : Type} (f : CAddrInfo → β), ((am₁.mapInfo.erase nId)[nId]?).map f = none := by
      intro β f
      rw [hlookup, if_pos rfl]
      rfl
    have hsub : ∀ (x : Nat) (y : CAddrInfo), (am₁.mapInfo.erase nId)[x]? = some y → am₁.mapInfo[x]? = some y := by
      intro x y hxy
      rw [hlookup] at hxy
      split at hxy
      · cases hxy
      · exact hxy
    refine { hvalid with
      ids := ?_, times := ?_, random := ?_, addr := ?_, tried_info := ?_, new_info := ?_, tried := ?_,
      refs := ?_, nTried_eq := ?_, nNew_eq := ?_ }
    · intro x y hxy
      exact hvalid.ids x y (hsub x y hxy)
    · intro x y hxy
      exact hvalid.times x y (hsub x y hxy)
    · exact hvalid.random.pop hback (hgone _) (hfield _)
    · apply hvalid.addr.erase _ (hgone _) (hfield _)
      rw [field_eq hget₁]
    · intro x y hxy
      exact hvalid.tried_info x y (hsub x y hxy)
    · intro x y hxy
      exact hvalid.new_info x y (hsub x y hxy)
    · apply hvalid.tried.congr
      intro x
      unfold triedBucket
      dsimp only
      rw [hlookup]
      split
      · next heq =>
          rw [heq, hget₁, Option.bind_some, Option.bind_none]
          simp [hin]
      · rfl
    · intro x
      have hrefs₁ := hvalid.refs x
      by_cases hx : x = nId
      · subst hx
        rw [field_eq hget₁, Option.getD_some] at hrefs₁
        show (((am₁.mapInfo.erase x)[x]?).map _).getD 0 = _
        rw [hgone, Option.getD_none, ← hrefs]
        exact hrefs₁
      · show (((am₁.mapInfo.erase nId)[x]?).map _).getD 0 = _
        rw [hfield _ x hx]
        exact hrefs₁
    · apply hvalid.nTried_eq.congr
      intro x
      by_cases hx : x = nId
      · subst hx
        show ((am₁.mapInfo.erase x)[x]?).map _ = _ ↔ _
        rw [hgone, field_eq hget₁]
        simp [hin]
      · show ((am₁.mapInfo.erase nId)[x]?).map _ = _ ↔ _
        rw [hfield _ x hx]
    · apply hvalid.nNew_eq.erase (k := nId)
      · rw [field_eq hget₁]
        exact congrArg some hin
      · show ¬ ((am₁.mapInfo.erase nId)[nId]?).map _ = _
        rw [hgone]
        simp
      · intro x hx
        show ((am₁.mapInfo.erase nId)[x]?).map _ = _ ↔ _
        rw [hfield _ x hx]
  · show am₁.vvNew = am.vvNew
    rw [hreordered.rest]
  · exact (hlookup nId).trans (if_pos rfl)

end Valid

end CAddrMan

end ShinyCoin

import ShinyCoin.Net.AddrSteps
import Mathlib.Data.List.Perm.Basic

/-!
# To the tried table and back

`MakeTried` takes an entry out of all new buckets, and an entry of a full bucket goes back to a new
bucket. It is one entry at a time here: the new buckets forget the entry first, then the bucket
loses an entry if it must, then the entry comes in.
-/

namespace ShinyCoin

/-- An item is overwritten. -/
theorem cons_set_perm {α : Type} {l : List α} {i : Nat} {x : α} (h : l[i]? = some x) (a : α) :
    (x :: l.set i a).Perm (a :: l) := by
  obtain ⟨hlt, rfl⟩ := List.getElem?_eq_some_iff.mp h
  have hset : (l[i] :: l.set i a).Perm (l[i] :: a :: l.eraseIdx i) :=
    (List.set_perm_cons_eraseIdx hlt a).cons l[i]
  have hback : (a :: l[i] :: l.eraseIdx i).Perm (a :: l) :=
    (List.getElem_cons_eraseIdx_perm hlt).cons a
  exact (hset.trans (List.Perm.swap _ _ _)).trans hback

theorem swap_perm {α : Type} {l : List α} {i j : Nat} {x y : α} (hi : l[i]? = some x)
    (hj : l[j]? = some y) : ((l.set j x).set i y).Perm l := by
  have hget : (l.set j x)[i]? = some x := by
    rw [List.getElem?_set]
    split
    · next heq =>
        rw [if_pos (heq ▸ (List.getElem?_eq_some_iff.mp hi).1)]
    · exact hi
  have hboth : (x :: (l.set j x).set i y).Perm (x :: l) :=
    (cons_set_perm hget y).trans (cons_set_perm hj x)
  exact hboth.cons_inv

namespace CAddrMan

variable {env : NetEnv} {ok : Int64 → Prop} {am : CAddrMan} {off : Nat → ℤ} {nId : Nat} {info : CAddrInfo}

/-! ## Which entry to evict -/

/-- In the loop of `SelectTried`: the bucket is shuffled, and the oldest entry so far was at a
position of the bucket. -/
structure Selecting (am : CAddrMan) (vTried : List Nat) (sel : Selection) : Prop where
  perm : sel.vTried.Perm vTried
  oldest : ∀ x, sel.nOldest = some x →
    (∃ info, am.mapInfo[x]? = some info) ∧ ∃ p, sel.nOldestPos = some p ∧ p < vTried.length

theorem Selecting.step {vTried : List Nat} {sel : Selection} (h : am.Selecting vTried sel)
    (hall : ∀ x ∈ vTried, ∃ info, am.mapInfo[x]? = some info) (rand : Nat → Nat) {i : Nat}
    (hi : i < vTried.length) :
    ∃ sel', am.selectStep rand sel i = some sel' ∧ am.Selecting vTried sel' ∧ sel'.nOldest ≠ none := by
  have hlen : sel.vTried.length = vTried.length := h.perm.length_eq
  have hlt : getRandInt (rand i) (sel.vTried.length - i) + i < vTried.length := by
    unfold getRandInt
    rw [if_neg (by omega)]
    have := Nat.mod_lt (rand i) (show sel.vTried.length - i > 0 by omega)
    omega
  unfold selectStep
  dsimp only
  generalize hnPos : getRandInt (rand i) (sel.vTried.length - i) + i = nPos at hlt ⊢
  obtain ⟨nTemp, hpos⟩ : ∃ x, sel.vTried[nPos]? = some x := ⟨_, List.getElem?_eq_getElem (by omega)⟩
  obtain ⟨front, hfront⟩ : ∃ x, sel.vTried[i]? = some x := ⟨_, List.getElem?_eq_getElem (by omega)⟩
  have hperm : ((sel.vTried.set nPos front).set i nTemp).Perm vTried :=
    (swap_perm hfront hpos).trans h.perm
  obtain ⟨info, hget⟩ := hall nTemp (h.perm.mem_iff.mp (List.mem_of_getElem? hpos))
  have hchosen : am.Selecting vTried ⟨(sel.vTried.set nPos front).set i nTemp, some nTemp, some nPos⟩ := by
    refine ⟨hperm, ?_⟩
    intro x hx
    cases hx
    exact ⟨⟨info, hget⟩, nPos, rfl, hlt⟩
  rw [hpos, Option.bind_some, hfront, Option.bind_some]
  cases hold : sel.nOldest with
  | none => exact ⟨_, rfl, hchosen, Option.some_ne_none _⟩
  | some nOldest =>
      obtain ⟨⟨infoOldest, hgetOld⟩, hkept⟩ := h.oldest nOldest hold
      dsimp only
      rw [hget, Option.bind_some, hgetOld, Option.map_some]
      refine ⟨_, rfl, ?_⟩
      split
      · exact ⟨hchosen, Option.some_ne_none _⟩
      · refine ⟨⟨hperm, ?_⟩, ?_⟩
        · intro x hx
          exact h.oldest x (hold.trans hx)
        · exact Option.some_ne_none _

/-- A bucket that is not empty has an entry to evict, and is only shuffled. -/
theorem selectTried_eq {b : TriedBucket} (rand : Nat → Nat)
    (hall : ∀ x ∈ am.vvTried b, ∃ info, am.mapInfo[x]? = some info) (hne : am.vvTried b ≠ []) :
    ∃ p vTried, am.selectTried rand b
        = some (some p, { am with vvTried := Function.update am.vvTried b vTried }) ∧
      vTried.Perm (am.vvTried b) ∧ p < vTried.length := by
  unfold selectTried
  have hpos := List.length_pos_of_ne_nil hne
  obtain ⟨n, hn⟩ : ∃ n, min ADDRMAN_TRIED_ENTRIES_INSPECT_ON_EVICT (am.vvTried b).length = n + 1 := by
    refine ⟨min ADDRMAN_TRIED_ENTRIES_INSPECT_ON_EVICT (am.vvTried b).length - 1, ?_⟩
    have : 0 < ADDRMAN_TRIED_ENTRIES_INSPECT_ON_EVICT := by decide
    omega
  dsimp only
  rw [hn]
  have hfirst : am.Selecting (am.vvTried b) { vTried := am.vvTried b } := by
    refine ⟨List.Perm.refl _, ?_⟩
    intro x hx
    cases hx
  obtain ⟨sel₁, hstep, hsel₁, hold₁⟩ := hfirst.step hall rand hpos
  obtain ⟨sel, hloop, hsel, hold⟩ := Lib.foldlM_exists
    (fun sel : Selection => am.Selecting (am.vvTried b) sel ∧ sel.nOldest ≠ none)
    (f := am.selectStep rand) (s := sel₁) (l := List.range' 1 n)
    (fun sel i hi hI => by
      have hlt : i < (am.vvTried b).length := by
        have := List.mem_range'_1.mp hi
        omega
      exact hI.1.step hall rand hlt)
    ⟨hsel₁, hold₁⟩
  obtain ⟨x, hx⟩ := Option.ne_none_iff_exists'.mp hold
  obtain ⟨-, p, hp, hplt⟩ := hsel.oldest x hx
  refine ⟨p, sel.vTried, ?_, hsel.perm, by rw [hsel.perm.length_eq]; exact hplt⟩
  rw [List.range_eq_range', List.range'_succ, List.foldlM_cons, hstep]
  show Option.map _ (List.foldlM (am.selectStep rand) sel₁ (List.range' (0 + 1) n)) = _
  rw [hloop, Option.map_some, hp]

namespace Valid

theorem exists_of_mem_tried (h : am.Valid env ok off) {b : TriedBucket} (hmem : nId ∈ am.vvTried b) :
    ∃ info, am.mapInfo[nId]? = some info ∧ info.fInTried = true ∧
      info.getTriedBucket env am.nKey = b := by
  rw [h.tried b nId] at hmem
  unfold triedBucket at hmem
  obtain ⟨info, hget, hmem⟩ := Option.bind_eq_some_iff.mp hmem
  split at hmem
  · next hin => exact ⟨info, hget, hin, Option.some.inj hmem⟩
  · cases hmem

/-! ## One entry at a time -/

theorem newBuckets_eq_empty (h : am.Valid env ok off) (hget : am.mapInfo[nId]? = some info)
    (hrefs : info.nRefCount = off nId) (b : NewBucket) : nId ∉ am.vvNew b := by
  have hcard := h.nRefCount_eq hget
  have hempty : am.newBuckets nId = ∅ := Finset.card_eq_zero.mp (by omega)
  intro hmem
  have hb := mem_newBuckets.mpr hmem
  rw [hempty] at hb
  exact absurd hb (Finset.notMem_empty b)

/-- The new buckets forget an entry. -/
theorem erase_all_new (h : am.Valid env ok fun _ => 0) (hget : am.mapInfo[nId]? = some info)
    (hin : info.fInTried = false) :
    Valid env ok (Function.update (fun _ => 0) nId info.nRefCount)
      { am with vvNew := fun b => (am.vvNew b).erase nId } := by
  have hone := (h.new_info nId info hget hin).1 rfl
  refine { h with new_info := ?_, refs := ?_, new_le := ?_ }
  · intro x y hxy hy
    obtain ⟨hpos, hfour⟩ := h.new_info x y hxy hy
    exact ⟨fun _ => hpos rfl, hfour⟩
  · intro x
    have hrefs := h.refs x
    by_cases hx : x = nId
    · subst hx
      have hnone : newBuckets { am with vvNew := fun b => (am.vvNew b).erase x } x = ∅ := by
        apply Finset.eq_empty_of_forall_notMem
        intro b hb
        exact absurd (mem_newBuckets.mp hb) (Finset.notMem_erase x _)
      rw [hnone, Function.update_self]
      show (am.field _ x).getD 0 = _
      rw [field_eq hget]
      simp
    · have hsame : newBuckets { am with vvNew := fun b => (am.vvNew b).erase nId } x
          = am.newBuckets x := by
        ext b
        rw [mem_newBuckets, mem_newBuckets]
        dsimp only
        rw [Finset.mem_erase]
        simp [hx]
      rw [hsame, Function.update_of_ne hx]
      exact hrefs
  · intro b
    exact Finset.card_erase_le.trans (h.new_le b)

/-- A tried entry leaves its bucket, with a reference that is not in a bucket yet. -/
theorem untry (h : am.Valid env ok off) {b : TriedBucket} {vTried : List Nat}
    (hmem : nId ∈ am.vvTried b) (hget : am.mapInfo[nId]? = some info) (hoff : off nId = 0)
    (hperm : (nId :: vTried).Perm (am.vvTried b)) :
    Valid env ok (Function.update off nId 1)
      { am with
        mapInfo := am.mapInfo.insert nId { info with fInTried := false, nRefCount := 1 }
        nNew := am.nNew + 1
        nTried := am.nTried - 1
        vvTried := Function.update am.vvTried b vTried } := by
  have hplace := (h.tried b nId).mp hmem
  obtain ⟨info', hget', hin, -⟩ := h.exists_of_mem_tried hmem
  cases hget.symm.trans hget'
  have hrefs := h.nRefCount_eq hget
  rw [(h.tried_info nId info hget hin).2, hoff] at hrefs
  have hnodup := hperm.nodup_iff.mpr (h.tried_nodup b)
  have hlen := hperm.length_eq
  let info₁ : CAddrInfo := { info with fInTried := false, nRefCount := 1 }
  have hm : ∀ x, (am.mapInfo.insert nId info₁)[x]? = if x = nId then some info₁ else am.mapInfo[x]? :=
    fun x => Lib.getElem?_insert _ _ _ _
  refine { h with
    ids := ?_, times := ?_, random := ?_, addr := ?_, tried_info := ?_, new_info := ?_, tried := ?_,
    tried_nodup := ?_, tried_le := ?_, refs := ?_, nTried_eq := ?_, nNew_eq := ?_ }
  · intro x y hxy
    rcases lookup_cases hm hxy with ⟨rfl, -⟩ | ⟨-, hxy⟩
    · exact h.ids x info hget
    · exact h.ids x y hxy
  · intro x y hxy
    rcases lookup_cases hm hxy with ⟨-, rfl⟩ | ⟨-, hxy⟩
    · exact h.times nId info hget
    · exact h.times x y hxy
  · exact h.random.congr (field_of_same hm hget _ rfl)
  · exact h.addr.congr (field_of_same hm hget _ rfl)
  · intro x y hxy hy
    rcases lookup_cases hm hxy with ⟨-, rfl⟩ | ⟨-, hxy⟩
    · cases hy
    · exact h.tried_info x y hxy hy
  · intro x y hxy hy
    rcases lookup_cases hm hxy with ⟨rfl, rfl⟩ | ⟨hne, hxy⟩
    · exact ⟨fun _ => le_refl _, show (1 : ℤ) ≤ 4 by decide⟩
    · rw [Function.update_of_ne hne]
      exact h.new_info x y hxy hy
  · apply h.tried.erase hplace
    · intro x
      rw [← hperm.mem_iff, List.mem_cons]
      constructor
      · intro hx
        refine ⟨?_, .inr hx⟩
        rintro rfl
        exact (List.nodup_cons.mp hnodup).1 hx
      · rintro ⟨hne, rfl | hx⟩
        · exact absurd rfl hne
        · exact hx
    · unfold triedBucket
      rw [hm, if_pos rfl]
      rfl
    · intro x hx
      unfold triedBucket
      rw [hm, if_neg hx]
  · intro b'
    show (Function.update am.vvTried b vTried b').Nodup
    by_cases hb : b' = b
    · rw [hb, Function.update_self]
      exact (List.nodup_cons.mp hnodup).2
    · rw [Function.update_of_ne hb]
      exact h.tried_nodup b'
  · intro b'
    show (Function.update am.vvTried b vTried b').length ≤ _
    by_cases hb : b' = b
    · have := h.tried_le b
      rw [hb, Function.update_self]
      rw [List.length_cons] at hlen
      omega
    · rw [Function.update_of_ne hb]
      exact h.tried_le b'
  · intro x
    show (((am.mapInfo.insert nId info₁)[x]?).map _).getD 0 = ((am.newBuckets x).card : ℤ) + _
    by_cases hx : x = nId
    · rw [hx, (field_of_lookup _ hm).1, Function.update_self, Option.getD_some]
      show (1 : ℤ) = _
      omega
    · rw [(field_of_lookup _ hm).2 x hx, Function.update_of_ne hx]
      exact h.refs x
  · apply h.nTried_eq.erase (k := nId)
    · rw [field_eq hget, hin]
    · show ¬ ((am.mapInfo.insert nId info₁)[nId]?).map _ = _
      rw [(field_of_lookup _ hm).1]
      simp [info₁]
    · intro x hx
      show ((am.mapInfo.insert nId info₁)[x]?).map _ = _ ↔ _
      rw [(field_of_lookup _ hm).2 x hx]
  · apply h.nNew_eq.insert (k := nId)
    · rw [field_eq hget, hin]
      simp
    · exact (field_of_lookup _ hm).1
    · intro x hx
      show ((am.mapInfo.insert nId info₁)[x]?).map _ = _ ↔ _
      rw [(field_of_lookup _ hm).2 x hx]

/-- A tried entry goes back to a new bucket that has room. -/
theorem demote (h : am.Valid env ok off) {b : TriedBucket} {nBack : NewBucket} {vTried : List Nat}
    (hmem : nId ∈ am.vvTried b) (hget : am.mapInfo[nId]? = some info) (hoff : off nId = 0)
    (hroom : (am.vvNew nBack).card < ADDRMAN_NEW_BUCKET_SIZE)
    (hperm : (nId :: vTried).Perm (am.vvTried b)) :
    Valid env ok off
      { am with
        mapInfo := am.mapInfo.insert nId { info with fInTried := false, nRefCount := 1 }
        vvNew := Function.update am.vvNew nBack (insert nId (am.vvNew nBack))
        nNew := am.nNew + 1
        nTried := am.nTried - 1
        vvTried := Function.update am.vvTried b vTried } := by
  obtain ⟨info', hget', hin, -⟩ := h.exists_of_mem_tried hmem
  cases hget.symm.trans hget'
  have hnot : nId ∉ am.vvNew nBack :=
    h.newBuckets_eq_empty hget (by rw [hoff]; exact (h.tried_info nId info hget hin).2) nBack
  apply (h.untry hmem hget hoff hperm).insert_new hnot hroom
  · rw [hoff, Function.update_self]
    rfl
  · intro x hx
    exact (Function.update_of_ne hx _ _).symm

/-- An entry in no new bucket comes into its tried bucket, if there is room. -/
theorem promote (h : am.Valid env ok (Function.update (fun _ => 0) nId info.nRefCount))
    (hget : am.mapInfo[nId]? = some info) (hin : info.fInTried = false)
    (hsuccess : info.nLastSuccess ≠ 0) (vTried : List Nat)
    (hroom : (am.vvTried (info.getTriedBucket env am.nKey)).length < ADDRMAN_TRIED_BUCKET_SIZE)
    (hperm : vTried.Perm (nId :: am.vvTried (info.getTriedBucket env am.nKey)))
    {m : Std.ExtTreeMap Nat CAddrInfo compare}
    (hm : ∀ x, m[x]? = if x = nId then some { info with fInTried := true, nRefCount := 0 }
      else am.mapInfo[x]?) :
    Valid env ok (fun _ => 0)
      { am with
        mapInfo := m
        nNew := am.nNew - 1
        nTried := am.nTried + 1
        vvTried := Function.update am.vvTried (info.getTriedBucket env am.nKey) vTried } := by
  have hnot := h.notMem_tried hget hin (info.getTriedBucket env am.nKey)
  have hrefs := h.nRefCount_eq hget
  rw [Function.update_self] at hrefs
  generalize hb : info.getTriedBucket env am.nKey = b at *
  refine { h with
    ids := ?_, times := ?_, random := ?_, addr := ?_, tried_info := ?_, new_info := ?_, tried := ?_,
    tried_nodup := ?_, tried_le := ?_, refs := ?_, nTried_eq := ?_, nNew_eq := ?_ }
  · intro x y hxy
    rcases lookup_cases hm hxy with ⟨rfl, -⟩ | ⟨-, hxy⟩
    · exact h.ids x info hget
    · exact h.ids x y hxy
  · intro x y hxy
    rcases lookup_cases hm hxy with ⟨-, rfl⟩ | ⟨-, hxy⟩
    · exact h.times nId info hget
    · exact h.times x y hxy
  · exact h.random.congr (field_of_same hm hget _ rfl)
  · exact h.addr.congr (field_of_same hm hget _ rfl)
  · intro x y hxy hy
    rcases lookup_cases hm hxy with ⟨-, rfl⟩ | ⟨-, hxy⟩
    · exact ⟨hsuccess, rfl⟩
    · exact h.tried_info x y hxy hy
  · intro x y hxy hy
    rcases lookup_cases hm hxy with ⟨rfl, rfl⟩ | ⟨hne, hxy⟩
    · cases hy
    · obtain ⟨hpos, hfour⟩ := h.new_info x y hxy hy
      exact ⟨fun _ => hpos (Function.update_of_ne hne _ _), hfour⟩
  · apply h.tried.insert (k := nId)
    · rw [triedBucket_eq hget, hin]
      rfl
    · intro x
      rw [hperm.mem_iff, List.mem_cons]
    · unfold triedBucket
      rw [hm, if_pos rfl, ← hb]
      rfl
    · intro x hx
      unfold triedBucket
      rw [hm, if_neg hx]
  · intro b'
    show (Function.update am.vvTried b vTried b').Nodup
    by_cases hb' : b' = b
    · rw [hb', Function.update_self, hperm.nodup_iff]
      exact List.nodup_cons.mpr ⟨hnot, h.tried_nodup b⟩
    · rw [Function.update_of_ne hb']
      exact h.tried_nodup b'
  · intro b'
    show (Function.update am.vvTried b vTried b').length ≤ _
    by_cases hb' : b' = b
    · rw [hb', Function.update_self, hperm.length_eq]
      exact hroom
    · rw [Function.update_of_ne hb']
      exact h.tried_le b'
  · intro x
    show ((m[x]?).map _).getD 0 = ((am.newBuckets x).card : ℤ) + _
    by_cases hx : x = nId
    · rw [hx, (field_of_lookup _ hm).1, Option.getD_some]
      show (0 : ℤ) = _ + 0
      omega
    · have := h.refs x
      rw [Function.update_of_ne hx] at this
      rw [(field_of_lookup _ hm).2 x hx]
      exact this
  · apply h.nTried_eq.insert (k := nId)
    · rw [field_eq hget, hin]
      simp
    · exact (field_of_lookup _ hm).1
    · intro x hx
      show (m[x]?).map _ = _ ↔ _
      rw [(field_of_lookup _ hm).2 x hx]
  · apply h.nNew_eq.erase (k := nId)
    · rw [field_eq hget, hin]
    · show ¬ (m[nId]?).map _ = _
      rw [(field_of_lookup _ hm).1]
      simp
    · intro x hx
      show (m[x]?).map _ = _ ↔ _
      rw [(field_of_lookup _ hm).2 x hx]

/-! ## The operations -/

theorem removeFromAllNew_eq (h : am.Valid env ok fun _ => 0) (hget : am.mapInfo[nId]? = some info) :
    am.removeFromAllNew nId = some { am with
      mapInfo := am.mapInfo.insert nId { info with nRefCount := 0 }
      vvNew := fun b => (am.vvNew b).erase nId
      nNew := am.nNew - 1 } := by
  have hcount : info.nRefCount - ((am.newBuckets nId).card : ℤ) = 0 := by
    have := h.nRefCount_eq hget
    omega
  unfold newBuckets at hcount
  unfold CAddrMan.removeFromAllNew
  dsimp only
  rw [updateInfo_eq _ hget, Option.map_some]
  dsimp only
  rw [hcount]

theorem makeTried (h : am.Valid env ok fun _ => 0) (rand : Nat → Nat) {nOrigin : NewBucket}
    (hget : am.mapInfo[nId]? = some info) (hin : info.fInTried = false)
    (hsuccess : info.nLastSuccess ≠ 0) (hmem : nId ∈ am.vvNew nOrigin) :
    ∃ am', am.makeTried env rand nId nOrigin = some am' ∧ am'.Valid env ok fun _ => 0 := by
  have hforgot := h.erase_all_new hget hin
  have hnot := h.notMem_tried hget hin
  unfold CAddrMan.makeTried
  rw [if_neg (not_not.mpr hmem), h.removeFromAllNew_eq hget, Option.bind_some]
  dsimp only
  have hget₁ : (am.mapInfo.insert nId { info with nRefCount := 0 })[nId]?
      = some { info with nRefCount := 0 } := by
    rw [Lib.getElem?_insert, if_pos rfl]
  have hbucket : CAddrInfo.getTriedBucket env am.nKey { info with nRefCount := 0 }
      = info.getTriedBucket env am.nKey := CAddrInfo.getTriedBucket_congr env am.nKey rfl
  rw [hget₁, Option.bind_some, if_neg (not_not.mpr rfl), hbucket]
  by_cases hroom : (am.vvTried (info.getTriedBucket env am.nKey)).length < ADDRMAN_TRIED_BUCKET_SIZE
  · rw [if_pos hroom, Option.bind_some, updateInfo_eq _ hget₁]
    refine ⟨_, rfl, ?_⟩
    apply hforgot.promote hget hin hsuccess _ hroom (List.perm_append_singleton _ _)
    intro x
    rw [Lib.getElem?_insert, Lib.getElem?_insert]
    split <;> rfl
  · rw [if_neg hroom]
    generalize hb : info.getTriedBucket env am.nKey = b at *
    have hfull : (am.vvTried b).length = ADDRMAN_TRIED_BUCKET_SIZE :=
      le_antisymm (h.tried_le b) (not_lt.mp hroom)
    have hne : am.vvTried b ≠ [] := by
      intro hnil
      rw [hnil] at hfull
      exact absurd hfull (by decide)
    have hall : ∀ x ∈ am.vvTried b, ∃ y,
        (am.mapInfo.insert nId { info with nRefCount := 0 })[x]? = some y ∧ am.mapInfo[x]? = some y := by
      intro x hx
      obtain ⟨y, hy, -⟩ := h.exists_of_mem_tried hx
      have hxne : x ≠ nId := by
        rintro rfl
        exact hnot b hx
      refine ⟨y, ?_, hy⟩
      rw [Lib.getElem?_insert, if_neg hxne, hy]
    let am₁ : CAddrMan := { am with
      mapInfo := am.mapInfo.insert nId { info with nRefCount := 0 }
      vvNew := fun b => (am.vvNew b).erase nId
      nNew := am.nNew - 1 }
    have hall₁ : ∀ x ∈ am₁.vvTried b, ∃ y, am₁.mapInfo[x]? = some y :=
      fun x hx => (hall x hx).imp fun _ hy => hy.1
    obtain ⟨p, vTried, hselect, hperm, hp⟩ := selectTried_eq rand hall₁ hne
    obtain ⟨old, hold⟩ : ∃ x, vTried[p]? = some x := ⟨_, List.getElem?_eq_getElem hp⟩
    have hmemOld : old ∈ am.vvTried b := hperm.mem_iff.mp (List.mem_of_getElem? hold)
    obtain ⟨infoOld, hgetOld₁, hgetOld⟩ := hall old hmemOld
    have hneOld : old ≠ nId := by
      rintro rfl
      exact hnot b hmemOld
    rw [hselect, Option.bind_some]
    dsimp only
    rw [Option.bind_some]
    unfold evictTried
    dsimp only
    rw [Function.update_self, hold, Option.bind_some, hgetOld₁, Option.map_some, Option.bind_some]
    generalize hnBack : (if ((am.vvNew (infoOld.getNewBucket env am.nKey)).erase nId).card
      < ADDRMAN_NEW_BUCKET_SIZE then infoOld.getNewBucket env am.nKey else nOrigin) = nBack
    have hback : ((am.vvNew nBack).erase nId).card < ADDRMAN_NEW_BUCKET_SIZE := by
      rw [← hnBack]
      split
      · assumption
      · -- the bucket the new tried entry was in has room now
        exact (Finset.card_erase_lt_of_mem hmem).trans_le (h.new_le nOrigin)
    have hrest := List.perm_cons_erase hmemOld
    have hdemoted := hforgot.demote (b := b) hmemOld hgetOld (Function.update_of_ne hneOld _ _) hback
      hrest.symm
    have hgetNew : (am.mapInfo.insert old { infoOld with fInTried := false, nRefCount := 1 })[nId]?
        = some info := by
      rw [Lib.getElem?_insert, if_neg (Ne.symm hneOld), hget]
    have hgetNew₁ : ((am.mapInfo.insert nId { info with nRefCount := 0 }).insert old
        { infoOld with fInTried := false, nRefCount := 1 })[nId]? = some { info with nRefCount := 0 } := by
      rw [Lib.getElem?_insert, if_neg (Ne.symm hneOld), hget₁]
    have hplaced : (vTried.set p nId).Perm (nId :: (am.vvTried b).erase old) := by
      have hset : (old :: vTried.set p nId).Perm (nId :: vTried) := cons_set_perm hold nId
      have hall : (nId :: vTried).Perm (nId :: old :: (am.vvTried b).erase old) :=
        (hperm.trans hrest).cons nId
      exact ((hset.trans hall).trans (List.Perm.swap _ _ _)).cons_inv
    rw [updateInfo_eq _ hgetNew₁]
    refine ⟨_, rfl, ?_⟩
    have hpromoted := hdemoted.promote (m := ((am.mapInfo.insert nId { info with nRefCount := 0 }).insert
          old { infoOld with fInTried := false, nRefCount := 1 }).insert nId
        { info with fInTried := true, nRefCount := 0 }) hgetNew hin hsuccess (vTried.set p nId)
      (by
        dsimp only
        rw [hb, Function.update_self, List.length_erase_of_mem hmemOld, hfull]
        exact Nat.sub_lt (by decide) Nat.one_pos)
      (by
        dsimp only
        rw [hb, Function.update_self]
        exact hplaced)
      (by
        intro x
        simp only [Lib.getElem?_insert]
        by_cases hx : x = nId
        · rw [if_pos hx, if_pos hx]
        · rw [if_neg hx, if_neg hx, if_neg hx])
    dsimp only at hpromoted
    rw [hb, Function.update_idem, add_sub_cancel_right, sub_add_cancel] at hpromoted
    dsimp only
    rw [Function.update_idem, sub_add_cancel]
    exact hpromoted

/-- `Good_` -/
theorem good (h : am.Valid env ok fun _ => 0) (rand : Nat → Nat) (addr : CService) {nTime : Int64}
    (hok : ok nTime) (hne : nTime ≠ 0) :
    ∃ am', am.good env rand addr nTime = some am' ∧ am'.Valid env ok fun _ => 0 := by
  unfold CAddrMan.good
  cases hfind : am.find addr.toCNetAddr with
  | none => exact ⟨am, rfl, h⟩
  | some found =>
      obtain ⟨nId, info⟩ := found
      obtain ⟨hget, -⟩ := h.find_eq_some hfind
      dsimp only
      split
      · exact ⟨am, rfl, h⟩
      · rw [updateInfo_eq _ hget, Option.bind_some]
        generalize hinfo : ({ info with
          nLastSuccess := nTime
          nLastTry := nTime
          nTime := timeOf nTime.toInt
          nAttempts := 0 } : CAddrInfo) = info₁
        have hvalid : Valid env ok (fun _ => 0) { am with mapInfo := am.mapInfo.insert nId info₁ } := by
          rw [← hinfo]
          exact h.insert_stats hget _ ⟨hok, hok⟩ rfl rfl rfl rfl fun _ => hne
        split
        · exact ⟨_, rfl, hvalid⟩
        · next hin =>
            cases hbucket : bucketOf { am with mapInfo := am.mapInfo.insert nId info₁ }
                (getRandInt (rand 0) ADDRMAN_NEW_BUCKET_COUNT) nId with
            | none => exact ⟨_, rfl, hvalid⟩
            | some b =>
                have hget₁ : (am.mapInfo.insert nId info₁)[nId]? = some info₁ := by
                  rw [Lib.getElem?_insert, if_pos rfl]
                have hmem : nId ∈ am.vvNew b := by
                  simpa using List.find?_some hbucket
                apply hvalid.makeTried (fun k => rand (k + 1)) hget₁ _ _ hmem
                · rw [← hinfo]
                  simpa using hin
                · rw [← hinfo]
                  exact hne

end Valid

end CAddrMan

end ShinyCoin

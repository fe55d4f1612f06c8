import ShinyCoin.Net.AddrValid

/-!
# The address manager stays consistent

Every operation keeps `Valid`, and no assertion in it fails. Deleting makes room in a full bucket, an
entry that is evicted from the tried table finds room in a new bucket, and the reference counts are
right again in the end.
-/

namespace ShinyCoin

namespace CAddrMan

variable {env : NetEnv} {ok : Int64 → Prop} {am : CAddrMan} {off : Nat → ℤ} {nId : Nat} {info : CAddrInfo}

namespace Valid

/-! ## Making room in a new bucket -/

theorem updateInfo_eq (f : CAddrInfo → CAddrInfo) (hget : am.mapInfo[nId]? = some info) :
    am.updateInfo nId f = some { am with mapInfo := am.mapInfo.insert nId (f info) } := by
  unfold updateInfo
  rw [hget]
  rfl

/-- An entry loses a new bucket, and goes if it was the last one. -/
theorem removeFromNew (h : am.Valid env ok off) {b : NewBucket} (hmem : nId ∈ am.vvNew b)
    (hoff : off nId = 0) :
    ∃ am', am.removeFromNew b nId = some am' ∧ am'.Valid env ok off ∧
      am'.vvNew = Function.update am.vvNew b ((am.vvNew b).erase nId) := by
  obtain ⟨info, hget, hin⟩ := h.exists_of_mem_new hmem hoff
  obtain ⟨hone, hfour⟩ := h.new_info nId info hget hin
  have hone := hone hoff
  let info₁ : CAddrInfo := { info with nRefCount := info.nRefCount - 1 }
  let am₁ : CAddrMan := { am with mapInfo := am.mapInfo.insert nId info₁ }
  have hvalid₁ : am₁.Valid env ok (Function.update off nId (off nId - 1)) := by
    apply h.insert_info hget info₁ (h.times nId info hget) rfl rfl rfl
    · rw [Function.update_self]
      show off nId - 1 = off nId + (info.nRefCount - 1 - info.nRefCount)
      omega
    · intro x hx
      exact Function.update_of_ne hx _ _
    · intro htried
      exact absurd (hin.symm.trans htried) (by decide)
    · intro _
      refine ⟨fun hzero => ?_, ?_⟩
      · rw [Function.update_self] at hzero
        omega
      · show info.nRefCount - 1 ≤ 4
        omega
  have hget₁ : am₁.mapInfo[nId]? = some info₁ := by
    show (am.mapInfo.insert nId info₁)[nId]? = _
    rw [Lib.getElem?_insert, if_pos rfl]
  have hback : ∀ x, x ≠ nId → off x = Function.update off nId (off nId - 1) x :=
    fun x hx => (Function.update_of_ne hx _ _).symm
  have hid : off nId = Function.update off nId (off nId - 1) nId + 1 := by
    rw [Function.update_self]
    omega
  unfold CAddrMan.removeFromNew
  rw [hget, Option.bind_some]
  by_cases hlast : info.nRefCount - 1 = 0
  · obtain ⟨am₂, hdelete, hvalid₂, hnew, hgone⟩ := hvalid₁.deleteInfo hget₁ hin hlast
    have hmem₂ : nId ∈ am₂.vvNew b := by
      rw [hnew]
      exact hmem
    refine ⟨{ am₂ with vvNew := Function.update am₂.vvNew b ((am₂.vvNew b).erase nId) }, ?_, ?_, ?_⟩
    · dsimp only
      rw [if_pos hlast, hdelete]
      rfl
    · apply hvalid₂.erase_new hmem₂ hid hback
      intro x hx
      rw [hgone] at hx
      cases hx
    · show Function.update am₂.vvNew b _ = _
      rw [hnew]
  · refine ⟨{ am₁ with vvNew := Function.update am₁.vvNew b ((am₁.vvNew b).erase nId) }, ?_, ?_, rfl⟩
    · dsimp only
      rw [if_neg hlast]
      rfl
    · apply hvalid₁.erase_new hmem hid hback
      intro x hx _
      rw [hget₁] at hx
      cases hx
      show 1 ≤ info.nRefCount - 1
      omega

theorem firstTerrible (nNow : Nat → ℤ) {ids : List Nat} (i : Nat)
    (hall : ∀ x ∈ ids, ∃ info, am.mapInfo[x]? = some info) :
    ∃ r, am.firstTerrible nNow ids i = some r ∧ ∀ x, r = some x → x ∈ ids := by
  induction ids generalizing i with
  | nil => exact ⟨none, rfl, by simp⟩
  | cons y ids ih =>
      obtain ⟨info, hget⟩ := hall y List.mem_cons_self
      unfold CAddrMan.firstTerrible
      rw [hget, Option.bind_some]
      split
      · refine ⟨some y, rfl, ?_⟩
        intro x hx
        cases hx
        exact List.mem_cons_self
      · obtain ⟨r, hr, hmem⟩ := ih (i + 1) fun x hx => hall x (List.mem_cons_of_mem _ hx)
        exact ⟨r, hr, fun x hx => List.mem_cons_of_mem _ (hmem x hx)⟩

/-- An item is found if one was found before, or a number is chosen that is still to come. -/
theorem oldestOf (n : List Nat) {ids : List Nat} (nI : Nat) {nOldest : Option Nat}
    (hall : ∀ x ∈ ids, ∃ info, am.mapInfo[x]? = some info)
    (hold : ∀ x, nOldest = some x → ∃ info, am.mapInfo[x]? = some info)
    (hfound : nOldest ≠ none ∨ ∃ k ∈ n, nI ≤ k ∧ k < nI + ids.length) :
    ∃ x, am.oldestOf n ids nI nOldest = some (some x) ∧ (x ∈ ids ∨ nOldest = some x) := by
  induction ids generalizing nI nOldest with
  | nil =>
      rcases hfound with hsome | ⟨k, -, hle, hlt⟩
      · obtain ⟨x, rfl⟩ := Option.ne_none_iff_exists'.mp hsome
        exact ⟨x, rfl, .inr rfl⟩
      · rw [List.length_nil] at hlt
        omega
  | cons y ids ih =>
      obtain ⟨info, hget⟩ := hall y List.mem_cons_self
      have hrest : ∀ x ∈ ids, ∃ info, am.mapInfo[x]? = some info :=
        fun x hx => hall x (List.mem_cons_of_mem _ hx)
      unfold CAddrMan.oldestOf
      split
      · next hchosen =>
          cases nOldest with
          | none =>
              obtain ⟨x, hx, hmem⟩ := ih (nI + 1) hrest
                (fun x hx => ⟨info, Option.some.inj hx ▸ hget⟩) (.inl (Option.some_ne_none y))
              refine ⟨x, hx, .inl ?_⟩
              rcases hmem with hmem | hmem
              · exact List.mem_cons_of_mem _ hmem
              · cases hmem
                exact List.mem_cons_self
          | some old =>
              obtain ⟨infoOld, hgetOld⟩ := hold old rfl
              dsimp only
              rw [hget, Option.bind_some, hgetOld, Option.bind_some]
              generalize hnext : (if info.nTime < infoOld.nTime then y else old) = next
              have hcases : next = y ∨ next = old := by
                rw [← hnext]
                split
                · exact .inl rfl
                · exact .inr rfl
              have hnextInfo : ∀ x, some next = some x → ∃ info, am.mapInfo[x]? = some info := by
                intro x hx
                rw [← Option.some.inj hx]
                rcases hcases with rfl | rfl
                · exact ⟨info, hget⟩
                · exact ⟨infoOld, hgetOld⟩
              obtain ⟨x, hx, hmem⟩ := ih (nI + 1) hrest
                hnextInfo (.inl (Option.some_ne_none next))
              refine ⟨x, hx, ?_⟩
              rcases hmem with hmem | hmem
              · exact .inl (List.mem_cons_of_mem _ hmem)
              · cases hmem
                rcases hcases with rfl | rfl
                · exact .inl List.mem_cons_self
                · exact .inr rfl
      · next hother =>
          have hfound' : nOldest ≠ none ∨ ∃ k ∈ n, nI + 1 ≤ k ∧ k < nI + 1 + ids.length := by
            rcases hfound with hsome | ⟨k, hk, hle, hlt⟩
            · exact .inl hsome
            · refine .inr ⟨k, hk, ?_, ?_⟩
              · have hne : k ≠ nI := by
                  rintro rfl
                  exact hother hk
                omega
              · rw [List.length_cons] at hlt
                omega
          obtain ⟨x, hx, hmem⟩ := ih (nI + 1) hrest hold hfound'
          exact ⟨x, hx, hmem.imp (List.mem_cons_of_mem _) id⟩

/-- A full bucket has room afterwards, and what was not in it still is not. -/
theorem shrinkNew (h : am.Valid env ok off) (nNow : Nat → ℤ) (rand : Nat → Nat) {b : NewBucket}
    (hfull : (am.vvNew b).card = ADDRMAN_NEW_BUCKET_SIZE) (hoff : ∀ x ∈ am.vvNew b, off x = 0) :
    ∃ r am', am.shrinkNew nNow rand b = some (r, am') ∧ am'.Valid env ok off ∧
      (am'.vvNew b).card < ADDRMAN_NEW_BUCKET_SIZE ∧ am'.vvNew b ⊆ am.vvNew b := by
  unfold CAddrMan.shrinkNew
  have hmemNew : ∀ x, x ∈ (am.vvNew b).sort ↔ x ∈ am.vvNew b := fun x => Finset.mem_sort _
  have hlen : ((am.vvNew b).sort).length = ADDRMAN_NEW_BUCKET_SIZE :=
    (Finset.length_sort _).trans hfull
  generalize (am.vvNew b).sort = vNew at hmemNew hlen ⊢
  have hall : ∀ x ∈ vNew, ∃ info, am.mapInfo[x]? = some info := by
    intro x hx
    obtain ⟨info, hget, -⟩ := h.exists_of_mem_new ((hmemNew x).mp hx) (hoff x ((hmemNew x).mp hx))
    exact ⟨info, hget⟩
  have hremove : ∀ x ∈ vNew, ∃ am', am.removeFromNew b x = some am' ∧
      am'.Valid env ok off ∧ (am'.vvNew b).card < ADDRMAN_NEW_BUCKET_SIZE ∧
      am'.vvNew b ⊆ am.vvNew b := by
    intro x hx
    rw [hmemNew] at hx
    obtain ⟨am', hsome, hvalid, hnew⟩ := h.removeFromNew hx (hoff x hx)
    refine ⟨am', hsome, hvalid, ?_, ?_⟩
    · rw [hnew, Function.update_self, ← hfull]
      exact Finset.card_erase_lt_of_mem hx
    · rw [hnew, Function.update_self]
      exact Finset.erase_subset _ _
  obtain ⟨r, hr, hmem⟩ := firstTerrible nNow 0 hall
  dsimp only
  rw [hr, Option.bind_some]
  cases r with
  | some x =>
      obtain ⟨am', hsome, hrest⟩ := hremove x (hmem x rfl)
      refine ⟨0, am', ?_, hrest⟩
      dsimp only
      rw [hsome]
      rfl
  | none =>
      have hfirst : getRandInt (rand 0) vNew.length < 0 + vNew.length := by
        unfold getRandInt
        rw [hlen, if_neg (by decide), Nat.zero_add]
        exact Nat.mod_lt _ (by decide)
      obtain ⟨x, hx, hor⟩ := oldestOf ((List.range 4).map fun k => getRandInt (rand k) vNew.length) 0
        hall (fun x hx => absurd hx (Option.some_ne_none x).symm)
        (.inr ⟨_, List.mem_map.mpr ⟨0, by simp, rfl⟩, Nat.zero_le _, hfirst⟩)
      obtain ⟨am', hsome, hrest⟩ := hremove x (hor.resolve_right (Option.some_ne_none x).symm)
      refine ⟨1, am', ?_, hrest⟩
      dsimp only
      rw [hx, Option.bind_some, Option.bind_some, hsome]
      rfl

/-! ## Adding -/

theorem notMem_new_of_none (h : am.Valid env ok off) (hget : am.mapInfo[nId]? = none)
    (hoff : off nId = 0) (b : NewBucket) : nId ∉ am.vvNew b := by
  intro hmem
  obtain ⟨info, hsome, -⟩ := h.exists_of_mem_new hmem hoff
  rw [hget] at hsome
  cases hsome

theorem mapInfo_nIdCount (h : am.Valid env ok off) : am.mapInfo[am.nIdCount]? = none := by
  cases hget : am.mapInfo[am.nIdCount]? with
  | none => rfl
  | some old => exact absurd (h.ids _ old hget) (lt_irrefl _)

/-- An entry for a new address, with its first reference, which is not in a bucket yet. -/
theorem create (h : am.Valid env ok off) (hoff : off am.nIdCount = 0) (info : CAddrInfo)
    (htimes : ok info.nLastTry ∧ ok info.nLastSuccess)
    (haddr : am.mapAddr info.toCNetAddr = none) (hpos : info.nRandomPos = am.vRandom.length)
    (hin : info.fInTried = false) (hrefs : info.nRefCount = 1)
    {m : Std.ExtTreeMap Nat CAddrInfo compare}
    (hm : ∀ x, m[x]? = if x = am.nIdCount then some info else am.mapInfo[x]?) :
    Valid env ok (Function.update off am.nIdCount 1)
      { am with
        nIdCount := am.nIdCount + 1
        mapInfo := m
        mapAddr := am.mapAddr.set info.toCNetAddr am.nIdCount
        vRandom := am.vRandom ++ [am.nIdCount]
        nNew := am.nNew + 1 } := by
  have hfresh : am.mapInfo[am.nIdCount]? = none := h.mapInfo_nIdCount
  have hnone : ∀ {β : Type} (f : CAddrInfo → β), am.field f am.nIdCount = none := by
    intro β f
    unfold field
    rw [hfresh]
    rfl
  have hnew : ∀ {β : Type} (f : CAddrInfo → β), (m[am.nIdCount]?).map f = some (f info) := by
    intro β f
    rw [hm, if_pos rfl]
    rfl
  have hother : ∀ {β : Type} (f : CAddrInfo → β) (x : Nat), x ≠ am.nIdCount →
      (m[x]?).map f = am.field f x :=
    fun f => (field_of_lookup f hm).2
  refine { h with
    ids := ?_, times := ?_, random := ?_, addr := ?_, tried_info := ?_, new_info := ?_, tried := ?_,
    refs := ?_, nTried_eq := ?_, nNew_eq := ?_ }
  · intro x y hxy
    rcases lookup_cases hm hxy with ⟨rfl, -⟩ | ⟨-, hxy⟩
    · exact Nat.lt_succ_self _
    · exact Nat.lt_succ_of_lt (h.ids x y hxy)
  · intro x y hxy
    rcases lookup_cases hm hxy with ⟨-, rfl⟩ | ⟨-, hxy⟩
    · exact htimes
    · exact h.times x y hxy
  · exact h.random.push (hnone _) ((hnew _).trans (congrArg some hpos)) (hother _)
  · exact h.addr.set haddr (hnone _) (hnew _) (hother _)
  · intro x y hxy htried
    rcases lookup_cases hm hxy with ⟨-, rfl⟩ | ⟨-, hxy⟩
    · exact absurd (hin.symm.trans htried) (by decide)
    · exact h.tried_info x y hxy htried
  · intro x y hxy hy
    rcases lookup_cases hm hxy with ⟨rfl, rfl⟩ | ⟨hne, hxy⟩
    · rw [hrefs]
      exact ⟨fun _ => le_refl _, by decide⟩
    · rw [Function.update_of_ne hne]
      exact h.new_info x y hxy hy
  · apply h.tried.congr
    intro x
    unfold triedBucket
    dsimp only
    rw [hm]
    split
    · next heq =>
        rw [heq, hfresh, Option.bind_none, Option.bind_some, hin]
        simp
    · rfl
  · intro x
    by_cases hx : x = am.nIdCount
    · subst hx
      have hold := h.refs am.nIdCount
      rw [hnone, hoff] at hold
      show ((m[am.nIdCount]?).map _).getD 0 = ((am.newBuckets am.nIdCount).card : ℤ) + _
      rw [hnew, Function.update_self, Option.getD_some, hrefs]
      simp only [Option.getD_none] at hold
      omega
    · show ((m[x]?).map _).getD 0 = ((am.newBuckets x).card : ℤ) + _
      rw [hother _ x hx, Function.update_of_ne hx]
      exact h.refs x
  · apply h.nTried_eq.congr
    intro x
    by_cases hx : x = am.nIdCount
    · subst hx
      show (m[am.nIdCount]?).map _ = _ ↔ _
      rw [hnew, hnone, hin]
      simp
    · show (m[x]?).map _ = _ ↔ _
      rw [hother _ x hx]
  · apply h.nNew_eq.insert (k := am.nIdCount)
    · rw [hnone]
      simp
    · exact (hnew _).trans (congrArg some hin)
    · intro x hx
      show (m[x]?).map _ = _ ↔ _
      rw [hother _ x hx]

/-- The reference that was counted already gets its bucket. -/
theorem addReference (h : am.Valid env ok (Function.update (fun _ => 0) nId 1)) (call : AddCall)
    {b : NewBucket} (hnot : nId ∉ am.vvNew b) :
    ∃ am', ((if (am.vvNew b).card = ADDRMAN_NEW_BUCKET_SIZE then
        (am.shrinkNew call.nNow (fun k => call.rand (k + 1)) b).map Prod.snd
      else some am).map fun am =>
        { am with vvNew := Function.update am.vvNew b (insert nId (am.vvNew b)) }) = some am' ∧
      am'.Valid env ok fun _ => 0 := by
  have hone : (0 : ℤ) = Function.update (fun _ => (0 : ℤ)) nId 1 nId - 1 := by
    rw [Function.update_self]
    rfl
  have hother : ∀ x, x ≠ nId → (0 : ℤ) = Function.update (fun _ => (0 : ℤ)) nId 1 x :=
    fun x hx => (Function.update_of_ne hx 1 fun _ => (0 : ℤ)).symm
  by_cases hfull : (am.vvNew b).card = ADDRMAN_NEW_BUCKET_SIZE
  · have hoff : ∀ x ∈ am.vvNew b, Function.update (fun _ => (0 : ℤ)) nId 1 x = 0 := by
      intro x hx
      apply Function.update_of_ne
      rintro rfl
      exact hnot hx
    obtain ⟨r, am₁, hshrink, hvalid, hroom, hsub⟩ :=
      h.shrinkNew call.nNow (fun k => call.rand (k + 1)) hfull hoff
    refine ⟨_, ?_, hvalid.insert_new (fun hmem => hnot (hsub hmem)) hroom hone hother⟩
    rw [if_pos hfull, hshrink]
    rfl
  · have hroom : (am.vvNew b).card < ADDRMAN_NEW_BUCKET_SIZE := lt_of_le_of_ne (h.new_le b) hfull
    refine ⟨_, ?_, h.insert_new hnot hroom hone hother⟩
    rw [if_neg hfull]
    rfl

theorem addToBucket (h : am.Valid env ok fun _ => 0) (call : AddCall) (hget : am.mapInfo[nId]? = some info)
    (hin : info.fInTried = false) (hlt : info.nRefCount < 4) :
    ∃ am', am.addToBucket env call nId = some am' ∧ am'.Valid env ok fun _ => 0 := by
  unfold CAddrMan.addToBucket
  rw [hget, Option.bind_some]
  dsimp only
  by_cases hmem : nId ∈ am.vvNew (info.getNewBucketFrom env am.nKey call.source)
  · rw [if_pos hmem]
    exact ⟨am, rfl, h⟩
  · rw [if_neg hmem, updateInfo_eq _ hget, Option.bind_some]
    have hvalid : Valid env ok (Function.update (fun _ => 0) nId 1)
        { am with mapInfo := am.mapInfo.insert nId { info with nRefCount := info.nRefCount + 1 } } := by
      apply h.insert_info hget { info with nRefCount := info.nRefCount + 1 } (h.times nId info hget)
        rfl rfl rfl
      · rw [Function.update_self]
        dsimp only
        omega
      · intro x hx
        exact Function.update_of_ne hx _ _
      · intro htried
        exact absurd (hin.symm.trans htried) (by decide)
      · intro _
        refine ⟨fun hzero => ?_, ?_⟩
        · rw [Function.update_self] at hzero
          omega
        · dsimp only
          omega
    exact hvalid.addReference call hmem

/-- `Add_` -/
theorem add (h : am.Valid env ok fun _ => 0) (hok : ok 0) (call : AddCall) :
    ∃ r am', am.add env call = some (r, am') ∧ am'.Valid env ok fun _ => 0 := by
  unfold CAddrMan.add
  dsimp only
  split
  · exact ⟨false, am, rfl, h⟩
  · cases hfind : am.find call.addr.toCNetAddr with
    | some found =>
        obtain ⟨nId, info⟩ := found
        obtain ⟨hget, -⟩ := h.find_eq_some hfind
        dsimp only
        generalize hinfo : ({ info with
          nTime := refreshedTime call.addr call.nTimePenalty.toInt call.nAdjustedTime info.nTime
          nServices := info.nServices ||| call.addr.nServices } : CAddrInfo) = info₁
        have hvalid : Valid env ok (fun _ => 0) { am with mapInfo := am.mapInfo.insert nId info₁ } := by
          rw [← hinfo]
          exact h.insert_stats hget _ (h.times nId info hget) rfl rfl rfl rfl id
        split
        · exact ⟨false, _, rfl, hvalid⟩
        · next hwants =>
            have hget₁ : (am.mapInfo.insert nId info₁)[nId]? = some info₁ := by
              rw [Lib.getElem?_insert, if_pos rfl]
            have hfields : info₁.fInTried = false ∧ info₁.nRefCount ≠ 4 := by
              rw [Bool.not_eq_true', Bool.not_eq_false] at hwants
              unfold wantsBucket at hwants
              dsimp only at hwants
              split at hwants
              · cases hwants
              · split at hwants
                · cases hwants
                · next hin =>
                    split at hwants
                    · cases hwants
                    · next hfour => exact ⟨by simpa using hin, hfour⟩
            have hle := (hvalid.new_info nId info₁ hget₁ hfields.1).2
            obtain ⟨am', hadd, hvalid'⟩ := hvalid.addToBucket call hget₁ hfields.1
              (lt_of_le_of_ne hle hfields.2)
            exact ⟨false, am', by rw [hadd]; rfl, hvalid'⟩
    | none =>
        have haddr := h.find_eq_none hfind
        let fresh : CAddrInfo :=
          { CAddrInfo.new call.addr call.source with nRandomPos := am.vRandom.length }
        let timed : CAddrInfo :=
          { fresh with nTime := timeOf (max 0 ((fresh.nTime.toNat : ℤ) - call.nTimePenalty.toInt)) }
        let created : CAddrMan :=
          { am with
            nIdCount := am.nIdCount + 1
            mapInfo := (am.mapInfo.insert am.nIdCount fresh).insert am.nIdCount timed
            mapAddr := am.mapAddr.set call.addr.toCNetAddr am.nIdCount
            vRandom := am.vRandom ++ [am.nIdCount]
            nNew := am.nNew + 1 }
        have hfresh : am.mapInfo[am.nIdCount]? = none := h.mapInfo_nIdCount
        have hlookup : ∀ x, ((am.mapInfo.insert am.nIdCount fresh).insert am.nIdCount timed)[x]?
            = if x = am.nIdCount then some timed else am.mapInfo[x]? := by
          intro x
          rw [Lib.getElem?_insert, Lib.getElem?_insert]
          split <;> rfl
        have hcreated : am.create call.addr call.source = (am.nIdCount,
            { am with
              nIdCount := am.nIdCount + 1
              mapInfo := am.mapInfo.insert am.nIdCount fresh
              mapAddr := am.mapAddr.set call.addr.toCNetAddr am.nIdCount
              vRandom := am.vRandom ++ [am.nIdCount] }) := rfl
        rw [hcreated]
        dsimp only
        have hget₀ : (am.mapInfo.insert am.nIdCount fresh)[am.nIdCount]? = some fresh := by
          rw [Lib.getElem?_insert, if_pos rfl]
        rw [updateInfo_eq _ hget₀, Option.bind_some]
        show ∃ r am', ((created.addToBucket env call am.nIdCount).map fun am => (true, am))
          = some (r, am') ∧ _
        have hget₁ : created.mapInfo[am.nIdCount]? = some timed := (hlookup _).trans (if_pos rfl)
        have hnot : ∀ b, am.nIdCount ∉ am.vvNew b := h.notMem_new_of_none hfresh rfl
        unfold CAddrMan.addToBucket
        rw [hget₁, Option.bind_some]
        dsimp only
        rw [if_neg (hnot _), updateInfo_eq _ hget₁, Option.bind_some]
        have hvalid : Valid env ok (Function.update (fun _ => 0) am.nIdCount 1)
            { created with
              mapInfo := created.mapInfo.insert am.nIdCount
                { timed with nRefCount := timed.nRefCount + 1 } } := by
          apply h.create rfl { timed with nRefCount := timed.nRefCount + 1 } ⟨hok, hok⟩ haddr rfl rfl rfl
          intro x
          rw [Lib.getElem?_insert, hlookup]
          split <;> rfl
        obtain ⟨am', hsome, hvalid'⟩ := hvalid.addReference call (hnot _)
        exact ⟨true, am', by rw [hsome]; rfl, hvalid'⟩

/-! ## The smaller operations -/

/-- `Attempt_` -/
theorem attempt (h : am.Valid env ok off) (addr : CService) {nTime : Int64} (hok : ok nTime) :
    ∃ am', am.attempt addr nTime = some am' ∧ am'.Valid env ok off := by
  unfold CAddrMan.attempt
  cases hfind : am.find addr.toCNetAddr with
  | none => exact ⟨am, rfl, h⟩
  | some found =>
      obtain ⟨nId, info⟩ := found
      obtain ⟨hget, -⟩ := h.find_eq_some hfind
      dsimp only
      split
      · exact ⟨am, rfl, h⟩
      · exact ⟨_, updateInfo_eq _ hget, h.insert_stats hget _ ⟨hok, (h.times nId info hget).2⟩
          rfl rfl rfl rfl id⟩

/-- `Connected_` -/
theorem connected (h : am.Valid env ok off) (addr : CService) (nTime : Int64) :
    ∃ am', am.connected addr nTime = some am' ∧ am'.Valid env ok off := by
  unfold CAddrMan.connected
  cases hfind : am.find addr.toCNetAddr with
  | none => exact ⟨am, rfl, h⟩
  | some found =>
      obtain ⟨nId, info⟩ := found
      obtain ⟨hget, -⟩ := h.find_eq_some hfind
      dsimp only
      split
      · exact ⟨am, rfl, h⟩
      · split
        · exact ⟨_, updateInfo_eq _ hget, h.insert_stats hget _ (h.times nId info hget)
            rfl rfl rfl rfl id⟩
        · exact ⟨am, rfl, h⟩

theorem getAddrStep (h : am.Valid env ok off) (rand : Nat → Nat) (vAddr : List CAddress) {n : Nat}
    (hn : n < am.vRandom.length) :
    ∃ out, CAddrMan.getAddrStep rand (vAddr, am) n = some out ∧ out.2.Valid env ok off ∧
      Reordered am out.2 := by
  have hpos : getRandInt (rand n) (am.vRandom.length - n) + n < am.vRandom.length := by
    unfold getRandInt
    rw [if_neg (by omega)]
    have := Nat.mod_lt (rand n) (show am.vRandom.length - n > 0 by omega)
    omega
  obtain ⟨am', hswap, hvalid, hreordered, -⟩ := h.swapRandom (List.getElem?_eq_getElem hn)
    (List.getElem?_eq_getElem hpos)
  have hn' : n < am'.vRandom.length := by rw [hreordered.length]; exact hn
  have hfirst := List.getElem?_eq_getElem hn'
  obtain ⟨info, hget, -⟩ := hvalid.get_of_vRandom hfirst
  refine ⟨(vAddr ++ [info.toCAddress], am'), ?_, hvalid, hreordered⟩
  unfold CAddrMan.getAddrStep
  dsimp only
  rw [hswap, Option.bind_some, hfirst, Option.bind_some, hget]
  rfl

/-- `GetAddr_` -/
theorem getAddr (h : am.Valid env ok off) (rand : Nat → Nat) (vAddr : List CAddress) :
    ∃ out, am.getAddr rand vAddr = some out ∧ out.2.Valid env ok off := by
  unfold CAddrMan.getAddr
  have hloop := Lib.foldlM_exists
    (fun out : List CAddress × CAddrMan => out.2.Valid env ok off ∧ out.2.vRandom.length = am.vRandom.length)
    (f := CAddrMan.getAddrStep rand) (s := (vAddr, am))
    (l := List.range (min (ADDRMAN_GETADDR_MAX_PCT * am.vRandom.length / 100) ADDRMAN_GETADDR_MAX))
    (fun out n hn hI => by
      have hlt : n < out.2.vRandom.length := by
        rw [hI.2]
        have := List.mem_range.mp hn
        unfold ADDRMAN_GETADDR_MAX_PCT at this
        omega
      obtain ⟨out', hstep, hvalid, hreordered⟩ := hI.1.getAddrStep rand out.1 hlt
      exact ⟨out', hstep, hvalid, hreordered.length.trans hI.2⟩)
    ⟨h, rfl⟩
  obtain ⟨out, hout, hvalid, -⟩ := hloop
  exact ⟨out, hout, hvalid⟩

end Valid

end CAddrMan

end ShinyCoin

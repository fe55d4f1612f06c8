import ShinyCoin.Wallet.KeyPool

/-!
# When the key pool is safe

A run keeps its reservations apart as long as no step writes a record under an index that is
reserved. What carries the proof is `Inv`: the indexes in the set and the reserved ones are
different, each of them has a record, no key is under two of them, and none was kept before.
-/

namespace ShinyCoin.KeyPool

variable {g : KeyGen} {keypool : ℤ} {s : KeyPool} {n m : ℤ} {r : Nat} {key : Bytes}

/-- The index is free or reserved. -/
def Live (s : KeyPool) (n : ℤ) : Prop := n ∈ s.setKeyPool ∨ s.Held n

/-- One of the keys generated so far. -/
def Generated (g : KeyGen) (s : KeyPool) (key : Bytes) : Prop :=
  ∃ i < s.nGenerated, key = g.key i

structure Inv (g : KeyGen) (s : KeyPool) : Prop where
  positive : ∀ n, s.Live n → 0 < n
  distinct : ∀ r r', (s.reserveKeys r).nIndex ≠ -1 →
    (s.reserveKeys r).nIndex = (s.reserveKeys r').nIndex → r = r'
  apart : ∀ n, s.Held n → n ∉ s.setKeyPool
  recorded : ∀ n ∈ s.setKeyPool, ∃ key, s.pool n = some key
  held_record : ∀ r, (s.reserveKeys r).nIndex ≠ -1 →
    s.pool (s.reserveKeys r).nIndex = some (s.reserveKeys r).vchPubKey
  live_key : ∀ n key, s.Live n → s.pool n = some key →
    key ∈ s.keys ∧ key ∉ s.kept ∧ s.Generated g key
  pool_inj : ∀ n m key, s.Live n → s.Live m → s.pool n = some key → s.pool m = some key → n = m
  kept_old : ∀ key ∈ s.kept, s.Generated g key
  kept_nodup : s.kept.Nodup

theorem Generated.ne_next (h : s.Generated g key) : key ≠ g.key s.nGenerated := by
  obtain ⟨i, hi, rfl⟩ := h
  intro heq
  exact absurd (g.key_injective heq) (Nat.ne_of_lt hi)

theorem Generated.mono {s' : KeyPool} (h : s.Generated g key) (hle : s.nGenerated ≤ s'.nGenerated) :
    s'.Generated g key := by
  obtain ⟨i, hi, rfl⟩ := h
  exact ⟨i, by omega, rfl⟩

theorem held_of_ne (h : (s.reserveKeys r).nIndex ≠ -1) : s.Held (s.reserveKeys r).nIndex :=
  ⟨h, r, rfl⟩

/-! ## New records -/

theorem pool_addKey (m : ℤ) :
    (s.addKey g n).pool m = if m = n then some (g.key s.nGenerated) else s.pool m := rfl

theorem live_addKey : (s.addKey g n).Live m ↔ m = n ∨ s.Live m := by
  unfold Live
  show m ∈ insert n s.setKeyPool ∨ _ ↔ _
  rw [Finset.mem_insert, or_assoc]
  exact Iff.rfl

/-- A record under an index that is not reserved. -/
theorem Inv.addKey (h : s.Inv g) (hpos : 0 < n) (hfree : ¬ s.Held n) : (s.addKey g n).Inv g where
  positive m hm := by
    rcases live_addKey.mp hm with rfl | hm
    · exact hpos
    · exact h.positive m hm
  distinct := h.distinct
  apart m hm hmem := by
    rcases Finset.mem_insert.mp hmem with rfl | hmem
    · exact hfree hm
    · exact h.apart m hm hmem
  recorded m hm := by
    rw [pool_addKey]
    split
    · exact ⟨_, rfl⟩
    · next hne => exact h.recorded m ((Finset.mem_insert.mp hm).resolve_left hne)
  held_record r hr := by
    rw [pool_addKey, if_neg]
    · exact h.held_record r hr
    · intro heq
      exact hfree ⟨heq ▸ hr, r, heq⟩
  live_key m key hm hkey := by
    rw [pool_addKey] at hkey
    split at hkey
    · cases hkey
      exact ⟨List.mem_cons_self, fun hkept => (h.kept_old _ hkept).ne_next rfl,
        s.nGenerated, Nat.lt_succ_self _, rfl⟩
    · next hne =>
      obtain ⟨hmine, hkept, hgen⟩ := h.live_key m key ((live_addKey.mp hm).resolve_left hne) hkey
      exact ⟨List.mem_cons_of_mem _ hmine, hkept, hgen.mono (Nat.le_succ _)⟩
  pool_inj a b key ha hb hka hkb := by
    -- the new key is under no other index
    have hold : ∀ c, (s.addKey g n).Live c → c ≠ n → s.pool c ≠ some (g.key s.nGenerated) := by
      intro c hc hne hkc
      exact (h.live_key c _ ((live_addKey.mp hc).resolve_left hne) hkc).2.2.ne_next rfl
    rw [pool_addKey] at hka hkb
    split at hka <;> split at hkb
    · next hea heb => rw [hea, heb]
    · next hea hne =>
      cases hka
      exact absurd hkb (hold b hb hne)
    · next hne heb =>
      cases hkb
      exact absurd hka (hold a ha hne)
    · next hna hnb =>
      exact h.pool_inj a b key ((live_addKey.mp ha).resolve_left hna)
        ((live_addKey.mp hb).resolve_left hnb) hka hkb
  kept_old key hkey := (h.kept_old key hkey).mono (Nat.le_succ _)
  kept_nodup := h.kept_nodup

theorem nEnd_pos (h : s.Inv g) : 0 < s.nEnd := by
  show 0 < s.setKeyPool.max.unbotD 0 + 1
  cases hmax : s.setKeyPool.max with
  | bot => exact Int.one_pos
  | coe m =>
      have := h.positive m (.inl (Finset.mem_of_max hmax))
      exact Int.lt_add_one_of_le this.le

theorem Inv.topUpLoop {target : Nat} (h : s.Inv g)
    (hfree : ∀ n, s.nEnd ≤ n → n < s.nEnd + (target - s.setKeyPool.card : Nat) → ¬ s.Held n) :
    (s.topUpLoop g target).Inv g := by
  fun_induction KeyPool.topUpLoop g target s with
  | case1 s hless ih =>
      have hcard : (s.addKey g s.nEnd).setKeyPool.card = s.setKeyPool.card + 1 :=
        Finset.card_insert_of_notMem s.nEnd_notMem
      apply ih (h.addKey (nEnd_pos h) (hfree _ le_rfl (by omega)))
      intro n hle hlt
      rw [nEnd_addKey] at hle hlt
      rw [hcard] at hlt
      exact hfree n (by omega) (by omega)
  | case2 s _ => exact h

theorem Inv.topUpKeyPool (h : s.Inv g) (hfree : ∀ n, s.TopsUp keypool n → ¬ s.Held n) :
    (s.topUpKeyPool g keypool).Inv g := by
  unfold KeyPool.topUpKeyPool
  split
  · exact h
  · next hlocked =>
    apply h.topUpLoop
    intro n hle hlt
    exact hfree n ⟨by simpa using hlocked, hle, hlt⟩

theorem Inv.clearPool (h : s.Inv g) : s.clearPool.Inv g := by
  have hlive : ∀ n, s.clearPool.Live n → s.Held n := by
    rintro n (hmem | hheld)
    · exact absurd hmem (Finset.notMem_empty n)
    · exact hheld
  have hpool : ∀ n, s.Held n → s.clearPool.pool n = s.pool n := fun n hn => if_neg (h.apart n hn)
  constructor
  · exact fun n hn => h.positive n (.inr (hlive n hn))
  · exact h.distinct
  · exact fun n _ => Finset.notMem_empty n
  · exact fun n hn => absurd hn (Finset.notMem_empty n)
  · intro r hr
    exact (hpool _ (held_of_ne hr)).trans (h.held_record r hr)
  · intro n key hn hkey
    rw [hpool n (hlive n hn)] at hkey
    exact h.live_key n key (.inr (hlive n hn)) hkey
  · intro a b key ha hb hka hkb
    rw [hpool a (hlive a ha)] at hka
    rw [hpool b (hlive b hb)] at hkb
    exact h.pool_inj a b key (.inr (hlive a ha)) (.inr (hlive b hb)) hka hkb
  · exact h.kept_old
  · exact h.kept_nodup

theorem Inv.newKeyPool (h : s.Inv g)
    (hfree : ∀ n, s.fLocked = false → 1 ≤ n → n ≤ max keypool 0 → ¬ s.Held n) :
    (s.newKeyPool g keypool).Inv g := by
  unfold KeyPool.newKeyPool
  split
  · exact h.clearPool
  · next hlocked =>
    -- the reservations stay as they are while the records are written
    have hloop : ∀ (l : List Nat) (t : KeyPool), t.Inv g → t.reserveKeys = s.reserveKeys →
        (∀ i ∈ l, i < (max keypool 0).toNat) →
        (l.foldl (fun s (i : Nat) => s.addKey g ((i : ℤ) + 1)) t).Inv g := by
      intro l
      induction l with
      | nil => exact fun t ht _ _ => ht
      | cons i l ih =>
          intro t ht hsame hlt
          have hi := hlt i List.mem_cons_self
          apply ih
          · apply ht.addKey (by omega)
            unfold Held
            rw [hsame]
            exact hfree _ (by simpa using hlocked) (by omega) (by omega)
          · exact hsame
          · exact fun j hj => hlt j (List.mem_cons_of_mem i hj)
    exact hloop _ _ h.clearPool rfl fun i hi => List.mem_range.mp hi

/-! ## Taking keys out -/

/-- Every free index has a record, whose key is the wallet's. -/
def Recorded (s : KeyPool) : Prop :=
  ∀ n ∈ s.setKeyPool, ∃ key, s.pool n = some key ∧ key ∈ s.keys

theorem Inv.to_recorded (h : s.Inv g) : s.Recorded := by
  intro n hn
  obtain ⟨key, hkey⟩ := h.recorded n hn
  exact ⟨key, hkey, (h.live_key n key (.inl hn) hkey).1⟩

/-- New records do no harm to the free indexes, reserved or not. -/
theorem Recorded.topUpKeyPool (h : s.Recorded) : (s.topUpKeyPool g keypool).Recorded := by
  unfold KeyPool.topUpKeyPool
  split
  · exact h
  · next hlocked =>
    clear hlocked
    fun_induction KeyPool.topUpLoop g (targetSize keypool) s with
    | case1 s hless ih =>
        apply ih
        intro n hn
        rw [pool_addKey]
        split
        · exact ⟨_, rfl, List.mem_cons_self⟩
        · next hne =>
          obtain ⟨key, hkey, hmine⟩ := h n ((Finset.mem_insert.mp hn).resolve_left hne)
          exact ⟨key, hkey, List.mem_cons_of_mem _ hmine⟩
    | case2 s _ => exact h

/-- What `ReserveKeyFromKeyPool` does once the pool is filled: nothing without a free index, and
otherwise it takes one out whose record has a key of the wallet. -/
theorem reserveKeyFromKeyPool_cases (h : (s.topUpKeyPool g keypool).Recorded) :
    ((s.topUpKeyPool g keypool).setKeyPool = ∅ ∧
      s.reserveKeyFromKeyPool g keypool = ((-1, .ok []), s.topUpKeyPool g keypool)) ∨
    ∃ nIndex key, nIndex ∈ (s.topUpKeyPool g keypool).setKeyPool ∧
      (s.topUpKeyPool g keypool).pool nIndex = some key ∧
      s.reserveKeyFromKeyPool g keypool = ((nIndex, .ok key),
        { s.topUpKeyPool g keypool with
          setKeyPool := (s.topUpKeyPool g keypool).setKeyPool.erase nIndex }) := by
  unfold reserveKeyFromKeyPool
  generalize s.topUpKeyPool g keypool = t at h
  dsimp only
  split
  · next hmin => exact .inl ⟨Finset.min_eq_top.mp hmin, rfl⟩
  · next nIndex hmin =>
    right
    have hmem : nIndex ∈ t.setKeyPool := Finset.mem_of_min hmin
    obtain ⟨key, hkey, hmine⟩ := h nIndex hmem
    refine ⟨nIndex, key, hmem, hkey, ?_⟩
    rw [hkey]
    exact if_pos hmine

/-- The invariant for a state that has fewer live indexes and keeps their records. -/
theorem Inv.shrink {t : KeyPool} (h : s.Inv g) (hlive : ∀ n, t.Live n → s.Live n)
    (hpool : ∀ n, t.Live n → t.pool n = s.pool n)
    (hset : ∀ n ∈ t.setKeyPool, ∃ key, s.pool n = some key)
    (hkeys : ∀ key ∈ s.keys, key ∈ t.keys) (hgen : s.nGenerated ≤ t.nGenerated)
    (hkept : ∀ n key, t.Live n → s.pool n = some key → key ∉ t.kept)
    (hold : ∀ key ∈ t.kept, t.Generated g key) (honce : t.kept.Nodup)
    (hdistinct : ∀ r r', (t.reserveKeys r).nIndex ≠ -1 →
      (t.reserveKeys r).nIndex = (t.reserveKeys r').nIndex → r = r')
    (hapart : ∀ n, t.Held n → n ∉ t.setKeyPool)
    (hrecord : ∀ r, (t.reserveKeys r).nIndex ≠ -1 →
      s.pool (t.reserveKeys r).nIndex = some (t.reserveKeys r).vchPubKey) : t.Inv g where
  positive n hn := h.positive n (hlive n hn)
  distinct := hdistinct
  apart := hapart
  recorded n hn := by
    rw [hpool n (.inl hn)]
    exact hset n hn
  held_record r hr := by
    rw [hpool _ (.inr (held_of_ne hr))]
    exact hrecord r hr
  live_key n key hn hkey := by
    rw [hpool n hn] at hkey
    obtain ⟨hmine, -, hgen'⟩ := h.live_key n key (hlive n hn) hkey
    exact ⟨hkeys key hmine, hkept n key hn hkey, hgen'.mono hgen⟩
  pool_inj a b key ha hb hka hkb := by
    rw [hpool a ha] at hka
    rw [hpool b hb] at hkb
    exact h.pool_inj a b key (hlive a ha) (hlive b hb) hka hkb
  kept_old := hold
  kept_nodup := honce

/-! ## CReserveKey -/

theorem reserveKeys_setReserveKey (s : KeyPool) (r r' : Nat) (k : CReserveKey) :
    (s.setReserveKey r k).reserveKeys r' = if r' = r then k else s.reserveKeys r' :=
  Function.update_apply s.reserveKeys r k r'

theorem held_setReserveKey {k : CReserveKey} (h : (s.setReserveKey r k).Held n) :
    k.nIndex = n ∨ ∃ r' ≠ r, (s.reserveKeys r').nIndex = n := by
  obtain ⟨-, r', hr'⟩ := h
  rw [reserveKeys_setReserveKey] at hr'
  split at hr'
  · exact .inl hr'
  · next hne => exact .inr ⟨r', hne, hr'⟩

/-- A reservation of an index that no other one holds. -/
theorem Inv.distinct_set (h : s.Inv g) {k : CReserveKey}
    (hk : k.nIndex ≠ -1 → ∀ r' ≠ r, (s.reserveKeys r').nIndex ≠ k.nIndex) (r₁ r₂ : Nat)
    (hne : ((s.setReserveKey r k).reserveKeys r₁).nIndex ≠ -1)
    (heq : ((s.setReserveKey r k).reserveKeys r₁).nIndex
      = ((s.setReserveKey r k).reserveKeys r₂).nIndex) : r₁ = r₂ := by
  rw [reserveKeys_setReserveKey] at hne heq
  rw [reserveKeys_setReserveKey] at heq
  by_cases h₁ : r₁ = r <;> by_cases h₂ : r₂ = r
  · rw [h₁, h₂]
  · rw [if_pos h₁] at hne heq
    rw [if_neg h₂] at heq
    exact absurd heq.symm (hk hne r₂ h₂)
  · rw [if_neg h₁] at hne heq
    rw [if_pos h₂] at heq
    exact absurd heq (hk (heq ▸ hne) r₁ h₁)
  · rw [if_neg h₁] at hne heq
    rw [if_neg h₂] at heq
    exact h.distinct r₁ r₂ hne heq

theorem Inv.record_set (h : s.Inv g) {k : CReserveKey}
    (hk : k.nIndex ≠ -1 → s.pool k.nIndex = some k.vchPubKey) (r' : Nat)
    (hne : ((s.setReserveKey r k).reserveKeys r').nIndex ≠ -1) :
    s.pool ((s.setReserveKey r k).reserveKeys r').nIndex
      = some ((s.setReserveKey r k).reserveKeys r').vchPubKey := by
  rw [reserveKeys_setReserveKey] at hne ⊢
  split
  · next heq =>
    rw [if_pos heq] at hne
    exact hk hne
  · next heq =>
    rw [if_neg heq] at hne
    exact h.held_record r' hne

/-- A reservation made of a free index. -/
theorem Inv.reserve (h : s.Inv g) (r : Nat) (hmem : n ∈ s.setKeyPool) (hkey : s.pool n = some key) :
    ({ s with setKeyPool := s.setKeyPool.erase n }.setReserveKey r ⟨n, key⟩ : KeyPool).Inv g := by
  have hpos := h.positive n (.inl hmem)
  have hother : ∀ r', (s.reserveKeys r').nIndex ≠ n := by
    intro r' heq
    exact h.apart n ⟨by omega, r', heq⟩ hmem
  have hheld : ∀ m,
      ({ s with setKeyPool := s.setKeyPool.erase n }.setReserveKey r ⟨n, key⟩ : KeyPool).Held m →
        m = n ∨ s.Held m := by
    intro m hm
    rcases held_setReserveKey hm with heq | ⟨r', -, hr'⟩
    · exact .inl heq.symm
    · exact .inr ⟨hm.1, r', hr'⟩
  have hlive : ∀ m,
      ({ s with setKeyPool := s.setKeyPool.erase n }.setReserveKey r ⟨n, key⟩ : KeyPool).Live m →
        s.Live m := by
    rintro m (hm | hm)
    · exact .inl (Finset.mem_of_mem_erase hm)
    · rcases hheld m hm with rfl | hm
      · exact .inl hmem
      · exact .inr hm
  apply h.shrink hlive
  · exact fun _ _ => rfl
  · exact fun m hm => h.recorded m (Finset.mem_of_mem_erase hm)
  · exact fun _ hkey => hkey
  · exact le_rfl
  · exact fun m key hm hkey => (h.live_key m key (hlive m hm) hkey).2.1
  · exact h.kept_old
  · exact h.kept_nodup
  · exact h.distinct_set fun _ r' _ => hother r'
  · intro m hm hmem'
    rcases hheld m hm with rfl | hm
    · exact Finset.notMem_erase m _ hmem'
    · exact h.apart m hm (Finset.mem_of_mem_erase hmem')
  · exact h.record_set fun _ => hkey

/-- A reservation of nothing. -/
theorem Inv.setReserveKey_none (h : s.Inv g) (r : Nat) {k : CReserveKey} (hk : k.nIndex = -1) :
    (s.setReserveKey r k).Inv g := by
  have hheld : ∀ m, (s.setReserveKey r k).Held m → s.Held m := by
    intro m hm
    rcases held_setReserveKey hm with heq | ⟨r', -, hr'⟩
    · exact absurd (heq.symm.trans hk) hm.1
    · exact ⟨hm.1, r', hr'⟩
  have hlive : ∀ m, (s.setReserveKey r k).Live m → s.Live m := fun m hm => hm.imp_right (hheld m)
  apply h.shrink hlive
  · exact fun _ _ => rfl
  · exact h.recorded
  · exact fun _ hkey => hkey
  · exact le_rfl
  · exact fun m key hm hkey => (h.live_key m key (hlive m hm) hkey).2.1
  · exact h.kept_old
  · exact h.kept_nodup
  · exact h.distinct_set fun hne => absurd hk hne
  · exact fun m hm => h.apart m (hheld m hm)
  · exact h.record_set fun hne => absurd hk hne

/-- A key that is kept: its index is live no more. -/
theorem Inv.keep {t : KeyPool} (h : s.Inv g) (hn : s.Live n) (hkey : s.pool n = some key)
    (hset : t.setKeyPool ⊆ s.setKeyPool.erase n) (hheld : ∀ m, t.Held m → s.Held m ∧ m ≠ n)
    (hpool : ∀ m, m ≠ n → t.pool m = s.pool m) (hkeys : t.keys = s.keys)
    (hgen : t.nGenerated = s.nGenerated) (hkept : t.kept = key :: s.kept)
    (hdistinct : ∀ r r', (t.reserveKeys r).nIndex ≠ -1 →
      (t.reserveKeys r).nIndex = (t.reserveKeys r').nIndex → r = r')
    (hrecord : ∀ r, (t.reserveKeys r).nIndex ≠ -1 →
      s.pool (t.reserveKeys r).nIndex = some (t.reserveKeys r).vchPubKey) : t.Inv g := by
  obtain ⟨-, hfresh, hold⟩ := h.live_key n key hn hkey
  have hlive : ∀ m, t.Live m → s.Live m ∧ m ≠ n := by
    rintro m (hm | hm)
    · obtain ⟨hne, hm⟩ := Finset.mem_erase.mp (hset hm)
      exact ⟨.inl hm, hne⟩
    · exact ⟨.inr (hheld m hm).1, (hheld m hm).2⟩
  apply h.shrink (fun m hm => (hlive m hm).1)
  · exact fun m hm => hpool m (hlive m hm).2
  · exact fun m hm => h.recorded m (Finset.mem_of_mem_erase (hset hm))
  · exact fun _ hk => hkeys ▸ hk
  · exact hgen.ge
  · -- the key is under no other live index
    intro m key' hm hkey'
    obtain ⟨hms, hne⟩ := hlive m hm
    rw [hkept, List.mem_cons]
    rintro (rfl | hmem)
    · exact hne (h.pool_inj m n key' hms hn hkey' hkey)
    · exact (h.live_key m key' hms hkey').2.1 hmem
  · intro key' hkey'
    rw [hkept] at hkey'
    rcases List.mem_cons.mp hkey' with rfl | hkey'
    · exact hold.mono hgen.ge
    · exact (h.kept_old key' hkey').mono hgen.ge
  · rw [hkept]
    exact List.nodup_cons.mpr ⟨hfresh, h.kept_nodup⟩
  · exact hdistinct
  · intro m hm hmem
    exact h.apart m (hheld m hm).1 (Finset.mem_of_mem_erase (hset hmem))
  · exact hrecord

/-- What is held once the reservation `r` is given up. -/
theorem Inv.held_release (h : s.Inv g) (hheld : (s.setReserveKey r {}).Held m) :
    s.Held m ∧ m ≠ (s.reserveKeys r).nIndex := by
  rcases held_setReserveKey hheld with heq | ⟨r', hne, hr'⟩
  · exact absurd heq.symm hheld.1
  · refine ⟨⟨hheld.1, r', hr'⟩, ?_⟩
    intro heq
    exact hne (h.distinct r' r (hr' ▸ hheld.1) (hr'.trans heq))

theorem pool_keepIndex (hne : m ≠ n) : (s.keepIndex n).pool m = s.pool m := by
  unfold keepIndex
  split
  · exact Lib.PMap.erase_of_ne hne
  · rfl

/-- Only the record goes. -/
theorem keepIndex_eq (s : KeyPool) (n : ℤ) :
    s.keepIndex n = { s with pool := (s.keepIndex n).pool } := by
  unfold keepIndex
  split <;> rfl

theorem Inv.keepKey (h : s.Inv g) (r : Nat) : (s.keepKey r).Inv g := by
  unfold KeyPool.keepKey
  dsimp only
  split
  · next hne =>
    have hheld := held_of_ne hne
    rw [keepIndex_eq]
    apply h.keep (.inr hheld) (h.held_record r hne)
    · exact fun m hm => Finset.mem_erase.mpr ⟨fun heq => h.apart _ hheld (heq ▸ hm), hm⟩
    · exact fun m hm => h.held_release hm
    · exact fun m hm => pool_keepIndex hm
    · rfl
    · rfl
    · rfl
    · exact h.distinct_set fun hne' => absurd rfl hne'
    · exact h.record_set fun hne' => absurd rfl hne'
  · exact h.setReserveKey_none r rfl

theorem Inv.returnKey (h : s.Inv g) (r : Nat) : (s.returnKey r).Inv g := by
  unfold KeyPool.returnKey
  dsimp only
  split
  · next hne =>
    have hheld := held_of_ne hne
    have hlive : ∀ m, ({ s with setKeyPool := insert (s.reserveKeys r).nIndex s.setKeyPool
        }.setReserveKey r {} : KeyPool).Live m → s.Live m := by
      rintro m (hm | hm)
      · rcases Finset.mem_insert.mp hm with rfl | hm
        · exact .inr hheld
        · exact .inl hm
      · exact .inr (h.held_release (r := r) hm).1
    apply h.shrink hlive
    · exact fun _ _ => rfl
    · intro m hm
      rcases Finset.mem_insert.mp hm with rfl | hm
      · exact ⟨_, h.held_record r hne⟩
      · exact h.recorded m hm
    · exact fun _ hkey => hkey
    · exact le_rfl
    · exact fun m key hm hkey => (h.live_key m key (hlive m hm) hkey).2.1
    · exact h.kept_old
    · exact h.kept_nodup
    · exact h.distinct_set fun hne' => absurd rfl hne'
    · intro m hm hmem
      obtain ⟨hm, hother⟩ := h.held_release (r := r) hm
      exact h.apart m hm ((Finset.mem_insert.mp hmem).resolve_left hother)
    · exact h.record_set fun hne' => absurd rfl hne'
  · exact h.setReserveKey_none r rfl

theorem Inv.getReservedKey (h : s.Inv g)
    (hfree : ∀ n, (s.reserveKeys r).nIndex = -1 ∧ s.TopsUp keypool n → ¬ s.Held n) :
    (s.getReservedKey g keypool r).Inv g := by
  unfold KeyPool.getReservedKey
  split
  · next hnone =>
    have htop := h.topUpKeyPool fun n hn => hfree n ⟨hnone, hn⟩
    rcases reserveKeyFromKeyPool_cases htop.to_recorded with ⟨-, heq⟩ | ⟨nIndex, key, hmem, hkey, heq⟩
    · rw [heq]
      exact htop.setReserveKey_none r rfl
    · rw [heq]
      have hpos := htop.positive nIndex (.inl hmem)
      dsimp only
      rw [if_pos (by omega)]
      exact htop.reserve r hmem hkey
  · exact h

theorem Inv.getKeyFromPool (h : s.Inv g) (fAllowReuse : Bool)
    (hfree : ∀ n, s.TopsUp keypool n → ¬ s.Held n) :
    (s.getKeyFromPool g keypool fAllowReuse).Inv g := by
  have htop := h.topUpKeyPool hfree
  unfold KeyPool.getKeyFromPool
  rcases reserveKeyFromKeyPool_cases htop.to_recorded with ⟨-, heq⟩ | ⟨nIndex, key, hmem, hkey, heq⟩
  · rw [heq]
    dsimp only
    rw [if_pos rfl]
    generalize s.topUpKeyPool g keypool = t at htop
    split
    · exact htop
    · split
      · exact htop
      · -- a key that was never in the pool
        have hnew : ∀ n key, t.Live n → t.pool n = some key → key ∉ g.key t.nGenerated :: t.kept := by
          intro n key hn hkey
          obtain ⟨-, hkept, hgen⟩ := htop.live_key n key hn hkey
          rw [List.mem_cons, not_or]
          exact ⟨hgen.ne_next, hkept⟩
        apply htop.shrink
        · exact fun _ hn => hn
        · exact fun _ _ => rfl
        · exact htop.recorded
        · exact fun _ hkey => List.mem_cons_of_mem _ hkey
        · exact Nat.le_succ _
        · exact hnew
        · intro key hkey
          rcases List.mem_cons.mp hkey with rfl | hkey
          · exact ⟨t.nGenerated, Nat.lt_succ_self _, rfl⟩
          · exact (htop.kept_old key hkey).mono (Nat.le_succ _)
        · exact List.nodup_cons.mpr
            ⟨fun hkept => (htop.kept_old _ hkept).ne_next rfl, htop.kept_nodup⟩
        · exact htop.distinct
        · exact htop.apart
        · exact htop.held_record
  · rw [heq]
    have hpos := htop.positive nIndex (.inl hmem)
    dsimp only
    rw [if_neg (by omega), keepIndex_eq]
    apply htop.keep (.inl hmem) hkey
    · exact fun m hm => hm
    · exact fun m hm => ⟨hm, fun heq => htop.apart m hm (heq ▸ hmem)⟩
    · exact fun m hm => pool_keepIndex hm
    · rfl
    · rfl
    · rfl
    · exact htop.distinct
    · exact htop.held_record

/-! ## Runs -/

theorem Inv.step (h : s.Inv g) (op : KeyPoolOp) (hfree : ∀ n, s.Writes keypool n op → ¬ s.Held n) :
    (s.step g keypool op).Inv g := by
  cases op with
  | topUpKeyPool => exact h.topUpKeyPool hfree
  | newKeyPool => exact h.newKeyPool fun n hlocked hle hlt => hfree n ⟨hlocked, hle, hlt⟩
  | lock => exact ⟨h.positive, h.distinct, h.apart, h.recorded, h.held_record, h.live_key, h.pool_inj,
      h.kept_old, h.kept_nodup⟩
  | unlock => exact ⟨h.positive, h.distinct, h.apart, h.recorded, h.held_record, h.live_key,
      h.pool_inj, h.kept_old, h.kept_nodup⟩
  | getReservedKey r => exact h.getReservedKey hfree
  | keepKey r => exact h.keepKey r
  | returnKey r => exact h.returnKey r
  | getKeyFromPool fAllowReuse => exact h.getKeyFromPool fAllowReuse hfree

theorem Inv.run {ops : List KeyPoolOp} (h : s.Inv g) (hcautious : s.Cautious g keypool ops) :
    (s.run g keypool ops).Inv g := by
  induction ops generalizing s with
  | nil => exact h
  | cons op ops ih => exact ih (h.step op hcautious.1) hcautious.2

theorem Inv.safe (h : s.Inv g) : s.Safe g keypool where
  distinct := h.distinct
  recorded := h.recorded
  reserves e := by
    have htopped : (s.topUpKeyPool g keypool).Recorded := h.to_recorded.topUpKeyPool
    rcases reserveKeyFromKeyPool_cases htopped with ⟨-, heq⟩ | ⟨nIndex, key, -, -, heq⟩ <;> rw [heq] <;> exact fun hne => by cases hne
  not_kept r hr := (h.live_key _ _ (.inr (held_of_ne hr)) (h.held_record r hr)).2.1
  kept_once := h.kept_nodup

/-- A pool as it is loaded: nothing is reserved, and every index in the set has a record of its own
with a key of the wallet that was not kept. -/
structure Loaded (g : KeyGen) (s : KeyPool) : Prop where
  free : ∀ r, s.reserveKeys r = {}
  positive : ∀ n ∈ s.setKeyPool, 0 < n
  recorded : ∀ n ∈ s.setKeyPool, ∃ key, s.pool n = some key
  key : ∀ n ∈ s.setKeyPool, ∀ key, s.pool n = some key →
    key ∈ s.keys ∧ key ∉ s.kept ∧ s.Generated g key
  pool_inj : ∀ n ∈ s.setKeyPool, ∀ m ∈ s.setKeyPool, ∀ key,
    s.pool n = some key → s.pool m = some key → n = m
  kept_old : ∀ key ∈ s.kept, s.Generated g key
  kept_nodup : s.kept.Nodup

theorem Loaded.inv (h : s.Loaded g) : s.Inv g := by
  have hnone : ∀ r, (s.reserveKeys r).nIndex = -1 := fun r => by rw [h.free r]
  have hheld : ∀ n, ¬ s.Held n := by
    rintro n ⟨hne, r, hr⟩
    exact hne (hr.symm.trans (hnone r))
  have hlive : ∀ n, s.Live n → n ∈ s.setKeyPool := fun n hn => hn.resolve_right (hheld n)
  exact {
    positive := fun n hn => h.positive n (hlive n hn)
    distinct := fun r _ hr => absurd (hnone r) hr
    apart := fun n hn => absurd hn (hheld n)
    recorded := h.recorded
    held_record := fun r hr => absurd (hnone r) hr
    live_key := fun n k hn => h.key n (hlive n hn) k
    pool_inj := fun n m k hn hm => h.pool_inj n (hlive n hn) m (hlive m hm) k
    kept_old := h.kept_old
    kept_nodup := h.kept_nodup }

/-- The index is below one in the set. -/
def Below (s : KeyPool) (n : ℤ) : Prop := ∃ m ∈ s.setKeyPool, n < m

structure Ahead (s : KeyPool) : Prop where
  unlocked : s.fLocked = false
  below : ∀ n, s.Held n → s.Below n

theorem Below.mono {t : KeyPool} (h : s.Below n) (hsub : s.setKeyPool ⊆ t.setKeyPool) : t.Below n := by
  obtain ⟨m, hm, hlt⟩ := h
  exact ⟨m, hsub hm, hlt⟩

theorem topUpLoop_spec (g : KeyGen) (target : Nat) (s : KeyPool) :
    target ≤ (s.topUpLoop g target).setKeyPool.card ∧
      s.setKeyPool ⊆ (s.topUpLoop g target).setKeyPool ∧
      (s.topUpLoop g target).reserveKeys = s.reserveKeys ∧
      (s.topUpLoop g target).fLocked = s.fLocked := by
  fun_induction KeyPool.topUpLoop g target s with
  | case1 s _ ih =>
      obtain ⟨hcard, hsub, hkeys, hlocked⟩ := ih
      exact ⟨hcard, (Finset.subset_insert _ _).trans hsub, hkeys, hlocked⟩
  | case2 s hfull => exact ⟨not_lt.mp hfull, Finset.Subset.refl _, rfl, rfl⟩

namespace Ahead

theorem grow {t : KeyPool} (h : s.Ahead) (hlocked : t.fLocked = false)
    (hsub : s.setKeyPool ⊆ t.setKeyPool) (hheld : ∀ n, t.Held n → s.Held n) : t.Ahead where
  unlocked := hlocked
  below n hn := (h.below n (hheld n hn)).mono hsub

theorem topUpKeyPool (h : s.Ahead) : (s.topUpKeyPool g keypool).Ahead ∧
    targetSize keypool ≤ (s.topUpKeyPool g keypool).setKeyPool.card := by
  obtain ⟨hcard, hsub, hkeys, hlocked⟩ := topUpLoop_spec g (targetSize keypool) s
  unfold KeyPool.topUpKeyPool
  rw [h.unlocked]
  refine ⟨h.grow (hlocked.trans h.unlocked) hsub ?_, hcard⟩
  rintro n ⟨hne, hr⟩
  exact ⟨hne, hkeys ▸ hr⟩

/-- Taking out the lowest of two indexes and more leaves the highest one. -/
theorem erase_min (h : s.Ahead) (hcard : 2 ≤ s.setKeyPool.card) (hmin : s.setKeyPool.min = n) :
    { s with setKeyPool := s.setKeyPool.erase n }.Ahead ∧
      { s with setKeyPool := s.setKeyPool.erase n }.Below n := by
  obtain ⟨m, hm, hne⟩ := Finset.exists_mem_ne (Nat.lt_of_succ_le hcard) n
  have hlt : n < m := lt_of_le_of_ne (Finset.min_le_of_eq hm hmin) hne.symm
  have hleft : m ∈ s.setKeyPool.erase n := Finset.mem_erase.mpr ⟨hne, hm⟩
  refine ⟨⟨h.unlocked, ?_⟩, m, hleft, hlt⟩
  intro k hk
  obtain ⟨m', hm', hlt'⟩ := h.below k hk
  by_cases heq : m' = n
  · exact ⟨m, hleft, by omega⟩
  · exact ⟨m', Finset.mem_erase.mpr ⟨heq, hm'⟩, hlt'⟩

theorem reserveKeyFromKeyPool (h : s.Ahead) (htarget : 2 ≤ targetSize keypool) :
    (s.reserveKeyFromKeyPool g keypool).2.Ahead ∧
      (s.reserveKeyFromKeyPool g keypool).2.Below (s.reserveKeyFromKeyPool g keypool).1.1 := by
  obtain ⟨htop, hcard⟩ : (s.topUpKeyPool g keypool).Ahead ∧ _ := h.topUpKeyPool
  unfold KeyPool.reserveKeyFromKeyPool
  generalize s.topUpKeyPool g keypool = t at htop hcard
  dsimp only
  split
  · next hmin =>
    rw [Finset.min_eq_top.mp hmin, Finset.card_empty] at hcard
    omega
  · next nIndex hmin =>
    have hafter := htop.erase_min (by omega) hmin
    split
    · exact hafter
    · split <;> exact hafter

theorem setReserveKey (h : s.Ahead) {k : CReserveKey} (hk : k.nIndex ≠ -1 → s.Below k.nIndex) :
    (s.setReserveKey r k).Ahead where
  unlocked := h.unlocked
  below n hn := by
    rcases held_setReserveKey hn with rfl | ⟨r', -, hr'⟩
    · exact hk hn.1
    · exact h.below n ⟨hn.1, r', hr'⟩

theorem release (h : s.Ahead) (r : Nat) : (s.setReserveKey r {}).Ahead :=
  h.setReserveKey fun hne => absurd rfl hne

theorem getKeyFromPool (h : s.Ahead) (htarget : 2 ≤ targetSize keypool) (fAllowReuse : Bool) :
    (s.getKeyFromPool g keypool fAllowReuse).Ahead := by
  obtain ⟨hafter, -⟩ := h.reserveKeyFromKeyPool (g := g) htarget
  have hsame : ∀ {t u : KeyPool}, t.Ahead → u.fLocked = t.fLocked → u.setKeyPool = t.setKeyPool →
      u.reserveKeys = t.reserveKeys → u.Ahead := by
    intro t u ht hlocked hset hkeys
    refine ht.grow (hlocked.trans ht.unlocked) hset.ge ?_
    rintro n ⟨hne, hr⟩
    exact ⟨hne, hkeys ▸ hr⟩
  unfold KeyPool.getKeyFromPool
  split
  · next heq =>
    rw [heq] at hafter
    exact hafter
  · next heq =>
    rw [heq] at hafter
    rw [keepIndex_eq]
    split_ifs
    all_goals first | exact hafter | exact hsame hafter rfl rfl rfl

theorem step (h : s.Ahead) (htarget : 2 ≤ targetSize keypool) {op : KeyPoolOp} (hlock : op ≠ .lock)
    (hnew : op ≠ .newKeyPool) : (s.step g keypool op).Ahead := by
  cases op with
  | topUpKeyPool => exact h.topUpKeyPool.1
  | newKeyPool => exact absurd rfl hnew
  | lock => exact absurd rfl hlock
  | unlock => exact ⟨rfl, h.below⟩
  | getReservedKey r =>
      obtain ⟨hafter, hlt⟩ := h.reserveKeyFromKeyPool (g := g) htarget
      show (s.getReservedKey g keypool r).Ahead
      unfold KeyPool.getReservedKey
      split
      · split
        · next heq =>
          rw [heq] at hafter hlt
          exact hafter.setReserveKey fun _ => hlt
        · next heq =>
          rw [heq] at hafter hlt
          exact hafter.setReserveKey fun _ => hlt
      · exact h
  | keepKey r =>
      show (s.keepKey r).Ahead
      unfold KeyPool.keepKey
      dsimp only
      split
      · rw [keepIndex_eq]
        apply release
        exact h.grow h.unlocked (Finset.Subset.refl _) fun _ hn => hn
      · exact h.release r
  | returnKey r =>
      show (s.returnKey r).Ahead
      unfold KeyPool.returnKey
      dsimp only
      split
      · apply release
        exact h.grow h.unlocked (Finset.subset_insert _ _) fun _ hn => hn
      · exact h.release r
  | getKeyFromPool fAllowReuse => exact h.getKeyFromPool htarget fAllowReuse

/-- A run that neither locks the wallet nor begins a new pool is cautious. -/
theorem cautious (h : s.Ahead) (htarget : 2 ≤ targetSize keypool) {ops : List KeyPoolOp}
    (hlock : .lock ∉ ops) (hnew : .newKeyPool ∉ ops) : s.Cautious g keypool ops := by
  induction ops generalizing s with
  | nil => trivial
  | cons op ops ih =>
      rw [List.mem_cons, not_or] at hlock hnew
      refine ⟨?_, ih (h.step htarget (Ne.symm hlock.1) (Ne.symm hnew.1)) hlock.2 hnew.2⟩
      have hfree : ∀ n, s.TopsUp keypool n → ¬ s.Held n :=
        fun n htops hheld => by
          obtain ⟨m, hm, hlt⟩ := h.below n hheld
          have hend := lt_nEnd hm
          have := htops.2.1
          omega
      intro n hwrites
      cases op with
      | topUpKeyPool => exact hfree n hwrites
      | newKeyPool => exact absurd rfl hnew.1
      | getReservedKey r => exact hfree n hwrites.2
      | getKeyFromPool fAllowReuse => exact hfree n hwrites
      | lock => exact hwrites.elim
      | unlock => exact hwrites.elim
      | keepKey r => exact hwrites.elim
      | returnKey r => exact hwrites.elim

end Ahead

/-! ### Two reservations -/

/-- Keys that tell their number. -/
def numbered : KeyGen where
  key n := List.replicate (n + 1) 2
  key_injective a b h := by simpa using congrArg List.length h

theorem loaded_new : ({} : KeyPool).Loaded numbered where
  free _ := rfl
  positive n hn := absurd hn (Finset.notMem_empty n)
  recorded n hn := absurd hn (Finset.notMem_empty n)
  key n hn := absurd hn (Finset.notMem_empty n)
  pool_inj n hn := absurd hn (Finset.notMem_empty n)
  kept_old _ hkey := absurd hkey List.not_mem_nil
  kept_nodup := List.nodup_nil

/-- Reservations that are returned, kept and open at the end, with a pool of two keys -/
def reservingOps : List KeyPoolOp :=
  [.getReservedKey 0, .getReservedKey 1, .returnKey 0, .getKeyFromPool true, .getReservedKey 2,
    .keepKey 1, .topUpKeyPool, .getReservedKey 0]

/-- With `-keypool=0` and the set empty, the index is 1. -/
theorem getReservedKey_empty (hset : s.setKeyPool = ∅) (hlocked : s.fLocked = false)
    (hr : (s.reserveKeys r).nIndex = -1) :
    s.getReservedKey g 0 r
      = { s.addKey g 1 with setKeyPool := ∅ }.setReserveKey r ⟨1, g.key s.nGenerated⟩ := by
  have hend : s.nEnd = 1 := by
    unfold nEnd
    rw [hset]
    rfl
  have hfill : s.topUpKeyPool g 0 = s.addKey g 1 := by
    have hcard : (s.addKey g 1).setKeyPool.card = 1 := by
      show (insert 1 s.setKeyPool).card = 1
      rw [hset]
      rfl
    have htarget : targetSize 0 = 1 := rfl
    unfold KeyPool.topUpKeyPool
    rw [hlocked, htarget]
    show topUpLoop g 1 s = _
    unfold topUpLoop
    rw [if_pos (by rw [hset]; decide), hend]
    unfold topUpLoop
    rw [if_neg (by rw [hcard]; decide)]
  have hsingle : (s.addKey g 1).setKeyPool = {1} := by
    show insert 1 s.setKeyPool = {1}
    rw [hset]
    rfl
  have herase : (s.addKey g 1).setKeyPool.erase 1 = ∅ := by
    rw [hsingle]
    rfl
  have hrecorded : s.Recorded := fun n hn => absurd (hset ▸ hn) (Finset.notMem_empty n)
  unfold KeyPool.getReservedKey
  rw [if_pos hr]
  have htopped : (s.topUpKeyPool g 0).Recorded := hrecorded.topUpKeyPool
  rcases reserveKeyFromKeyPool_cases htopped with ⟨hempty, -⟩ | ⟨nIndex, key, hmem, hkey, heq⟩
  · rw [hfill, hsingle] at hempty
    exact absurd hempty (Finset.singleton_ne_empty 1)
  · rw [hfill, hsingle] at hmem
    cases Finset.mem_singleton.mp hmem
    rw [hfill, pool_addKey, if_pos rfl] at hkey
    cases hkey
    rw [heq, hfill, herase]
    rfl

end ShinyCoin.KeyPool

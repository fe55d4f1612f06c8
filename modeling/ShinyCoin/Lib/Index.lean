import ShinyCoin.Lib.PMap
import Mathlib.Data.Finset.Card
import Mathlib.Data.List.Nodup
import Mathlib.Logic.Function.Basic

/-!
# Indexes beside a table

What a table of keyed records may be accompanied by: a vector of all keys in which every record
knows its position, so that a key is removed by swapping it to the end; a map that leads back from
an attribute of the records to their keys; buckets of keys; and the number of the records of a kind. Each index is
tied to the table by one equivalence, and there is one lemma for each way to change both.
-/

namespace Lib

variable {K A : Type}

/-! ## Positions in a vector -/

theorem getElem?_eq_some_iff_idxOf [DecidableEq K] {l : List K} (hl : l.Nodup) {k : K} {x : Nat} :
    l[x]? = some k ↔ k ∈ l ∧ l.idxOf k = x := by
  constructor
  · intro hx
    obtain ⟨hlt, rfl⟩ := List.getElem?_eq_some_iff.mp hx
    exact ⟨List.getElem_mem hlt, hl.idxOf_getElem x hlt⟩
  · rintro ⟨hk, rfl⟩
    exact List.getElem?_idxOf hk

/-- A key is in the vector at the position that is recorded for it, and nowhere else. -/
def Positions (l : List K) (pos : K → Option ℤ) : Prop :=
  ∀ k z, pos k = some z ↔ 0 ≤ z ∧ l[z.toNat]? = some k

namespace Positions

variable {l : List K} {pos pos' : K → Option ℤ} {k a b : K} {i j : Nat}

theorem empty : Positions ([] : List K) fun _ => none := by
  intro k z
  simp

theorem congr (h : Positions l pos) (hpos : ∀ k, pos' k = pos k) : Positions l pos' := by
  intro k z
  rw [hpos]
  exact h k z

theorem range {n : Nat} {pos : Nat → Option ℤ}
    (h : ∀ k, pos k = if k < n then some (k : ℤ) else none) : Positions (List.range n) pos := by
  intro k z
  rw [h]
  split
  · next hlt =>
      rw [Option.some.injEq]
      constructor
      · rintro rfl
        refine ⟨Int.natCast_nonneg k, ?_⟩
        rw [Int.toNat_natCast, List.getElem?_range hlt]
      · rintro ⟨hz, hget⟩
        obtain ⟨hlt', heq⟩ := List.getElem?_eq_some_iff.mp hget
        rw [List.getElem_range] at heq
        omega
  · next hge =>
      constructor
      · intro hnone
        cases hnone
      · rintro ⟨-, hget⟩
        obtain ⟨hlt, heq⟩ := List.getElem?_eq_some_iff.mp hget
        rw [List.getElem_range] at heq
        rw [List.length_range] at hlt
        omega

theorem get (h : Positions l pos) {z : ℤ} (hk : pos k = some z) :
    0 ≤ z ∧ z < l.length ∧ l[z.toNat]? = some k := by
  obtain ⟨hz, hget⟩ := (h k z).mp hk
  obtain ⟨hlt, -⟩ := List.getElem?_eq_some_iff.mp hget
  exact ⟨hz, by omega, hget⟩

theorem pos_eq (h : Positions l pos) (hget : l[i]? = some k) : pos k = some (i : ℤ) := by
  apply (h k i).mpr
  exact ⟨Int.natCast_nonneg i, by rwa [Int.toNat_natCast]⟩

theorem mem_iff (h : Positions l pos) : k ∈ l ↔ pos k ≠ none := by
  constructor
  · intro hk
    obtain ⟨i, hget⟩ := List.mem_iff_getElem?.mp hk
    rw [h.pos_eq hget]
    exact Option.some_ne_none _
  · intro hk
    obtain ⟨z, hz⟩ := Option.ne_none_iff_exists'.mp hk
    exact List.mem_of_getElem? (h.get hz).2.2

theorem nodup (h : Positions l pos) : l.Nodup := by
  rw [List.nodup_iff_getElem?_ne_getElem?]
  intro i j hij hj hsame
  obtain ⟨k, hk⟩ : ∃ k, l[j]? = some k := ⟨l[j], List.getElem?_eq_getElem hj⟩
  have hi := h.pos_eq (hsame.trans hk)
  rw [h.pos_eq hk] at hi
  have := Option.some.inj hi
  omega

/-- A new key goes to the end. -/
theorem push (h : Positions l pos) (hk : pos k = none) (hnew : pos' k = some (l.length : ℤ))
    (hpos : ∀ x, x ≠ k → pos' x = pos x) : Positions (l ++ [k]) pos' := by
  intro x z
  by_cases hx : x = k
  · subst hx
    rw [hnew, Option.some.injEq]
    constructor
    · rintro rfl
      exact ⟨Int.natCast_nonneg _, by simp⟩
    · rintro ⟨hz, hget⟩
      by_cases hlt : z.toNat < l.length
      · rw [List.getElem?_append_left hlt] at hget
        have := (h x z).mpr ⟨hz, hget⟩
        rw [hk] at this
        cases this
      · obtain ⟨hlen, -⟩ := List.getElem?_eq_some_iff.mp hget
        rw [List.length_append, List.length_singleton] at hlen
        omega
  · rw [hpos x hx, h x z]
    refine and_congr_right fun hz => ?_
    by_cases hlt : z.toNat < l.length
    · rw [List.getElem?_append_left hlt]
    · rw [List.getElem?_append_right (by omega), List.getElem?_eq_none (by omega)]
      constructor
      · intro hnone
        cases hnone
      · intro hget
        have hmem := List.mem_of_getElem? hget
        rw [List.mem_singleton] at hmem
        exact absurd hmem hx

/-- Two keys change places. -/
theorem swap (h : Positions l pos) (ha : l[i]? = some a) (hb : l[j]? = some b) (hij : i ≠ j)
    (hposa : pos' a = some (j : ℤ)) (hposb : pos' b = some (i : ℤ))
    (hpos : ∀ x, x ≠ a → x ≠ b → pos' x = pos x) : Positions ((l.set i b).set j a) pos' := by
  have hi : i < l.length := (List.getElem?_eq_some_iff.mp ha).1
  have hj : j < l.length := (List.getElem?_eq_some_iff.mp hb).1
  have hne : a ≠ b := by
    rintro rfl
    have := (h.pos_eq ha).symm.trans (h.pos_eq hb)
    exact hij (Int.natCast_inj.mp (Option.some.inj this))
  have hget : ∀ n, ((l.set i b).set j a)[n]? = if n = j then some a else if n = i then some b
      else l[n]? := by
    intro n
    rw [List.getElem?_set, List.getElem?_set, List.length_set]
    by_cases hnj : j = n
    · rw [if_pos hnj, if_pos hj, if_pos hnj.symm]
    · rw [if_neg hnj, if_neg (Ne.symm hnj)]
      by_cases hni : i = n
      · rw [if_pos hni, if_pos hi, if_pos hni.symm]
      · rw [if_neg hni, if_neg (Ne.symm hni)]
  intro x z
  rw [hget]
  by_cases hxa : x = a
  · subst hxa
    rw [hposa, Option.some.injEq]
    constructor
    · rintro rfl
      exact ⟨Int.natCast_nonneg _, if_pos (Int.toNat_natCast j)⟩
    · rintro ⟨hz, hgetx⟩
      split at hgetx
      · omega
      · split at hgetx
        · exact absurd (Option.some.inj hgetx).symm hne
        · have := (h x z).mpr ⟨hz, hgetx⟩
          rw [h.pos_eq ha] at this
          have := Option.some.inj this
          omega
  · by_cases hxb : x = b
    · subst hxb
      rw [hposb, Option.some.injEq]
      constructor
      · rintro rfl
        refine ⟨Int.natCast_nonneg _, ?_⟩
        rw [Int.toNat_natCast, if_neg hij, if_pos rfl]
      · rintro ⟨hz, hgetx⟩
        split at hgetx
        · exact absurd (Option.some.inj hgetx) hne
        · split at hgetx
          · omega
          · have := (h x z).mpr ⟨hz, hgetx⟩
            rw [h.pos_eq hb] at this
            have := Option.some.inj this
            omega
    · rw [hpos x hxa hxb, h x z]
      refine and_congr_right fun hz => ?_
      split
      · next hzj =>
          rw [hzj, hb]
          simp [Ne.symm hxa, Ne.symm hxb]
      · split
        · next hzi =>
            rw [hzi, ha]
            simp [Ne.symm hxa, Ne.symm hxb]
        · rfl

/-- The last key goes. -/
theorem pop (h : Positions l pos) (hk : l.getLast? = some k) (hgone : pos' k = none)
    (hpos : ∀ x, x ≠ k → pos' x = pos x) : Positions l.dropLast pos' := by
  obtain ⟨front, rfl⟩ := List.getLast?_eq_some_iff.mp hk
  have hnodup := h.nodup
  rw [List.dropLast_concat]
  have hnot : k ∉ front := by
    intro hmem
    exact List.disjoint_of_nodup_append hnodup hmem (List.mem_singleton_self k)
  intro x z
  by_cases hx : x = k
  · subst hx
    rw [hgone]
    constructor
    · intro hnone
      cases hnone
    · rintro ⟨-, hget⟩
      exact absurd (List.mem_of_getElem? hget) hnot
  · rw [hpos x hx, h x z]
    refine and_congr_right fun hz => ?_
    by_cases hlt : z.toNat < front.length
    · rw [List.getElem?_append_left hlt]
    · rw [List.getElem?_append_right (by omega), List.getElem?_eq_none (i := z.toNat) (by omega)]
      constructor
      · intro hget
        exact absurd (List.mem_singleton.mp (List.mem_of_getElem? hget)) hx
      · intro hnone
        cases hnone

end Positions

/-! ## From an attribute to the keys -/

variable [DecidableEq A]

/-- The map leads from an attribute to the one key that has it. -/
def Inverse (m : PMap A K) (attr : K → Option A) : Prop :=
  ∀ a k, m a = some k ↔ attr k = some a

namespace Inverse

variable {m : PMap A K} {attr attr' : K → Option A} {a : A} {k : K}

omit [DecidableEq A] in
theorem empty : Inverse (PMap.empty : PMap A K) fun _ => none := by
  intro a k
  simp

omit [DecidableEq A] in
theorem congr (h : Inverse m attr) (hattr : ∀ k, attr' k = attr k) : Inverse m attr' := by
  intro a k
  rw [hattr]
  exact h a k

theorem set (h : Inverse m attr) (ha : m a = none) (hk : attr k = none) (hnew : attr' k = some a)
    (hattr : ∀ x, x ≠ k → attr' x = attr x) : Inverse (m.set a k) attr' := by
  intro a' x
  rw [PMap.set_apply]
  by_cases hx : x = k
  · subst hx
    rw [hnew, Option.some.injEq]
    split
    · next heq => simp [heq]
    · next hne =>
        rw [h, hk]
        simp [Ne.symm hne]
  · rw [hattr x hx, ← h]
    split
    · next heq => simp [heq, ha, Ne.symm hx]
    · rfl

theorem erase (h : Inverse m attr) (hk : attr k = some a) (hgone : attr' k = none)
    (hattr : ∀ x, x ≠ k → attr' x = attr x) : Inverse (m.erase a) attr' := by
  intro a' x
  rw [PMap.erase_apply]
  by_cases hx : x = k
  · subst hx
    rw [hgone]
    split
    · simp
    · next hne =>
        rw [h, hk]
        simp [Ne.symm hne]
  · rw [hattr x hx, ← h]
    split
    · next heq =>
        have hmk : m a' = some k := by
          rw [heq, h]
          exact hk
        simp [hmk, Ne.symm hx]
    · rfl

end Inverse

/-! ## Keys in buckets -/

/-- A key is in the bucket that is its place, and in no other. -/
def Placed {B : Type} (bucket : B → List K) (place : K → Option B) : Prop :=
  ∀ b k, k ∈ bucket b ↔ place k = some b

namespace Placed

variable {B : Type} [DecidableEq B] {bucket : B → List K} {place place' : K → Option B} {b : B}
  {k : K} {l : List K}

omit [DecidableEq B] in
theorem empty : Placed (fun _ : B => ([] : List K)) fun _ => none := by
  intro b k
  simp

omit [DecidableEq B] in
theorem congr (h : Placed bucket place) (hplace : ∀ k, place' k = place k) : Placed bucket place' := by
  intro b k
  rw [hplace]
  exact h b k

theorem insert (h : Placed bucket place) (hk : place k = none) (hl : ∀ x, x ∈ l ↔ x = k ∨ x ∈ bucket b)
    (hnew : place' k = some b) (hplace : ∀ x, x ≠ k → place' x = place x) :
    Placed (Function.update bucket b l) place' := by
  intro b' x
  by_cases hx : x = k
  · subst hx
    rw [hnew, Option.some.injEq]
    by_cases hb : b' = b
    · subst hb
      rw [Function.update_self, hl]
      simp
    · rw [Function.update_of_ne hb, h, hk]
      simp [Ne.symm hb]
  · rw [hplace x hx, ← h]
    by_cases hb : b' = b
    · subst hb
      rw [Function.update_self, hl]
      simp [hx]
    · rw [Function.update_of_ne hb]

theorem erase (h : Placed bucket place) (hk : place k = some b) (hl : ∀ x, x ∈ l ↔ x ≠ k ∧ x ∈ bucket b)
    (hgone : place' k = none) (hplace : ∀ x, x ≠ k → place' x = place x) :
    Placed (Function.update bucket b l) place' := by
  intro b' x
  by_cases hx : x = k
  · subst hx
    rw [hgone]
    by_cases hb : b' = b
    · subst hb
      rw [Function.update_self, hl]
      simp
    · rw [Function.update_of_ne hb, h, hk]
      simp [Ne.symm hb]
  · rw [hplace x hx, ← h]
    by_cases hb : b' = b
    · subst hb
      rw [Function.update_self, hl]
      simp [hx]
    · rw [Function.update_of_ne hb]

end Placed

/-! ## How many -/

/-- There are `n` keys of a kind. -/
def HasCount (P : K → Prop) (n : ℤ) : Prop :=
  ∃ s : Finset K, (∀ k, k ∈ s ↔ P k) ∧ (s.card : ℤ) = n

namespace HasCount

variable {P Q : K → Prop} {n : ℤ} {k : K}

theorem empty (h : ∀ k, ¬ P k) : HasCount P 0 :=
  ⟨∅, by simpa using h, rfl⟩

theorem congr (h : HasCount P n) (hPQ : ∀ k, Q k ↔ P k) : HasCount Q n := by
  obtain ⟨s, hs, hcard⟩ := h
  exact ⟨s, fun k => (hs k).trans (hPQ k).symm, hcard⟩

theorem unique {n' : ℤ} (h : HasCount P n) (h' : HasCount P n') : n = n' := by
  obtain ⟨s, hs, rfl⟩ := h
  obtain ⟨s', hs', rfl⟩ := h'
  have heq : s = s' := Finset.ext fun k => (hs k).trans (hs' k).symm
  rw [heq]

theorem le_card (h : HasCount P n) {s : Finset K} (hs : ∀ k, P k → k ∈ s) : n ≤ s.card := by
  obtain ⟨t, ht, rfl⟩ := h
  exact_mod_cast Finset.card_le_card fun k hk => hs k ((ht k).mp hk)

variable [DecidableEq K]

theorem of_list {l : List K} (hl : l.Nodup) (hP : ∀ k, k ∈ l ↔ P k) : HasCount P l.length := by
  refine ⟨l.toFinset, ?_, ?_⟩
  · intro k
    rw [List.mem_toFinset, hP]
  · rw [List.toFinset_card_of_nodup hl]

theorem insert (h : HasCount P n) (hk : ¬ P k) (hnew : Q k) (hPQ : ∀ x, x ≠ k → (Q x ↔ P x)) :
    HasCount Q (n + 1) := by
  obtain ⟨s, hs, rfl⟩ := h
  refine ⟨Insert.insert k s, ?_, ?_⟩
  · intro x
    rw [Finset.mem_insert, hs]
    by_cases hx : x = k
    · simp [hx, hnew]
    · simp [hx, hPQ x hx]
  · rw [Finset.card_insert_of_notMem (fun hmem => hk ((hs k).mp hmem))]
    rfl

theorem erase (h : HasCount P n) (hk : P k) (hgone : ¬ Q k) (hPQ : ∀ x, x ≠ k → (Q x ↔ P x)) :
    HasCount Q (n - 1) := by
  obtain ⟨s, hs, rfl⟩ := h
  have hmem : k ∈ s := (hs k).mpr hk
  refine ⟨s.erase k, ?_, ?_⟩
  · intro x
    rw [Finset.mem_erase, hs]
    by_cases hx : x = k
    · simp [hx, hgone]
    · simp [hx, hPQ x hx]
  · have := Finset.card_erase_add_one hmem
    omega

/-- The positions of the keys of the kind in a list that has all of them -/
theorem positions {ids : List K} (h : HasCount P n) (hids : ids.Nodup) (hP : ∀ k, P k → k ∈ ids) :
    HasCount (fun x : Nat => ∃ k, ids[x]? = some k ∧ P k) n := by
  obtain ⟨s, hs, rfl⟩ := h
  have hpos : ∀ (k : K) (x : Nat), k ∈ s → (ids.idxOf k = x ↔ ids[x]? = some k) := by
    intro k x hk
    rw [getElem?_eq_some_iff_idxOf hids]
    simp [hP k ((hs k).mp hk)]
  refine ⟨s.image ids.idxOf, ?_, ?_⟩
  · intro x
    rw [Finset.mem_image]
    constructor
    · rintro ⟨k, hk, hx⟩
      exact ⟨k, (hpos k x hk).mp hx, (hs k).mp hk⟩
    · rintro ⟨k, hx, hk⟩
      exact ⟨k, (hs k).mpr hk, (hpos k x ((hs k).mpr hk)).mpr hx⟩
  · rw [Finset.card_image_of_injOn]
    intro k hk k' hk' hsame
    have hx := (hpos k _ hk).mp rfl
    have hx' := (hpos k' _ hk').mp rfl
    rw [show ids.idxOf k = ids.idxOf k' from hsame, hx'] at hx
    exact (Option.some.inj hx).symm

end HasCount

end Lib

import Mathlib.Data.Finset.Card
import Mathlib.Logic.Function.Basic

/-!
# A semaphore in front of an array of flags

Clients first take one of `n` units from a counting semaphore, then look for a slot whose flag is
free, and give both back later. `Counted` is what the semaphore promises, `Owned` what the flags
do. Together they leave a free slot for whoever has a unit and no slot yet (`exists_free`).

The clients are a function from names to their own data, and `T` and `slot` read off that data
whether a client has a unit and which slot is his.
-/

namespace Lib

variable {κ φ : Type}

/-- As many clients have a unit as are missing from the `n`. -/
def Counted (n val : Nat) (T : φ → Prop) (clients : κ → φ) : Prop :=
  ∃ holders : Finset κ, (∀ k, k ∈ holders ↔ T (clients k)) ∧ holders.card + val = n

namespace Counted

variable {n val : Nat} {T : φ → Prop} {clients : κ → φ} {k : κ} {c : φ}

theorem start (hT : ∀ k, ¬ T (clients k)) : Counted n n T clients :=
  ⟨∅, fun k => by simp [hT k], by simp⟩

variable [DecidableEq κ]

theorem keep (h : Counted n val T clients) (hsame : T c ↔ T (clients k)) :
    Counted n val T (Function.update clients k c) := by
  obtain ⟨holders, hmem, hcard⟩ := h
  refine ⟨holders, fun k' => (hmem k').trans ?_, hcard⟩
  by_cases hk : k' = k
  · subst hk
    rw [Function.update_self]
    exact hsame.symm
  · rw [Function.update_of_ne hk]

theorem acquire (h : Counted n val T clients) (hval : 0 < val)
    (hnot : ¬ T (clients k)) (hT : T c) :
    Counted n (val - 1) T (Function.update clients k c) := by
  obtain ⟨holders, hmem, hcard⟩ := h
  refine ⟨insert k holders, fun k' => ?_, ?_⟩
  · by_cases hk : k' = k
    · subst hk
      simp [hT]
    · rw [Function.update_of_ne hk, ← hmem k', Finset.mem_insert]
      exact or_iff_right hk
  · rw [Finset.card_insert_of_notMem fun hin => hnot ((hmem k).mp hin)]
    omega

theorem release (h : Counted n val T clients) (hT : T (clients k)) (hnot : ¬ T c) :
    Counted n (val + 1) T (Function.update clients k c) := by
  obtain ⟨holders, hmem, hcard⟩ := h
  have hin : k ∈ holders := (hmem k).mpr hT
  refine ⟨holders.erase k, fun k' => ?_, ?_⟩
  · by_cases hk : k' = k
    · subst hk
      simp [hnot]
    · rw [Function.update_of_ne hk, ← hmem k', Finset.mem_erase]
      exact and_iff_right hk
  · have := Finset.card_pos.mpr ⟨k, hin⟩
    rw [Finset.card_erase_of_mem hin]
    omega

omit [DecidableEq κ] in
/-- When no unit is left, somebody has one. -/
theorem exists_holder (h : Counted n 0 T clients) (hn : 0 < n) : ∃ k, T (clients k) := by
  obtain ⟨holders, hmem, hcard⟩ := h
  obtain ⟨k, hk⟩ := Finset.card_pos.mp (by omega : 0 < holders.card)
  exact ⟨k, (hmem k).mp hk⟩

end Counted

/-- A slot below `n` is in use for exactly one client, and no flag is up for nobody. -/
structure Owned (n : Nat) (used : Nat → Bool) (slot : φ → Option Nat) (clients : κ → φ) : Prop where
  used_of_slot : ∀ {k i}, slot (clients k) = some i → i < n ∧ used i = true
  exclusive : ∀ {k k' i}, slot (clients k) = some i → slot (clients k') = some i → k = k'
  owner : ∀ {i}, used i = true → ∃ k, slot (clients k) = some i

namespace Owned

variable {n i : Nat} {used : Nat → Bool} {slot : φ → Option Nat} {clients : κ → φ} {k : κ} {c : φ}

theorem start (hused : ∀ i, used i = false) (hslot : ∀ k, slot (clients k) = none) :
    Owned n used slot clients where
  used_of_slot := fun h => by rw [hslot] at h; cases h
  exclusive := fun h => by rw [hslot] at h; cases h
  owner := fun h => by rw [hused] at h; cases h

variable [DecidableEq κ]

theorem keep (h : Owned n used slot clients) (hsame : slot c = slot (clients k)) :
    Owned n used slot (Function.update clients k c) := by
  have heq : ∀ k', slot (Function.update clients k c k') = slot (clients k') := by
    intro k'
    by_cases hk : k' = k
    · subst hk
      rw [Function.update_self, hsame]
    · rw [Function.update_of_ne hk]
  refine ⟨?_, ?_, ?_⟩
  · intro k' i hi
    exact h.used_of_slot ((heq k').symm.trans hi)
  · intro k₁ k₂ i h₁ h₂
    exact h.exclusive ((heq k₁).symm.trans h₁) ((heq k₂).symm.trans h₂)
  · intro i hi
    obtain ⟨k', hk'⟩ := h.owner hi
    exact ⟨k', (heq k').trans hk'⟩

theorem take (h : Owned n used slot clients) (hi : i < n) (hfree : used i = false)
    (hnone : slot (clients k) = none) (hslot : slot c = some i) :
    Owned n (Function.update used i true) slot (Function.update clients k c) := by
  have hnew : ∀ {k' j}, slot (Function.update clients k c k') = some j →
      (k' = k ∧ j = i) ∨ (k' ≠ k ∧ j ≠ i ∧ slot (clients k') = some j) := by
    intro k' j hj
    by_cases hk : k' = k
    · subst hk
      rw [Function.update_self, hslot] at hj
      exact .inl ⟨rfl, (Option.some.inj hj).symm⟩
    · rw [Function.update_of_ne hk] at hj
      refine .inr ⟨hk, ?_, hj⟩
      rintro rfl
      have := (h.used_of_slot hj).2
      rw [hfree] at this
      cases this
  refine ⟨?_, ?_, ?_⟩
  · intro k' j hj
    obtain ⟨-, rfl⟩ | ⟨-, hji, hj⟩ := hnew hj
    · exact ⟨hi, Function.update_self ..⟩
    · rw [Function.update_of_ne hji]
      exact h.used_of_slot hj
  · intro k₁ k₂ j h₁ h₂
    obtain ⟨rfl, rfl⟩ | ⟨-, hji, h₁⟩ := hnew h₁
    · obtain ⟨rfl, -⟩ | ⟨-, hji, -⟩ := hnew h₂
      · rfl
      · exact absurd rfl hji
    · obtain ⟨-, rfl⟩ | ⟨-, -, h₂⟩ := hnew h₂
      · exact absurd rfl hji
      · exact h.exclusive h₁ h₂
  · intro j hj
    by_cases hji : j = i
    · subst hji
      exact ⟨k, by rw [Function.update_self, hslot]⟩
    · rw [Function.update_of_ne hji] at hj
      obtain ⟨k', hk'⟩ := h.owner hj
      refine ⟨k', ?_⟩
      rw [Function.update_of_ne, hk']
      rintro rfl
      rw [hnone] at hk'
      cases hk'

theorem drop (h : Owned n used slot clients) (hslot : slot (clients k) = some i)
    (hnone : slot c = none) :
    Owned n (Function.update used i false) slot (Function.update clients k c) := by
  have hold : ∀ {k' j}, slot (Function.update clients k c k') = some j →
      k' ≠ k ∧ slot (clients k') = some j := by
    intro k' j hj
    by_cases hk : k' = k
    · subst hk
      rw [Function.update_self, hnone] at hj
      cases hj
    · rw [Function.update_of_ne hk] at hj
      exact ⟨hk, hj⟩
  refine ⟨?_, ?_, ?_⟩
  · intro k' j hj
    obtain ⟨hk, hj⟩ := hold hj
    have hji : j ≠ i := by
      rintro rfl
      exact hk (h.exclusive hj hslot)
    rw [Function.update_of_ne hji]
    exact h.used_of_slot hj
  · intro k₁ k₂ j h₁ h₂
    exact h.exclusive (hold h₁).2 (hold h₂).2
  · intro j hj
    by_cases hji : j = i
    · subst hji
      rw [Function.update_self] at hj
      cases hj
    · rw [Function.update_of_ne hji] at hj
      obtain ⟨k', hk'⟩ := h.owner hj
      refine ⟨k', ?_⟩
      rw [Function.update_of_ne, hk']
      rintro rfl
      rw [hslot] at hk'
      exact hji (Option.some.inj hk').symm

/-- Whoever has a unit and no slot finds one: the others have too few units to fill them all. -/
theorem exists_free {val : Nat} {T : φ → Prop} (h : Owned n used slot clients)
    (hcount : Counted n val T clients) (hT : ∀ {c i}, slot c = some i → T c) (hk : T (clients k))
    (hnone : slot (clients k) = none) : ∃ i < n, used i = false := by
  by_contra hall
  have hused : ∀ i < n, used i = true := by
    intro i hi
    cases hu : used i with
    | true => rfl
    | false => exact absurd ⟨i, hi, hu⟩ hall
  obtain ⟨holders, hmem, hcard⟩ := hcount
  have : Nonempty κ := ⟨k⟩
  choose! owner howner using fun i hi => h.owner (hused i hi)
  have hle : (Finset.range n).card ≤ (holders.erase k).card := by
    apply Finset.card_le_card_of_injOn owner
    · intro i hi
      have hi := howner i (Finset.mem_range.mp hi)
      refine Finset.mem_coe.mpr (Finset.mem_erase.mpr ⟨?_, (hmem _).mpr (hT hi)⟩)
      intro heq
      rw [heq, hnone] at hi
      cases hi
    · intro i hi j hj hij
      have hi := howner i (Finset.mem_range.mp hi)
      have hj := howner j (Finset.mem_range.mp hj)
      rw [hij, hj] at hi
      exact (Option.some.inj hi).symm
  have hpos := Finset.card_pos.mpr ⟨k, (hmem k).mpr hk⟩
  rw [Finset.card_range, Finset.card_erase_of_mem ((hmem k).mpr hk)] at hle
  omega

end Owned

end Lib

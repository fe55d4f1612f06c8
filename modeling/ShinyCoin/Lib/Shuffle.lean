import Mathlib.Data.List.Basic
import Mathlib.Logic.Equiv.Basic
import Mathlib.Data.List.Nodup
import Mathlib.Data.Nat.Basic
import Mathlib.Order.Lattice

/-!
# Drawing from the front of a list

Round `i` of a partial shuffle swaps the item at `i` with one that is drawn at or after `i`, so that
the first `k` places hold what the first `k` rounds drew. `origin` says where, in the list before
the shuffle, the item at a place came from; it depends on the draws alone.

The second half is about the first of the least values of a sequence, which is what a loop keeps
that replaces its candidate only by something smaller.
-/

namespace Lib

/-! ## Where the items come from -/

/-- The place before the shuffle of the item that is at `x` after the first `i` rounds. -/
def origin (p : ℕ → ℕ) : ℕ → ℕ → ℕ
  | 0, x => x
  | i + 1, x => origin p i (Equiv.swap i (p i) x)

section

variable {α : Type} {p : ℕ → ℕ} {l l' : List α} {i j k x : ℕ}

theorem origin_injective (p : ℕ → ℕ) : ∀ i, Function.Injective (origin p i)
  | 0 => Function.injective_id
  | i + 1 => (origin_injective p i).comp (Equiv.swap i (p i)).injective

/-- A round brings what it draws to its own place. -/
theorem origin_self (p : ℕ → ℕ) (i : ℕ) : origin p (i + 1) i = origin p i (p i) := by
  rw [origin, Equiv.swap_apply_left]

/-- Later rounds leave the places before them alone. -/
theorem origin_of_lt (hp : ∀ j, i ≤ j → j < k → j ≤ p j) (hx : x < i) (hik : i ≤ k) :
    origin p k x = origin p i x := by
  induction k with
  | zero => rw [Nat.le_zero.mp hik]
  | succ k ih =>
      rcases Nat.le_succ_iff.mp hik with hik' | rfl
      · have hk := hp k hik' (Nat.lt_succ_self k)
        rw [origin, Equiv.swap_apply_of_ne_of_ne (by omega) (by omega)]
        exact ih (fun j hj hjk => hp j hj (by omega)) hik'
      · rfl

/-- At the place of a round is what it drew. -/
theorem origin_drawn (hp : ∀ j < k, j ≤ p j) (hi : i < k) :
    origin p k i = origin p i (p i) := by
  rw [origin_of_lt (fun j _ hj => hp j hj) (Nat.lt_succ_self i) hi, origin_self]

/-- What two overwritten places that exchange their items hold, and all others. -/
theorem getElem?_swap {a b : α} (hi : l[i]? = some a) (hj : l[j]? = some b) (x : ℕ) :
    ((l.set j a).set i b)[x]? = l[Equiv.swap i j x]? := by
  obtain ⟨hilt, -⟩ := List.getElem?_eq_some_iff.mp hi
  obtain ⟨hjlt, -⟩ := List.getElem?_eq_some_iff.mp hj
  by_cases hxi : x = i
  · subst hxi
    rw [Equiv.swap_apply_left, List.getElem?_set_self (by simpa using hilt), hj]
  · rw [List.getElem?_set_ne (Ne.symm hxi)]
    by_cases hxj : x = j
    · subst hxj
      rw [Equiv.swap_apply_right, List.getElem?_set_self hjlt, hi]
    · rw [Equiv.swap_apply_of_ne_of_ne hxi hxj, List.getElem?_set_ne (Ne.symm hxj)]

/-- `l'` is `l` after the first `i` rounds. -/
def Shuffled (p : ℕ → ℕ) (l : List α) (i : ℕ) (l' : List α) : Prop :=
  ∀ x, l'[x]? = l[origin p i x]?

theorem shuffled_zero (p : ℕ → ℕ) (l : List α) : Shuffled p l 0 l := fun _ => rfl

theorem Shuffled.step (h : Shuffled p l i l') {a b : α} (ha : l'[i]? = some a)
    (hb : l'[p i]? = some b) : Shuffled p l (i + 1) ((l'.set (p i) a).set i b) := by
  intro x
  rw [getElem?_swap ha hb, h]
  rfl

/-- A place that holds an item drawn at the round `i` is the place `i`, if no item is twice in the
list. -/
theorem Shuffled.drawn_unique (h : Shuffled p l k l') (hl : l.Nodup) (hp : ∀ j < k, j ≤ p j)
    (hi : i < k) {a : α} (hx : l'[x]? = some a) (ha : l[origin p i (p i)]? = some a) : x = i := by
  rw [h x] at hx
  rw [← origin_drawn hp hi] at ha
  obtain ⟨hxlt, hxa⟩ := List.getElem?_eq_some_iff.mp hx
  obtain ⟨hilt, hia⟩ := List.getElem?_eq_some_iff.mp ha
  apply origin_injective p k
  exact hl.getElem_inj_iff.mp (hxa.trans hia.symm)

/-- The front of a list, from its items one by one. -/
theorem take_eq_filterMap {f : ℕ → Option α} (h : ∀ i < k, l[i]? = f i) :
    l.take k = (List.range k).filterMap f := by
  induction k with
  | zero => rfl
  | succ k ih =>
      rw [List.take_add_one, ih fun i hi => h i (hi.trans (Nat.lt_succ_self k)), List.range_succ,
        List.filterMap_append, h k (Nat.lt_succ_self k)]
      cases hf : f k <;> simp [hf]

end

/-! ## The first least value -/

/-- `m` is the first of the first `k` numbers at which `s` is least. -/
structure FirstLeast {α : Type} [LinearOrder α] (s : ℕ → α) (k m : ℕ) : Prop where
  lt : m < k
  least : ∀ j < k, s m ≤ s j
  first : ∀ j < m, s m < s j

namespace FirstLeast

variable {α : Type} [LinearOrder α] {s : ℕ → α} {k m m' : ℕ}

theorem one (s : ℕ → α) : FirstLeast s 1 0 where
  lt := Nat.one_pos
  least j hj := by rw [Nat.lt_one_iff.mp hj]
  first j hj := absurd hj (Nat.not_lt_zero j)

/-- The next value replaces the least one only when it is smaller. -/
theorem step (h : FirstLeast s k m) : FirstLeast s (k + 1) (if s k < s m then k else m) := by
  split
  next hlt =>
    refine ⟨Nat.lt_succ_self k, ?_, fun j hj => hlt.trans_le (h.least j hj)⟩
    intro j hj
    rcases Nat.lt_succ_iff_lt_or_eq.mp hj with hj | rfl
    · exact hlt.le.trans (h.least j hj)
    · exact le_rfl
  next hge =>
    refine ⟨h.lt.trans (Nat.lt_succ_self k), ?_, h.first⟩
    intro j hj
    rcases Nat.lt_succ_iff_lt_or_eq.mp hj with hj | rfl
    · exact h.least j hj
    · exact not_lt.mp hge

theorem unique (h : FirstLeast s k m) (h' : FirstLeast s k m') : m = m' := by
  rcases lt_trichotomy m m' with hlt | heq | hgt
  · exact absurd (h'.first m hlt) (not_lt.mpr (h.least m' h'.lt))
  · exact heq
  · exact absurd (h.first m' hgt) (not_lt.mpr (h'.least m h.lt))

end FirstLeast

end Lib

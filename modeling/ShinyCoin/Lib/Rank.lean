import Mathlib.Data.List.Sort
import Mathlib.Data.List.Count

/-!
# Ranks

The value at a place of a sorted list says how many values are below it, and in what order the list
was before does not matter. So a value at a fixed place does not fall when a list takes in something
larger than it, and neither when it gives something up for that.
-/

namespace Lib

section

variable {α : Type} [LinearOrder α] {l l' : List α} {m x d : α} {k : Nat}

/-- The value at place `k` once the list is sorted -/
def rank (d : α) (k : Nat) (l : List α) : α := (l.insertionSort (· ≤ ·)).getD k d

/-- The value at a place of a sorted list is at least `m` exactly when no more values than places
before it are below `m`. -/
theorem le_getElem_iff (hl : l.Pairwise (· ≤ ·)) (hk : k < l.length) :
    m ≤ l[k] ↔ l.countP (· < m) ≤ k := by
  constructor
  · intro hm
    -- from place `k` on nothing is below `m`
    have hrest : (l.drop k).countP (· < m) = 0 := by
      rw [List.countP_eq_zero]
      intro y hy
      obtain ⟨i, hi, rfl⟩ := List.mem_iff_getElem.mp hy
      rw [List.getElem_drop]
      have hki : k + i < l.length := by
        rw [List.length_drop] at hi
        omega
      have hle : l[k] ≤ l[k + i] := by
        rcases Nat.eq_zero_or_pos i with rfl | hpos
        · exact le_rfl
        · exact List.pairwise_iff_getElem.mp hl k (k + i) hk _ (by omega)
      simpa using hm.trans hle
    calc l.countP (· < m)
        = (l.take k).countP (· < m) + (l.drop k).countP (· < m) := by
          rw [← List.countP_append, List.take_append_drop]
      _ ≤ k := by
          rw [hrest, Nat.add_zero]
          exact List.countP_le_length.trans (List.length_take_le k l)
  · intro hcount
    by_contra hlt
    -- up to place `k` everything is below `m`
    have hall : (l.take (k + 1)).countP (· < m) = (l.take (k + 1)).length := by
      rw [List.countP_eq_length]
      intro y hy
      obtain ⟨i, hi, rfl⟩ := List.mem_iff_getElem.mp hy
      rw [List.getElem_take]
      have hik : i ≤ k := by
        rw [List.length_take] at hi
        omega
      have hi' : i < l.length := by omega
      have hle : l[i] ≤ l[k] := by
        rcases Nat.lt_or_eq_of_le hik with hik | rfl
        · exact List.pairwise_iff_getElem.mp hl i k _ hk hik
        · exact le_rfl
      simpa using lt_of_le_of_lt hle (not_le.mp hlt)
    have hle := (List.take_sublist (k + 1) l).countP_le (p := (· < m))
    rw [hall, List.length_take] at hle
    omega

theorem le_rank_iff (hk : k < l.length) : m ≤ rank d k l ↔ l.countP (· < m) ≤ k := by
  have hlen : k < (l.insertionSort (· ≤ ·)).length := by rwa [List.length_insertionSort]
  rw [rank, List.getD_eq_getElem?_getD, List.getElem?_eq_getElem hlen, Option.getD_some,
    le_getElem_iff (List.pairwise_insertionSort _ l) hlen,
    (List.perm_insertionSort (· ≤ ·) l).countP_eq]

/-- No more values than places before it are below the value at a place. -/
theorem countP_lt_rank_le (hk : k < l.length) : l.countP (· < rank d k l) ≤ k :=
  (le_rank_iff hk).mp le_rfl

/-- A list takes in a value above the one at place `k`, and gives others up: a place that is not
before `k` has no smaller value then. -/
theorem rank_le_rank_cons {k' : Nat} (hk : k < l.length) (hx : rank d k l < x)
    (hsub : l'.Sublist (x :: l)) (hk' : k' < l'.length) (hle : k ≤ k') :
    rank d k l ≤ rank d k' l' := by
  rw [le_rank_iff hk']
  calc l'.countP (· < rank d k l)
      ≤ (x :: l).countP (· < rank d k l) := hsub.countP_le
    _ = l.countP (· < rank d k l) := List.countP_cons_of_neg (by simpa using hx.le)
    _ ≤ k' := (countP_lt_rank_le hk).trans hle

theorem rank_mem (hk : k < l.length) : rank d k l ∈ l := by
  have hlen : k < (l.insertionSort (· ≤ ·)).length := by rwa [List.length_insertionSort]
  rw [rank, List.getD_eq_getElem?_getD, List.getElem?_eq_getElem hlen, Option.getD_some]
  exact (List.mem_insertionSort _).mp (List.getElem_mem hlen)

/-- Where most values are between two bounds, the middle one is. -/
theorem rank_mem_of_most {lo hi : α} (hlen : l.length ≤ 2 * k + 1)
    (hmost : k < l.countP fun x => decide (lo ≤ x ∧ x ≤ hi)) :
    k < l.length ∧ lo ≤ rank d k l ∧ rank d k l ≤ hi := by
  have hk : k < l.length := hmost.trans_le List.countP_le_length
  have hsplit := List.length_eq_countP_add_countP (fun x => decide (lo ≤ x ∧ x ≤ hi)) (l := l)
  refine ⟨hk, ?_, ?_⟩
  · rw [le_rank_iff hk]
    have hbelow : l.countP (· < lo) ≤ l.countP fun x => ¬ decide (lo ≤ x ∧ x ≤ hi) = true := by
      apply List.countP_mono_left
      intro x _ hx
      simp only [decide_eq_true_eq] at hx ⊢
      exact fun hin => not_le.mpr hx hin.1
    omega
  · by_contra hover
    have hcount := countP_lt_rank_le (d := d) hk
    have hinside : (l.countP fun x => decide (lo ≤ x ∧ x ≤ hi)) ≤ l.countP (· < rank d k l) := by
      apply List.countP_mono_left
      intro x _ hx
      simp only [decide_eq_true_eq] at hx ⊢
      exact hx.2.trans_lt (not_le.mp hover)
    omega

end

end Lib

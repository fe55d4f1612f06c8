import Std.Data.ExtTreeSet.Lemmas
import Mathlib.Data.List.DropRight

/-!
# Windows over the latest entries

A window keeps the latest entries of a history, at most as many as its limit says. One that is searched
keeps an ordered set beside the list: the set mirrors the list when it finds exactly the list's
entries and the list has no two that compare equal.
-/

namespace Lib

/-! ## The latest entries -/

section

variable {α : Type} {n : Nat} {l : List α}

/-- The last `n` entries; `0` sets no limit. -/
def latest (n : Nat) (l : List α) : List α := if n = 0 then l else l.rtake n

theorem rtake_suffix (n : Nat) (l : List α) : l.rtake n <:+ l := List.drop_suffix _ l

theorem length_rtake (n : Nat) (l : List α) : (l.rtake n).length = min l.length n := by
  rw [List.rtake, List.length_drop]
  omega

theorem rtake_of_length_le (h : l.length ≤ n) : l.rtake n = l := by
  rw [List.rtake, Nat.sub_eq_zero_of_le h, List.drop_zero]

theorem rtake_tail (h : n < l.length) : l.tail.rtake n = l.rtake n := by
  rw [List.rtake, List.rtake, List.drop_tail, List.length_tail]
  congr 1
  omega

theorem latest_suffix (n : Nat) (l : List α) : latest n l <:+ l := by
  unfold latest
  split
  · exact List.suffix_rfl
  · exact rtake_suffix n l

theorem length_latest_le (hn : n ≠ 0) (l : List α) : (latest n l).length ≤ n := by
  rw [latest, if_neg hn, length_rtake]
  exact Nat.min_le_right _ _

theorem latest_of_length_le (h : n ≠ 0 → l.length ≤ n) : latest n l = l := by
  unfold latest
  split
  · rfl
  · next hn => exact rtake_of_length_le (h hn)

/-- A new entry in a full window takes the place of the oldest. -/
theorem latest_concat_of_full (hn : n ≠ 0) (hl : l.length = n) (x : α) :
    latest n (l ++ [x]) = l.tail ++ [x] := by
  cases l with
  | nil => exact absurd hl.symm hn
  | cons a l =>
      have hdrop : (a :: l ++ [x]).length - n = 1 := by
        rw [List.length_append, hl, List.length_singleton, Nat.add_sub_cancel_left]
      rw [latest, if_neg hn, List.rtake, hdrop]
      rfl

theorem latest_concat_of_not_full (hl : n ≠ 0 → l.length < n) (x : α) :
    latest n (l ++ [x]) = l ++ [x] := by
  apply latest_of_length_le
  intro hn
  rw [List.length_append, List.length_singleton]
  exact hl hn

end

/-- The entries in the order they came, within the limit -/
structure Window (α : Type) where
  entries : List α
  limit : Nat
  within : limit ≠ 0 → entries.length ≤ limit

namespace Window

variable {α : Type}

/-- Only the latest of the entries and the new one stay. -/
def push (w : Window α) (x : α) : Window α where
  entries := latest w.limit (w.entries ++ [x])
  limit := w.limit
  within hn := length_latest_le hn _

/-- Under the new limit only the latest of the entries stay. -/
def resize (w : Window α) (n : Nat) : Window α where
  entries := latest n w.entries
  limit := n
  within hn := length_latest_le hn _

end Window

/-! ## An ordered set beside the list -/

section

open Std

variable {α : Type} {cmp : α → α → Ordering} [TransCmp cmp] {t : ExtTreeSet α cmp} {l : List α}
  {x : α}

/-- The set finds the entries of the list, each once. -/
structure Mirrors (t : ExtTreeSet α cmp) (l : List α) : Prop where
  get : ∀ x y, t.get? x = some y ↔ y ∈ l ∧ cmp x y = .eq
  distinct : l.Pairwise fun x y => cmp x y ≠ .eq
  size : t.size = l.length

theorem Mirrors.empty : Mirrors (∅ : ExtTreeSet α cmp) [] where
  get x y := by simp
  distinct := .nil
  size := ExtTreeSet.size_empty

theorem Mirrors.mem_iff (h : Mirrors t l) : x ∈ t ↔ ∃ y ∈ l, cmp x y = .eq := by
  rw [ExtTreeSet.mem_iff_isSome_get?, Option.isSome_iff_exists]
  exact exists_congr (h.get x)

/-- The set answers as a search of the list does. -/
theorem Mirrors.get?_eq_find? (h : Mirrors t l) (x : α) :
    t.get? x = l.find? fun y => cmp x y == .eq := by
  cases hf : l.find? fun y => cmp x y == .eq with
  | some y =>
      have hy : cmp x y = .eq := by simpa using List.find?_some hf
      exact (h.get x y).mpr ⟨List.mem_of_find?_eq_some hf, hy⟩
  | none =>
      rw [Option.eq_none_iff_forall_ne_some]
      intro y hget
      obtain ⟨hy, heq⟩ := (h.get x y).mp hget
      have hne := List.find?_eq_none.mp hf y hy
      rw [heq] at hne
      exact hne rfl

theorem Mirrors.insert (h : Mirrors t l) (hx : x ∉ t) : Mirrors (t.insert x) (l ++ [x]) where
  get a y := by
    rw [ExtTreeSet.get?_insert, List.mem_append, List.mem_singleton]
    by_cases ha : cmp x a = .eq
    · rw [if_pos ⟨ha, hx⟩, Option.some_inj]
      constructor
      · rintro rfl
        exact ⟨.inr rfl, OrientedCmp.eq_symm ha⟩
      · rintro ⟨hy | hy, hay⟩
        · exact absurd (h.mem_iff.mpr ⟨y, hy, TransCmp.eq_trans ha hay⟩) hx
        · exact hy.symm
    · rw [if_neg fun hc => ha hc.1, h.get a y]
      constructor
      · rintro ⟨hy, hay⟩
        exact ⟨.inl hy, hay⟩
      · rintro ⟨hy | rfl, hay⟩
        · exact ⟨hy, hay⟩
        · exact absurd (OrientedCmp.eq_symm hay) ha
  distinct := by
    rw [List.pairwise_append]
    refine ⟨h.distinct, List.pairwise_singleton _ _, ?_⟩
    intro y hy z hz heq
    rw [List.mem_singleton.mp hz] at heq
    exact hx (h.mem_iff.mpr ⟨y, hy, OrientedCmp.eq_symm heq⟩)
  size := by
    have hc : ¬ t.contains x = true := fun hc => hx (ExtTreeSet.contains_iff_mem.mp hc)
    rw [ExtTreeSet.size_insert, if_neg hc, h.size, List.length_append, List.length_singleton]

/-- Without its first entry the list is mirrored by the set without it. -/
theorem Mirrors.erase (h : Mirrors t (x :: l)) : Mirrors (t.erase x) l where
  get a y := by
    obtain ⟨hfirst, -⟩ := List.pairwise_cons.mp h.distinct
    rw [ExtTreeSet.get?_erase]
    by_cases ha : cmp x a = .eq
    · rw [if_pos ha]
      refine iff_of_false (fun hc => nomatch hc) ?_
      rintro ⟨hy, hay⟩
      exact hfirst y hy (TransCmp.eq_trans ha hay)
    · rw [if_neg ha, h.get a y, List.mem_cons]
      constructor
      · rintro ⟨rfl | hy, hay⟩
        · exact absurd (OrientedCmp.eq_symm hay) ha
        · exact ⟨hy, hay⟩
      · rintro ⟨hy, hay⟩
        exact ⟨.inr hy, hay⟩
  distinct := h.distinct.tail
  size := by
    have hc : t.contains x = true := by
      rw [ExtTreeSet.contains_iff_mem, h.mem_iff]
      exact ⟨x, List.mem_cons_self, ReflCmp.compare_self⟩
    rw [ExtTreeSet.size_erase, if_pos hc, h.size, List.length_cons, Nat.add_sub_cancel]

end

end Lib

import Std.Data.ExtTreeMap.Lemmas
import Mathlib.Data.List.Basic

/-!
# Ordered maps by their lookups

`std::map` is an extensional tree map. The lemmas here read lookups with equality of keys, not with
the comparison.
-/

namespace Lib

open Std

variable {K V : Type} {cmp : K → K → Ordering} [TransCmp cmp] [LawfulEqCmp cmp] [DecidableEq K]
  {m : ExtTreeMap K V cmp}

theorem getElem?_insert (m : ExtTreeMap K V cmp) (k a : K) (v : V) :
    (m.insert k v)[a]? = if a = k then some v else m[a]? := by
  rw [ExtTreeMap.getElem?_insert]
  by_cases h : a = k
  · rw [if_pos h, if_pos (LawfulEqCmp.compare_eq_iff_eq.mpr h.symm)]
  · rw [if_neg h, if_neg (fun heq => h (LawfulEqCmp.compare_eq_iff_eq.mp heq).symm)]

theorem getElem?_erase (m : ExtTreeMap K V cmp) (k a : K) :
    (m.erase k)[a]? = if a = k then none else m[a]? := by
  rw [ExtTreeMap.getElem?_erase]
  by_cases h : a = k
  · rw [if_pos h, if_pos (LawfulEqCmp.compare_eq_iff_eq.mpr h.symm)]
  · rw [if_neg h, if_neg (fun heq => h (LawfulEqCmp.compare_eq_iff_eq.mp heq).symm)]

theorem getElem?_insertIfNew (m : ExtTreeMap K V cmp) (k a : K) (v : V) :
    (m.insertIfNew k v)[a]? = if a = k ∧ m[a]? = none then some v else m[a]? := by
  rw [ExtTreeMap.getElem?_insertIfNew]
  by_cases h : a = k
  · subst h
    by_cases hm : a ∈ m
    · simp [hm]
    · rw [if_pos ⟨LawfulEqCmp.compare_eq_iff_eq.mpr rfl, hm⟩, if_pos]
      exact ⟨rfl, by simpa using hm⟩
  · have hne : ¬ cmp k a = .eq := fun heq => h (LawfulEqCmp.compare_eq_iff_eq.mp heq).symm
    simp [h, hne]

omit [DecidableEq K] [LawfulEqCmp cmp] in
theorem getElem?_eq_none_iff {k : K} : m[k]? = none ↔ k ∉ m := by
  rw [ExtTreeMap.mem_iff_isSome_getElem?]
  simp

omit [DecidableEq K] in
theorem eq_empty_iff_getElem? : m = ∅ ↔ ∀ k : K, m[k]? = none := by
  constructor
  · rintro rfl k
    exact ExtTreeMap.getElem?_empty
  · intro h
    apply ExtTreeMap.ext_getElem?
    intro k
    rw [h k, ExtTreeMap.getElem?_empty]

omit [DecidableEq K] [LawfulEqCmp cmp] in
theorem size_erase_of_mem {k : K} (h : k ∈ m) : (m.erase k).size + 1 = m.size := by
  have hpos : m.size ≠ 0 := by
    intro hzero
    rw [← ExtTreeMap.eq_empty_iff_size_eq_zero] at hzero
    exact ExtTreeMap.ne_empty_of_mem h hzero
  rw [ExtTreeMap.size_erase, if_pos (ExtTreeMap.contains_iff_mem.mpr h)]
  omega

omit [DecidableEq K] [LawfulEqCmp cmp] in
theorem size_insert_of_notMem {k : K} (h : k ∉ m) (v : V) : (m.insert k v).size = m.size + 1 := by
  rw [ExtTreeMap.size_insert, if_neg (fun hc => h (ExtTreeMap.contains_iff_mem.mp hc))]

/-! ## A map from its entries -/

/-- The map has these entries and no others. -/
def HasEntries (entries : List (K × V)) (m : ExtTreeMap K V cmp) : Prop :=
  ∀ k v, m[k]? = some v ↔ (k, v) ∈ entries

omit [DecidableEq K] in
theorem HasEntries.unique {entries : List (K × V)} {m m' : ExtTreeMap K V cmp}
    (h : HasEntries entries m) (h' : HasEntries entries m') : m = m' := by
  apply ExtTreeMap.ext_getElem?
  intro k
  apply Option.ext
  intro v
  exact (h k v).trans (h' k v).symm

omit [DecidableEq K] in
theorem hasEntries_toList (m : ExtTreeMap K V cmp) : HasEntries m.toList m := by
  intro k v
  exact ExtTreeMap.mem_toList_iff_getElem?_eq_some.symm

omit [DecidableEq K] [LawfulEqCmp cmp] in
theorem hasEntries_empty : HasEntries [] (∅ : ExtTreeMap K V cmp) := by
  intro k v
  simp

/-- One entry more, under a key that had none. -/
theorem HasEntries.insertIfNew {entries : List (K × V)} {m : ExtTreeMap K V cmp}
    (h : HasEntries entries m) {k : K} (hk : k ∉ entries.map Prod.fst) (v : V) :
    HasEntries (entries ++ [(k, v)]) (m.insertIfNew k v) := by
  have hnone : m[k]? = none := by
    apply Option.eq_none_iff_forall_ne_some.mpr
    intro v' hv'
    exact hk (List.mem_map.mpr ⟨_, (h k v').mp hv', rfl⟩)
  intro a w
  rw [getElem?_insertIfNew, List.mem_append, List.mem_singleton, Prod.mk.injEq]
  by_cases hak : a = k
  · subst hak
    rw [if_pos ⟨rfl, hnone⟩, ← h a w, hnone]
    simp [eq_comm]
  · rw [if_neg (fun hif => hak hif.1), h a w]
    simp [hak]

/-- Inserting one after the other, under distinct keys. -/
theorem getElem?_foldl_insert {α : Type} (key : α → K) (value : α → V) {entries : List α}
    (hdistinct : entries.Pairwise fun x y => key x ≠ key y) (m : ExtTreeMap K V cmp) (k : K) (v : V) :
    (entries.foldl (fun m x => m.insert (key x) (value x)) m)[k]? = some v ↔
      (∃ x ∈ entries, key x = k ∧ value x = v) ∨ (m[k]? = some v ∧ ∀ x ∈ entries, key x ≠ k) := by
  induction entries generalizing m with
  | nil => simp
  | cons x entries ih =>
      obtain ⟨hhead, htail⟩ := List.pairwise_cons.mp hdistinct
      rw [List.foldl_cons, ih htail, getElem?_insert]
      by_cases hk : k = key x
      · subst hk
        have hlater : ∀ y ∈ entries, key y ≠ key x := fun y hy heq => hhead y hy heq.symm
        rw [if_pos rfl]
        constructor
        · rintro (⟨y, hy, heq, hv⟩ | ⟨hv, -⟩)
          · exact absurd heq (hlater y hy)
          · exact .inl ⟨x, List.mem_cons_self, rfl, Option.some.inj hv⟩
        · rintro (⟨y, hy, heq, hv⟩ | ⟨-, hnone⟩)
          · rcases List.mem_cons.mp hy with rfl | hy
            · exact .inr ⟨congrArg some hv, hlater⟩
            · exact absurd heq (hlater y hy)
          · exact absurd rfl (hnone x List.mem_cons_self)
      · rw [if_neg hk]
        simp [List.mem_cons, Ne.symm hk]

omit [DecidableEq K] [LawfulEqCmp cmp] in
/-- The keys of the entries are distinct. -/
theorem nodup_keys_toList (m : ExtTreeMap K V cmp) : (m.toList.map Prod.fst).Nodup := by
  rw [ExtTreeMap.map_fst_toList_eq_keys]
  exact ExtTreeMap.nodup_keys

end Lib

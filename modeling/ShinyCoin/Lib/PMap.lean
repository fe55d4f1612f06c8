import Mathlib.Algebra.BigOperators.Finprod
import Mathlib.Data.Set.Finite.Basic
import Mathlib.Tactic.Ring

/-!
# Partial maps

A keyed store as a partial function. `layer` puts pending writes on top of a store, `total` adds up
a weight over all keys of a store with finitely many of them, and `total_set` says what one write
does to that sum.
-/

namespace Lib

/-- A store of `V`s under keys `K`. -/
def PMap (K V : Type) := K → Option V

namespace PMap

variable {K V : Type} [DecidableEq K]

instance : Inhabited (PMap K V) := ⟨fun _ => none⟩

omit [DecidableEq K] in
@[ext] theorem ext {m m' : PMap K V} (h : ∀ k, m k = m' k) : m = m' := funext h

/-- The store with no keys. -/
def empty : PMap K V := fun _ => none

/-- Write `v` under `k`. -/
def set (m : PMap K V) (k : K) (v : V) : PMap K V := fun k' => if k' = k then some v else m k'

/-- Forget the key `k`. -/
def erase (m : PMap K V) (k : K) : PMap K V := fun k' => if k' = k then none else m k'

/-- The writes of `q` on top of `m`. -/
def layer (q m : PMap K V) : PMap K V := fun k => (q k).orElse fun _ => m k

omit [DecidableEq K] in
@[simp] theorem empty_apply (k : K) : (empty : PMap K V) k = none := rfl

@[simp] theorem set_self (m : PMap K V) (k : K) (v : V) : m.set k v k = some v := by
  simp [set]

theorem set_of_ne {m : PMap K V} {k k' : K} {v : V} (h : k' ≠ k) : m.set k v k' = m k' := by
  simp [set, h]

theorem set_apply (m : PMap K V) (k k' : K) (v : V) :
    m.set k v k' = if k' = k then some v else m k' := rfl

@[simp] theorem erase_self (m : PMap K V) (k : K) : m.erase k k = none := by
  simp [erase]

theorem erase_of_ne {m : PMap K V} {k k' : K} (h : k' ≠ k) : m.erase k k' = m k' := by
  simp [erase, h]

theorem erase_apply (m : PMap K V) (k k' : K) :
    m.erase k k' = if k' = k then none else m k' := rfl

omit [DecidableEq K] in
@[simp] theorem empty_layer (m : PMap K V) : (empty : PMap K V).layer m = m := by
  ext k; simp [layer]

/-- A write to the upper layer is a write to the layered store. -/
theorem set_layer (q m : PMap K V) (k : K) (v : V) : (q.set k v).layer m = (q.layer m).set k v := by
  ext k'
  by_cases h : k' = k
  · simp [layer, set, h]
  · simp [layer, set, h]

/-! ## Adding up a weight over all keys -/

/-- Only finitely many keys are in use. -/
def FiniteKeys (m : PMap K V) : Prop := {k | m k ≠ none}.Finite

omit [DecidableEq K] in
theorem finiteKeys_empty : (empty : PMap K V).FiniteKeys := by
  simp [FiniteKeys]

theorem FiniteKeys.set {m : PMap K V} (h : m.FiniteKeys) (k : K) (v : V) :
    (m.set k v).FiniteKeys := by
  refine (Set.Finite.insert k h).subset ?_
  intro k' hk'
  by_cases hk : k' = k
  · exact Or.inl hk
  · right
    simpa [set_of_ne hk] using hk'

omit [DecidableEq K] in
/-- The entries of a store with finitely many keys, each of them once. -/
theorem FiniteKeys.exists_list {m : PMap K V} (h : m.FiniteKeys) :
    ∃ l : List (K × V), (l.map Prod.fst).Nodup ∧ ∀ k v, (k, v) ∈ l ↔ m k = some v := by
  let keys := (Set.Finite.toFinset h).toList
  refine ⟨keys.filterMap fun k => (m k).map (k, ·), ?_, ?_⟩
  · rw [List.map_filterMap]
    refine List.Nodup.filterMap ?_ (Finset.nodup_toList _)
    intro k k' k'' hk hk'
    simp only [Option.map_map, Option.mem_def, Option.map_eq_some_iff] at hk hk'
    obtain ⟨v, -, rfl⟩ := hk
    obtain ⟨v', -, heq⟩ := hk'
    exact heq.symm
  · intro k v
    rw [List.mem_filterMap]
    constructor
    · rintro ⟨k', -, hk'⟩
      obtain ⟨v', hv', heq⟩ := Option.map_eq_some_iff.mp hk'
      cases heq
      exact hv'
    · intro hk
      have hne : m k ≠ none := by simp [hk]
      have hin : k ∈ keys := Finset.mem_toList.mpr ((Set.Finite.mem_toFinset h).mpr hne)
      exact ⟨k, hin, by rw [hk]; rfl⟩

/-- The sum of the weight `g` over the values of the store. -/
noncomputable def total (g : V → ℤ) (m : PMap K V) : ℤ := ∑ᶠ k, ((m k).map g).getD 0

omit [DecidableEq K] in
theorem total_eq_sum {g : V → ℤ} {m : PMap K V} {s : Finset K} (h : ∀ k, k ∉ s → m k = none) :
    total g m = ∑ k ∈ s, ((m k).map g).getD 0 := by
  apply finsum_eq_sum_of_support_subset
  intro k hk
  by_contra hks
  exact hk (by simp [h k (by simpa using hks)])

/-- One write moves the sum by the new weight less the old one. -/
theorem total_set {g : V → ℤ} {m : PMap K V} (hm : m.FiniteKeys) (k : K) (v : V) :
    total g (m.set k v) = total g m - ((m k).map g).getD 0 + g v := by
  classical
  let s : Finset K := insert k hm.toFinset
  have hks : k ∈ s := Finset.mem_insert_self _ _
  have hs : ∀ k', k' ∉ s → m k' = none := by
    intro k' hk'
    by_contra hne
    exact hk' (Finset.mem_insert_of_mem ((Set.Finite.mem_toFinset hm).mpr hne))
  have hs' : ∀ k', k' ∉ s → m.set k v k' = none := by
    intro k' hk'
    have hne : k' ≠ k := by
      rintro rfl
      exact hk' hks
    rw [set_of_ne hne]
    exact hs k' hk'
  rw [total_eq_sum hs, total_eq_sum hs', ← Finset.add_sum_erase s _ hks,
    ← Finset.add_sum_erase s (fun k' => ((m k').map g).getD 0) hks]
  have hrest : ∑ k' ∈ s.erase k, ((m.set k v k').map g).getD 0
      = ∑ k' ∈ s.erase k, ((m k').map g).getD 0 := by
    refine Finset.sum_congr rfl fun k' hk' => ?_
    rw [set_of_ne (Finset.ne_of_mem_erase hk')]
  rw [hrest]
  simp only [set_self, Option.map_some, Option.getD_some]
  ring

end PMap

end Lib

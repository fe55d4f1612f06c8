import Mathlib.Algebra.BigOperators.Finprod

/-!
# Amounts booked under keys

A list of entries books amounts under keys. Each key gets the sum of its own entries, and over all
keys these sums come to the total of the list, since an entry has one key.
-/

namespace Lib

section

variable {K M : Type*} [DecidableEq K] [AddCommMonoid M]

/-- What the entries book under a key -/
def booked (entries : List (K × M)) (k : K) : M :=
  ((entries.filter fun entry => entry.1 = k).map Prod.snd).sum

@[simp] theorem booked_nil (k : K) : booked ([] : List (K × M)) k = 0 := by
  simp [booked]

theorem booked_append (entries entries' : List (K × M)) (k : K) :
    booked (entries ++ entries') k = booked entries k + booked entries' k := by
  simp [booked]

theorem booked_cons (entry : K × M) (entries : List (K × M)) (k : K) :
    booked (entry :: entries) k = booked [entry] k + booked entries k :=
  booked_append [entry] entries k

theorem booked_singleton (k' k : K) (m : M) : booked [(k', m)] k = if k = k' then m else 0 := by
  unfold booked
  by_cases h : k = k'
  · simp [h]
  · simp [h, Ne.symm h]

theorem booked_map {α : Type*} (key : α → K) (amount : α → M) (xs : List α) (k : K) :
    booked (xs.map fun x => (key x, amount x)) k
      = ((xs.filter fun x => key x = k).map amount).sum := by
  unfold booked
  rw [List.filter_map, List.map_map]
  rfl

/-- Only the keys of the entries have something booked. -/
theorem finite_support_booked (entries : List (K × M)) : (booked entries).HasFiniteSupport := by
  apply Set.Finite.subset (List.finite_toSet (entries.map Prod.fst))
  intro k hk
  by_contra hmem
  apply hk
  have hnone : entries.filter (fun entry => decide (entry.1 = k)) = [] := by
    rw [List.filter_eq_nil_iff]
    intro entry hentry heq
    exact hmem (List.mem_map.mpr ⟨entry, hentry, of_decide_eq_true heq⟩)
  rw [booked, hnone, List.map_nil, List.sum_nil]

/-- Over all keys the entries come to their total. -/
theorem finsum_booked (entries : List (K × M)) :
    ∑ᶠ k, booked entries k = (entries.map Prod.snd).sum := by
  induction entries with
  | nil => simp
  | cons entry entries ih =>
      have hsingle : ∑ᶠ k, booked [entry] k = entry.2 := by
        rw [finsum_eq_single _ entry.1 fun k hk => (booked_singleton _ k _).trans (if_neg hk)]
        exact (booked_singleton _ _ _).trans (if_pos rfl)
      calc ∑ᶠ k, booked (entry :: entries) k
          = ∑ᶠ k, (booked [entry] k + booked entries k) :=
            finsum_congr fun k => booked_cons entry entries k
        _ = ∑ᶠ k, booked [entry] k + ∑ᶠ k, booked entries k :=
            finsum_add_distrib (finite_support_booked [entry]) (finite_support_booked entries)
        _ = ((entry :: entries).map Prod.snd).sum := by
            rw [hsingle, ih, List.map_cons, List.sum_cons]

end

end Lib

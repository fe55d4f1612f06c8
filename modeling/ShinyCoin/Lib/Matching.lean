import Mathlib.Data.List.Forall2
import Mathlib.Data.List.NodupEquivFin

/-!
# Matching in order

All elements of one list are to be matched with elements of another, in the same order and no
element twice. Taking the first element that matches is enough: a later choice leaves fewer to
choose from. The relation is Mathlib's `List.SublistForall₂`; read with positions, it is a strictly
increasing assignment.
-/

namespace Lib

variable {α β : Type}

/-- Match each element with the first one that is left. -/
def greedyMatch (p : α → β → Bool) : List α → List β → Bool
  | [], _ => true
  | _ :: _, [] => false
  | a :: as, b :: bs => if p a b then greedyMatch p as bs else greedyMatch p (a :: as) bs

section

variable {p : α → β → Bool} {R : α → β → Prop} {a : α} {b : β} {as : List α} {bs : List β}

@[simp] theorem greedyMatch_nil : greedyMatch p [] bs = true := by
  cases bs <;> rfl

/-- The exchange: whoever matches the first one may as well let it have the first match. -/
theorem sublistForall₂_of_cons (h : List.SublistForall₂ R (a :: as) bs) :
    List.SublistForall₂ R as bs := by
  induction bs with
  | nil => cases h
  | cons b bs ih =>
      cases h with
      | cons _ hrest => exact hrest.cons_right
      | cons_right h => exact (ih h).cons_right

theorem sublistForall₂_cons_cons_of (hab : R a b) :
    List.SublistForall₂ R (a :: as) (b :: bs) ↔ List.SublistForall₂ R as bs := by
  constructor
  · intro h
    cases h with
    | cons _ h => exact h
    | cons_right h => exact sublistForall₂_of_cons h
  · exact List.SublistForall₂.cons hab

theorem sublistForall₂_cons_cons_of_not (hab : ¬ R a b) :
    List.SublistForall₂ R (a :: as) (b :: bs) ↔ List.SublistForall₂ R (a :: as) bs := by
  constructor
  · intro h
    cases h with
    | cons h _ => exact absurd h hab
    | cons_right h => exact h
  · exact List.SublistForall₂.cons_right

theorem greedyMatch_iff :
    greedyMatch p as bs = true ↔ List.SublistForall₂ (fun a b => p a b = true) as bs := by
  induction bs generalizing as with
  | nil =>
      cases as with
      | nil => simp [List.SublistForall₂.nil]
      | cons a as =>
          simp only [greedyMatch, Bool.false_eq_true, false_iff]
          intro h
          cases h
  | cons b bs ih =>
      cases as with
      | nil => simp [List.SublistForall₂.nil]
      | cons a as =>
          rw [greedyMatch]
          by_cases hab : p a b = true
          · rw [if_pos hab]
            exact ih.trans (sublistForall₂_cons_cons_of (R := fun a b => p a b = true) hab).symm
          · rw [if_neg hab]
            exact ih.trans (sublistForall₂_cons_cons_of_not (R := fun a b => p a b = true) hab).symm

theorem sublistForall₂_length (h : List.SublistForall₂ R as bs) : as.length ≤ bs.length := by
  obtain ⟨l, hl, hsub⟩ := List.sublistForall₂_iff.mp h
  rw [hl.length_eq]
  exact hsub.length_le

/-- More to match than there is -/
theorem greedyMatch_of_length_lt (h : bs.length < as.length) : greedyMatch p as bs = false := by
  rw [Bool.eq_false_iff]
  intro hmatch
  have := sublistForall₂_length (greedyMatch_iff.mp hmatch)
  omega

/-- It does not matter from which end. -/
theorem sublistForall₂_reverse :
    List.SublistForall₂ R as.reverse bs.reverse ↔ List.SublistForall₂ R as bs := by
  have hreverse : ∀ (as : List α) (bs : List β), List.SublistForall₂ R as bs →
      List.SublistForall₂ R as.reverse bs.reverse := by
    intro as bs h
    obtain ⟨l, hl, hsub⟩ := List.sublistForall₂_iff.mp h
    exact List.sublistForall₂_iff.mpr ⟨l.reverse, List.rel_reverse hl, hsub.reverse⟩
  constructor
  · intro h
    have := hreverse _ _ h
    rwa [List.reverse_reverse, List.reverse_reverse] at this
  · exact hreverse as bs

/-- A match is a strictly increasing assignment of positions. -/
theorem sublistForall₂_iff_strictMono : List.SublistForall₂ R as bs ↔
    ∃ f : Fin as.length → Fin bs.length, StrictMono f ∧ ∀ i, R (as.get i) (bs.get (f i)) := by
  constructor
  · intro h
    obtain ⟨l, hl, hsub⟩ := List.sublistForall₂_iff.mp h
    obtain ⟨f, hf⟩ := List.sublist_iff_exists_fin_orderEmbedding_get_eq.mp hsub
    refine ⟨fun i => f (i.cast hl.length_eq), ?_, ?_⟩
    · intro i j hij
      exact f.strictMono hij
    · intro i
      rw [← hf]
      exact hl.get _ _
  · rintro ⟨f, hmono, hR⟩
    apply List.sublistForall₂_iff.mpr
    refine ⟨List.ofFn fun i => bs.get (f i), ?_, ?_⟩
    · rw [List.forall₂_iff_get]
      refine ⟨by simp, ?_⟩
      intro i h₁ h₂
      simpa using hR ⟨i, h₁⟩
    · apply List.sublist_iff_exists_fin_orderEmbedding_get_eq.mpr
      have hlen : (List.ofFn fun i => bs.get (f i)).length = as.length := List.length_ofFn
      refine ⟨OrderEmbedding.ofStrictMono (fun i => f (i.cast hlen)) ?_, ?_⟩
      · intro i j hij
        exact hmono hij
      · intro i
        simp
        rfl

end

end Lib

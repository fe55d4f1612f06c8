import Mathlib.Data.Set.Insert

/-!
# Keeping what nothing covers

Elements arrive one by one, in any order and more than once. Each drops the elements it covers, and
is kept unless one of those that are left covers it. Where covering is a strict order on what arrives,
the elements that are kept are the ones that no other one covers, whatever the order of arrival.
-/

namespace Lib

variable {α : Type} {covers : α → α → Prop} {s seen : Set α} {a b : α}

/-- The elements of a set that none of it covers. -/
def maxima (covers : α → α → Prop) (seen : Set α) : Set α :=
  {a | a ∈ seen ∧ ∀ b ∈ seen, ¬ covers b a}

/-- What is left when `a` arrives, before `a` itself is looked at. -/
def dropCovered (covers : α → α → Prop) (s : Set α) (a : α) : Set α := {b | b ∈ s ∧ ¬ covers a b}

/-- Covering is a strict order on these elements. -/
structure StrictOn (covers : α → α → Prop) (seen : Set α) : Prop where
  irrefl : ∀ a ∈ seen, ¬ covers a a
  trans : ∀ a ∈ seen, ∀ b ∈ seen, ∀ c ∈ seen, covers a b → covers b c → covers a c

theorem StrictOn.mono {seen' : Set α} (h : StrictOn covers seen') (hsub : seen ⊆ seen') :
    StrictOn covers seen :=
  ⟨fun a ha => h.irrefl a (hsub ha),
    fun a ha b hb c hc => h.trans a (hsub ha) b (hsub hb) c (hsub hc)⟩

/-- `s` are the maxima, and they cover all the rest. -/
structure Frontier (covers : α → α → Prop) (seen s : Set α) : Prop where
  subset : s ⊆ seen
  maximal : ∀ a ∈ s, ∀ b ∈ seen, ¬ covers b a
  covered : ∀ b ∈ seen, b ∈ s ∨ ∃ a ∈ s, covers a b

theorem Frontier.eq_maxima (h : Frontier covers seen s) : s = maxima covers seen := by
  ext a
  constructor
  · exact fun ha => ⟨h.subset ha, h.maximal a ha⟩
  · rintro ⟨ha, hmax⟩
    rcases h.covered a ha with hs | ⟨b, hb, hcovers⟩
    · exact hs
    · exact absurd hcovers (hmax b (h.subset hb))

theorem frontier_empty : Frontier covers ∅ (∅ : Set α) :=
  ⟨Set.empty_subset _, fun _ h => h.elim, fun _ h => h.elim⟩

/-- What is left covers `a`, or else nothing that has arrived does. -/
theorem Frontier.covers_iff (h : Frontier covers seen s) (hstrict : StrictOn covers (insert a seen)) :
    (∃ b ∈ dropCovered covers s a, covers b a) ↔ ∃ b ∈ seen, covers b a := by
  have hself : a ∈ insert a seen := Set.mem_insert a seen
  have hseen : ∀ b ∈ seen, b ∈ insert a seen := fun b hb => Set.mem_insert_of_mem a hb
  -- what covers `a` is not covered by `a`
  have hkept : ∀ b ∈ s, covers b a → b ∈ dropCovered covers s a := by
    intro b hb hcovers
    refine ⟨hb, fun hback => hstrict.irrefl a hself ?_⟩
    exact hstrict.trans a hself b (hseen b (h.subset hb)) a hself hback hcovers
  constructor
  · rintro ⟨b, hb, hcovers⟩
    exact ⟨b, h.subset hb.1, hcovers⟩
  · rintro ⟨b, hb, hcovers⟩
    rcases h.covered b hb with hs | ⟨c, hc, hcb⟩
    · exact ⟨b, hkept b hs hcovers, hcovers⟩
    · have hca := hstrict.trans c (hseen c (h.subset hc)) b (hseen b hb) a hself hcb hcovers
      exact ⟨c, hkept c hc hca, hca⟩

/-- The arrival of an element that is covered -/
theorem Frontier.reject (h : Frontier covers seen s) (hstrict : StrictOn covers (insert a seen))
    (hcovered : ∃ b ∈ seen, covers b a) :
    Frontier covers (insert a seen) (dropCovered covers s a) := by
  obtain ⟨m, hm, hma⟩ := (h.covers_iff hstrict).mpr hcovered
  have hself : a ∈ insert a seen := Set.mem_insert a seen
  have hseen : ∀ b ∈ seen, b ∈ insert a seen := fun b hb => Set.mem_insert_of_mem a hb
  have hmseen := hseen m (h.subset hm.1)
  refine ⟨fun b hb => hseen b (h.subset hb.1), ?_, ?_⟩
  · rintro b ⟨hb, hnot⟩ c (rfl | hc)
    · exact hnot
    · exact h.maximal b hb c hc
  · rintro b (rfl | hb)
    · exact .inr ⟨m, hm, hma⟩
    · -- what `a` covers is covered by what covers `a`
      have hbelow : covers a b → ∃ c ∈ dropCovered covers s a, covers c b :=
        fun hab => ⟨m, hm, hstrict.trans m hmseen a hself b (hseen b hb) hma hab⟩
      rcases h.covered b hb with hs | ⟨c, hc, hcb⟩
      · by_cases hab : covers a b
        · exact .inr (hbelow hab)
        · exact .inl ⟨hs, hab⟩
      · by_cases hac : covers a c
        · exact .inr (hbelow (hstrict.trans a hself c (hseen c (h.subset hc)) b (hseen b hb) hac hcb))
        · exact .inr ⟨c, ⟨hc, hac⟩, hcb⟩

/-- The arrival of an element that nothing covers -/
theorem Frontier.accept (h : Frontier covers seen s) (hstrict : StrictOn covers (insert a seen))
    (hfree : ∀ b ∈ seen, ¬ covers b a) :
    Frontier covers (insert a seen) (insert a (dropCovered covers s a)) := by
  have hself : a ∈ insert a seen := Set.mem_insert a seen
  have hseen : ∀ b ∈ seen, b ∈ insert a seen := fun b hb => Set.mem_insert_of_mem a hb
  refine ⟨Set.insert_subset_insert fun b hb => h.subset hb.1, ?_, ?_⟩
  · rintro b (rfl | ⟨hb, hnot⟩) c (rfl | hc)
    · exact hstrict.irrefl _ hself
    · exact hfree c hc
    · exact hnot
    · exact h.maximal b hb c hc
  · rintro b (rfl | hb)
    · exact .inl (Set.mem_insert _ _)
    · have hbelow : covers a b → ∃ c ∈ insert a (dropCovered covers s a), covers c b :=
        fun hab => ⟨a, Set.mem_insert _ _, hab⟩
      rcases h.covered b hb with hs | ⟨c, hc, hcb⟩
      · by_cases hab : covers a b
        · exact .inr (hbelow hab)
        · exact .inl (Set.mem_insert_of_mem a ⟨hs, hab⟩)
      · by_cases hac : covers a c
        · exact .inr (hbelow (hstrict.trans a hself c (hseen c (h.subset hc)) b (hseen b hb) hac hcb))
        · exact .inr ⟨c, Set.mem_insert_of_mem a ⟨hc, hac⟩, hcb⟩

/-- Two collections whose maxima have arrived at each other have the same maxima. -/
theorem maxima_eq_of_heard {seen' : Set α} {s' : Set α} (h : Frontier covers seen s)
    (h' : Frontier covers seen' s') (hto : s ⊆ seen') (hfrom : s' ⊆ seen) : s = s' := by
  have hone : ∀ {seen seen' s s' : Set α}, Frontier covers seen s → Frontier covers seen' s' →
      s ⊆ seen' → s' ⊆ seen → s ⊆ s' := by
    intro seen seen' s s' h h' hto hfrom a ha
    rcases h'.covered a (hto ha) with hs | ⟨m, hm, hma⟩
    · exact hs
    · exact absurd hma (h.maximal a ha m (hfrom hm))
  exact Set.Subset.antisymm (hone h h' hto hfrom) (hone h' h hfrom hto)

end Lib

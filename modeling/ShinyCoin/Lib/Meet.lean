import Mathlib.Data.List.Infix

/-!
# Where two branches meet

A branch of a rooted tree is the list of its nodes from the tip to the root, so the ancestors of a
tip are the suffixes of its list. Two branches meet in their longest common suffix.
-/

namespace Lib

variable {α : Type} {z z' l l' : List α}

/-- The longest common suffix of two branches, which is not empty. -/
structure IsMeet (z l l' : List α) : Prop where
  ne_nil : z ≠ []
  left : z <:+ l
  right : z <:+ l'
  greatest : ∀ x, x ≠ [] → x <:+ l → x <:+ l' → x <:+ z

namespace IsMeet

/-- A branch that is part of the other one is the meet. -/
theorem eq_left (h : IsMeet z l l') (hsuf : l <:+ l') : z = l := by
  have hne : l ≠ [] := by
    rintro rfl
    exact h.ne_nil (List.suffix_nil.mp h.left)
  have hle := h.greatest l hne List.suffix_rfl hsuf
  exact h.left.eq_of_length (le_antisymm h.left.length_le hle.length_le)

/-- Where neither branch loses the meet, they still meet there. -/
theorem of_suffix {m m' : List α} (h : IsMeet z l l') (hm : m <:+ l) (hm' : m' <:+ l')
    (hz : z <:+ m) (hz' : z <:+ m') : IsMeet z m m' :=
  ⟨h.ne_nil, hz, hz', fun x hne hx hx' => h.greatest x hne (hx.trans hm) (hx'.trans hm')⟩

/-- The ancestors that are on the other branch are those below the meet. -/
theorem drop_suffix_iff (h : IsMeet z l l') {d : Nat} (hd : d < l.length) :
    l.drop d <:+ l' ↔ l.length - z.length ≤ d := by
  have hne : l.drop d ≠ [] := by simpa using hd
  have hlen := h.left.length_le
  constructor
  · intro hsuf
    have hle := (h.greatest _ hne (List.drop_suffix d l) hsuf).length_le
    rw [List.length_drop] at hle
    omega
  · intro hle
    have hz : l.drop d <:+ z := by
      apply List.suffix_of_suffix_length_le (List.drop_suffix d l) h.left
      rw [List.length_drop]
      omega
    exact hz.trans h.right

end IsMeet

/-- Two branches of one tree meet. -/
theorem exists_isMeet (hne : l ≠ []) (hroot : l.getLast? = l'.getLast?) : ∃ z, IsMeet z l l' := by
  induction l with
  | nil => exact absurd rfl hne
  | cons a l ih =>
      by_cases hsuf : a :: l <:+ l'
      · exact ⟨a :: l, List.cons_ne_nil _ _, List.suffix_rfl, hsuf, fun _ _ hx _ => hx⟩
      · have htail : l ≠ [] := by
          rintro rfl
          apply hsuf
          rw [List.getLast?_singleton] at hroot
          obtain ⟨init, rfl⟩ := List.getLast?_eq_some_iff.mp hroot.symm
          exact List.suffix_append _ _
        rw [List.getLast?_cons_of_ne_nil htail] at hroot
        obtain ⟨z, hz⟩ := ih htail hroot
        refine ⟨z, hz.ne_nil, hz.left.trans (List.suffix_cons a l), hz.right, ?_⟩
        intro x hx hxl hxl'
        rcases List.suffix_cons_iff.mp hxl with rfl | hxl
        · exact absurd hxl' hsuf
        · exact hz.greatest x hx hxl hxl'

end Lib

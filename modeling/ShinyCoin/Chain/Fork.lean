import ShinyCoin.Chain.BestChain

/-!
# Branches of the block tree

A pointer is the list of its block and the block's ancestors, so one branch reaches another where
they share a suffix. The fork of `Reorganize` is such a suffix, and it is the longest one when heights
count the ancestors.
-/

namespace ShinyCoin

/-- Pointers to the block and to each of its ancestors, the genesis block last. -/
def BlockPtr.path : BlockPtr → List BlockPtr
  | [] => []
  | p :: pprev => (p :: pprev) :: path pprev

namespace BlockPtr

theorem mem_path {ptr x : BlockPtr} : x ∈ path ptr ↔ x ≠ [] ∧ x <:+ ptr := by
  induction ptr with
  | nil => simp [path]
  | cons p pprev ih =>
      rw [path, List.mem_cons, ih, List.suffix_cons_iff]
      constructor
      · rintro (rfl | ⟨hne, hx⟩)
        · exact ⟨List.cons_ne_nil _ _, .inl rfl⟩
        · exact ⟨hne, .inr hx⟩
      · rintro ⟨hne, rfl | hx⟩
        · exact .inl rfl
        · exact .inr ⟨hne, hx⟩

theorem path_eq_nil {ptr : BlockPtr} : path ptr = [] ↔ ptr = [] := by
  cases ptr <;> simp [path]

@[simp] theorem length_path (ptr : BlockPtr) : (path ptr).length = ptr.length := by
  induction ptr with
  | nil => rfl
  | cons p pprev ih => simp [path, ih]

/-- The blocks above the genesis block. -/
def above (ptr : BlockPtr) : List BlockPtr := (path ptr).dropLast

theorem above_cons {p : CBlockIndex} {pprev : BlockPtr} (h : pprev ≠ []) :
    above (p :: pprev) = (p :: pprev) :: above pprev := by
  rw [above, path, List.dropLast_cons_of_ne_nil (by simpa [path_eq_nil] using h), above]

@[simp] theorem above_nil : above [] = [] := rfl

@[simp] theorem above_singleton (p : CBlockIndex) : above [p] = [] := rfl

end BlockPtr

/-! ## Going back to the fork -/

/-- A proper ancestor is an ancestor of the parent, which is therefore not `NULL`. -/
theorem suffix_pprev {pfork pprev : BlockPtr} {p : CBlockIndex} (hfork : pfork ≠ [])
    (hsuf : pfork <:+ p :: pprev) (hne : p :: pprev ≠ pfork) : pfork <:+ pprev ∧ pprev ≠ [] := by
  rcases List.suffix_cons_iff.mp hsuf with heq | hsuf
  · exact absurd heq.symm hne
  · refine ⟨hsuf, ?_⟩
    rintro rfl
    exact hfork (List.suffix_nil.mp hsuf)

/-- What lies between a pointer and one of its ancestors. -/
theorem path_eq_backTo {pfork ptr : BlockPtr} (h : pfork <:+ ptr) :
    BlockPtr.path ptr = backTo pfork ptr ++ BlockPtr.path pfork := by
  induction ptr with
  | nil => rw [List.suffix_nil.mp h]; rfl
  | cons p pprev ih =>
      rw [backTo]
      split
      · next heq => rw [heq]; rfl
      · next hne =>
        rcases List.suffix_cons_iff.mp h with heq | h
        · exact absurd heq.symm hne
        · rw [BlockPtr.path, ih h]
          rfl

theorem lowerTo_suffix (nHeight : ℤ) (ptr : BlockPtr) : lowerTo nHeight ptr <:+ ptr := by
  induction ptr with
  | nil => exact List.suffix_rfl
  | cons p pprev ih =>
      rw [lowerTo]
      split
      · exact ih.trans (List.suffix_cons p pprev)
      · exact List.suffix_rfl

/-- The fork is a common ancestor. -/
theorem findFork_ok {ptr plonger pfork : BlockPtr} (h : findFork ptr plonger = .ok pfork) :
    pfork ≠ [] ∧ pfork <:+ ptr ∧ pfork <:+ plonger := by
  induction ptr generalizing plonger with
  | nil => cases h
  | cons f fprev ih =>
      rw [findFork] at h
      split at h
      · next heq =>
        cases h
        exact ⟨List.cons_ne_nil _ _, List.suffix_rfl, heq ▸ List.suffix_rfl⟩
      · split at h
        · cases h
        · next l lprev hl =>
          have hsuf : l :: lprev <:+ plonger := hl ▸ lowerTo_suffix _ _
          split at h
          · next heq =>
            cases h
            exact ⟨List.cons_ne_nil _ _, List.suffix_rfl, heq ▸ hsuf⟩
          · obtain ⟨hne, h1, h2⟩ := ih h
            exact ⟨hne, h1.trans (List.suffix_cons f fprev), h2.trans hsuf⟩

/-- Heights count the ancestors. -/
def Heights : BlockPtr → Prop
  | [] => True
  | p :: pprev => p.nHeight = pprev.length ∧ Heights pprev

theorem Heights.suffix {ptr x : BlockPtr} (h : Heights ptr) (hx : x <:+ ptr) : Heights x := by
  induction ptr with
  | nil => rw [List.suffix_nil.mp hx]; trivial
  | cons p pprev ih =>
      rcases List.suffix_cons_iff.mp hx with rfl | hx
      · exact h
      · exact ih h.2 hx

/-- Going down to a height stops no earlier than at it. -/
theorem suffix_lowerTo {ptr x : BlockPtr} {nHeight : ℤ} (h : Heights ptr) (hx : x <:+ ptr)
    (hlen : (x.length : ℤ) ≤ nHeight + 1) : x <:+ lowerTo nHeight ptr := by
  induction ptr with
  | nil => exact hx
  | cons p pprev ih =>
      rw [lowerTo]
      split
      · next hlt =>
        rcases List.suffix_cons_iff.mp hx with rfl | hx
        · have := h.1
          rw [List.length_cons] at hlen
          omega
        · exact ih h.2 hx
      · exact hx

theorem length_lowerTo {ptr : BlockPtr} {nHeight : ℤ} (h : Heights ptr) (hn : 0 ≤ nHeight) :
    ((lowerTo nHeight ptr).length : ℤ) ≤ nHeight + 1 := by
  induction ptr with
  | nil => simpa [lowerTo] using by omega
  | cons p pprev ih =>
      rw [lowerTo]
      split
      · exact ih h.2
      · next hlt =>
        have := h.1
        rw [List.length_cons]
        omega

/-- No block between `pindexBest` and the fork is an ancestor of the other branch. -/
theorem backTo_findFork {ptr plonger pfork x : BlockPtr} (hptr : Heights ptr)
    (hlonger : Heights plonger) (h : findFork ptr plonger = .ok pfork) (hx : x ∈ backTo pfork ptr) :
    ¬ x <:+ plonger := by
  induction ptr generalizing plonger with
  | nil => cases h
  | cons f fprev ih =>
      rw [findFork] at h
      split at h
      · cases h
        simp [backTo] at hx
      · next hne =>
        split at h
        · cases h
        · next l lprev hl =>
          have hlow : lowerTo f.nHeight plonger = l :: lprev := hl
          have hsuf : l :: lprev <:+ plonger := hlow ▸ lowerTo_suffix _ _
          have hlen : ((l :: lprev).length : ℤ) ≤ f.nHeight + 1 := by
            rw [← hlow]
            exact length_lowerTo hlonger (by rw [hptr.1]; omega)
          split at h
          · cases h
            simp [backTo] at hx
          · next hne' =>
            rw [backTo] at hx
            split at hx
            · cases hx
            · rcases List.mem_cons.mp hx with rfl | hx
              · -- an ancestor of this length would be the lowered pointer itself
                intro hfs
                have hin : f :: fprev <:+ l :: lprev := by
                  rw [← hlow]
                  exact suffix_lowerTo hlonger hfs (by rw [hptr.1, List.length_cons]; omega)
                have hle := hin.length_le
                have hlenf : ((f :: fprev).length : ℤ) = f.nHeight + 1 := by
                  rw [hptr.1, List.length_cons]; omega
                exact hne' (hin.eq_of_length (by omega))
              · intro hxl
                refine ih hptr.2 (hlonger.suffix hsuf) h hx ?_
                rw [← hlow]
                refine suffix_lowerTo hlonger hxl ?_
                have hxs : x <:+ fprev := by
                  obtain ⟨-, hsf, -⟩ := findFork_ok h
                  have : x ∈ BlockPtr.path fprev := by
                    rw [path_eq_backTo hsf]
                    exact List.mem_append_left _ hx
                  exact (BlockPtr.mem_path.mp this).2
                have := hxs.length_le
                rw [hptr.1]
                omega

/-! ## Postponing -/

/-- A block is postponed because its parent has more trust than the best block. -/
theorem trust_of_mem_postpone {bnBestTrust : ℤ} {ptr x : BlockPtr}
    (h : x ∈ (postpone bnBestTrust ptr).1) :
    ∃ p prev pprev, x = p :: prev :: pprev ∧ bnBestTrust < prev.bnChainTrust := by
  induction ptr with
  | nil => simp [postpone] at h
  | cons p pprev ih =>
      cases pprev with
      | nil => simp [postpone] at h
      | cons prev pprev =>
          rw [postpone] at h
          split at h
          · next hlt =>
            rcases List.mem_cons.mp h with rfl | h
            · exact ⟨p, prev, pprev, rfl, hlt⟩
            · exact ih h
          · cases h

theorem postpone_suffix (bnBestTrust : ℤ) (ptr : BlockPtr) :
    (postpone bnBestTrust ptr).2 <:+ ptr ∧ (ptr ≠ [] → (postpone bnBestTrust ptr).2 ≠ []) ∧
      BlockPtr.path ptr
        = (postpone bnBestTrust ptr).1 ++ BlockPtr.path (postpone bnBestTrust ptr).2 := by
  induction ptr with
  | nil => simp [postpone]
  | cons p pprev ih =>
      cases pprev with
      | nil => simp [postpone]
      | cons prev pprev =>
          rw [postpone]
          split
          · obtain ⟨hsuf, hne, hpath⟩ := ih
            refine ⟨hsuf.trans (List.suffix_cons _ _), fun _ => hne (List.cons_ne_nil _ _), ?_⟩
            rw [BlockPtr.path, hpath]
            rfl
          · simp

end ShinyCoin

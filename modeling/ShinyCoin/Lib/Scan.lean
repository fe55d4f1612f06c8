import Mathlib.Data.List.Basic
import Mathlib.Order.Lattice

/-!
# The best item of a scan

A loop goes through a list that is in order and keeps the best item so far. Items may be skipped.
The first one that is not is taken whatever it is; from then on the loop ends at the first late item,
and an item is taken only when its key is smaller than that of the one kept.
-/

namespace Lib

section

variable {α κ : Type} [LinearOrder κ] (late skip : α → Bool) (key : α → κ)

def scan : List α → Option α → Option α
  | [], best => best
  | a :: l, none => scan l (if skip a then none else some a)
  | a :: l, some b =>
      if late a then some b
      else if skip a then scan l (some b)
      else scan l (if key a < key b then some a else some b)

/-- Has a smaller key, or the same key and comes first. -/
def Beats (R : α → α → Prop) (a b : α) : Prop := key a < key b ∨ key a = key b ∧ R a b

end

section

variable {α κ : Type} [LinearOrder κ] {late skip : α → Bool} {key : α → κ} {R : α → α → Prop}
  {l : List α} {a b c : α}

theorem Beats.trans [IsTrans α R] (h : Beats key R a b) (h' : Beats key R b c) :
    Beats key R a c := by
  rcases h with hlt | ⟨heq, hab⟩
  · rcases h' with hlt' | ⟨heq', -⟩
    · exact .inl (hlt.trans hlt')
    · exact .inl (heq' ▸ hlt)
  · rcases h' with hlt' | ⟨heq', hbc⟩
    · exact .inl (heq ▸ hlt')
    · exact .inr ⟨heq.trans heq', IsTrans.trans a b c hab hbc⟩

/-- From an item on, the scan finds an item that beats it and all others that are in time. -/
theorem scan_some (skip : α → Bool) (key : α → κ) [IsTrans α R] [Std.Refl R]
    (hlate : ∀ a b, R a b → late a = true → late b = true)
    (hl : (b :: l).Pairwise R) :
    ∃ c, scan late skip key l (some b) = some c ∧ Beats key R c b ∧
      (c = b ∨ c ∈ l ∧ skip c = false ∧ late c = false) ∧
      ∀ a ∈ l, skip a = false → late a = false → Beats key R c a := by
  induction l generalizing b with
  | nil => exact ⟨b, rfl, .inr ⟨rfl, Std.Refl.refl b⟩, .inl rfl, by simp⟩
  | cons a l ih =>
      have hskipped : (b :: l).Pairwise R := hl.sublist ((List.sublist_cons_self a l).cons_cons b)
      have hba : R b a := (List.pairwise_cons.mp hl).1 a List.mem_cons_self
      rw [scan]
      split
      next hla =>
        -- so are all items that follow
        refine ⟨b, rfl, .inr ⟨rfl, Std.Refl.refl b⟩, .inl rfl, ?_⟩
        intro x hx _ hnot
        have hlx : late x = true := by
          rcases List.mem_cons.mp hx with rfl | hx
          · exact hla
          · exact hlate a x ((List.pairwise_cons.mp (List.pairwise_cons.mp hl).2).1 x hx) hla
        rw [hlx] at hnot
        cases hnot
      next hla =>
      split
      next hsa =>
        obtain ⟨c, hscan, hcb, hmem, hbeats⟩ := ih hskipped
        refine ⟨c, hscan, hcb, hmem.imp_right (.imp_left (List.mem_cons_of_mem a)), ?_⟩
        intro x hx hskip
        rcases List.mem_cons.mp hx with rfl | hx
        · rw [hsa] at hskip
          cases hskip
        · exact hbeats x hx hskip
      next hsa =>
      rw [Bool.not_eq_true] at hla hsa
      split
      next hlt =>
        obtain ⟨c, hscan, hca, hmem, hbeats⟩ := ih (List.pairwise_cons.mp hl).2
        refine ⟨c, hscan, hca.trans (.inl hlt), .inr ?_, ?_⟩
        · rcases hmem with rfl | ⟨hmem, h⟩
          · exact ⟨List.mem_cons_self, hsa, hla⟩
          · exact ⟨List.mem_cons_of_mem a hmem, h⟩
        · intro x hx
          rcases List.mem_cons.mp hx with rfl | hx
          · exact fun _ _ => hca
          · exact hbeats x hx
      next hge =>
        obtain ⟨c, hscan, hcb, hmem, hbeats⟩ := ih hskipped
        refine ⟨c, hscan, hcb, hmem.imp_right (.imp_left (List.mem_cons_of_mem a)), ?_⟩
        have hab : Beats key R b a :=
          (lt_or_eq_of_le (not_lt.mp hge)).imp_right fun heq => ⟨heq, hba⟩
        intro x hx
        rcases List.mem_cons.mp hx with rfl | hx
        · exact fun _ _ => hcb.trans hab
        · exact hbeats x hx

/-- The best item of a list: it beats all that are in time, or if none is, it is the first. -/
structure Best (late skip : α → Bool) (key : α → κ) (R : α → α → Prop) (l : List α) (c : α) :
    Prop where
  mem : c ∈ l
  notSkipped : skip c = false
  inTime : (∃ a ∈ l, skip a = false ∧ late a = false) →
    late c = false ∧ ∀ a ∈ l, skip a = false → late a = false → Beats key R c a
  first : (¬ ∃ a ∈ l, skip a = false ∧ late a = false) → ∀ a ∈ l, skip a = false → R c a

/-- The scan finds the best item, unless it skips them all. -/
theorem scan_best (key : α → κ) [IsTrans α R] [Std.Refl R]
    (hlate : ∀ a b, R a b → late a = true → late b = true)
    (hl : l.Pairwise R) (hsome : ∃ a ∈ l, skip a = false) :
    ∃ c, scan late skip key l none = some c ∧ Best late skip key R l c := by
  induction l with
  | nil =>
      obtain ⟨a, ha, -⟩ := hsome
      cases ha
  | cons b l ih =>
      rw [scan]
      split
      next hsb =>
        have htail : ∃ a ∈ l, skip a = false := by
          obtain ⟨a, ha, hskip⟩ := hsome
          rcases List.mem_cons.mp ha with rfl | ha
          · rw [hsb] at hskip
            cases hskip
          · exact ⟨a, ha, hskip⟩
        obtain ⟨c, hscan, hbest⟩ := ih (List.pairwise_cons.mp hl).2 htail
        have hiff : ∀ P : α → Prop,
            (∀ a ∈ b :: l, skip a = false → P a) ↔ ∀ a ∈ l, skip a = false → P a := by
          intro P
          rw [List.forall_mem_cons, hsb]
          simp
        refine ⟨c, hscan, List.mem_cons_of_mem b hbest.mem, hbest.notSkipped, ?_, ?_⟩
        · rintro ⟨a, ha, hskip, hin⟩
          rcases List.mem_cons.mp ha with rfl | ha
          · rw [hsb] at hskip
            cases hskip
          · obtain ⟨hc, hbeats⟩ := hbest.inTime ⟨a, ha, hskip, hin⟩
            exact ⟨hc, (hiff fun a => late a = false → Beats key R c a).mpr hbeats⟩
        · intro hnone
          rw [hiff]
          apply hbest.first
          rintro ⟨a, ha, h⟩
          exact hnone ⟨a, List.mem_cons_of_mem b ha, h⟩
      next hsb =>
        rw [Bool.not_eq_true] at hsb
        obtain ⟨c, hscan, hcb, hmem, hbeats⟩ := scan_some skip key hlate hl
        have hfirst : ∀ a ∈ b :: l, R b a := by
          rw [List.forall_mem_cons]
          exact ⟨Std.Refl.refl b, (List.pairwise_cons.mp hl).1⟩
        refine ⟨c, hscan, ?_, ?_, ?_, ?_⟩
        · rcases hmem with rfl | ⟨hmem, -⟩
          · exact List.mem_cons_self
          · exact List.mem_cons_of_mem b hmem
        · rcases hmem with rfl | ⟨-, hskip, -⟩
          · exact hsb
          · exact hskip
        · rintro ⟨a, ha, -, hin⟩
          refine ⟨?_, ?_⟩
          · rcases hmem with rfl | ⟨-, -, hc⟩
            · -- the first item is in time if any item is
              rw [Bool.eq_false_iff]
              intro hlb
              rw [hlate c a (hfirst a ha) hlb] at hin
              cases hin
            · exact hc
          · intro x hx
            rcases List.mem_cons.mp hx with rfl | hx
            · exact fun _ _ => hcb
            · exact hbeats x hx
        · intro hnone
          rcases hmem with rfl | ⟨hmem, hskip, hc⟩
          · exact fun a ha _ => hfirst a ha
          · exact absurd ⟨c, List.mem_cons_of_mem b hmem, hskip, hc⟩ hnone

end

end Lib

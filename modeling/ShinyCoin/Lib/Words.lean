import Mathlib.Data.Int.ModEq
import Mathlib.Tactic.NormNum
import ShinyCoin.Lib.Positional

/-!
# Numbers in words

A number in words of `w` bits, the lowest word first. What a carry loop does to the words is shown word
by word up to a multiple of the range (`modEq_cons`), what a shift does bit by bit
(`testBit_ofDigits`), and numbers of one length are compared from the highest word on
(`value_cons_lt_cons`).
-/

namespace Lib

section

variable {b w n d d' : Nat} {ds ds' : List Nat}

/-- Congruent numbers stay congruent with a word below them. -/
theorem modEq_cons {c z z' : ℤ} (h : z ≡ z' [ZMOD c ^ n]) (y : ℤ) :
    y + c * z ≡ y + c * z' [ZMOD c ^ (n + 1)] := by
  rw [pow_succ']
  exact (h.mul_left').add_left y

/-- The bits of a number are those of its words. -/
theorem testBit_ofDigits (hw : 0 < w) (hds : ∀ d ∈ ds, d < 2 ^ w) (i : Nat) :
    (Nat.ofDigits (2 ^ w) ds).testBit i = (ds.getD (i / w) 0).testBit (i % w) := by
  induction ds generalizing i with
  | nil => simp
  | cons d ds ih =>
      have hd := hds d List.mem_cons_self
      rw [Nat.ofDigits_cons, Nat.add_comm, Nat.testBit_two_pow_mul_add _ hd]
      split
      · next hlt =>
        rw [Nat.div_eq_of_lt hlt, Nat.mod_eq_of_lt hlt]
        rfl
      · next hge =>
        have hle : w ≤ i := not_lt.mp hge
        rw [ih (fun d' hd' => hds d' (List.mem_cons_of_mem _ hd')), ← Nat.mod_eq_sub_mod hle,
          Nat.div_eq_sub_div hw hle]
        rfl

/-- The highest digits decide, when they are not the same. -/
theorem value_cons_lt_cons (hb : 1 < b) (hds : ∀ d ∈ ds, d < b) (hds' : ∀ d ∈ ds', d < b)
    (hlen : ds.length = ds'.length) :
    value b (d :: ds) < value b (d' :: ds') ↔ d < d' ∨ d = d' ∧ value b ds < value b ds' := by
  have hlt := value_lt hb hds
  have hlt' := value_lt hb hds'
  rw [value_cons, value_cons, hlen]
  rw [hlen] at hlt
  have hstep : ∀ {x y v : Nat} (v' : Nat), v < b ^ ds'.length → x < y →
      x * b ^ ds'.length + v < y * b ^ ds'.length + v' := by
    intro x y v v' hv hxy
    calc x * b ^ ds'.length + v < x * b ^ ds'.length + b ^ ds'.length := by omega
      _ = (x + 1) * b ^ ds'.length := by ring
      _ ≤ y * b ^ ds'.length := Nat.mul_le_mul_right _ hxy
      _ ≤ y * b ^ ds'.length + v' := Nat.le_add_right _ _
  rcases lt_trichotomy d d' with h | rfl | h
  · exact iff_of_true (hstep _ hlt h) (.inl h)
  · simp
  · have hgt := hstep (value b ds) hlt' h
    refine iff_of_false (by omega) ?_
    rintro (h' | ⟨rfl, -⟩)
    · omega
    · omega

end

end Lib

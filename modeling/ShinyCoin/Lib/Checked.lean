import Mathlib.Algebra.BigOperators.Intervals
import Mathlib.Data.Rat.Floor
import Mathlib.Tactic.Linarith
import Mathlib.Tactic.Positivity
import Mathlib.Tactic.Ring

/-!
# Signed arithmetic that must not overflow

Overflow of a signed integer and division by zero have no defined result. The operations here work
on the signed type of `w + 1` bits and return nothing in these cases, so that a computation that
returns is a defined one, and its value is the one over all integers. Quotients truncate.

The second half bounds sums of the quotients `c / (h * h)`.
-/

namespace Lib

/-- `z` is a value of the signed type of `w + 1` bits. -/
def Fits (w : ℕ) (z : ℤ) : Prop := -2 ^ w ≤ z ∧ z < 2 ^ w

instance (w : ℕ) (z : ℤ) : Decidable (Fits w z) := inferInstanceAs (Decidable (_ ∧ _))

/-- The result `z` of an operation, if it is a value of the type. -/
def checked (w : ℕ) (z : ℤ) : Option ℤ := if Fits w z then some z else none

def checkedAdd (w : ℕ) (a b : ℤ) : Option ℤ := checked w (a + b)

def checkedSub (w : ℕ) (a b : ℤ) : Option ℤ := checked w (a - b)

def checkedMul (w : ℕ) (a b : ℤ) : Option ℤ := checked w (a * b)

def checkedDiv (w : ℕ) (a b : ℤ) : Option ℤ := if b = 0 then none else checked w (a.tdiv b)

section

variable {w : ℕ} {a b z : ℤ}

theorem Fits.of_le (hb : Fits w b) (ha : 0 ≤ a) (hab : a ≤ b) : Fits w a := by
  refine ⟨?_, lt_of_le_of_lt hab hb.2⟩
  have : (0 : ℤ) ≤ 2 ^ w := by positivity
  omega

theorem checked_eq (h : Fits w z) : checked w z = some z := if_pos h

@[simp] theorem checked_eq_some : checked w a = some z ↔ Fits w a ∧ a = z := by
  simp [checked]

@[simp] theorem checkedAdd_eq_some : checkedAdd w a b = some z ↔ Fits w (a + b) ∧ a + b = z :=
  checked_eq_some

@[simp] theorem checkedSub_eq_some : checkedSub w a b = some z ↔ Fits w (a - b) ∧ a - b = z :=
  checked_eq_some

@[simp] theorem checkedMul_eq_some : checkedMul w a b = some z ↔ Fits w (a * b) ∧ a * b = z :=
  checked_eq_some

@[simp] theorem checkedDiv_eq_some :
    checkedDiv w a b = some z ↔ b ≠ 0 ∧ Fits w (a.tdiv b) ∧ a.tdiv b = z := by
  rw [checkedDiv]
  split
  next h => simp [h]
  next h => simp [h]

/-- A quotient of two numbers that are not negative is at most the dividend. -/
theorem Fits.tdiv (ha : Fits w a) (h₀ : 0 ≤ a) (hb : 0 ≤ b) : Fits w (a.tdiv b) := by
  apply ha.of_le (Int.tdiv_nonneg h₀ hb)
  rw [Int.tdiv_eq_ediv_of_nonneg h₀]
  exact Int.ediv_le_self b h₀

/-- A larger divisor gives a smaller quotient. -/
theorem ediv_le_ediv_of_divisor_le {c : ℤ} (hc : 0 ≤ c) (ha : 0 < a) (hab : a ≤ b) :
    c / b ≤ c / a := by
  have hb : 0 < b := ha.trans_le hab
  apply Int.le_ediv_of_mul_le ha
  calc c / b * a ≤ c / b * b := mul_le_mul_of_nonneg_left hab (Int.ediv_nonneg hc hb.le)
    _ ≤ c := Int.ediv_mul_le c hb.ne'

end

/-! ## Sums of quotients by squares -/

/-- The quotient by a square is at most the difference of the quotients by its root and by the
number before. -/
theorem ediv_mul_self_le {c : ℤ} (hc : 0 ≤ c) {n : ℕ} (hn : 0 < n) :
    ((c / ((n + 1 : ℤ) * (n + 1)) : ℤ) : ℚ) ≤ c / n - c / (n + 1 : ℕ) := by
  have hd : (0 : ℤ) < (n + 1) * (n + 1) := by positivity
  have hq : 0 ≤ c / ((n + 1 : ℤ) * (n + 1)) := Int.ediv_nonneg hc hd.le
  have hmul := Int.mul_ediv_self_le (x := c) hd.ne'
  generalize c / ((n + 1 : ℤ) * (n + 1)) = q at hq hmul
  have hn' : (0 : ℚ) < n := Nat.cast_pos.mpr hn
  have hsucc : (0 : ℚ) < (n + 1 : ℕ) := by positivity
  have hcq : q * (n * (n + 1)) ≤ c := by nlinarith
  rw [div_sub_div _ _ hn'.ne' hsucc.ne', le_div_iff₀ (mul_pos hn' hsucc)]
  calc (q : ℚ) * (n * (n + 1 : ℕ)) ≤ c := by exact_mod_cast hcq
    _ = c * (n + 1 : ℕ) - n * c := by push_cast; ring

/-- The sum of the quotients by the squares after `n` telescopes. -/
theorem sum_ediv_mul_self_le {c : ℤ} (hc : 0 ≤ c) {n : ℕ} (hn : 0 < n) (m : ℕ) :
    ∑ h ∈ Finset.Ioc n (n + m), c / ((h : ℤ) * h) ≤ c / n := by
  have hsum : ((∑ h ∈ Finset.Ioc n (n + m), c / ((h : ℤ) * h) : ℤ) : ℚ)
      ≤ c / n - c / (n + m : ℕ) := by
    induction m with
    | zero => simp
    | succ m ih =>
        have hstep := ediv_mul_self_le hc (Nat.add_pos_left hn m)
        rw [← add_assoc, Finset.sum_Ioc_succ_top (Nat.le_add_right n m), Int.cast_add]
        push_cast at ih hstep ⊢
        linarith
  have hend : (0 : ℚ) ≤ c / (n + m : ℕ) := div_nonneg (by exact_mod_cast hc) (Nat.cast_nonneg _)
  rw [← Rat.floor_intCast_div_natCast c n, Int.le_floor]
  linarith

end Lib

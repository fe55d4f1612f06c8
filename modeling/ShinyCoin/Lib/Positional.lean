import Mathlib.Data.Nat.Digits.Lemmas
import Mathlib.Data.List.TakeWhile
import Mathlib.Tactic.Ring

/-!
# Positional notation

A number is read from its digits, the highest first, by taking one digit after another. Zeros in front
do not count, and zeros at the end multiply. What is written has no zeros in front, but for the zero
of a number that has nothing else.
-/

namespace Lib

section

variable {b w n : Nat} {ds ds' : List Nat}

/-- The number that digits denote, the highest first -/
def value (b : Nat) (ds : List Nat) : Nat := ds.foldl (fun n d => n * b + d) 0

theorem foldl_value (ds : List Nat) (n : Nat) :
    ds.foldl (fun n d => n * b + d) n = n * b ^ ds.length + value b ds := by
  induction ds generalizing n with
  | nil => simp [value]
  | cons d ds ih =>
      have hd : value b (d :: ds) = (0 * b + d) * b ^ ds.length + value b ds := ih (0 * b + d)
      rw [List.foldl_cons, ih, hd, List.length_cons]
      ring

theorem value_nil : value b [] = 0 := rfl

theorem value_append (ds ds' : List Nat) :
    value b (ds ++ ds') = value b ds * b ^ ds'.length + value b ds' := by
  rw [value, List.foldl_append, foldl_value]
  rfl

theorem value_cons (d : Nat) (ds : List Nat) : value b (d :: ds) = d * b ^ ds.length + value b ds := by
  rw [value, List.foldl_cons, foldl_value, Nat.zero_mul, Nat.zero_add]

theorem value_singleton (d : Nat) : value b [d] = d := by
  rw [value_cons, value_nil, List.length_nil, pow_zero, Nat.mul_one, Nat.add_zero]

theorem value_replicate_zero (k : Nat) : value b (List.replicate k 0) = 0 := by
  induction k with
  | zero => rfl
  | succ k ih => rw [List.replicate_succ, value_cons, ih, Nat.zero_mul]

/-- Zeros in front do not count. -/
theorem value_replicate_append (k : Nat) (ds : List Nat) :
    value b (List.replicate k 0 ++ ds) = value b ds := by
  rw [value_append, value_replicate_zero, Nat.zero_mul, Nat.zero_add]

/-- Zeros at the end multiply. -/
theorem value_append_replicate (ds : List Nat) (k : Nat) :
    value b (ds ++ List.replicate k 0) = value b ds * b ^ k := by
  rw [value_append, value_replicate_zero, List.length_replicate, Nat.add_zero]

theorem value_eq_ofDigits (ds : List Nat) : value b ds = Nat.ofDigits b ds.reverse := by
  induction ds with
  | nil => rfl
  | cons d ds ih =>
      rw [value_cons, ih, List.reverse_cons, Nat.ofDigits_append, List.length_reverse,
        Nat.ofDigits_singleton]
      ring

theorem value_lt (hb : 1 < b) (hds : ∀ d ∈ ds, d < b) : value b ds < b ^ ds.length := by
  rw [value_eq_ofDigits, ← List.length_reverse]
  exact Nat.ofDigits_lt_base_pow_length hb fun d hd => hds d (List.mem_reverse.mp hd)

/-- Digits of one length that denote the same number are the same. -/
theorem value_inj (hb : 1 < b) (hds : ∀ d ∈ ds, d < b) (hds' : ∀ d ∈ ds', d < b)
    (hlen : ds.length = ds'.length) (h : value b ds = value b ds') : ds = ds' := by
  rw [value_eq_ofDigits, value_eq_ofDigits] at h
  apply List.reverse_inj.mp
  exact Nat.ofDigits_inj_of_len_eq hb (by simpa using hlen)
    (fun d hd => hds d (List.mem_reverse.mp hd)) (fun d hd => hds' d (List.mem_reverse.mp hd)) h

/-! ## Writing -/

/-- The digits of a number, the highest first; none for zero -/
def digits (b n : Nat) : List Nat := (Nat.digits b n).reverse

theorem value_digits (b n : Nat) : value b (digits b n) = n := by
  rw [digits, value_eq_ofDigits, List.reverse_reverse, Nat.ofDigits_digits]

theorem digits_lt (hb : 1 < b) {d : Nat} (hd : d ∈ digits b n) : d < b :=
  Nat.digits_lt_base hb (List.mem_reverse.mp hd)

theorem length_digits_le (hb : 1 < b) (h : n < b ^ w) : (digits b n).length ≤ w := by
  rw [digits, List.length_reverse]
  exact (Nat.digits_length_le_iff hb n).mpr h

/-- What is read and written again has lost the zeros in front. -/
theorem digits_value (hb : 1 < b) (hds : ∀ d ∈ ds, d < b) :
    digits b (value b ds) = ds.dropWhile (· == 0) := by
  induction ds with
  | nil => rw [value_nil, digits, Nat.digits_zero, List.reverse_nil, List.dropWhile_nil]
  | cons d ds ih =>
      by_cases hd : d = 0
      · subst hd
        rw [value_cons, Nat.zero_mul, Nat.zero_add, List.dropWhile_cons_of_pos (by rfl)]
        exact ih fun d hd => hds d (List.mem_cons_of_mem 0 hd)
      · rw [List.dropWhile_cons_of_neg (by simpa using hd), digits, value_eq_ofDigits,
          Nat.digits_ofDigits b hb, List.reverse_reverse]
        · exact fun e he => hds e (List.mem_reverse.mp he)
        · intro hne
          simpa using hd

/-- What is written begins with no zero. -/
theorem takeWhile_digits (b n : Nat) : (digits b n).takeWhile (· == 0) = [] := by
  rw [List.takeWhile_eq_nil_iff]
  intro hpos
  rcases Nat.eq_zero_or_pos n with rfl | hn
  · simp [digits] at hpos
  · have hne : Nat.digits b n ≠ [] := Nat.digits_ne_nil_iff_ne_zero.mpr hn.ne'
    have hlast := Nat.getLast_digit_ne_zero b hn.ne'
    simpa [digits, List.getLast_eq_getElem] using hlast

/-- Digits are the zeros in front and what is written for their number. -/
theorem replicate_append_digits (hb : 1 < b) (hds : ∀ d ∈ ds, d < b) :
    List.replicate (ds.takeWhile (· == 0)).length 0 ++ digits b (value b ds) = ds := by
  have hzeros : List.replicate (ds.takeWhile (· == 0)).length 0 = ds.takeWhile (· == 0) := by
    symm
    rw [List.eq_replicate_iff]
    exact ⟨rfl, fun d hd => by simpa using List.mem_takeWhile_imp hd⟩
  rw [hzeros, digits_value hb hds, List.takeWhile_append_dropWhile]

/-- The zeros in front are found again. -/
theorem takeWhile_replicate_append_digits (b k n : Nat) :
    (List.replicate k 0 ++ digits b n).takeWhile (· == 0) = List.replicate k 0 := by
  rw [List.takeWhile_append_of_pos]
  · rw [takeWhile_digits, List.append_nil]
  · intro d hd
    simp [List.eq_of_mem_replicate hd]

/-- Digits with a given number of places -/
def pad (w : Nat) (ds : List Nat) : List Nat := List.replicate (w - ds.length) 0 ++ ds

theorem value_pad (w : Nat) (ds : List Nat) : value b (pad w ds) = value b ds :=
  value_replicate_append _ ds

theorem pad_lt (hb : 0 < b) (hds : ∀ d ∈ ds, d < b) : ∀ d ∈ pad w ds, d < b := by
  intro d hd
  rcases List.mem_append.mp hd with hd | hd
  · rw [List.eq_of_mem_replicate hd]
    exact hb
  · exact hds d hd

theorem length_pad (h : ds.length ≤ w) : (pad w ds).length = w := by
  rw [pad, List.length_append, List.length_replicate, Nat.sub_add_cancel h]

/-! ## Decimals -/

/-- A number in decimals; zero has one digit. -/
def decimal (n : Nat) : List Nat := if n = 0 then [0] else digits 10 n

theorem value_decimal (n : Nat) : value 10 (decimal n) = n := by
  unfold decimal
  split
  · next h => rw [h]; rfl
  · exact value_digits 10 n

theorem decimal_lt (n : Nat) : ∀ d ∈ decimal n, d < 10 := by
  intro d hd
  unfold decimal at hd
  split at hd
  · rw [List.mem_singleton.mp hd]
    decide
  · exact digits_lt (by decide) hd

theorem length_decimal_le (hw : 0 < w) (h : n < 10 ^ w) : (decimal n).length ≤ w := by
  unfold decimal
  split
  · exact hw
  · exact length_digits_le (by decide) h

/-! ## Trimming -/

/-- How often a loop that goes down from the place before `i` finds what it looks for -/
def trimCount (p : Nat → Bool) : Nat → Nat
  | 0 => 0
  | i + 1 => if p i then trimCount p i + 1 else 0

/-- Where the loop looks for a letter, what it has passed is that letter repeated. -/
theorem take_trimCount {α : Type} {p : Nat → Bool} {s : List α} {z : α}
    (hp : ∀ i (hi : i < s.length), p i = true → s[i] = z) {i : Nat} (hi : i ≤ s.length) :
    ∃ t, s.take i = t ++ List.replicate (trimCount p i) z := by
  induction i with
  | zero => exact ⟨[], rfl⟩
  | succ i ih =>
      rw [trimCount]
      split
      · next hc =>
        obtain ⟨t, ht⟩ := ih (Nat.le_of_succ_le hi)
        refine ⟨t, ?_⟩
        rw [List.take_add_one, ht, List.replicate_succ', List.append_assoc,
          List.getElem?_eq_getElem hi, hp i hi hc, Option.toList_some]
      · exact ⟨s.take (i + 1), by simp⟩

/-- What is left after trimming, and that the letters trimmed make up the rest -/
theorem exists_trimmed {α : Type} {p : Nat → Bool} {s : List α} {z : α}
    (hp : ∀ i (hi : i < s.length), p i = true → s[i] = z) :
    s.take (s.length - trimCount p s.length) ++ List.replicate (trimCount p s.length) z = s := by
  obtain ⟨t, ht⟩ := take_trimCount hp (Nat.le_refl s.length)
  generalize trimCount p s.length = k at ht ⊢
  rw [List.take_length] at ht
  have htake : s.take (s.length - k) = t := by
    rw [ht, List.length_append, List.length_replicate, Nat.add_sub_cancel, List.take_left]
  rw [htake, ht]

end

end Lib

import ShinyCoin.Lib.Positional

/-!
# Regrouping bits

Digits of `p` bits are written again as digits of `q` bits: digits are read, whole ones are written,
and the bits that do not make up one yet are carried. The number and the count of the bits stay the
same at each step, and these two determine what is written, and what was read.
-/

namespace Lib

section

variable {p q r r' l l' d k : Nat} {ds ds' es es' : List Nat}

/-- The digits `ds` of `p` bits have been read and the digits `es` of `q` bits written, with `r` bits
carried that denote `l`. -/
structure Regrouped (p q : Nat) (ds es : List Nat) (r l : Nat) : Prop where
  value_eq : value (2 ^ p) ds = value (2 ^ q) es * 2 ^ r + l
  length_eq : p * ds.length = q * es.length + r
  carry_lt : l < 2 ^ r

theorem Regrouped.nil : Regrouped p q [] [] 0 0 := ⟨rfl, rfl, by decide⟩

theorem Regrouped.read (h : Regrouped p q ds es r l) (hd : d < 2 ^ p) :
    Regrouped p q (ds ++ [d]) es (r + p) (l * 2 ^ p + d) where
  value_eq := by
    rw [value_append, value_singleton, List.length_singleton, pow_one, h.value_eq, pow_add]
    ring
  length_eq := by
    rw [List.length_append, List.length_singleton, Nat.mul_succ, h.length_eq, Nat.add_assoc]
  carry_lt := by
    calc l * 2 ^ p + d < l * 2 ^ p + 2 ^ p := Nat.add_lt_add_left hd _
      _ = (l + 1) * 2 ^ p := by ring
      _ ≤ 2 ^ r * 2 ^ p := Nat.mul_le_mul_right _ h.carry_lt
      _ = 2 ^ (r + p) := (pow_add 2 r p).symm

/-- A whole digit is written. -/
theorem Regrouped.write (h : Regrouped p q ds es (q + r) l) :
    Regrouped p q ds (es ++ [l / 2 ^ r]) r (l % 2 ^ r) where
  value_eq := by
    have hl := Nat.div_add_mod' l (2 ^ r)
    rw [value_append, value_singleton, List.length_singleton, pow_one, h.value_eq, pow_add, add_mul,
      Nat.add_assoc, hl, Nat.mul_assoc]
  length_eq := by
    rw [List.length_append, List.length_singleton, Nat.mul_succ, h.length_eq, Nat.add_assoc]
  carry_lt := Nat.mod_lt l (Nat.two_pow_pos r)

theorem Regrouped.write_lt (h : Regrouped p q ds es (q + r) l) : l / 2 ^ r < 2 ^ q := by
  rw [Nat.div_lt_iff_lt_mul (Nat.two_pow_pos r), ← pow_add]
  exact h.carry_lt

/-- Zeros fill up the carried bits to a digit: what was written, read again, gives what was read, with
the zeros carried. -/
theorem Regrouped.fill (h : Regrouped p q ds es r l) (hk : r + k = q) :
    Regrouped q p (es ++ [l * 2 ^ k]) ds k 0 where
  value_eq := by
    rw [value_append, value_singleton, List.length_singleton, pow_one, h.value_eq, ← hk, pow_add]
    ring
  length_eq := by
    rw [List.length_append, List.length_singleton, Nat.mul_succ, h.length_eq, Nat.add_assoc, hk]
  carry_lt := Nat.two_pow_pos k

/-- Nothing is carried: the other way round it is the same. -/
theorem Regrouped.symm (h : Regrouped p q ds es 0 l) : Regrouped q p es ds 0 0 where
  value_eq := by
    have hl : l = 0 := Nat.lt_one_iff.mp h.carry_lt
    have hv := h.value_eq
    rw [hl] at hv
    simpa using hv.symm
  length_eq := h.length_eq.symm
  carry_lt := by decide

theorem mul_add_unique {a b : Nat} (h : q * a + r = q * b + r') (hr : r < q) (hr' : r' < q) :
    a = b ∧ r = r' := by
  have hq : 0 < q := Nat.zero_lt_of_lt hr
  have hab : a = b := by
    have hdiv := congrArg (· / q) h
    simpa [Nat.mul_add_div hq, Nat.div_eq_of_lt hr, Nat.div_eq_of_lt hr'] using hdiv
  exact ⟨hab, by rw [hab] at h; exact Nat.add_left_cancel h⟩

/-- What was read determines what is written. -/
theorem Regrouped.unique (h : Regrouped p q ds es r l) (h' : Regrouped p q ds es' r' l')
    (hr : r < q) (hr' : r' < q) (hq : 0 < q) (hes : ∀ e ∈ es, e < 2 ^ q)
    (hes' : ∀ e ∈ es', e < 2 ^ q) : es = es' ∧ r = r' ∧ l = l' := by
  obtain ⟨hlen, rfl⟩ := mul_add_unique (h.length_eq.symm.trans h'.length_eq) hr hr'
  have hv := h.value_eq.symm.trans h'.value_eq
  rw [Nat.mul_comm _ (2 ^ r), Nat.mul_comm _ (2 ^ r)] at hv
  obtain ⟨hval, rfl⟩ := mul_add_unique hv h.carry_lt h'.carry_lt
  exact ⟨value_inj (Nat.one_lt_two_pow hq.ne') hes hes' hlen hval, rfl, rfl⟩

/-- What is written determines what was read, when only zeros are carried and they make up no digit. -/
theorem Regrouped.source_unique (h : Regrouped p q ds es r 0) (h' : Regrouped p q ds' es r' 0)
    (hr : r < p) (hr' : r' < p) (hds : ∀ d ∈ ds, d < 2 ^ p) (hds' : ∀ d ∈ ds', d < 2 ^ p) :
    ds = ds' := by
  have hp : 0 < p := Nat.zero_lt_of_lt hr
  have hlen := h.length_eq
  have hlen' := h'.length_eq
  have hadd : p * ds.length + r' = p * ds'.length + r := by omega
  obtain ⟨hcount, rfl⟩ := mul_add_unique hadd hr' hr
  have hval := h.value_eq.trans h'.value_eq.symm
  exact value_inj (Nat.one_lt_two_pow hp.ne') hds hds' hcount hval

end

end Lib

import ShinyCoin.Core.Types
import ShinyCoin.Lib.Words

/-!
# `base_uint`

The unsigned integers of `uint256.h`, as arrays of 32-bit words of which the first is the lowest. Each
operation is the loop of the source over the words. Its result is the one on integers, up to a multiple
of `2 ^ BITS`.
-/

namespace ShinyCoin

/-- `base_uint<BITS>`, with `BITS / 32` words. -/
@[ext] structure BaseUint (WIDTH : Nat) where
  pn : List UInt32
  width : pn.length = WIDTH
  deriving DecidableEq

namespace BaseUint

variable {WIDTH : Nat}

/-! ## The operators -/

/-- `pn[i]` -/
def word (a : BaseUint WIDTH) (i : Nat) : UInt32 := a.pn.getD i 0

/-- `pn[i] |= w` -/
def orWord (a : BaseUint WIDTH) (i : Nat) (w : UInt32) : BaseUint WIDTH :=
  ⟨a.pn.modify i (· ||| w), by rw [List.length_modify, a.width]⟩

def zero (WIDTH : Nat) : BaseUint WIDTH := ⟨List.replicate WIDTH 0, List.length_replicate⟩

/-- `operator=(uint64)`, and the constructors from a `uint64` -/
def ofUint64 (WIDTH : Nat) (b : UInt64) : BaseUint WIDTH where
  pn := (List.range WIDTH).map fun i =>
    if i = 0 then b.toUInt32 else if i = 1 then (b >>> 32).toUInt32 else 0
  width := by rw [List.length_map, List.length_range]

/-- `operator~` -/
def bitNot (a : BaseUint WIDTH) : BaseUint WIDTH :=
  ⟨a.pn.map (~~~ ·), by rw [List.length_map, a.width]⟩

/-- The loop of `operator++`, from a word on. It goes on while the word has become 0 and is not the
last one. -/
def incrementLoop : List UInt32 → List UInt32
  | [] => []
  | w :: pn =>
      let w := w + 1
      if w == 0 && !pn.isEmpty then w :: incrementLoop pn else w :: pn

/-- The loop of `operator--` -/
def decrementLoop : List UInt32 → List UInt32
  | [] => []
  | w :: pn =>
      let w := w - 1
      if w == 0xffffffff && !pn.isEmpty then w :: decrementLoop pn else w :: pn

theorem length_incrementLoop (pn : List UInt32) : (incrementLoop pn).length = pn.length := by
  induction pn with
  | nil => rfl
  | cons w pn ih =>
      rw [incrementLoop]
      split
      · rw [List.length_cons, ih, List.length_cons]
      · rfl

theorem length_decrementLoop (pn : List UInt32) : (decrementLoop pn).length = pn.length := by
  induction pn with
  | nil => rfl
  | cons w pn ih =>
      rw [decrementLoop]
      split
      · rw [List.length_cons, ih, List.length_cons]
      · rfl

/-- `operator++()` -/
def increment (a : BaseUint WIDTH) : BaseUint WIDTH :=
  ⟨incrementLoop a.pn, (length_incrementLoop a.pn).trans a.width⟩

/-- `operator--()` -/
def decrement (a : BaseUint WIDTH) : BaseUint WIDTH :=
  ⟨decrementLoop a.pn, (length_decrementLoop a.pn).trans a.width⟩

/-- `operator++(int)`: what it returns, and `*this`. -/
def postIncrement (a : BaseUint WIDTH) : BaseUint WIDTH × BaseUint WIDTH := (a, a.increment)

/-- `operator--(int)` -/
def postDecrement (a : BaseUint WIDTH) : BaseUint WIDTH × BaseUint WIDTH := (a, a.decrement)

/-- `operator-()` -/
def neg (a : BaseUint WIDTH) : BaseUint WIDTH := a.bitNot.postIncrement.2

/-- The loop of `operator+=`, from a word on -/
def addLoop : UInt64 → List UInt32 → List UInt32 → List UInt32
  | carry, p :: pn, q :: qn =>
      let n := carry + p.toUInt64 + q.toUInt64
      (n &&& 0xffffffff).toUInt32 :: addLoop (n >>> 32) pn qn
  | _, _, _ => []

theorem length_addLoop (carry : UInt64) {pn qn : List UInt32} (h : pn.length = qn.length) :
    (addLoop carry pn qn).length = pn.length := by
  induction pn generalizing carry qn with
  | nil => rfl
  | cons p pn ih =>
      cases qn with
      | nil => cases h
      | cons q qn =>
          rw [addLoop, List.length_cons, ih _ (Nat.succ.inj h), List.length_cons]

/-- `operator+=(const base_uint&)` -/
def add (a b : BaseUint WIDTH) : BaseUint WIDTH :=
  ⟨addLoop 0 a.pn b.pn, (length_addLoop 0 (a.width.trans b.width.symm)).trans a.width⟩

/-- `operator-=(const base_uint&)` -/
def sub (a b : BaseUint WIDTH) : BaseUint WIDTH := a.add b.neg

/-- `operator+=(uint64)` -/
def addUint64 (a : BaseUint WIDTH) (b64 : UInt64) : BaseUint WIDTH := a.add (ofUint64 WIDTH b64)

/-- `operator-=(uint64)` -/
def subUint64 (a : BaseUint WIDTH) (b64 : UInt64) : BaseUint WIDTH := a.add (ofUint64 WIDTH b64).neg

/-- One round of `operator<<=` -/
def shiftLeftRound (a : BaseUint WIDTH) (k : Nat) (shift : UInt32) (r : BaseUint WIDTH) (i : Nat) :
    BaseUint WIDTH :=
  let r := if i + k + 1 < WIDTH ∧ shift ≠ 0 then r.orWord (i + k + 1) (a.word i >>> (32 - shift)) else r
  if i + k < WIDTH then r.orWord (i + k) (a.word i <<< shift) else r

/-- `operator<<=` -/
def shiftLeft (a : BaseUint WIDTH) (shift : UInt32) : BaseUint WIDTH :=
  let k := (shift / 32).toNat
  let shift := shift % 32
  (List.range WIDTH).foldl (shiftLeftRound a k shift) (zero WIDTH)

/-- One round of `operator>>=` -/
def shiftRightRound (a : BaseUint WIDTH) (k : Nat) (shift : UInt32) (r : BaseUint WIDTH) (i : Nat) :
    BaseUint WIDTH :=
  let r := if k + 1 ≤ i ∧ shift ≠ 0 then r.orWord (i - k - 1) (a.word i <<< (32 - shift)) else r
  if k ≤ i then r.orWord (i - k) (a.word i >>> shift) else r

/-- `operator>>=` -/
def shiftRight (a : BaseUint WIDTH) (shift : UInt32) : BaseUint WIDTH :=
  let k := (shift / 32).toNat
  let shift := shift % 32
  (List.range WIDTH).foldl (shiftRightRound a k shift) (zero WIDTH)

/-- The loop of the order operators, from the highest word on: `true` at a word that is less, `false` at
one that is greater. -/
def orderLoop (less : UInt32 → UInt32 → Bool) (atEnd : Bool) : List UInt32 → List UInt32 → Bool
  | p :: pn, q :: qn =>
      if less p q then true else if less q p then false else orderLoop less atEnd pn qn
  | _, _ => atEnd

/-- `operator<` -/
def lt (a b : BaseUint WIDTH) : Bool := orderLoop (· < ·) false a.pn.reverse b.pn.reverse

/-- `operator<=` -/
def le (a b : BaseUint WIDTH) : Bool := orderLoop (· < ·) true a.pn.reverse b.pn.reverse

/-- `operator>` -/
def gt (a b : BaseUint WIDTH) : Bool := orderLoop (· > ·) false a.pn.reverse b.pn.reverse

/-- `operator>=` -/
def ge (a b : BaseUint WIDTH) : Bool := orderLoop (· > ·) true a.pn.reverse b.pn.reverse

/-- The loop of `operator==` -/
def eqLoop : List UInt32 → List UInt32 → Bool
  | p :: pn, q :: qn => if p ≠ q then false else eqLoop pn qn
  | _, _ => true

/-- `operator==` -/
def eq (a b : BaseUint WIDTH) : Bool := eqLoop a.pn b.pn

/-- `operator!=` -/
def ne (a b : BaseUint WIDTH) : Bool := !a.eq b

/-- `operator==(const base_uint&, uint64)` -/
def eqUint64 (a : BaseUint WIDTH) (b : UInt64) : Bool :=
  if a.word 0 ≠ b.toUInt32 then false
  else if a.word 1 ≠ (b >>> 32).toUInt32 then false
  else (a.pn.drop 2).all (· == 0)

/-- `operator!=(const base_uint&, uint64)` -/
def neUint64 (a : BaseUint WIDTH) (b : UInt64) : Bool := !a.eqUint64 b

/-! ## The value -/

/-- The integer that words stand for -/
def wordsValue (pn : List UInt32) : Nat := Nat.ofDigits (2 ^ 32) (pn.map UInt32.toNat)

@[simp] theorem wordsValue_nil : wordsValue [] = 0 := rfl

@[simp] theorem wordsValue_cons (w : UInt32) (pn : List UInt32) :
    wordsValue (w :: pn) = w.toNat + 2 ^ 32 * wordsValue pn :=
  Nat.ofDigits_cons

theorem cast_wordsValue_cons (w : UInt32) (pn : List UInt32) :
    (wordsValue (w :: pn) : ℤ) = w.toNat + 2 ^ 32 * wordsValue pn := by
  rw [wordsValue_cons]
  push_cast
  rfl

theorem wordsValue_replicate_zero (n : Nat) : wordsValue (List.replicate n 0) = 0 := by
  induction n with
  | zero => rfl
  | succ n ih => rw [List.replicate_succ, wordsValue_cons, ih, UInt32.toNat_zero, Nat.mul_zero]

theorem toNat_words_lt (pn : List UInt32) : ∀ d ∈ pn.map UInt32.toNat, d < 2 ^ 32 := by
  intro d hd
  obtain ⟨w, -, rfl⟩ := List.mem_map.mp hd
  exact w.toNat_lt

theorem wordsValue_lt (pn : List UInt32) : wordsValue pn < (2 ^ 32) ^ pn.length := by
  have h := Nat.ofDigits_lt_base_pow_length (by decide) (toNat_words_lt pn)
  rw [List.length_map] at h
  exact h

theorem wordsValue_inj {pn qn : List UInt32} (hlen : pn.length = qn.length)
    (h : wordsValue pn = wordsValue qn) : pn = qn := by
  have hmap := Nat.ofDigits_inj_of_len_eq (by decide)
    (by rw [List.length_map, List.length_map, hlen]) (toNat_words_lt pn) (toNat_words_lt qn) h
  exact List.map_injective_iff.mpr (fun _ _ => UInt32.toNat_inj.mp) hmap

def value (a : BaseUint WIDTH) : Nat := wordsValue a.pn

theorem value_lt (a : BaseUint WIDTH) : a.value < 2 ^ (32 * WIDTH) := by
  have h := wordsValue_lt a.pn
  rw [a.width, ← pow_mul] at h
  exact h

theorem value_inj {a b : BaseUint WIDTH} : a.value = b.value ↔ a = b := by
  constructor
  · intro h
    exact BaseUint.ext (wordsValue_inj (a.width.trans b.width.symm) h)
  · rintro rfl
    rfl

/-- A value is known by what it is congruent to. -/
theorem value_eq_emod {a : BaseUint WIDTH} {z : ℤ} (h : (a.value : ℤ) ≡ z [ZMOD 2 ^ (32 * WIDTH)]) :
    (a.value : ℤ) = z % 2 ^ (32 * WIDTH) := by
  rw [← h.eq]
  refine (Int.emod_eq_of_lt (Int.natCast_nonneg _) ?_).symm
  exact_mod_cast a.value_lt

/-! ## Carries -/

theorem wordsValue_incrementLoop (pn : List UInt32) :
    (wordsValue (incrementLoop pn) : ℤ) ≡ wordsValue pn + 1 [ZMOD (2 ^ 32) ^ pn.length] := by
  induction pn with
  | nil => exact Int.modEq_one
  | cons w pn ih =>
      have hlt := w.toNat_lt
      have hadd : (w + 1).toNat = (w.toNat + 1) % 2 ^ 32 := UInt32.toNat_add w 1
      rw [incrementLoop, cast_wordsValue_cons, List.length_cons]
      by_cases hmax : w + 1 = 0
      · -- the word was all ones, and there is a carry
        rw [hmax, UInt32.toNat_zero] at hadd
        have hcarry : (w.toNat : ℤ) + 2 ^ 32 * wordsValue pn + 1 = 0 + 2 ^ 32 * (wordsValue pn + 1) := by
          omega
        rw [hcarry]
        cases pn with
        | nil => simp [hmax, Int.modEq_iff_dvd]
        | cons w' pn =>
            rw [if_pos (by simp [hmax]), cast_wordsValue_cons, hmax]
            exact Lib.modEq_cons ih 0
      · have hne : (w + 1 == 0) = false := beq_eq_false_iff_ne.mpr hmax
        have hsucc : (w + 1).toNat = w.toNat + 1 := by
          have hzero : (w + 1).toNat ≠ 0 := fun h => hmax (UInt32.toNat_inj.mp h)
          omega
        rw [if_neg (by simp [hne]), cast_wordsValue_cons, hsucc]
        push_cast
        rw [add_right_comm]

theorem wordsValue_decrementLoop (pn : List UInt32) :
    (wordsValue (decrementLoop pn) : ℤ) ≡ wordsValue pn - 1 [ZMOD (2 ^ 32) ^ pn.length] := by
  induction pn with
  | nil => exact Int.modEq_one
  | cons w pn ih =>
      have hlt := w.toNat_lt
      have hsub : (w - 1).toNat = (2 ^ 32 - 1 + w.toNat) % 2 ^ 32 := UInt32.toNat_sub w 1
      rw [decrementLoop, cast_wordsValue_cons, List.length_cons]
      by_cases hmin : w - 1 = 0xffffffff
      · -- the word was zero, and there is a borrow
        have hones : (w - 1).toNat = 2 ^ 32 - 1 := congrArg UInt32.toNat hmin
        have hborrow : (w.toNat : ℤ) + 2 ^ 32 * wordsValue pn - 1
            = ((w - 1).toNat : ℤ) + 2 ^ 32 * (wordsValue pn - 1) := by
          omega
        rw [hborrow]
        cases pn with
        | nil => simp [hmin, Int.modEq_iff_dvd]
        | cons w' pn =>
            rw [if_pos (by simp [hmin]), cast_wordsValue_cons]
            exact Lib.modEq_cons ih _
      · have hne : (w - 1 == 0xffffffff) = false := beq_eq_false_iff_ne.mpr hmin
        have hpred : (w.toNat : ℤ) = (w - 1).toNat + 1 := by
          have hzero : (w - 1).toNat ≠ 2 ^ 32 - 1 := fun h => hmin (UInt32.toNat_inj.mp h)
          omega
        rw [if_neg (by simp [hne]), cast_wordsValue_cons, hpred, add_right_comm, add_sub_cancel_right]

theorem wordsValue_bitNot (pn : List UInt32) :
    (wordsValue (pn.map (~~~ ·)) : ℤ) ≡ -wordsValue pn - 1 [ZMOD (2 ^ 32) ^ pn.length] := by
  induction pn with
  | nil => exact Int.modEq_one
  | cons w pn ih =>
      have hlt := w.toNat_lt
      have hnot : (~~~w).toNat = 2 ^ 32 - 1 - w.toNat := by simp
      have hneg : -((w.toNat : ℤ) + 2 ^ 32 * wordsValue pn) - 1
          = (~~~w).toNat + 2 ^ 32 * (-wordsValue pn - 1) := by
        omega
      rw [List.map_cons, cast_wordsValue_cons, cast_wordsValue_cons, List.length_cons, hneg]
      exact Lib.modEq_cons ih _

/-- One round: the sum fits into 64 bits, and the carry is 0 or 1 again. -/
theorem add_round {carry : UInt64} (hcarry : carry.toNat ≤ 1) (p q : UInt32) {n : UInt64}
    (hn : n = carry + p.toUInt64 + q.toUInt64) :
    (n >>> 32).toNat ≤ 1 ∧ carry.toNat + p.toNat + q.toNat
      = (n &&& 0xffffffff).toUInt32.toNat + 2 ^ 32 * (n >>> 32).toNat := by
  have hp := p.toNat_lt
  have hq := q.toNat_lt
  have hsum : n.toNat = carry.toNat + p.toNat + q.toNat := by
    rw [hn]
    simp only [UInt64.toNat_add, UInt32.toNat_toUInt64]
    omega
  have hlow : (n &&& 0xffffffff).toUInt32.toNat = n.toNat % 2 ^ 32 := by
    rw [UInt64.toNat_toUInt32, UInt64.toNat_and, show UInt64.toNat 0xffffffff = 2 ^ 32 - 1 from rfl,
      Nat.and_two_pow_sub_one_eq_mod, Nat.mod_mod]
  have hhigh : (n >>> 32).toNat = n.toNat / 2 ^ 32 := by
    rw [UInt64.toNat_shiftRight, Nat.shiftRight_eq_div_pow]
    rfl
  rw [hlow, hhigh, hsum]
  omega

theorem wordsValue_addLoop {pn qn : List UInt32} (h : pn.length = qn.length) {carry : UInt64}
    (hcarry : carry.toNat ≤ 1) :
    (wordsValue (addLoop carry pn qn) : ℤ) ≡ carry.toNat + wordsValue pn + wordsValue qn
      [ZMOD (2 ^ 32) ^ pn.length] := by
  induction pn generalizing carry qn with
  | nil =>
      rw [List.length_nil] at h
      rw [List.length_eq_zero_iff.mp h.symm]
      exact Int.modEq_one
  | cons p pn ih =>
      cases qn with
      | nil => cases h
      | cons q qn =>
          obtain ⟨hcarry', hround⟩ := add_round hcarry p q rfl
          have hrest := ih (Nat.succ.inj h) hcarry'
          rw [addLoop, cast_wordsValue_cons, cast_wordsValue_cons, cast_wordsValue_cons,
            List.length_cons]
          generalize carry + p.toUInt64 + q.toUInt64 = n at hround hrest ⊢
          have hsum : (carry.toNat : ℤ) + (p.toNat + (2 ^ 32 : ℤ) * wordsValue pn)
              + (q.toNat + (2 ^ 32 : ℤ) * wordsValue qn) = (n &&& 0xffffffff).toUInt32.toNat
                + (2 ^ 32 : ℤ) * ((n >>> 32).toNat + wordsValue pn + wordsValue qn) := by
            omega
          rw [hsum]
          exact Lib.modEq_cons hrest _

/-! ## Sums and differences -/

section

variable (a b : BaseUint WIDTH)

theorem modEq_of_words {pn : List UInt32} {width : pn.length = WIDTH} {z : ℤ}
    (h : (wordsValue pn : ℤ) ≡ z [ZMOD (2 ^ 32) ^ a.pn.length]) :
    ((⟨pn, width⟩ : BaseUint WIDTH).value : ℤ) ≡ z [ZMOD 2 ^ (32 * WIDTH)] := by
  rw [a.width, ← pow_mul] at h
  exact h

theorem increment_modEq : (a.increment.value : ℤ) ≡ a.value + 1 [ZMOD 2 ^ (32 * WIDTH)] :=
  a.modEq_of_words (wordsValue_incrementLoop a.pn)

theorem decrement_modEq : (a.decrement.value : ℤ) ≡ a.value - 1 [ZMOD 2 ^ (32 * WIDTH)] :=
  a.modEq_of_words (wordsValue_decrementLoop a.pn)

theorem bitNot_modEq : (a.bitNot.value : ℤ) ≡ -a.value - 1 [ZMOD 2 ^ (32 * WIDTH)] :=
  a.modEq_of_words (wordsValue_bitNot a.pn)

theorem neg_modEq : (a.neg.value : ℤ) ≡ -a.value [ZMOD 2 ^ (32 * WIDTH)] :=
  calc (a.neg.value : ℤ) ≡ a.bitNot.value + 1 [ZMOD 2 ^ (32 * WIDTH)] := a.bitNot.increment_modEq
    _ ≡ -a.value - 1 + 1 [ZMOD 2 ^ (32 * WIDTH)] := a.bitNot_modEq.add_right 1
    _ = -a.value := sub_add_cancel _ _

theorem add_modEq : ((a.add b).value : ℤ) ≡ a.value + b.value [ZMOD 2 ^ (32 * WIDTH)] := by
  have h := wordsValue_addLoop (a.width.trans b.width.symm) (show UInt64.toNat 0 ≤ 1 by decide)
  rw [show ((UInt64.toNat 0 : ℕ) : ℤ) = 0 from rfl, zero_add] at h
  exact a.modEq_of_words h

theorem sub_modEq : ((a.sub b).value : ℤ) ≡ a.value - b.value [ZMOD 2 ^ (32 * WIDTH)] :=
  calc ((a.sub b).value : ℤ) ≡ a.value + b.neg.value [ZMOD 2 ^ (32 * WIDTH)] := a.add_modEq b.neg
    _ ≡ a.value + -b.value [ZMOD 2 ^ (32 * WIDTH)] := b.neg_modEq.add_left _
    _ = a.value - b.value := (sub_eq_add_neg _ _).symm

theorem pn_ofUint64 (n : Nat) (u : UInt64) :
    (ofUint64 (n + 2) u).pn = u.toUInt32 :: (u >>> 32).toUInt32 :: List.replicate n 0 := by
  show (List.range (n + 2)).map _ = _
  rw [List.range_succ_eq_map, List.range_succ_eq_map]
  simp [Function.comp_def, List.map_const']

/-- A `uint64` keeps its value when there are two words for it. -/
theorem value_ofUint64 (hW : 2 ≤ WIDTH) (u : UInt64) : (ofUint64 WIDTH u).value = u.toNat := by
  obtain ⟨n, rfl⟩ := Nat.exists_eq_add_of_le' hW
  have hlow : u.toUInt32.toNat = u.toNat % 2 ^ 32 := UInt64.toNat_toUInt32 u
  have hhigh : (u >>> 32).toUInt32.toNat = u.toNat / 2 ^ 32 := by
    have hlt := u.toNat_lt
    rw [UInt64.toNat_toUInt32, UInt64.toNat_shiftRight, Nat.shiftRight_eq_div_pow]
    exact Nat.mod_eq_of_lt (by simp; omega)
  rw [value, pn_ofUint64, wordsValue_cons, wordsValue_cons, wordsValue_replicate_zero, hlow, hhigh]
  omega

end

/-! ## Order -/

theorem orderLoop_less {pn qn : List UInt32} (h : pn.length = qn.length) {atEnd : Bool} :
    orderLoop (· < ·) atEnd pn qn = true ↔
      Lib.value (2 ^ 32) (pn.map UInt32.toNat) < Lib.value (2 ^ 32) (qn.map UInt32.toNat) ∨
        atEnd = true ∧
          Lib.value (2 ^ 32) (pn.map UInt32.toNat) = Lib.value (2 ^ 32) (qn.map UInt32.toNat) := by
  induction pn generalizing qn with
  | nil =>
      rw [List.length_eq_zero_iff.mp h.symm]
      simp [orderLoop]
  | cons p pn ih =>
      cases qn with
      | nil => cases h
      | cons q qn =>
          have hlen := Nat.succ.inj h
          have hlen' : (pn.map UInt32.toNat).length = (qn.map UInt32.toNat).length := by
            rw [List.length_map, List.length_map, hlen]
          have hlow := toNat_words_lt pn
          have hlow' := toNat_words_lt qn
          rw [orderLoop, List.map_cons, List.map_cons]
          rcases lt_trichotomy p.toNat q.toNat with hlt | heq | hgt
          · have hvalue := (Lib.value_cons_lt_cons (by decide) hlow hlow' hlen').mpr (.inl hlt)
            rw [if_pos (decide_eq_true (UInt32.lt_iff_toNat_lt.mpr hlt))]
            exact iff_of_true rfl (.inl hvalue)
          · cases UInt32.toNat_inj.mp heq
            have hirrefl : decide (p < p) ≠ true := by simp
            rw [if_neg hirrefl, if_neg hirrefl, ih hlen, Lib.value_cons, Lib.value_cons, hlen',
              Nat.add_lt_add_iff_left, Nat.add_left_cancel_iff]
          · have hvalue := (Lib.value_cons_lt_cons (by decide) hlow' hlow hlen'.symm).mpr (.inl hgt)
            rw [if_neg (by simpa [UInt32.le_iff_toNat_le] using hgt.le),
              if_pos (decide_eq_true (UInt32.lt_iff_toNat_lt.mpr hgt))]
            refine iff_of_false Bool.false_ne_true ?_
            rintro (hless | ⟨-, heq⟩)
            · exact absurd hless hvalue.not_gt
            · exact absurd heq hvalue.ne'

/-- The order operators that look for a greater word first are the others the other way round. -/
theorem orderLoop_greater (atEnd : Bool) (pn qn : List UInt32) :
    orderLoop (· > ·) atEnd pn qn = orderLoop (· < ·) atEnd qn pn := by
  induction pn generalizing qn with
  | nil => cases qn <;> rfl
  | cons p pn ih =>
      cases qn with
      | nil => rfl
      | cons q qn => rw [orderLoop, orderLoop, ih]

theorem eqLoop_iff {pn qn : List UInt32} (h : pn.length = qn.length) :
    eqLoop pn qn = true ↔ pn = qn := by
  induction pn generalizing qn with
  | nil => simp [eqLoop, List.length_eq_zero_iff.mp h.symm]
  | cons p pn ih =>
      cases qn with
      | nil => cases h
      | cons q qn =>
          rw [eqLoop, List.cons_eq_cons, ← ih (Nat.succ.inj h)]
          by_cases hpq : p = q <;> simp [hpq]

section

variable {a b : BaseUint WIDTH}

theorem value_eq_reverse (a : BaseUint WIDTH) :
    a.value = Lib.value (2 ^ 32) (a.pn.reverse.map UInt32.toNat) := by
  rw [Lib.value_eq_ofDigits, List.map_reverse, List.reverse_reverse]
  rfl

theorem length_reverse_pn (a b : BaseUint WIDTH) : a.pn.reverse.length = b.pn.reverse.length := by
  rw [List.length_reverse, List.length_reverse, a.width, b.width]

theorem lt_iff : a.lt b = true ↔ a.value < b.value := by
  rw [lt, orderLoop_less (length_reverse_pn a b), ← value_eq_reverse, ← value_eq_reverse]
  simp

theorem le_iff : a.le b = true ↔ a.value ≤ b.value := by
  rw [le, orderLoop_less (length_reverse_pn a b), ← value_eq_reverse, ← value_eq_reverse,
    Nat.le_iff_lt_or_eq]
  simp

theorem gt_iff : a.gt b = true ↔ a.value > b.value := by
  rw [gt, orderLoop_greater]
  exact lt_iff

theorem ge_iff : a.ge b = true ↔ a.value ≥ b.value := by
  rw [ge, orderLoop_greater]
  exact le_iff

theorem eq_iff : a.eq b = true ↔ a.value = b.value := by
  rw [eq, eqLoop_iff (a.width.trans b.width.symm), value_inj, BaseUint.ext_iff]

theorem ne_iff : a.ne b = true ↔ a.value ≠ b.value := by
  rw [ne, Bool.not_eq_true', Bool.eq_false_iff, ne_eq, ne_eq, eq_iff]

theorem eqUint64_iff (hW : 2 ≤ WIDTH) {u : UInt64} : a.eqUint64 u = true ↔ a.value = u.toNat := by
  rw [← value_ofUint64 hW, value_inj, BaseUint.ext_iff]
  obtain ⟨n, rfl⟩ := Nat.exists_eq_add_of_le' hW
  obtain ⟨pn, hpn⟩ := a
  match pn, hpn with
  | x :: y :: rest, hpn =>
      have hlen : rest.length = n := by simpa using hpn
      rw [pn_ofUint64]
      unfold eqUint64 word
      simp only [List.cons_eq_cons, List.eq_replicate_iff, hlen, true_and]
      by_cases hx : x = u.toUInt32 <;> by_cases hy : y = (u >>> 32).toUInt32 <;> simp [hx, hy]

theorem neUint64_iff (hW : 2 ≤ WIDTH) {u : UInt64} : a.neUint64 u = true ↔ a.value ≠ u.toNat := by
  rw [neUint64, Bool.not_eq_true', Bool.eq_false_iff, ne_eq, ne_eq, eqUint64_iff hW]

end

/-! ## Shifts -/

section

variable {a r : BaseUint WIDTH} {k i t : Nat} {shift : UInt32}

/-- Bit `t` is a bit of word `t / 32`. -/
theorem testBit_value (a : BaseUint WIDTH) (t : Nat) :
    a.value.testBit t = (a.word (t / 32)).toNat.testBit (t % 32) := by
  rw [value, wordsValue, Lib.testBit_ofDigits (by decide) (toNat_words_lt a.pn), word]
  congr 1
  rw [List.getD_eq_getElem?_getD, List.getD_eq_getElem?_getD, List.getElem?_map]
  cases a.pn[t / 32]? <;> rfl

theorem word_orWord (r : BaseUint WIDTH) (i : Nat) (w : UInt32) (j : Nat) :
    (r.orWord i w).word j = if j = i ∧ i < WIDTH then r.word j ||| w else r.word j := by
  unfold word orWord
  rw [List.getD_eq_getElem?_getD, List.getD_eq_getElem?_getD, List.getElem?_modify]
  by_cases hj : j = i
  · subst hj
    by_cases hlt : j < WIDTH
    · rw [List.getElem?_eq_getElem (hlt.trans_eq r.width.symm), if_pos ⟨rfl, hlt⟩]
      simp
    · rw [List.getElem?_eq_none (r.width.trans_le (not_lt.mp hlt)), if_neg (fun h => hlt h.2)]
      rfl
  · rw [if_neg (fun h => hj h.1)]
    cases r.pn[j]? <;> simp [Ne.symm hj]

theorem testBit_orWord (r : BaseUint WIDTH) (i : Nat) (w : UInt32) (t : Nat) :
    (r.orWord i w).value.testBit t = true ↔ r.value.testBit t = true ∨
      t / 32 = i ∧ i < WIDTH ∧ w.toNat.testBit (t % 32) = true := by
  rw [testBit_value, testBit_value, word_orWord]
  split
  · next h => simp [h]
  · next h => simp; tauto

theorem testBit_orWord_if {c : Prop} [Decidable c] (r : BaseUint WIDTH) (i : Nat) (w : UInt32)
    (t : Nat) : (if c then r.orWord i w else r).value.testBit t = true ↔ r.value.testBit t = true ∨
      c ∧ t / 32 = i ∧ i < WIDTH ∧ w.toNat.testBit (t % 32) = true := by
  split
  · next h => rw [testBit_orWord, and_iff_right h]
  · next h => simp [h]

theorem lt_of_testBit_word {w : UInt32} {j : Nat} (h : w.toNat.testBit j = true) : j < 32 := by
  by_contra hge
  have hlt : w.toNat < 2 ^ j := w.toNat_lt.trans_le (Nat.pow_le_pow_right (by decide) (not_lt.mp hge))
  rw [Nat.testBit_lt_two_pow hlt] at h
  cases h

theorem testBit_word_shiftLeft {w : UInt32} (hs : shift.toNat < 32) {j : Nat} (hj : j < 32) :
    (w <<< shift).toNat.testBit j = true ↔
      shift.toNat ≤ j ∧ w.toNat.testBit (j - shift.toNat) = true := by
  rw [UInt32.toNat_shiftLeft, Nat.mod_eq_of_lt hs, Nat.testBit_mod_two_pow, Nat.testBit_shiftLeft]
  simp [hj]

theorem testBit_word_shiftRight {w : UInt32} (hs : shift.toNat < 32) {j : Nat} :
    (w >>> shift).toNat.testBit j = w.toNat.testBit (shift.toNat + j) := by
  rw [UInt32.toNat_shiftRight, Nat.mod_eq_of_lt hs, Nat.testBit_shiftRight]

theorem toNat_thirtytwo_sub (hs : shift.toNat < 32) : (32 - shift).toNat = 32 - shift.toNat :=
  UInt32.toNat_sub_of_le _ _ (UInt32.le_iff_toNat_le.mpr hs.le)

theorem toNat_ne_zero (h : shift ≠ 0) : shift.toNat ≠ 0 := fun h' => h (UInt32.toNat_inj.mp h')

/-- A round moves the bits of one word. -/
theorem testBit_shiftLeftRound (hs : shift.toNat < 32) (r : BaseUint WIDTH) :
    (shiftLeftRound a k shift r i).value.testBit t = true ↔ r.value.testBit t = true ∨
      t < 32 * WIDTH ∧ 32 * k + shift.toNat ≤ t ∧ (t - (32 * k + shift.toNat)) / 32 = i ∧
        a.value.testBit (t - (32 * k + shift.toNat)) = true := by
  have hsub := toNat_thirtytwo_sub hs
  have hmod : t % 32 < 32 := Nat.mod_lt _ (by decide)
  unfold shiftLeftRound
  dsimp only
  rw [testBit_orWord_if, testBit_orWord_if, or_assoc]
  refine or_congr_right ⟨?_, ?_⟩
  · rintro (⟨⟨-, hne⟩, hword, hlt, hbit⟩ | ⟨-, hword, hlt, hbit⟩)
    · -- the high bits of the word, in the next one
      have hpos := toNat_ne_zero hne
      rw [testBit_word_shiftRight (by omega), hsub] at hbit
      have hlow := lt_of_testBit_word hbit
      refine ⟨by omega, by omega, by omega, ?_⟩
      rw [testBit_value, show (t - (32 * k + shift.toNat)) / 32 = i by omega,
        show (t - (32 * k + shift.toNat)) % 32 = 32 - shift.toNat + t % 32 by omega]
      exact hbit
    · -- the low bits
      obtain ⟨hle, hbit⟩ := (testBit_word_shiftLeft hs hmod).mp hbit
      refine ⟨by omega, by omega, by omega, ?_⟩
      rw [testBit_value, show (t - (32 * k + shift.toNat)) / 32 = i by omega,
        show (t - (32 * k + shift.toNat)) % 32 = t % 32 - shift.toNat by omega]
      exact hbit
  · rintro ⟨hlt, hle, hi, hbit⟩
    rw [testBit_value, hi] at hbit
    by_cases hword : t / 32 = i + k
    · refine .inr ⟨by omega, hword, by omega, (testBit_word_shiftLeft hs hmod).mpr ⟨by omega, ?_⟩⟩
      rw [show t % 32 - shift.toNat = (t - (32 * k + shift.toNat)) % 32 by omega]
      exact hbit
    · have hne : shift ≠ 0 := by
        rintro rfl
        rw [UInt32.toNat_zero] at hi hle
        omega
      have hpos := toNat_ne_zero hne
      refine .inl ⟨⟨by omega, hne⟩, by omega, by omega, ?_⟩
      rw [testBit_word_shiftRight (by omega), hsub,
        show 32 - shift.toNat + t % 32 = (t - (32 * k + shift.toNat)) % 32 by omega]
      exact hbit

theorem testBit_shiftRightRound (hs : shift.toNat < 32) (hi : i < WIDTH) (r : BaseUint WIDTH) :
    (shiftRightRound a k shift r i).value.testBit t = true ↔ r.value.testBit t = true ∨
      (t + (32 * k + shift.toNat)) / 32 = i ∧
        a.value.testBit (t + (32 * k + shift.toNat)) = true := by
  have hsub := toNat_thirtytwo_sub hs
  have hmod : t % 32 < 32 := Nat.mod_lt _ (by decide)
  unfold shiftRightRound
  dsimp only
  rw [testBit_orWord_if, testBit_orWord_if, or_assoc]
  refine or_congr_right ⟨?_, ?_⟩
  · rintro (⟨⟨hle, hne⟩, hword, hlt, hbit⟩ | ⟨hle, hword, hlt, hbit⟩)
    · -- the low bits of the word, in the one before
      have hpos := toNat_ne_zero hne
      obtain ⟨hle', hbit⟩ := (testBit_word_shiftLeft (by omega) hmod).mp hbit
      rw [hsub] at hle' hbit
      refine ⟨by omega, ?_⟩
      rw [testBit_value, show (t + (32 * k + shift.toNat)) / 32 = i by omega,
        show (t + (32 * k + shift.toNat)) % 32 = t % 32 - (32 - shift.toNat) by omega]
      exact hbit
    · -- the high bits
      rw [testBit_word_shiftRight hs] at hbit
      have hlow := lt_of_testBit_word hbit
      refine ⟨by omega, ?_⟩
      rw [testBit_value, show (t + (32 * k + shift.toNat)) / 32 = i by omega,
        show (t + (32 * k + shift.toNat)) % 32 = shift.toNat + t % 32 by omega]
      exact hbit
  · rintro ⟨hfrom, hbit⟩
    rw [testBit_value, hfrom] at hbit
    by_cases hword : t / 32 = i - k
    · refine .inr ⟨by omega, hword, by omega, ?_⟩
      rw [testBit_word_shiftRight hs,
        show shift.toNat + t % 32 = (t + (32 * k + shift.toNat)) % 32 by omega]
      exact hbit
    · have hne : shift ≠ 0 := by
        rintro rfl
        rw [UInt32.toNat_zero] at hfrom
        omega
      have hpos := toNat_ne_zero hne
      refine .inl ⟨⟨by omega, hne⟩, by omega, by omega,
        (testBit_word_shiftLeft (by omega) hmod).mpr ⟨by omega, ?_⟩⟩
      rw [hsub, show t % 32 - (32 - shift.toNat) = (t + (32 * k + shift.toNat)) % 32 by omega]
      exact hbit

theorem testBit_zero (WIDTH t : Nat) : (zero WIDTH).value.testBit t = false := by
  rw [value, zero, wordsValue_replicate_zero, Nat.zero_testBit]

/-- The whole loop: a bit is set when one of the rounds brings it. -/
theorem testBit_rounds {round : BaseUint WIDTH → Nat → BaseUint WIDTH} {brings : Nat → Prop}
    (hround : ∀ r, ∀ i < WIDTH,
      (round r i).value.testBit t = true ↔ r.value.testBit t = true ∨ brings i) :
    ((List.range WIDTH).foldl round (zero WIDTH)).value.testBit t = true ↔
      ∃ i < WIDTH, brings i := by
  have hloop : ∀ m ≤ WIDTH, ((List.range m).foldl round (zero WIDTH)).value.testBit t = true ↔
      ∃ i < m, brings i := by
    intro m
    induction m with
    | zero =>
        intro _
        rw [List.range_zero, List.foldl_nil, testBit_zero]
        simp
    | succ m ih =>
        intro hm
        rw [List.range_succ, List.foldl_append, List.foldl_cons, List.foldl_nil,
          hround _ m (by omega), ih (by omega), Nat.exists_lt_succ_right]
  exact hloop WIDTH le_rfl

theorem toNat_div_add_mod (shift : UInt32) :
    32 * (shift / 32).toNat + (shift % 32).toNat = shift.toNat := by
  rw [UInt32.toNat_div, UInt32.toNat_mod]
  exact Nat.div_add_mod _ _

theorem toNat_mod_lt (shift : UInt32) : (shift % 32).toNat < 32 := by
  rw [UInt32.toNat_mod]
  exact Nat.mod_lt _ (by decide)

theorem value_shiftLeft (a : BaseUint WIDTH) (shift : UInt32) :
    (a.shiftLeft shift).value = a.value * 2 ^ shift.toNat % 2 ^ (32 * WIDTH) := by
  refine Nat.eq_of_testBit_eq fun t => Bool.eq_iff_iff.mpr ?_
  have hloop := testBit_rounds (t := t) fun r i (_ : i < WIDTH) =>
    testBit_shiftLeftRound (a := a) (k := (shift / 32).toNat) (i := i) (toNat_mod_lt shift) r
  rw [toNat_div_add_mod] at hloop
  rw [shiftLeft, hloop, ← Nat.shiftLeft_eq, Nat.testBit_mod_two_pow, Nat.testBit_shiftLeft,
    Bool.and_eq_true, Bool.and_eq_true, decide_eq_true_iff, decide_eq_true_iff]
  constructor
  · rintro ⟨i, -, hlt, hle, -, hbit⟩
    exact ⟨hlt, hle, hbit⟩
  · rintro ⟨hlt, hle, hbit⟩
    exact ⟨_, by omega, hlt, hle, rfl, hbit⟩

theorem value_shiftRight (a : BaseUint WIDTH) (shift : UInt32) :
    (a.shiftRight shift).value = a.value / 2 ^ shift.toNat := by
  refine Nat.eq_of_testBit_eq fun t => Bool.eq_iff_iff.mpr ?_
  have hloop := testBit_rounds (t := t) fun r i (hi : i < WIDTH) =>
    testBit_shiftRightRound (a := a) (k := (shift / 32).toNat) (toNat_mod_lt shift) hi r
  rw [toNat_div_add_mod] at hloop
  rw [shiftRight, hloop, Nat.testBit_div_two_pow]
  constructor
  · rintro ⟨i, -, -, hbit⟩
    exact hbit
  · intro hbit
    -- a bit that is set is one of a word
    have hlt : t + shift.toNat < 32 * WIDTH := by
      by_contra hge
      have hlt' := a.value_lt.trans_le (Nat.pow_le_pow_right (by decide) (not_lt.mp hge))
      rw [Nat.testBit_lt_two_pow hlt'] at hbit
      cases hbit
    exact ⟨_, by omega, rfl, hbit⟩

end

end BaseUint

end ShinyCoin

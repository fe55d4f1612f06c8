import ShinyCoin.Script.Script
import Mathlib.Data.Nat.Digits.Lemmas
import Mathlib.Data.Nat.Size
import Mathlib.Tactic.Linarith

/-!
# Numbers on the stack

The stack holds byte vectors. A number is one in sign and magnitude, little endian, the sign in the
top bit of the last byte; `CBigNum` reads it from and writes it to OpenSSL's format. A vector is
true unless all of its bytes are zero, but for a sign.
-/

namespace ShinyCoin

namespace CBigNum

/-- `setvch` -/
def setvch (vch : Bytes) : ℤ :=
  match vch.reverse with
  | [] => 0
  | top :: low =>
      let n := Lib.ofLE (low.reverse ++ [top &&& 0x7f])
      if 0x80 ≤ top then -(n : ℤ) else n

/-- `getvch`: the magnitude without leading zeros, and a byte more where the sign has no room. -/
def getvch (bn : ℤ) : Bytes :=
  let vch := (Nat.digits 256 bn.natAbs).map UInt8.ofNat
  let sign : UInt8 := if bn < 0 then 0x80 else 0
  match vch.reverse with
  | [] => []
  | top :: low => if 0x80 ≤ top then vch ++ [sign] else low.reverse ++ [top ||| sign]

/-- `getint`: what is out of the range of an `int` is cut off at its ends. -/
def getint (bn : ℤ) : ℤ :=
  if 0 ≤ bn then min bn (2 ^ 31 - 1) else if bn < -(2 ^ 31 - 1) then -2 ^ 31 else bn

/-- Digits as bytes. -/
theorem ofLE_digits (m : Nat) : Lib.ofLE ((Nat.digits 256 m).map UInt8.ofNat) = m := by
  have hbytes : ∀ l : List Nat, (∀ d ∈ l, d < 256) →
      Lib.ofLE (l.map UInt8.ofNat) = Nat.ofDigits 256 l := by
    intro l hl
    induction l with
    | nil => rfl
    | cons d l ih =>
        have hd : (UInt8.ofNat d).toNat = d := UInt8.toNat_ofNat_of_lt (hl d (by simp))
        simp only [List.map_cons, Lib.ofLE, hd, ih fun e he => hl e (by simp [he]), Nat.ofDigits_cons]
  rw [hbytes _ fun d hd => Nat.digits_lt_base (by decide) hd, Nat.ofDigits_digits]

/-- The length of a magnitude with room for a sign. -/
def mpiSize (m : Nat) : Nat := if m = 0 then 0 else m.size / 8 + 1

theorem toNat_or_sign {b : UInt8} (hb : b < 0x80) (fNegative : Prop) [Decidable fNegative] :
    (b ||| (if fNegative then 0x80 else 0)).toNat = b.toNat + if fNegative then 128 else 0 := by
  rw [UInt8.lt_iff_toNat_lt] at hb
  have h128 : UInt8.toNat 128 = 2 ^ 7 := rfl
  rw [h128] at hb
  split
  · rw [UInt8.toNat_or, h128, Nat.or_comm]
    have := Nat.shiftLeft_add_eq_or_of_lt hb 1
    simp only [Nat.shiftLeft_eq, one_mul] at this
    omega
  · simp

/-- `getvch` is as short as it can be, and has the sign on top of the magnitude. -/
theorem getvch_spec (bn : ℤ) : (getvch bn).length = mpiSize bn.natAbs ∧
    Lib.ofLE (getvch bn) = bn.natAbs
      + if bn < 0 then 2 ^ (8 * (getvch bn).length - 1) else 0 := by
  generalize hvch : (Nat.digits 256 bn.natAbs).map UInt8.ofNat = vch
  have hvalue : Lib.ofLE vch = bn.natAbs := by rw [← hvch, ofLE_digits]
  have hlt := Lib.ofLE_lt vch
  unfold getvch
  simp only [hvch]
  cases hrev : vch.reverse with
  | nil =>
      rw [List.reverse_eq_nil_iff] at hrev
      have hzero : bn.natAbs = 0 := by
        rw [← hvalue, hrev]
        rfl
      have hneg : ¬ bn < 0 := by omega
      simp [mpiSize, hzero, hneg, Lib.ofLE]
  | cons top low =>
      have hsplit : vch = low.reverse ++ [top] := by
        rw [← List.reverse_reverse vch, hrev, List.reverse_cons]
      have htop := top.toNat_lt
      have hhigh : Lib.ofLE vch = Lib.ofLE low.reverse + 256 ^ low.length * top.toNat := by
        rw [hsplit, Lib.ofLE_append]
        simp [Lib.ofLE]
      have hlow := Lib.ofLE_lt low.reverse
      rw [List.length_reverse] at hlow
      -- the top digit is not zero
      have hne : bn.natAbs ≠ 0 := by
        intro h
        rw [h, Nat.digits_zero] at hvch
        rw [← hvch] at hrev
        cases hrev
      have hpow : (256 : Nat) ^ low.length = 2 ^ (8 * low.length) := by
        rw [pow_mul]
        norm_num
      have hpos : 0 < top.toNat := by
        have hdigits : (Nat.digits 256 bn.natAbs).length = low.length + 1 := by
          have hlen := congrArg List.length hsplit
          simpa [← hvch] using hlen
        have hle := Nat.base_pow_length_digits_le 256 bn.natAbs (by decide) hne
        rw [hdigits, pow_succ, ← hvalue, hhigh] at hle
        by_contra hzero
        rw [Nat.eq_zero_of_not_pos hzero, Nat.mul_zero, Nat.add_zero] at hle
        omega
      rw [hpow] at hlow hhigh
      rw [mpiSize, if_neg hne]
      dsimp only
      split
      · next hbig =>
        rw [UInt8.le_iff_toNat_le, show UInt8.toNat 128 = 128 from rfl] at hbig
        have hsize : bn.natAbs.size = 8 * low.length + 8 := by
          apply le_antisymm
          · rw [Nat.size_le, pow_add, ← hvalue, hhigh]
            nlinarith
          · show 8 * low.length + 7 < _
            rw [Nat.lt_size, pow_add, ← hvalue, hhigh]
            nlinarith
        have hlen : vch.length = low.length + 1 := by simp [hsplit]
        refine ⟨by simp only [List.length_append, hlen, hsize, List.length_singleton]; omega, ?_⟩
        rw [Lib.ofLE_append, hvalue]
        simp only [Lib.ofLE, List.length_append, hlen, List.length_singleton]
        split
        · rw [pow_succ, hpow, show 8 * (low.length + 1 + 1) - 1 = 8 * low.length + 15 by omega,
            pow_add, show UInt8.toNat 128 = 128 from rfl]
          ring
        · simp
      · next hsmall =>
        have hsmall' := hsmall
        rw [UInt8.le_iff_toNat_le, show UInt8.toNat 128 = 128 from rfl] at hsmall'
        have hsize : bn.natAbs.size / 8 = low.length := by
          have hle : bn.natAbs.size ≤ 8 * low.length + 7 := by
            rw [Nat.size_le, pow_add, ← hvalue, hhigh]
            nlinarith
          have hgt : 8 * low.length < bn.natAbs.size := by
            rw [Nat.lt_size, ← hvalue, hhigh]
            nlinarith
          omega
        refine ⟨by simp [hsize], ?_⟩
        rw [Lib.ofLE_append, ← hvalue, hhigh, List.length_append, List.length_reverse]
        simp only [Lib.ofLE, toNat_or_sign (UInt8.not_le.mp hsmall), List.length_singleton, hpow]
        rw [show 8 * (low.length + 1) - 1 = 8 * low.length + 7 by omega, pow_add]
        split
        · ring
        · ring

theorem toNat_and_low (b : UInt8) : (b &&& 0x7f).toNat = b.toNat % 128 := by
  rw [UInt8.toNat_and, show UInt8.toNat 0x7f = 2 ^ 7 - 1 from rfl, Nat.and_two_pow_sub_one_eq_mod]

/-- The number a vector stands for, from its last byte. -/
theorem setvch_reverse_cons (top : UInt8) (low : Bytes) : setvch (top :: low).reverse =
    (if 128 ≤ top.toNat then -1 else 1)
      * ((Lib.ofLE low.reverse + 256 ^ low.length * (top.toNat % 128) : Nat) : ℤ) := by
  unfold setvch
  rw [List.reverse_reverse]
  simp only [Lib.ofLE_append, Lib.ofLE, toNat_and_low, List.length_reverse, UInt8.le_iff_toNat_le,
    show UInt8.toNat 128 = 128 from rfl]
  split <;> simp

theorem setvch_singleton {b : UInt8} (h : b < 0x80) : setvch [b] = b.toNat := by
  have hlow : b &&& 0x7f = b := by
    apply UInt8.toNat_inj.mp
    rw [toNat_and_low]
    exact Nat.mod_eq_of_lt h
  unfold setvch
  simp [hlow, Lib.ofLE, UInt8.not_le.mpr h]

theorem toNat_of_small {n : Nat} (h : n < 128) : (UInt8.ofNat n).toNat = n :=
  UInt8.toNat_ofNat_of_lt (lt_trans h (by decide))

theorem getvch_small {n : Nat} (hpos : 0 < n) (h : n < 128) : getvch n = [UInt8.ofNat n] := by
  have hdigits : Nat.digits 256 n = [n] := Nat.digits_of_lt 256 n (by omega) (by omega)
  have htop : ¬ (0x80 : UInt8) ≤ UInt8.ofNat n := by
    rw [UInt8.not_le, UInt8.lt_iff_toNat_lt, toNat_of_small h]
    exact h
  have hneg : ¬ ((n : ℤ) < 0) := by omega
  unfold getvch
  simp [hdigits, htop, hneg]

theorem getint_of_small {n : Nat} (h : n < 128) : getint n = n := by
  unfold getint
  rw [if_pos (by omega)]
  omega

end CBigNum

/-- `CastToBigNum`; `none` where it throws. -/
def castToBigNum (vch : Bytes) : Option ℤ :=
  if 4 < vch.length then none
  -- "Get rid of extra leading zeros"
  else some (CBigNum.setvch (CBigNum.getvch (CBigNum.setvch vch)))

/-- `CastToBool`: "Can be negative zero" -/
def castToBool : Bytes → Bool
  | [] => false
  | [b] => b != 0 && b != 0x80
  | b :: vch => b != 0 || castToBool vch

/-- What a small number is pushed as reads back. -/
theorem castToBigNum_small {n : Nat} (hpos : 0 < n) (h : n < 128) :
    castToBigNum (CBigNum.getvch n) = some (n : ℤ) := by
  have hlt : UInt8.ofNat n < 0x80 := by
    rw [UInt8.lt_iff_toNat_lt, CBigNum.toNat_of_small h]
    exact h
  have hset : CBigNum.setvch [UInt8.ofNat n] = n := by
    rw [CBigNum.setvch_singleton hlt, CBigNum.toNat_of_small h]
  unfold castToBigNum
  rw [CBigNum.getvch_small hpos h, hset, CBigNum.getvch_small hpos h, hset]
  rfl

end ShinyCoin

import ShinyCoin.Core.BaseUint
import ShinyCoin.Core.Base58
import ShinyCoin.Lib.Reader

/-!
# Hexadecimal numbers

`GetHex` writes the bytes of the words from the last one on, two digits each. `SetHex` reads the digits
from the last one on, two for each byte, as long as there is room.
-/

namespace ShinyCoin

/-- `phexdigit`; what is not listed is 0. -/
def phexdigit (c : UInt8) : UInt8 :=
  let table : Bytes := List.replicate 48 0 ++ [0, 1, 2, 3, 4, 5, 6, 7, 8, 9]
    ++ List.replicate 7 0 ++ [0xa, 0xb, 0xc, 0xd, 0xe, 0xf]
    ++ List.replicate 26 0 ++ [0xa, 0xb, 0xc, 0xd, 0xe, 0xf]
  table.getD c.toNat 0

def hexDigit (d : Nat) : UInt8 := UInt8.ofNat (if d < 10 then 48 + d else 87 + d)

/-- `sprintf("%02x", c)` -/
def printByte (c : UInt8) : Bytes := [hexDigit (c.toNat / 16), hexDigit (c.toNat % 16)]

/-- The loop of `SetHex` over the digits, the last one first, with so much room in `pn`. -/
def setHexLoop : Bytes → Nat → Bytes
  | c :: c' :: psz, room + 1 => (phexdigit c ||| phexdigit c' <<< 4) :: setHexLoop psz room
  | [c], _ + 1 => [phexdigit c]
  | _, _ => []

namespace BaseUint

variable {WIDTH : Nat}

/-- `(unsigned char*)pn` -/
def bytes (a : BaseUint WIDTH) : Bytes := a.pn.flatMap fun w => Lib.toLE 4 w.toNat

/-- The number whose first bytes are given, the others being 0 -/
def ofBytes (WIDTH : Nat) (bytes : Bytes) : BaseUint WIDTH where
  pn := (List.range WIDTH).map fun i => UInt32.ofNat (Lib.ofLE ((bytes.drop (4 * i)).take 4))
  width := by rw [List.length_map, List.length_range]

/-- `GetHex`, with a padding that is not negative -/
def getHex (a : BaseUint WIDTH) (nPadding : Nat) : Bytes :=
  let str := a.bytes.reverse.flatMap printByte
  List.replicate (nPadding - str.length) 48 ++ str

def setHex (WIDTH : Nat) (str : Bytes) : BaseUint WIDTH :=
  let psz := (cstr str).dropWhile isspace
  let psz := match psz with
    | 48 :: c :: rest => if c == 120 || c == 88 then rest else psz
    | _ => psz
  let psz := psz.takeWhile fun c => phexdigit c != 0 || c == 48
  ofBytes WIDTH (setHexLoop psz.reverse (4 * WIDTH))

/-! ## Digits -/

/-- The digits are read as what they stand for, and are neither white space nor an `x`. -/
theorem hexDigit_spec : ∀ d < 16,
    phexdigit (hexDigit d) = UInt8.ofNat d ∧ (phexdigit (hexDigit d) != 0 || hexDigit d == 48) = true ∧
      hexDigit d ≠ 0 ∧ isspace (hexDigit d) = false ∧ hexDigit d ≠ 120 ∧ hexDigit d ≠ 88 := by
  decide

theorem or_shiftLeft_four : ∀ n < 256,
    UInt8.ofNat (n % 16) ||| UInt8.ofNat (n / 16) <<< 4 = UInt8.ofNat n := by
  decide +kernel

/-- A string of hexadecimal digits -/
def IsHex (str : Bytes) : Prop := ∀ c ∈ str, ∃ d < 16, c = hexDigit d

theorem isHex_getHex (a : BaseUint WIDTH) (nPadding : Nat) : IsHex (a.getHex nPadding) := by
  intro c hc
  rcases List.mem_append.mp hc with hc | hc
  · exact ⟨0, by decide, List.eq_of_mem_replicate hc⟩
  · obtain ⟨b, -, hb⟩ := List.mem_flatMap.mp hc
    have hlt := b.toNat_lt
    rcases List.mem_cons.mp hb with rfl | hb
    · exact ⟨_, by omega, rfl⟩
    · exact ⟨_, by omega, List.mem_singleton.mp hb⟩

/-- Nothing of a string of digits is skipped. -/
theorem setHex_of_isHex {str : Bytes} (h : IsHex str) :
    setHex WIDTH str = ofBytes WIDTH (setHexLoop str.reverse (4 * WIDTH)) := by
  have hspec : ∀ c ∈ str, (phexdigit c != 0 || c == 48) = true ∧ c ≠ 0 ∧ isspace c = false ∧
      c ≠ 120 ∧ c ≠ 88 := by
    intro c hc
    obtain ⟨d, hd, rfl⟩ := h c hc
    exact (hexDigit_spec d hd).2
  have hcstr : cstr str = str := cstr_eq_self.mpr fun h0 => (hspec 0 h0).2.1 rfl
  have hspace : str.dropWhile isspace = str := by
    rw [List.dropWhile_eq_self_iff]
    intro hlen
    simp [(hspec _ (List.getElem_mem hlen)).2.2.1]
  have hdigits : str.takeWhile (fun c => phexdigit c != 0 || c == 48) = str :=
    List.takeWhile_eq_self_iff.mpr fun c hc => (hspec c hc).1
  unfold setHex
  rw [hcstr, hspace]
  dsimp only
  split
  · next c rest =>
    obtain ⟨-, -, -, hx, hX⟩ := hspec c (by simp)
    rw [if_neg (by simp [hx, hX]), hdigits]
  · rw [hdigits]

/-! ## Bytes -/

/-- As many digits are read as there is room for. -/
theorem setHexLoop_bytes (bytes rest : Bytes) :
    setHexLoop (bytes.flatMap (fun c => (printByte c).reverse) ++ rest) bytes.length = bytes := by
  induction bytes with
  | nil =>
      rw [List.flatMap_nil, List.nil_append, List.length_nil]
      unfold setHexLoop
      split <;> trivial
  | cons c bytes ih =>
      have hlt := c.toNat_lt
      have hlow := (hexDigit_spec (c.toNat % 16) (by omega)).1
      have hhigh := (hexDigit_spec (c.toNat / 16) (by omega)).1
      show (phexdigit (hexDigit (c.toNat % 16)) ||| phexdigit (hexDigit (c.toNat / 16)) <<< 4)
        :: setHexLoop (bytes.flatMap (fun c => (printByte c).reverse) ++ rest) bytes.length = _
      rw [ih, hlow, hhigh, or_shiftLeft_four _ hlt, UInt8.ofNat_toNat]

theorem words_of_bytes (pn : List UInt32) :
    ((List.range pn.length).map fun i =>
      UInt32.ofNat (Lib.ofLE (((pn.flatMap fun w => Lib.toLE 4 w.toNat).drop (4 * i)).take 4))) = pn := by
  induction pn with
  | nil => rfl
  | cons w pn ih =>
      have hlen := Lib.length_toLE 4 w.toNat
      rw [List.length_cons, List.range_succ_eq_map, List.map_cons, List.map_map, List.flatMap_cons]
      refine List.cons_eq_cons.mpr ⟨?_, ?_⟩
      · rw [Nat.mul_zero, List.drop_zero, List.take_left' hlen, Lib.ofLE_toLE w.toNat_lt,
          UInt32.ofNat_toNat]
      · refine (List.map_congr_left fun i _ => ?_).trans ih
        rw [Function.comp_apply, Nat.mul_succ, Nat.add_comm, ← List.drop_drop, List.drop_left' hlen]

theorem ofBytes_bytes (a : BaseUint WIDTH) : ofBytes WIDTH a.bytes = a := by
  have h := words_of_bytes a.pn
  rw [a.width] at h
  exact BaseUint.ext h

theorem length_bytes (a : BaseUint WIDTH) : a.bytes.length = 4 * WIDTH := by
  have h : a.bytes.length = 4 * a.pn.length := by
    rw [bytes, List.length_flatMap]
    simp [Nat.mul_comm]
  rw [h, a.width]

/-- What `GetHex` writes `SetHex` reads back, however much it is padded. -/
theorem setHex_getHex (a : BaseUint WIDTH) (nPadding : Nat) : setHex WIDTH (a.getHex nPadding) = a := by
  have hread := setHexLoop_bytes a.bytes
    (List.replicate (nPadding - (a.bytes.reverse.flatMap printByte).length) 48)
  rw [length_bytes] at hread
  rw [setHex_of_isHex (isHex_getHex a nPadding), getHex]
  rw [List.reverse_append, List.reverse_replicate, List.reverse_flatMap, List.reverse_reverse]
  exact (congrArg (ofBytes WIDTH) hread).trans (ofBytes_bytes a)

/-! ## Everything together -/

/-- `base_uint` is arithmetic modulo `2 ^ BITS`, its order is the one of the integers, and what is
written in hexadecimal is read back. -/
theorem base_uint_arithmetic (hW : 2 ≤ WIDTH) (a b : BaseUint WIDTH) (u : UInt64) (shift : UInt32)
    (nPadding : Nat) :
    (((a.add b).value : ℤ) = (a.value + b.value) % 2 ^ (32 * WIDTH) ∧
      ((a.sub b).value : ℤ) = (a.value - b.value) % 2 ^ (32 * WIDTH) ∧
      ((a.addUint64 u).value : ℤ) = (a.value + u.toNat) % 2 ^ (32 * WIDTH) ∧
      ((a.subUint64 u).value : ℤ) = (a.value - u.toNat) % 2 ^ (32 * WIDTH) ∧
      (a.neg.value : ℤ) = (-a.value) % 2 ^ (32 * WIDTH) ∧
      (a.increment.value : ℤ) = (a.value + 1) % 2 ^ (32 * WIDTH) ∧
      (a.decrement.value : ℤ) = (a.value - 1) % 2 ^ (32 * WIDTH) ∧
      ((a.shiftLeft shift).value : ℤ) = (a.value * 2 ^ shift.toNat) % 2 ^ (32 * WIDTH) ∧
      ((a.shiftRight shift).value : ℤ) = (a.value / 2 ^ shift.toNat) % 2 ^ (32 * WIDTH)) ∧
    ((a.lt b = true ↔ a.value < b.value) ∧ (a.le b = true ↔ a.value ≤ b.value) ∧
      (a.gt b = true ↔ a.value > b.value) ∧ (a.ge b = true ↔ a.value ≥ b.value) ∧
      (a.eq b = true ↔ a.value = b.value) ∧ (a.ne b = true ↔ a.value ≠ b.value) ∧
      (a.eqUint64 u = true ↔ a.value = u.toNat) ∧ (a.neUint64 u = true ↔ a.value ≠ u.toNat)) ∧
    a.value < 2 ^ (32 * WIDTH) ∧ setHex WIDTH (a.getHex nPadding) = a := by
  refine ⟨⟨value_eq_emod (a.add_modEq b), value_eq_emod (a.sub_modEq b), ?_, ?_,
    value_eq_emod a.neg_modEq, value_eq_emod a.increment_modEq, value_eq_emod a.decrement_modEq, ?_, ?_⟩,
    ⟨lt_iff, le_iff, gt_iff, ge_iff, eq_iff, ne_iff, eqUint64_iff hW, neUint64_iff hW⟩, a.value_lt,
    a.setHex_getHex nPadding⟩
  · have h := a.add_modEq (ofUint64 WIDTH u)
    rw [value_ofUint64 hW] at h
    exact value_eq_emod h
  · have h := a.sub_modEq (ofUint64 WIDTH u)
    rw [value_ofUint64 hW] at h
    exact value_eq_emod h
  · rw [value_shiftLeft]
    push_cast
    rfl
  · have hlt := (Nat.div_le_self a.value (2 ^ shift.toNat)).trans_lt a.value_lt
    rw [value_shiftRight]
    exact_mod_cast (Nat.mod_eq_of_lt hlt).symm

/-- Below zero the numbers of 256 bits begin anew from above. -/
theorem base_uint_arithmetic_uint256 :
    (((ofUint64 8 3).sub (ofUint64 8 5)).value : ℤ) = 2 ^ 256 - 2 ∧
      (ofUint64 8 3).lt ((ofUint64 8 3).shiftLeft 255) = true ∧
      setHex 8 ((ofUint64 8 3).getHex 0) = ofUint64 8 3 := by
  obtain ⟨⟨-, hsub, -, -, -, -, -, hshift, -⟩, -, -, hhex⟩ :=
    base_uint_arithmetic (by decide) (ofUint64 8 3) (ofUint64 8 5) 0 255 0
  obtain ⟨-, ⟨hlt, -⟩, -⟩ :=
    base_uint_arithmetic (by decide) (ofUint64 8 3) ((ofUint64 8 3).shiftLeft 255) 0 0 0
  have hvalue : ∀ u : UInt64, (ofUint64 8 u).value = u.toNat := value_ofUint64 (by decide)
  refine ⟨?_, hlt.mpr ?_, hhex⟩
  · rw [hsub, hvalue, hvalue]
    rfl
  · zify
    rw [hshift, hvalue]
    decide

end BaseUint

end ShinyCoin

import ShinyCoin.Script.Number

/-!
# The format of numbers

A byte vector stands for a number in sign and magnitude. A number has many vectors, one of which is
the shortest; `getvch` writes that one. Under it lies OpenSSL's MPI format, a length and the bytes with
the highest first: `setvch` and `getvch` turn the bytes round, `setint64` writes them one by one.
-/

namespace ShinyCoin

namespace CBigNum

/-! ## The MPI format -/

/-- What the bytes of an MPI denote, the highest first; its top bit is the sign. -/
def mpiNumber : Bytes → ℤ
  | [] => 0
  | top :: low =>
      let n := Lib.ofLE (low.reverse ++ [top &&& 0x7f])
      if 0x80 ≤ top then -(n : ℤ) else n

/-- Four bytes, the highest first -/
def mpiLength (nSize : Nat) : Bytes := (Lib.toLE 4 nSize).reverse

/-- `BN_mpi2bn`; `none` where the length is not that of the bytes. -/
def BN_mpi2bn (d : Bytes) : Option ℤ :=
  if d.length < 4 then none
  else if Lib.ofLE (d.take 4).reverse + 4 ≠ d.length then none
  else some (mpiNumber (d.drop 4))

/-- `BN_bn2mpi`: a byte more where the sign has no room -/
def BN_bn2mpi (bn : ℤ) : Bytes :=
  let sign : UInt8 := if bn < 0 then 0x80 else 0
  let bytes := match ((Nat.digits 256 bn.natAbs).map UInt8.ofNat).reverse with
    | [] => []
    | top :: low => if 0x80 ≤ top then sign :: top :: low else (top ||| sign) :: low
  mpiLength bytes.length ++ bytes

theorem length_mpiLength (nSize : Nat) : (mpiLength nSize).length = 4 := by
  rw [mpiLength, List.length_reverse, Lib.length_toLE]

theorem drop_mpiLength (nSize : Nat) (bytes : Bytes) : (mpiLength nSize ++ bytes).drop 4 = bytes := by
  rw [← length_mpiLength nSize, List.drop_left]

theorem BN_mpi2bn_append {bytes : Bytes} (h : bytes.length < 2 ^ 32) :
    BN_mpi2bn (mpiLength bytes.length ++ bytes) = some (mpiNumber bytes) := by
  have hlen := length_mpiLength bytes.length
  have htake : (mpiLength bytes.length ++ bytes).take 4 = mpiLength bytes.length := by
    rw [← hlen, List.take_left]
  have hsize : Lib.ofLE (mpiLength bytes.length).reverse = bytes.length := by
    rw [mpiLength, List.reverse_reverse, Lib.ofLE_toLE h]
  rw [BN_mpi2bn, htake, drop_mpiLength, hsize, if_neg, if_neg]
  · rw [List.length_append, hlen, Nat.add_comm]
    simp
  · rw [List.length_append, hlen]
    omega

theorem setvch_eq_mpiNumber (vch : Bytes) : setvch vch = mpiNumber vch.reverse := by
  unfold setvch mpiNumber
  cases vch.reverse <;> rfl

/-- `setvch` as the code has it: the size, then the bytes turned round. -/
theorem setvch_eq_mpi {vch : Bytes} (h : vch.length < 2 ^ 32) :
    BN_mpi2bn (mpiLength vch.length ++ vch.reverse) = some (setvch vch) := by
  rw [← List.length_reverse] at h ⊢
  rw [BN_mpi2bn_append h, setvch_eq_mpiNumber]

/-- `getvch` as the code has it: the bytes after the size, turned round. -/
theorem getvch_eq_mpi (bn : ℤ) : getvch bn = ((BN_bn2mpi bn).drop 4).reverse := by
  unfold getvch BN_bn2mpi
  simp only [drop_mpiLength]
  generalize (Nat.digits 256 bn.natAbs).map UInt8.ofNat = vch
  cases hrev : vch.reverse with
  | nil => rfl
  | cons top low =>
      have hvch : vch = low.reverse ++ [top] := by
        rw [← List.reverse_reverse vch, hrev, List.reverse_cons]
      dsimp only
      split
      · rw [hvch]
        simp
      · rw [List.reverse_cons]

/-! ## Sign and magnitude -/

/-- The number of a vector in sign and magnitude, little endian: the top bit of the last byte is the
sign, and the other bits are the magnitude. -/
def signMagnitude (v : Bytes) : ℤ :=
  if Lib.ofLE v < 2 ^ (8 * v.length - 1) then (Lib.ofLE v : ℤ)
  else -((Lib.ofLE v : ℤ) - 2 ^ (8 * v.length - 1))

theorem ofLE_concat (low : Bytes) (top : UInt8) :
    Lib.ofLE (low ++ [top]) = Lib.ofLE low + 256 ^ low.length * top.toNat := by
  rw [Lib.ofLE_append]
  simp [Lib.ofLE]

theorem sign_bit (k : Nat) : 2 ^ (8 * (k + 1) - 1) = 256 ^ k * 128 := by
  rw [show 8 * (k + 1) - 1 = 8 * k + 7 by omega, pow_add, pow_mul]
  norm_num

theorem setvch_eq_signMagnitude (v : Bytes) : setvch v = signMagnitude v := by
  obtain rfl | ⟨low, top, rfl⟩ := List.eq_nil_or_concat' v
  · rfl
  have hset := setvch_reverse_cons top low.reverse
  rw [List.reverse_cons, List.reverse_reverse, List.length_reverse] at hset
  have hlow := Lib.ofLE_lt low
  rw [hset, signMagnitude, ofLE_concat, List.length_append, List.length_singleton, sign_bit]
  by_cases htop : 128 ≤ top.toNat
  · have hmod : top.toNat = 128 + top.toNat % 128 := by
      have := top.toNat_lt
      omega
    have hge : ¬ Lib.ofLE low + 256 ^ low.length * top.toNat < 256 ^ low.length * 128 := by
      rw [hmod]
      nlinarith
    have hpow : (2 : ℤ) ^ (8 * (low.length + 1) - 1) = 256 ^ low.length * 128 := by
      exact_mod_cast sign_bit low.length
    rw [if_pos htop, if_neg hge, hpow]
    conv_rhs => rw [hmod]
    push_cast
    ring
  · have hmod : top.toNat % 128 = top.toNat := Nat.mod_eq_of_lt (by omega)
    have hlt : Lib.ofLE low + 256 ^ low.length * top.toNat < 256 ^ low.length * 128 := by
      have hle : top.toNat + 1 ≤ 128 := by omega
      nlinarith
    rw [if_neg htop, if_pos hlt, hmod, one_mul]

theorem pow_le_twice (L : Nat) : 256 ^ L ≤ 2 * 2 ^ (8 * L - 1) := by
  cases L with
  | zero => decide
  | succ k =>
      rw [sign_bit, pow_succ]
      omega

/-- The magnitude leaves the sign bit free. -/
theorem natAbs_setvch_lt_signBit (v : Bytes) : (setvch v).natAbs < 2 ^ (8 * v.length - 1) := by
  have hlt := (Lib.ofLE_lt v).trans_le (pow_le_twice v.length)
  rw [setvch_eq_signMagnitude, signMagnitude]
  zify at hlt
  split
  · simpa using ‹Lib.ofLE v < _›
  · next hge =>
    zify at hge ⊢
    rw [abs_lt]
    constructor <;> linarith

/-- The vector as a number, from the number that it stands for -/
theorem ofLE_eq_of_setvch {v : Bytes} (h : setvch v ≠ 0) :
    Lib.ofLE v = (setvch v).natAbs + if setvch v < 0 then 2 ^ (8 * v.length - 1) else 0 := by
  rw [setvch_eq_signMagnitude, signMagnitude] at h ⊢
  split at h
  · next hlt =>
    rw [if_pos hlt, if_neg (by omega)]
    simp
  · next hge =>
    zify at hge
    rw [if_neg (by zify; exact hge), if_pos (by omega)]
    zify
    rw [abs_of_nonpos (by omega)]
    ring

theorem mpiSize_le {m L : Nat} (h : m < 2 ^ (8 * L - 1)) : mpiSize m ≤ L := by
  unfold mpiSize
  split
  · exact Nat.zero_le L
  · next hm =>
    have hsize : m.size ≤ 8 * L - 1 := Nat.size_le.mpr h
    have hL : L ≠ 0 := by
      rintro rfl
      exact hm (Nat.lt_one_iff.mp h)
    omega

theorem lt_mpiSize (m : Nat) : m < 2 ^ (8 * mpiSize m - 1) := by
  unfold mpiSize
  split
  · next hm =>
    rw [hm]
    decide
  · calc m < 2 ^ m.size := Nat.lt_size_self m
      _ ≤ 2 ^ (8 * (m.size / 8 + 1) - 1) := Nat.pow_le_pow_right (by decide) (by omega)

theorem setvch_getvch (z : ℤ) : setvch (getvch z) = z := by
  obtain ⟨hlen, hvalue⟩ := getvch_spec z
  have hlt := lt_mpiSize z.natAbs
  rw [← hlen] at hlt
  rw [setvch_eq_signMagnitude, signMagnitude, hvalue]
  by_cases hz : z < 0
  · rw [if_pos hz, if_neg (by omega)]
    push_cast
    rw [abs_of_neg hz]
    ring
  · rw [if_neg hz, Nat.add_zero, if_pos hlt, Int.natAbs_of_nonneg (by omega)]

/-- `getvch` writes the shortest vector, and no other is as short. -/
theorem getvch_shortest {w : Bytes} {z : ℤ} (h : setvch w = z) :
    (getvch z).length ≤ w.length ∧ (w.length = (getvch z).length → w = getvch z) := by
  obtain ⟨hlen, hvalue⟩ := getvch_spec z
  have hlt := natAbs_setvch_lt_signBit w
  rw [h] at hlt
  refine ⟨hlen ▸ mpiSize_le hlt, fun hw => ?_⟩
  by_cases hz : z = 0
  · subst hz
    have h0 : (getvch 0).length = 0 := hlen
    rw [h0, List.length_eq_zero_iff] at hw
    rw [hw, List.length_eq_zero_iff.mp h0]
  · have hN := ofLE_eq_of_setvch (h ▸ hz : setvch w ≠ 0)
    rw [h, hw, ← hvalue] at hN
    rw [← Lib.toLE_ofLE w, hw, hN, Lib.toLE_ofLE]

/-- No byte of the vector is there for nothing: the last one has a bit of the magnitude, or it has the
sign for which the one before has no room. -/
def minimal (v : Bytes) : Bool :=
  match v.reverse with
  | [] => true
  | [top] => top &&& 0x7f != 0
  | top :: next :: _ => top &&& 0x7f != 0 || 0x80 ≤ next

theorem mpiSize_le_iff {m L : Nat} : mpiSize m ≤ L ↔ m < 2 ^ (8 * L - 1) := by
  refine ⟨fun h => ?_, mpiSize_le⟩
  calc m < 2 ^ (8 * mpiSize m - 1) := lt_mpiSize m
    _ ≤ 2 ^ (8 * L - 1) := Nat.pow_le_pow_right (by decide) (by omega)

theorem natAbs_setvch_concat (low : Bytes) (top : UInt8) :
    (setvch (low ++ [top])).natAbs = Lib.ofLE low + 256 ^ low.length * (top.toNat % 128) := by
  have hset := setvch_reverse_cons top low.reverse
  rw [List.reverse_cons, List.reverse_reverse, List.length_reverse] at hset
  rw [hset, Int.natAbs_mul, Int.natAbs_natCast]
  split <;> simp

theorem and_low_ne_zero {b : UInt8} : (b &&& 0x7f != 0) = true ↔ b.toNat % 128 ≠ 0 := by
  rw [bne_iff_ne, ← toNat_and_low, ne_eq, ne_eq, ← UInt8.toNat_inj]
  rfl

/-- A vector is minimal if and only if its number does not fit into one byte less. -/
theorem minimal_concat (low : Bytes) (top : UInt8) :
    minimal (low ++ [top]) = true ↔ ¬ (setvch (low ++ [top])).natAbs < 2 ^ (8 * low.length - 1) := by
  rw [natAbs_setvch_concat, minimal, List.reverse_append, List.reverse_singleton,
    List.singleton_append]
  obtain rfl | ⟨low, next, rfl⟩ := List.eq_nil_or_concat' low
  · rw [List.reverse_nil]
    dsimp only
    rw [and_low_ne_zero]
    simp [Lib.ofLE]
  · have hnext : 0x80 ≤ next ↔ 128 ≤ next.toNat := UInt8.le_iff_toNat_le
    have hlow := Lib.ofLE_lt low
    rw [List.reverse_append, List.reverse_singleton, List.singleton_append]
    dsimp only
    rw [Bool.or_eq_true, and_low_ne_zero, decide_eq_true_eq, hnext, ofLE_concat, List.length_append,
      List.length_singleton, sign_bit, pow_succ]
    generalize 256 ^ low.length = p at hlow ⊢
    by_cases htop : top.toNat % 128 = 0
    · rw [htop, Nat.mul_zero, Nat.add_zero]
      constructor
      · rintro (h | h)
        · exact absurd rfl h
        · nlinarith
      · intro h
        refine .inr ?_
        by_contra hlt
        have hle : next.toNat + 1 ≤ 128 := by omega
        exact h (by nlinarith)
    · refine iff_of_true (.inl htop) ?_
      have hpos : 1 ≤ top.toNat % 128 := by omega
      have hmul : p * 256 * 1 ≤ p * 256 * (top.toNat % 128) := Nat.mul_le_mul_left _ hpos
      omega

theorem getvch_setvch_iff (v : Bytes) : getvch (setvch v) = v ↔ minimal v = true := by
  have hlen := (getvch_spec (setvch v)).1
  obtain ⟨hle, hunique⟩ := getvch_shortest (w := v) rfl
  obtain rfl | ⟨low, top, rfl⟩ := List.eq_nil_or_concat' v
  · exact iff_of_true (by decide) rfl
  · rw [minimal_concat, ← mpiSize_le_iff, ← hlen]
    rw [List.length_append, List.length_singleton] at hle hunique
    constructor
    · intro h
      rw [h, List.length_append, List.length_singleton]
      omega
    · intro h
      exact (hunique (by omega)).symm

end CBigNum

/-! ## Truth -/

/-- A vector is false when it has no bit set, or only that of the sign. -/
theorem castToBool_eq_false_iff {v : Bytes} :
    castToBool v = false ↔ Lib.ofLE v = 0 ∨ Lib.ofLE v = 2 ^ (8 * v.length - 1) := by
  induction v using castToBool.induct with
  | case1 => simp [castToBool, Lib.ofLE]
  | case2 b =>
      have h0 : b = 0 ↔ b.toNat = 0 := UInt8.toNat_inj.symm
      have h80 : b = 0x80 ↔ b.toNat = 128 := UInt8.toNat_inj.symm
      simp only [castToBool, Bool.and_eq_false_iff, bne_eq_false_iff_eq, h0, h80, Lib.ofLE,
        Nat.mul_zero, Nat.add_zero, List.length_singleton]
      rfl
  | case3 b v hv ih =>
      have h0 : b = 0 ↔ b.toNat = 0 := UInt8.toNat_inj.symm
      have hb := b.toNat_lt
      have hpos : 0 < v.length := List.length_pos_of_ne_nil hv
      have hpow : 2 ^ (8 * (v.length + 1) - 1) = 256 * 2 ^ (8 * v.length - 1) := by
        rw [show 8 * (v.length + 1) - 1 = 8 + (8 * v.length - 1) by omega, pow_add]
        rfl
      rw [castToBool, Bool.or_eq_false_iff, bne_eq_false_iff_eq, ih, h0, Lib.ofLE, List.length_cons,
        hpow]
      · omega
      · exact hv

theorem castToBool_iff (v : Bytes) : castToBool v = true ↔ CBigNum.setvch v ≠ 0 := by
  rw [← Bool.not_eq_false, not_iff_not, castToBool_eq_false_iff, CBigNum.setvch_eq_signMagnitude,
    CBigNum.signMagnitude]
  have hpos : 0 < 2 ^ (8 * v.length - 1) := Nat.two_pow_pos _
  zify at hpos
  split
  · next hlt => omega
  · next hge =>
    zify at hge
    zify
    constructor
    · rintro (h | h)
      · omega
      · omega
    · intro h
      exact .inr (by omega)

/-! ## `setint64` -/

namespace CBigNum

/-- The loop of `setint64`: `i` rounds are left, and `p` is what has been written. -/
def setint64Loop (fNegative : Bool) : Nat → ℤ → Bool → Bytes → Bytes
  | 0, _, _, p => p
  | i + 1, n, fLeadingZeroes, p =>
      let c := UInt8.ofNat ((n / 2 ^ 56) % 2 ^ 8).toNat
      let n := int64 (n * 2 ^ 8)
      if fLeadingZeroes then
        if c = 0 then setint64Loop fNegative i n true p
        else if c &&& 0x80 ≠ 0 then
          setint64Loop fNegative i n false (p ++ [if fNegative then 0x80 else 0, c])
        else if fNegative then setint64Loop fNegative i n false (p ++ [c ||| 0x80])
        else setint64Loop fNegative i n false (p ++ [c])
      else setint64Loop fNegative i n false (p ++ [c])

/-- `setint64`; the least number is its own negative. -/
def setint64 (n : ℤ) : Option ℤ :=
  let fNegative := decide (n < 0)
  let n := if fNegative then int64 (-n) else n
  let p := setint64Loop fNegative 8 n true []
  BN_mpi2bn (mpiLength p.length ++ p)

/-- The eight bytes of an `int64` as the loop comes to them, the highest first -/
def bigEndian64 (n : ℤ) : Bytes := (Lib.toLEInt 8 n).reverse

/-- The loop looks at the first byte and shifts the others up. -/
theorem bigEndian64_shift (n : ℤ) : ∃ r : Bytes,
    bigEndian64 n = UInt8.ofNat ((n / 2 ^ 56) % 2 ^ 8).toNat :: r ∧
      bigEndian64 (int64 (n * 2 ^ 8)) = r ++ [0] := by
  refine ⟨(Lib.toLE 7 (n % 2 ^ 56).toNat).reverse, ?_, ?_⟩
  · have hlow : Lib.toLE 7 (n % 256 ^ 8).toNat = Lib.toLE 7 (n % 2 ^ 56).toNat := by
      rw [← Lib.toLE_mod]
      congr 1
      omega
    have hhigh : (n % 256 ^ 8).toNat / 256 ^ 7 = ((n / 2 ^ 56) % 2 ^ 8).toNat := by omega
    rw [bigEndian64, Lib.toLEInt, Lib.toLE_succ_last, hlow, hhigh, List.reverse_append]
    rfl
  · have hmod : int64 (n * 2 ^ 8) % 256 ^ 8 = n % 2 ^ 56 * 256 := by
      have hbmod : int64 (n * 2 ^ 8) % 2 ^ 64 = n * 2 ^ 8 % 2 ^ 64 := Int.bmod_emod
      omega
    have hzero : (n % 2 ^ 56 * 256).toNat = 256 * (n % 2 ^ 56).toNat := by omega
    rw [bigEndian64, Lib.toLEInt, hmod, hzero, Lib.toLE, Nat.mul_div_cancel_left _ (by decide),
      List.reverse_cons]
    congr 2
    simp

/-- The bytes with a sign: set in the first one, or in a byte of its own -/
def withSign (fNegative : Bool) : Bytes → Bytes
  | [] => []
  | c :: low =>
      if c &&& 0x80 ≠ 0 then (if fNegative then 0x80 else 0) :: c :: low
      else (if fNegative then c ||| 0x80 else c) :: low

theorem take_shift {r : Bytes} {c : UInt8} {n : ℤ} {i : Nat} (hi : i + 1 ≤ 8)
    (hr : bigEndian64 n = c :: r) :
    (c :: r).take (i + 1) = c :: (r ++ [0]).take i := by
  have hlen := congrArg List.length hr
  rw [bigEndian64, List.length_reverse, Lib.length_toLEInt, List.length_cons] at hlen
  rw [List.take_succ_cons, List.take_append_of_le_length (by omega)]

/-- Once a byte is written, the others are. -/
theorem setint64Loop_false (fNegative : Bool) {i : Nat} (hi : i ≤ 8) (n : ℤ) (p : Bytes) :
    setint64Loop fNegative i n false p = p ++ (bigEndian64 n).take i := by
  induction i generalizing n p with
  | zero => simp [setint64Loop]
  | succ i ih =>
      obtain ⟨r, hn, hshift⟩ := bigEndian64_shift n
      rw [setint64Loop, if_neg (by decide), ih (by omega), hshift, hn, take_shift hi hn]
      simp

/-- Zeros in front are skipped, and the first byte gets the sign. -/
theorem setint64Loop_true (fNegative : Bool) {i : Nat} (hi : i ≤ 8) (n : ℤ) :
    setint64Loop fNegative i n true []
      = withSign fNegative (((bigEndian64 n).take i).dropWhile (· == 0)) := by
  induction i generalizing n with
  | zero => simp [setint64Loop, withSign]
  | succ i ih =>
      obtain ⟨r, hn, hshift⟩ := bigEndian64_shift n
      have hfalse (p : Bytes) := setint64Loop_false fNegative (by omega : i ≤ 8)
        (int64 (n * 2 ^ 8)) p
      rw [hshift] at hfalse
      rw [setint64Loop, if_pos rfl, hn, take_shift hi hn]
      split
      · next hc =>
        rw [ih (by omega), hshift, List.dropWhile_cons_of_pos (by simpa using hc)]
      · next hc =>
        rw [List.dropWhile_cons_of_neg (by simpa using hc), withSign]
        split
        · rw [hfalse]
          rfl
        · split <;> rw [hfalse] <;> rfl

theorem ofLE_reverse_dropWhile (bytes : Bytes) :
    Lib.ofLE (bytes.dropWhile (· == 0)).reverse = Lib.ofLE bytes.reverse := by
  induction bytes with
  | nil => rfl
  | cons b bytes ih =>
      by_cases hb : b = 0
      · rw [List.dropWhile_cons_of_pos (by simpa using hb), ih, List.reverse_cons, ofLE_concat, hb]
        simp
      · rw [List.dropWhile_cons_of_neg (by simpa using hb)]

/-- The top bit of a byte, on and off -/
theorem top_bit_spec : ∀ n < 256,
    (UInt8.ofNat n &&& 0x80 ≠ 0 ↔ 128 ≤ n) ∧
      (n < 128 → (UInt8.ofNat n ||| 0x80) &&& 0x7f = UInt8.ofNat n ∧
        UInt8.ofNat n &&& 0x7f = UInt8.ofNat n ∧ 0x80 ≤ UInt8.ofNat n ||| 0x80 ∧
        ¬ 0x80 ≤ UInt8.ofNat n) := by
  decide +kernel

theorem mpiNumber_withSign (fNegative : Bool) (bytes : Bytes) :
    mpiNumber (withSign fNegative bytes)
      = if fNegative then -(Lib.ofLE bytes.reverse : ℤ) else Lib.ofLE bytes.reverse := by
  cases bytes with
  | nil => cases fNegative <;> rfl
  | cons c low =>
      obtain ⟨htop, hsmall⟩ := top_bit_spec c.toNat c.toNat_lt
      rw [UInt8.ofNat_toNat] at htop hsmall
      by_cases hc : c &&& 0x80 ≠ 0
      · have hzero : Lib.ofLE ((c :: low).reverse ++ [0]) = Lib.ofLE (c :: low).reverse := by
          rw [ofLE_concat]
          simp
        rw [withSign, if_pos hc]
        cases fNegative
        · exact congrArg Nat.cast hzero
        · exact congrArg (fun n : Nat => -(n : ℤ)) hzero
      · obtain ⟨hor, hand, hge, hlt⟩ := hsmall (by rw [htop] at hc; omega)
        rw [withSign, if_neg hc, List.reverse_cons]
        cases fNegative
        · rw [if_neg (by decide), if_neg (by decide), mpiNumber, if_neg hlt, hand]
        · rw [if_pos rfl, if_pos rfl, mpiNumber, if_pos hge, hor]

theorem length_withSign_le (fNegative : Bool) (bytes : Bytes) :
    (withSign fNegative bytes).length ≤ bytes.length + 1 := by
  cases bytes with
  | nil => exact Nat.zero_le _
  | cons c low =>
      rw [withSign]
      split <;> simp

theorem setint64_eq {n : ℤ} (hmin : -2 ^ 63 ≤ n) (hmax : n < 2 ^ 63) : setint64 n = some n := by
  have hloop (m : ℤ) : setint64Loop (decide (n < 0)) 8 m true []
      = withSign (decide (n < 0)) ((bigEndian64 m).dropWhile (· == 0)) := by
    have hlen : (bigEndian64 m).length = 8 := by
      rw [bigEndian64, List.length_reverse, Lib.length_toLEInt]
    rw [setint64Loop_true _ (by decide), List.take_of_length_le hlen.le]
  have hnumber (m : ℤ) : Lib.ofLE ((bigEndian64 m).dropWhile (· == 0)).reverse = (m % 2 ^ 64).toNat := by
    rw [ofLE_reverse_dropWhile, bigEndian64, List.reverse_reverse, Lib.toLEInt, Lib.ofLE_toLE]
    · rfl
    · omega
  have hshort (m : ℤ) : (withSign (decide (n < 0)) ((bigEndian64 m).dropWhile (· == 0))).length
      < 2 ^ 32 := by
    calc (withSign (decide (n < 0)) ((bigEndian64 m).dropWhile (· == 0))).length
        ≤ ((bigEndian64 m).dropWhile (· == 0)).length + 1 := length_withSign_le _ _
      _ ≤ (bigEndian64 m).length + 1 :=
          Nat.add_le_add_right (List.dropWhile_sublist _).length_le 1
      _ < 2 ^ 32 := by
          rw [bigEndian64, List.length_reverse, Lib.length_toLEInt]
          decide
  rw [setint64]
  simp only [hloop]
  rw [BN_mpi2bn_append (hshort _), mpiNumber_withSign, hnumber]
  by_cases hn : n < 0
  · -- the least number stays as it is, and its bytes are those of its magnitude
    have hwrap : int64 (-n) % 2 ^ 64 = -n % 2 ^ 64 := Int.bmod_emod
    simp only [hn, decide_true, if_true, hwrap]
    congr 1
    omega
  · simp only [hn, decide_false, Bool.false_eq_true, if_false]
    congr 1
    omega

/-- Numbers survive being written as vectors, and vectors are written back as the shortest one for
the same number, which is the vector itself if and only if it is minimal; a vector is true if and only
if its number is not zero; and an `int64` becomes the number that it is. -/
theorem number_format :
    (∀ z : ℤ, setvch (getvch z) = z) ∧
    (∀ v : Bytes, setvch v = signMagnitude v) ∧
    (∀ v w : Bytes, setvch w = setvch v →
      (getvch (setvch v)).length ≤ w.length ∧
        (w.length = (getvch (setvch v)).length → w = getvch (setvch v))) ∧
    (∀ v : Bytes, getvch (setvch v) = v ↔ minimal v = true) ∧
    (∀ v : Bytes, castToBool v = true ↔ setvch v ≠ 0) ∧
    ∀ n : ℤ, -2 ^ 63 ≤ n → n < 2 ^ 63 → setint64 n = some n :=
  ⟨setvch_getvch, setvch_eq_signMagnitude, fun _ _ h => getvch_shortest h, getvch_setvch_iff,
    castToBool_iff, fun _ => setint64_eq⟩

/-- Two bytes for minus one are not the shortest, and the least number is what it is. -/
theorem number_format_samples :
    (getvch (setvch [1, 0x80])).length ≤ [0x81].length ∧ setint64 (-2 ^ 63) = some (-2 ^ 63) :=
  ⟨(number_format.2.2.1 [1, 0x80] [0x81] (by decide)).1,
    number_format.2.2.2.2.2 (-2 ^ 63) (by decide) (by decide)⟩

end CBigNum

end ShinyCoin

import ShinyCoin.Chain.Retarget
import ShinyCoin.Script.Number

/-!
# Compact targets

A target is kept in four bytes: its length in OpenSSL's format, and the first three bytes of it there.
The top bit of these is a sign, so that two or three of them are significant. What the code does on
bytes is `getCompact` and `setCompact` on numbers; what a target loses is small, and it never becomes
zero, so every block adds to the trust of its chain.
-/

namespace ShinyCoin

/-! ## On bytes -/

namespace CBigNum

/-- `BN_bn2mpi`: four bytes of length, then magnitude and sign, big endian. -/
def bn2mpi (bn : ℤ) : Bytes :=
  (Lib.toLE 4 (getvch bn).length).reverse ++ (getvch bn).reverse

/-- `BN_mpi2bn` -/
def mpi2bn (mpi : Bytes) : ℤ := setvch (mpi.drop 4).reverse

/-- `SetCompact` -/
def setCompact (nCompact : Nat) : ℤ :=
  let nSize := nCompact >>> 24
  let vch := (List.replicate (4 + nSize) (0 : UInt8)).set 3 (UInt8.ofNat nSize)
  let vch := if 1 ≤ nSize then vch.set 4 (UInt8.ofNat (nCompact >>> 16)) else vch
  let vch := if 2 ≤ nSize then vch.set 5 (UInt8.ofNat (nCompact >>> 8)) else vch
  let vch := if 3 ≤ nSize then vch.set 6 (UInt8.ofNat (nCompact >>> 0)) else vch
  mpi2bn vch

/-- `GetCompact` -/
def getCompact (bn : ℤ) : Nat :=
  let vch := bn2mpi bn
  let nSize := vch.length - 4
  let nCompact := nSize <<< 24 % 2 ^ 32
  let nCompact := if 1 ≤ nSize then nCompact ||| (vch.getD 4 0).toNat <<< 16 else nCompact
  let nCompact := if 2 ≤ nSize then nCompact ||| (vch.getD 5 0).toNat <<< 8 else nCompact
  if 3 ≤ nSize then nCompact ||| (vch.getD 6 0).toNat <<< 0 else nCompact

theorem length_bn2mpi (bn : ℤ) : (bn2mpi bn).length = 4 + mpiSize bn.natAbs := by
  simp [bn2mpi, (getvch_spec bn).1]

/-- A byte goes below what is there already. -/
theorem or_byte (a k : Nat) (b : UInt8) :
    a * 2 ^ (k + 8) ||| b.toNat <<< k = (a * 256 + b.toNat) * 2 ^ k := by
  have hb : b.toNat <<< k < 2 ^ (k + 8) := by
    rw [Nat.shiftLeft_eq, pow_add, Nat.mul_comm]
    exact Nat.mul_lt_mul_of_pos_left b.toNat_lt (by positivity)
  have hor := Nat.shiftLeft_add_eq_or_of_lt hb a
  rw [Nat.shiftLeft_eq, Nat.shiftLeft_eq] at hor
  rw [Nat.shiftLeft_eq, ← hor]
  ring

/-- The first three bytes of `vch`, the first one on top. -/
def leadingWord (vch : Bytes) : Nat :=
  ((vch.getD 0 0).toNat * 256 + (vch.getD 1 0).toNat) * 256 + (vch.getD 2 0).toNat

theorem leadingWord_reverse (vch : Bytes) : leadingWord vch.reverse =
    if vch.length ≤ 3 then Lib.ofLE vch * 256 ^ (3 - vch.length)
    else Lib.ofLE vch / 256 ^ (vch.length - 3) := by
  obtain ⟨big, rfl⟩ : ∃ big, vch = big.reverse := ⟨vch.reverse, (List.reverse_reverse vch).symm⟩
  rw [List.reverse_reverse]
  match big with
  | [] => rfl
  | [b₀] => simp [leadingWord, Lib.ofLE]; ring
  | [b₀, b₁] => simp [leadingWord, Lib.ofLE]; ring
  | b₀ :: b₁ :: b₂ :: low =>
      have hlen : (b₀ :: b₁ :: b₂ :: low).reverse.length = low.length + 3 := by simp
      have hvalue : Lib.ofLE (b₀ :: b₁ :: b₂ :: low).reverse = Lib.ofLE low.reverse
          + 256 ^ low.length * (b₂.toNat + 256 * (b₁.toNat + 256 * b₀.toNat)) := by
        simp [Lib.ofLE_append, Lib.ofLE]
      have hlow := Lib.ofLE_lt low.reverse
      rw [List.length_reverse] at hlow
      rw [hlen, hvalue]
      split
      · next hshort =>
        rw [List.eq_nil_of_length_eq_zero (show low.length = 0 by omega)]
        simp [leadingWord, Lib.ofLE]
        ring
      · rw [Nat.add_sub_cancel, Nat.add_mul_div_left _ _ (by positivity), Nat.div_eq_of_lt hlow]
        simp [leadingWord]
        ring

/-- The bytes the code puts together are those of the size and of the leading digits. -/
theorem getCompact_eq (bn : ℤ) : getCompact bn = ShinyCoin.getCompact bn := by
  obtain ⟨hlen, hvalue⟩ := getvch_spec bn
  have hbyte : ∀ i, (bn2mpi bn).getD (4 + i) 0 = (getvch bn).reverse.getD i 0 := by
    intro i
    rw [bn2mpi, List.getD_eq_getElem?_getD, List.getElem?_append_right (by simp)]
    simp [List.getD_eq_getElem?_getD]
  have habsent : ∀ i, ¬ i + 1 ≤ (getvch bn).length → (getvch bn).reverse.getD i 0 = 0 := by
    intro i hi
    rw [List.getD_eq_getElem?_getD, List.getElem?_eq_none (by rw [List.length_reverse]; omega)]
    rfl
  -- a byte that is not there is zero
  have hpack : getCompact bn
      = (getvch bn).length % 256 * 2 ^ 24 + leadingWord (getvch bn).reverse := by
    have hshift : (getvch bn).length <<< 24 % 2 ^ 32 = (getvch bn).length % 256 * 2 ^ (16 + 8) := by
      rw [Nat.shiftLeft_eq]
      omega
    have hif : ∀ (i k a : Nat), (if i + 1 ≤ (getvch bn).length
        then a ||| ((getvch bn).reverse.getD i 0).toNat <<< k else a)
        = a ||| ((getvch bn).reverse.getD i 0).toNat <<< k := by
      intro i k a
      split
      · rfl
      · next hi =>
        rw [habsent i hi]
        simp
    unfold getCompact
    dsimp only
    rw [length_bn2mpi, ← hlen, Nat.add_sub_cancel_left, hbyte 0, hbyte 1, hbyte 2, hif 0, hif 1, hif 2,
      hshift, or_byte _ 16, show (16 : Nat) = 8 + 8 from rfl, or_byte _ 8,
      show (8 : Nat) = 0 + 8 from rfl, or_byte _ 0, leadingWord]
    ring
  have hword : leadingWord (getvch bn).reverse < 2 ^ 24 := by
    have h₀ := ((getvch bn).reverse.getD 0 0).toNat_lt
    have h₁ := ((getvch bn).reverse.getD 1 0).toNat_lt
    have h₂ := ((getvch bn).reverse.getD 2 0).toNat_lt
    unfold leadingWord
    omega
  rw [hpack, ShinyCoin.getCompact]
  rw [show (if bn.natAbs = 0 then 0 else bn.natAbs.size / 8 + 1) = mpiSize bn.natAbs from rfl, ← hlen]
  have hsplit : leadingWord (getvch bn).reverse = (if bn < 0 then 2 ^ 23 else 0)
      + if (getvch bn).length ≤ 3 then bn.natAbs * 256 ^ (3 - (getvch bn).length)
        else bn.natAbs / 256 ^ ((getvch bn).length - 3) := by
    rw [leadingWord_reverse, hvalue]
    split
    · next hsmall =>
      rw [Nat.add_mul, Nat.add_comm]
      congr 1
      split
      · next hneg =>
        have hne : 0 < (getvch bn).length := by
          rw [hlen, mpiSize, if_neg (by omega)]
          omega
        rw [show 256 = 2 ^ 8 from rfl, ← pow_mul, ← pow_add]
        congr 1
        omega
      · rw [Nat.zero_mul]
    · next hbig =>
      split
      · rw [show 8 * (getvch bn).length - 1 = 8 * ((getvch bn).length - 3) + 23 by omega, pow_add,
          pow_mul, show 2 ^ 8 = 256 from rfl, Nat.add_mul_div_left _ _ (by positivity), Nat.add_comm]
      · rw [Nat.add_zero, Nat.zero_add]
  rw [hsplit] at hword ⊢
  omega

/-- The number the code reads is the leading digits with their size. -/
theorem setCompact_eq {nCompact : Nat} (h : nCompact < 2 ^ 32) :
    setCompact nCompact = ShinyCoin.setCompact nCompact := by
  have hsign : nCompact.testBit 23 = decide (128 ≤ (UInt8.ofNat (nCompact >>> 16)).toNat) := by
    rw [Nat.testBit_eq_decide_div_mod_eq, UInt8.toNat_ofNat', Nat.shiftRight_eq_div_pow]
    apply decide_eq_decide.mpr
    omega
  have hsize : nCompact / 2 ^ 24 % 2 ^ 8 = nCompact >>> 24 := by
    rw [Nat.shiftRight_eq_div_pow]
    omega
  unfold setCompact ShinyCoin.setCompact
  rw [hsize, hsign]
  have h₂ : (UInt8.ofNat (nCompact >>> 16)).toNat = nCompact / 65536 % 256 := by
    simp [Nat.shiftRight_eq_div_pow]
  have h₁ : (UInt8.ofNat (nCompact >>> 8)).toNat = nCompact / 256 % 256 := by
    simp [Nat.shiftRight_eq_div_pow]
  have h₀ : (UInt8.ofNat (nCompact >>> 0)).toNat = nCompact % 256 := by
    simp
  generalize UInt8.ofNat (nCompact >>> 16) = b₂ at *
  generalize UInt8.ofNat (nCompact >>> 8) = b₁ at *
  generalize UInt8.ofNat (nCompact >>> 0) = b₀ at *
  have hfinish : ∀ {nSize N n : Nat}, N = n → 1 ≤ nSize →
      (if 128 ≤ b₂.toNat then -1 else 1) * (N : ℤ)
        = if decide (128 ≤ b₂.toNat) && decide (1 ≤ nSize) then -(n : ℤ) else n := by
    rintro nSize N n rfl hpos
    by_cases hneg : 128 ≤ b₂.toNat <;> simp [hneg, hpos]
  match nCompact >>> 24 with
  | 0 =>
      have hzero : nCompact % 2 ^ 23 / 256 ^ 3 = 0 := by omega
      simp [mpi2bn, setvch]
      omega
  | 1 =>
      show setvch [b₂].reverse = _
      rw [setvch_reverse_cons]
      apply hfinish _ (by omega)
      simp [Lib.ofLE, h₂]
      omega
  | 2 =>
      show setvch [b₂, b₁].reverse = _
      rw [setvch_reverse_cons]
      apply hfinish _ (by omega)
      simp [Lib.ofLE, h₁, h₂]
      omega
  | k + 3 =>
      have hvch : mpi2bn ((((List.replicate (4 + (k + 3)) (0 : UInt8)).set 3 (UInt8.ofNat (k + 3))).set 4
          b₂).set 5 b₁ |>.set 6 b₀) = setvch (b₂ :: b₁ :: b₀ :: List.replicate k 0).reverse := by
        rw [mpi2bn, show 4 + (k + 3) = k + 1 + 1 + 1 + 1 + 1 + 1 + 1 by omega]
        simp [List.replicate_succ]
      dsimp only
      rw [if_pos (by omega), if_pos (by omega), if_pos (by omega), hvch, setvch_reverse_cons]
      apply hfinish _ (by omega)
      have hword : nCompact % 256 + 256 * (nCompact / 256 % 256)
          + 65536 * (nCompact / 65536 % 256 % 128) = nCompact % 2 ^ 23 := by omega
      have hvalue : Lib.ofLE (b₁ :: b₀ :: List.replicate k 0).reverse
          + 256 ^ (b₁ :: b₀ :: List.replicate k 0).length * (b₂.toNat % 128)
          = nCompact % 2 ^ 23 * 256 ^ k := by
        rw [← hword]
        simp [Lib.ofLE_append, Lib.ofLE, h₀, h₁, h₂]
        ring
      rw [hvalue]
      split
      · next hk =>
        obtain rfl : k = 0 := by omega
        simp
      · rw [Nat.add_sub_cancel]


end CBigNum

/-! ## What is lost -/

namespace CBigNum

/-- The number that is left of `m` in compact form: its first three bytes, of their size. -/
def leadingPart (m : Nat) : Nat := m / 256 ^ (mpiSize m - 3) * 256 ^ (mpiSize m - 3)

theorem getCompact_lt (bn : ℤ) : ShinyCoin.getCompact bn < 2 ^ 32 := Nat.mod_lt _ (by decide)

theorem setCompact_getCompact {m : Nat} (hm : 0 < m) (hsize : mpiSize m < 256) :
    setCompact (getCompact m) = leadingPart m := by
  have hmpi : mpiSize m = m.size / 8 + 1 := if_neg (Nat.pos_iff_ne_zero.mp hm)
  rw [getCompact_eq, setCompact_eq (getCompact_lt m),
    ShinyCoin.setCompact_getCompact hm (hmpi ▸ hsize), leadingPart, hmpi]
  split
  · next hsmall => simp [Nat.sub_eq_zero_of_le hsmall]
  · rfl

section

variable {m n : Nat}

theorem leadingPart_le (m : Nat) : leadingPart m ≤ m := Nat.div_mul_le_self m _

/-- The leading bit stays. -/
theorem le_leadingPart (hm : 0 < m) : 2 ^ (m.size - 1) ≤ leadingPart m := by
  have hsize : 0 < m.size := Nat.size_pos.mpr hm
  have hle : 2 ^ (m.size - 1) ≤ m := Nat.lt_size.mp (by omega)
  have hk : 8 * (mpiSize m - 3) ≤ m.size - 1 := by
    rw [mpiSize, if_neg (by omega)]
    omega
  have hpow : (256 : Nat) ^ (mpiSize m - 3) = 2 ^ (8 * (mpiSize m - 3)) := by
    rw [pow_mul]
    rfl
  rw [leadingPart, hpow]
  calc 2 ^ (m.size - 1)
      = 2 ^ (m.size - 1 - 8 * (mpiSize m - 3)) * 2 ^ (8 * (mpiSize m - 3)) := by
        rw [← pow_add]
        congr 1
        omega
    _ ≤ m / 2 ^ (8 * (mpiSize m - 3)) * 2 ^ (8 * (mpiSize m - 3)) := by
        apply Nat.mul_le_mul_right
        rw [Nat.le_div_iff_mul_le (by positivity), ← pow_add]
        convert hle using 2
        omega

theorem size_leadingPart (hm : 0 < m) : (leadingPart m).size = m.size := by
  have hsize : 0 < m.size := Nat.size_pos.mpr hm
  apply le_antisymm
  · exact Nat.size_le_size (leadingPart_le m)
  · have hlt : m.size - 1 < (leadingPart m).size := Nat.lt_size.mpr (le_leadingPart hm)
    omega

theorem leadingPart_pos (hm : 0 < m) : 0 < leadingPart m :=
  lt_of_lt_of_le (by positivity) (le_leadingPart hm)

theorem mpiSize_leadingPart (hm : 0 < m) : mpiSize (leadingPart m) = mpiSize m := by
  simp [mpiSize, size_leadingPart hm, Nat.pos_iff_ne_zero.mp hm,
    Nat.pos_iff_ne_zero.mp (leadingPart_pos hm)]

/-- What is dropped is small beside what is kept: at least 15 bits stay. -/
theorem sub_leadingPart_lt (hm : 0 < m) : 2 ^ 15 * (m - leadingPart m) < leadingPart m := by
  have hpow : (256 : Nat) ^ (mpiSize m - 3) = 2 ^ (8 * (mpiSize m - 3)) := by
    rw [pow_mul]
    rfl
  by_cases hsmall : mpiSize m ≤ 3
  · have hpos := leadingPart_pos hm
    simp [leadingPart, Nat.sub_eq_zero_of_le hsmall] at hpos ⊢
    exact hpos
  · have hmpi : mpiSize m = m.size / 8 + 1 := if_neg (Nat.pos_iff_ne_zero.mp hm)
    have hword : 2 ^ 15 ≤ m / 2 ^ (8 * (mpiSize m - 3)) := by
      rw [Nat.le_div_iff_mul_le (by positivity), ← pow_add]
      calc 2 ^ (15 + 8 * (mpiSize m - 3)) ≤ 2 ^ (m.size - 1) :=
            Nat.pow_le_pow_right (by decide) (by omega)
        _ ≤ m := Nat.lt_size.mp (by have := Nat.size_pos.mpr hm; omega)
    have hrest : m - leadingPart m < 2 ^ (8 * (mpiSize m - 3)) := by
      have hmod := Nat.mod_lt m (show 0 < 2 ^ (8 * (mpiSize m - 3)) by positivity)
      have hdiv := Nat.div_add_mod' m (2 ^ (8 * (mpiSize m - 3)))
      rw [leadingPart, hpow]
      omega
    calc 2 ^ 15 * (m - leadingPart m) < 2 ^ 15 * 2 ^ (8 * (mpiSize m - 3)) :=
          Nat.mul_lt_mul_of_pos_left hrest (by positivity)
      _ ≤ m / 2 ^ (8 * (mpiSize m - 3)) * 2 ^ (8 * (mpiSize m - 3)) := Nat.mul_le_mul_right _ hword
      _ = leadingPart m := by rw [leadingPart, hpow]

theorem leadingPart_mono (hm : 0 < m) (h : m ≤ n) : leadingPart m ≤ leadingPart n := by
  have hn : 0 < n := by omega
  have hmpi : mpiSize m = m.size / 8 + 1 := if_neg (Nat.pos_iff_ne_zero.mp hm)
  have hnpi : mpiSize n = n.size / 8 + 1 := if_neg (Nat.pos_iff_ne_zero.mp hn)
  have hsizes : m.size ≤ n.size := Nat.size_le_size h
  rcases Nat.lt_or_ge m.size n.size with hlt | hge
  · -- the greater number has a leading bit of its own
    calc leadingPart m ≤ m := leadingPart_le m
      _ ≤ 2 ^ (n.size - 1) := (Nat.size_le.mp (by omega)).le
      _ ≤ leadingPart n := le_leadingPart hn
  · have heq : mpiSize m = mpiSize n := by rw [hmpi, hnpi, le_antisymm hsizes hge]
    rw [leadingPart, leadingPart, heq]
    exact Nat.mul_le_mul_right _ (Nat.div_le_div_right h)

theorem getCompact_natCast (m : Nat) : getCompact m = (mpiSize m * 2 ^ 24
    + if mpiSize m ≤ 3 then m * 256 ^ (3 - mpiSize m) else m / 256 ^ (mpiSize m - 3)) % 2 ^ 32 := by
  have hneg : ¬ (m : ℤ) < 0 := by omega
  rw [getCompact_eq, ShinyCoin.getCompact, if_neg hneg, Nat.add_zero]
  rfl

theorem getCompact_leadingPart (hm : 0 < m) : getCompact (leadingPart m) = getCompact m := by
  rw [getCompact_natCast, getCompact_natCast, mpiSize_leadingPart hm]
  split
  · next hsmall => simp [leadingPart, Nat.sub_eq_zero_of_le hsmall]
  · rw [leadingPart, Nat.mul_div_cancel _ (by positivity)]

end

end CBigNum

/-! ## Trust -/

open CBigNum (leadingPart)

/-- A block with a target of 256 bits counts. -/
theorem one_le_getBlockTrust {bnTarget : ℤ} (hpos : 0 < bnTarget) (hlt : bnTarget < 2 ^ 256)
    (isProofOfStake : Bool) : 1 ≤ getBlockTrust (CBigNum.getCompact bnTarget) isProofOfStake := by
  obtain ⟨hle, hcompact⟩ := setCompact_getCompact_bounds hpos.le hlt
  rw [CBigNum.getCompact_eq, getBlockTrust]
  rw [if_neg (not_le.mpr (hcompact hpos))]
  split
  · rw [Int.le_ediv_iff_mul_le (by have := hcompact hpos; omega)]
    omega
  · exact le_refl 1

/-- A chain of blocks as `AddToBlockIndex` enters them, each with a target of 256 bits. -/
inductive TargetChain (env : Env) : BlockPtr → Prop where
  | nil : TargetChain env []
  | add {kernel : StakeKernel} {block : CBlock} {nFile nBlockPos : Nat} {p : CBlockIndex}
      {pprev : BlockPtr} {bnTarget : ℤ} (hprev : TargetChain env pprev)
      (hhash : block.hashPrevBlock = BlockPtr.hash pprev) (hpos : 0 < bnTarget)
      (hlt : bnTarget < 2 ^ 256) (hbits : block.nBits = CBigNum.getCompact bnTarget)
      (hfill : kernel.fill block (block.newIndex env nFile nBlockPos pprev) pprev = .ok p) :
      TargetChain env (p :: pprev)

theorem TargetChain.trust_lt {env : Env} {ptr : BlockPtr} (h : TargetChain env ptr) :
    ptr.Pairwise fun p q => q.bnChainTrust < p.bnChainTrust := by
  induction h with
  | nil => exact List.Pairwise.nil
  | @add kernel block nFile nBlockPos p pprev bnTarget hprev hhash hpos hlt hbits hfill ih =>
      have hsum := (entryOf_newIndex hhash hfill).1.sumsTrust
      have htrust : 1 ≤ getBlockTrust p.nBits p.isProofOfStake := by
        obtain ⟨nStakeModifier, fGenerated, hp⟩ := StakeKernel.fill_eq hfill
        have hbits' : p.nBits = CBigNum.getCompact bnTarget := by
          rw [hp, ← hbits]
          rfl
        rw [hbits']
        exact one_le_getBlockTrust hpos hlt _
      apply List.Pairwise.cons _ ih
      intro q hq
      cases pprev with
      | nil => cases hq
      | cons r rest =>
          have hstep : p.bnChainTrust = r.bnChainTrust + getBlockTrust p.nBits p.isProofOfStake := hsum
          have hbelow : q.bnChainTrust ≤ r.bnChainTrust := by
            rcases List.mem_cons.mp hq with rfl | hq
            · exact le_refl _
            · exact (List.rel_of_pairwise_cons ih hq).le
          omega

/-- What a number is when it has been through its compact form. -/
def compacted (x : ℤ) : ℤ := CBigNum.setCompact (CBigNum.getCompact x)

/-- The length of a number as `BN_bn2mpi` writes it, without the length field. -/
def mpiLength (x : ℤ) : Nat := (CBigNum.bn2mpi x).length - 4

theorem compacted_eq {m : Nat} (hm : 0 < m) (hsize : mpiLength m ≤ 255) :
    compacted m = leadingPart m := by
  rw [mpiLength, CBigNum.length_bn2mpi, Nat.add_sub_cancel_left, Int.natAbs_natCast] at hsize
  exact CBigNum.setCompact_getCompact hm (by omega)

/-- Compact targets lose little, keep the order, and make every block count. -/
theorem compact_targets (env : Env) :
    (∀ x : ℤ, 0 < x → mpiLength x ≤ 255 →
      0 < compacted x ∧ compacted x ≤ x ∧ (x - compacted x : ℚ) < compacted x / 2 ^ 15 ∧
        (mpiLength x ≤ 3 → compacted x = x) ∧
        CBigNum.getCompact (compacted x) = CBigNum.getCompact x) ∧
    (∀ x y : ℤ, 0 < x → x ≤ y → mpiLength y ≤ 255 → compacted x ≤ compacted y) ∧
    (∀ bnTarget : ℤ, 0 < bnTarget → bnTarget < 2 ^ 256 → ∀ isProofOfStake,
      1 ≤ getBlockTrust (CBigNum.getCompact bnTarget) isProofOfStake) ∧
    ∀ ptr, TargetChain env ptr → ptr.Pairwise fun p q => q.bnChainTrust < p.bnChainTrust := by
  have hlength : ∀ m : Nat, mpiLength m = CBigNum.mpiSize m := by
    intro m
    rw [mpiLength, CBigNum.length_bn2mpi, Nat.add_sub_cancel_left, Int.natAbs_natCast]
  refine ⟨?_, ?_, fun _ hpos hlt => one_le_getBlockTrust hpos hlt, fun _ h => h.trust_lt⟩
  · intro x hx hsize
    lift x to ℕ using hx.le
    have hm : 0 < x := by exact_mod_cast hx
    rw [compacted_eq hm hsize]
    refine ⟨by exact_mod_cast CBigNum.leadingPart_pos hm, by exact_mod_cast CBigNum.leadingPart_le x,
      ?_, ?_, CBigNum.getCompact_leadingPart hm⟩
    · have hlost := CBigNum.sub_leadingPart_lt hm
      rw [lt_div_iff₀ (by positivity)]
      have hle := CBigNum.leadingPart_le x
      have hcast : ((2 ^ 15 * (x - leadingPart x) : Nat) : ℚ) < leadingPart x := by
        exact_mod_cast hlost
      push_cast [Nat.cast_sub hle] at hcast ⊢
      linarith
    · intro hsmall
      rw [hlength] at hsmall
      simp [leadingPart, Nat.sub_eq_zero_of_le hsmall]
  · intro x y hx hxy hsize
    lift x to ℕ using hx.le
    lift y to ℕ using hx.le.trans hxy
    have hm : 0 < x := by exact_mod_cast hx
    have hxy : x ≤ y := by exact_mod_cast hxy
    have hsizes : mpiLength x ≤ mpiLength y := by
      rw [hlength, hlength, CBigNum.mpiSize, CBigNum.mpiSize, if_neg (by omega), if_neg (by omega)]
      have := Nat.size_le_size hxy
      omega
    rw [compacted_eq hm (by omega), compacted_eq (by omega) hsize]
    exact_mod_cast CBigNum.leadingPart_mono hm hxy

end ShinyCoin

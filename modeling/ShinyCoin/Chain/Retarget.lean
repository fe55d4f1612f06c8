import Mathlib.Data.Nat.Size
import Mathlib.Data.Rat.Floor
import Mathlib.Tactic.Linarith
import Mathlib.Tactic.Positivity
import ShinyCoin.Reload.Run

/-!
# Difficulty retargeting

The target of the next block comes from the last blocks of its own type, proof of work or proof of
stake: the average of their targets, scaled by the time they took over the time they should have taken.
The two types share the chain, and each counts heights of its own, from which the genesis block is left
out.
-/

namespace ShinyCoin

/-! ## Compact targets -/

/-- `CBigNum::GetCompact` -/
def getCompact (bn : ℤ) : Nat :=
  let m := bn.natAbs
  -- BN_bn2mpi: a byte more where the top bit is taken, for the sign
  let nSize := if m = 0 then 0 else m.size / 8 + 1
  let nWord := if nSize ≤ 3 then m * 256 ^ (3 - nSize) else m / 256 ^ (nSize - 3)
  (nSize * 2 ^ 24 + (if bn < 0 then 2 ^ 23 else 0) + nWord) % 2 ^ 32

theorem setCompact_word {nSize nWord : Nat} (hsize : nSize < 256) (hword : nWord < 2 ^ 23) :
    setCompact (nSize * 2 ^ 24 + nWord)
      = ((if nSize ≤ 3 then nWord / 256 ^ (3 - nSize) else nWord * 256 ^ (nSize - 3) : Nat) : ℤ) := by
  have hbit : (nSize * 2 ^ 24 + nWord).testBit 23 = false := by
    rw [Nat.testBit_eq_decide_div_mod_eq]
    apply decide_eq_false
    omega
  have hdiv : (nSize * 2 ^ 24 + nWord) / 2 ^ 24 % 2 ^ 8 = nSize := by omega
  have hmod : (nSize * 2 ^ 24 + nWord) % 2 ^ 23 = nWord := by omega
  simp only [setCompact, hbit, hdiv, hmod, Bool.false_and, Bool.false_eq_true, if_false]

/-- The first bytes of a number, with its sign, are a word of 23 bits. -/
theorem compactWord_lt {m : Nat} (hbig : 3 < m.size / 8 + 1) :
    m / 256 ^ (m.size / 8 + 1 - 3) < 2 ^ 23 := by
  apply Nat.div_lt_of_lt_mul
  calc m < 2 ^ m.size := Nat.lt_size_self m
    _ ≤ 2 ^ (8 * (m.size / 8 + 1 - 3) + 23) := Nat.pow_le_pow_right (by decide) (by omega)
    _ = 256 ^ (m.size / 8 + 1 - 3) * 2 ^ 23 := by rw [pow_add, pow_mul]; norm_num

theorem compactWord_lt_of_small {m : Nat} (hsmall : m.size / 8 + 1 ≤ 3) :
    m * 256 ^ (3 - (m.size / 8 + 1)) < 2 ^ 23 := by
  calc m * 256 ^ (3 - (m.size / 8 + 1)) < 2 ^ m.size * 256 ^ (3 - (m.size / 8 + 1)) :=
        Nat.mul_lt_mul_of_pos_right (Nat.lt_size_self m) (by positivity)
    _ = 2 ^ (m.size + 8 * (3 - (m.size / 8 + 1))) := by rw [pow_add, pow_mul]; norm_num
    _ ≤ 2 ^ 23 := Nat.pow_le_pow_right (by decide) (by omega)

/-- Small numbers have a compact form of their own; of larger ones it has the first bytes. -/
theorem setCompact_getCompact {m : Nat} (hm : 0 < m) (hsize : m.size / 8 + 1 < 256) :
    setCompact (getCompact m) = ((if m.size / 8 + 1 ≤ 3 then m
      else m / 256 ^ (m.size / 8 + 1 - 3) * 256 ^ (m.size / 8 + 1 - 3) : Nat) : ℤ) := by
  have hneg : ¬ (m : ℤ) < 0 := by omega
  simp only [getCompact, Int.natAbs_natCast, if_neg (Nat.pos_iff_ne_zero.mp hm), if_neg hneg]
  split
  · next hsmall =>
    have hword := compactWord_lt_of_small hsmall
    rw [Nat.mod_eq_of_lt (by omega), Nat.add_zero, setCompact_word hsize hword, if_pos hsmall,
      Nat.mul_div_cancel _ (by positivity)]
  · next hbig =>
    have hword := compactWord_lt (not_le.mp hbig)
    rw [Nat.mod_eq_of_lt (by omega), Nat.add_zero, setCompact_word hsize hword, if_neg hbig]

/-- A compact target is rounded down, but not to zero. -/
theorem setCompact_getCompact_bounds {bn : ℤ} (hnonneg : 0 ≤ bn) (hlt : bn < 2 ^ 256) :
    setCompact (getCompact bn) ≤ bn ∧ (0 < bn → 0 < setCompact (getCompact bn)) := by
  lift bn to ℕ using hnonneg
  rcases Nat.eq_zero_or_pos bn with rfl | hm
  · exact ⟨le_refl 0, fun h => absurd h (lt_irrefl 0)⟩
  have hbits : bn.size ≤ 256 := Nat.size_le.mpr (by exact_mod_cast hlt)
  rw [setCompact_getCompact hm (by omega)]
  split
  · exact ⟨le_refl _, id⟩
  · next hbig =>
    refine ⟨by exact_mod_cast Nat.div_mul_le_self bn _, fun _ => ?_⟩
    have hpow : 256 ^ (bn.size / 8 + 1 - 3) ≤ bn := by
      calc 256 ^ (bn.size / 8 + 1 - 3) = 2 ^ (8 * (bn.size / 8 + 1 - 3)) := by
            rw [pow_mul]; norm_num
        _ ≤ bn := Nat.lt_size.mp (by omega)
    have hword : 0 < bn / 256 ^ (bn.size / 8 + 1 - 3) := Nat.div_pos hpow (by positivity)
    exact_mod_cast Nat.mul_pos hword (by positivity)

/-! ## The functions -/

def STAKE_TARGET_SPACING : ℤ := 2 * 60
def WORK_TARGET_SPACING : ℤ := 5 * 60
def nTargetSpacingWorkMax : ℤ := 60 * STAKE_TARGET_SPACING

def nPastBlocksMin : ℤ := 2
def nPastBlocksMax : ℕ := 24

def nPoWSwitchHeight : ℤ := 8

/-- `bnOldProofOfWorkLimit` -/
def bnOldProofOfWorkLimit (fTestNet : Bool) : ℤ :=
  (2 ^ 256 - 1) / 2 ^ (if fTestNet then 5 else 17)

/-- `bnNewProofOfWorkLimit` -/
def bnNewProofOfWorkLimit (fTestNet : Bool) : ℤ :=
  (2 ^ 256 - 1) / 2 ^ (if fTestNet then 5 else 10)

/-- `bnInitialPoSTarget` -/
def bnInitialPoSTarget (fTestNet : Bool) : ℤ :=
  (2 ^ 256 - 1) / 2 ^ (if fTestNet then 14 else 36)

def getProofOfWorkLimit (fTestNet : Bool) (nHeight : ℤ) : ℤ :=
  if nHeight < nPoWSwitchHeight then bnOldProofOfWorkLimit fTestNet
  else bnNewProofOfWorkLimit fTestNet

def getLastBlockIndex2 (pindex : BlockPtr) (fProofOfStake : Bool) : BlockPtr :=
  match pindex with
  | [] => []
  | p :: pprev =>
      if p.isProofOfStake != fProofOfStake then getLastBlockIndex2 pprev fProofOfStake
      else p :: pprev

def getTypeHeight (pindex : BlockPtr) (fProofOfStake : Bool) : ℤ :=
  match pindex with
  | [] => 0
  | p :: _ => if fProofOfStake then p.nHeight - p.nPoWHeight else p.nPoWHeight

theorem getLastBlockIndex2_suffix (ptr : BlockPtr) (fProofOfStake : Bool) :
    getLastBlockIndex2 ptr fProofOfStake <:+ ptr := by
  induction ptr with
  | nil => exact List.suffix_rfl
  | cons p pprev ih =>
      rw [getLastBlockIndex2]
      split
      · exact ih.trans (List.suffix_cons p pprev)
      · exact List.suffix_rfl

/-- The variables of the loop over the past blocks. -/
structure TargetScan where
  nCountBlocks : ℕ := 0
  nActualTimespan : ℤ := 0
  nLastBlockTime : ℤ
  bnPastTargetAverage : ℤ := 0
  pLastBlockReading : BlockPtr := []

/-- One round of the loop, at the block `p`. -/
def TargetScan.read (scan : TargetScan) (p : CBlockIndex) (pprev : BlockPtr) : TargetScan where
  nCountBlocks := scan.nCountBlocks + 1
  nActualTimespan := scan.nActualTimespan + (scan.nLastBlockTime - p.nTime)
  nLastBlockTime := p.nTime
  bnPastTargetAverage :=
    if scan.nCountBlocks = 0 then setCompact p.nBits
    else (scan.bnPastTargetAverage * scan.nCountBlocks + setCompact p.nBits).tdiv
      (scan.nCountBlocks + 1)
  pLastBlockReading := p :: pprev

/-- The loop over the past blocks. -/
def scanTargets (fProofOfStake : Bool) (pBlockReading : BlockPtr) (scan : TargetScan) : TargetScan :=
  match pBlockReading with
  | [] => scan
  | p :: pprev =>
      if 1 < getTypeHeight (p :: pprev) fProofOfStake ∧ scan.nCountBlocks < nPastBlocksMax then
        scanTargets fProofOfStake (getLastBlockIndex2 pprev fProofOfStake) (scan.read p pprev)
      else scan
termination_by pBlockReading.length
decreasing_by exact Nat.lt_succ_of_le (getLastBlockIndex2_suffix pprev fProofOfStake).length_le

def TargetScan.nTargetTimespan (scan : TargetScan) (pBlockLastSolved : BlockPtr)
    (fProofOfStake : Bool) : ℤ :=
  if fProofOfStake then scan.nCountBlocks * STAKE_TARGET_SPACING
  else
    let nCountStakeBlocks :=
      getTypeHeight pBlockLastSolved true - getTypeHeight scan.pLastBlockReading true
    min (scan.nCountBlocks * WORK_TARGET_SPACING + nCountStakeBlocks * STAKE_TARGET_SPACING)
      (scan.nCountBlocks * nTargetSpacingWorkMax)

/-- A conversion to an integer type: the fraction is cut off. -/
def truncate (q : ℚ) : ℤ := q.num.tdiv q.den

/-- `dMaxAdjust`, as an exact number -/
def TargetScan.dMaxAdjust (scan : TargetScan) : ℚ :=
  1 + 2 * scan.nCountBlocks / nPastBlocksMax

/-- `nActualTimespan` between its limits. -/
def clampTimespan (dMaxAdjust : ℚ) (nTargetTimespan nActualTimespan : ℤ) : ℤ :=
  let nActualTimespan :=
    if (nActualTimespan : ℚ) < nTargetTimespan / dMaxAdjust then truncate (nTargetTimespan / dMaxAdjust)
    else nActualTimespan
  if nTargetTimespan * dMaxAdjust < (nActualTimespan : ℚ) then truncate (nTargetTimespan * dMaxAdjust)
  else nActualTimespan

/-- The heights after the switch, at which the target is the limit. -/
abbrev InSwitchWindow (pBlockLastSolved : CBlockIndex) : Prop :=
  nPoWSwitchHeight ≤ pBlockLastSolved.nHeight ∧ pBlockLastSolved.nHeight < nPoWSwitchHeight + 8

/-- Too few blocks of the type for an average. -/
abbrev ShortHistory (pBlockReading : BlockPtr) (fProofOfStake : Bool) : Prop :=
  pBlockReading = [] ∨ getTypeHeight pBlockReading fProofOfStake - 1 < nPastBlocksMin

/-- The scan as it is after the loop, from the last solved block. -/
def pastTargets (pLast : CBlockIndex) (pprev : BlockPtr) (fProofOfStake : Bool) : TargetScan :=
  scanTargets fProofOfStake (getLastBlockIndex2 (pLast :: pprev) fProofOfStake)
    { nLastBlockTime := pLast.nTime }

/-- `GetNextTargetRequired`; `none` where a null pointer is dereferenced or a division is by zero. -/
def getNextTargetRequired (fTestNet : Bool) (pBlockLastSolved : BlockPtr) (fProofOfStake : Bool) :
    Option Nat :=
  match pBlockLastSolved with
  | [] => none
  | pLast :: pprev =>
      let bnProofOfWorkLimit := getProofOfWorkLimit fTestNet pLast.nHeight
      if InSwitchWindow pLast then some (getCompact (bnNewProofOfWorkLimit fTestNet))
      else if ShortHistory (getLastBlockIndex2 (pLast :: pprev) fProofOfStake) fProofOfStake then
        some (getCompact (if fProofOfStake then bnInitialPoSTarget fTestNet else bnProofOfWorkLimit))
      else
        let scan := pastTargets pLast pprev fProofOfStake
        let nTargetTimespan := scan.nTargetTimespan (pLast :: pprev) fProofOfStake
        if nTargetTimespan = 0 then none
        else
          let nActualTimespan := clampTimespan scan.dMaxAdjust nTargetTimespan scan.nActualTimespan
          let bnNewTarget := (scan.bnPastTargetAverage * nActualTimespan).tdiv nTargetTimespan
          some (getCompact (min bnNewTarget bnProofOfWorkLimit))

/-! ## Heights -/

/-- The heights in a chain as `AddToBlockIndex` sets them. -/
def HeightsMaintained : BlockPtr → Prop
  | [] => True
  | p :: pprev =>
      (p.nHeight = (pprev.head?.map fun prev => prev.nHeight + 1).getD 0 ∧
        p.nPoWHeight = (pprev.head?.map fun prev =>
          prev.nPoWHeight + if p.isProofOfStake then 0 else 1).getD 0) ∧
      HeightsMaintained pprev

theorem HeightsMaintained.add {env : Env} {kernel : StakeKernel} {block : CBlock}
    {nFile nBlockPos : Nat} {p : CBlockIndex} {pprev : BlockPtr} (h : HeightsMaintained pprev)
    (hprev : block.hashPrevBlock = BlockPtr.hash pprev)
    (hfill : kernel.fill block (block.newIndex env nFile nBlockPos pprev) pprev = .ok p) :
    HeightsMaintained (p :: pprev) := by
  obtain ⟨-, hpos, -⟩ := entryOf_newIndex hprev hfill
  obtain ⟨nStakeModifier, fGenerated, hp⟩ := StakeKernel.fill_eq hfill
  refine ⟨⟨by rw [hp]; rfl, ?_⟩, h⟩
  have hheight : p.nPoWHeight = (pprev.head?.map fun prev =>
      prev.nPoWHeight + if block.isProofOfWork then 1 else 0).getD 0 := by
    rw [hp]
    rfl
  rw [hheight, hpos, CBlock.isProofOfWork]
  cases block.isProofOfStake <;> rfl

section

variable {p : CBlockIndex} {pprev ptr x : BlockPtr} {fProofOfStake : Bool}

theorem HeightsMaintained.suffix (h : HeightsMaintained ptr) (hx : x <:+ ptr) :
    HeightsMaintained x := by
  induction ptr with
  | nil => rwa [List.suffix_nil.mp hx]
  | cons p pprev ih =>
      rcases List.suffix_cons_iff.mp hx with rfl | hx
      · exact h
      · exact ih h.2 hx

/-- A block counts for its own type, but for the genesis block. -/
theorem HeightsMaintained.getTypeHeight_cons (h : HeightsMaintained (p :: pprev))
    (fProofOfStake : Bool) :
    getTypeHeight (p :: pprev) fProofOfStake = getTypeHeight pprev fProofOfStake
      + if p.isProofOfStake = fProofOfStake ∧ pprev ≠ [] then 1 else 0 := by
  obtain ⟨⟨hheight, hwork⟩, -⟩ := h
  cases pprev with
  | nil =>
      replace hheight : p.nHeight = 0 := hheight
      replace hwork : p.nPoWHeight = 0 := hwork
      simp [getTypeHeight, hheight, hwork]
  | cons q rest =>
      replace hheight : p.nHeight = q.nHeight + 1 := hheight
      replace hwork : p.nPoWHeight = q.nPoWHeight + if p.isProofOfStake then 0 else 1 := hwork
      cases hpos : p.isProofOfStake <;> cases fProofOfStake <;>
        simp [getTypeHeight, hheight, hwork, hpos]
      omega

theorem HeightsMaintained.getTypeHeight_mono (h : HeightsMaintained ptr) (hx : x <:+ ptr) :
    getTypeHeight x fProofOfStake ≤ getTypeHeight ptr fProofOfStake := by
  induction ptr with
  | nil => rw [List.suffix_nil.mp hx]
  | cons p pprev ih =>
      rcases List.suffix_cons_iff.mp hx with rfl | hx
      · exact le_refl _
      · have hstep := h.getTypeHeight_cons fProofOfStake
        have hle := ih h.2 hx
        split at hstep <;> omega

/-- The blocks that are skipped do not count. -/
theorem HeightsMaintained.getTypeHeight_getLastBlockIndex2 (h : HeightsMaintained ptr) :
    getTypeHeight (getLastBlockIndex2 ptr fProofOfStake) fProofOfStake
      = getTypeHeight ptr fProofOfStake := by
  induction ptr with
  | nil => rfl
  | cons p pprev ih =>
      rw [getLastBlockIndex2]
      split
      · next hne =>
        rw [ih h.2, h.getTypeHeight_cons, if_neg (fun hp => bne_iff_ne.mp hne hp.1), add_zero]
      · rfl

theorem isProofOfStake_getLastBlockIndex2
    (h : getLastBlockIndex2 ptr fProofOfStake = p :: pprev) : p.isProofOfStake = fProofOfStake := by
  induction ptr with
  | nil => cases h
  | cons q rest ih =>
      rw [getLastBlockIndex2] at h
      split at h
      · exact ih h
      · next heq =>
        cases h
        exact not_not.mp (fun hne => heq (bne_iff_ne.mpr hne))

end

/-! ## The blocks the loop reads -/

/-- The blocks that the loop reads, each with its `pprev`, once it has read `nCountBlocks`. -/
def blocksRead (fProofOfStake : Bool) (pBlockReading : BlockPtr) (nCountBlocks : ℕ) :
    List (CBlockIndex × BlockPtr) :=
  match pBlockReading with
  | [] => []
  | p :: pprev =>
      if 1 < getTypeHeight (p :: pprev) fProofOfStake ∧ nCountBlocks < nPastBlocksMax then
        (p, pprev) :: blocksRead fProofOfStake (getLastBlockIndex2 pprev fProofOfStake)
          (nCountBlocks + 1)
      else []
termination_by pBlockReading.length
decreasing_by exact Nat.lt_succ_of_le (getLastBlockIndex2_suffix pprev fProofOfStake).length_le

/-- The rounds of the loop, at the blocks of a list. -/
def TargetScan.readAll (scan : TargetScan) (blocks : List (CBlockIndex × BlockPtr)) : TargetScan :=
  blocks.foldl (fun scan block => scan.read block.1 block.2) scan

section

variable {fProofOfStake : Bool} {ptr : BlockPtr}

theorem scanTargets_eq (ptr : BlockPtr) (scan : TargetScan) :
    scanTargets fProofOfStake ptr scan
      = scan.readAll (blocksRead fProofOfStake ptr scan.nCountBlocks) := by
  induction ptr, scan using scanTargets.induct fProofOfStake with
  | case1 scan => rw [scanTargets, blocksRead]; rfl
  | case2 scan p pprev hread ih =>
      rw [scanTargets, if_pos hread, blocksRead, if_pos hread, ih]
      rfl
  | case3 scan p pprev hstop =>
      rw [scanTargets, if_neg hstop, blocksRead, if_neg hstop]
      rfl

/-- The blocks read are those of heights 2 and up, at most 24. -/
theorem blocksRead_length (ptr : BlockPtr) (nCountBlocks : ℕ) (h : HeightsMaintained ptr)
    (htype : ∀ p pprev, ptr = p :: pprev → p.isProofOfStake = fProofOfStake) :
    ((blocksRead fProofOfStake ptr nCountBlocks).length : ℤ)
      = max 0 (min ((nPastBlocksMax : ℤ) - nCountBlocks) (getTypeHeight ptr fProofOfStake - 1)) := by
  induction ptr, nCountBlocks using blocksRead.induct fProofOfStake with
  | case1 n => simp [blocksRead, getTypeHeight]
  | case2 n p pprev hread ih =>
      have hstep := h.getTypeHeight_cons fProofOfStake
      have hnext : getTypeHeight (getLastBlockIndex2 pprev fProofOfStake) fProofOfStake
          = getTypeHeight pprev fProofOfStake := h.2.getTypeHeight_getLastBlockIndex2
      rw [if_pos] at hstep
      · rw [blocksRead, if_pos hread, List.length_cons, Nat.cast_succ,
          ih (h.2.suffix (getLastBlockIndex2_suffix _ _))
            (fun _ _ => isProofOfStake_getLastBlockIndex2), hnext]
        obtain ⟨hheight, hcount⟩ := hread
        push_cast
        omega
      · refine ⟨htype p pprev rfl, ?_⟩
        rintro rfl
        have hzero := h.getTypeHeight_cons fProofOfStake
        simp only [ne_eq, not_true_eq_false, and_false, if_false, add_zero] at hzero
        rw [hzero] at hread
        exact absurd hread.1 (not_lt.mpr zero_le_one)
  | case3 n p pprev hstop =>
      rw [blocksRead, if_neg hstop]
      simp only [List.length_nil]
      push_cast
      omega

/-- They are blocks of the chain, of the type asked for. -/
theorem mem_blocksRead (ptr : BlockPtr) (nCountBlocks : ℕ)
    (htype : ∀ p pprev, ptr = p :: pprev → p.isProofOfStake = fProofOfStake) :
    ∀ block ∈ blocksRead fProofOfStake ptr nCountBlocks,
      block.1 :: block.2 <:+ ptr ∧ block.1.isProofOfStake = fProofOfStake := by
  induction ptr, nCountBlocks using blocksRead.induct fProofOfStake with
  | case1 n => simp [blocksRead]
  | case2 n p pprev hread ih =>
      rw [blocksRead, if_pos hread]
      intro block hmem
      rcases List.mem_cons.mp hmem with rfl | hmem
      · exact ⟨List.suffix_rfl, htype p pprev rfl⟩
      · obtain ⟨hsuf, hpos⟩ := ih (fun _ _ => isProofOfStake_getLastBlockIndex2) block hmem
        exact ⟨(hsuf.trans (getLastBlockIndex2_suffix _ _)).trans (List.suffix_cons p pprev), hpos⟩
  | case3 n p pprev hstop =>
      rw [blocksRead, if_neg hstop]
      intro block hmem
      cases hmem

end

/-! ## What the loop computes -/

namespace TargetScan

variable {scan : TargetScan} {blocks : List (CBlockIndex × BlockPtr)} {block : CBlockIndex × BlockPtr}
  {lo hi : ℤ}

theorem readAll_concat (scan : TargetScan) (blocks : List (CBlockIndex × BlockPtr))
    (block : CBlockIndex × BlockPtr) :
    scan.readAll (blocks ++ [block]) = (scan.readAll blocks).read block.1 block.2 := by
  rw [readAll, List.foldl_append]
  rfl

theorem readAll_nCountBlocks (scan : TargetScan) (blocks : List (CBlockIndex × BlockPtr)) :
    (scan.readAll blocks).nCountBlocks = scan.nCountBlocks + blocks.length := by
  induction blocks generalizing scan with
  | nil => rfl
  | cons block blocks ih =>
      show ((scan.read block.1 block.2).readAll blocks).nCountBlocks = _
      rw [ih, List.length_cons]
      show scan.nCountBlocks + 1 + blocks.length = _
      omega

/-- The differences of the times telescope. -/
theorem readAll_nActualTimespan (scan : TargetScan) (blocks : List (CBlockIndex × BlockPtr)) :
    (scan.readAll blocks).nActualTimespan + (scan.readAll blocks).nLastBlockTime
      = scan.nActualTimespan + scan.nLastBlockTime := by
  induction blocks generalizing scan with
  | nil => rfl
  | cons block blocks ih =>
      show ((scan.read block.1 block.2).readAll blocks).nActualTimespan
        + ((scan.read block.1 block.2).readAll blocks).nLastBlockTime = _
      rw [ih]
      show scan.nActualTimespan + (scan.nLastBlockTime - block.1.nTime) + block.1.nTime = _
      omega

/-- The average so far lies between two bounds, if there is one. -/
def Averages (lo hi : ℤ) (scan : TargetScan) : Prop :=
  scan.nCountBlocks ≠ 0 → lo ≤ scan.bnPastTargetAverage ∧ scan.bnPastTargetAverage ≤ hi

theorem Averages.read (h : Averages lo hi scan) (hlo : 0 ≤ lo) {p : CBlockIndex} {pprev : BlockPtr}
    (hp : lo ≤ setCompact p.nBits ∧ setCompact p.nBits ≤ hi) :
    Averages lo hi (scan.read p pprev) := by
  intro _
  show lo ≤ (if _ then _ else _) ∧ (if _ then _ else _) ≤ hi
  split
  · exact hp
  · next hcount =>
    obtain ⟨hle, hge⟩ := h hcount
    have hn : (0 : ℤ) < scan.nCountBlocks + 1 := by omega
    have hlower : lo * (scan.nCountBlocks + 1)
        ≤ scan.bnPastTargetAverage * scan.nCountBlocks + setCompact p.nBits := by
      have := mul_le_mul_of_nonneg_right hle (Int.natCast_nonneg scan.nCountBlocks)
      linarith [hp.1]
    have hupper : scan.bnPastTargetAverage * scan.nCountBlocks + setCompact p.nBits
        ≤ hi * (scan.nCountBlocks + 1) := by
      have := mul_le_mul_of_nonneg_right hge (Int.natCast_nonneg scan.nCountBlocks)
      linarith [hp.2]
    rw [Int.tdiv_eq_ediv_of_nonneg ((mul_nonneg hlo hn.le).trans hlower)]
    exact ⟨(Int.le_ediv_iff_mul_le hn).mpr hlower, Int.ediv_le_of_le_mul hn hupper⟩

theorem Averages.readAll (h : Averages lo hi scan) (hlo : 0 ≤ lo)
    (hblocks : ∀ block ∈ blocks, lo ≤ setCompact block.1.nBits ∧ setCompact block.1.nBits ≤ hi) :
    Averages lo hi (scan.readAll blocks) := by
  induction blocks generalizing scan with
  | nil => exact h
  | cons block blocks ih =>
      exact ih (h.read hlo (hblocks block List.mem_cons_self))
        (fun b hb => hblocks b (List.mem_cons_of_mem block hb))

/-! ## The time the blocks should have taken -/

/-- The time is a whole number of minutes, not 0. -/
theorem nTargetTimespan_eq (ptr : BlockPtr) (hcount : 0 < scan.nCountBlocks)
    (hheight : getTypeHeight scan.pLastBlockReading true ≤ getTypeHeight ptr true)
    (fProofOfStake : Bool) : ∃ k : ℤ, 0 < k ∧ scan.nTargetTimespan ptr fProofOfStake = 3 * k := by
  unfold nTargetTimespan WORK_TARGET_SPACING nTargetSpacingWorkMax STAKE_TARGET_SPACING
  cases fProofOfStake with
  | true => exact ⟨scan.nCountBlocks * 40, by omega, by rw [if_pos rfl]; ring⟩
  | false =>
      refine ⟨min (scan.nCountBlocks * 100
        + (getTypeHeight ptr true - getTypeHeight scan.pLastBlockReading true) * 40)
        (scan.nCountBlocks * 2400), by omega, ?_⟩
      rw [if_neg Bool.false_ne_true]
      dsimp only
      omega

end TargetScan

theorem truncate_eq_floor {q : ℚ} (hq : 0 ≤ q) : truncate q = ⌊q⌋ := by
  rw [truncate, Int.tdiv_eq_ediv_of_nonneg (Rat.num_nonneg.mpr hq), Rat.floor_def']

theorem truncate_le {q : ℚ} (hq : 0 ≤ q) : (truncate q : ℚ) ≤ q := by
  rw [truncate_eq_floor hq]
  exact Int.floor_le q

theorem le_truncate {q : ℚ} {n : ℤ} (hq : 0 ≤ q) (hn : (n : ℚ) ≤ q) : n ≤ truncate q := by
  rw [truncate_eq_floor hq]
  exact Int.le_floor.mpr hn

/-- Whatever the time was, what is left of it is at least a third and at most three times of what it
should have been. -/
theorem clampTimespan_bounds {dMaxAdjust : ℚ} (hd : 1 ≤ dMaxAdjust) (hd' : dMaxAdjust ≤ 3) {k : ℤ}
    (hk : 0 < k) (nActualTimespan : ℤ) :
    k ≤ clampTimespan dMaxAdjust (3 * k) nActualTimespan ∧
      clampTimespan dMaxAdjust (3 * k) nActualTimespan ≤ 3 * (3 * k) := by
  have hpos : (0 : ℚ) < k := by exact_mod_cast hk
  have hdpos : 0 < dMaxAdjust := by linarith
  have hlow : (k : ℚ) ≤ (3 * k : ℤ) / dMaxAdjust := by
    rw [le_div_iff₀ hdpos]
    push_cast
    linarith [mul_le_mul_of_nonneg_left hd' hpos.le]
  have hhigh : (k : ℚ) ≤ (3 * k : ℤ) * dMaxAdjust := by
    push_cast
    linarith [mul_le_mul_of_nonneg_left hd hpos.le]
  have htop : ((3 * k : ℤ) : ℚ) * dMaxAdjust ≤ (3 * (3 * k) : ℤ) := by
    push_cast
    linarith [mul_le_mul_of_nonneg_left hd' hpos.le]
  have hdiv : k ≤ truncate ((3 * k : ℤ) / dMaxAdjust) := le_truncate (hpos.le.trans hlow) hlow
  have hmul : k ≤ truncate ((3 * k : ℤ) * dMaxAdjust) := le_truncate (hpos.le.trans hhigh) hhigh
  unfold clampTimespan
  dsimp only
  constructor
  · split_ifs with h₁ h₂ h₂
    · exact hmul
    · exact hdiv
    · exact hmul
    · have hge : (k : ℚ) ≤ nActualTimespan := hlow.trans (not_lt.mp h₁)
      exact_mod_cast hge
  · rw [← Int.cast_le (R := ℚ)]
    split_ifs with h₁ h₂ h₂
    · exact (truncate_le (hpos.le.trans hhigh)).trans htop
    · exact (not_lt.mp h₂).trans htop
    · exact (truncate_le (hpos.le.trans hhigh)).trans htop
    · exact (not_lt.mp h₂).trans htop

/-! ## The target -/

theorem getProofOfWorkLimit_bounds (fTestNet : Bool) (nHeight : ℤ) :
    0 < getProofOfWorkLimit fTestNet nHeight ∧ getProofOfWorkLimit fTestNet nHeight < 2 ^ 256 := by
  unfold getProofOfWorkLimit
  split
  · cases fTestNet <;> exact ⟨by decide, by decide⟩
  · cases fTestNet <;> exact ⟨by decide, by decide⟩

/-- The average, scaled by a time of at least a third and at most three times the one it should have
taken. -/
theorem newTarget_bounds {average k nActualTimespan limit : ℤ} (haverage : 0 < average) (hk : 0 < k)
    (hle : k ≤ nActualTimespan) (hge : nActualTimespan ≤ 3 * (3 * k)) (hlimit : 0 < limit) :
    0 ≤ min ((average * nActualTimespan).tdiv (3 * k)) limit ∧
      min ((average * nActualTimespan).tdiv (3 * k)) limit ≤ 3 * average ∧
      (3 ≤ average → 0 < min ((average * nActualTimespan).tdiv (3 * k)) limit) := by
  have hk' : 0 < 3 * k := by omega
  have hnonneg : 0 ≤ average * nActualTimespan := mul_nonneg haverage.le (hk.le.trans hle)
  rw [Int.tdiv_eq_ediv_of_nonneg hnonneg]
  refine ⟨le_min (Int.ediv_nonneg hnonneg hk'.le) hlimit.le, (min_le_left _ _).trans ?_,
    fun hthree => lt_min ?_ hlimit⟩
  · apply Int.ediv_le_of_le_mul hk'
    calc average * nActualTimespan ≤ average * (3 * (3 * k)) :=
          mul_le_mul_of_nonneg_left hge haverage.le
      _ = 3 * average * (3 * k) := by ring
  · apply Int.lt_of_add_one_le
    rw [Int.le_ediv_iff_mul_le hk', zero_add, one_mul]
    exact mul_le_mul hthree hle hk.le haverage.le

/-- What is promised of the target where there is a history: `read` are the blocks that are read,
`scan` is what the loop leaves, and `nBits` the target. -/
structure Retargeted (fTestNet fProofOfStake : Bool) (pLast : CBlockIndex)
    (read : List (CBlockIndex × BlockPtr)) (scan : TargetScan) (nBits : Nat) : Prop where
  two_le : 2 ≤ read.length
  le_max : read.length ≤ nPastBlocksMax
  ofType : ∀ block ∈ read, block.1.isProofOfStake = fProofOfStake
  /-- The average is between the smallest and the largest target. -/
  average : ∃ least ∈ read, ∃ most ∈ read,
    (∀ block ∈ read, setCompact least.1.nBits ≤ setCompact block.1.nBits ∧
      setCompact block.1.nBits ≤ setCompact most.1.nBits) ∧
    setCompact least.1.nBits ≤ scan.bnPastTargetAverage ∧
    scan.bnPastTargetAverage ≤ setCompact most.1.nBits
  /-- The time is that from the oldest block read to the last solved one. -/
  timespan : ∃ oldest, read.getLast? = some oldest ∧
    scan.pLastBlockReading = oldest.1 :: oldest.2 ∧
    scan.nActualTimespan = pLast.nTime - oldest.1.nTime
  pos : 3 ≤ scan.bnPastTargetAverage → 0 < setCompact nBits
  le_average : setCompact nBits ≤ 3 * scan.bnPastTargetAverage
  le_limit : setCompact nBits ≤ getProofOfWorkLimit fTestNet pLast.nHeight

section

variable {fTestNet fProofOfStake : Bool} {p : CBlockIndex} {pprev : BlockPtr}

theorem pastTargets_eq (p : CBlockIndex) (pprev : BlockPtr) (fProofOfStake : Bool) :
    pastTargets p pprev fProofOfStake = TargetScan.readAll { nLastBlockTime := p.nTime }
      (blocksRead fProofOfStake (getLastBlockIndex2 (p :: pprev) fProofOfStake) 0) :=
  scanTargets_eq _ _

/-- With a history the loop reads at least two blocks. -/
theorem blocksRead_of_history (hheights : HeightsMaintained (p :: pprev))
    (hlong : ¬ ShortHistory (getLastBlockIndex2 (p :: pprev) fProofOfStake) fProofOfStake) :
    2 ≤ (blocksRead fProofOfStake (getLastBlockIndex2 (p :: pprev) fProofOfStake) 0).length ∧
      (blocksRead fProofOfStake (getLastBlockIndex2 (p :: pprev) fProofOfStake) 0).length
        ≤ nPastBlocksMax := by
  have hlength := blocksRead_length _ 0 (hheights.suffix (getLastBlockIndex2_suffix _ fProofOfStake))
    (fun _ _ => isProofOfStake_getLastBlockIndex2)
  obtain ⟨-, hheight⟩ := not_or.mp hlong
  unfold nPastBlocksMin at hheight
  unfold nPastBlocksMax at hlength ⊢
  omega

/-- The average is between the smallest and the largest target read. -/
theorem pastTargets_average {read : List (CBlockIndex × BlockPtr)} (scan : TargetScan)
    (hscan : scan.nCountBlocks = 0) (hne : read ≠ [])
    (htargets : ∀ block ∈ read, 0 ≤ setCompact block.1.nBits) :
    ∃ least ∈ read, ∃ most ∈ read,
      (∀ block ∈ read, setCompact least.1.nBits ≤ setCompact block.1.nBits ∧
        setCompact block.1.nBits ≤ setCompact most.1.nBits) ∧
      setCompact least.1.nBits ≤ (scan.readAll read).bnPastTargetAverage ∧
      (scan.readAll read).bnPastTargetAverage ≤ setCompact most.1.nBits := by
  have hfin : read.toFinset.Nonempty := List.toFinset_nonempty_iff read |>.mpr hne
  obtain ⟨least, hleast, hmin⟩ :=
    read.toFinset.exists_min_image (fun block => setCompact block.1.nBits) hfin
  obtain ⟨most, hmost, hmax⟩ :=
    read.toFinset.exists_max_image (fun block => setCompact block.1.nBits) hfin
  rw [List.mem_toFinset] at hleast hmost
  have hbounds : ∀ block ∈ read, setCompact least.1.nBits ≤ setCompact block.1.nBits ∧
      setCompact block.1.nBits ≤ setCompact most.1.nBits := fun block hblock =>
    ⟨hmin block (List.mem_toFinset.mpr hblock), hmax block (List.mem_toFinset.mpr hblock)⟩
  have haverages : TargetScan.Averages (setCompact least.1.nBits) (setCompact most.1.nBits)
      (scan.readAll read) :=
    TargetScan.Averages.readAll (fun hcount => absurd hscan hcount) (htargets least hleast) hbounds
  have hcount : (scan.readAll read).nCountBlocks ≠ 0 := by
    rw [TargetScan.readAll_nCountBlocks, hscan, zero_add]
    exact fun h => hne (List.length_eq_zero_iff.mp h)
  exact ⟨least, hleast, most, hmost, hbounds, haverages hcount⟩

/-- The time runs from the oldest block read to where the loop started. -/
theorem pastTargets_timespan {read : List (CBlockIndex × BlockPtr)} (scan : TargetScan)
    (hscan : scan.nActualTimespan = 0) (hne : read ≠ []) :
    ∃ oldest ∈ read, read.getLast? = some oldest ∧
      (scan.readAll read).pLastBlockReading = oldest.1 :: oldest.2 ∧
      (scan.readAll read).nActualTimespan = scan.nLastBlockTime - oldest.1.nTime := by
  obtain ⟨init, oldest, rfl⟩ := (List.eq_nil_or_concat read).resolve_left hne
  rw [List.concat_eq_append]
  have htele := scan.readAll_nActualTimespan (init ++ [oldest])
  refine ⟨oldest, by simp, List.getLast?_concat, ?_, ?_⟩
  · rw [TargetScan.readAll_concat]
    rfl
  · rw [hscan, zero_add] at htele
    have hlast : (scan.readAll (init ++ [oldest])).nLastBlockTime = oldest.1.nTime := by
      rw [TargetScan.readAll_concat]
      rfl
    omega

theorem TargetScan.dMaxAdjust_bounds {scan : TargetScan} (hcount : scan.nCountBlocks ≤ nPastBlocksMax) :
    1 ≤ scan.dMaxAdjust ∧ scan.dMaxAdjust ≤ 3 := by
  have hcount' : (scan.nCountBlocks : ℚ) ≤ 24 := by exact_mod_cast hcount
  have hnonneg : (0 : ℚ) ≤ scan.nCountBlocks := Nat.cast_nonneg _
  unfold dMaxAdjust nPastBlocksMax
  push_cast
  constructor <;> linarith

theorem getNextTargetRequired_eq {scan : TargetScan} {nTargetTimespan : ℤ}
    (hwindow : ¬ InSwitchWindow p)
    (hlong : ¬ ShortHistory (getLastBlockIndex2 (p :: pprev) fProofOfStake) fProofOfStake)
    (hscan : pastTargets p pprev fProofOfStake = scan)
    (htime : scan.nTargetTimespan (p :: pprev) fProofOfStake = nTargetTimespan)
    (hne : nTargetTimespan ≠ 0) :
    getNextTargetRequired fTestNet (p :: pprev) fProofOfStake = some (getCompact
      (min ((scan.bnPastTargetAverage
          * clampTimespan scan.dMaxAdjust nTargetTimespan scan.nActualTimespan).tdiv nTargetTimespan)
        (getProofOfWorkLimit fTestNet p.nHeight))) := by
  rw [getNextTargetRequired]
  dsimp only
  rw [if_neg hwindow, if_neg hlong, hscan, htime, if_neg hne]

/-- What is promised follows from what is known of the blocks read. -/
theorem retargeted_of_read {read : List (CBlockIndex × BlockPtr)} {scan : TargetScan}
    (htwo : 2 ≤ read.length) (hmax : read.length ≤ nPastBlocksMax)
    (htype : ∀ block ∈ read, block.1.isProofOfStake = fProofOfStake)
    (htarget : ∀ block ∈ read, 0 < setCompact block.1.nBits)
    (hscan : scan = TargetScan.readAll { nLastBlockTime := p.nTime } read) {k : ℤ} (hk : 0 < k) :
    Retargeted fTestNet fProofOfStake p read scan (getCompact
      (min ((scan.bnPastTargetAverage
          * clampTimespan scan.dMaxAdjust (3 * k) scan.nActualTimespan).tdiv (3 * k))
        (getProofOfWorkLimit fTestNet p.nHeight))) := by
  have hne : read ≠ [] := by
    rintro rfl
    exact absurd htwo (by decide)
  have haverage := pastTargets_average { nLastBlockTime := p.nTime } rfl hne
    fun block hblock => (htarget block hblock).le
  obtain ⟨oldest, -, hgetLast, hlast, htime⟩ :=
    pastTargets_timespan { nLastBlockTime := p.nTime } rfl hne
  have hcount := TargetScan.readAll_nCountBlocks { nLastBlockTime := p.nTime } read
  rw [← hscan] at haverage hlast htime hcount
  obtain ⟨least, hleast, most, hmost, hbounds, hlow, hhigh⟩ := haverage
  have hpos : 0 < scan.bnPastTargetAverage := (htarget least hleast).trans_le hlow
  obtain ⟨hd, hd'⟩ := scan.dMaxAdjust_bounds (by rw [hcount, zero_add]; exact hmax)
  obtain ⟨hle, hge⟩ := clampTimespan_bounds hd hd' hk scan.nActualTimespan
  obtain ⟨hlimit, hlimit'⟩ := getProofOfWorkLimit_bounds fTestNet p.nHeight
  obtain ⟨hnonneg, hthree, hone⟩ := newTarget_bounds hpos hk hle hge hlimit
  obtain ⟨hcompact, hcompactPos⟩ :=
    setCompact_getCompact_bounds hnonneg ((min_le_right _ _).trans_lt hlimit')
  exact {
    two_le := htwo
    le_max := hmax
    ofType := htype
    average := ⟨least, hleast, most, hmost, hbounds, hlow, hhigh⟩
    timespan := ⟨oldest, hgetLast, hlast, htime⟩
    pos := fun h => hcompactPos (hone h)
    le_average := hcompact.trans hthree
    le_limit := hcompact.trans (min_le_right _ _) }

/-- With a history: the blocks read are ancestors of the type, and the time is not 0. -/
theorem pastTargets_of_history (hheights : HeightsMaintained (p :: pprev))
    (hlong : ¬ ShortHistory (getLastBlockIndex2 (p :: pprev) fProofOfStake) fProofOfStake) :
    ∃ read, read = blocksRead fProofOfStake (getLastBlockIndex2 (p :: pprev) fProofOfStake) 0 ∧
      2 ≤ read.length ∧ read.length ≤ nPastBlocksMax ∧
      (∀ block ∈ read, block.1 :: block.2 <:+ p :: pprev ∧ block.1.isProofOfStake = fProofOfStake) ∧
      pastTargets p pprev fProofOfStake = TargetScan.readAll { nLastBlockTime := p.nTime } read ∧
      ∃ k : ℤ, 0 < k ∧
        (pastTargets p pprev fProofOfStake).nTargetTimespan (p :: pprev) fProofOfStake = 3 * k := by
  obtain ⟨htwo, hmax⟩ := blocksRead_of_history hheights hlong
  have hscan := pastTargets_eq p pprev fProofOfStake
  have hmem := @mem_blocksRead fProofOfStake
    (getLastBlockIndex2 (p :: pprev) fProofOfStake) 0 (fun _ _ => isProofOfStake_getLastBlockIndex2)
  have hread : ∀ block ∈ blocksRead fProofOfStake
      (getLastBlockIndex2 (p :: pprev) fProofOfStake) 0,
      block.1 :: block.2 <:+ p :: pprev ∧ block.1.isProofOfStake = fProofOfStake :=
    fun block hblock =>
      ⟨(hmem block hblock).1.trans (getLastBlockIndex2_suffix _ _), (hmem block hblock).2⟩
  refine ⟨_, rfl, htwo, hmax, hread, hscan, ?_⟩
  generalize blocksRead fProofOfStake (getLastBlockIndex2 (p :: pprev) fProofOfStake) 0 = read at *
  have hne : read ≠ [] := by
    rintro rfl
    exact absurd htwo (by decide)
  obtain ⟨oldest, holdest, -, hlast, -⟩ :=
    pastTargets_timespan { nLastBlockTime := p.nTime } rfl hne
  have hcount := TargetScan.readAll_nCountBlocks { nLastBlockTime := p.nTime } read
  rw [← hscan] at hlast hcount
  exact TargetScan.nTargetTimespan_eq (p :: pprev) (by rw [hcount, zero_add]; omega)
    (by rw [hlast]; exact hheights.getTypeHeight_mono (hread oldest holdest).1) fProofOfStake

/-- `GetNextTargetRequired` always returns a target, and outside the switch window and with enough
blocks of the type it is close to the average of the last ones. -/
theorem getNextTargetRequired_wellDefined (fTestNet : Bool) (hheights : HeightsMaintained (p :: pprev))
    (htargets : ∀ q ∈ p :: pprev, 0 < setCompact q.nBits) (fProofOfStake : Bool) :
    ∃ nBits, getNextTargetRequired fTestNet (p :: pprev) fProofOfStake = some nBits ∧
      (¬ InSwitchWindow p →
        ¬ ShortHistory (getLastBlockIndex2 (p :: pprev) fProofOfStake) fProofOfStake →
        Retargeted fTestNet fProofOfStake p
          (blocksRead fProofOfStake (getLastBlockIndex2 (p :: pprev) fProofOfStake) 0)
          (pastTargets p pprev fProofOfStake) nBits) := by
  by_cases hwindow : InSwitchWindow p
  · exact ⟨_, by rw [getNextTargetRequired]; exact if_pos hwindow, fun h => absurd hwindow h⟩
  by_cases hshort : ShortHistory (getLastBlockIndex2 (p :: pprev) fProofOfStake) fProofOfStake
  · exact ⟨_, by rw [getNextTargetRequired]; exact (if_neg hwindow).trans (if_pos hshort),
      fun _ h => absurd hshort h⟩
  obtain ⟨read, hread, htwo, hmax, hmem, hscan, k, hk, htime⟩ :=
    pastTargets_of_history hheights hshort
  have htarget : ∀ block ∈ read, 0 < setCompact block.1.nBits := fun block hblock =>
    htargets block.1 ((hmem block hblock).1.subset List.mem_cons_self)
  rw [← hread]
  exact ⟨_, getNextTargetRequired_eq hwindow hshort rfl htime (by omega),
    fun _ _ => retargeted_of_read htwo hmax (fun block hblock => (hmem block hblock).2) htarget hscan hk⟩

theorem getCompact_bounds {bn limit : ℤ} (hnonneg : 0 ≤ bn) (hle : bn ≤ limit) (hlt : limit < 2 ^ 256) :
    0 ≤ setCompact (getCompact bn) ∧ setCompact (getCompact bn) ≤ limit := by
  obtain ⟨hcompact, hpos⟩ := setCompact_getCompact_bounds hnonneg (hle.trans_lt hlt)
  refine ⟨?_, hcompact.trans hle⟩
  rcases hnonneg.eq_or_lt with rfl | hbn
  · decide
  · exact (hpos hbn).le

/-- Over targets that are not negative, the next one is not negative, and not easier than the limit. -/
theorem getNextTargetRequired_le_limit (fTestNet : Bool) (hheights : HeightsMaintained (p :: pprev))
    (htargets : ∀ q ∈ p :: pprev, 0 ≤ setCompact q.nBits) (fProofOfStake : Bool) :
    ∃ nBits, getNextTargetRequired fTestNet (p :: pprev) fProofOfStake = some nBits ∧
      0 ≤ setCompact nBits ∧ setCompact nBits ≤ bnNewProofOfWorkLimit fTestNet := by
  have hmax : bnNewProofOfWorkLimit fTestNet < 2 ^ 256 := by cases fTestNet <;> decide
  have hlimit : 0 ≤ getProofOfWorkLimit fTestNet p.nHeight ∧
      getProofOfWorkLimit fTestNet p.nHeight ≤ bnNewProofOfWorkLimit fTestNet := by
    unfold getProofOfWorkLimit
    split
    · cases fTestNet <;> decide
    · cases fTestNet <;> decide
  by_cases hwindow : InSwitchWindow p
  · refine ⟨_, by rw [getNextTargetRequired]; exact if_pos hwindow, ?_⟩
    exact getCompact_bounds (by cases fTestNet <;> decide) le_rfl hmax
  by_cases hshort : ShortHistory (getLastBlockIndex2 (p :: pprev) fProofOfStake) fProofOfStake
  · refine ⟨_, by rw [getNextTargetRequired]; exact (if_neg hwindow).trans (if_pos hshort), ?_⟩
    split
    · exact getCompact_bounds (by cases fTestNet <;> decide) (by cases fTestNet <;> decide) hmax
    · exact getCompact_bounds hlimit.1 hlimit.2 hmax
  obtain ⟨read, -, htwo, hlength, hmem, hscan, k, hk, htime⟩ :=
    pastTargets_of_history hheights hshort
  have hne : read ≠ [] := by
    rintro rfl
    exact absurd htwo (by decide)
  have htarget : ∀ block ∈ read, 0 ≤ setCompact block.1.nBits := fun block hblock =>
    htargets block.1 ((hmem block hblock).1.subset List.mem_cons_self)
  obtain ⟨least, hleast, -, -, -, hlow, -⟩ :=
    pastTargets_average { nLastBlockTime := p.nTime } rfl hne htarget
  have hcount := TargetScan.readAll_nCountBlocks { nLastBlockTime := p.nTime } read
  rw [← hscan] at hlow hcount
  obtain ⟨hd, hd'⟩ := (pastTargets p pprev fProofOfStake).dMaxAdjust_bounds
    (by rw [hcount, zero_add]; exact hlength)
  obtain ⟨hle, -⟩ := clampTimespan_bounds hd hd' hk
    (pastTargets p pprev fProofOfStake).nActualTimespan
  have haverage := (htarget least hleast).trans hlow
  refine ⟨_, getNextTargetRequired_eq hwindow hshort rfl htime (by omega), ?_⟩
  apply getCompact_bounds _ ((min_le_right _ _).trans hlimit.2) hmax
  exact le_min (Int.tdiv_nonneg (mul_nonneg haverage (hk.le.trans hle)) (by omega)) hlimit.1

end

/-! ## An example -/

/-- Four blocks of the type over the genesis block, so that the loop reads three. -/
def retargetChain : BlockPtr :=
  [4, 3, 2, 1, 0].map fun nHeight : ℕ =>
    { hashBlock := nHeight + 1, nFile := 1, nBlockPos := nHeight, nHeight := nHeight,
      nPoWHeight := nHeight, nTime := 300 * nHeight, nBits := 0x1e007fff }

theorem getNextTargetRequired_wellDefined_fourBlocks :
    ¬ ShortHistory (getLastBlockIndex2 retargetChain false) false ∧
    ∃ nBits, getNextTargetRequired false retargetChain false = some nBits ∧
      Retargeted false false (retargetChain.head (by decide))
        (blocksRead false (getLastBlockIndex2 retargetChain false) 0)
        (pastTargets (retargetChain.head (by decide)) retargetChain.tail false) nBits := by
  have hlong : ¬ ShortHistory (getLastBlockIndex2 retargetChain false) false := by decide
  have hheights : HeightsMaintained (retargetChain.head (by decide) :: retargetChain.tail) := by
    simp [retargetChain, HeightsMaintained, CBlockIndex.isProofOfStake]
  obtain ⟨nBits, hsome, h⟩ := getNextTargetRequired_wellDefined false hheights (by decide) false
  exact ⟨hlong, nBits, hsome, h (by decide) hlong⟩

end ShinyCoin

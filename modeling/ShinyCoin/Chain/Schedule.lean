import ShinyCoin.Chain.Emission
import ShinyCoin.Lib.Checked

/-!
# The schedule of proof-of-work rewards

The scheduled reward rises quadratically up to the proof-of-work height 576, is cut off at the cap
up to the height 26280, and then falls with the square of the height. None of the products leaves
the 64-bit type while the height is an `int`, and the sum of all rewards is finite: the rewards
under the cap and the tail above it each come to `400 * 26280` coins at most.
-/

namespace ShinyCoin

/-! ## The computation in 64 bits -/

/-- The branches of `GetNextProofOfWorkReward`, operation by operation; nothing where one of them
overflows or divides by zero. -/
def checkedFullSubsidy (nPoWHeight : ℤ) : Option ℤ := do
  let nFullSubsidy ←
    if nPoWHeight < 576 then do
      let nRise ← Lib.checkedMul 63 399 COIN
      let nRise ← Lib.checkedMul 63 nRise (← Lib.checkedSub 63 nPoWHeight 1)
      let nRise ← Lib.checkedMul 63 nRise (← Lib.checkedSub 63 nPoWHeight 1)
      let nRise ← Lib.checkedDiv 63 nRise 575
      let nRise ← Lib.checkedDiv 63 nRise 575
      Lib.checkedAdd 63 COIN nRise
    else do
      let nTotal ← Lib.checkedMul 63 400 COIN
      let nTotal ← Lib.checkedMul 63 nTotal 26280
      let nTotal ← Lib.checkedMul 63 nTotal 26280
      Lib.checkedDiv 63 nTotal (← Lib.checkedMul 63 nPoWHeight nPoWHeight)
  return min nFullSubsidy MAX_MINT_PROOF_OF_WORK

/-- `GetNextProofOfWorkReward(pPrev, false)`. -/
def checkedProofOfWorkReward (pPrev : BlockPtr) : Option ℤ :=
  match pPrev with
  | [] => some COIN
  | prev :: _ => do checkedFullSubsidy (← Lib.checkedAdd 63 prev.nPoWHeight 1)

/-- Below the height 576 no intermediate value exceeds the last product. -/
theorem checkedFullSubsidy_rising {h : ℤ} (h₁ : 1 ≤ h) (h₂ : h < 576) :
    checkedFullSubsidy h = some (fullSubsidy h) := by
  have hpred : Lib.Fits 63 (h - 1) := Lib.Fits.of_le (b := 575) (by decide) (by omega) (by omega)
  have hrise₀ : 0 ≤ 399 * COIN * (h - 1) := mul_nonneg (by decide) (by omega)
  have hrise : 399 * COIN * (h - 1) ≤ 399 * COIN * 575 :=
    mul_le_mul_of_nonneg_left (by omega) (by decide)
  have hprod₀ : 0 ≤ 399 * COIN * (h - 1) * (h - 1) := mul_nonneg hrise₀ (by omega)
  have hprod : Lib.Fits 63 (399 * COIN * (h - 1) * (h - 1)) := by
    apply Lib.Fits.of_le (b := 399 * COIN * 575 * 575) (by decide) hprod₀
    exact mul_le_mul hrise (by omega) (by omega) (by decide)
  have hquot := hprod.tdiv hprod₀ (show (0 : ℤ) ≤ 575 by decide)
  have hquot₀ := Int.tdiv_nonneg hprod₀ (show (0 : ℤ) ≤ 575 by decide)
  have hquot₂ := hquot.tdiv hquot₀ (show (0 : ℤ) ≤ 575 by decide)
  have hquot₂₀ := Int.tdiv_nonneg hquot₀ (show (0 : ℤ) ≤ 575 by decide)
  have hle : ((399 * COIN * (h - 1) * (h - 1)).tdiv 575).tdiv 575 ≤ 399 * COIN * 575 * 575 := by
    rw [Int.tdiv_eq_ediv_of_nonneg hquot₀, Int.tdiv_eq_ediv_of_nonneg hprod₀]
    calc _ ≤ _ := Int.ediv_le_self _ (Int.ediv_nonneg hprod₀ (by decide))
      _ ≤ _ := Int.ediv_le_self _ hprod₀
      _ ≤ _ := mul_le_mul hrise (by omega) (by omega) (by decide)
  have hsum : Lib.Fits 63 (COIN + ((399 * COIN * (h - 1) * (h - 1)).tdiv 575).tdiv 575) := by
    apply Lib.Fits.of_le (b := COIN + 399 * COIN * 575 * 575) (by decide)
    · exact add_nonneg (by decide) hquot₂₀
    · exact add_le_add_right hle COIN
  have hfirst : Lib.Fits 63 (399 * COIN * (h - 1)) := Lib.Fits.of_le (by decide) hrise₀ hrise
  simp [checkedFullSubsidy, fullSubsidy, h₂, Option.bind_eq_some_iff, hpred, hfirst, hprod, hquot,
    hquot₂, hsum, show Lib.Fits 63 (399 * COIN) by decide]

/-- From the height 576 on the divisor is positive, and while the height is at most `2 ^ 31` its
square fits. -/
theorem checkedFullSubsidy_falling {h : ℤ} (h₁ : 576 ≤ h) (h₂ : h ≤ 2 ^ 31) :
    checkedFullSubsidy h = some (fullSubsidy h) := by
  have hsq₀ : 0 ≤ h * h := mul_self_nonneg h
  have hsq : Lib.Fits 63 (h * h) := by
    apply Lib.Fits.of_le (b := 2 ^ 31 * 2 ^ 31) (by decide) hsq₀
    exact mul_le_mul h₂ h₂ (by omega) (by decide)
  have htotal : Lib.Fits 63 (400 * COIN * 26280 * 26280) := by decide
  have hquot := htotal.tdiv (by decide) hsq₀
  simp [checkedFullSubsidy, fullSubsidy, show ¬ h < 576 by omega, Option.bind_eq_some_iff, hsq,
    htotal, hquot, show h ≠ 0 by omega, show Lib.Fits 63 (400 * COIN) by decide,
    show Lib.Fits 63 (400 * COIN * 26280) by decide]

/-- Up to the proof-of-work height `2 ^ 31` the computation is defined, and it is the one over the
integers. -/
theorem checkedProofOfWorkReward_eq {prev : CBlockIndex} (pprev : BlockPtr) (nPoSDebt : ℤ)
    (h₁ : 1 ≤ prev.nPoWHeight + 1) (h₂ : prev.nPoWHeight + 1 ≤ 2 ^ 31) :
    checkedProofOfWorkReward (prev :: pprev)
      = some (getNextProofOfWorkReward (prev :: pprev) nPoSDebt false) := by
  have hfits : Lib.Fits 63 (prev.nPoWHeight + 1) := by
    apply Lib.Fits.of_le (b := 2 ^ 31) (by decide) (by omega) h₂
  have hnext : Lib.checkedAdd 63 prev.nPoWHeight 1 = some (prev.nPoWHeight + 1) :=
    Lib.checked_eq hfits
  rw [checkedProofOfWorkReward, hnext]
  by_cases h : prev.nPoWHeight + 1 < 576
  · exact checkedFullSubsidy_rising h₁ h
  · exact checkedFullSubsidy_falling (by omega) h₂

/-! ## Its course -/

theorem fullSubsidy_rising {h h' : ℤ} (h₁ : 1 ≤ h) (hle : h ≤ h') (h₂ : h' < 576) :
    fullSubsidy h ≤ fullSubsidy h' := by
  have hprod₀ : ∀ k : ℤ, 1 ≤ k → 0 ≤ 399 * COIN * (k - 1) * (k - 1) := fun k hk =>
    mul_nonneg (mul_nonneg (by decide) (by omega)) (by omega)
  have hprod : 399 * COIN * (h - 1) * (h - 1) ≤ 399 * COIN * (h' - 1) * (h' - 1) :=
    mul_le_mul (mul_le_mul_of_nonneg_left (by omega) (by decide)) (by omega) (by omega)
      (mul_nonneg (by decide) (by omega))
  have hquot₀ : ∀ k : ℤ, 1 ≤ k → 0 ≤ (399 * COIN * (k - 1) * (k - 1)) / 575 := fun k hk =>
    Int.ediv_nonneg (hprod₀ k hk) (by decide)
  rw [fullSubsidy, fullSubsidy, if_pos (by omega), if_pos h₂]
  apply min_le_min_right
  rw [Int.tdiv_eq_ediv_of_nonneg (hprod₀ h h₁), Int.tdiv_eq_ediv_of_nonneg (hquot₀ h h₁),
    Int.tdiv_eq_ediv_of_nonneg (hprod₀ h' (by omega)),
    Int.tdiv_eq_ediv_of_nonneg (hquot₀ h' (by omega))]
  apply add_le_add_right
  exact Int.ediv_le_ediv (by decide) (Int.ediv_le_ediv (by decide) hprod)

theorem fullSubsidy_of_le {h : ℤ} (h₁ : 576 ≤ h) :
    fullSubsidy h = min (400 * COIN * 26280 * 26280 / (h * h)) MAX_MINT_PROOF_OF_WORK := by
  rw [fullSubsidy, if_neg (by omega), Int.tdiv_eq_ediv_of_nonneg (by decide)]

/-- Between the two formulas the reward is the cap. -/
theorem fullSubsidy_capped {h : ℤ} (h₁ : 576 ≤ h) (h₂ : h ≤ 26280) :
    fullSubsidy h = MAX_MINT_PROOF_OF_WORK := by
  rw [fullSubsidy_of_le h₁, min_eq_right_iff]
  apply Int.le_ediv_of_mul_le (mul_pos (by omega) (by omega))
  calc MAX_MINT_PROOF_OF_WORK * (h * h) ≤ MAX_MINT_PROOF_OF_WORK * (26280 * 26280) :=
        mul_le_mul_of_nonneg_left (mul_le_mul h₂ h₂ (by omega) (by decide)) (by decide)
    _ = 400 * COIN * 26280 * 26280 := by decide

theorem fullSubsidy_falling {h h' : ℤ} (h₁ : 576 ≤ h) (hle : h ≤ h') :
    fullSubsidy h' ≤ fullSubsidy h := by
  rw [fullSubsidy_of_le h₁, fullSubsidy_of_le (by omega)]
  apply min_le_min_right
  apply Lib.ediv_le_ediv_of_divisor_le (by decide) (mul_pos (by omega) (by omega))
  exact mul_le_mul hle hle (by omega) (by omega)

/-! ## Its sum -/

/-- The reward at the proof-of-work height `h`, of whatever block has the height before. -/
def scheduledReward (h : ℕ) : ℤ :=
  let pindexPrev : CBlockIndex := { hashBlock := 0, nFile := 0, nBlockPos := 0, nPoWHeight := h - 1 }
  getNextProofOfWorkReward [pindexPrev] 0 false

theorem scheduledReward_eq (h : ℕ) : scheduledReward h = fullSubsidy h := by
  simp [scheduledReward, getNextProofOfWorkReward]

/-- The rewards up to the height 26280 are at most the cap. -/
theorem sum_scheduledReward_head :
    ∑ h ∈ Finset.Ioc 0 26280, scheduledReward h ≤ 400 * 26280 * COIN := by
  calc ∑ h ∈ Finset.Ioc 0 26280, scheduledReward h
      ≤ (Finset.Ioc 0 26280).card • MAX_MINT_PROOF_OF_WORK := by
        apply Finset.sum_le_card_nsmul
        intro h _
        rw [scheduledReward_eq]
        exact fullSubsidy_le h
    _ = 400 * 26280 * COIN := by
        rw [Nat.card_Ioc]
        decide

/-- The rewards after it are at most the quotients by the squares. -/
theorem sum_scheduledReward_tail (m : ℕ) :
    ∑ h ∈ Finset.Ioc 26280 (26280 + m), scheduledReward h ≤ 400 * 26280 * COIN := by
  calc ∑ h ∈ Finset.Ioc 26280 (26280 + m), scheduledReward h
      ≤ ∑ h ∈ Finset.Ioc 26280 (26280 + m), 400 * COIN * 26280 * 26280 / ((h : ℤ) * h) := by
        apply Finset.sum_le_sum
        intro h hmem
        have hgt := (Finset.mem_Ioc.mp hmem).1
        rw [scheduledReward_eq, fullSubsidy_of_le (by omega)]
        exact min_le_left _ _
    _ ≤ 400 * COIN * 26280 * 26280 / (26280 : ℕ) :=
        Lib.sum_ediv_mul_self_le (by decide) (by decide) m
    _ = 400 * 26280 * COIN := by decide

theorem sum_scheduledReward_le (H : ℕ) :
    ∑ h ∈ Finset.Icc 1 H, scheduledReward h ≤ 800 * 26280 * COIN := by
  have hhead := sum_scheduledReward_head
  have htail := sum_scheduledReward_tail H
  calc ∑ h ∈ Finset.Icc 1 H, scheduledReward h
      ≤ ∑ h ∈ Finset.Ioc 0 (26280 + H), scheduledReward h := by
        apply Finset.sum_le_sum_of_subset_of_nonneg
        · intro h hmem
          rw [Finset.mem_Icc] at hmem
          exact Finset.mem_Ioc.mpr (by omega)
        · intro h _ _
          rw [scheduledReward_eq]
          exact fullSubsidy_nonneg h
    _ = ∑ h ∈ Finset.Ioc 0 26280, scheduledReward h
          + ∑ h ∈ Finset.Ioc 26280 (26280 + H), scheduledReward h :=
        (Finset.sum_Ioc_consecutive _ (by omega) (by omega)).symm
    _ ≤ 800 * 26280 * COIN := by linarith

/-- The scheduled reward is a function of the proof-of-work height alone. Up to the height `2 ^ 31`
its computation is defined in 64 bits and its value is between zero and the cap, it rises up to the
height 26280 and falls from 576 on, and the rewards of all heights together stay within
`800 * 26280` coins. -/
theorem scheduled_supply :
    (∀ (prev : CBlockIndex) (pprev : BlockPtr) (nPoSDebt : ℤ) (h : ℕ), prev.nPoWHeight + 1 = h →
      getNextProofOfWorkReward (prev :: pprev) nPoSDebt false = scheduledReward h ∧
        (1 ≤ h → h ≤ 2 ^ 31 →
          checkedProofOfWorkReward (prev :: pprev) = some (scheduledReward h) ∧
            0 ≤ scheduledReward h ∧ scheduledReward h ≤ 400 * COIN)) ∧
      (∀ h h', 1 ≤ h → h ≤ h' → h' ≤ 26280 → scheduledReward h ≤ scheduledReward h') ∧
      (∀ h h', 576 ≤ h → h ≤ h' → scheduledReward h' ≤ scheduledReward h) ∧
      ∀ H, ∑ h ∈ Finset.Icc 1 H, scheduledReward h ≤ 800 * 26280 * COIN := by
  refine ⟨?_, ?_, ?_, sum_scheduledReward_le⟩
  · intro prev pprev nPoSDebt h hprev
    have heq : getNextProofOfWorkReward (prev :: pprev) nPoSDebt false = scheduledReward h := by
      rw [scheduledReward_eq, ← hprev]
      rfl
    refine ⟨heq, fun h₁ h₂ => ⟨?_, ?_, ?_⟩⟩
    · rw [← heq]
      exact checkedProofOfWorkReward_eq pprev nPoSDebt (by omega) (by omega)
    · rw [scheduledReward_eq]
      exact fullSubsidy_nonneg h
    · rw [scheduledReward_eq]
      exact fullSubsidy_le h
  · intro h h' h₁ hle h₂
    rw [scheduledReward_eq, scheduledReward_eq]
    by_cases hrise : h' < 576
    · exact fullSubsidy_rising (by omega) (by omega) (by omega)
    · rw [fullSubsidy_capped (h := h') (by omega) (by omega)]
      exact fullSubsidy_le h
  · intro h h' h₁ hle
    rw [scheduledReward_eq, scheduledReward_eq]
    exact fullSubsidy_falling (by omega) (by omega)

end ShinyCoin

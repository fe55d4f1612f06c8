import ShinyCoin.Chain.Money
import ShinyCoin.Wallet.Created
import ShinyCoin.Wallet.Selection
import ShinyCoin.Wallet.Stake

/-!
# When a created coinstake is valid

The coins of a coinstake are those that were selected, each once. The kernel is looked for in the last
seconds, so a coinstake can be older than a coin that was selected; only old coins are added to it.
The fee loop ends with a fee that is enough for the transaction as it is then, and this is what the
reward is compared with when the coinstake is connected.
-/

namespace ShinyCoin

/-! ## The candidates -/

/-- An output of the wallet's own that has a value, is not spent and was there at `nSpendTime` -/
structure Coin.Spendable {env : Env} (w : SpendingWallet env) (nSpendTime : Nat) (c : Coin) : Prop where
  isIn : c.In w
  vout : ∃ txout, c.wtx.tx.vout[c.n]? = some txout ∧ txout.nValue = c.nValue ∧
    w.isMine txout.scriptPubKey = true
  isUnspent : c.wtx.isUnspent c.n = true
  nValue_pos : 0 < c.nValue
  nTime_le : c.wtx.tx.nTime ≤ nSpendTime

namespace SpendingWallet

variable {env : Env} {w : SpendingWallet env} {nTarget : ℤ} {nSpendTime : Nat} {c : Coin}
  {setCoins : List Coin}

theorem Eligible.spendable {nConfMine nConfTheirs : ℤ}
    (h : w.Eligible nSpendTime nConfMine nConfTheirs c) : c.Spendable w nSpendTime := by
  obtain ⟨txout, hout, hvalue, hmine⟩ := h.output
  exact ⟨⟨h.inWallet, (List.getElem?_eq_some_iff.mp hout).1⟩, ⟨txout, hout, hvalue.symm, hmine⟩,
    h.unspent, h.positive, h.notNewer⟩

/-- What is selected has at least the confirmations of the last try. -/
theorem eligible_of_selectCoins {chs : Nat → SelectChoices} {nValueRet : ℤ} (hpos : 0 < nTarget)
    (h : w.selectCoins chs nTarget nSpendTime = some (setCoins, nValueRet)) :
    ∀ c ∈ setCoins, w.Eligible nSpendTime 0 1 c := by
  obtain ⟨found, ch, nConfMine, nConfTheirs, hmine, htheirs, rfl, -, hsub⟩ :=
    exists_of_selectCoins hpos h
  intro c hc
  have heligible := mem_availableCoins_iff.mp
    (hsub.subset ((List.perm_insertionSort w.pointerLE found).mem_iff.mp hc))
  refine { heligible with deep := ?_ }
  have hdeep := heligible.deep
  by_cases hfrom : w.isFromMe c.wtx = true
  · rw [if_pos hfrom] at hdeep ⊢
    exact hmine.trans hdeep
  · rw [if_neg hfrom] at hdeep ⊢
    exact htheirs.trans hdeep

end SpendingWallet

/-! ## The kernel -/

section

variable {env : Env} {files : Files} {s : NodeState} {request : StakeRequest} {ch : StakeChoices}
  {c : Coin} {setCoins : List Coin} {draft : StakeDraft}

/-- The search ends with the first number that is found. -/
theorem searchBack_spec {found fShutdown : Nat → Bool} {n left m : Nat}
    (h : searchBack found fShutdown n left = some m) :
    found m = true ∧ m < n + left ∧ ∀ k, n ≤ k → k < m → found k = false := by
  induction left generalizing n with
  | zero => cases h
  | succ left ih =>
      unfold searchBack at h
      split_ifs at h with _ hfound
      · cases h
        exact ⟨hfound, by omega, by omega⟩
      · obtain ⟨hm, hlt, hfirst⟩ := ih h
        refine ⟨hm, by omega, fun k hk hkm => ?_⟩
        rcases hk.eq_or_lt with rfl | hk
        · simpa using hfound
        · exact hfirst k hk hkm

/-- A kernel is not older than the coin. -/
theorem nTime_le_of_kernel {nBits nTxPrevOffset nTimeTx : Nat} {blockFrom : CBlockHeader}
    {txPrev : CTransaction} {prevout : COutPoint} {hashProofOfStake : Uint256}
    (h : (s.checkStakeKernelHash env nBits blockFrom nTxPrevOffset txPrev prevout nTimeTx
      hashProofOfStake).1 = true) : txPrev.nTime ≤ nTimeTx := by
  unfold NodeState.checkStakeKernelHash at h
  split at h
  · cases h
  · next hle => exact not_lt.mp hle

/-- The draft has the coin as its only input, and `CheckStakeKernelHash` accepts it at the draft's
time. -/
structure KernelOf (env : Env) (files : Files) (s : NodeState) (request : StakeRequest) (c : Coin)
    (draft : StakeDraft) : Prop where
  kernel : ∃ txindex block, s.txdb.data.txIndex (env.getHash c.wtx.tx) = some txindex ∧
    files.readHeaderAt txindex.pos.nFile txindex.pos.nBlockPos = some block ∧
      (s.checkStakeKernelHash env request.nBits block txindex.offset c.wtx.tx (c.prevout env)
        draft.tx.nTime 0).1 = true
  vin : draft.tx.vin = [{ prevout := c.prevout env }]
  vout : ∃ scriptPubKeyOut split, draft.tx.vout =
    { nValue := 0 } :: { nValue := 0, scriptPubKey := scriptPubKeyOut } :: split ∧ split.length ≤ 1
  nCredit : draft.nCredit = c.nValue

theorem kernelOf_of_tryKernel (h : tryKernel env files s request ch c = some draft) :
    KernelOf env files s request c draft := by
  unfold tryKernel at h
  obtain ⟨txindex, hindex, h⟩ := Option.bind_eq_some_iff.mp h
  obtain ⟨block, hblock, h⟩ := Option.bind_eq_some_iff.mp h
  split at h
  · cases h
  · obtain ⟨n, hsearch, h⟩ := Option.bind_eq_some_iff.mp h
    obtain ⟨scriptPubKeyOut, -, rfl⟩ := Option.map_eq_some_iff.mp h
    refine ⟨⟨txindex, block, hindex, hblock, (searchBack_spec hsearch).1⟩, rfl, ?_, rfl⟩
    refine ⟨scriptPubKeyOut, _, rfl, ?_⟩
    split <;> simp

theorem exists_of_findKernel (h : findKernel env files s request ch setCoins = some draft) :
    ∃ c ∈ setCoins, tryKernel env files s request ch c = some draft := by
  induction setCoins with
  | nil => cases h
  | cons c setCoins ih =>
      unfold findKernel at h
      split at h
      · next htry =>
        cases h
        exact ⟨c, List.mem_cons_self, htry⟩
      · split at h
        · cases h
        · obtain ⟨d, hd, hkernel⟩ := ih h
          exact ⟨d, List.mem_cons_of_mem c hd, hkernel⟩

/-! ## More inputs -/

/-- What the coins `more` add to a draft -/
structure Adds (env : Env) (nCombineThreshold nAvailable : ℤ) (draft : StakeDraft) (more : List Coin)
    (draft' : StakeDraft) : Prop where
  tx : draft'.tx = { draft.tx with
    vin := draft.tx.vin ++ more.map fun c => { prevout := c.prevout env } }
  nCredit : draft'.nCredit = draft.nCredit + (more.map Coin.nValue).sum
  nCredit_le : draft.nCredit ≤ nAvailable → draft'.nCredit ≤ nAvailable
  length_le : draft.tx.vin.length ≤ 100 → draft'.tx.vin.length ≤ 100
  /-- To a significant value no coin is added. -/
  combine : more ≠ [] → draft.nCredit ≤ nCombineThreshold
  sameKey : ∀ c ∈ more, draft.sameKey env c = true
  small : ∀ c ∈ more, c.nValue ≤ nCombineThreshold
  old : ∀ c ∈ more, uint32 (c.wtx.tx.nTime + STAKE_MAX_AGE) ≤ draft.tx.nTime

theorem StakeDraft.sameKey_addCoin (hne : draft.tx.vin ≠ []) (d : Coin) :
    (draft.addCoin env c).sameKey env d = draft.sameKey env d := by
  have hhead : (draft.addCoin env c).tx.vin.head? = draft.tx.vin.head? := by
    obtain ⟨txin, vin, hvin⟩ := List.exists_cons_of_ne_nil hne
    simp [StakeDraft.addCoin, hvin]
  unfold StakeDraft.sameKey
  rw [hhead]
  rfl

namespace Adds

variable {nCombineThreshold nAvailable : ℤ} {more : List Coin} {draft' : StakeDraft}

theorem nil : Adds env nCombineThreshold nAvailable draft [] draft := by
  constructor <;> simp

/-- The coins that are added are outputs of other transactions than the kernel. -/
theorem others (h : Adds env nCombineThreshold nAvailable draft more draft') :
    ∀ c ∈ more, (draft.tx.vin.head?.map fun txin => txin.prevout.hash)
      ≠ some (env.getHash c.wtx.tx) := by
  intro c hc
  have hkey := h.sameKey c hc
  unfold StakeDraft.sameKey at hkey
  simp only [Bool.and_eq_true, bne_iff_ne] at hkey
  exact hkey.2

/-- One more coin before those that follow -/
theorem cons (h : Adds env nCombineThreshold nAvailable (draft.addCoin env c) more draft')
    (hne : draft.tx.vin ≠ []) (hkey : draft.sameKey env c = true) (hlength : draft.tx.vin.length < 100)
    (hcombine : draft.nCredit ≤ nCombineThreshold) (hvalue : draft.nCredit + c.nValue ≤ nAvailable)
    (hsmall : c.nValue ≤ nCombineThreshold)
    (hold : uint32 (c.wtx.tx.nTime + STAKE_MAX_AGE) ≤ draft.tx.nTime) :
    Adds env nCombineThreshold nAvailable draft (c :: more) draft' := by
  refine ⟨?_, ?_, fun _ => h.nCredit_le hvalue, fun _ => h.length_le ?_, fun _ => hcombine, ?_,
    List.forall_mem_cons.mpr ⟨hsmall, h.small⟩, List.forall_mem_cons.mpr ⟨hold, h.old⟩⟩
  · rw [h.tx]
    simp [StakeDraft.addCoin]
  · rw [h.nCredit, List.map_cons, List.sum_cons]
    exact add_assoc _ _ _
  · simp [StakeDraft.addCoin]
    omega
  · rw [List.forall_mem_cons]
    refine ⟨hkey, fun d hd => ?_⟩
    rw [← StakeDraft.sameKey_addCoin hne d]
    exact h.sameKey d hd

end Adds

/-- The coins that are added are some of those that were selected. -/
theorem addInputs_spec {nCombineThreshold nAvailable : ℤ} (hne : draft.tx.vin ≠ []) :
    ∃ more, more.Sublist setCoins ∧ Adds env nCombineThreshold nAvailable draft more
      (addInputs env nCombineThreshold nAvailable draft setCoins) := by
  induction setCoins generalizing draft with
  | nil => exact ⟨[], .slnil, .nil⟩
  | cons c setCoins ih =>
      have hskip : ∃ more, more.Sublist (c :: setCoins) ∧ Adds env nCombineThreshold nAvailable draft
          more (addInputs env nCombineThreshold nAvailable draft setCoins) := by
        obtain ⟨more, hsub, hadds⟩ := ih hne
        exact ⟨more, hsub.cons c, hadds⟩
      have hstop : ∃ more : List Coin, more.Sublist (c :: setCoins) ∧
          Adds env nCombineThreshold nAvailable draft more draft := ⟨[], List.nil_sublist _, .nil⟩
      unfold addInputs
      split_ifs with hkey hmany hcombined hreserve hlarge hyoung
      · exact hskip
      · exact hstop
      · exact hstop
      · exact hstop
      · exact hskip
      · exact hskip
      · have hne' : (draft.addCoin env c).tx.vin ≠ [] := by
          simp [StakeDraft.addCoin]
        obtain ⟨more, hsub, hadds⟩ := ih hne'
        refine ⟨c :: more, hsub.cons_cons c, hadds.cons hne ?_ (not_le.mp hmany) (not_lt.mp hcombined)
          (not_lt.mp hreserve) (not_lt.mp hlarge) (not_lt.mp hyoung)⟩
        simpa using hkey

end

/-! ## The outputs -/

namespace CTransaction

variable {tx tx' : CTransaction}

theorem blanked_setStake (tx : CTransaction) (nAmount : ℤ) :
    (tx.setStake nAmount).blanked = tx.blanked.setStake nAmount := by
  unfold setStake
  rw [show tx.blanked.vout = tx.vout from rfl]
  split <;> rfl

/-- The amounts of a round before are overwritten. -/
theorem setStake_setStake (tx : CTransaction) (nAmount nAmount' : ℤ) :
    (tx.setStake nAmount).setStake nAmount' = tx.setStake nAmount' := by
  have hlength : (tx.setStake nAmount).vout.length = tx.vout.length := by
    unfold setStake
    split <;> simp [setValue]
  have hvout : ((tx.setStake nAmount).setStake nAmount').vout = (tx.setStake nAmount').vout := by
    rw [setStake, hlength, setStake]
    unfold setStake
    apply List.ext_getElem?
    intro i
    split <;> simp only [setValue, List.getElem?_modify] <;> grind
  have hrest : ∀ (t : CTransaction) (n : ℤ), { t.setStake n with vout := [] } = { t with vout := [] } := by
    intro t n
    unfold setStake
    split <;> rfl
  have h := congrArg (fun t : CTransaction =>
    { t with vout := ((tx.setStake nAmount).setStake nAmount').vout })
    ((hrest (tx.setStake nAmount) nAmount').trans ((hrest tx nAmount).trans (hrest tx nAmount').symm))
  exact h.trans (congrArg (fun vout => { tx.setStake nAmount' with vout := vout }) hvout)

/-- The outputs of the stake get all of the amount. -/
theorem sum_setStake {tx : CTransaction} {txout txout₁ : CTxOut} {split : List CTxOut}
    (hvout : tx.vout = txout :: txout₁ :: split) (hsplit : split.length ≤ 1) (nAmount : ℤ) :
    ((tx.setStake nAmount).vout.map CTxOut.nValue).sum = txout.nValue + nAmount := by
  match split, hsplit with
  | [], _ => simp [setStake, setValue, hvout]
  | [txout₂], _ => simp [setStake, setValue, hvout]

end CTransaction

/-! ## The fee -/

section

variable {signSignature : Nat → CTransaction → CTransaction → Nat → Option CScript}
  {vwtxPrev : List CTransaction} {nCredit nMinFee nFee : ℤ} {fuel round : Nat}
  {tx tx₀ tx' : CTransaction}

/-- Up to its amounts and signatures the transaction is the one that the loop started with; the last
round has the amounts for a fee that is enough, and no smaller than the first one. -/
theorem feeLoop_spec
    (h : feeLoop signSignature vwtxPrev nCredit fuel round tx nMinFee = some (some (tx', nFee)))
    (hsame : ∀ nAmount, (tx.setStake nAmount).blanked = (tx₀.setStake nAmount).blanked) :
    tx'.blanked = (tx₀.setStake (nCredit - nFee)).blanked ∧
      tx'.getMinFee 1 .GMF_BLOCK - MIN_TX_FEE ≤ nFee ∧ nMinFee ≤ nFee := by
  induction fuel generalizing round tx nMinFee with
  | zero => cases h
  | succ fuel ih =>
      unfold feeLoop at h
      split at h
      · cases h
      · next tx₁ hsign =>
        have hblank := (signInputs_spec hsign).1
        split_ifs at h with hsize hless
        · cases h
        · have hsame' : ∀ nAmount, (tx₁.setStake nAmount).blanked = (tx₀.setStake nAmount).blanked := by
            intro nAmount
            rw [CTransaction.blanked_setStake, hblank, ← CTransaction.blanked_setStake,
              CTransaction.setStake_setStake]
            exact hsame nAmount
          obtain ⟨hlast, henough, hle⟩ := ih h hsame'
          exact ⟨hlast, henough, hless.le.trans hle⟩
        · cases h
          exact ⟨hblank.trans (hsame _), not_lt.mp hless, le_rfl⟩

/-- The fee rises from round to round, and no round can require more than `MAX_MONEY`. -/
theorem feeLoop_isSome (hfuel : (MAX_MONEY - nMinFee).toNat < fuel) :
    (feeLoop signSignature vwtxPrev nCredit fuel round tx nMinFee).isSome = true := by
  induction fuel generalizing round tx nMinFee with
  | zero => cases hfuel
  | succ fuel ih =>
      unfold feeLoop
      split
      · rfl
      · next tx₁ _ =>
        split_ifs with _ hless
        · rfl
        · apply ih
          have hmax := tx₁.getMinFee_le_maxMoney .GMF_BLOCK
          have hmin : 0 < MIN_TX_FEE := by decide
          omega
        · rfl

end

end ShinyCoin

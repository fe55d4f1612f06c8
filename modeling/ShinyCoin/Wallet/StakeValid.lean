import ShinyCoin.Wallet.Staked

/-!
# Created coinstakes and the rules of the chain

A coinstake that was created has its inputs among the wallet's coins, its kernel at its own time, and
earns no more than `ConnectInputs` allows, as long as the wallet has no coin that passes for old beside
a kernel that it is newer than.
-/

namespace ShinyCoin

namespace CTransaction

variable {env : Env} {files : Files} {txdb : TxIndexMap} {tx : CTransaction}

/-! ## What signatures and amounts leave alone -/

theorem isCoinBase_blanked (tx : CTransaction) : tx.blanked.isCoinBase = tx.isCoinBase := by
  unfold isCoinBase blanked
  match tx.vin with
  | [] => rfl
  | [_] => rfl
  | _ :: _ :: _ => rfl

theorem isCoinStake_blanked (tx : CTransaction) : tx.blanked.isCoinStake = tx.isCoinStake := by
  unfold isCoinStake blanked
  match tx.vin, tx.vout with
  | [], _ => rfl
  | _ :: _, [] => rfl
  | _ :: _, [_] => rfl
  | _ :: _, _ :: _ :: _ => rfl

theorem getCoinAge_blanked (tx : CTransaction) :
    tx.blanked.getCoinAge env files txdb = tx.getCoinAge env files txdb := by
  have hloop : tx.blanked.vin.foldlM (addCoinAge env files txdb tx.blanked) 0
      = tx.vin.foldlM (addCoinAge env files txdb tx) 0 := by
    rw [show tx.blanked.vin = tx.vin.map fun txin => { txin with scriptSig := [] } from rfl,
      List.foldlM_map]
    rfl
  rw [getCoinAge, getCoinAge, isCoinBase_blanked, hloop]

theorem length_vout_setStake (tx : CTransaction) (nAmount : ℤ) :
    (tx.setStake nAmount).vout.length = tx.vout.length := by
  unfold setStake
  split <;> simp [setValue]

theorem vin_setStake (tx : CTransaction) (nAmount : ℤ) : (tx.setStake nAmount).vin = tx.vin := by
  unfold setStake
  split <;> rfl

theorem nTime_setStake (tx : CTransaction) (nAmount : ℤ) :
    (tx.setStake nAmount).nTime = tx.nTime := by
  unfold setStake
  split <;> rfl

theorem getCoinAge_setStake (tx : CTransaction) (nAmount : ℤ) :
    (tx.setStake nAmount).getCoinAge env files txdb = tx.getCoinAge env files txdb := by
  have hbase : (tx.setStake nAmount).isCoinBase = tx.isCoinBase := by
    unfold isCoinBase
    rw [vin_setStake, length_vout_setStake]
  have hage : addCoinAge env files txdb (tx.setStake nAmount) = addCoinAge env files txdb tx := by
    funext bnCentSecond txin
    unfold addCoinAge
    rw [nTime_setStake]
  rw [getCoinAge, getCoinAge, hbase, vin_setStake, hage]

theorem vout_setStake {txout txout₁ : CTxOut} {split : List CTxOut}
    (hvout : tx.vout = txout :: txout₁ :: split) (nAmount : ℤ) :
    ∃ txout₁ split, (tx.setStake nAmount).vout = txout :: txout₁ :: split := by
  unfold setStake setValue
  split
  · rw [hvout]
    exact ⟨_, _, rfl⟩
  · rw [hvout]
    exact ⟨_, _, rfl⟩

theorem isCoinStake_setStake {txin : CTxIn} {vin : List CTxIn} {txout txout₁ : CTxOut}
    {split : List CTxOut} (hvin : tx.vin = txin :: vin) (hnull : txin.prevout.isNull = false)
    (hvout : tx.vout = txout :: txout₁ :: split) (hempty : txout.isEmpty = true) (nAmount : ℤ) :
    (tx.setStake nAmount).isCoinStake = true := by
  obtain ⟨txout₁', split', hvout'⟩ := vout_setStake hvout nAmount
  unfold isCoinStake
  rw [vin_setStake, hvin, hvout']
  simp [hnull, hempty]

/-- What the fee loop leaves of the transaction it starts with -/
theorem of_blanked_setStake (env : Env) (files : Files) (txdb : TxIndexMap) {tx₀ : CTransaction}
    {nAmount : ℤ}
    (h : tx.blanked = (tx₀.setStake nAmount).blanked) :
    tx.nTime = tx₀.nTime ∧ tx.vin.map CTxIn.prevout = tx₀.vin.map CTxIn.prevout ∧
      tx.vout = (tx₀.setStake nAmount).vout ∧
      tx.isCoinStake = (tx₀.setStake nAmount).isCoinStake ∧
      tx.getCoinAge env files txdb = tx₀.getCoinAge env files txdb := by
  have htime : tx.blanked.nTime = (tx₀.setStake nAmount).blanked.nTime := by rw [h]
  refine ⟨?_, ?_, vout_of_blanked h, ?_, ?_⟩
  · rw [← nTime_setStake tx₀ nAmount]
    exact htime
  · rw [prevouts_of_blanked h, vin_setStake]
  · rw [← isCoinStake_blanked, h, isCoinStake_blanked]
  · rw [← getCoinAge_blanked, h, getCoinAge_blanked, getCoinAge_setStake]

/-- `GetCoinAge` fails for an input that is newer and on disk. -/
theorem nTime_le_of_addCoinAge {vin : List CTxIn} {bnCentSecond n : ℤ}
    (h : vin.foldlM (addCoinAge env files txdb tx) bnCentSecond = some n) :
    ∀ txin ∈ vin, ∀ txPrev txindex, readFromDisk files txdb txin.prevout = some (txPrev, txindex) →
      txPrev.nTime ≤ tx.nTime := by
  induction vin generalizing bnCentSecond with
  | nil => exact fun txin hmem => absurd hmem List.not_mem_nil
  | cons txin vin ih =>
      rw [List.foldlM_cons] at h
      obtain ⟨n₁, h₁, h⟩ := Option.bind_eq_some_iff.mp h
      rw [List.forall_mem_cons]
      refine ⟨fun txPrev txindex hread => ?_, ih h⟩
      unfold addCoinAge at h₁
      rw [hread] at h₁
      dsimp only at h₁
      split at h₁
      · cases h₁
      · next hle => exact not_lt.mp hle

theorem nTime_le_of_getCoinAge {nCoinAgeSeconds : Nat} {txin : CTxIn} {txPrev : CTransaction}
    {txindex : CTxIndex} (hbase : tx.isCoinBase = false)
    (hage : tx.getCoinAge env files txdb = some nCoinAgeSeconds) (hmem : txin ∈ tx.vin)
    (hread : readFromDisk files txdb txin.prevout = some (txPrev, txindex)) :
    txPrev.nTime ≤ tx.nTime := by
  unfold getCoinAge at hage
  rw [if_neg (by simp [hbase])] at hage
  obtain ⟨bnCentSecond, hloop, -⟩ := Option.map_eq_some_iff.mp hage
  exact nTime_le_of_addCoinAge hloop _ hmem _ _ hread

end CTransaction

/-! ## A coin that passes for old -/

/-- `nCombineThreshold` -/
def NodeState.nCombineThreshold (s : NodeState) : ℤ :=
  (getNextProofOfWorkReward s.pindexBest (s.statsOf s.pindexBest).nPoSDebt true).tdiv 3

/-- The coin has a kernel `n` seconds back, the first one that a search backward in time comes to. Its
block is old enough for the search, and too old for the stake to be split. -/
structure UnsplitKernel (env : Env) (files : Files) (s : NodeState) (request : StakeRequest) (c : Coin)
    (n : Nat) : Prop where
  within : (n : ℤ) < min request.nSearchInterval nMaxStakeSearchInterval
  kernel : ∃ txindex block, s.txdb.data.txIndex (env.getHash c.wtx.tx) = some txindex ∧
    files.readHeaderAt txindex.pos.nFile txindex.pos.nBlockPos = some block ∧
      block.nTime + env.nStakeMinAge ≤ uint32 ((request.txNew.nTime : ℤ) - nMaxStakeSearchInterval) ∧
      block.nTime + nStakeSplitAge ≤ uint32 (request.txNew.nTime - n) ∧
      stakeKernel env s request c txindex block n = true ∧
      ∀ m < n, stakeKernel env s request c txindex block m = false

/-- Beside the kernel of the coin `c`, `n` seconds back, the coin `d` passes for one that is old enough
to be added, and it is newer than the kernel. -/
structure NewerCoin {env : Env} (w : SpendingWallet env) (files : Files) (s : NodeState)
    (request : StakeRequest) (ch : StakeChoices) (c d : Coin) (n : Nat) : Prop where
  eligible : w.Eligible request.txNew.nTime 0 1 c ∧ w.Eligible request.txNew.nTime 0 1 d
  kernel : UnsplitKernel env files s request c n
  sameKey : ∃ scriptPubKeyOut, kernelScriptOut ch.getPubKey c.scriptPubKey = some scriptPubKeyOut ∧
    (d.scriptPubKey = c.scriptPubKey ∨ d.scriptPubKey = scriptPubKeyOut)
  other : env.getHash d.wtx.tx ≠ env.getHash c.wtx.tx
  small : c.nValue ≤ s.nCombineThreshold ∧ d.nValue ≤ s.nCombineThreshold
  reserve : ∃ nAvailable, w.stakeable request = some nAvailable ∧ c.nValue + d.nValue ≤ nAvailable
  /-- As the transaction is on disk, it is not newer. -/
  notOnDisk : ∀ txPrev txindex,
    readFromDisk files s.txdb.data.txIndex (d.prevout env) = some (txPrev, txindex) →
      txPrev.nTime ≤ uint32 (request.txNew.nTime - n)
  old : uint32 (d.wtx.tx.nTime + STAKE_MAX_AGE) ≤ uint32 (request.txNew.nTime - n)
  newer : uint32 (request.txNew.nTime - n) < d.wtx.tx.nTime

/-! ## The draft -/

section

variable {env : Env} {files : Files} {w : SpendingWallet env} {s : NodeState} {request : StakeRequest}
  {ch : StakeChoices} {nAvailable : ℤ}

/-- A draft of a coin with a kernel and of others that were added to it -/
structure DraftOf (w : SpendingWallet env) (files : Files) (s : NodeState) (request : StakeRequest)
    (ch : StakeChoices) (nAvailable : ℤ) (c : Coin) (more : List Coin) (draft : StakeDraft) :
    Prop where
  drafts : ∃ draft₀, tryKernel env files s request ch c = some draft₀ ∧ draft₀.nCredit ≤ nAvailable ∧
    Adds env s.nCombineThreshold nAvailable draft₀ more draft
  eligible : ∀ d ∈ c :: more, w.Eligible request.txNew.nTime 0 1 d
  distinct : ((c :: more).map (Coin.prevout env)).Nodup

theorem SpendingWallet.draftStake_spec {draft : StakeDraft} (hpos : 0 < nAvailable)
    (h : w.draftStake files s request ch nAvailable = some draft) :
    ∃ c more, DraftOf w files s request ch nAvailable c more draft := by
  unfold SpendingWallet.draftStake at h
  obtain ⟨⟨setCoins, nValueIn⟩, hselect, h⟩ := Option.bind_eq_some_iff.mp h
  obtain ⟨draft₀, hfind, h⟩ := Option.bind_eq_some_iff.mp h
  split at h
  · cases h
  · next hcredit =>
    cases h
    obtain ⟨c, hc, htry⟩ := exists_of_findKernel hfind
    have hkernel := kernelOf_of_tryKernel htry
    have hne : draft₀.tx.vin ≠ [] := by
      rw [hkernel.vin]
      exact List.cons_ne_nil _ _
    have heligible := SpendingWallet.eligible_of_selectCoins hpos hselect
    have hnodup := (SpendingWallet.selectCoins_spec hpos hselect).2.2
    obtain ⟨more, hsub, hadds⟩ := addInputs_spec hne
    refine ⟨c, more, ⟨draft₀, htry, not_lt.mp fun hlt => hcredit (.inr hlt), hadds⟩, ?_, ?_⟩
    · rw [List.forall_mem_cons]
      exact ⟨heligible c hc, fun d hd => heligible d (hsub.subset hd)⟩
    · rw [List.map_cons, List.nodup_cons]
      refine ⟨?_, hnodup.sublist (hsub.map _)⟩
      -- the others are outputs of other transactions
      intro hmem
      obtain ⟨d, hd, hprevout⟩ := List.mem_map.mp hmem
      apply hadds.others d hd
      rw [hkernel.vin]
      exact congrArg (fun o : COutPoint => some o.hash) hprevout.symm

theorem DraftOf.vin {c : Coin} {more : List Coin} {draft : StakeDraft}
    (h : DraftOf w files s request ch nAvailable c more draft) :
    draft.tx.vin = { prevout := c.prevout env } :: more.map fun d => { prevout := d.prevout env } := by
  obtain ⟨draft₀, htry, -, hadds⟩ := h.drafts
  rw [hadds.tx, (kernelOf_of_tryKernel htry).vin]
  rfl

/-- A draft that is not split has a kernel that is not split. -/
theorem unsplitKernel_of_tryKernel {c : Coin} {draft : StakeDraft}
    (h : tryKernel env files s request ch c = some draft) (hlength : draft.tx.vout.length = 2) :
    ∃ n scriptPubKeyOut, UnsplitKernel env files s request c n ∧
      kernelScriptOut ch.getPubKey c.scriptPubKey = some scriptPubKeyOut ∧
      draft.tx.nTime = uint32 (request.txNew.nTime - n) ∧
      draft.scriptPubKeyKernel = c.scriptPubKey ∧
      draft.tx.vout[1]?.map CTxOut.scriptPubKey = some scriptPubKeyOut := by
  unfold tryKernel at h
  obtain ⟨txindex, hindex, h⟩ := Option.bind_eq_some_iff.mp h
  obtain ⟨block, hblock, h⟩ := Option.bind_eq_some_iff.mp h
  split at h
  · cases h
  · next hage =>
    obtain ⟨n, hsearch, h⟩ := Option.bind_eq_some_iff.mp h
    obtain ⟨scriptPubKeyOut, hscript, rfl⟩ := Option.map_eq_some_iff.mp h
    obtain ⟨hfound, hlt, hfirst⟩ := searchBack_spec hsearch
    refine ⟨n, scriptPubKeyOut, ⟨by omega, txindex, block, hindex, hblock, not_lt.mp hage, ?_, hfound,
      fun m => hfirst m m.zero_le⟩, hscript, rfl, rfl, rfl⟩
    by_contra hsplit
    rw [addKernel] at hlength
    dsimp only at hlength
    rw [if_pos (not_le.mp hsplit)] at hlength
    cases hlength

/-- A coin that was added is one that the wallet has beside the kernel. -/
theorem DraftOf.newerCoin {c d : Coin} {more : List Coin} {draft : StakeDraft} {nCoinAgeSeconds : Nat}
    (h : DraftOf w files s request ch nAvailable c more draft)
    (hstakeable : w.stakeable request = some nAvailable)
    (hage : draft.tx.getCoinAge env files s.txdb.data.txIndex = some nCoinAgeSeconds)
    (hd : d ∈ more) (hnewer : draft.tx.nTime < d.wtx.tx.nTime) :
    ∃ n, NewerCoin w files s request ch c d n := by
  have hvin := h.vin
  obtain ⟨⟨draft₀, htry, hcredit, hadds⟩, heligible, -⟩ := h
  have hkernel := kernelOf_of_tryKernel htry
  have hkey := hadds.sameKey d hd
  unfold StakeDraft.sameKey at hkey
  simp only [Bool.and_eq_true, Bool.or_eq_true, beq_iff_eq, bne_iff_ne] at hkey
  obtain ⟨⟨hlength, hscript⟩, hother⟩ := hkey
  obtain ⟨n, scriptPubKeyOut, hunsplit, hout, htime₀, hscriptKernel, hscriptOut⟩ :=
    unsplitKernel_of_tryKernel htry hlength
  have htime : draft.tx.nTime = uint32 (request.txNew.nTime - n) := by rw [hadds.tx, ← htime₀]
  have hold := hadds.old d hd
  rw [List.forall_mem_cons] at heligible
  rw [htime] at hnewer
  rw [htime₀] at hold
  refine ⟨n, ⟨heligible.1, heligible.2 d hd⟩, hunsplit, ⟨scriptPubKeyOut, hout, ?_⟩, ?_, ⟨?_, ?_⟩, ?_,
    ?_, hold, hnewer⟩
  · rw [hscriptKernel, hscriptOut] at hscript
    simpa using hscript
  · rw [hkernel.vin] at hother
    exact fun heq => hother (congrArg some heq.symm)
  · rw [← hkernel.nCredit]
    exact hadds.combine (List.ne_nil_of_mem hd)
  · exact hadds.small d hd
  · -- what has been added besides is not negative
    refine ⟨nAvailable, hstakeable, ?_⟩
    have hle := hadds.nCredit_le hcredit
    have hsum : d.nValue ≤ (more.map Coin.nValue).sum := by
      apply List.single_le_sum _ _ (List.mem_map_of_mem hd)
      intro nValue hmem
      obtain ⟨d', hd', rfl⟩ := List.mem_map.mp hmem
      exact (heligible.2 d' hd').positive.le
    rw [hadds.nCredit, hkernel.nCredit] at hle
    omega
  · intro txPrev txindex hread
    have hmem : ({ prevout := d.prevout env } : CTxIn) ∈ draft.tx.vin := by
      rw [hvin]
      exact List.mem_cons_of_mem _ (List.mem_map_of_mem hd)
    have hbase : draft.tx.isCoinBase = false := by
      obtain ⟨d', more', rfl⟩ := List.exists_cons_of_ne_nil (List.ne_nil_of_mem hd)
      unfold CTransaction.isCoinBase
      rw [hvin]
      rfl
    rw [← htime]
    exact CTransaction.nTime_le_of_getCoinAge hbase hage hmem hread

end

/-! ## What a created coinstake keeps to -/

/-- The transaction stakes these coins, within the wallet's rules and those of the chain. -/
structure ValidStake {env : Env} (w : SpendingWallet env) (files : Files) (s : NodeState)
    (request : StakeRequest) (coins : List Coin) (nMinFee : ℤ) (tx : CTransaction) : Prop where
  prevouts : tx.vin.map CTxIn.prevout = coins.map (Coin.prevout env)
  distinct : (tx.vin.map CTxIn.prevout).Nodup
  /-- No coin is newer than the coinstake. -/
  spendable : ∀ c ∈ coins, c.Spendable w tx.nTime
  length_le : tx.vin.length ≤ 100
  isCoinStake : tx.isCoinStake = true
  kernel : ∃ c txindex block, coins.head? = some c ∧
    s.txdb.data.txIndex (env.getHash c.wtx.tx) = some txindex ∧
    files.readHeaderAt txindex.pos.nFile txindex.pos.nBlockPos = some block ∧
      (s.checkStakeKernelHash env request.nBits block txindex.offset c.wtx.tx (c.prevout env)
        tx.nTime 0).1 = true
  /-- What is staked leaves the reserve. -/
  reserve : ∃ nBalance nReserveBalance, w.getBalance = .ok nBalance ∧
    request.nReserveBalance = some nReserveBalance ∧
      (coins.map Coin.nValue).sum ≤ nBalance - nReserveBalance
  /-- The outputs are the inputs and the reward less the fee. -/
  total : ∃ nCoinAgeSeconds, tx.getCoinAge env files s.txdb.data.txIndex = some nCoinAgeSeconds ∧
    (tx.vout.map CTxOut.nValue).sum
      = (coins.map Coin.nValue).sum + getProofOfStakeReward (int64 nCoinAgeSeconds) - nMinFee
  /-- The fee is enough for the transaction as it is. -/
  fee : 0 ≤ nMinFee ∧ tx.getMinFee 1 .GMF_BLOCK - MIN_TX_FEE ≤ nMinFee
  /-- `ConnectInputs` accepts the reward, where the inputs it has fetched are those transactions and
  no sum is out of range. -/
  reward : ∀ (inputs : MapPrevTx) (pindexBlock : BlockPtr) (nValueIn nValueOut : ℤ),
    (∀ c ∈ coins, ∃ txindex, inputs (env.getHash c.wtx.tx) = some (txindex, c.wtx.tx)) →
    tx.vin.foldlM (CTransaction.checkInput env inputs pindexBlock tx) 0 = .ok nValueIn →
    tx.getValueOut = .ok nValueOut →
      tx.checkStakeReward env files s.txdb.data.txIndex nValueIn = .ok ()

section

variable {env : Env} {files : Files} {w : SpendingWallet env} {s : NodeState} {request : StakeRequest}
  {ch : StakeChoices} {nAvailable nMinFee nValueIn nValueOut : ℤ} {c : Coin} {coins more : List Coin}
  {draft : StakeDraft} {tx : CTransaction}

theorem SpendingWallet.stakeable_eq_some (h : w.stakeable request = some nAvailable) :
    ∃ nBalance nReserveBalance, w.getBalance = .ok nBalance ∧
      request.nReserveBalance = some nReserveBalance ∧ nAvailable = nBalance - nReserveBalance ∧
        0 < nAvailable := by
  unfold SpendingWallet.stakeable at h
  split at h
  · next nBalance nReserveBalance hbalance hreserve =>
    split at h
    · cases h
    · cases h
      exact ⟨nBalance, nReserveBalance, hbalance, hreserve, rfl, by omega⟩
  · cases h

/-- The values of the coins are those that `ConnectInputs` adds up. -/
theorem sumValueIn_coins {inputs : MapPrevTx} (hprevouts : tx.vin.map CTxIn.prevout
      = coins.map (Coin.prevout env))
    (hspendable : ∀ c ∈ coins, c.Spendable w request.txNew.nTime)
    (hinputs : ∀ c ∈ coins, ∃ txindex, inputs (env.getHash c.wtx.tx) = some (txindex, c.wtx.tx)) :
    CTransaction.sumValueIn inputs tx.vin = (coins.map Coin.nValue).sum := by
  have hvalue : ∀ c ∈ coins, ((inputs (c.prevout env).hash).bind fun prev =>
      prev.2.vout[(c.prevout env).n]?.map CTxOut.nValue).getD 0 = c.nValue := by
    intro c hc
    obtain ⟨txindex, hin⟩ := hinputs c hc
    obtain ⟨txout, hout, hvalue, -⟩ := (hspendable c hc).vout
    rw [Coin.prevout, hin]
    simp [hout, hvalue]
  have hmap : tx.vin.map (CTransaction.prevValue inputs) = (tx.vin.map CTxIn.prevout).map
      fun o => ((inputs o.hash).bind fun prev => prev.2.vout[o.n]?.map CTxOut.nValue).getD 0 := by
    rw [List.map_map]
    rfl
  rw [CTransaction.sumValueIn, hmap, hprevouts, List.map_map]
  exact congrArg List.sum (List.map_congr_left hvalue)

/-- `ConnectInputs` allows the reward less the fee, as the outputs have it. -/
theorem checkStakeReward_of_total {nCoinAgeSeconds : Nat} {inputs : MapPrevTx}
    {pindexBlock : BlockPtr}
    (hage : tx.getCoinAge env files s.txdb.data.txIndex = some nCoinAgeSeconds)
    (htotal : (tx.vout.map CTxOut.nValue).sum = CTransaction.sumValueIn inputs tx.vin
      + getProofOfStakeReward (int64 nCoinAgeSeconds) - nMinFee)
    (hfee : tx.getMinFee 1 .GMF_BLOCK - MIN_TX_FEE ≤ nMinFee)
    (hcheck : tx.vin.foldlM (CTransaction.checkInput env inputs pindexBlock tx) 0 = .ok nValueIn)
    (hout : tx.getValueOut = .ok nValueOut) :
    tx.checkStakeReward env files s.txdb.data.txIndex nValueIn = .ok () := by
  have hin := (CTransaction.checkInput_loop (by decide) hcheck).1
  have hvalue := (getValueOut_eq hout).1
  unfold CTransaction.checkStakeReward
  rw [hage]
  refine Lib.bind_eq_ok.mpr ⟨nValueOut, hout, Lib.require_eq_ok.mpr (decide_eq_true ?_)⟩
  omega

/-- What the fee loop makes of a draft -/
theorem DraftOf.validStake (h : DraftOf w files s request ch nAvailable c more draft)
    (hstakeable : w.stakeable request = some nAvailable)
    (hlength : c.wtx.tx.vout.length ≤ UINT_MAX)
    (hnone : ∀ c d n, ¬ NewerCoin w files s request ch c d n) {nCoinAgeSeconds : Nat}
    (hage : draft.tx.getCoinAge env files s.txdb.data.txIndex = some nCoinAgeSeconds)
    (hblank : tx.blanked = (draft.tx.setStake
      (draft.nCredit + getProofOfStakeReward (int64 nCoinAgeSeconds) - nMinFee)).blanked)
    (hfee : tx.getMinFee 1 .GMF_BLOCK - MIN_TX_FEE ≤ nMinFee) (hnonneg : 0 ≤ nMinFee) :
    ValidStake w files s request (c :: more) nMinFee tx := by
  have hnotNewer : ∀ d ∈ more, d.wtx.tx.nTime ≤ draft.tx.nTime := by
    intro d hd
    by_contra hnewer
    obtain ⟨n, hn⟩ := h.newerCoin hstakeable hage hd (not_le.mp hnewer)
    exact hnone c d n hn
  have hvin₀ := h.vin
  obtain ⟨⟨draft₀, htry, hcredit, hadds⟩, heligible, hdistinct⟩ := h
  have hkernel := kernelOf_of_tryKernel htry
  have hspendable : ∀ d ∈ c :: more, d.Spendable w request.txNew.nTime :=
    fun d hd => (heligible d hd).spendable
  obtain ⟨nBalance, nReserveBalance, hbalance, hreserve, rfl, -⟩ :=
    SpendingWallet.stakeable_eq_some hstakeable
  obtain ⟨txindex, block, hindex, hblock, hhash⟩ := hkernel.kernel
  obtain ⟨scriptPubKeyOut, split, hout, hsplit⟩ := hkernel.vout
  -- the draft
  have htime₀ : draft.tx.nTime = draft₀.tx.nTime := by rw [hadds.tx]
  have hout₀ : draft.tx.vout
      = { nValue := 0 } :: { nValue := 0, scriptPubKey := scriptPubKeyOut } :: split := by
    rw [hadds.tx, hout]
  have hsum₀ : draft.nCredit = ((c :: more).map Coin.nValue).sum := by
    rw [hadds.nCredit, hkernel.nCredit, List.map_cons, List.sum_cons]
  -- what the transaction has of it
  obtain ⟨htime, hvin, hvout, hstake, hage'⟩ :=
    CTransaction.of_blanked_setStake env files s.txdb.data.txIndex hblank
  have hprevouts : tx.vin.map CTxIn.prevout = (c :: more).map (Coin.prevout env) := by
    rw [hvin, hvin₀]
    simp [Function.comp_def]
  have htotal : (tx.vout.map CTxOut.nValue).sum = ((c :: more).map Coin.nValue).sum
      + getProofOfStakeReward (int64 nCoinAgeSeconds) - nMinFee := by
    rw [hvout, CTransaction.sum_setStake hout₀ hsplit, ← hsum₀]
    simp
  rw [htime₀] at htime
  refine ⟨hprevouts, hprevouts ▸ hdistinct, ?_, ?_, ?_, ?_, ?_,
    ⟨nCoinAgeSeconds, hage'.trans hage, htotal⟩, ⟨hnonneg, hfee⟩, ?_⟩
  · rw [List.forall_mem_cons] at hspendable ⊢
    refine ⟨{ hspendable.1 with nTime_le := ?_ }, fun d hd => { hspendable.2 d hd with nTime_le := ?_ }⟩
    · rw [htime]
      exact nTime_le_of_kernel hhash
    · rw [htime, ← htime₀]
      exact hnotNewer d hd
  · have hlen := congrArg List.length hvin
    rw [List.length_map, List.length_map] at hlen
    rw [hlen]
    exact hadds.length_le (by simp [hkernel.vin])
  · rw [hstake]
    apply CTransaction.isCoinStake_setStake hvin₀ _ hout₀ rfl
    have hn := (hspendable c List.mem_cons_self).isIn.2
    have hne : c.n ≠ UINT_MAX := by omega
    simp [COutPoint.isNull, Coin.prevout, hne]
  · refine ⟨c, txindex, block, rfl, hindex, hblock, ?_⟩
    rw [htime]
    exact hhash
  · refine ⟨nBalance, nReserveBalance, hbalance, hreserve, ?_⟩
    rw [← hsum₀]
    exact hadds.nCredit_le hcredit
  · intro inputs pindexBlock nValueIn nValueOut hinputs hcheck hvalueOut
    rw [← sumValueIn_coins hprevouts hspendable hinputs] at htotal
    exact checkStakeReward_of_total (hage'.trans hage) htotal hfee hcheck hvalueOut

/-- `CreateCoinStake` comes to an end. -/
theorem SpendingWallet.createCoinStake_isSome {fuel : Nat} (hfuel : MAX_MONEY.toNat < fuel) :
    (w.createCoinStake files s request ch fuel).isSome = true := by
  unfold SpendingWallet.createCoinStake
  split
  · rfl
  · split
    · rfl
    · dsimp only
      split
      · rfl
      · rw [Option.isSome_map]
        exact feeLoop_isSome (by simpa using hfuel)

/-- `nMinFee` as the fee loop leaves it -/
def SpendingWallet.StakeFee (w : SpendingWallet env) (files : Files) (s : NodeState)
    (request : StakeRequest) (ch : StakeChoices) (tx : CTransaction) (nMinFee : ℤ) : Prop :=
  ∃ draft nCoinAgeSeconds fuel,
    (w.stakeable request).bind (w.draftStake files s request ch) = some draft ∧
    draft.tx.getCoinAge env files s.txdb.data.txIndex = some nCoinAgeSeconds ∧
    feeLoop ch.signSignature draft.vwtxPrev
      (draft.nCredit + getProofOfStakeReward (int64 nCoinAgeSeconds)) fuel 0 draft.tx 0
      = some (some (tx, nMinFee))

theorem SpendingWallet.createCoinStake_validStake {fuel : Nat}
    (hlength : ∀ (hash : Uint256) (wtx : CWalletTx), w.mapWallet[hash]? = some wtx →
      wtx.tx.vout.length ≤ UINT_MAX)
    (hnone : ∀ c d n, ¬ NewerCoin w files s request ch c d n)
    (h : w.createCoinStake files s request ch fuel = some (some tx)) :
    ∃ coins nMinFee, w.StakeFee files s request ch tx nMinFee ∧
      ValidStake w files s request coins nMinFee tx := by
  unfold SpendingWallet.createCoinStake at h
  split at h
  · cases h
  · next draft hdraft =>
    obtain ⟨nAvailable, hstakeable, hof⟩ := Option.bind_eq_some_iff.mp hdraft
    obtain ⟨-, -, -, -, -, hpos⟩ := SpendingWallet.stakeable_eq_some hstakeable
    obtain ⟨c, more, hof⟩ := SpendingWallet.draftStake_spec hpos hof
    split at h
    · cases h
    · next nCoinAgeSeconds hage =>
      dsimp only at h
      split at h
      · cases h
      · obtain ⟨result, hloop, h⟩ := Option.map_eq_some_iff.mp h
        obtain ⟨⟨tx', nMinFee⟩, hresult, h⟩ := Option.bind_eq_some_iff.mp h
        rw [hresult] at hloop
        obtain ⟨hblank, hfee, hnonneg⟩ := feeLoop_spec hloop fun _ => rfl
        split at h
        · cases h
        · cases h
          have hin := (hof.eligible c List.mem_cons_self).inWallet
          exact ⟨c :: more, nMinFee, ⟨draft, nCoinAgeSeconds, fuel, hdraft, hage, hloop⟩,
            hof.validStake hstakeable (hlength _ _ hin) hnone hage hblank hfee hnonneg⟩

end

end ShinyCoin

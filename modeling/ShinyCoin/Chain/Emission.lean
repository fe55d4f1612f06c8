import ShinyCoin.Chain.Money

/-!
# Emission

The proof-of-work schedule says what a block may create, proof-of-stake rewards run up a debt, and
the next proof-of-work reward pays the debt back, down to a quarter of the scheduled subsidy. Over a
run of blocks the debt is what the supply has exceeded the schedule by, and it is never more than
what stake has created.

The debt can also be negative: a block that claims less than it may, or burns fees, lowers it below
zero, and then `full subsidy - debt` is more than the full subsidy.
-/

namespace ShinyCoin

/-! ## The schedule -/

theorem fullSubsidy_nonneg (nPoWHeight : ℤ) : 0 ≤ fullSubsidy nPoWHeight := by
  have hsq : 0 ≤ (nPoWHeight - 1) * (nPoWHeight - 1) := mul_self_nonneg _
  rw [fullSubsidy, le_min_iff]
  refine ⟨?_, by decide⟩
  split
  · have : 0 ≤ ((399 * COIN * (nPoWHeight - 1) * (nPoWHeight - 1)).tdiv 575).tdiv 575 := by
      apply Int.tdiv_nonneg _ (by decide)
      apply Int.tdiv_nonneg _ (by decide)
      rw [mul_assoc]
      exact mul_nonneg (by decide) hsq
    have hcoin : (0 : ℤ) ≤ COIN := by decide
    omega
  · exact Int.tdiv_nonneg (by decide) (mul_self_nonneg _)

theorem fullSubsidy_le (nPoWHeight : ℤ) : fullSubsidy nPoWHeight ≤ MAX_MINT_PROOF_OF_WORK :=
  min_le_right _ _

/-- The scheduled reward does not look at the debt. -/
theorem getNextProofOfWorkReward_scheduled (pPrev : BlockPtr) (nPoSDebt : ℤ) :
    getNextProofOfWorkReward pPrev nPoSDebt false = getNextProofOfWorkReward pPrev 0 false := by
  cases pPrev <;> rfl

theorem scheduledReward_le (pPrev : BlockPtr) :
    getNextProofOfWorkReward pPrev 0 false ≤ MAX_MINT_PROOF_OF_WORK := by
  cases pPrev with
  | nil => decide
  | cons prev _ => exact fullSubsidy_le _

/-- Paying a reward takes at most the debt off the schedule: what is left of the debt is not
positive, or at least a part of it was paid. -/
theorem reward_sub_scheduled_le (pPrev : BlockPtr) (nPoSDebt : ℤ) :
    getNextProofOfWorkReward pPrev nPoSDebt true - getNextProofOfWorkReward pPrev 0 false
      ≤ max 0 (-nPoSDebt) := by
  cases pPrev with
  | nil => simp [getNextProofOfWorkReward]
  | cons prev _ =>
      have hS := fullSubsidy_nonneg (prev.nPoWHeight + 1)
      have hq : (fullSubsidy (prev.nPoWHeight + 1)).tdiv 4 ≤ fullSubsidy (prev.nPoWHeight + 1) := by
        rw [Int.tdiv_eq_ediv_of_nonneg hS]
        omega
      simp only [getNextProofOfWorkReward, if_true, Bool.false_eq_true, if_false]
      omega

/-! ## What a block creates -/

namespace CBlock

variable {env : Env} {files : Files} {s : NodeState} {block : CBlock} {pindex : CBlockIndex}
  {pprev : BlockPtr} {st : ConnectState}

/-- In a proof-of-work block nothing but the first transaction creates money, and fees only move
it: what is created is what the coinbase pays out beyond the fees. -/
theorem netMint_of_proofOfWork (hcheck : CheckedBlock env block)
    (hpow : block.isProofOfWork = true) {nCoinbaseOut : ℤ}
    (hcb : block.coinbaseValueOut = .ok nCoinbaseOut)
    (h : block.connectTxs env files s pindex pprev = .ok st) :
    st.nValueOut - st.nValueIn = nCoinbaseOut - st.nFees := by
  obtain ⟨tx, txs, hvtx, hfirst, hrest⟩ := hcheck.coinbase
  have hstake : ∀ tx' ∈ txs, tx'.isCoinStake = false := by
    intro tx' htx'
    cases txs with
    | nil => simp at htx'
    | cons tx₁ txs =>
        rcases List.mem_cons.mp htx' with rfl | htx'
        · simpa [isProofOfWork, isProofOfStake, hvtx] using hpow
        · exact hcheck.coinstake tx' (by simpa [hvtx] using htx')
  rw [connectTxs, hvtx, List.foldlM_cons] at h
  obtain ⟨st₁, h₁, h⟩ := Lib.bind_eq_ok.mp h
  obtain ⟨nTxValueIn, nTxValueOut, hconn⟩ := connectTx_ok h₁
  rw [coinbaseValueOut, hvtx] at hcb
  have hout : nTxValueOut = nCoinbaseOut := Except.ok.inj (hconn.getValueOut.symm.trans hcb)
  have hstart : st₁.nValueOut - st₁.nValueIn + st₁.nFees = nCoinbaseOut := by
    rw [hconn.nValueOut, hconn.nValueIn, hconn.nFees, (hconn.coinbase hfirst).1, hout]
    simp [hfirst]
  -- the other transactions pay in fees what they do not pay out
  obtain ⟨-, hend⟩ := Lib.foldlM_ok_inv
    (fun rest st => (∀ tx' ∈ rest, tx'.isCoinBase = false ∧ tx'.isCoinStake = false) ∧
      st.nValueOut - st.nValueIn + st.nFees = nCoinbaseOut)
    (fun tx' rest st st' hI hstep => by
      obtain ⟨hall, hI⟩ := hI
      obtain ⟨vin, vout, hconn⟩ := connectTx_ok hstep
      obtain ⟨hcb', hcs'⟩ := hall tx' List.mem_cons_self
      refine ⟨fun tx'' h'' => hall tx'' (List.mem_cons_of_mem _ h''), ?_⟩
      have hfee := hconn.nFees
      simp only [hcb', hcs', Bool.or_self, Bool.false_eq_true, if_false] at hfee
      rw [hconn.nValueOut, hconn.nValueIn, hfee]
      omega)
    ⟨fun tx' htx' => ⟨hrest tx' htx', hstake tx' htx'⟩, hstart⟩ h
  omega

theorem checkCoinbaseReward_ok {nPoSDebt nFees nCoinbaseOut : ℤ}
    (h : block.checkCoinbaseReward pprev nPoSDebt nFees = .ok nCoinbaseOut) :
    block.coinbaseValueOut = .ok nCoinbaseOut ∧
      nCoinbaseOut ≤ block.coinbaseReward pprev nPoSDebt nFees := by
  rw [checkCoinbaseReward] at h
  obtain ⟨out, hout, h⟩ := Lib.bind_eq_ok.mp h
  obtain ⟨hle, h⟩ := Lib.seq_eq_ok.mp h
  cases h
  rw [Lib.require_eq_ok, decide_eq_true_eq] at hle
  exact ⟨hout, hle⟩

end CBlock

/-! ## Over a run -/

/-- What a block adds to the supply. -/
def ConnectedBlock.netMint (b : ConnectedBlock) : ℤ := b.st.nValueOut - b.st.nValueIn

/-- The subsidies scheduled for the proof-of-work blocks of a run. -/
def scheduledSubsidies (bs : List ConnectedBlock) : ℤ :=
  ((bs.filter fun b => b.block.isProofOfWork).map fun b =>
    getNextProofOfWorkReward b.pprev 0 false).sum

/-- What the proof-of-stake blocks of a run have created. -/
def stakeMints (bs : List ConnectedBlock) : ℤ :=
  ((bs.filter fun b => b.block.isProofOfStake).map fun b => max 0 b.netMint).sum

theorem stakeMints_nonneg (bs : List ConnectedBlock) : 0 ≤ stakeMints bs := by
  apply List.sum_nonneg
  intro z hz
  obtain ⟨b, -, rfl⟩ := List.mem_map.mp hz
  exact le_max_left _ _

theorem scheduledSubsidies_append (bs : List ConnectedBlock) (b : ConnectedBlock) :
    scheduledSubsidies (bs ++ [b]) = scheduledSubsidies bs
      + if b.block.isProofOfStake then 0 else getNextProofOfWorkReward b.pprev 0 false := by
  cases h : b.block.isProofOfStake <;>
    simp [scheduledSubsidies, List.filter_append, CBlock.isProofOfWork, h]

theorem stakeMints_append (bs : List ConnectedBlock) (b : ConnectedBlock) :
    stakeMints (bs ++ [b]) = stakeMints bs
      + if b.block.isProofOfStake then max 0 b.netMint else 0 := by
  cases h : b.block.isProofOfStake <;> simp [stakeMints, List.filter_append, h]

section

variable {env : Env} {files : Files} {genesis : BlockPtr} {bs : List ConnectedBlock}
  {s : NodeState}

/-- The debt is what the supply has exceeded the schedule by. -/
theorem ConnectRun.debt_eq (hrun : ConnectRun env files genesis bs s) :
    (s.statsOf (tipOf genesis bs)).nPoSDebt
      = (s.statsOf (tipOf genesis bs)).nMoneySupply - scheduledSubsidies bs := by
  induction hrun with
  | genesis h =>
      rw [show tipOf genesis [] = genesis from rfl, h.stats]
      rfl
  | @connect bs s s₁ s' block pindex st hrun hsame hst hconn ih =>
      obtain ⟨nCoinbaseOut, hcheck, hreward, -, hstats⟩ := CBlock.connectBlock_writes hst hconn
      obtain ⟨hcb, -⟩ := CBlock.checkCoinbaseReward_ok hreward
      rw [← statsOf_congr hsame.2] at ih
      rw [tipOf_append, hstats, scheduledSubsidies_append]
      simp only [CBlock.newStats, ih, getNextProofOfWorkReward_scheduled _
        (_ - scheduledSubsidies bs)]
      cases hpos : block.isProofOfStake with
      | true =>
          simp only [if_true]
          ring
      | false =>
          have hnet := CBlock.netMint_of_proofOfWork (CBlock.checkConnect_ok hcheck).1
            (by simp [CBlock.isProofOfWork, hpos]) hcb hst
          simp only [Bool.false_eq_true, if_false]
          linarith

/-- The debt never exceeds what stake has created. -/
theorem ConnectRun.debt_le (hrun : ConnectRun env files genesis bs s) :
    (s.statsOf (tipOf genesis bs)).nPoSDebt ≤ stakeMints bs := by
  induction hrun with
  | genesis h =>
      rw [show tipOf genesis [] = genesis from rfl, h.stats]
      exact le_rfl
  | @connect bs s s₁ s' block pindex st hrun hsame hst hconn ih =>
      obtain ⟨nCoinbaseOut, hcheck, hreward, -, hstats⟩ := CBlock.connectBlock_writes hst hconn
      obtain ⟨-, hle⟩ := CBlock.checkCoinbaseReward_ok hreward
      rw [← statsOf_congr hsame.2] at ih
      rw [tipOf_append, hstats, stakeMints_append]
      have hmints := stakeMints_nonneg bs
      cases hpos : block.isProofOfStake with
      | true =>
          simp only [CBlock.newStats, hpos, if_true, ConnectedBlock.netMint]
          have := le_max_right 0 (st.nValueOut - st.nValueIn)
          linarith
      | false =>
          -- the reward check bounds what is left of the debt
          have hr := reward_sub_scheduled_le (tipOf genesis bs)
            (s₁.statsOf (tipOf genesis bs)).nPoSDebt
          simp only [CBlock.coinbaseReward, CBlock.isProofOfWork, hpos, Bool.not_false,
            if_true] at hle
          simp only [CBlock.newStats, hpos, Bool.false_eq_true, if_false,
            getNextProofOfWorkReward_scheduled _ (s₁.statsOf (tipOf genesis bs)).nPoSDebt]
          omega

end

/-- At every block of every run: the debt is the supply less the scheduled subsidies, it is at most
what stake has created, and so the supply is at most the two together. -/
theorem emission_accounting (env : Env) (files : Files) (genesis : BlockPtr)
    (bs : List ConnectedBlock) (s : NodeState) (hrun : ConnectRun env files genesis bs s) :
    (s.statsOf (tipOf genesis bs)).nPoSDebt
        = (s.statsOf (tipOf genesis bs)).nMoneySupply - scheduledSubsidies bs ∧
      (s.statsOf (tipOf genesis bs)).nPoSDebt ≤ stakeMints bs ∧
      (s.statsOf (tipOf genesis bs)).nMoneySupply ≤ scheduledSubsidies bs + stakeMints bs := by
  have heq := hrun.debt_eq
  have hle := hrun.debt_le
  exact ⟨heq, hle, by linarith⟩

/-! ### A block of stake between two of work -/

def mintFiles : Files := { sampleFiles with block := fun _ _ => some sampleBlock }

/-- More than three years later, the payment of `sampleBlock` earns two cents. -/
def mintingBlock : CBlock where
  nTime := 100000000
  nNonce := 2
  vtx := [{ sampleCoinbase with nTime := 99999999, vout := [{ nValue := 0 }] },
    { nTime := 100000000, vin := [{ prevout := ⟨2, 0⟩ }]
      vout := [{ nValue := 0 }, { nValue := COIN + 20000, scriptPubKey := [2] }] }]

def mintingIndex : CBlockIndex :=
  { hashBlock := 3, nFile := 1, nBlockPos := 500, nHeight := 2, nPoWHeight := 1 }

/-- The subsidy of the second block of work, less the two cents -/
def indebtedBlock : CBlock where
  nTime := 100000001
  nNonce := 3
  vtx := [{ sampleCoinbase with
    nTime := 100000001, vout := [{ nValue := 1001206 - 20000, scriptPubKey := [1] }] }]

def indebtedIndex : CBlockIndex :=
  { hashBlock := 4, nFile := 1, nBlockPos := 1000, nHeight := 3, nPoWHeight := 2 }

/-- The node after the first block, with its clock at the time of the second -/
def waitingState : NodeState :=
  { Lib.final (sampleBlock.connectBlock Env.plain mintFiles sampleIndex [sampleGenesis] sampleState)
    with nAdjustedTime := 100000000 }

def mintedState : NodeState :=
  Lib.final (mintingBlock.connectBlock Env.plain mintFiles mintingIndex [sampleIndex, sampleGenesis]
    waitingState)

def repaidState : NodeState :=
  Lib.final (indebtedBlock.connectBlock Env.plain mintFiles indebtedIndex
    [mintingIndex, sampleIndex, sampleGenesis] mintedState)

def mintingBlocks (st₁ st₂ st₃ : ConnectState) : List ConnectedBlock :=
  [⟨sampleBlock, sampleIndex, [sampleGenesis], {}, st₁⟩,
    ⟨mintingBlock, mintingIndex, [sampleIndex, sampleGenesis],
      waitingState.statsOf [sampleIndex, sampleGenesis], st₂⟩,
    ⟨indebtedBlock, indebtedIndex, [mintingIndex, sampleIndex, sampleGenesis],
      mintedState.statsOf [mintingIndex, sampleIndex, sampleGenesis], st₃⟩]

theorem mintingRun : ∃ st₁ st₂ st₃,
    ConnectRun Env.plain mintFiles [sampleGenesis] (mintingBlocks st₁ st₂ st₃) repaidState := by
  obtain ⟨st₁, hst₁⟩ := Lib.exists_of_isOk (show (sampleBlock.connectTxs Env.plain mintFiles
    sampleState sampleIndex [sampleGenesis]).isOk = true by decide)
  obtain ⟨st₂, hst₂⟩ := Lib.exists_of_isOk (show (mintingBlock.connectTxs Env.plain mintFiles
    waitingState mintingIndex [sampleIndex, sampleGenesis]).isOk = true by decide +kernel)
  obtain ⟨st₃, hst₃⟩ := Lib.exists_of_isOk (show (indebtedBlock.connectTxs Env.plain mintFiles
    mintedState indebtedIndex [mintingIndex, sampleIndex, sampleGenesis]).isOk = true by
      decide +kernel)
  have hs₁ := Lib.eq_ok_final (show (sampleBlock.connectBlock Env.plain mintFiles sampleIndex
    [sampleGenesis] sampleState).isOk = true by decide)
  have hs₂ := Lib.eq_ok_final (show (mintingBlock.connectBlock Env.plain mintFiles mintingIndex
    [sampleIndex, sampleGenesis] waitingState).isOk = true by decide +kernel)
  have hs₃ := Lib.eq_ok_final (show (indebtedBlock.connectBlock Env.plain mintFiles indebtedIndex
    [mintingIndex, sampleIndex, sampleGenesis] mintedState).isOk = true by decide +kernel)
  have hstart : ConnectRun Env.plain mintFiles [sampleGenesis] [] sampleState :=
    ConnectRun.genesis ⟨rfl, rfl⟩
  have hrun₁ := hstart.connect ⟨rfl, rfl⟩ hst₁ hs₁
  have hrun₂ := hrun₁.connect (show SameLedger _ waitingState from ⟨rfl, rfl⟩) hst₂ hs₂
  exact ⟨st₁, st₂, st₃, hrun₂.connect ⟨rfl, rfl⟩ hst₃ hs₃⟩

/-- The debt of two cents is paid back. -/
theorem emission_accounting_mintingRun :
    ∃ st₁ st₂ st₃, ConnectRun Env.plain mintFiles [sampleGenesis] (mintingBlocks st₁ st₂ st₃)
        repaidState ∧
      (mintedState.statsOf [mintingIndex]).nPoSDebt = 20000 ∧
      (repaidState.statsOf [indebtedIndex]).nPoSDebt = 0 ∧
      (repaidState.statsOf [indebtedIndex]).nMoneySupply
        = scheduledSubsidies (mintingBlocks st₁ st₂ st₃) := by
  obtain ⟨st₁, st₂, st₃, hrun⟩ := mintingRun
  have hrepaid : (repaidState.statsOf [indebtedIndex]).nPoSDebt = 0 := by decide +kernel
  refine ⟨st₁, st₂, st₃, hrun, by decide +kernel, hrepaid, ?_⟩
  have hdebt : (repaidState.statsOf [indebtedIndex]).nPoSDebt
      = (repaidState.statsOf [indebtedIndex]).nMoneySupply
        - scheduledSubsidies (mintingBlocks st₁ st₂ st₃) :=
    (emission_accounting _ _ _ _ _ hrun).1
  rw [hrepaid] at hdebt
  exact sub_eq_zero.mp hdebt.symm

/-! ## The cap on a block -/

/-- The coinbase creates at most the cap and at most the subsidy of its proof-of-work height. -/
def ConnectedBlock.MintCapped (b : ConnectedBlock) : Prop :=
  ∀ nCoinbaseOut, b.block.coinbaseValueOut = .ok nCoinbaseOut →
    nCoinbaseOut - b.st.nFees ≤ MAX_MINT_PROOF_OF_WORK ∧
      nCoinbaseOut - b.st.nFees ≤ getNextProofOfWorkReward b.pprev 0 false

theorem mintCapped_of_debt_nonneg {block : CBlock} {pindex : CBlockIndex} {pprev : BlockPtr}
    {prev : BlockStats} {st : ConnectState} {nCoinbaseOut : ℤ}
    (hpow : block.isProofOfWork = true) (hdebt : 0 ≤ prev.nPoSDebt)
    (hreward : block.checkCoinbaseReward pprev prev.nPoSDebt st.nFees = .ok nCoinbaseOut) :
    ConnectedBlock.MintCapped ⟨block, pindex, pprev, prev, st⟩ := by
  intro out hout
  obtain ⟨hcb, hle⟩ := CBlock.checkCoinbaseReward_ok hreward
  cases hcb.symm.trans hout
  rw [CBlock.coinbaseReward, if_pos hpow] at hle
  have hr := reward_sub_scheduled_le pprev prev.nPoSDebt
  have hmax := scheduledReward_le pprev
  rw [max_eq_left (by omega)] at hr
  exact ⟨by dsimp only; omega, by dsimp only; omega⟩

/-- In every run in which no proof-of-work block finds a negative debt at its parent, every
proof-of-work block stays within the cap and within its subsidy. -/
theorem mint_capped_of_no_negative_debt (env : Env) (files : Files) (genesis : BlockPtr)
    (bs : List ConnectedBlock) (s : NodeState) (hrun : ConnectRun env files genesis bs s)
    (hdebt : ∀ b ∈ bs, b.block.isProofOfWork = true → 0 ≤ b.prevStats.nPoSDebt) :
    ∀ b ∈ bs, b.block.isProofOfWork = true → b.MintCapped := by
  induction hrun with
  | genesis h =>
      intro b hb
      simp at hb
  | @connect bs s s₁ s' block pindex st hrun hsame hst hconn ih =>
      obtain ⟨nCoinbaseOut, -, hreward, -, -⟩ := CBlock.connectBlock_writes hst hconn
      intro b hb hpow
      rcases List.mem_append.mp hb with hb' | hb'
      · exact ih (fun b' hb'' => hdebt b' (List.mem_append_left _ hb'')) b hb' hpow
      · have hd := hdebt b hb hpow
        rw [List.mem_singleton] at hb'
        subst hb'
        exact mintCapped_of_debt_nonneg hpow hd hreward

theorem mint_capped_mintingRun :
    ∃ st₁ st₂ st₃, ConnectRun Env.plain mintFiles [sampleGenesis] (mintingBlocks st₁ st₂ st₃)
        repaidState ∧
      ∀ b ∈ mintingBlocks st₁ st₂ st₃, b.block.isProofOfWork = true → b.MintCapped := by
  obtain ⟨st₁, st₂, st₃, hrun⟩ := mintingRun
  refine ⟨st₁, st₂, st₃, hrun, mint_capped_of_no_negative_debt _ _ _ _ _ hrun ?_⟩
  intro b hb hpow
  simp only [mintingBlocks, List.mem_cons, List.not_mem_nil, or_false] at hb
  rcases hb with rfl | rfl | rfl
  · exact le_rfl
  · exact absurd (show mintingBlock.isProofOfWork = true from hpow) (by decide)
  · show 0 ≤ (mintedState.statsOf [mintingIndex, sampleIndex, sampleGenesis]).nPoSDebt
    decide +kernel

/-- The first block after the genesis block, claiming nothing of its reward of one coin. -/
def thriftyBlock : CBlock where
  nTime := 1
  nNonce := 1
  vtx := [{ sampleCoinbase with vout := [{ nValue := 0, scriptPubKey := [1] }] }]

/-- Its successor, claiming its own subsidy and the coin the first one left. -/
def greedyBlock : CBlock where
  nTime := 1
  nNonce := 2
  vtx := [{ sampleCoinbase with nTime := 1, vout := [{ nValue := 2001206, scriptPubKey := [1] }] }]

def greedyIndex : CBlockIndex :=
  { hashBlock := 3, nFile := 1, nBlockPos := 500, nHeight := 2, nPoWHeight := 2 }

/-- The node after the first block. -/
def thriftyState : NodeState :=
  Lib.final (thriftyBlock.connectBlock Env.plain sampleFiles sampleIndex [sampleGenesis] sampleState)

/-- The second block is accepted and creates almost twice its subsidy. -/
theorem mint_not_capped :
    ∃ st₁ st₂ prev s', ConnectRun Env.plain sampleFiles [sampleGenesis]
        [⟨thriftyBlock, sampleIndex, [sampleGenesis], {}, st₁⟩,
          ⟨greedyBlock, greedyIndex, [sampleIndex, sampleGenesis], prev, st₂⟩] s' ∧
      greedyBlock.isProofOfWork = true ∧
      ¬ ConnectedBlock.MintCapped
        ⟨greedyBlock, greedyIndex, [sampleIndex, sampleGenesis], prev, st₂⟩ := by
  obtain ⟨st₁, hst₁⟩ := Lib.exists_of_isOk (show (thriftyBlock.connectTxs Env.plain sampleFiles
    sampleState sampleIndex [sampleGenesis]).isOk = true by decide)
  have hs₁ := Lib.eq_ok_final (show (thriftyBlock.connectBlock Env.plain sampleFiles sampleIndex
    [sampleGenesis] sampleState).isOk = true by decide)
  obtain ⟨s₂, hs₂⟩ := Lib.exists_of_isOk (show (greedyBlock.connectBlock Env.plain sampleFiles
    greedyIndex [sampleIndex, sampleGenesis] thriftyState).isOk = true by decide)
  have hfees : (greedyBlock.connectTxs Env.plain sampleFiles thriftyState greedyIndex
      [sampleIndex, sampleGenesis]).toOption.map ConnectState.nFees = some 0 := by decide
  obtain ⟨st₂, hst₂, hfees⟩ := Option.map_eq_some_iff.mp hfees
  have hst₂' : greedyBlock.connectTxs Env.plain sampleFiles thriftyState greedyIndex
      [sampleIndex, sampleGenesis] = .ok st₂ := by
    cases h : greedyBlock.connectTxs Env.plain sampleFiles thriftyState greedyIndex
        [sampleIndex, sampleGenesis] with
    | error e => rw [h] at hst₂; cases hst₂
    | ok st => rw [h] at hst₂; rw [Option.some.inj hst₂]
  have hstart : ConnectRun Env.plain sampleFiles [sampleGenesis] [] sampleState :=
    ConnectRun.genesis ⟨rfl, rfl⟩
  have hrun₁ := hstart.connect ⟨rfl, rfl⟩ hst₁ hs₁
  refine ⟨st₁, st₂, _, s₂, ConnectRun.connect hrun₁ ⟨rfl, rfl⟩ hst₂' hs₂, by decide, ?_⟩
  intro hcap
  have hout : greedyBlock.coinbaseValueOut = .ok 2001206 := by rfl
  have := (hcap 2001206 hout).2
  simp only [hfees] at this
  exact absurd this (by decide)

end ShinyCoin

import ShinyCoin.Chain.Index

/-!
# Amounts of a transaction

`CheckTransaction` adds the outputs up in 64 bits and looks at the total once, after the loop. The
smallest output takes 10 bytes, so a transaction within the size limit has room for totals past
`2 ^ 64` which come back into range. `GetValueOut` looks at every partial sum.

`GetProofOfStakeReward` multiplies the coin age by `CENT * 33` in 64 bits before it divides. The coin
age of coins within the money supply goes up to some `2 ^ 62.9`.
-/

namespace ShinyCoin

namespace CTransaction

variable {tx : CTransaction}

/-! ## Outputs -/

/-- The values of the outputs, added up without a bound. -/
def totalOut (tx : CTransaction) : ℤ := (tx.vout.map CTxOut.nValue).sum

/-- What `CheckTransaction` asks of an output. -/
def OutputOk (tx : CTransaction) (txout : CTxOut) : Prop :=
  (!txout.isEmpty || tx.isCoinBase || tx.isCoinStake) = true ∧ moneyRange txout.nValue = true

theorem checkTxOut_eq_ok {nValueOut n : ℤ} {txout : CTxOut} :
    tx.checkTxOut nValueOut txout = .ok n ↔
      tx.OutputOk txout ∧ n = int64 (nValueOut + txout.nValue) := by
  unfold checkTxOut OutputOk
  rw [Lib.seq_eq_ok, Lib.seq_eq_ok, Lib.seq_eq_ok, Lib.require_eq_ok, Lib.require_eq_ok,
    Lib.require_eq_ok, decide_eq_true_iff, decide_eq_true_iff, moneyRange_iff]
  constructor
  · rintro ⟨hempty, hhigh, hneg, h⟩
    cases h
    exact ⟨⟨hempty, hneg, hhigh⟩, rfl⟩
  · rintro ⟨⟨hempty, hneg, hhigh⟩, rfl⟩
    exact ⟨hempty, hhigh, hneg, rfl⟩

theorem int64_int64_add (a b : ℤ) : int64 (int64 a + b) = int64 (a + b) := by
  unfold int64
  exact Int.bmod_add_bmod

/-- A sum that is in range in 64 bits is itself, or it has gone all the way round. -/
theorem int64_eq_self_iff {z : ℤ} (hpos : 0 ≤ z) (hrange : moneyRange (int64 z) = true) :
    int64 z = z ↔ z < 2 ^ 64 := by
  have hrange := moneyRange_iff.mp hrange
  simp only [int64, MAX_MONEY, COIN] at hrange ⊢
  rw [Int.bmod_def] at hrange ⊢
  constructor
  · intro heq
    split at heq <;> omega
  · intro hlt
    -- a sum from 2 ^ 63 on is negative in 64 bits
    split at hrange <;> split <;> omega

/-- The loop of `CheckTransaction`: every output is in range, and the total is right in 64 bits. -/
theorem foldlM_checkTxOut {vout : List CTxOut} {nValueOut n : ℤ}
    (hstart : int64 nValueOut = nValueOut) :
    vout.foldlM tx.checkTxOut nValueOut = .ok n ↔
      (∀ txout ∈ vout, tx.OutputOk txout) ∧
        n = int64 (nValueOut + (vout.map CTxOut.nValue).sum) := by
  induction vout generalizing nValueOut with
  | nil =>
      rw [List.map_nil, List.sum_nil, add_zero, hstart]
      simp [pure, Except.pure, eq_comm]
  | cons txout vout ih =>
      rw [List.foldlM_cons, Lib.bind_eq_ok, List.forall_mem_cons, List.map_cons, List.sum_cons]
      have hwrap : int64 (int64 (nValueOut + txout.nValue)) = int64 (nValueOut + txout.nValue) := by
        simpa using int64_int64_add (nValueOut + txout.nValue) 0
      constructor
      · rintro ⟨n₁, h₁, h⟩
        obtain ⟨hok, rfl⟩ := checkTxOut_eq_ok.mp h₁
        obtain ⟨hrest, rfl⟩ := (ih hwrap).mp h
        refine ⟨⟨hok, hrest⟩, ?_⟩
        rw [int64_int64_add, add_assoc]
      · rintro ⟨⟨hok, hrest⟩, rfl⟩
        refine ⟨_, checkTxOut_eq_ok.mpr ⟨hok, rfl⟩, (ih hwrap).mpr ⟨hrest, ?_⟩⟩
        rw [int64_int64_add, add_assoc]

/-- An accepted transaction's outputs are in range, and so is their total in 64 bits. -/
theorem checkTransaction_outputs (h : tx.checkTransaction = .ok ()) :
    (∀ txout ∈ tx.vout, moneyRange txout.nValue = true) ∧
      moneyRange (int64 tx.totalOut) = true := by
  unfold checkTransaction at h
  obtain ⟨-, h⟩ := Lib.seq_eq_ok.mp h
  obtain ⟨-, h⟩ := Lib.seq_eq_ok.mp h
  obtain ⟨-, h⟩ := Lib.seq_eq_ok.mp h
  obtain ⟨-, h⟩ := Lib.seq_eq_ok.mp h
  obtain ⟨-, h⟩ := Lib.seq_eq_ok.mp h
  obtain ⟨-, h⟩ := Lib.seq_eq_ok.mp h
  obtain ⟨nValueOut, hloop, h⟩ := Lib.bind_eq_ok.mp h
  obtain ⟨hrange, -⟩ := Lib.seq_eq_ok.mp h
  obtain ⟨hok, rfl⟩ := (foldlM_checkTxOut rfl).mp hloop
  rw [zero_add] at hrange
  exact ⟨fun txout htxout => (hok txout htxout).2, Lib.require_eq_ok.mp hrange⟩

theorem sum_nonneg_of_moneyRange {vout : List CTxOut}
    (h : ∀ txout ∈ vout, moneyRange txout.nValue = true) : 0 ≤ (vout.map CTxOut.nValue).sum := by
  apply List.sum_nonneg
  intro v hv
  obtain ⟨txout, htxout, rfl⟩ := List.mem_map.mp hv
  exact (moneyRange_iff.mp (h txout htxout)).1

/-- `GetValueOut` returns the total where no partial sum leaves the range. -/
theorem getValueOut_of_totalOut_le (hrange : ∀ txout ∈ tx.vout, moneyRange txout.nValue = true)
    (htotal : tx.totalOut ≤ MAX_MONEY) : tx.getValueOut = .ok tx.totalOut := by
  have hloop : ∀ (vout : List CTxOut) (n : ℤ), 0 ≤ n →
      (∀ txout ∈ vout, moneyRange txout.nValue = true) →
      n + (vout.map CTxOut.nValue).sum ≤ MAX_MONEY →
      vout.foldlM (fun nValueOut txout => do
        let nValueOut := int64 (nValueOut + txout.nValue)
        Lib.require (moneyRange txout.nValue && moneyRange nValueOut)
          (Err.exc "CTransaction::GetValueOut() : value out of range")
        return nValueOut) n = .ok (n + (vout.map CTxOut.nValue).sum) := by
    intro vout
    induction vout with
    | nil =>
        intro n _ _ _
        simp [pure, Except.pure]
    | cons txout vout ih =>
        intro n hn hrange hle
        rw [List.forall_mem_cons] at hrange
        rw [List.map_cons, List.sum_cons, ← add_assoc] at hle ⊢
        have hvalue := moneyRange_iff.mp hrange.1
        have hrest := sum_nonneg_of_moneyRange hrange.2
        have h64 : int64 (n + txout.nValue) = n + txout.nValue := by
          apply int64_of_moneyRange
          · omega
          · simp only [MAX_MONEY, COIN] at hle ⊢
            omega
        have hpartial : moneyRange (n + txout.nValue) = true := by
          apply moneyRange_iff.mpr
          constructor <;> omega
        rw [List.foldlM_cons, Lib.bind_eq_ok]
        refine ⟨n + txout.nValue, ?_, ih _ (by omega) hrange.2 hle⟩
        dsimp only
        rw [h64, Lib.seq_eq_ok, Lib.require_eq_ok, hrange.1, hpartial]
        exact ⟨rfl, rfl⟩
  have h := hloop tx.vout 0 le_rfl hrange (by rw [zero_add]; exact htotal)
  rw [zero_add] at h
  exact h

/-- Nothing is lost of the values: each is in range, so is their total, and `GetValueOut` returns. -/
structure OutputsBounded (tx : CTransaction) : Prop where
  values : ∀ txout ∈ tx.vout, 0 ≤ txout.nValue ∧ txout.nValue ≤ MAX_MONEY
  total : tx.totalOut ≤ MAX_MONEY
  getValueOut : ∃ nValueOut, tx.getValueOut = .ok nValueOut

/-- The total of an accepted transaction is in range unless it has gone all the way round. -/
theorem checkTransaction_outputsBounded_iff (h : tx.checkTransaction = .ok ()) :
    tx.OutputsBounded ↔ tx.totalOut < 2 ^ 64 := by
  obtain ⟨hvalues, htotal⟩ := checkTransaction_outputs h
  have hpos : 0 ≤ tx.totalOut := sum_nonneg_of_moneyRange hvalues
  constructor
  · intro hbounded
    have := hbounded.total
    simp only [MAX_MONEY, COIN] at this
    omega
  · intro hlt
    have hle : tx.totalOut ≤ MAX_MONEY := by
      rw [(int64_eq_self_iff hpos htotal).mpr hlt] at htotal
      exact (moneyRange_iff.mp htotal).2
    exact ⟨fun txout htxout => moneyRange_iff.mp (hvalues txout htxout), hle,
      ⟨_, getValueOut_of_totalOut_le hvalues hle⟩⟩

/-- A transaction with one output -/
def plainTx : CTransaction where
  vin := [{ prevout := ⟨1, 0⟩ }]
  vout := [{ nValue := COIN }]

theorem checkTransaction_outputsBounded_iff_plainTx :
    plainTx.OutputsBounded ↔ plainTx.totalOut < 2 ^ 64 :=
  checkTransaction_outputsBounded_iff (by decide)

/-- So it is for up to 9223 outputs. -/
theorem totalOut_lt (hvalues : ∀ txout ∈ tx.vout, moneyRange txout.nValue = true)
    (hlen : tx.vout.length ≤ 9223) : tx.totalOut < 2 ^ 64 := by
  have hsum : tx.totalOut ≤ (tx.vout.map CTxOut.nValue).length • MAX_MONEY := by
    apply List.sum_le_card_nsmul
    intro v hv
    obtain ⟨txout, htxout, rfl⟩ := List.mem_map.mp hv
    exact (moneyRange_iff.mp (hvalues txout htxout)).2
  rw [List.length_map, nsmul_eq_mul] at hsum
  simp only [MAX_MONEY, COIN] at hsum
  omega

/-- Outputs of the largest value, one more than 64 bits hold. -/
def wrappedTx : CTransaction where
  vin := [{ prevout := ⟨1, 0⟩ }]
  vout := List.replicate 9224 { nValue := MAX_MONEY }

theorem wrappedTx_totalOut : wrappedTx.totalOut = 9224 * MAX_MONEY := by
  unfold totalOut wrappedTx
  rw [List.map_replicate, List.sum_replicate, nsmul_eq_mul]
  rfl

theorem vectorSerializeSize_replicate {α : Type} (size : α → Nat) (n : Nat) (x : α) :
    vectorSerializeSize size (List.replicate n x) = getSizeOfCompactSize n + n * size x := by
  rw [vectorSerializeSize, List.map_replicate, List.sum_replicate, List.length_replicate,
    nsmul_eq_mul, Nat.cast_id]

theorem wrappedTx_getSerializeSize : wrappedTx.getSerializeSize ≤ MAX_BLOCK_SIZE := by
  have hvout := vectorSerializeSize_replicate CTxOut.getSerializeSize 9224 { nValue := MAX_MONEY }
  rw [getSerializeSize, show wrappedTx.vout = List.replicate 9224 { nValue := MAX_MONEY } from rfl,
    hvout]
  decide

theorem wrappedTx_checkTransaction : wrappedTx.checkTransaction = .ok () := by
  have hvout : ∀ txout ∈ wrappedTx.vout, txout = { nValue := MAX_MONEY } := fun txout htxout =>
    List.eq_of_mem_replicate htxout
  have hloop : wrappedTx.vout.foldlM wrappedTx.checkTxOut 0 = .ok (int64 wrappedTx.totalOut) := by
    rw [foldlM_checkTxOut rfl, zero_add]
    refine ⟨?_, rfl⟩
    intro txout htxout
    rw [hvout txout htxout]
    exact ⟨rfl, by decide⟩
  unfold checkTransaction
  rw [Lib.seq_eq_ok, Lib.seq_eq_ok, Lib.seq_eq_ok, Lib.seq_eq_ok, Lib.seq_eq_ok, Lib.seq_eq_ok,
    hloop, Lib.bind_eq_ok]
  refine ⟨rfl, ?_, rfl, rfl, rfl, ?_, _, rfl, ?_⟩
  · rw [Lib.require_eq_ok, List.all_eq_true]
    intro txout htxout
    rw [hvout txout htxout]
    rfl
  · rw [Lib.require_eq_ok, decide_eq_true_iff]
    exact wrappedTx_getSerializeSize
  · rw [wrappedTx_totalOut]
    rfl

theorem not_outputsBounded_wrappedTx :
    ¬ ∀ tx : CTransaction, tx.checkTransaction = .ok () → tx.OutputsBounded := by
  intro h
  have htotal := (h wrappedTx wrappedTx_checkTransaction).total
  rw [wrappedTx_totalOut] at htotal
  exact absurd htotal (by decide)

end CTransaction

/-! ## The stake reward -/

/-- What `GetProofOfStakeReward` is without a bound on the product. -/
def exactStakeReward (nCoinAgeSeconds : ℤ) : ℤ :=
  CENT * nCoinAgeSeconds * 33 / 60 / 60 / 24 / (365 * 33 + 8)

theorem exactStakeReward_nonneg {a : ℤ} (h : 0 ≤ a) : 0 ≤ exactStakeReward a := by
  unfold exactStakeReward CENT
  omega

theorem exactStakeReward_mono {a b : ℤ} (h : a ≤ b) : exactStakeReward a ≤ exactStakeReward b := by
  unfold exactStakeReward CENT
  omega

/-- The product fits in 64 bits. -/
def RewardFits (nCoinAgeSeconds : ℤ) : Prop := CENT * nCoinAgeSeconds * 33 < 2 ^ 63

/-- The divisions truncate; from zero on they round down. -/
theorem tdivs_of_nonneg {z : ℤ} (h : 0 ≤ z) :
    (((z.tdiv 60).tdiv 60).tdiv 24).tdiv (365 * 33 + 8) = z / 60 / 60 / 24 / (365 * 33 + 8) := by
  rw [Int.tdiv_eq_ediv_of_nonneg h,
    Int.tdiv_eq_ediv_of_nonneg (show 0 ≤ z / 60 by omega),
    Int.tdiv_eq_ediv_of_nonneg (show 0 ≤ z / 60 / 60 by omega),
    Int.tdiv_eq_ediv_of_nonneg (show 0 ≤ z / 60 / 60 / 24 by omega)]

theorem tdivs_nonpos {z : ℤ} (h : z ≤ 0) :
    (((z.tdiv 60).tdiv 60).tdiv 24).tdiv (365 * 33 + 8) ≤ 0 := by
  have hneg := tdivs_of_nonneg (Int.neg_nonneg.mpr h)
  rw [Int.neg_tdiv, Int.neg_tdiv, Int.neg_tdiv, Int.neg_tdiv] at hneg
  omega

theorem getProofOfStakeReward_of_fits {a : ℤ} (hpos : 0 ≤ a) (h : RewardFits a) :
    getProofOfStakeReward a = exactStakeReward a := by
  have h64 : int64 (CENT * a * 33) = CENT * a * 33 := by
    unfold RewardFits CENT at h
    unfold int64 CENT
    apply Int.bmod_eq_of_le <;> omega
  unfold getProofOfStakeReward exactStakeReward
  rw [h64]
  apply tdivs_of_nonneg
  unfold CENT
  omega

/-- A product that does not fit loses more than the divisor. -/
theorem getProofOfStakeReward_lt {a : ℤ} (h : ¬ RewardFits a) :
    getProofOfStakeReward a < exactStakeReward a := by
  unfold RewardFits at h
  unfold getProofOfStakeReward exactStakeReward
  generalize CENT * a * 33 = z at h
  have hcut : int64 z ≤ z - 2 ^ 64 := by
    unfold int64
    rw [Int.bmod_def]
    split <;> omega
  rcases le_total 0 (int64 z) with hpos | hneg
  · rw [tdivs_of_nonneg hpos]
    omega
  · have := tdivs_nonpos hneg
    omega

namespace CTransaction

variable {env : Env} {files : Files} {txdb : TxIndexMap} {tx : CTransaction}

/-- The value of the output that an input spends, as far as it is on disk. -/
def inputValue (files : Files) (txdb : TxIndexMap) (txin : CTxIn) : ℤ :=
  ((readFromDisk files txdb txin.prevout).bind fun prev =>
    prev.1.vout[txin.prevout.n]?.map CTxOut.nValue).getD 0

/-- The cent-seconds so far are within what the values so far can have. -/
theorem addCoinAge_bound {bnCentSecond n total : ℤ} {txin : CTxIn}
    (htime : tx.nTime < 2 ^ 32) (hvalue : 0 ≤ inputValue files txdb txin)
    (h : addCoinAge env files txdb tx bnCentSecond txin = some n)
    (hbound : 0 ≤ bnCentSecond ∧ bnCentSecond * CENT ≤ total * 2 ^ 32) :
    0 ≤ n ∧ n * CENT ≤ (total + inputValue files txdb txin) * 2 ^ 32 := by
  have hsame : 0 ≤ bnCentSecond ∧
      bnCentSecond * CENT ≤ (total + inputValue files txdb txin) * 2 ^ 32 := by
    constructor
    · exact hbound.1
    · linarith [hbound.2]
  unfold addCoinAge at h
  split at h
  · cases h
    exact hsame
  · next txPrev txindex hread =>
    have hval : inputValue files txdb txin
        = (txPrev.vout[txin.prevout.n]?.map CTxOut.nValue).getD 0 := by
      unfold inputValue
      rw [hread]
      rfl
    split at h
    · cases h
    · next horder =>
      split at h
      · cases h
      · split at h
        · cases h
          exact hsame
        · cases h
          rw [← hval]
          have hdiff : 0 ≤ (tx.nTime : ℤ) - txPrev.nTime ∧
              (tx.nTime : ℤ) - txPrev.nTime ≤ 2 ^ 32 := by
            constructor <;> omega
          have hprod : 0 ≤ inputValue files txdb txin * (tx.nTime - txPrev.nTime) :=
            mul_nonneg hvalue hdiff.1
          have hprod' : inputValue files txdb txin * (tx.nTime - txPrev.nTime)
              ≤ inputValue files txdb txin * 2 ^ 32 := mul_le_mul_of_nonneg_left hdiff.2 hvalue
          rw [Int.tdiv_eq_ediv_of_nonneg hprod]
          generalize inputValue files txdb txin * (tx.nTime - txPrev.nTime) = p at hprod hprod'
          unfold CENT at *
          constructor <;> omega

/-- The coin age of inputs within the money supply -/
theorem getCoinAge_bound {a : Nat} (htime : tx.nTime < 2 ^ 32)
    (hrange : ∀ txin ∈ tx.vin, moneyRange (inputValue files txdb txin) = true)
    (htotal : (tx.vin.map (inputValue files txdb)).sum ≤ MAX_MONEY)
    (h : getCoinAge env files txdb tx = some a) : (a : ℤ) < 2 ^ 63 := by
  unfold getCoinAge at h
  split at h
  · cases h
    decide
  · obtain ⟨n, hloop, rfl⟩ := Option.map_eq_some_iff.mp h
    have hinv : ∀ (vin : List CTxIn) (bnCentSecond total : ℤ),
        (∀ txin ∈ vin, moneyRange (inputValue files txdb txin) = true) →
        vin.foldlM (addCoinAge env files txdb tx) bnCentSecond = some n →
        (0 ≤ bnCentSecond ∧ bnCentSecond * CENT ≤ total * 2 ^ 32) →
        0 ≤ n ∧ n * CENT ≤ (total + (vin.map (inputValue files txdb)).sum) * 2 ^ 32 := by
      intro vin
      induction vin with
      | nil =>
          intro bnCentSecond total _ hloop hbound
          cases hloop
          simpa using hbound
      | cons txin vin ih =>
          intro bnCentSecond total hrange hloop hbound
          rw [List.forall_mem_cons] at hrange
          rw [List.foldlM_cons] at hloop
          obtain ⟨n₁, h₁, hloop⟩ := Option.bind_eq_some_iff.mp hloop
          have hstep := addCoinAge_bound htime (moneyRange_iff.mp hrange.1).1 h₁ hbound
          rw [List.map_cons, List.sum_cons, ← add_assoc]
          exact ih n₁ _ hrange.2 hloop hstep
    obtain ⟨hpos, hle⟩ := hinv tx.vin 0 0 hrange hloop ⟨le_rfl, by decide⟩
    rw [zero_add] at hle
    rw [Int.tdiv_eq_ediv_of_nonneg (mul_nonneg hpos (by decide))]
    unfold MAX_MONEY COIN CENT at *
    omega

end CTransaction

/-- The reward of a coin age is exact, not negative, and no smaller than that of any smaller age. -/
structure RewardExact (nCoinAgeSeconds : Nat) : Prop where
  exact : getProofOfStakeReward (int64 nCoinAgeSeconds) = exactStakeReward nCoinAgeSeconds
  nonneg : 0 ≤ getProofOfStakeReward (int64 nCoinAgeSeconds)
  mono : ∀ a ≤ nCoinAgeSeconds,
    getProofOfStakeReward (int64 a) ≤ getProofOfStakeReward (int64 nCoinAgeSeconds)

/-- The reward of a coin age that `GetCoinAge` gives, the inputs being within the money supply. -/
theorem getProofOfStakeReward_exact_iff (env : Env) (files : Files) (txdb : TxIndexMap)
    (tx : CTransaction) (nCoinAgeSeconds : Nat) (htime : tx.nTime < 2 ^ 32)
    (hrange : ∀ txin ∈ tx.vin, moneyRange (CTransaction.inputValue files txdb txin) = true)
    (htotal : (tx.vin.map (CTransaction.inputValue files txdb)).sum ≤ MAX_MONEY)
    (hage : CTransaction.getCoinAge env files txdb tx = some nCoinAgeSeconds) :
    RewardExact nCoinAgeSeconds ↔ CENT * nCoinAgeSeconds * 33 < 2 ^ 63 := by
  have hbound := CTransaction.getCoinAge_bound htime hrange htotal hage
  -- a coin age is its own value in 64 bits
  have h64 : ∀ a : Nat, a ≤ nCoinAgeSeconds → int64 a = a := by
    intro a ha
    unfold int64
    apply Int.bmod_eq_of_le <;> omega
  constructor
  · intro hexact
    by_contra hfits
    have hlt := getProofOfStakeReward_lt hfits
    rw [← hexact.exact, h64 _ le_rfl] at hlt
    exact lt_irrefl _ hlt
  · intro hfits
    have hreward : ∀ a : Nat, a ≤ nCoinAgeSeconds →
        getProofOfStakeReward (int64 a) = exactStakeReward a := by
      intro a ha
      rw [h64 a ha]
      apply getProofOfStakeReward_of_fits (Int.natCast_nonneg a)
      unfold RewardFits CENT
      unfold CENT at hfits
      omega
    constructor
    · exact hreward _ le_rfl
    · rw [hreward _ le_rfl]
      exact exactStakeReward_nonneg (Int.natCast_nonneg _)
    · intro a ha
      rw [hreward a ha, hreward _ le_rfl]
      exact exactStakeReward_mono (Int.ofNat_le.mpr ha)

/-! ### A large coin that is old

`agedTx` stakes a coin of a given value that is 30 million seconds old, not quite a year. -/

def agedCoin (nValue : ℤ) : CTransaction where
  vin := [{ prevout := ⟨9, 0⟩ }]
  vout := [{ nValue := nValue, scriptPubKey := [1] }]

def agedFiles (nValue : ℤ) : Files where
  block nFile nBlockPos :=
    if nFile = 1 ∧ nBlockPos = 0 then some { vtx := [agedCoin nValue] } else none
  tx pos := if pos = ⟨1, 0, 81⟩ then some (agedCoin nValue) else none

def agedIndex : TxIndexMap := Lib.PMap.empty.set 1 (CTxIndex.new ⟨1, 0, 81⟩ 1)

def agedTx : CTransaction where
  nTime := 30000000
  vin := [{ prevout := ⟨1, 0⟩ }]
  vout := [{ nValue := 0 }, { nValue := COIN, scriptPubKey := [1] }]

theorem agedTx_isCoinStake : agedTx.isCoinStake = true := rfl

theorem getProofOfStakeReward_exact_iff_agedTx :
    RewardExact 30000000 ↔ CENT * (30000000 : Nat) * 33 < 2 ^ 63 :=
  getProofOfStakeReward_exact_iff Env.plain (agedFiles COIN) agedIndex agedTx 30000000 (by decide)
    (by decide) (by decide) (by decide)

/-- A million coins -/
theorem not_rewardExact_agedTx :
    ¬ ∀ (env : Env) (files : Files) (txdb : TxIndexMap) (tx : CTransaction) (nCoinAgeSeconds : Nat),
      tx.isCoinStake = true → tx.nTime < 2 ^ 32 →
      (∀ txin ∈ tx.vin, moneyRange (CTransaction.inputValue files txdb txin) = true) →
      (tx.vin.map (CTransaction.inputValue files txdb)).sum ≤ MAX_MONEY →
      CTransaction.getCoinAge env files txdb tx = some nCoinAgeSeconds →
      RewardExact nCoinAgeSeconds := by
  intro h
  have hage := h Env.plain (agedFiles (1000000 * COIN)) agedIndex agedTx 30000000000000
    agedTx_isCoinStake (by decide) (by decide) (by decide) (by decide)
  have hreward := hage.nonneg
  revert hreward
  decide

end ShinyCoin

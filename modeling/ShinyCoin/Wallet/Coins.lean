import ShinyCoin.Wallet.Wallet
import ShinyCoin.Lib.TreeMap
import Mathlib.Data.List.Sort
import Mathlib.Data.List.Perm.Subperm

/-!
# Choosing coins

`SelectCoins` looks for coins worth a target: one coin of exactly the target, all the smaller ones,
the smallest larger one, or the best of a thousand random subsets. `SelectChoices` says how the wallet's
transactions are shuffled first and what a subset takes; sets of coins are ordered by where the
transactions are in memory.

What the wallet can tell about a transaction it has (depth, maturity, whether it is confirmed or its
own) does not change during a call, so it enters as functions.
-/

namespace ShinyCoin

/-- A wallet a payment is made from. -/
structure SpendingWallet (env : Env) where
  mapWallet : Std.ExtTreeMap Uint256 CWalletTx compare
  isMine : CScript → Bool
  haveKey : CBitcoinAddress → Bool
  /-- `scriptPubKey.SetBitcoinAddress(addr)` -/
  setBitcoinAddress : CBitcoinAddress → CScript
  isFinal : CWalletTx → Bool
  isConfirmed : CWalletTx → Bool
  isFromMe : CWalletTx → Bool
  getDepthInMainChain : CWalletTx → ℤ
  getBlocksToMaturity : CWalletTx → ℤ
  nTransactionFee : ℤ
  /-- Where the transaction with a hash is in memory -/
  address : Uint256 → Nat
  keyed : ∀ (hash : Uint256) (wtx : CWalletTx), mapWallet[hash]? = some wtx →
    env.getHash wtx.tx = hash
  nValue_nonneg : ∀ (hash : Uint256) (wtx : CWalletTx), mapWallet[hash]? = some wtx →
    ∀ txout ∈ wtx.tx.vout, 0 ≤ txout.nValue

/-- `!pcoin->IsSpent(i)`, for an output that exists -/
def CWalletTx.isUnspent (wtx : CWalletTx) (nOut : Nat) : Bool :=
  match wtx.isSpent nOut with
  | .ok fSpent => !fSpent
  | .error _ => false

/-- An output of a transaction of the wallet, which is under `hash`. -/
structure Coin where
  hash : Uint256
  wtx : CWalletTx
  n : Nat
  nValue : ℤ
  deriving DecidableEq, Repr

namespace Coin

/-- What an input that spends the coin refers to. -/
def prevout (env : Env) (c : Coin) : COutPoint := ⟨env.getHash c.wtx.tx, c.n⟩

/-- A coin is told by its transaction's place in the wallet and its number. -/
def key (c : Coin) : Uint256 × Nat := (c.hash, c.n)

end Coin

/-- How what is left to chance turns out in one call of `SelectCoinsMinConf`. -/
structure SelectChoices where
  /-- `random_shuffle` -/
  shuffle : List (Uint256 × CWalletTx) → List (Uint256 × CWalletTx)
  shuffle_perm : ∀ l, (shuffle l).Perm l
  /-- `rand() % 2` in a repetition, for a coin -/
  flip : Nat → Nat → Bool

/-! ## The candidates -/

namespace SpendingWallet

variable {env : Env}

/-- The order of `pair<const CWalletTx*, unsigned int>` -/
def pointerLE (w : SpendingWallet env) (a b : Coin) : Prop :=
  w.address a.hash < w.address b.hash ∨ w.address a.hash = w.address b.hash ∧ a.n ≤ b.n

instance (w : SpendingWallet env) : DecidableRel w.pointerLE := fun _ _ =>
  inferInstanceAs (Decidable (_ ∨ _))

/-- The order of the values, and of the pointers for one value -/
def valueLE (w : SpendingWallet env) (a b : Coin) : Prop :=
  a.nValue < b.nValue ∨ a.nValue = b.nValue ∧ w.pointerLE a b

instance (w : SpendingWallet env) : DecidableRel w.valueLE := fun _ _ =>
  inferInstanceAs (Decidable (_ ∨ _))

/-- The outputs of one transaction that can be spent, `nDepth` being enough. -/
def coinsOf (w : SpendingWallet env) (nSpendTime : Nat) (hash : Uint256) (wtx : CWalletTx) :
    List Coin :=
  (List.range wtx.tx.vout.length).filterMap fun i =>
    wtx.tx.vout[i]?.bind fun txout =>
      if wtx.isUnspent i && w.isMine txout.scriptPubKey && decide (wtx.tx.nTime ≤ nSpendTime)
          && decide (0 < txout.nValue) then some ⟨hash, wtx, i, txout.nValue⟩
      else none

/-- What `SelectCoinsMinConf` asks of a transaction. -/
def isSpendable (w : SpendingWallet env) (nConfMine nConfTheirs : ℤ) (wtx : CWalletTx) : Bool :=
  w.isFinal wtx && w.isConfirmed wtx
    && !((wtx.tx.isCoinBase || wtx.tx.isCoinStake) && decide (0 < w.getBlocksToMaturity wtx))
    && decide ((if w.isFromMe wtx then nConfMine else nConfTheirs) ≤ w.getDepthInMainChain wtx)

def availableCoins (w : SpendingWallet env) (ch : SelectChoices) (nSpendTime : Nat)
    (nConfMine nConfTheirs : ℤ) : List Coin :=
  (ch.shuffle w.mapWallet.toList).flatMap fun x =>
    if w.isSpendable nConfMine nConfTheirs x.2 then w.coinsOf nSpendTime x.1 x.2 else []

end SpendingWallet

/-! ## The loop over the candidates -/

/-- `vValue`, `nTotalLower` and `coinLowestLarger` -/
structure CoinScan where
  vValue : List Coin := []
  nTotalLower : ℤ := 0
  coinLowestLarger : Option Coin := none

/-- A larger coin than the target that is smaller than the others so far. -/
def CoinScan.isLower (st : CoinScan) (c : Coin) : Bool :=
  decide (c.nValue < (st.coinLowestLarger.map Coin.nValue).getD (2 ^ 63 - 1))

/-- The loop ends at a coin that is worth exactly the target. -/
def scanCoins (nTargetValue : ℤ) : List Coin → CoinScan → Coin ⊕ CoinScan
  | [], st => .inr st
  | c :: coins, st =>
      if c.nValue = nTargetValue then .inl c
      else if c.nValue < nTargetValue + CENT then
        scanCoins nTargetValue coins
          { st with vValue := st.vValue ++ [c], nTotalLower := st.nTotalLower + c.nValue }
      else if st.isLower c then
        scanCoins nTargetValue coins { st with coinLowestLarger := some c }
      else scanCoins nTargetValue coins st

/-! ## The stochastic approximation -/

/-- The locals of a repetition, and the best subset so far. -/
structure SubsetSearch where
  nTotal : ℤ := 0
  fReachedTarget : Bool := false
  vfIncluded : List Bool
  nBest : ℤ
  vfBest : List Bool

namespace SubsetSearch

/-- Coin `i` of value `v` is included; a subset that reaches the target leaves it out again. -/
def addCoin (nTargetValue : ℤ) (st : SubsetSearch) (i : Nat) (v : ℤ) : SubsetSearch :=
  let nTotal := st.nTotal + v
  let vfIncluded := st.vfIncluded.set i true
  if nTargetValue ≤ nTotal then
    { nTotal := st.nTotal
      fReachedTarget := true
      vfIncluded := vfIncluded.set i false
      nBest := if nTotal < st.nBest then nTotal else st.nBest
      vfBest := if nTotal < st.nBest then vfIncluded else st.vfBest }
  else { st with nTotal := nTotal, vfIncluded := vfIncluded }

/-- One pass over the coins: the first one by chance, the second one over those left out. -/
def pass (nTargetValue : ℤ) (pick : SubsetSearch → Nat → Bool) (coins : List Coin)
    (st : SubsetSearch) : SubsetSearch :=
  coins.zipIdx.foldl
    (fun st x => if pick st x.2 then st.addCoin nTargetValue x.2 x.1.nValue else st) st

/-- One repetition. -/
def repetition (nTargetValue : ℤ) (flip : Nat → Bool) (coins : List Coin) (st : SubsetSearch) :
    SubsetSearch :=
  let st := { st with
    nTotal := 0, fReachedTarget := false, vfIncluded := List.replicate coins.length false }
  let st := st.pass nTargetValue (fun _ i => flip i) coins
  if st.fReachedTarget then st
  else st.pass nTargetValue (fun st i => !st.vfIncluded.getD i false) coins

/-- The repetitions, `left` of them at most, until the best subset is exact. -/
def approximate (nTargetValue : ℤ) (flip : Nat → Nat → Bool) (coins : List Coin) :
    Nat → SubsetSearch → SubsetSearch
  | 0, st => st
  | left + 1, st =>
      if st.nBest = nTargetValue then st
      else approximate nTargetValue flip coins left
        (st.repetition nTargetValue (flip (999 - left)) coins)

end SubsetSearch

/-- The coins whose flag is set. -/
def included : List Bool → List Coin → List Coin
  | true :: vf, c :: coins => c :: included vf coins
  | false :: vf, _ :: coins => included vf coins
  | _, _ => []

/-! ## SelectCoins -/

namespace SpendingWallet

variable {env : Env}

/-- The end of `SelectCoinsMinConf`: the subset that comes closest, or the next larger coin. -/
def bestSubset (w : SpendingWallet env) (ch : SelectChoices) (nTargetValue : ℤ) (st : CoinScan) : List Coin :=
  let nTargetValue := if nTargetValue + CENT ≤ st.nTotalLower then nTargetValue + CENT
    else nTargetValue
  let coins := (st.vValue.insertionSort w.valueLE).reverse
  let best := SubsetSearch.approximate nTargetValue ch.flip coins 1000
    { vfIncluded := [], nBest := st.nTotalLower, vfBest := List.replicate coins.length true }
  match st.coinLowestLarger with
  | some c => if c.nValue - nTargetValue ≤ best.nBest - nTargetValue then [c]
      else included best.vfBest coins
  | none => included best.vfBest coins

/-- `SelectCoinsMinConf`: the coins, as they are inserted. -/
def selectCoinsMinConf (w : SpendingWallet env) (ch : SelectChoices) (nTargetValue : ℤ)
    (nSpendTime : Nat) (nConfMine nConfTheirs : ℤ) : Option (List Coin) :=
  match scanCoins nTargetValue (w.availableCoins ch nSpendTime nConfMine nConfTheirs) {} with
  | .inl c => some [c]
  | .inr st =>
      if st.nTotalLower = nTargetValue ∨ st.nTotalLower = nTargetValue + CENT then some st.vValue
      else if st.nTotalLower < nTargetValue + (if st.coinLowestLarger.isSome then CENT else 0) then
        st.coinLowestLarger.map fun c => [c]
      else some (w.bestSubset ch nTargetValue st)

/-- `SelectCoins`: `setCoinsRet` in its order, with `nValueRet`. -/
def selectCoins (w : SpendingWallet env) (ch : Nat → SelectChoices) (nTargetValue : ℤ)
    (nSpendTime : Nat) : Option (List Coin × ℤ) :=
  ((w.selectCoinsMinConf (ch 0) nTargetValue nSpendTime 1 6).orElse fun _ =>
    (w.selectCoinsMinConf (ch 1) nTargetValue nSpendTime 1 1).orElse fun _ =>
      w.selectCoinsMinConf (ch 2) nTargetValue nSpendTime 0 1).map fun coins =>
    (coins.insertionSort w.pointerLE, (coins.map Coin.nValue).sum)

end SpendingWallet

/-! ## What is selected -/

/-- The coin is an output of the wallet's transaction under its hash. -/
def Coin.In {env : Env} (w : SpendingWallet env) (c : Coin) : Prop :=
  w.mapWallet[c.hash]? = some c.wtx ∧ c.n < c.wtx.tx.vout.length

namespace SpendingWallet

variable {env : Env} {w : SpendingWallet env} {ch : SelectChoices} {nTarget : ℤ} {nSpendTime : Nat}
  {nConfMine nConfTheirs : ℤ} {c : Coin} {coins : List Coin} {st st' : CoinScan}

theorem mem_coinsOf {hash : Uint256} {wtx : CWalletTx} :
    c ∈ w.coinsOf nSpendTime hash wtx → c.hash = hash ∧ c.wtx = wtx ∧ c.n < wtx.tx.vout.length := by
  intro h
  obtain ⟨i, hi, hc⟩ := List.mem_filterMap.mp h
  obtain ⟨txout, -, hc⟩ := Option.bind_eq_some_iff.mp hc
  split at hc
  · cases hc
    exact ⟨rfl, rfl, List.mem_range.mp hi⟩
  · cases hc

theorem nodup_coinsOf (hash : Uint256) (wtx : CWalletTx) :
    ((w.coinsOf nSpendTime hash wtx).map Coin.key).Nodup := by
  unfold coinsOf
  rw [List.map_filterMap]
  refine List.Nodup.filterMap ?_ List.nodup_range
  -- a coin of output `i` has number `i`
  have hnum : ∀ (i : Nat) (k : Uint256 × Nat), k ∈ ((wtx.tx.vout[i]?.bind fun txout =>
      if wtx.isUnspent i && w.isMine txout.scriptPubKey && decide (wtx.tx.nTime ≤ nSpendTime)
          && decide (0 < txout.nValue) then some (⟨hash, wtx, i, txout.nValue⟩ : Coin)
      else none).map Coin.key) → k.2 = i := by
    intro i k hk
    obtain ⟨c, hc, rfl⟩ := Option.map_eq_some_iff.mp hk
    obtain ⟨txout, -, hc⟩ := Option.bind_eq_some_iff.mp hc
    split at hc <;> cases hc
    rfl
  intro i j k hi hj
  exact (hnum i k hi).symm.trans (hnum j k hj)

theorem mem_availableCoins (h : c ∈ w.availableCoins ch nSpendTime nConfMine nConfTheirs) :
    c.In w := by
  obtain ⟨x, hx, hc⟩ := List.mem_flatMap.mp h
  split at hc
  · obtain ⟨hhash, hwtx, hn⟩ := mem_coinsOf hc
    have hin := (ch.shuffle_perm _).mem_iff.mp hx
    rw [Coin.In, hhash, hwtx]
    exact ⟨Std.ExtTreeMap.mem_toList_iff_getElem?_eq_some.mp hin, hn⟩
  · cases hc

/-- No coin is a candidate twice. -/
theorem nodup_availableCoins :
    ((w.availableCoins ch nSpendTime nConfMine nConfTheirs).map Coin.key).Nodup := by
  unfold availableCoins
  rw [List.map_flatMap, List.nodup_flatMap]
  constructor
  · intro x _
    split
    · exact nodup_coinsOf x.1 x.2
    · exact List.nodup_nil
  · have hdistinct : (ch.shuffle w.mapWallet.toList).Pairwise fun x y => x.1 ≠ y.1 := by
      refine (ch.shuffle_perm _).symm.pairwise ?_ fun h => h.symm
      refine Std.ExtTreeMap.distinct_keys_toList.imp ?_
      intro x y hne heq
      exact hne (Std.LawfulEqCmp.compare_eq_iff_eq.mpr heq)
    refine hdistinct.imp ?_
    intro x y hne k hx hy
    -- two transactions have different hashes
    have hhash : ∀ z : Uint256 × CWalletTx, k ∈ (if w.isSpendable nConfMine nConfTheirs z.2 then
        w.coinsOf nSpendTime z.1 z.2 else []).map Coin.key → k.1 = z.1 := by
      intro z hz
      obtain ⟨c, hc, rfl⟩ := List.mem_map.mp hz
      split at hc
      · exact (mem_coinsOf hc).1
      · cases hc
    exact hne ((hhash x hx).symm.trans (hhash y hy))

/-! ### The loop -/

theorem scanCoins_inl (h : scanCoins nTarget coins st = .inl c) : c ∈ coins := by
  induction coins generalizing st with
  | nil => cases h
  | cons d coins ih =>
      unfold scanCoins at h
      split at h
      · cases h
        exact List.mem_cons_self
      · split_ifs at h <;> exact List.mem_cons_of_mem _ (ih h)

theorem scanCoins_inr (h : scanCoins nTarget coins st = .inr st') :
    st'.vValue.Sublist (st.vValue ++ coins) ∧
      (∀ c ∈ st'.coinLowestLarger, c ∈ st.coinLowestLarger ∨ c ∈ coins) ∧
      (st.nTotalLower = (st.vValue.map Coin.nValue).sum →
        st'.nTotalLower = (st'.vValue.map Coin.nValue).sum) := by
  induction coins generalizing st with
  | nil =>
      cases h
      exact ⟨by simp, fun c hc => .inl hc, id⟩
  | cons d coins ih =>
      unfold scanCoins at h
      split at h
      · cases h
      · split_ifs at h with hlow hlarger
        · obtain ⟨hsub, hlowest, hsum⟩ := ih h
          refine ⟨by simpa using hsub, ?_, ?_⟩
          · intro c hc
            exact (hlowest c hc).imp_right (List.mem_cons_of_mem d)
          · intro hst
            apply hsum
            simp [hst]
        · obtain ⟨hsub, hlowest, hsum⟩ := ih h
          refine ⟨hsub.trans ((List.sublist_cons_self d coins).append_left _), ?_, hsum⟩
          intro c hc
          rcases hlowest c hc with hc | hc
          · right
            rw [Option.mem_some] at hc
            rw [hc]
            exact List.mem_cons_self
          · exact .inr (List.mem_cons_of_mem d hc)
        · obtain ⟨hsub, hlowest, hsum⟩ := ih h
          refine ⟨hsub.trans ((List.sublist_cons_self d coins).append_left _), ?_, hsum⟩
          intro c hc
          exact (hlowest c hc).imp_right (List.mem_cons_of_mem d)

/-! ### The best subset -/

theorem included_sublist (vf : List Bool) (coins : List Coin) :
    (included vf coins).Sublist coins := by
  induction vf generalizing coins with
  | nil => simp [included]
  | cons b vf ih =>
      cases coins with
      | nil => cases b <;> simp [included]
      | cons c coins =>
          cases b with
          | true => exact (ih coins).cons_cons c
          | false => exact (ih coins).cons c

/-- A subset of `n` coins that is not empty. -/
def Flagged (n : Nat) (vf : List Bool) : Prop := vf.length = n ∧ true ∈ vf

theorem Flagged.included_ne_nil {vf : List Bool} (h : Flagged coins.length vf) :
    included vf coins ≠ [] := by
  obtain ⟨hlen, hmem⟩ := h
  induction vf generalizing coins with
  | nil => cases hmem
  | cons b vf ih =>
      obtain ⟨c, coins, rfl⟩ := List.exists_cons_of_length_pos (by rw [← hlen]; simp)
      cases b with
      | true => exact List.cons_ne_nil _ _
      | false =>
          apply ih (by simpa using hlen)
          simpa using hmem

/-- What the search keeps: a flag for each coin, and a best subset that is not empty. -/
def SearchInv (n : Nat) (st : SubsetSearch) : Prop :=
  st.vfIncluded.length = n ∧ Flagged n st.vfBest

theorem SearchInv.addCoin {n i : Nat} {s : SubsetSearch} (h : SearchInv n s) (hi : i < n) (v : ℤ) :
    SearchInv n (s.addCoin nTarget i v) := by
  obtain ⟨hlen, hbest⟩ := h
  have hset : Flagged n (s.vfIncluded.set i true) :=
    ⟨by simpa using hlen, List.mem_set (hlen ▸ hi) true⟩
  unfold SubsetSearch.addCoin
  dsimp only
  split
  · refine ⟨by simpa using hlen, ?_⟩
    dsimp only
    split
    · exact hset
    · exact hbest
  · exact ⟨hset.1, hbest⟩

theorem SearchInv.pass {s : SubsetSearch} (h : SearchInv coins.length s)
    (pick : SubsetSearch → Nat → Bool) : SearchInv coins.length (s.pass nTarget pick coins) := by
  unfold SubsetSearch.pass
  apply List.foldlRecOn
  · exact h
  · intro s hs x hx
    split
    · exact hs.addCoin (List.snd_lt_of_mem_zipIdx hx) _
    · exact hs

theorem flagged_repetition {s : SubsetSearch} (h : Flagged coins.length s.vfBest)
    (flip : Nat → Bool) : Flagged coins.length (s.repetition nTarget flip coins).vfBest := by
  have hstart : SearchInv coins.length { s with
      nTotal := 0, fReachedTarget := false, vfIncluded := List.replicate coins.length false } :=
    ⟨List.length_replicate, h⟩
  unfold SubsetSearch.repetition
  dsimp only
  split
  · exact (hstart.pass _).2
  · exact ((hstart.pass _).pass _).2

theorem flagged_approximate {flip : Nat → Nat → Bool} (left : Nat) {s : SubsetSearch}
    (h : Flagged coins.length s.vfBest) :
    Flagged coins.length (SubsetSearch.approximate nTarget flip coins left s).vfBest := by
  induction left generalizing s with
  | zero => exact h
  | succ left ih =>
      unfold SubsetSearch.approximate
      split
      · exact h
      · exact ih (flagged_repetition h _)

/-- The last resort chooses among the coins below the target, or the next larger one. -/
theorem bestSubset_spec (hne : st.vValue ≠ []) :
    w.bestSubset ch nTarget st ≠ [] ∧
      ((w.bestSubset ch nTarget st).Subperm st.vValue ∨
        ∃ c ∈ st.coinLowestLarger, w.bestSubset ch nTarget st = [c]) := by
  have hperm : (st.vValue.insertionSort w.valueLE).reverse.Perm st.vValue :=
    (List.reverse_perm _).trans (List.perm_insertionSort _ _)
  unfold bestSubset
  dsimp only
  generalize (if nTarget + CENT ≤ st.nTotalLower then nTarget + CENT else nTarget) = nTarget'
  generalize hcoins : (st.vValue.insertionSort w.valueLE).reverse = coins at hperm ⊢
  have hflags : Flagged coins.length (SubsetSearch.approximate nTarget' ch.flip coins 1000
      { vfIncluded := [], nBest := st.nTotalLower, vfBest := List.replicate coins.length true }
      ).vfBest := by
    apply flagged_approximate
    refine ⟨List.length_replicate, ?_⟩
    have hlen : coins.length ≠ 0 := by
      rw [hperm.length_eq]
      simpa using hne
    simpa using hlen
  have hsub : ∀ vf, (included vf coins).Subperm st.vValue := fun vf =>
    (included_sublist vf coins).subperm.trans hperm.subperm
  split
  · next c hc =>
    split
    · exact ⟨List.cons_ne_nil _ _, .inr ⟨c, hc, rfl⟩⟩
    · exact ⟨hflags.included_ne_nil, .inl (hsub _)⟩
  · exact ⟨hflags.included_ne_nil, .inl (hsub _)⟩

/-! ### The selection -/

/-- For a positive target something is selected, nothing twice, and candidates only. -/
theorem selectCoinsMinConf_spec (hpos : 0 < nTarget)
    (h : w.selectCoinsMinConf ch nTarget nSpendTime nConfMine nConfTheirs = some coins) :
    coins ≠ [] ∧ coins.Subperm (w.availableCoins ch nSpendTime nConfMine nConfTheirs) := by
  unfold selectCoinsMinConf at h
  split at h
  · next c hc =>
    cases h
    exact ⟨List.cons_ne_nil _ _, List.singleton_subperm_iff.mpr (scanCoins_inl hc)⟩
  · next st hst =>
    obtain ⟨hsub, hlowest, hsum⟩ := scanCoins_inr hst
    have hsum := hsum rfl
    have hvalue : st.vValue.Subperm (w.availableCoins ch nSpendTime nConfMine nConfTheirs) :=
      hsub.subperm
    have hlarger : ∀ c ∈ st.coinLowestLarger,
        [c].Subperm (w.availableCoins ch nSpendTime nConfMine nConfTheirs) := by
      intro c hc
      rcases hlowest c hc with hc | hc
      · cases hc
      · exact List.singleton_subperm_iff.mpr hc
    -- coins that add up to something are some coins
    have hne : 0 < st.nTotalLower → st.vValue ≠ [] := by
      intro hpos hnil
      rw [hsum, hnil] at hpos
      exact absurd hpos (lt_irrefl _)
    have hcent : 0 < CENT := by decide
    have hextra : 0 ≤ if st.coinLowestLarger.isSome then CENT else 0 := by
      split <;> omega
    generalize (if st.coinLowestLarger.isSome then CENT else 0) = extra at h hextra
    split at h
    · next hexact =>
      cases h
      exact ⟨hne (by omega), hvalue⟩
    · split at h
      · obtain ⟨c, hc, rfl⟩ := Option.map_eq_some_iff.mp h
        exact ⟨List.cons_ne_nil _ _, hlarger c hc⟩
      · next hless =>
        cases h
        have hvValue := hne (by omega)
        obtain ⟨hbest, hfrom⟩ : _ ∧ (_ ∨ ∃ c ∈ _, w.bestSubset ch nTarget st = [c]) :=
          bestSubset_spec hvValue
        refine ⟨hbest, ?_⟩
        rcases hfrom with hfrom | ⟨c, hc, heq⟩
        · exact hfrom.trans hvalue
        · rw [heq]
          exact hlarger c hc

/-- What `SelectCoins` finds for a positive target are some of the candidates of one of its tries. -/
theorem exists_of_selectCoins {chs : Nat → SelectChoices} {nValueRet : ℤ} (hpos : 0 < nTarget)
    (h : w.selectCoins chs nTarget nSpendTime = some (coins, nValueRet)) :
    ∃ found ch nConfMine nConfTheirs, 0 ≤ nConfMine ∧ 1 ≤ nConfTheirs ∧
      coins = found.insertionSort w.pointerLE ∧ found ≠ [] ∧
      found.Subperm (w.availableCoins ch nSpendTime nConfMine nConfTheirs) := by
  unfold selectCoins at h
  obtain ⟨found, hfound, heq⟩ := Option.map_eq_some_iff.mp h
  obtain ⟨rfl, -⟩ := Prod.mk.inj heq
  rw [Option.orElse_eq_or, Option.orElse_eq_or] at hfound
  rcases Option.or_eq_some_iff.mp hfound with h₁ | ⟨-, hfound⟩
  · exact ⟨found, _, _, _, by decide, by decide, rfl, selectCoinsMinConf_spec hpos h₁⟩
  · rcases Option.or_eq_some_iff.mp hfound with h₂ | ⟨-, h₃⟩
    · exact ⟨found, _, _, _, by decide, by decide, rfl, selectCoinsMinConf_spec hpos h₂⟩
    · exact ⟨found, _, _, _, by decide, by decide, rfl, selectCoinsMinConf_spec hpos h₃⟩

/-- The inputs that `SelectCoins` finds for a positive target: at least one, each of an output of the
wallet, and none twice. -/
theorem selectCoins_spec {chs : Nat → SelectChoices} {nValueRet : ℤ} (hpos : 0 < nTarget)
    (h : w.selectCoins chs nTarget nSpendTime = some (coins, nValueRet)) :
    coins ≠ [] ∧ (∀ c ∈ coins, c.In w) ∧ (coins.map (Coin.prevout env)).Nodup := by
  obtain ⟨found, ch, nConfMine, nConfTheirs, -, -, rfl, hne, hsub⟩ := exists_of_selectCoins hpos h
  have hperm := List.perm_insertionSort w.pointerLE found
  have hin : ∀ c ∈ found, c.In w := fun c hc => mem_availableCoins (hsub.subset hc)
  refine ⟨?_, fun c hc => hin c (hperm.mem_iff.mp hc), ?_⟩
  · intro hnil
    rw [hnil] at hperm
    exact hne hperm.nil_eq.symm
  · rw [(hperm.map _).nodup_iff]
    have hkeys : (found.map Coin.key).Nodup := by
      obtain ⟨l, hl, hlsub⟩ := hsub
      rw [← (hl.map Coin.key).nodup_iff]
      exact nodup_availableCoins.sublist (hlsub.map Coin.key)
    -- the transaction under a hash has that hash
    have hprevout : found.map (Coin.prevout env) = (found.map Coin.key).map fun k => ⟨k.1, k.2⟩ := by
      rw [List.map_map]
      apply List.map_congr_left
      intro c hc
      show (⟨env.getHash c.wtx.tx, c.n⟩ : COutPoint) = ⟨c.hash, c.n⟩
      rw [w.keyed _ _ (hin c hc).1]
    rw [hprevout]
    apply hkeys.map
    intro k k' heq
    exact Prod.ext (congrArg COutPoint.hash heq) (congrArg COutPoint.n heq)

end SpendingWallet

end ShinyCoin

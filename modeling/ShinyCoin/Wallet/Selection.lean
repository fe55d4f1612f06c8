import ShinyCoin.Wallet.Coins
import Mathlib.Algebra.BigOperators.Group.Finset.Basic

/-!
# What is selected

However the transactions are shuffled and whatever the repetitions take, `SelectCoinsMinConf` finds
coins if the eligible ones are worth the target together, and what it finds is worth the target. The
best subset so far always adds up to `nBest`, and `nBest` is never below the target.

A coin of the largest 64-bit value is never the next larger one: `coinLowestLarger` starts with that
value.
-/

namespace ShinyCoin

/-- `setCoinsRet` and `nValueRet`, as the coins are inserted and added -/
def coinsRet (coins : List Coin) : Finset Coin × ℤ :=
  coins.foldl (fun r c => (insert c r.1, r.2 + c.nValue)) (∅, 0)

/-- The coins' values, added up -/
def totalOf (coins : List Coin) : ℤ := (coins.map Coin.nValue).sum

section

variable {c : Coin} {coins coins' : List Coin}

@[simp] theorem totalOf_nil : totalOf [] = 0 := rfl

@[simp] theorem totalOf_cons : totalOf (c :: coins) = c.nValue + totalOf coins := rfl

@[simp] theorem totalOf_append : totalOf (coins ++ coins') = totalOf coins + totalOf coins' := by
  simp [totalOf]

theorem totalOf_perm (h : coins.Perm coins') : totalOf coins = totalOf coins' :=
  (h.map Coin.nValue).sum_eq

theorem totalOf_nonneg (h : ∀ c ∈ coins, 0 ≤ c.nValue) : 0 ≤ totalOf coins := by
  apply List.sum_nonneg
  intro v hv
  obtain ⟨c, hc, rfl⟩ := List.mem_map.mp hv
  exact h c hc

theorem totalOf_le_of_subperm (h : coins.Subperm coins') (hpos : ∀ c ∈ coins', 0 ≤ c.nValue) :
    totalOf coins ≤ totalOf coins' := by
  obtain ⟨l, hl, hsub⟩ := h
  obtain ⟨rest, hperm⟩ := hsub.exists_perm_append
  have hrest : 0 ≤ totalOf rest := by
    apply totalOf_nonneg
    intro c hc
    exact hpos c (hperm.mem_iff.mpr (List.mem_append_right _ hc))
  rw [← totalOf_perm hl, totalOf_perm hperm, totalOf_append]
  omega

theorem coinsRet_spec (hnodup : coins.Nodup) :
    (coinsRet coins).1 = coins.toFinset ∧ (coinsRet coins).2 = totalOf coins ∧
      ∑ c ∈ (coinsRet coins).1, c.nValue = (coinsRet coins).2 := by
  have hfold : ∀ (l : List Coin) (r : Finset Coin × ℤ),
      l.foldl (fun r c => (insert c r.1, r.2 + c.nValue)) r
        = (l.toFinset ∪ r.1, r.2 + totalOf l) := by
    intro l
    induction l with
    | nil => simp
    | cons c l ih =>
        intro r
        rw [List.foldl_cons, ih]
        apply Prod.ext
        · ext x
          simp only [List.toFinset_cons, Finset.mem_union, Finset.mem_insert]
          tauto
        · simp [add_assoc]
  have hret : coinsRet coins = (coins.toFinset, totalOf coins) := by
    simpa [coinsRet] using hfold coins (∅, 0)
  rw [hret]
  refine ⟨rfl, rfl, ?_⟩
  exact List.sum_toFinset Coin.nValue hnodup

end

/-! ## The eligible coins -/

namespace SpendingWallet

variable {env : Env} {w : SpendingWallet env} {ch : SelectChoices} {nTarget : ℤ} {nSpendTime : Nat}
  {nConfMine nConfTheirs : ℤ} {c : Coin} {coins : List Coin} {st st' : CoinScan}

/-- An output that a selection may spend. -/
structure Eligible (w : SpendingWallet env) (nSpendTime : Nat) (nConfMine nConfTheirs : ℤ)
    (c : Coin) : Prop where
  inWallet : w.mapWallet[c.hash]? = some c.wtx
  final : w.isFinal c.wtx = true
  confirmed : w.isConfirmed c.wtx = true
  mature : c.wtx.tx.isCoinBase = true ∨ c.wtx.tx.isCoinStake = true →
    w.getBlocksToMaturity c.wtx ≤ 0
  deep : (if w.isFromMe c.wtx then nConfMine else nConfTheirs) ≤ w.getDepthInMainChain c.wtx
  output : ∃ txout, c.wtx.tx.vout[c.n]? = some txout ∧ c.nValue = txout.nValue ∧
    w.isMine txout.scriptPubKey = true
  unspent : c.wtx.isUnspent c.n = true
  notNewer : c.wtx.tx.nTime ≤ nSpendTime
  positive : 0 < c.nValue

/-- The candidates in the order of `mapWallet` -/
def eligibleCoins (w : SpendingWallet env) (nSpendTime : Nat) (nConfMine nConfTheirs : ℤ) :
    List Coin :=
  w.mapWallet.toList.flatMap fun x =>
    if w.isSpendable nConfMine nConfTheirs x.2 then w.coinsOf nSpendTime x.1 x.2 else []

def eligible (w : SpendingWallet env) (nSpendTime : Nat) (nConfMine nConfTheirs : ℤ) :
    Finset Coin :=
  (w.eligibleCoins nSpendTime nConfMine nConfTheirs).toFinset

/-- What the eligible coins are worth together -/
def eligibleTotal (w : SpendingWallet env) (nSpendTime : Nat) (nConfMine nConfTheirs : ℤ) : ℤ :=
  ∑ c ∈ w.eligible nSpendTime nConfMine nConfTheirs, c.nValue

theorem isSpendable_iff {wtx : CWalletTx} : w.isSpendable nConfMine nConfTheirs wtx = true ↔
    w.isFinal wtx = true ∧ w.isConfirmed wtx = true ∧
      (wtx.tx.isCoinBase = true ∨ wtx.tx.isCoinStake = true → w.getBlocksToMaturity wtx ≤ 0) ∧
      (if w.isFromMe wtx then nConfMine else nConfTheirs) ≤ w.getDepthInMainChain wtx := by
  simp only [isSpendable, Bool.and_eq_true, Bool.not_eq_true', Bool.and_eq_false_iff,
    Bool.or_eq_false_iff, decide_eq_true_iff, decide_eq_false_iff_not, not_lt, and_assoc]
  grind

theorem mem_coinsOf_iff {hash : Uint256} {wtx : CWalletTx} :
    c ∈ w.coinsOf nSpendTime hash wtx ↔ c.hash = hash ∧ c.wtx = wtx ∧
      (∃ txout, wtx.tx.vout[c.n]? = some txout ∧ c.nValue = txout.nValue ∧
        w.isMine txout.scriptPubKey = true) ∧
      wtx.isUnspent c.n = true ∧ wtx.tx.nTime ≤ nSpendTime ∧ 0 < c.nValue := by
  unfold coinsOf
  rw [List.mem_filterMap]
  constructor
  · rintro ⟨i, -, hc⟩
    obtain ⟨txout, hout, hc⟩ := Option.bind_eq_some_iff.mp hc
    split at hc
    · next hok =>
      cases hc
      simp only [Bool.and_eq_true, decide_eq_true_iff] at hok
      obtain ⟨⟨⟨hunspent, hmine⟩, htime⟩, hpos⟩ := hok
      exact ⟨rfl, rfl, ⟨txout, hout, rfl, hmine⟩, hunspent, htime, hpos⟩
    · cases hc
  · rintro ⟨rfl, rfl, ⟨txout, hout, hvalue, hmine⟩, hunspent, htime, hpos⟩
    refine ⟨c.n, List.mem_range.mpr (List.getElem?_eq_some_iff.mp hout).1, ?_⟩
    rw [hout, Option.bind_some, if_pos]
    · rw [← hvalue]
    · rw [← hvalue]
      simp [hunspent, hmine, htime, hpos]

theorem mem_eligibleCoins :
    c ∈ w.eligibleCoins nSpendTime nConfMine nConfTheirs ↔
      w.Eligible nSpendTime nConfMine nConfTheirs c := by
  unfold eligibleCoins
  rw [List.mem_flatMap]
  constructor
  · rintro ⟨x, hx, hc⟩
    split at hc
    · next hspendable =>
      obtain ⟨hhash, hwtx, hout, hunspent, htime, hpos⟩ := mem_coinsOf_iff.mp hc
      obtain ⟨hfinal, hconfirmed, hmature, hdeep⟩ := isSpendable_iff.mp hspendable
      have hin := Std.ExtTreeMap.mem_toList_iff_getElem?_eq_some.mp hx
      rw [← hhash, ← hwtx] at hin
      rw [← hwtx] at hfinal hconfirmed hmature hdeep hout hunspent htime
      exact ⟨hin, hfinal, hconfirmed, hmature, hdeep, hout, hunspent, htime, hpos⟩
    · cases hc
  · intro h
    refine ⟨(c.hash, c.wtx), Std.ExtTreeMap.mem_toList_iff_getElem?_eq_some.mpr h.inWallet, ?_⟩
    rw [if_pos (isSpendable_iff.mpr ⟨h.final, h.confirmed, h.mature, h.deep⟩)]
    exact mem_coinsOf_iff.mpr ⟨rfl, rfl, h.output, h.unspent, h.notNewer, h.positive⟩

theorem mem_eligible :
    c ∈ w.eligible nSpendTime nConfMine nConfTheirs ↔
      w.Eligible nSpendTime nConfMine nConfTheirs c := by
  unfold eligible
  rw [List.mem_toFinset, mem_eligibleCoins]

/-- Shuffling changes nothing but the order. -/
theorem availableCoins_perm :
    (w.availableCoins ch nSpendTime nConfMine nConfTheirs).Perm
      (w.eligibleCoins nSpendTime nConfMine nConfTheirs) := by
  unfold availableCoins eligibleCoins
  exact (ch.shuffle_perm _).flatMap_right _

theorem mem_availableCoins_iff :
    c ∈ w.availableCoins ch nSpendTime nConfMine nConfTheirs ↔
      w.Eligible nSpendTime nConfMine nConfTheirs c := by
  rw [availableCoins_perm.mem_iff, mem_eligibleCoins]

theorem totalOf_availableCoins :
    totalOf (w.availableCoins ch nSpendTime nConfMine nConfTheirs)
      = w.eligibleTotal nSpendTime nConfMine nConfTheirs := by
  have hperm : (w.availableCoins ch nSpendTime nConfMine nConfTheirs).Perm
      (w.eligibleCoins nSpendTime nConfMine nConfTheirs) := availableCoins_perm
  have hnodup : (w.eligibleCoins nSpendTime nConfMine nConfTheirs).Nodup :=
    hperm.nodup_iff.mp (nodup_availableCoins.of_map Coin.key)
  rw [totalOf_perm hperm]
  unfold eligibleTotal eligible
  exact (List.sum_toFinset Coin.nValue hnodup).symm

/-! ## The loop over the candidates -/

/-- What the loop has when it comes to its end: the lower coins in `vValue`, added up, and one of the
larger coins if there are any. -/
structure ScanInv (nTarget : ℤ) (st : CoinScan) : Prop where
  nTotalLower : st.nTotalLower = totalOf st.vValue
  larger : ∀ c ∈ st.coinLowestLarger, nTarget + CENT ≤ c.nValue

theorem scanCoins_inv (hst : ScanInv nTarget st) (h : scanCoins nTarget coins st = .inr st') :
    ScanInv nTarget st' := by
  induction coins generalizing st with
  | nil =>
      cases h
      exact hst
  | cons d coins ih =>
      unfold scanCoins at h
      split at h
      · cases h
      · split_ifs at h with hlow hlower
        · apply ih _ h
          constructor
          · simp [hst.nTotalLower]
          · exact hst.larger
        · apply ih _ h
          constructor
          · exact hst.nTotalLower
          · intro c hc
            cases hc
            exact not_lt.mp hlow
        · exact ih hst h

/-- Where none is larger, all of them are lower. -/
theorem scanCoins_all {seen : List Coin} (hmax : ∀ c ∈ coins, c.nValue < 2 ^ 63 - 1)
    (hst : st.coinLowestLarger = none → st.vValue = seen)
    (h : scanCoins nTarget coins st = .inr st') :
    st'.coinLowestLarger = none → st'.vValue = seen ++ coins := by
  induction coins generalizing seen st with
  | nil =>
      cases h
      rw [List.append_nil]
      exact hst
  | cons d coins ih =>
      rw [List.forall_mem_cons] at hmax
      have hassoc : seen ++ d :: coins = (seen ++ [d]) ++ coins := by simp
      rw [hassoc]
      unfold scanCoins at h
      split at h
      · cases h
      · split_ifs at h with hlow hlower
        · apply ih hmax.2 _ h
          intro hnone
          rw [hst hnone]
        · apply ih hmax.2 _ h
          intro hnone
          cases hnone
        · apply ih hmax.2 _ h
          -- a larger coin that is not lower comes after one
          intro hnone
          rw [CoinScan.isLower, hnone] at hlower
          simp only [Option.map_none, Option.getD_none, decide_eq_true_iff] at hlower
          exact absurd hmax.1 hlower

theorem scanCoins_inl_value (h : scanCoins nTarget coins st = .inl c) : c.nValue = nTarget := by
  induction coins generalizing st with
  | nil => cases h
  | cons d coins ih =>
      unfold scanCoins at h
      split at h
      · next heq =>
        cases h
        exact heq
      · split_ifs at h <;> exact ih h

/-! ## The best subset -/

theorem included_replicate (coins : List Coin) :
    included (List.replicate coins.length true) coins = coins := by
  induction coins with
  | nil => rfl
  | cons c coins ih =>
      rw [List.length_cons, List.replicate_succ, included, ih]

theorem totalOf_included_none (n : Nat) (coins : List Coin) :
    totalOf (included (List.replicate n false) coins) = 0 := by
  induction n generalizing coins with
  | zero => simp [included]
  | succ n ih =>
      cases coins with
      | nil => simp [List.replicate_succ, included]
      | cons c coins =>
          rw [List.replicate_succ, included]
          exact ih coins

/-- A coin that is included adds its value. -/
theorem totalOf_included_set {vf : List Bool} {i : Nat} (hc : coins[i]? = some c)
    (hi : vf[i]? = some false) :
    totalOf (included (vf.set i true) coins) = totalOf (included vf coins) + c.nValue := by
  induction vf generalizing coins i with
  | nil => cases hi
  | cons b vf ih =>
      cases coins with
      | nil => cases hc
      | cons d coins =>
          cases i with
          | zero =>
              cases hc
              cases hi
              rw [List.set_cons_zero, included, included, totalOf_cons, add_comm]
          | succ i =>
              rw [List.getElem?_cons_succ] at hc hi
              have hrest := ih hc hi
              rw [List.set_cons_succ]
              cases b with
              | true =>
                  rw [included, included, totalOf_cons, totalOf_cons, hrest]
                  ring
              | false =>
                  rw [included, included, hrest]

/-- What the repetitions keep: `nTotal` and `nBest` are the values of the subsets, and the best
subset reaches the target. -/
structure SearchSums (nTarget : ℤ) (coins : List Coin) (s : SubsetSearch) : Prop where
  length : s.vfIncluded.length = coins.length
  nTotal : s.nTotal = totalOf (included s.vfIncluded coins)
  nBest : s.nBest = totalOf (included s.vfBest coins)
  reached : nTarget ≤ s.nBest

theorem SearchSums.addCoin {s : SubsetSearch} {i : Nat} (h : SearchSums nTarget coins s)
    (hc : coins[i]? = some c) (hi : s.vfIncluded[i]? = some false) :
    SearchSums nTarget coins (s.addCoin nTarget i c.nValue) := by
  have hset := totalOf_included_set hc hi
  rw [← h.nTotal] at hset
  unfold SubsetSearch.addCoin
  dsimp only
  split
  · next hreached =>
    -- the coin is taken out again
    have hback : (s.vfIncluded.set i true).set i false = s.vfIncluded := by
      obtain ⟨hlt, hflag⟩ := List.getElem?_eq_some_iff.mp hi
      rw [List.set_set, ← hflag]
      exact List.set_getElem_self hlt
    constructor
    · dsimp only
      rw [hback]
      exact h.length
    · dsimp only
      rw [hback]
      exact h.nTotal
    · dsimp only
      split
      · exact hset.symm
      · exact h.nBest
    · dsimp only
      split
      · exact hreached
      · exact h.reached
  · refine ⟨?_, hset.symm, h.nBest, h.reached⟩
    dsimp only
    rw [List.length_set]
    exact h.length

/-- A pass takes only coins that are not included yet. `F i s` is what is known before coin `i`. -/
theorem SearchSums.pass {s : SubsetSearch} (pick : SubsetSearch → Nat → Bool)
    (F : Nat → SubsetSearch → Prop)
    (hflag : ∀ i s, F i s → i < s.vfIncluded.length → pick s i = true →
      s.vfIncluded[i]? = some false)
    (hskip : ∀ i s, F i s → F (i + 1) s)
    (hadd : ∀ i s v, F i s → F (i + 1) (s.addCoin nTarget i v))
    (h : SearchSums nTarget coins s) (hF : F 0 s) :
    SearchSums nTarget coins (s.pass nTarget pick coins) := by
  have hloop : ∀ (rest done : List Coin) (s : SubsetSearch), coins = done ++ rest →
      SearchSums nTarget coins s → F done.length s →
      SearchSums nTarget coins ((rest.zipIdx done.length).foldl
        (fun st x => if pick st x.2 then st.addCoin nTarget x.2 x.1.nValue else st) s) := by
    intro rest
    induction rest with
    | nil => exact fun _ _ _ h _ => h
    | cons c rest ih =>
        intro done s hcoins h hF
        have hc : coins[done.length]? = some c := by
          rw [hcoins]
          simp
        have hlt : done.length < s.vfIncluded.length := by
          rw [h.length]
          exact (List.getElem?_eq_some_iff.mp hc).1
        have hcoins' : coins = (done ++ [c]) ++ rest := by
          rw [hcoins]
          simp
        have hlen : (done ++ [c]).length = done.length + 1 := by simp
        rw [List.zipIdx_cons, List.foldl_cons, ← hlen]
        apply ih (done ++ [c]) _ hcoins'
        · split
          · next hpick => exact h.addCoin hc (hflag _ _ hF hlt hpick)
          · exact h
        · rw [hlen]
          split
          · exact hadd _ _ _ hF
          · exact hskip _ _ hF
  exact hloop coins [] s rfl h hF

/-- No coin from number `i` on is included. -/
def FreshFrom (i : Nat) (s : SubsetSearch) : Prop :=
  ∀ j, i ≤ j → j < s.vfIncluded.length → s.vfIncluded[j]? = some false

theorem FreshFrom.addCoin {i : Nat} {s : SubsetSearch} (h : FreshFrom i s) (v : ℤ) :
    FreshFrom (i + 1) (s.addCoin nTarget i v) := by
  have hset : ∀ b : Bool, ∀ j, i + 1 ≤ j → j < (s.vfIncluded.set i b).length →
      (s.vfIncluded.set i b)[j]? = some false := by
    intro b j hj hlt
    rw [List.length_set] at hlt
    rw [List.getElem?_set_ne (by omega)]
    exact h j (by omega) hlt
  unfold SubsetSearch.addCoin
  dsimp only
  split
  · intro j hj hlt
    dsimp only at hlt ⊢
    rw [List.set_set] at hlt ⊢
    exact hset false j hj hlt
  · exact hset true

theorem SearchSums.repetition {s : SubsetSearch}
    (hbest : s.nBest = totalOf (included s.vfBest coins)) (hreached : nTarget ≤ s.nBest) (flip : Nat → Bool) :
    SearchSums nTarget coins (s.repetition nTarget flip coins) := by
  have hstart : SearchSums nTarget coins { s with
      nTotal := 0, fReachedTarget := false, vfIncluded := List.replicate coins.length false } :=
    ⟨List.length_replicate, (totalOf_included_none _ _).symm, hbest, hreached⟩
  have hfirst := hstart.pass (fun _ i => flip i) FreshFrom
    (fun i s hF hlt _ => hF i le_rfl hlt)
    (fun i s hF j hj hlt => hF j (by omega) hlt)
    (fun i s v hF => hF.addCoin v)
    (fun j _ hlt => by
      rw [List.getElem?_replicate_of_lt (by simpa using hlt)])
  unfold SubsetSearch.repetition
  dsimp only
  split
  · exact hfirst
  · -- the second pass looks at the flag itself
    apply hfirst.pass _ fun _ _ => True
    · intro i s _ hlt hpick
      rw [List.getElem?_eq_getElem hlt]
      rw [List.getD_eq_getElem?_getD, List.getElem?_eq_getElem hlt] at hpick
      simpa using hpick
    · exact fun _ _ _ => trivial
    · exact fun _ _ _ _ => trivial
    · trivial

theorem approximate_sums (flip : Nat → Nat → Bool) (left : Nat) (s : SubsetSearch)
    (hbest : s.nBest = totalOf (included s.vfBest coins)) (hreached : nTarget ≤ s.nBest) :
    let best := SubsetSearch.approximate nTarget flip coins left s
    best.nBest = totalOf (included best.vfBest coins) ∧ nTarget ≤ best.nBest := by
  induction left generalizing s with
  | zero => exact ⟨hbest, hreached⟩
  | succ left ih =>
      unfold SubsetSearch.approximate
      split
      · exact ⟨hbest, hreached⟩
      · have hrep := SearchSums.repetition hbest hreached (flip (999 - left))
        exact ih _ hrep.nBest hrep.reached

/-- The last resort is worth the target. -/
theorem bestSubset_reached (hst : ScanInv nTarget st)
    (hlower : nTarget ≤ st.nTotalLower) : nTarget ≤ totalOf (w.bestSubset ch nTarget st) := by
  have hcent : 0 < CENT := by decide
  have hperm : (st.vValue.insertionSort w.valueLE).reverse.Perm st.vValue :=
    (List.reverse_perm _).trans (List.perm_insertionSort _ _)
  unfold bestSubset
  dsimp only
  have htarget : nTarget ≤ (if nTarget + CENT ≤ st.nTotalLower then nTarget + CENT else nTarget) ∧
      (if nTarget + CENT ≤ st.nTotalLower then nTarget + CENT else nTarget) ≤ st.nTotalLower := by
    split <;> constructor <;> omega
  generalize (if nTarget + CENT ≤ st.nTotalLower then nTarget + CENT else nTarget) = nTarget'
    at htarget
  generalize hcoins : (st.vValue.insertionSort w.valueLE).reverse = coins at hperm ⊢
  have hall : st.nTotalLower = totalOf (included (List.replicate coins.length true) coins) := by
    rw [included_replicate, totalOf_perm hperm, hst.nTotalLower]
  obtain ⟨hsum, hreached⟩ := approximate_sums ch.flip 1000
    { vfIncluded := [], nBest := st.nTotalLower, vfBest := List.replicate coins.length true }
    hall htarget.2
  have hbest := htarget.1.trans (hreached.trans hsum.le)
  split
  · next c hc =>
    split
    · have hlarger := hst.larger c hc
      rw [totalOf_cons, totalOf_nil]
      omega
    · exact hbest
  · exact hbest

/-! ## The selection -/

/-- What `SelectCoinsMinConf` finds is worth the target. -/
theorem selectCoinsMinConf_reached
    (h : w.selectCoinsMinConf ch nTarget nSpendTime nConfMine nConfTheirs = some coins) :
    nTarget ≤ totalOf coins := by
  have hcent : 0 < CENT := by decide
  unfold selectCoinsMinConf at h
  split at h
  · next c hscan =>
    cases h
    simp [scanCoins_inl_value hscan]
  · next st hscan =>
    have hst : ScanInv nTarget st := scanCoins_inv ⟨rfl, by simp⟩ hscan
    split at h
    · next hexact =>
      cases h
      rw [← hst.nTotalLower]
      omega
    · have hextra : 0 ≤ if st.coinLowestLarger.isSome then CENT else 0 := by
        split <;> omega
      generalize (if st.coinLowestLarger.isSome then CENT else 0) = extra at h hextra
      split at h
      · obtain ⟨c, hc, rfl⟩ := Option.map_eq_some_iff.mp h
        have hvalue := hst.larger c hc
        rw [totalOf_cons, totalOf_nil]
        omega
      · cases h
        exact bestSubset_reached hst (by omega)

/-- Where it finds nothing, the candidates are not worth the target. -/
theorem selectCoinsMinConf_none
    (hmax : ∀ c ∈ w.availableCoins ch nSpendTime nConfMine nConfTheirs, c.nValue < 2 ^ 63 - 1)
    (h : w.selectCoinsMinConf ch nTarget nSpendTime nConfMine nConfTheirs = none) :
    totalOf (w.availableCoins ch nSpendTime nConfMine nConfTheirs) < nTarget := by
  unfold selectCoinsMinConf at h
  split at h
  · cases h
  · next st hscan =>
    have hst : ScanInv nTarget st := scanCoins_inv ⟨rfl, by simp⟩ hscan
    have hall := scanCoins_all hmax (fun _ => rfl) hscan
    split at h
    · cases h
    · by_cases hless : st.nTotalLower < nTarget + (if st.coinLowestLarger.isSome then CENT else 0)
      · rw [if_pos hless] at h
        have hlarger := Option.map_eq_none_iff.mp h
        rw [hlarger, Option.isSome_none, if_neg Bool.false_ne_true, add_zero] at hless
        rw [← List.nil_append (w.availableCoins ch nSpendTime nConfMine nConfTheirs),
          ← hall hlarger, ← hst.nTotalLower]
        exact hless
      · rw [if_neg hless] at h
        cases h

/-- Whatever is left to chance, coins are found if the eligible outputs are worth the target, and
they are eligible, none counted twice, and worth it. -/
theorem selectCoinsMinConf_sound_complete {env : Env} (w : SpendingWallet env) (ch : SelectChoices)
    (nTargetValue : ℤ) (nSpendTime : Nat) (nConfMine nConfTheirs : ℤ)
    (hpos : 0 < nTargetValue)
    (htotal : w.eligibleTotal nSpendTime nConfMine nConfTheirs < 2 ^ 63 - 1) :
    ((w.selectCoinsMinConf ch nTargetValue nSpendTime nConfMine nConfTheirs).isSome = true ↔
        nTargetValue ≤ w.eligibleTotal nSpendTime nConfMine nConfTheirs) ∧
      ∀ coins, w.selectCoinsMinConf ch nTargetValue nSpendTime nConfMine nConfTheirs = some coins →
        (∀ c ∈ (coinsRet coins).1, w.Eligible nSpendTime nConfMine nConfTheirs c) ∧
          ∑ c ∈ (coinsRet coins).1, c.nValue = (coinsRet coins).2 ∧
          nTargetValue ≤ (coinsRet coins).2 := by
  have havail : ∀ c ∈ w.availableCoins ch nSpendTime nConfMine nConfTheirs, 0 ≤ c.nValue :=
    fun c hc => (mem_availableCoins_iff.mp hc).positive.le
  have hmax : ∀ c ∈ w.availableCoins ch nSpendTime nConfMine nConfTheirs,
      c.nValue < 2 ^ 63 - 1 := by
    intro c hc
    have hle := totalOf_le_of_subperm (List.singleton_subperm_iff.mpr hc) havail
    rw [totalOf_cons, totalOf_nil, totalOf_availableCoins] at hle
    omega
  constructor
  · cases h : w.selectCoinsMinConf ch nTargetValue nSpendTime nConfMine nConfTheirs with
    | none =>
        have hless := selectCoinsMinConf_none hmax h
        rw [totalOf_availableCoins] at hless
        simpa using hless
    | some coins =>
        have hreached := selectCoinsMinConf_reached h
        have hsub := (selectCoinsMinConf_spec hpos h).2
        have hle := totalOf_le_of_subperm hsub havail
        rw [totalOf_availableCoins] at hle
        exact ⟨fun _ => hreached.trans hle, fun _ => rfl⟩
  · intro coins h
    have hreached := selectCoinsMinConf_reached h
    have hsub := (selectCoinsMinConf_spec hpos h).2
    have hnodup : coins.Nodup := by
      obtain ⟨l, hl, hlsub⟩ := hsub
      rw [← hl.nodup_iff]
      exact (nodup_availableCoins.of_map Coin.key).sublist hlsub
    obtain ⟨hset, htotal, hsum⟩ := coinsRet_spec hnodup
    refine ⟨?_, hsum, ?_⟩
    · intro c hc
      rw [hset, List.mem_toFinset] at hc
      exact mem_availableCoins_iff.mp (hsub.subset hc)
    · rw [htotal]
      exact hreached

end SpendingWallet

/-! ### A wallet of one coin -/

def oneCoinTx (nValue : ℕ) : CTransaction := { vin := [], vout := [{ nValue := nValue }] }

def oneCoinWallet (nValue : ℕ) : SpendingWallet Env.plain where
  mapWallet := (∅ : Std.ExtTreeMap Uint256 CWalletTx compare).insert 1 { tx := oneCoinTx nValue }
  isMine _ := true
  haveKey _ := true
  setBitcoinAddress addr := addr.vchData
  isFinal _ := true
  isConfirmed _ := true
  isFromMe _ := false
  getDepthInMainChain _ := 6
  getBlocksToMaturity _ := 0
  nTransactionFee := CENT
  address hash := hash
  keyed := by
    intro hash wtx h
    rw [Lib.getElem?_insert, Std.ExtTreeMap.getElem?_empty] at h
    split_ifs at h
    cases h
    subst hash
    rfl
  nValue_nonneg := by
    intro hash wtx h txout htxout
    rw [Lib.getElem?_insert, Std.ExtTreeMap.getElem?_empty] at h
    split_ifs at h
    cases h
    rw [List.mem_singleton.mp htxout]
    exact Int.natCast_nonneg nValue

def unshuffled : SelectChoices where
  shuffle := id
  shuffle_perm coins := List.Perm.refl coins
  flip _ _ := false

/-- Its hash is `nTime + 1`. -/
def pocketTx (nTime : Nat) (values : List ℕ) : CTransaction where
  nTime := nTime
  vin := []
  vout := values.map fun v : ℕ => { nValue := v }

/-- Coins of 2, 7 and 30 cents in one transaction, of 3 and 5 in another -/
def pocketWallet : SpendingWallet Env.plain :=
  { oneCoinWallet 0 with
    mapWallet := ((∅ : Std.ExtTreeMap Uint256 CWalletTx compare).insert 1
      { tx := pocketTx 0 [20000, 70000, 300000] }).insert 2 { tx := pocketTx 1 [30000, 50000] }
    keyed := by
      intro hash wtx h
      rw [Lib.getElem?_insert, Lib.getElem?_insert, Std.ExtTreeMap.getElem?_empty] at h
      split_ifs at h <;> cases h <;> subst hash <;> rfl
    nValue_nonneg := by
      intro hash wtx h txout htxout
      rw [Lib.getElem?_insert, Lib.getElem?_insert, Std.ExtTreeMap.getElem?_empty] at h
      split_ifs at h <;> cases h <;>
      · obtain ⟨v, -, rfl⟩ := List.mem_map.mp htxout
        exact Int.natCast_nonneg v }

/-- Every subset has its turn. -/
def everySubset : SelectChoices where
  shuffle := List.reverse
  shuffle_perm coins := List.reverse_perm coins
  flip repetition i := repetition.testBit i

/-- The subset search finds 2 and 7 for 8 cents, so that a cent is left. -/
example :
    (pocketWallet.selectCoinsMinConf everySubset 80000 1 1 6).map (List.map Coin.key)
      = some [(1, 1), (1, 0)] := by
  decide +kernel

theorem SpendingWallet.selectCoinsMinConf_sound_complete_pocket :
    ((pocketWallet.selectCoinsMinConf everySubset 80000 1 1 6).isSome = true ↔
        80000 ≤ pocketWallet.eligibleTotal 1 1 6) ∧
      ∀ coins, pocketWallet.selectCoinsMinConf everySubset 80000 1 1 6 = some coins →
        (∀ c ∈ (coinsRet coins).1, pocketWallet.Eligible 1 1 6 c) ∧
          ∑ c ∈ (coinsRet coins).1, c.nValue = (coinsRet coins).2 ∧
          80000 ≤ (coinsRet coins).2 :=
  pocketWallet.selectCoinsMinConf_sound_complete everySubset 80000 1 1 6 (by decide)
    (by decide +kernel)

/-- The largest value is not found. -/
theorem SpendingWallet.not_selectCoinsMinConf_oneCoin :
    ¬ ∀ (env : Env) (w : SpendingWallet env) (ch : SelectChoices) (nTargetValue : ℤ)
        (nSpendTime : Nat) (nConfMine nConfTheirs : ℤ),
      0 < nTargetValue → nTargetValue + CENT < 2 ^ 63 →
      w.eligibleTotal nSpendTime nConfMine nConfTheirs < 2 ^ 63 →
      nTargetValue ≤ w.eligibleTotal nSpendTime nConfMine nConfTheirs →
      (w.selectCoinsMinConf ch nTargetValue nSpendTime nConfMine nConfTheirs).isSome = true := by
  intro h
  have hfound := h Env.plain (oneCoinWallet (2 ^ 63 - 1)) unshuffled 3 0 1 6 (by decide) (by decide)
    (by decide +kernel) (by decide +kernel)
  revert hfound
  decide +kernel

end ShinyCoin

import ShinyCoin.Chain.Money
import ShinyCoin.Wallet.Accounts

/-!
# The books of a wallet

The parts of all accounts come to what `GetAmounts` found, as each amount is booked under one account.
What it found comes to the credit less the debit for a transaction that was received or sent; for a
coinbase or coinstake that is mature it is the credit, whatever the transaction spends.
-/

namespace ShinyCoin

/-! ## The parts of the accounts -/

/-- What was found, over all accounts -/
def Amounts.total (all : Amounts) : ℤ :=
  all.nGeneratedMature + (all.listReceived.map Prod.snd).sum - (all.listSent.map Prod.snd).sum
    - all.nFee

/-- No sum of amounts is out of range. -/
structure Amounts.InRange (all : Amounts) : Prop where
  received : ∀ r ∈ all.listReceived, 0 ≤ r.2
  received_le : (all.listReceived.map Prod.snd).sum ≤ MAX_MONEY
  sent : ∀ s ∈ all.listSent, 0 ≤ s.2
  sent_le : (all.listSent.map Prod.snd).sum ≤ MAX_MONEY

/-- A loop over amounts that are not negative, with a total in range -/
theorem foldl_int64_of_le {α : Type} {p : α → Bool} {f : α → ℤ} {xs : List α}
    (hpos : ∀ x ∈ xs, 0 ≤ f x) (hle : (xs.map f).sum ≤ MAX_MONEY) :
    xs.foldl (fun n x => if p x then int64 (n + f x) else n) 0 = ((xs.filter p).map f).sum := by
  rw [foldl_int64 p f xs rfl, zero_add]
  have hpart : ((xs.filter p).map f).sum ≤ (xs.map f).sum := by
    apply (List.filter_sublist.map f).sum_le_sum
    intro n hn
    obtain ⟨x, hx, rfl⟩ := List.mem_map.mp hn
    exact hpos x hx
  have hnonneg : 0 ≤ ((xs.filter p).map f).sum := by
    apply List.sum_nonneg
    intro n hn
    obtain ⟨x, hx, rfl⟩ := List.mem_map.mp hn
    exact hpos x (List.mem_of_mem_filter hx)
  exact int64_eq_of_moneyRange (moneyRange_iff.mpr ⟨hnonneg, hpart.trans hle⟩)

namespace AccountWallet

variable {ae : AddressEnv} {env : Env} {w : AccountWallet ae} {maturity : Maturity} {tx : AccountTx}
  {all : Amounts} {strAccount : Bytes} {nDebit : ℤ}

/-- The account an address counts for -/
def accountOf (w : AccountWallet ae) (address : CBitcoinAddress) : Bytes :=
  (w.mapAddressBook address).getD []

theorem countsFor_eq (w : AccountWallet ae) (strAccount : Bytes) (address : CBitcoinAddress) :
    w.countsFor strAccount address = decide (w.accountOf address = strAccount) := by
  unfold countsFor accountOf
  cases w.mapAddressBook address with
  | none => cases strAccount <;> simp
  | some account =>
      rw [Bool.eq_iff_iff]
      simp

/-- What was found, each amount under its account -/
def entries (w : AccountWallet ae) (all : Amounts) : List (Bytes × ℤ) :=
  [([], all.nGeneratedMature), (all.strSentAccount, -all.nFee)]
    ++ (all.listReceived.map fun r => (w.accountOf r.1, r.2))
    ++ all.listSent.map fun s => (all.strSentAccount, -s.2)

theorem entries_total (w : AccountWallet ae) (all : Amounts) :
    ((w.entries all).map Prod.snd).sum = all.total := by
  have hreceived : (all.listReceived.map fun r => (w.accountOf r.1, r.2)).map Prod.snd
      = all.listReceived.map Prod.snd := by
    rw [List.map_map]
    rfl
  have hsent : ((all.listSent.map fun s => (all.strSentAccount, -s.2)).map Prod.snd).sum
      = -(all.listSent.map Prod.snd).sum := by
    rw [List.sum_neg, List.map_map, List.map_map]
    rfl
  unfold entries Amounts.total
  rw [List.map_append, List.map_append, List.sum_append, List.sum_append, hreceived, hsent]
  simp only [List.map_cons, List.map_nil, List.sum_cons, List.sum_nil]
  ring

theorem balance_accountAmounts (h : all.InRange) (strAccount : Bytes) :
    (w.accountAmounts all strAccount).balance = Lib.booked (w.entries all) strAccount := by
  have hreceived := foldl_int64_of_le (p := fun r => w.countsFor strAccount r.1) h.received
    h.received_le
  have hsent := foldl_int64_of_le (p := fun _ => true) h.sent h.sent_le
  simp only [if_true, List.filter_true] at hsent
  unfold entries AccountAmounts.balance accountAmounts
  rw [hreceived, hsent, Lib.booked_append, Lib.booked_append, Lib.booked_cons, Lib.booked_singleton,
    Lib.booked_singleton, Lib.booked_map, Lib.booked_map]
  simp only [countsFor_eq]
  have hneg : ∀ sent : List (CBitcoinAddress × ℤ),
      (sent.map fun s => -s.2).sum = -(sent.map Prod.snd).sum := by
    intro sent
    rw [List.sum_neg, List.map_map]
    rfl
  have hfilter : all.listSent.filter (fun _ => decide (all.strSentAccount = strAccount))
      = if strAccount = all.strSentAccount then all.listSent else [] := by
    by_cases haccount : strAccount = all.strSentAccount
    · simp [haccount]
    · simp [haccount, Ne.symm haccount]
  rw [hneg, hfilter]
  by_cases haccount : strAccount = all.strSentAccount
  · rw [if_pos haccount, if_pos haccount, if_pos haccount, if_pos haccount]
    ring
  · rw [if_neg haccount, if_neg haccount, if_neg haccount, if_neg haccount]
    simp

/-- The accounts share out what was found. -/
theorem finsum_balance (h : all.InRange) :
    ∑ᶠ strAccount, (w.accountAmounts all strAccount).balance = all.total := by
  rw [finsum_congr (balance_accountAmounts h), Lib.finsum_booked, entries_total]

/-! ## What is received and sent -/

/-- The outputs the loop of `GetAmounts` enters as received -/
def receivedOutputs (w : AccountWallet ae) (nDebit : ℤ) (vout : List CTxOut) : List CTxOut :=
  vout.filter fun txout =>
    !(decide (0 < nDebit) && w.isChange txout) && w.own.isMine txout.scriptPubKey

/-- The outputs it enters as sent -/
def sentOutputs (w : AccountWallet ae) (nDebit : ℤ) (vout : List CTxOut) : List CTxOut :=
  vout.filter fun txout => decide (0 < nDebit) && !w.isChange txout

/-- An entry for an output -/
def entryOf (env : Env) (ae : AddressEnv) (txout : CTxOut) : CBitcoinAddress × ℤ :=
  ((ae.extractAddress txout.scriptPubKey).getD (CBitcoinAddress.ofString env unknownText),
    txout.nValue)

theorem foldl_addOutput (vout : List CTxOut) (amounts : Amounts) :
    vout.foldl (w.addOutput env nDebit) amounts =
      { amounts with
        listReceived := amounts.listReceived
          ++ (w.receivedOutputs nDebit vout).map (entryOf env ae)
        listSent := amounts.listSent ++ (w.sentOutputs nDebit vout).map (entryOf env ae) } := by
  induction vout generalizing amounts with
  | nil => simp [receivedOutputs, sentOutputs]
  | cons txout vout ih =>
      rw [List.foldl_cons, ih]
      unfold addOutput receivedOutputs sentOutputs
      by_cases hdebit : 0 < nDebit
      · cases hchange : w.isChange txout <;> cases hmine : w.own.isMine txout.scriptPubKey <;>
          simp [hdebit, hchange, hmine, entryOf]
      · cases hmine : w.own.isMine txout.scriptPubKey <;>
          simp [hdebit, hmine, entryOf]

theorem sum_entryOf (vout : List CTxOut) :
    ((vout.map (entryOf env ae)).map Prod.snd).sum = (vout.map CTxOut.nValue).sum := by
  rw [List.map_map]
  rfl

/-- The outputs are what was sent and what was received, but for change, which is the wallet's own. -/
theorem ownSum_eq (hdebit : 0 < nDebit) (vout : List CTxOut) :
    ((w.receivedOutputs nDebit vout).map CTxOut.nValue).sum
      - ((w.sentOutputs nDebit vout).map CTxOut.nValue).sum
      + (vout.map CTxOut.nValue).sum = w.own.ownSum vout := by
  induction vout with
  | nil => simp [receivedOutputs, sentOutputs, CWallet.ownSum]
  | cons txout vout ih =>
      rw [CWallet.ownSum_cons, ← ih]
      unfold receivedOutputs sentOutputs
      rw [List.filter_cons, List.filter_cons]
      cases hchange : w.isChange txout with
      | true =>
          have hmine := isMine_of_isChange hchange
          simp [hdebit, hmine]
          ring
      | false =>
          cases hmine : w.own.isMine txout.scriptPubKey <;> simp [hdebit] <;> ring

/-- In range are the sums of outputs whose sum is in range. -/
theorem sum_filter_le {vout : List CTxOut} {p q : CTxOut → Bool}
    (hrange : ∀ txout ∈ vout, moneyRange txout.nValue = true)
    (hpq : ∀ txout, p txout = true → q txout = true) :
    ((vout.filter p).map CTxOut.nValue).sum ≤ ((vout.filter q).map CTxOut.nValue).sum := by
  apply ((List.monotone_filter_right vout hpq).map CTxOut.nValue).sum_le_sum
  intro n hn
  obtain ⟨txout, hmem, rfl⟩ := List.mem_map.mp hn
  exact (moneyRange_iff.mp (hrange txout (List.mem_of_mem_filter hmem))).1

/-- What the loop finds, started from a fee -/
def foundIn (env : Env) (w : AccountWallet ae) (nDebit nFee : ℤ) (tx : AccountTx) : Amounts where
  listReceived := (w.receivedOutputs nDebit tx.wtx.tx.vout).map (entryOf env ae)
  listSent := (w.sentOutputs nDebit tx.wtx.tx.vout).map (entryOf env ae)
  nFee := nFee
  strSentAccount := tx.strFromAccount

theorem foundIn_inRange (hrange : ∀ txout ∈ tx.wtx.tx.vout, moneyRange txout.nValue = true)
    (hcredit : w.own.ownValue tx.wtx.tx ≤ MAX_MONEY)
    (hsent : 0 < nDebit → tx.wtx.tx.totalOut ≤ MAX_MONEY) (nFee : ℤ) :
    (w.foundIn env nDebit nFee tx).InRange := by
  have hpos : ∀ {p : CTxOut → Bool}, ∀ entry ∈ (tx.wtx.tx.vout.filter p).map (entryOf env ae),
      0 ≤ entry.2 := by
    intro p entry hentry
    obtain ⟨txout, hmem, rfl⟩ := List.mem_map.mp hentry
    exact (moneyRange_iff.mp (hrange txout (List.mem_of_mem_filter hmem))).1
  refine ⟨hpos, ?_, hpos, ?_⟩
  · refine (sum_entryOf _).trans_le (le_trans ?_ hcredit)
    exact sum_filter_le hrange fun txout h => (Bool.and_eq_true_iff.mp h).2
  · refine (sum_entryOf _).trans_le ?_
    by_cases hdebit : 0 < nDebit
    · refine le_trans ?_ (hsent hdebit)
      have hall := sum_filter_le (q := fun _ => true) hrange
        fun txout (_ : (decide (0 < nDebit) && !w.isChange txout) = true) => rfl
      rw [List.filter_true] at hall
      exact hall
    · simp [sentOutputs, hdebit, MAX_MONEY, COIN]

theorem foundIn_total {nFee : ℤ}
    (hfee : nFee = if 0 < nDebit then nDebit - tx.wtx.tx.totalOut else 0) :
    (w.foundIn env nDebit nFee tx).total
      = w.own.ownValue tx.wtx.tx - if 0 < nDebit then nDebit else 0 := by
  unfold Amounts.total foundIn
  simp only [sum_entryOf, hfee]
  by_cases hdebit : 0 < nDebit
  · rw [if_pos hdebit, if_pos hdebit, CWallet.ownValue, ← ownSum_eq hdebit, CTransaction.totalOut]
    ring
  · rw [if_neg hdebit, if_neg hdebit]
    have hreceived : w.receivedOutputs nDebit tx.wtx.tx.vout
        = tx.wtx.tx.vout.filter fun txout => w.own.isMine txout.scriptPubKey := by
      simp [receivedOutputs, hdebit]
    have hsent : w.sentOutputs nDebit tx.wtx.tx.vout = [] := by
      simp [sentOutputs, hdebit]
    rw [hreceived, hsent, CWallet.ownValue, CWallet.ownSum]
    simp

/-! ## What a wallet transaction answers -/

/-- The debit a wallet transaction answers with -/
def askedDebit (w : AccountWallet ae) (tx : AccountTx) : ℤ :=
  if tx.wtx.tx.vin.isEmpty then 0
  else if tx.fDebitCached then tx.nDebitCached
  else w.own.spentValue tx.wtx.tx

/-- The credit a mature wallet transaction answers with -/
def askedCredit (w : AccountWallet ae) (tx : AccountTx) : ℤ :=
  if tx.fCreditCached then tx.nCreditCached else w.own.ownValue tx.wtx.tx

theorem getDebit_answers (h : ∃ n, w.own.getDebit tx.wtx.tx = .ok n) :
    ∃ kept, w.getDebit ae.scripts tx.toKeptTx = .ok (w.askedDebit tx, kept) := by
  obtain ⟨n, hn⟩ := h
  obtain ⟨-, rfl⟩ := CWallet.getDebit_eq_ok.mp hn
  unfold KeptWallet.getDebit askedDebit
  split
  · exact ⟨_, rfl⟩
  · split
    · exact ⟨_, rfl⟩
    · rw [hn]
      exact ⟨_, rfl⟩

theorem getCredit_answers (hmature : maturity.immature tx.wtx = false)
    (h : ∃ n, w.own.getCredit tx.wtx.tx = .ok n) :
    ∃ kept, w.getCredit ae.scripts maturity true tx.toKeptTx = .ok (w.askedCredit tx, kept) := by
  obtain ⟨n, hn⟩ := h
  obtain ⟨-, -, rfl⟩ := CWallet.getCredit_eq_ok.mp hn
  unfold KeptWallet.getCredit askedCredit
  rw [hmature, if_neg Bool.false_ne_true, Bool.true_and]
  split
  · exact ⟨_, rfl⟩
  · rw [hn]
    exact ⟨_, rfl⟩

theorem moneyRange_askedDebit
    (h : ∀ part, part <+: w.own.spentValues tx.wtx.tx → moneyRange (int64 part.sum) = true) :
    moneyRange (w.askedDebit tx) = true := by
  unfold askedDebit
  split
  · decide
  · split
    · next hcached => exact tx.debit_range hcached
    · exact CWallet.moneyRange_spentValue h

/-- `GetAmounts` of a coinbase or coinstake that is mature: its credit -/
theorem getAmounts_generated (env : Env) (hmature : maturity.immature tx.wtx = false)
    (hgen : (tx.wtx.tx.isCoinBase || tx.wtx.tx.isCoinStake) = true)
    (h : ∃ n, w.own.getCredit tx.wtx.tx = .ok n) :
    ∃ kept, w.getAmounts env maturity tx = .ok
      ({ nGeneratedMature := w.askedCredit tx, strSentAccount := tx.strFromAccount }, kept) := by
  obtain ⟨kept, hcredit⟩ := getCredit_answers hmature h
  have hdepth : ¬ 0 < maturity tx.wtx := by
    unfold Maturity.immature at hmature
    simpa [hgen] using hmature
  refine ⟨kept, ?_⟩
  unfold getAmounts
  rw [if_pos hgen, if_neg hdepth, hcredit]
  rfl

/-- `GetAmounts` of a transaction that was sent has found the total of its outputs in range. -/
theorem totalOut_le_of_getAmounts {kept : KeptTx}
    (hgen : (tx.wtx.tx.isCoinBase || tx.wtx.tx.isCoinStake) = false)
    (hdebit : ∃ n, w.own.getDebit tx.wtx.tx = .ok n)
    (h : w.getAmounts env maturity tx = .ok (all, kept)) (hpos : 0 < w.askedDebit tx) :
    tx.wtx.tx.totalOut ≤ MAX_MONEY := by
  obtain ⟨kept', hdebit⟩ := getDebit_answers hdebit
  unfold getAmounts at h
  rw [if_neg (by rw [hgen]; exact Bool.false_ne_true), hdebit] at h
  obtain ⟨answer, hanswer, h⟩ := Lib.bind_eq_ok.mp h
  cases hanswer
  dsimp only at h
  rw [if_pos hpos] at h
  obtain ⟨nValueOut, hvalue, -⟩ := Lib.bind_eq_ok.mp h
  obtain ⟨rfl, hrange⟩ := getValueOut_eq hvalue
  exact (moneyRange_iff.mp hrange).2

/-- `GetAmounts` of a transaction that was received or sent -/
theorem getAmounts_eq_foundIn (env : Env) (maturity : Maturity)
    (hgen : (tx.wtx.tx.isCoinBase || tx.wtx.tx.isCoinStake) = false)
    (hrange : ∀ txout ∈ tx.wtx.tx.vout, moneyRange txout.nValue = true)
    (hparts : ∀ part, part <+: w.own.spentValues tx.wtx.tx → moneyRange (int64 part.sum) = true)
    (hsent : 0 < w.askedDebit tx → tx.wtx.tx.totalOut ≤ MAX_MONEY) :
    ∃ kept, w.getAmounts env maturity tx = .ok (w.foundIn env (w.askedDebit tx)
      (if 0 < w.askedDebit tx then w.askedDebit tx - tx.wtx.tx.totalOut else 0) tx, kept) := by
  obtain ⟨kept, hdebit⟩ := getDebit_answers ⟨_, CWallet.getDebit_eq_ok.mpr ⟨hparts, rfl⟩⟩
  refine ⟨kept, ?_⟩
  unfold getAmounts
  rw [if_neg (by rw [hgen]; exact Bool.false_ne_true), hdebit]
  show (if 0 < w.askedDebit tx then _ else _) = _
  by_cases hpos : 0 < w.askedDebit tx
  · have hvalue := CTransaction.getValueOut_of_totalOut_le hrange (hsent hpos)
    have hfee : int64 (w.askedDebit tx - tx.wtx.tx.totalOut)
        = w.askedDebit tx - tx.wtx.tx.totalOut := by
      have hmax := (moneyRange_iff.mp (moneyRange_askedDebit hparts)).2
      have htotal := hsent hpos
      have hnonneg : 0 ≤ tx.wtx.tx.totalOut := CTransaction.sum_nonneg_of_moneyRange hrange
      simp only [MAX_MONEY, COIN] at hmax htotal
      rw [int64]
      apply Int.bmod_eq_of_le <;> omega
    rw [if_pos hpos, if_pos hpos, hvalue]
    show Except.ok (_, kept) = _
    rw [foldl_addOutput, hfee]
    rfl
  · rw [if_neg hpos, if_neg hpos, foldl_addOutput]
    rfl

theorem finsum_balance_foundIn
    (hrange : ∀ txout ∈ tx.wtx.tx.vout, moneyRange txout.nValue = true)
    (hcredit : w.own.ownValue tx.wtx.tx ≤ MAX_MONEY)
    (hsent : 0 < nDebit → tx.wtx.tx.totalOut ≤ MAX_MONEY) (hpos : 0 ≤ nDebit) :
    ∑ᶠ strAccount, (w.accountAmounts (w.foundIn env nDebit
      (if 0 < nDebit then nDebit - tx.wtx.tx.totalOut else 0) tx) strAccount).balance
      = w.own.ownValue tx.wtx.tx - nDebit := by
  rw [finsum_balance (foundIn_inRange hrange hcredit hsent _), foundIn_total rfl]
  split
  · rfl
  · next hdebit =>
      have hzero : nDebit = 0 := by omega
      rw [hzero]

/-! ## The books -/

/-- Credit and debit are in range, every account gets amounts, and these come to the credit less the
debit. -/
def BooksBalance (env : Env) (maturity : Maturity) (w : AccountWallet ae) (tx : AccountTx) : Prop :=
  ∃ (nCredit nDebit : ℤ) (amounts : Bytes → AccountAmounts),
    w.own.getCredit tx.wtx.tx = .ok nCredit ∧ w.own.getDebit tx.wtx.tx = .ok nDebit ∧
    (∀ strAccount, ∃ kept,
      w.getAccountAmounts env maturity tx strAccount = .ok (amounts strAccount, kept)) ∧
    ∑ᶠ strAccount, (amounts strAccount).balance = nCredit - nDebit

/-- No amount is out of range, the numbers kept that are asked for are right, and a coinbase or
coinstake spends nothing of the wallet. -/
structure Balanced (w : AccountWallet ae) (tx : AccountTx) : Prop where
  outputs : ∀ txout ∈ tx.wtx.tx.vout, moneyRange txout.nValue = true
  credit : w.own.ownValue tx.wtx.tx ≤ MAX_MONEY
  debit : ∀ part, part <+: w.own.spentValues tx.wtx.tx → moneyRange (int64 part.sum) = true
  generated : (tx.wtx.tx.isCoinBase || tx.wtx.tx.isCoinStake) = true →
    if tx.fCreditCached then
      tx.nCreditCached = w.own.ownValue tx.wtx.tx - w.own.spentValue tx.wtx.tx
    else w.own.spentValue tx.wtx.tx = 0
  kept : (tx.wtx.tx.isCoinBase || tx.wtx.tx.isCoinStake) = false → tx.wtx.tx.vin ≠ [] →
    tx.fDebitCached = true → tx.nDebitCached = w.own.spentValue tx.wtx.tx
  sent : (tx.wtx.tx.isCoinBase || tx.wtx.tx.isCoinStake) = false →
    0 < w.own.spentValue tx.wtx.tx → tx.wtx.tx.totalOut ≤ MAX_MONEY

theorem getAccountAmounts_eq {kept : KeptTx} (h : w.getAmounts env maturity tx = .ok (all, kept))
    (strAccount : Bytes) :
    w.getAccountAmounts env maturity tx strAccount = .ok (w.accountAmounts all strAccount, kept) := by
  unfold getAccountAmounts
  rw [h]
  rfl

/-- The books by what `GetAmounts` found -/
theorem booksBalance_iff {kept : KeptTx} (h : w.getAmounts env maturity tx = .ok (all, kept))
    {nCredit nDebit : ℤ} (hcredit : w.own.getCredit tx.wtx.tx = .ok nCredit)
    (hdebit : w.own.getDebit tx.wtx.tx = .ok nDebit) :
    w.BooksBalance env maturity tx ↔
      ∑ᶠ strAccount, (w.accountAmounts all strAccount).balance = nCredit - nDebit := by
  constructor
  · rintro ⟨nCredit', nDebit', amounts, hcredit', hdebit', hamounts, hsum⟩
    rw [hcredit] at hcredit'
    rw [hdebit] at hdebit'
    cases hcredit'
    cases hdebit'
    rw [← hsum]
    apply finsum_congr
    intro strAccount
    obtain ⟨kept', hanswer⟩ := hamounts strAccount
    rw [getAccountAmounts_eq h, Except.ok.injEq, Prod.mk.injEq] at hanswer
    rw [hanswer.1]
  · intro hsum
    exact ⟨nCredit, nDebit, w.accountAmounts all, hcredit, hdebit,
      fun strAccount => ⟨kept, getAccountAmounts_eq h strAccount⟩, hsum⟩

/-- Where no input is asked for, none is the wallet's. -/
theorem askedDebit_eq_iff : w.askedDebit tx = w.own.spentValue tx.wtx.tx ↔
    (tx.wtx.tx.vin ≠ [] → tx.fDebitCached = true →
      tx.nDebitCached = w.own.spentValue tx.wtx.tx) := by
  unfold askedDebit
  cases hvin : tx.wtx.tx.vin with
  | nil =>
      have hnone : w.own.spentValue tx.wtx.tx = 0 := by
        unfold CWallet.spentValue CWallet.spentValues
        rw [hvin]
        rfl
      simp [hnone]
  | cons txin vin =>
      cases hcached : tx.fDebitCached <;> simp

theorem askedCredit_eq_iff :
    w.askedCredit tx = w.own.ownValue tx.wtx.tx - w.own.spentValue tx.wtx.tx ↔
      if tx.fCreditCached then
        tx.nCreditCached = w.own.ownValue tx.wtx.tx - w.own.spentValue tx.wtx.tx
      else w.own.spentValue tx.wtx.tx = 0 := by
  unfold askedCredit
  split
  · rfl
  · constructor <;> intro h <;> omega

section

variable (hcredit : w.own.getCredit tx.wtx.tx = .ok (w.own.ownValue tx.wtx.tx))
  (hdebit : w.own.getDebit tx.wtx.tx = .ok (w.own.spentValue tx.wtx.tx))

include hcredit hdebit

theorem booksBalance_generated (hmature : maturity.immature tx.wtx = false)
    (hgen : (tx.wtx.tx.isCoinBase || tx.wtx.tx.isCoinStake) = true) :
    w.BooksBalance env maturity tx ↔
      w.askedCredit tx = w.own.ownValue tx.wtx.tx - w.own.spentValue tx.wtx.tx := by
  obtain ⟨kept, hamounts⟩ := getAmounts_generated env hmature hgen ⟨_, hcredit⟩
  have hinRange : Amounts.InRange
      { nGeneratedMature := w.askedCredit tx, strSentAccount := tx.strFromAccount } :=
    ⟨by simp, by simp [MAX_MONEY, COIN], by simp, by simp [MAX_MONEY, COIN]⟩
  rw [booksBalance_iff hamounts hcredit hdebit, finsum_balance hinRange]
  simp [Amounts.total]

theorem booksBalance_transfer (hgen : (tx.wtx.tx.isCoinBase || tx.wtx.tx.isCoinStake) = false) :
    w.BooksBalance env maturity tx ↔
      w.askedDebit tx = w.own.spentValue tx.wtx.tx ∧
        (0 < w.own.spentValue tx.wtx.tx → tx.wtx.tx.totalOut ≤ MAX_MONEY) := by
  obtain ⟨hrange, hown, -⟩ := CWallet.getCredit_eq_ok.mp hcredit
  obtain ⟨hparts, -⟩ := CWallet.getDebit_eq_ok.mp hdebit
  have hasked := (moneyRange_iff.mp (moneyRange_askedDebit hparts)).1
  constructor
  · intro hbooks
    obtain ⟨-, -, amounts, -, -, hamounts, -⟩ := id hbooks
    -- every account is answered, so there are amounts to share out
    obtain ⟨kept, hanswer⟩ := hamounts []
    obtain ⟨⟨all, kept'⟩, hall, -⟩ := Lib.bind_eq_ok.mp hanswer
    have hsent := totalOut_le_of_getAmounts hgen ⟨_, hdebit⟩ hall
    obtain ⟨kept, hfound⟩ := getAmounts_eq_foundIn env maturity hgen hrange hparts hsent
    rw [booksBalance_iff hfound hcredit hdebit, finsum_balance_foundIn hrange hown hsent hasked]
      at hbooks
    have heq : w.askedDebit tx = w.own.spentValue tx.wtx.tx := by omega
    exact ⟨heq, heq ▸ hsent⟩
  · rintro ⟨heq, hsent⟩
    rw [← heq] at hsent
    obtain ⟨kept, hfound⟩ := getAmounts_eq_foundIn env maturity hgen hrange hparts hsent
    rw [booksBalance_iff hfound hcredit hdebit, finsum_balance_foundIn hrange hown hsent hasked, heq]

end

/-- The amounts of the accounts come to `GetCredit(tx) - GetDebit(tx)` exactly where no amount is out
of range, the numbers kept are right, and a coinbase or coinstake spends nothing of the wallet. -/
theorem getAccountAmounts_balance (env : Env) (maturity : Maturity) (w : AccountWallet ae)
    (tx : AccountTx) (hmature : maturity.immature tx.wtx = false) :
    w.BooksBalance env maturity tx ↔ w.Balanced tx := by
  constructor
  · intro hbooks
    obtain ⟨nCredit, nDebit, -, hcredit, hdebit, -, -⟩ := id hbooks
    obtain ⟨hrange, hown, rfl⟩ := CWallet.getCredit_eq_ok.mp hcredit
    obtain ⟨hparts, rfl⟩ := CWallet.getDebit_eq_ok.mp hdebit
    refine ⟨hrange, hown, hparts, ?_, ?_, ?_⟩
    · intro hgen
      rw [booksBalance_generated hcredit hdebit hmature hgen] at hbooks
      exact askedCredit_eq_iff.mp hbooks
    · intro hgen
      rw [booksBalance_transfer hcredit hdebit hgen] at hbooks
      exact askedDebit_eq_iff.mp hbooks.1
    · intro hgen
      rw [booksBalance_transfer hcredit hdebit hgen] at hbooks
      exact hbooks.2
  · intro h
    have hcredit := CWallet.getCredit_eq_ok.mpr ⟨h.outputs, h.credit, rfl⟩
    have hdebit := CWallet.getDebit_eq_ok.mpr ⟨h.debit, rfl⟩
    cases hgen : tx.wtx.tx.isCoinBase || tx.wtx.tx.isCoinStake with
    | true =>
        rw [booksBalance_generated hcredit hdebit hmature hgen]
        exact askedCredit_eq_iff.mpr (h.generated hgen)
    | false =>
        rw [booksBalance_transfer hcredit hdebit hgen]
        exact ⟨askedDebit_eq_iff.mpr (h.kept hgen), h.sent hgen⟩

/-! ## Two transactions -/

/-- The script of an address of the main network -/
def scriptOf (hash160 : Bytes) : CScript :=
  OP_DUP :: OP_HASH160 :: 20 :: (hash160 ++ [OP_EQUALVERIFY, OP_CHECKSIG])

/-- A wallet with one key, under which it got ten coins, and no address book -/
def tenCoins : AccountWallet mainAddresses where
  keystore := { mapKeys := [mainAddresses.setPubKey (List.replicate 20 1)] }
  mapWallet := Lib.PMap.empty.set 1 { wtx := { tx := {
    vin := [{ prevout := ⟨9, 0⟩ }]
    vout := [{ nValue := 10 * COIN, scriptPubKey := scriptOf (List.replicate 20 1) }] } } }
  fFileBacked := true
  mapAddressBook := Lib.PMap.empty
  key_address := by simp

/-- The ten coins are sent with another's output: three go to another's address, five are change, and
one goes to a script that is no standard one. -/
def sentTx : AccountTx where
  wtx := { tx := {
    vin := [{ prevout := ⟨1, 0⟩ }, { prevout := ⟨2, 0⟩ }]
    vout := [{ nValue := 3 * COIN, scriptPubKey := scriptOf (List.replicate 20 2) },
      { nValue := 5 * COIN, scriptPubKey := scriptOf (List.replicate 20 1) },
      { nValue := COIN, scriptPubKey := [OP_1] }] } }
  debit_range := fun h => absurd h Bool.false_ne_true

theorem getAccountAmounts_balance_sentTx :
    tenCoins.BooksBalance Env.plain (fun _ => 0) sentTx := by
  refine (getAccountAmounts_balance Env.plain (fun _ => 0) tenCoins sentTx rfl).mpr
    ⟨by decide, by decide, ?_, by decide, by decide, by decide⟩
  intro part hpart
  rw [← List.mem_inits] at hpart
  revert part
  decide

/-- A coinstake of the ten coins, which pays eleven back -/
def stakeTx : AccountTx where
  wtx := { tx := {
    vin := [{ prevout := ⟨1, 0⟩ }]
    vout := [{ nValue := 0 },
      { nValue := 11 * COIN, scriptPubKey := scriptOf (List.replicate 20 1) }] } }
  debit_range := fun h => absurd h Bool.false_ne_true

/-- The accounts have eleven coins of it, although it brings in one. -/
theorem getAccountAmounts_stakeTx :
    (∀ strAccount, ∃ kept, tenCoins.getAccountAmounts Env.plain (fun _ => 0) stakeTx strAccount
      = .ok ({ nGenerated := if strAccount = [] then 11 * COIN else 0 }, kept)) ∧
    tenCoins.own.getCredit stakeTx.wtx.tx = .ok (11 * COIN) ∧
    tenCoins.own.getDebit stakeTx.wtx.tx = .ok (10 * COIN) ∧
    ¬ tenCoins.BooksBalance Env.plain (fun _ => 0) stakeTx := by
  have hcredit : tenCoins.own.getCredit stakeTx.wtx.tx = .ok (tenCoins.own.ownValue stakeTx.wtx.tx) :=
    CWallet.getCredit_eq_ok.mpr ⟨by decide, by decide, rfl⟩
  have hdebit : tenCoins.own.getDebit stakeTx.wtx.tx
      = .ok (tenCoins.own.spentValue stakeTx.wtx.tx) := rfl
  have hgen : (stakeTx.wtx.tx.isCoinBase || stakeTx.wtx.tx.isCoinStake) = true := rfl
  have hgenerated : ∃ kept, tenCoins.getAmounts Env.plain (fun _ => 0) stakeTx = .ok (_, kept) :=
    getAmounts_generated Env.plain rfl hgen ⟨_, hcredit⟩
  obtain ⟨kept, hamounts⟩ := hgenerated
  refine ⟨?_, hcredit, hdebit, ?_⟩
  · intro strAccount
    refine ⟨kept, (getAccountAmounts_eq hamounts strAccount).trans ?_⟩
    simp only [accountAmounts, List.foldl_nil, ite_self]
    rfl
  · rw [booksBalance_generated hcredit hdebit rfl hgen]
    decide

end AccountWallet

end ShinyCoin

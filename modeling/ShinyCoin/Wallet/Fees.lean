import ShinyCoin.Wallet.Created
import ShinyCoin.Wallet.Selection
import ShinyCoin.Wallet.KeyPoolSafe
import ShinyCoin.Chain.Amounts

/-!
# Where the fee comes from

What the inputs of a created transaction are worth goes to the payees, back to the wallet and into
`nFeeRet`. `nFeeLeft` is the part of the fee that the outputs with infos do not pay, and the coins are
worth at least that and `nValue`, so the change is never negative.

`CreateTransaction` adds `nValue` up in 64 bits and looks at it once, after the loop. Payments past
`2 ^ 64` can come back into range; then the coins pay for less than the payees get.
-/

namespace ShinyCoin

/-! ## The key for the change -/

namespace KeyPool

variable {g : KeyGen} {keypool : ℤ} {r : Nat} {s : KeyPool} {nIndex : ℤ} {key : Bytes}

/-- Filling the pool adds keys, and leaves the default key as it is. -/
theorem topUpLoop_keys (g : KeyGen) (target : Nat) (s : KeyPool) :
    s.keys ⊆ (s.topUpLoop g target).keys ∧
      (s.topUpLoop g target).vchDefaultKey = s.vchDefaultKey := by
  induction s using topUpLoop.induct g target with
  | case1 s hless ih =>
      rw [topUpLoop, if_pos hless]
      exact ⟨fun key hkey => ih.1 (List.mem_cons_of_mem _ hkey), ih.2⟩
  | case2 s hfull =>
      rw [topUpLoop, if_neg hfull]
      exact ⟨List.Subset.refl _, rfl⟩

theorem topUpKeyPool_keys (g : KeyGen) (keypool : ℤ) (s : KeyPool) :
    s.keys ⊆ (s.topUpKeyPool g keypool).keys ∧
      (s.topUpKeyPool g keypool).vchDefaultKey = s.vchDefaultKey := by
  unfold topUpKeyPool
  split
  · exact ⟨List.Subset.refl _, rfl⟩
  · exact topUpLoop_keys g _ s

/-- A key that is reserved is the wallet's. -/
theorem reserveKeyFromKeyPool_keys {t : KeyPool}
    (h : s.reserveKeyFromKeyPool g keypool = ((nIndex, .ok key), t)) :
    s.keys ⊆ t.keys ∧ t.vchDefaultKey = s.vchDefaultKey ∧ (nIndex ≠ -1 → key ∈ t.keys) := by
  obtain ⟨hkeys, hdefault⟩ := s.topUpKeyPool_keys g keypool
  unfold reserveKeyFromKeyPool at h
  dsimp only at h
  split at h
  · cases h
    exact ⟨hkeys, hdefault, fun hne => absurd rfl hne⟩
  · split at h
    · cases h
    · split at h
      · next hmine =>
        cases h
        exact ⟨hkeys, hdefault, fun _ => hmine⟩
      · cases h

/-- `GetReservedKey` returns a key of the wallet, unless it throws. -/
theorem getReservedKey_mem (hdefault : s.vchDefaultKey ∈ s.keys)
    (hheld : (s.reserveKeys r).nIndex ≠ -1 → (s.reserveKeys r).vchPubKey ∈ s.keys)
    (hok : ∀ e, (s.reserveKeyFromKeyPool g keypool).1.2 ≠ .error e) :
    ((s.getReservedKey g keypool r).reserveKeys r).vchPubKey
      ∈ (s.getReservedKey g keypool r).keys := by
  unfold getReservedKey
  split
  · split
    · next e t hreserve =>
      rw [hreserve] at hok
      exact absurd rfl (hok e)
    · next nIndex key t hreserve =>
      obtain ⟨hkeys, hsame, hmine⟩ := reserveKeyFromKeyPool_keys hreserve
      have hreserved : ((t.setReserveKey r
          ⟨nIndex, if nIndex ≠ -1 then key else t.vchDefaultKey⟩).reserveKeys r).vchPubKey
            = if nIndex ≠ -1 then key else t.vchDefaultKey := by
        simp only [setReserveKey, Function.update_self]
      rw [hreserved]
      split
      · next hne => exact hmine hne
      · rw [hsame]
        exact hkeys hdefault
  · next hne => exact hheld hne

end KeyPool

namespace SpendingWallet

variable {env : Env} {w : SpendingWallet env} {ch : RoundChoices} {chs : Nat → RoundChoices}
  {request : PaymentRequest} {nTime : Nat} {c : Coin} {coins : List Coin} {tx : CTransaction}
  {nFeeRet nFeeLeft nFee : ℤ} {draft : InfoDraft}

/-- The script pays to an address whose key the wallet has. -/
def PaysOwn (w : SpendingWallet env) (scriptPubKey : CScript) : Prop :=
  ∃ addr, w.haveKey addr = true ∧ scriptPubKey = w.setBitcoinAddress addr

/-- The change goes to what `GetReservedKey` returns: the wallet has the keys of the pool, and its
default key is one of them. `addressOf` is the address of a public key. -/
structure PaysReserved (w : SpendingWallet env) (addressOf : Bytes → CBitcoinAddress) (g : KeyGen)
    (keypool : ℤ) (r : Nat) (s : KeyPool) (scriptChange : CScript) : Prop where
  own : ∀ key ∈ (s.getReservedKey g keypool r).keys, w.haveKey (addressOf key) = true
  default : s.vchDefaultKey ∈ s.keys
  held : (s.reserveKeys r).nIndex ≠ -1 → (s.reserveKeys r).vchPubKey ∈ s.keys
  reserves : ∀ e, (s.reserveKeyFromKeyPool g keypool).1.2 ≠ .error e
  script : scriptChange
    = w.setBitcoinAddress (addressOf ((s.getReservedKey g keypool r).reserveKeys r).vchPubKey)

theorem PaysReserved.paysOwn {addressOf : Bytes → CBitcoinAddress} {g : KeyGen} {keypool : ℤ}
    {r : Nat} {s : KeyPool} {scriptChange : CScript}
    (h : w.PaysReserved addressOf g keypool r s scriptChange) : w.PaysOwn scriptChange :=
  ⟨_, h.own _ (KeyPool.getReservedKey_mem h.default h.held h.reserves), h.script⟩

/-! ## What inputs are worth -/

/-- The value of the output that a prevout refers to, as far as the wallet has it. -/
def outputValue (w : SpendingWallet env) (prevout : COutPoint) : ℤ :=
  ((w.mapWallet[prevout.hash]?.bind fun wtx => wtx.tx.vout[prevout.n]?).map CTxOut.nValue).getD 0

/-- The wallet has the output. -/
def HasOutput (w : SpendingWallet env) (prevout : COutPoint) : Prop :=
  ∃ wtx, w.mapWallet[prevout.hash]? = some wtx ∧ prevout.n < wtx.tx.vout.length

/-- The exact sum of the values that inputs spend -/
def valueSpent (w : SpendingWallet env) (vin : List CTxIn) : ℤ :=
  (vin.map fun txin => w.outputValue txin.prevout).sum

@[simp] theorem valueSpent_nil : w.valueSpent [] = 0 := rfl

@[simp] theorem valueSpent_append (vin vin' : List CTxIn) :
    w.valueSpent (vin ++ vin') = w.valueSpent vin + w.valueSpent vin' := by
  simp [valueSpent]

theorem valueSpent_congr {vin vin' : List CTxIn}
    (h : vin.map CTxIn.prevout = vin'.map CTxIn.prevout) : w.valueSpent vin = w.valueSpent vin' := by
  have hmap : ∀ l : List CTxIn, l.map (fun txin => w.outputValue txin.prevout)
      = (l.map CTxIn.prevout).map w.outputValue := fun l => by simp
  unfold valueSpent
  rw [hmap, hmap, h]

theorem hasOutput_congr {vin vin' : List CTxIn}
    (h : vin.map CTxIn.prevout = vin'.map CTxIn.prevout)
    (hall : ∀ txin ∈ vin', w.HasOutput txin.prevout) : ∀ txin ∈ vin, w.HasOutput txin.prevout := by
  intro txin htxin
  have hmem := List.mem_map_of_mem (f := CTxIn.prevout) htxin
  rw [h] at hmem
  obtain ⟨txin', htxin', heq⟩ := List.mem_map.mp hmem
  exact heq ▸ hall txin' htxin'

/-- An input that spends a coin. -/
def coinIn (c : Coin) : CTxIn := { prevout := ⟨c.hash, c.n⟩ }

/-- A coin of the wallet has the value of its output. -/
def Worth (w : SpendingWallet env) (c : Coin) : Prop :=
  w.mapWallet[c.hash]? = some c.wtx ∧
    ∃ txout, c.wtx.tx.vout[c.n]? = some txout ∧ c.nValue = txout.nValue

theorem Worth.outputValue (h : w.Worth c) : w.outputValue ⟨c.hash, c.n⟩ = c.nValue := by
  obtain ⟨hin, txout, hout, hvalue⟩ := h
  unfold SpendingWallet.outputValue
  rw [hin, Option.bind_some, hout, hvalue]
  rfl

theorem Worth.hasOutput (h : w.Worth c) : w.HasOutput ⟨c.hash, c.n⟩ := by
  obtain ⟨hin, txout, hout, -⟩ := h
  exact ⟨c.wtx, hin, (List.getElem?_eq_some_iff.mp hout).1⟩

theorem Worth.prevout (h : w.Worth c) : c.prevout env = ⟨c.hash, c.n⟩ := by
  unfold Coin.prevout
  rw [w.keyed _ _ h.1]

theorem Eligible.worth {nSpendTime : Nat} {nConfMine nConfTheirs : ℤ}
    (h : w.Eligible nSpendTime nConfMine nConfTheirs c) : w.Worth c := by
  obtain ⟨txout, hout, hvalue, -⟩ := h.output
  exact ⟨h.inWallet, txout, hout, hvalue⟩

theorem infoOutput_worth {addr : CBitcoinAddress} (h : w.infoOutput nTime addr = some c) :
    w.Worth c := by
  obtain ⟨⟨hin, hlt⟩, -⟩ := infoOutput_ok h
  refine ⟨hin, c.wtx.tx.vout[c.n], List.getElem?_eq_getElem hlt, ?_⟩
  obtain ⟨x, -, hc⟩ := List.exists_of_findSome?_eq_some h
  unfold infoOutputOf at hc
  split at hc
  · cases hc
  · obtain ⟨i, -, rfl⟩ := Option.map_eq_some_iff.mp hc
    dsimp only at hlt ⊢
    rw [List.getElem?_eq_getElem hlt]
    rfl

/-! ## The inputs with infos -/

/-- The values of outputs, added up without a bound. -/
def valueOf (vout : List CTxOut) : ℤ := (vout.map CTxOut.nValue).sum

@[simp] theorem valueOf_nil : valueOf [] = 0 := rfl

@[simp] theorem valueOf_append (vout vout' : List CTxOut) :
    valueOf (vout ++ vout') = valueOf vout + valueOf vout' := by
  simp [valueOf]

theorem valueOf_perm {vout vout' : List CTxOut} (h : vout.Perm vout') :
    valueOf vout = valueOf vout' :=
  (h.map CTxOut.nValue).sum_eq

/-- An output with what is left, if anything is. -/
def backOut (nValue : ℤ) (scriptPubKey : CScript) : List CTxOut :=
  if 0 < nValue then [{ nValue := nValue, scriptPubKey := scriptPubKey }] else []

theorem valueOf_backOut {nValue : ℤ} (h : 0 ≤ nValue) (scriptPubKey : CScript) :
    valueOf (backOut nValue scriptPubKey) = nValue := by
  unfold backOut
  split
  · simp [valueOf]
  · rw [valueOf_nil]
    omega

theorem mem_backOut {nValue : ℤ} {scriptPubKey : CScript} {txout : CTxOut}
    (h : txout ∈ backOut nValue scriptPubKey) : txout.scriptPubKey = scriptPubKey := by
  unfold backOut at h
  split at h
  · rw [List.mem_singleton.mp h]
  · cases h

/-- The outputs that infos are attached to pay the fee as far as `nFeeLeft` is not left of it, and
the rest goes back to their addresses. -/
structure DraftOk (w : SpendingWallet env) (nFeeRet : ℤ) (draft : InfoDraft) : Prop where
  spends : ∀ txin ∈ draft.vin, w.HasOutput txin.prevout
  balance : w.valueSpent draft.vin = valueOf draft.vout + (nFeeRet - draft.nFeeLeft)
  own : ∀ txout ∈ draft.vout, w.PaysOwn txout.scriptPubKey

/-- What an output has left, and what is left of the fee, make up for each other. -/
theorem takeFee_balance {nValue : ℤ} (h : 0 ≤ nValue) (nFeeLeft : ℤ) :
    0 ≤ (takeFee nValue nFeeLeft).1 ∧
      nValue = (takeFee nValue nFeeLeft).1 + (nFeeLeft - (takeFee nValue nFeeLeft).2) := by
  unfold takeFee
  split_ifs <;> simp only <;> omega

theorem DraftOk.addInfoInput {draft' : InfoDraft} {addr_info : CBitcoinAddress × List CTxInfo}
    (h : w.DraftOk nFeeRet draft) (hadd : w.addInfoInput nTime draft addr_info = some draft') :
    w.DraftOk nFeeRet draft' := by
  unfold SpendingWallet.addInfoInput at hadd
  split at hadd
  · cases hadd
  · next hkey =>
    have hmine : w.haveKey addr_info.1 = true := by simpa using hkey
    obtain ⟨c, hc, rfl⟩ := Option.map_eq_some_iff.mp hadd
    have hworth := infoOutput_worth hc
    obtain ⟨hpos, hpaid⟩ := takeFee_balance (infoOutput_ok hc).2.1 draft.nFeeLeft
    constructor
    · intro txin htxin
      rcases List.mem_append.mp htxin with htxin | htxin
      · exact h.spends txin htxin
      · rw [List.mem_singleton.mp htxin]
        exact hworth.hasOutput
    · have hin : w.valueSpent [{ prevout := ⟨c.hash, c.n⟩, infos := addr_info.2 }] = c.nValue := by
        simpa [valueSpent] using hworth.outputValue
      have hback := valueOf_backOut hpos (w.setBitcoinAddress addr_info.1)
      unfold backOut at hback
      dsimp only
      rw [valueSpent_append, valueOf_append, hin, hback, h.balance]
      omega
    · intro txout htxout
      rcases List.mem_append.mp htxout with htxout | htxout
      · exact h.own txout htxout
      · rw [mem_backOut htxout]
        exact ⟨addr_info.1, hmine, rfl⟩

theorem draftOk_addInfoInputs {vecTxInfos : List (CBitcoinAddress × List CTxInfo)}
    (h : w.addInfoInputs nTime vecTxInfos nFeeRet = some draft) : w.DraftOk nFeeRet draft := by
  have hloop : ∀ (vecTxInfos : List (CBitcoinAddress × List CTxInfo)) (st : InfoDraft),
      w.DraftOk nFeeRet st → vecTxInfos.foldlM (w.addInfoInput nTime) st = some draft →
      w.DraftOk nFeeRet draft := by
    intro vecTxInfos
    induction vecTxInfos with
    | nil =>
        intro st hst hfold
        cases hfold
        exact hst
    | cons x vecTxInfos ih =>
        intro st hst hfold
        rw [List.foldlM_cons] at hfold
        obtain ⟨st₁, h₁, hfold⟩ := Option.bind_eq_some_iff.mp hfold
        exact ih st₁ (hst.addInfoInput h₁) hfold
  apply hloop vecTxInfos _ _ h
  constructor
  · intro txin htxin
    cases htxin
  · simp
  · intro txout htxout
    cases htxout

/-! ## A round -/

/-- The coins are the wallet's, and worth the target. -/
theorem chooseCoins_ok {nTotalValue nValueIn : ℤ}
    (h : w.chooseCoins ch nTime nTotalValue = some (coins, nValueIn)) :
    (∀ c ∈ coins, w.Worth c) ∧ nValueIn = totalOf coins ∧ nTotalValue ≤ nValueIn ∧
      0 ≤ nValueIn := by
  unfold chooseCoins at h
  split at h
  · next hpos =>
    unfold selectCoins at h
    obtain ⟨found, hfound, heq⟩ := Option.map_eq_some_iff.mp h
    obtain ⟨rfl, rfl⟩ := Prod.mk.inj heq
    have hspec : ∃ ch nConfMine nConfTheirs,
        w.selectCoinsMinConf ch nTotalValue nTime nConfMine nConfTheirs = some found := by
      rw [Option.orElse_eq_or, Option.orElse_eq_or] at hfound
      rcases Option.or_eq_some_iff.mp hfound with h₁ | ⟨-, hfound⟩
      · exact ⟨_, _, _, h₁⟩
      · rcases Option.or_eq_some_iff.mp hfound with h₂ | ⟨-, h₃⟩
        · exact ⟨_, _, _, h₂⟩
        · exact ⟨_, _, _, h₃⟩
    obtain ⟨_, _, _, hselect⟩ := hspec
    have hperm := List.perm_insertionSort w.pointerLE found
    have hreached := selectCoinsMinConf_reached hselect
    refine ⟨?_, (totalOf_perm hperm).symm, hreached, hpos.le.trans hreached⟩
    intro c hc
    have hc := (selectCoinsMinConf_spec hpos hselect).2.subset (hperm.mem_iff.mp hc)
    exact (mem_availableCoins_iff.mp hc).worth
  · next hneg =>
    cases h
    exact ⟨fun c hc => absurd hc List.not_mem_nil, rfl, not_lt.mp hneg, le_rfl⟩

/-- The exact sum of the payments -/
def exactTotal (vecSend : List (CScript × ℤ)) : ℤ := (vecSend.map Prod.snd).sum

def payments (vecSend : List (CScript × ℤ)) : List CTxOut :=
  vecSend.map fun s => { nValue := s.2, scriptPubKey := s.1 }

theorem valueOf_payments (vecSend : List (CScript × ℤ)) :
    valueOf (payments vecSend) = exactTotal vecSend := by
  simp [valueOf, payments, exactTotal, Function.comp_def]

/-- The change is one more output, wherever it goes. -/
theorem insertChange_perm (ch : RoundChoices) (nChange : ℤ) (vout : List CTxOut) :
    (insertChange ch nChange vout).Perm (vout ++ backOut nChange ch.scriptChange) := by
  unfold insertChange backOut
  split
  · have hpos : ch.nChangePos % max 1 vout.length ≤ vout.length := by
      have hlt := Nat.mod_lt ch.nChangePos (show 0 < max 1 vout.length by omega)
      omega
    exact (List.perm_insertIdx _ vout hpos).trans (List.perm_append_singleton _ vout).symm
  · rw [List.append_nil]

/-- The payments are there, and what else there is goes to the wallet. -/
def PaysAll (w : SpendingWallet env) (vecSend : List (CScript × ℤ)) (tx : CTransaction) : Prop :=
  ∃ own, tx.vout.Perm (payments vecSend ++ own) ∧
    ∀ txout ∈ own, w.PaysOwn txout.scriptPubKey

/-- The account of a round: it is out by what `nValue` is out. -/
theorem createRound_balance (hchange : w.PaysOwn ch.scriptChange)
    (h : w.createRound ch request nFeeRet = some (tx, nFee)) :
    (∀ txin ∈ tx.vin, w.HasOutput txin.prevout) ∧
      w.valueSpent tx.vin - valueOf tx.vout
        = nFee + (totalValue request.vecSend - exactTotal request.vecSend) ∧
      w.PaysAll request.vecSend tx := by
  unfold createRound at h
  obtain ⟨⟨tx₁, nFeeLeft⟩, hinfo, h⟩ := Option.bind_eq_some_iff.mp h
  obtain ⟨⟨setCoins, nValueIn⟩, hcoins, h⟩ := Option.bind_eq_some_iff.mp h
  obtain ⟨tx₂, hsigned, h⟩ := Option.bind_eq_some_iff.mp h
  split at h
  · cases h
  · cases h
    obtain ⟨draft, hdraft, hinfo⟩ := Option.bind_eq_some_iff.mp hinfo
    obtain ⟨tx₁', hfirst, heq⟩ := Option.map_eq_some_iff.mp hinfo
    obtain ⟨rfl, rfl⟩ := Prod.mk.inj heq
    have hok := draftOk_addInfoInputs hdraft
    obtain ⟨hworth, hvalueIn, hreached, hpos⟩ := chooseCoins_ok hcoins
    obtain ⟨hblank₁, -, -⟩ := signInputs_spec hfirst
    obtain ⟨hblank, -, -⟩ := signInputs_spec hsigned
    generalize hnChange : nValueIn - totalValue request.vecSend - draft.nFeeLeft = nChange at hblank ⊢
    have hmove : 0 ≤ nChange - moveToFee nFeeRet nChange := by
      unfold moveToFee
      split <;> omega
    -- the inputs are those with infos and the coins
    have hvin : tx.vin.map CTxIn.prevout
        = (draft.vin ++ setCoins.map coinIn).map CTxIn.prevout := by
      rw [prevouts_of_blanked hblank, payOut]
      dsimp only
      rw [List.map_append, prevouts_of_blanked hblank₁, List.map_append, List.map_map,
        List.map_map]
      congr 1
      apply List.map_congr_left
      intro c hc
      exact (hworth c hc).prevout
    have hcoinsValue : w.valueSpent (setCoins.map coinIn) = nValueIn := by
      rw [hvalueIn]
      unfold valueSpent totalOf
      rw [List.map_map]
      congr 1
      apply List.map_congr_left
      intro c hc
      exact (hworth c hc).outputValue
    -- the outputs are what is sent back, the payments and the change
    have hvout : tx.vout.Perm ((draft.vout ++ payments request.vecSend)
        ++ backOut (nChange - moveToFee nFeeRet nChange) ch.scriptChange) := by
      rw [vout_of_blanked hblank, payOut]
      dsimp only
      rw [vout_of_blanked hblank₁]
      exact insertChange_perm ch _ _
    refine ⟨?_, ?_, ?_⟩
    · apply hasOutput_congr hvin
      intro txin htxin
      rcases List.mem_append.mp htxin with htxin | htxin
      · exact hok.spends txin htxin
      · obtain ⟨c, hc, rfl⟩ := List.mem_map.mp htxin
        exact (hworth c hc).hasOutput
    · rw [valueSpent_congr hvin, valueSpent_append, hcoinsValue, hok.balance, valueOf_perm hvout,
        valueOf_append, valueOf_append, valueOf_payments,
        valueOf_backOut hmove, ← hnChange]
      ring
    · refine ⟨draft.vout ++ backOut (nChange - moveToFee nFeeRet nChange) ch.scriptChange, ?_, ?_⟩
      · rw [← List.append_assoc]
        exact hvout.trans (List.perm_append_comm.append_right _)
      · intro txout htxout
        rcases List.mem_append.mp htxout with htxout | htxout
        · exact hok.own txout htxout
        · rw [mem_backOut htxout]
          exact hchange

/-! ## The fee loop -/

/-- The loop ends with a round whose fee is enough. -/
theorem createLoop_ends {round : Nat}
    (h : w.createLoop chs request round nFeeRet = some (tx, nFee)) :
    ∃ r nFeeRet', w.createRound (chs r) request nFeeRet' = some (tx, nFee) ∧
      w.requiredFee tx ≤ nFee := by
  induction round, nFeeRet using createLoop.induct w chs request with
  | case1 round nFeeRet hround =>
      unfold createLoop at h
      rw [hround] at h
      cases h
  | case2 round nFeeRet tx₁ nFee₁ hround hless ih =>
      unfold createLoop at h
      rw [hround] at h
      dsimp only at h
      rw [if_pos hless] at h
      exact ih h
  | case3 round nFeeRet tx₁ nFee₁ hround hpays =>
      unfold createLoop at h
      rw [hround] at h
      dsimp only at h
      rw [if_neg hpays] at h
      cases h
      exact ⟨round, nFeeRet, hround, not_lt.mp hpays⟩

/-- What is expected of a created transaction and its fee. -/
structure FeesConserved (w : SpendingWallet env) (vecSend : List (CScript × ℤ)) (tx : CTransaction)
    (nFeeRet : ℤ) : Prop where
  spends : ∀ txin ∈ tx.vin, w.HasOutput txin.prevout
  conserved : w.valueSpent tx.vin - valueOf tx.vout = nFeeRet
  enough : max (w.nTransactionFee * (1 + (tx.getSerializeSize / 1000 : Nat)))
    (tx.getMinFee 1 .GMF_SEND) ≤ nFeeRet
  paid : w.PaysAll vecSend tx

/-- The sum of the payments, as the loop over them has it. -/
theorem totalValue_eq (vecSend : List (CScript × ℤ)) :
    totalValue vecSend = int64 (exactTotal vecSend) := by
  have hloop : ∀ (l : List (CScript × ℤ)) (n : ℤ),
      l.foldl (fun nValue s => int64 (nValue + s.2)) (int64 n) = int64 (n + exactTotal l) := by
    intro l
    induction l with
    | nil =>
        intro n
        simp [exactTotal]
    | cons s l ih =>
        intro n
        rw [List.foldl_cons, CTransaction.int64_int64_add, ih]
        simp [exactTotal, add_assoc]
  have h := hloop vecSend 0
  rw [zero_add] at h
  exact h

/-- The fee of a created transaction is what its inputs are worth less its outputs, it is enough,
and all of the rest goes to the payees and to the wallet, exactly where the payments do not go all
the way round 64 bits. -/
theorem createTransaction_feesConserved_iff (addressOf : Bytes → CBitcoinAddress) (g : KeyGen)
    (keypool : ℤ) (reservekey : Nat) (pools : Nat → KeyPool)
    (hchange : ∀ r,
      w.PaysReserved addressOf g keypool reservekey (pools r) (chs r).scriptChange)
    (h : w.createTransaction chs request = some (tx, nFee)) :
    w.FeesConserved request.vecSend tx nFee ↔ exactTotal request.vecSend < 2 ^ 64 := by
  unfold createTransaction at h
  split at h
  · cases h
  · next hrange =>
    simp only [Bool.or_eq_true, Bool.not_eq_true', not_or, Bool.not_eq_false] at hrange
    obtain ⟨hvalues, htotal⟩ := hrange
    split at h
    · cases h
    · obtain ⟨r, nFeeRet, hround, henough⟩ := createLoop_ends h
      obtain ⟨hspends, hbalance, hpaid⟩ := createRound_balance (hchange r).paysOwn hround
      have hpos : 0 ≤ exactTotal request.vecSend := by
        apply List.sum_nonneg
        intro v hv
        obtain ⟨s, hs, rfl⟩ := List.mem_map.mp hv
        exact (moneyRange_iff.mp (List.all_eq_true.mp hvalues s hs)).1
      rw [totalValue_eq] at htotal hbalance
      have hexact := CTransaction.int64_eq_self_iff hpos htotal
      constructor
      · intro hfees
        have := hfees.conserved
        rw [← hexact]
        omega
      · intro hlt
        refine ⟨hspends, ?_, henough, hpaid⟩
        rw [hbalance, hexact.mpr hlt]
        omega

/-! ## Payments from a wallet of several coins -/

/-- Pays the change to `changeScript`. -/
def changeScript : CScript := [3]

def changeChoices (_ : Nat) : RoundChoices where
  select _ := unshuffled
  nChangePos := 0
  scriptChange := changeScript
  signSignature _ _ _ := some []

/-- The key pool is empty and cannot be filled, so the default key is handed out. -/
def lockedPool : KeyPool where
  keys := [changeScript]
  fLocked := true
  vchDefaultKey := changeScript

theorem paysReserved_lockedPool {w : SpendingWallet Env.plain}
    (hkeys : ∀ addr, w.haveKey addr = true)
    (hscript : ∀ addr, w.setBitcoinAddress addr = addr.vchData) :
    w.PaysReserved (fun key => ⟨63, key⟩) KeyPool.numbered 0 0 lockedPool changeScript where
  own _ _ := hkeys _
  default := List.mem_singleton_self changeScript
  held hne := absurd rfl hne
  reserves e h := by cases h
  script := by
    rw [hscript]
    rfl

def pocketChoices (_ : Nat) : RoundChoices where
  select _ := everySubset
  nChangePos := 1
  scriptChange := changeScript
  signSignature _ _ _ := some []

/-- Two payees, one with a script of a thousand bytes -/
def twoSends : PaymentRequest where
  vecSend := [(List.replicate 1000 4, 60000), ([5], 20000)]
  vecTxInfos := []
  wtxNew := { nTime := 1, vin := [], vout := [] }

def twoSendsTx : CTransaction where
  nTime := 1
  vin := [{ prevout := ⟨1, 1⟩ }, { prevout := ⟨2, 1⟩ }]
  vout := [{ nValue := 60000, scriptPubKey := List.replicate 1000 4 },
    { nValue := 20000, scriptPubKey := changeScript }, { nValue := 20000, scriptPubKey := [5] }]

/-- What the first round comes to, with a fee of a cent -/
def twoSendsDraft : CTransaction where
  nTime := 1
  vin := [{ prevout := ⟨1, 1⟩ }, { prevout := ⟨2, 0⟩ }]
  vout := [{ nValue := 60000, scriptPubKey := List.replicate 1000 4 },
    { nValue := CENT, scriptPubKey := changeScript }, { nValue := 20000, scriptPubKey := [5] }]

/-- The first round's fee is too low for the size; the second round takes other coins. -/
theorem createTransaction_twoSends :
    pocketWallet.createTransaction pocketChoices twoSends = some (twoSendsTx, 2 * CENT) := by
  have hfirst : pocketWallet.createRound (pocketChoices 0) twoSends CENT
      = some (twoSendsDraft, CENT) := by decide +kernel
  have hrequired : pocketWallet.requiredFee twoSendsDraft = 2 * CENT := by decide +kernel
  unfold createTransaction
  rw [if_neg (by decide +kernel), if_neg (by decide +kernel)]
  unfold createLoop
  rw [show pocketWallet.nTransactionFee = CENT from rfl, hfirst]
  dsimp only
  rw [hrequired, if_pos (by decide)]
  apply createLoop_of_round
  · decide +kernel
  · decide +kernel

theorem createTransaction_feesConserved_iff_twoSends :
    pocketWallet.FeesConserved twoSends.vecSend twoSendsTx (2 * CENT) ↔
      exactTotal twoSends.vecSend < 2 ^ 64 :=
  createTransaction_feesConserved_iff _ KeyPool.numbered 0 0 (fun _ => lockedPool)
    (fun _ => paysReserved_lockedPool (fun _ => rfl) fun _ => rfl) createTransaction_twoSends

/-! ## A purse of the largest value

It pays for 9224 outputs of as much. -/

def purse : SpendingWallet Env.plain := oneCoinWallet 2000000000000000

def purseCoin : Coin := ⟨1, { tx := oneCoinTx 2000000000000000 }, 0, 2000000000000000⟩

def sendAll (vecSend : List (CScript × ℤ)) : PaymentRequest where
  vecSend := vecSend
  vecTxInfos := []
  wtxNew := { vin := [], vout := [] }

/-- The purse, to the payees and back -/
def sendAllTx (vecSend : List (CScript × ℤ)) (nChange : ℤ) : CTransaction where
  vin := [{ prevout := ⟨1, 0⟩ }]
  vout := { nValue := nChange, scriptPubKey := changeScript } :: payments vecSend

theorem sendAllTx_value (vecSend : List (CScript × ℤ)) (nChange : ℤ) :
    valueOf (sendAllTx vecSend nChange).vout = nChange + exactTotal vecSend := by
  rw [← valueOf_payments]
  rfl

theorem createRound_sendAll {vecSend : List (CScript × ℤ)} {r : Nat} {nFeeRet nChange : ℤ}
    (hfee : MIN_TX_FEE ≤ nFeeRet) (hpos : 0 < nChange)
    (hchange : 2000000000000000 - totalValue vecSend - nFeeRet = nChange)
    (hcoins : purse.chooseCoins (changeChoices r) 0 (totalValue vecSend + nFeeRet)
      = some ([purseCoin], 2000000000000000))
    (hsize : (sendAllTx vecSend nChange).getSerializeSize < MAX_BLOCK_SIZE_GEN / 5) :
    purse.createRound (changeChoices r) (sendAll vecSend) nFeeRet
      = some (sendAllTx vecSend nChange, nFeeRet) := by
  have hmove : moveToFee nFeeRet nChange = 0 := if_neg fun h => absurd h.1 (not_lt.mpr hfee)
  have hinfo : purse.signedInfos (changeChoices r) (sendAll vecSend) nFeeRet
      = some ({ vin := [], vout := [] }, nFeeRet) := signedInfos_of_no_infos rfl
  have htx : payOut Env.plain (changeChoices r) (sendAll vecSend).vecSend nChange [purseCoin]
      { vin := [], vout := [] } = sendAllTx vecSend nChange := by
    have hfirst : (changeChoices r).nChangePos = 0 := rfl
    unfold payOut insertChange
    rw [if_pos hpos, hfirst, Nat.zero_mod]
    rfl
  have hsigned : signInputs (changeChoices r).signSignature ([purseCoin].map fun c => c.wtx.tx)
      (sendAll vecSend).vecTxInfos.length (sendAllTx vecSend nChange)
        = some (sendAllTx vecSend nChange) := rfl
  have hcoins' : purse.chooseCoins (changeChoices r) (sendAll vecSend).wtxNew.nTime
      (totalValue (sendAll vecSend).vecSend + nFeeRet)
        = some ([purseCoin], 2000000000000000) := hcoins
  have hchange' : 2000000000000000 - totalValue (sendAll vecSend).vecSend - nFeeRet = nChange :=
    hchange
  unfold createRound
  rw [hinfo]
  dsimp only [Option.bind_some]
  rw [hcoins']
  dsimp only [Option.bind_some]
  rw [hchange', hmove, sub_zero, add_zero, htx, hsigned]
  dsimp only [Option.bind_some]
  exact if_neg (not_le.mpr hsize)

/-- Payments that come to `2 ^ 64` and a bit -/
def wrappedSend : List (CScript × ℤ) := List.replicate 9224 ([], MAX_MONEY)

theorem exactTotal_wrappedSend : exactTotal wrappedSend = 2 ^ 64 + 1255926290448384 := by
  unfold exactTotal wrappedSend
  rw [List.map_replicate, List.sum_replicate, nsmul_eq_mul]
  rfl

theorem totalValue_wrappedSend : totalValue wrappedSend = 1255926290448384 := by
  rw [totalValue_eq, exactTotal_wrappedSend]
  rfl

theorem sendAllTx_size (vecSend : List (CScript × ℤ)) (nChange : ℤ) :
    (sendAllTx vecSend nChange).getSerializeSize
      = 66 + getSizeOfCompactSize (vecSend.length + 1)
        + ((payments vecSend).map CTxOut.getSerializeSize).sum := by
  have hlen : (payments vecSend).length = vecSend.length := List.length_map _
  have hout : vectorSerializeSize CTxOut.getSerializeSize (sendAllTx vecSend nChange).vout
      = getSizeOfCompactSize (vecSend.length + 1)
        + (11 + ((payments vecSend).map CTxOut.getSerializeSize).sum) := by
    unfold vectorSerializeSize sendAllTx
    rw [List.map_cons, List.sum_cons, List.length_cons, hlen]
    rfl
  have hin : vectorSerializeSize CTxIn.getSerializeSize (sendAllTx vecSend nChange).vin = 43 := rfl
  have hversion : (sendAllTx vecSend nChange).nVersion = .TT_NORMAL := rfl
  unfold CTransaction.getSerializeSize
  rw [hout, hin, hversion]
  dsimp only
  omega

theorem sendAllTx_wrappedSend_size (nChange : ℤ) :
    (sendAllTx wrappedSend nChange).getSerializeSize = 92309 := by
  have hsum : ((payments wrappedSend).map CTxOut.getSerializeSize).sum = 9224 * 10 := by
    unfold payments wrappedSend
    rw [List.map_replicate, List.map_replicate, List.sum_replicate, smul_eq_mul]
    rfl
  rw [sendAllTx_size, hsum, wrappedSend, List.length_replicate]
  rfl

theorem requiredFee_wrappedSend {nChange : ℤ} (h : CENT ≤ nChange) :
    purse.requiredFee (sendAllTx wrappedSend nChange) = 930000 := by
  have hdust : (sendAllTx wrappedSend nChange).vout.countP (fun txout => txout.nValue < CENT)
      = 0 := by
    rw [List.countP_eq_zero]
    intro txout htxout
    rcases List.mem_cons.mp htxout with rfl | htxout
    · simpa using h
    · obtain ⟨s, hs, rfl⟩ := List.mem_map.mp htxout
      rw [List.eq_of_mem_replicate hs]
      decide
  have hinfos : (sendAllTx wrappedSend nChange).countInfoTxs = 0 := rfl
  unfold requiredFee CTransaction.getMinFee CTransaction.getBaseFee
  rw [sendAllTx_wrappedSend_size, hdust, hinfos]
  decide +kernel

/-- The first round's fee is too low for the size, the second one's is enough. -/
theorem createTransaction_wrappedSend :
    purse.createTransaction changeChoices (sendAll wrappedSend)
      = some (sendAllTx wrappedSend (744073709551616 - 930000), 930000) := by
  have hall : (wrappedSend.all fun s => moneyRange s.2) = true := by
    rw [List.all_eq_true]
    intro s hs
    rw [List.eq_of_mem_replicate hs]
    decide
  have hround : ∀ r nFeeRet, MIN_TX_FEE ≤ nFeeRet → 0 < 744073709551616 - nFeeRet →
      purse.chooseCoins (changeChoices r) 0 (1255926290448384 + nFeeRet)
        = some ([purseCoin], 2000000000000000) →
      purse.createRound (changeChoices r) (sendAll wrappedSend) nFeeRet
        = some (sendAllTx wrappedSend (744073709551616 - nFeeRet), nFeeRet) := by
    intro r nFeeRet hfee hpos hcoins
    rw [← totalValue_wrappedSend] at hcoins
    refine createRound_sendAll hfee hpos ?_ hcoins ?_
    · rw [totalValue_wrappedSend]
      ring
    · rw [sendAllTx_wrappedSend_size]
      decide
  have htotal : moneyRange (totalValue (sendAll wrappedSend).vecSend) = true := by
    show moneyRange (totalValue wrappedSend) = true
    rw [totalValue_wrappedSend]
    decide
  unfold SpendingWallet.createTransaction
  rw [htotal, show ((sendAll wrappedSend).vecSend.all fun s => moneyRange s.2) = true from hall,
    if_neg (by decide), if_neg (by decide)]
  unfold SpendingWallet.createLoop
  rw [hround _ _ (by decide) (by decide) (by decide +kernel)]
  dsimp only
  rw [requiredFee_wrappedSend (by decide), if_pos (by decide)]
  apply SpendingWallet.createLoop_of_round
  · exact hround _ _ (by decide) (by decide) (by decide +kernel)
  · rw [requiredFee_wrappedSend (by decide)]

/-- The payees get more than the purse is worth. -/
theorem not_feesConserved_wrappedSend :
    ¬ ∀ (env : Env) (w : SpendingWallet env) (chs : Nat → RoundChoices) (request : PaymentRequest)
        (tx : CTransaction) (nFee : ℤ) (addressOf : Bytes → CBitcoinAddress) (g : KeyGen)
        (keypool : ℤ) (reservekey : Nat) (pools : Nat → KeyPool),
      (∀ r, w.PaysReserved addressOf g keypool reservekey (pools r) (chs r).scriptChange) →
      w.createTransaction chs request = some (tx, nFee) →
      (tx.vin.map CTxIn.prevout).Nodup →
      w.FeesConserved request.vecSend tx nFee := by
  intro h
  have hfees := h Env.plain purse changeChoices (sendAll wrappedSend) _ _ _ KeyPool.numbered 0 0
    (fun _ => lockedPool) (fun _ => paysReserved_lockedPool (fun _ => rfl) fun _ => rfl)
    createTransaction_wrappedSend (List.nodup_singleton _)
  have hconserved := hfees.conserved
  have hspent : purse.valueSpent (sendAllTx wrappedSend (744073709551616 - 930000)).vin
      = 2000000000000000 := by
    decide +kernel
  rw [hspent, sendAllTx_value, exactTotal_wrappedSend] at hconserved
  exact absurd hconserved (by decide)

end SpendingWallet

end ShinyCoin

import ShinyCoin.Wallet.Create
import Mathlib.Data.List.Forall2
import Mathlib.Data.List.Nodup

/-!
# When a created transaction is valid

A signature is for the transaction as it is when it is made, up to the scripts of the inputs. The
coins are signed for last, so their signatures always hold. The inputs with infos are signed before
the payees, the change and the coins are there: their signatures hold only if none of these follows.
And an address that infos are for twice gives the same output twice.
-/

namespace ShinyCoin

/-! ## What a signature commits to -/

/-- What `SignatureHash` hashes with `SIGHASH_ALL`, apart from the script of the output. -/
def CTransaction.blanked (tx : CTransaction) : CTransaction :=
  { tx with vin := tx.vin.map fun txin => { txin with scriptSig := [] } }

/-- Input `nIn` spends an output that `txFrom` has. -/
def CTransaction.SpendsFrom (env : Env) (tx : CTransaction) (nIn : Nat) (txFrom : CTransaction) :
    Prop :=
  ∃ txin, tx.vin[nIn]? = some txin ∧ txin.prevout.hash = env.getHash txFrom ∧
    txin.prevout.n < txFrom.vout.length

/-- A signature verifies for the transaction it was made for, and for none that differs in what it
commits to. -/
def SignsAll (env : Env)
    (signSignature : CTransaction → CTransaction → Nat → Option CScript) : Prop :=
  ∀ txFrom tx nIn scriptSig, tx.SpendsFrom env nIn txFrom →
    signSignature txFrom tx nIn = some scriptSig →
      ∀ (txTo : CTransaction) (txin : CTxIn), txTo.vin[nIn]? = some txin →
        txin.scriptSig = scriptSig →
          (env.verifySignature txFrom txTo nIn = true ↔ txTo.blanked = tx.blanked)

theorem getElem?_setScriptSig (tx : CTransaction) (nIn i : Nat) (scriptSig : CScript) :
    (tx.setScriptSig nIn scriptSig).vin[i]?
      = if nIn = i then tx.vin[i]?.map fun txin => { txin with scriptSig := scriptSig }
        else tx.vin[i]? := by
  simp only [CTransaction.setScriptSig, List.getElem?_modify]
  split <;> cases tx.vin[i]? <;> rfl

theorem blanked_setScriptSig (tx : CTransaction) (nIn : Nat) (scriptSig : CScript) :
    (tx.setScriptSig nIn scriptSig).blanked = tx.blanked := by
  have hvin : (tx.setScriptSig nIn scriptSig).blanked.vin = tx.blanked.vin := by
    apply List.ext_getElem?
    intro i
    simp only [CTransaction.blanked, List.getElem?_map, getElem?_setScriptSig]
    split <;> cases tx.vin[i]? <;> rfl
  exact congrArg (fun vin => { tx with vin := vin }) hvin

theorem prevouts_of_blanked {tx tx' : CTransaction} (h : tx.blanked = tx'.blanked) :
    tx.vin.map CTxIn.prevout = tx'.vin.map CTxIn.prevout := by
  have hvin := congrArg (fun t : CTransaction => t.vin.map CTxIn.prevout) h
  simpa [CTransaction.blanked, Function.comp_def] using hvin

theorem vout_of_blanked {tx tx' : CTransaction} (h : tx.blanked = tx'.blanked) :
    tx.vout = tx'.vout := by
  have hvout := congrArg (fun t : CTransaction => t.vout) h
  exact hvout

/-- The scripts change, and each new one signs for the transaction. -/
theorem signInputs_spec {signSignature : CTransaction → CTransaction → Nat → Option CScript}
    {vFrom : List CTransaction} {nIn : Nat} {tx tx' : CTransaction}
    (h : signInputs signSignature vFrom nIn tx = some tx') :
    tx'.blanked = tx.blanked ∧ (∀ i < nIn, tx'.vin[i]? = tx.vin[i]?) ∧
      ∀ j txFrom txin, vFrom[j]? = some txFrom → tx'.vin[nIn + j]? = some txin →
        ∃ t, signSignature txFrom t (nIn + j) = some txin.scriptSig ∧ t.blanked = tx.blanked := by
  induction vFrom generalizing nIn tx with
  | nil =>
      cases h
      exact ⟨rfl, fun _ _ => rfl, fun j txFrom txin hj => by cases hj⟩
  | cons txFrom vFrom ih =>
      unfold signInputs at h
      obtain ⟨scriptSig, hsign, h⟩ := Option.bind_eq_some_iff.mp h
      obtain ⟨hblank, hbefore, hsigned⟩ := ih h
      rw [blanked_setScriptSig] at hblank hsigned
      refine ⟨hblank, ?_, ?_⟩
      · intro i hi
        rw [hbefore i (Nat.lt_succ_of_lt hi), getElem?_setScriptSig, if_neg (Nat.ne_of_gt hi)]
      · intro j from' txin hfrom htxin
        cases j with
        | zero =>
            cases hfrom
            rw [Nat.add_zero, hbefore nIn (Nat.lt_succ_self nIn), getElem?_setScriptSig,
              if_pos rfl] at htxin
            obtain ⟨old, -, rfl⟩ := Option.map_eq_some_iff.mp htxin
            exact ⟨tx, hsign, rfl⟩
        | succ j =>
            rw [← Nat.add_assoc, Nat.add_right_comm] at htxin ⊢
            exact hsigned j from' txin hfrom htxin

/-! ## The inputs with infos -/

/-- What the outputs leave of a fee. -/
def feeLeft (coins : List Coin) (nFeeRet : ℤ) : ℤ :=
  coins.foldl (fun nFeeLeft c => (takeFee c.nValue nFeeLeft).2) nFeeRet

theorem takeFee_eq {nValue : ℤ} (h : 0 ≤ nValue) (nFeeLeft : ℤ) :
    (takeFee nValue nFeeLeft).2 = max 0 (nFeeLeft - nValue) := by
  unfold takeFee
  split_ifs <;> simp only <;> omega

/-- A smaller fee leaves no more. -/
theorem feeLeft_le {coins : List Coin} (hpos : ∀ c ∈ coins, 0 ≤ c.nValue) {nFeeRet nFeeRet' : ℤ}
    (h : nFeeRet ≤ nFeeRet') : feeLeft coins nFeeRet ≤ feeLeft coins nFeeRet' := by
  induction coins generalizing nFeeRet nFeeRet' with
  | nil => exact h
  | cons c coins ih =>
      apply ih (fun d hd => hpos d (List.mem_cons_of_mem c hd))
      dsimp only
      rw [takeFee_eq (hpos c List.mem_cons_self), takeFee_eq (hpos c List.mem_cons_self)]
      omega

theorem feeLeft_nonneg {coins : List Coin} (hpos : ∀ c ∈ coins, 0 ≤ c.nValue) {nFeeRet : ℤ}
    (h : 0 ≤ nFeeRet ∨ coins ≠ []) : 0 ≤ feeLeft coins nFeeRet := by
  induction coins generalizing nFeeRet with
  | nil => exact h.resolve_right (fun hne => hne rfl)
  | cons c coins ih =>
      apply ih (fun d hd => hpos d (List.mem_cons_of_mem c hd))
      dsimp only
      rw [takeFee_eq (hpos c List.mem_cons_self)]
      exact .inl (le_max_left _ _)

namespace SpendingWallet

variable {env : Env} {w : SpendingWallet env} {ch : RoundChoices} {request : PaymentRequest}
  {nTime : Nat} {addr addr' : CBitcoinAddress} {c c' : Coin} {coins : List Coin}
  {tx tx₀ : CTransaction} {nFeeRet nFeeLeft nFee : ℤ}

/-- The output that infos are attached to: the wallet's own, paying to the address. -/
theorem infoOutput_ok (h : w.infoOutput nTime addr = some c) :
    c.In w ∧ 0 ≤ c.nValue ∧
      ∃ txout, c.wtx.tx.vout[c.n]? = some txout ∧
        env.extractAddress txout.scriptPubKey = some addr := by
  obtain ⟨x, hx, hc⟩ := List.exists_of_findSome?_eq_some h
  have hin : w.mapWallet[x.1]? = some x.2 := Std.ExtTreeMap.mem_toList_iff_getElem?_eq_some.mp hx
  unfold infoOutputOf at hc
  split at hc
  · cases hc
  · obtain ⟨i, hi, rfl⟩ := Option.map_eq_some_iff.mp hc
    have hpays := List.find?_some hi
    have hlt := List.mem_range.mp (List.mem_of_find?_eq_some hi)
    unfold paysTo at hpays
    rw [List.getElem?_eq_getElem hlt] at hpays
    refine ⟨⟨hin, hlt⟩, ?_, x.2.tx.vout[i], List.getElem?_eq_getElem hlt, ?_⟩
    · rw [List.getElem?_eq_getElem hlt]
      exact w.nValue_nonneg _ _ hin _ (List.getElem_mem hlt)
    · grind

/-- Two addresses never get the same output. -/
theorem infoOutput_inj (h : w.infoOutput nTime addr = some c)
    (h' : w.infoOutput nTime addr' = some c') (hkey : c.key = c'.key) : addr = addr' := by
  obtain ⟨hin, -, txout, hout, haddr⟩ := infoOutput_ok h
  obtain ⟨hin', -, txout', hout', haddr'⟩ := infoOutput_ok h'
  obtain ⟨hhash, hn⟩ := Prod.mk.inj hkey
  have hwtx : c.wtx = c'.wtx := by
    have := hin.1
    rw [hhash, hin'.1] at this
    exact (Option.some.inj this).symm
  rw [hwtx, hn, hout'] at hout
  rw [← Option.some.inj hout, haddr'] at haddr
  exact (Option.some.inj haddr).symm

/-- The draft is made of one output for each address, in their order. -/
theorem addInfoInputs_ok {vecTxInfos : List (CBitcoinAddress × List CTxInfo)} {draft : InfoDraft}
    (h : w.addInfoInputs nTime vecTxInfos nFeeRet = some draft) :
    ∃ coins, List.Forall₂ (fun x c => w.infoOutput nTime x.1 = some c) vecTxInfos coins ∧
      draft.vin.map CTxIn.prevout = coins.map (fun c => ⟨c.hash, c.n⟩) ∧
      draft.vecInfoTxFrom = coins.map (fun c => c.wtx.tx) ∧
      draft.nFeeLeft = feeLeft coins nFeeRet := by
  have hloop : ∀ (vecTxInfos : List (CBitcoinAddress × List CTxInfo)) (st : InfoDraft),
      vecTxInfos.foldlM (w.addInfoInput nTime) st = some draft →
      ∃ coins, List.Forall₂ (fun x c => w.infoOutput nTime x.1 = some c) vecTxInfos coins ∧
        draft.vin.map CTxIn.prevout
          = st.vin.map CTxIn.prevout ++ coins.map (fun c => ⟨c.hash, c.n⟩) ∧
        draft.vecInfoTxFrom = st.vecInfoTxFrom ++ coins.map (fun c => c.wtx.tx) ∧
        draft.nFeeLeft = feeLeft coins st.nFeeLeft := by
    intro vecTxInfos
    induction vecTxInfos with
    | nil =>
        intro st hst
        cases hst
        exact ⟨[], .nil, by simp, by simp, rfl⟩
    | cons x vecTxInfos ih =>
        intro st hst
        rw [List.foldlM_cons] at hst
        obtain ⟨st₁, h₁, hst⟩ := Option.bind_eq_some_iff.mp hst
        unfold addInfoInput at h₁
        split at h₁
        · cases h₁
        · obtain ⟨c, hc, rfl⟩ := Option.map_eq_some_iff.mp h₁
          obtain ⟨coins, hcoins, hvin, hfrom, hfee⟩ := ih _ hst
          exact ⟨c :: coins, .cons hc hcoins, by simpa using hvin, by simpa using hfrom, hfee⟩
  obtain ⟨coins, hcoins, hvin, hfrom, hfee⟩ := hloop vecTxInfos _ h
  exact ⟨coins, hcoins, by simpa using hvin, by simpa using hfrom, hfee⟩

/-! ## Signatures of what is in the wallet -/

theorem spendsFrom_of_prevouts {nIn : Nat} (hin : ∀ c ∈ coins, c.In w)
    (hvin : tx.vin.map CTxIn.prevout = coins.map fun c => ⟨c.hash, c.n⟩)
    (hc : coins[nIn]? = some c) : tx.SpendsFrom env nIn c.wtx.tx := by
  have hprevout : (tx.vin.map CTxIn.prevout)[nIn]? = some ⟨c.hash, c.n⟩ := by
    rw [hvin, List.getElem?_map, hc]
    rfl
  rw [List.getElem?_map] at hprevout
  obtain ⟨txin, htxin, heq⟩ := Option.map_eq_some_iff.mp hprevout
  obtain ⟨hwtx, hn⟩ := hin c (List.mem_of_getElem? hc)
  refine ⟨txin, htxin, ?_, ?_⟩
  · rw [heq]
    exact (w.keyed _ _ hwtx).symm
  · rw [heq]
    exact hn

/-- The signature of an input was made for the transaction as it was then. -/
theorem verifies_iff (hsign : SignsAll env ch.signSignature) (hin : ∀ c ∈ coins, c.In w)
    (hvin : tx₀.vin.map CTxIn.prevout = coins.map fun c => ⟨c.hash, c.n⟩)
    (h : signInputs ch.signSignature (coins.map fun c => c.wtx.tx) 0 tx₀ = some tx)
    {nIn : Nat} {txin : CTxIn} (hc : coins[nIn]? = some c) (htxin : tx.vin[nIn]? = some txin)
    {txTo : CTransaction} (hto : txTo.vin[nIn]? = some txin) :
    env.verifySignature c.wtx.tx txTo nIn = true ↔ txTo.blanked = tx₀.blanked := by
  obtain ⟨-, -, hsigned⟩ := signInputs_spec h
  have hfrom : (coins.map fun c => c.wtx.tx)[nIn]? = some c.wtx.tx := by
    rw [List.getElem?_map, hc]
    rfl
  rw [← Nat.zero_add nIn] at htxin
  obtain ⟨t, hsig, hblank⟩ := hsigned nIn _ txin hfrom htxin
  rw [Nat.zero_add] at hsig
  have hspends : t.SpendsFrom env nIn c.wtx.tx := by
    apply spendsFrom_of_prevouts hin _ hc
    rw [prevouts_of_blanked hblank, hvin]
  rw [← hblank]
  exact hsign _ t nIn _ hspends hsig txTo txin hto rfl

/-- What `CheckTransaction` and `VerifySignature` ask of the inputs of a transaction. -/
structure ValidTx (w : SpendingWallet env) (tx : CTransaction) : Prop where
  distinct : (tx.vin.map CTxIn.prevout).Nodup
  verifies : ∀ (nIn : Nat) (txin : CTxIn), tx.vin[nIn]? = some txin →
    ∃ wtx, w.mapWallet[txin.prevout.hash]? = some wtx ∧
      env.verifySignature wtx.tx tx nIn = true

/-- A transaction is valid as it was signed. -/
theorem validTx_of_signInputs (hsign : SignsAll env ch.signSignature) (hin : ∀ c ∈ coins, c.In w)
    (hvin : tx₀.vin.map CTxIn.prevout = coins.map fun c => ⟨c.hash, c.n⟩)
    (hnodup : (coins.map fun c => (⟨c.hash, c.n⟩ : COutPoint)).Nodup)
    (h : signInputs ch.signSignature (coins.map fun c => c.wtx.tx) 0 tx₀ = some tx) :
    w.ValidTx tx := by
  obtain ⟨hblank, -, -⟩ := signInputs_spec h
  have hprevouts := (prevouts_of_blanked hblank).trans hvin
  refine ⟨hprevouts ▸ hnodup, ?_⟩
  intro nIn txin htxin
  have hcoin : (coins.map fun c => (⟨c.hash, c.n⟩ : COutPoint))[nIn]? = some txin.prevout := by
    rw [← hprevouts, List.getElem?_map, htxin]
    rfl
  rw [List.getElem?_map] at hcoin
  obtain ⟨c, hc, heq⟩ := Option.map_eq_some_iff.mp hcoin
  refine ⟨c.wtx, ?_, (verifies_iff hsign hin hvin h hc htxin htxin).mpr hblank⟩
  rw [← heq]
  exact (hin c (List.mem_of_getElem? hc)).1

/-! ## A round -/

/-- The outputs that the infos are attached to. -/
def InfoCoins (w : SpendingWallet env) (request : PaymentRequest) (coins : List Coin) : Prop :=
  List.Forall₂ (fun x c => w.infoOutput request.wtxNew.nTime x.1 = some c) request.vecTxInfos coins

theorem InfoCoins.unique {coins' : List Coin} (h : w.InfoCoins request coins)
    (h' : w.InfoCoins request coins') : coins = coins' := by
  apply List.right_unique_forall₂' _ h h'
  intro x c c' hc hc'
  rw [hc] at hc'
  exact Option.some.inj hc'

theorem InfoCoins.mem (h : w.InfoCoins request coins) (hc : c ∈ coins) :
    c.In w ∧ 0 ≤ c.nValue := by
  unfold InfoCoins at h
  generalize request.vecTxInfos = vecTxInfos at h
  induction h with
  | nil => cases hc
  | cons hhead _ ih =>
      rcases List.mem_cons.mp hc with rfl | hc
      · obtain ⟨hin, hnonneg, -⟩ := infoOutput_ok hhead
        exact ⟨hin, hnonneg⟩
      · exact ih hc

/-- The outputs are distinct where the addresses are. -/
theorem InfoCoins.nodup_iff (h : w.InfoCoins request coins) :
    (coins.map fun c => (⟨c.hash, c.n⟩ : COutPoint)).Nodup
      ↔ (request.vecTxInfos.map Prod.fst).Nodup := by
  have hrel : List.Forall₂ (fun (p : COutPoint) addr =>
      ∃ c, w.infoOutput request.wtxNew.nTime addr = some c ∧ p = ⟨c.hash, c.n⟩)
      (coins.map fun c => ⟨c.hash, c.n⟩) (request.vecTxInfos.map Prod.fst) := by
    rw [List.forall₂_map_left_iff, List.forall₂_map_right_iff]
    exact (List.Forall₂.flip h).imp fun c x hc => ⟨c, hc, rfl⟩
  apply List.rel_nodup _ hrel
  constructor
  · rintro p addr p' ⟨c, hc, rfl⟩ ⟨c', hc', rfl⟩
    rw [hc] at hc'
    rw [Option.some.inj hc']
  · rintro p addr addr' ⟨c, hc, rfl⟩ ⟨c', hc', heq⟩
    apply infoOutput_inj hc hc'
    obtain ⟨hhash, hn⟩ := COutPoint.mk.inj heq
    exact Prod.ext hhash hn

/-- The transaction that has the inputs with infos only. -/
theorem signedInfos_spec (h : w.signedInfos ch request nFeeRet = some (tx, nFeeLeft)) :
    ∃ coins tx₀, w.InfoCoins request coins ∧ nFeeLeft = feeLeft coins nFeeRet ∧
      tx₀.vin.map CTxIn.prevout = coins.map (fun c => ⟨c.hash, c.n⟩) ∧
      signInputs ch.signSignature (coins.map fun c => c.wtx.tx) 0 tx₀ = some tx := by
  obtain ⟨draft, hdraft, h⟩ := Option.bind_eq_some_iff.mp h
  obtain ⟨tx', hsigned, heq⟩ := Option.map_eq_some_iff.mp h
  obtain ⟨rfl, rfl⟩ := Prod.mk.inj heq
  obtain ⟨coins, hcoins, hvin, hfrom, hfee⟩ := addInfoInputs_ok hdraft
  rw [hfrom] at hsigned
  exact ⟨coins, _, hcoins, hfee, hvin, hsigned⟩

/-- With neither payees nor a fee left, a round adds nothing to the inputs with infos. -/
theorem createRound_of_signedInfos (hsend : request.vecSend = [])
    (h : w.signedInfos ch request nFeeRet = some (tx, 0)) :
    w.createRound ch request nFeeRet
      = if MAX_BLOCK_SIZE_GEN / 5 ≤ tx.getSerializeSize then none else some (tx, nFeeRet) := by
  unfold createRound
  rw [h, hsend]
  simp [totalValue, chooseCoins, moveToFee, payOut, insertChange, signInputs]

theorem signedInfos_of_no_infos (hinfos : request.vecTxInfos = []) :
    w.signedInfos ch request nFeeRet
      = some ({ request.wtxNew with vin := [], vout := [] }, nFeeRet) := by
  unfold signedInfos addInfoInputs
  rw [hinfos]
  rfl

/-- A round without infos signs for everything in the end. -/
theorem createRound_valid_of_no_infos (hsign : SignsAll env ch.signSignature)
    (hinfos : request.vecTxInfos = [])
    (h : w.createRound ch request nFeeRet = some (tx, nFee)) : w.ValidTx tx := by
  unfold createRound at h
  obtain ⟨⟨tx₁, nFeeLeft⟩, hdraft, h⟩ := Option.bind_eq_some_iff.mp h
  obtain ⟨⟨setCoins, nValueIn⟩, hcoins, h⟩ := Option.bind_eq_some_iff.mp h
  obtain ⟨tx₂, hsigned, h⟩ := Option.bind_eq_some_iff.mp h
  split at h
  · cases h
  · cases h
    rw [signedInfos_of_no_infos hinfos] at hdraft
    cases hdraft
    rw [hinfos] at hsigned
    have hselected : (∀ c ∈ setCoins, c.In w) ∧ (setCoins.map (Coin.prevout env)).Nodup := by
      unfold chooseCoins at hcoins
      split at hcoins
      · next hpos => exact (selectCoins_spec hpos hcoins).2
      · cases hcoins
        exact ⟨fun c hc => absurd hc List.not_mem_nil, List.nodup_nil⟩
    obtain ⟨hin, hnodup⟩ := hselected
    have hprevout : setCoins.map (Coin.prevout env) = setCoins.map fun c => ⟨c.hash, c.n⟩ := by
      apply List.map_congr_left
      intro c hc
      show (⟨env.getHash c.wtx.tx, c.n⟩ : COutPoint) = ⟨c.hash, c.n⟩
      rw [w.keyed _ _ (hin c hc).1]
    refine validTx_of_signInputs hsign hin ?_ (hprevout ▸ hnodup) hsigned
    rw [← hprevout]
    simp [payOut, Function.comp_def]

/-- A valid transaction with infos is as it was when its first input was signed. -/
theorem signedInfos_of_validTx (hsign : SignsAll env ch.signSignature)
    (hinfos : request.vecTxInfos ≠ [])
    (h : w.createRound ch request nFeeRet = some (tx, nFee)) (hvalid : w.ValidTx tx) :
    request.vecSend = [] ∧ (request.vecTxInfos.map Prod.fst).Nodup ∧
      w.signedInfos ch request nFeeRet = some (tx, 0) := by
  have hround := h
  unfold createRound at h
  obtain ⟨⟨tx₁, nFeeLeft⟩, hinfo, h⟩ := Option.bind_eq_some_iff.mp h
  obtain ⟨⟨setCoins, nValueIn⟩, hcoins, h⟩ := Option.bind_eq_some_iff.mp h
  obtain ⟨tx₂, hsigned, h⟩ := Option.bind_eq_some_iff.mp h
  split at h
  · cases h
  · cases h
    obtain ⟨coins, tx₀, hinfoCoins, hleft, hvin, hfirst⟩ := signedInfos_spec hinfo
    obtain ⟨hblank₁, -, -⟩ := signInputs_spec hfirst
    obtain ⟨hblank, hbefore, -⟩ := signInputs_spec hsigned
    have hlen := hinfoCoins.length_eq
    have hpos : 0 < request.vecTxInfos.length := List.length_pos_iff.mpr hinfos
    have hvin₁ := (prevouts_of_blanked hblank₁).trans hvin
    have hlen₁ : tx₁.vin.length = coins.length := by
      simpa using congrArg List.length hvin₁
    -- the first input is one with infos, and no later step touches it
    obtain ⟨txin, htxin⟩ : ∃ txin, tx₁.vin[0]? = some txin :=
      ⟨_, List.getElem?_eq_getElem (by omega)⟩
    have hfinal : tx.vin[0]? = some txin := by
      rw [hbefore 0 hpos]
      simp only [payOut]
      rw [List.getElem?_append_left (by omega), htxin]
    obtain ⟨c, hc⟩ : ∃ c, coins[0]? = some c := ⟨_, List.getElem?_eq_getElem (by omega)⟩
    have hcin := hinfoCoins.mem (List.mem_of_getElem? hc)
    have hprevout : txin.prevout = ⟨c.hash, c.n⟩ := by
      have hfst := congrArg (fun l => l[0]?) hvin₁
      rw [List.getElem?_map, List.getElem?_map, htxin, hc] at hfst
      exact Option.some.inj hfst
    obtain ⟨wtx, hwtx, hverify⟩ := hvalid.verifies 0 txin hfinal
    rw [hprevout, hcin.1.1] at hwtx
    cases hwtx
    have hsame := (verifies_iff hsign (fun c hc => (hinfoCoins.mem hc).1) hvin hfirst hc htxin
      hfinal).mp hverify
    rw [hblank, ← hblank₁] at hsame
    -- so neither outputs nor inputs were added to it
    have hnoCoins : setCoins = [] := by
      have := congrArg List.length (prevouts_of_blanked hsame)
      simpa [payOut] using this
    have hnoSend : request.vecSend = [] := by
      have hout := congrArg List.length (vout_of_blanked hsame)
      simp only [payOut, insertChange] at hout
      split at hout
      · rw [List.length_insertIdx] at hout
        split at hout <;> simp at hout <;> omega
      · simpa using hout
    have hleft₀ : nFeeLeft = 0 := by
      have hnonneg : 0 ≤ nFeeLeft := by
        rw [hleft]
        apply feeLeft_nonneg (fun c hc => (hinfoCoins.mem hc).2)
        right
        intro hnil
        rw [hnil] at hc
        cases hc
      by_contra hne
      unfold chooseCoins at hcoins
      rw [hnoSend, if_pos (by simp [totalValue]; omega)] at hcoins
      exact (selectCoins_spec (by simp [totalValue]; omega) hcoins).1 hnoCoins
    refine ⟨hnoSend, ?_, ?_⟩
    · rw [← hinfoCoins.nodup_iff, ← hvin₁, ← prevouts_of_blanked (hblank.trans hsame)]
      exact hvalid.distinct
    · rw [hleft₀] at hinfo
      rw [createRound_of_signedInfos hnoSend hinfo] at hround
      split at hround
      · cases hround
      · obtain ⟨rfl, -⟩ := Prod.mk.inj (Option.some.inj hround)
        exact hinfo

/-! ## The fee loop -/

/-- From some round on, at some fee, the infos' outputs pay the fee of the transaction that is made
of them alone. -/
inductive InfosPay (w : SpendingWallet env) (chs : Nat → RoundChoices) (request : PaymentRequest) :
    Nat → ℤ → Prop
  | enough {round : Nat} {nFeeRet : ℤ} {tx : CTransaction} :
      w.signedInfos (chs round) request nFeeRet = some (tx, 0) → w.requiredFee tx ≤ nFeeRet →
        InfosPay w chs request round nFeeRet
  | more {round : Nat} {nFeeRet : ℤ} {tx : CTransaction} :
      w.signedInfos (chs round) request nFeeRet = some (tx, 0) → nFeeRet < w.requiredFee tx →
        InfosPay w chs request (round + 1) (w.requiredFee tx) →
          InfosPay w chs request round nFeeRet

variable {chs : Nat → RoundChoices} {round : Nat}

theorem InfosPay.signedInfos (h : w.InfosPay chs request round nFeeRet) :
    ∃ tx, w.signedInfos (chs round) request nFeeRet = some (tx, 0) := by
  cases h with
  | enough h _ => exact ⟨_, h⟩
  | more h _ _ => exact ⟨_, h⟩

/-- What pays a fee in full pays a smaller one in full. -/
theorem signedInfos_zero_of_le {ch' : RoundChoices} {nFeeRet' : ℤ} {tx' : CTransaction}
    (hinfos : request.vecTxInfos ≠ []) (hle : nFeeRet ≤ nFeeRet')
    (h' : w.signedInfos ch' request nFeeRet' = some (tx', 0))
    (h : w.signedInfos ch request nFeeRet = some (tx, nFeeLeft)) : nFeeLeft = 0 := by
  obtain ⟨coins, -, hcoins, hleft, -, -⟩ := signedInfos_spec h
  obtain ⟨coins', -, hcoins', hleft', -, -⟩ := signedInfos_spec h'
  rw [← hcoins.unique hcoins'] at hleft'
  have hpos : ∀ c ∈ coins, 0 ≤ c.nValue := fun c hc => (hcoins.mem hc).2
  have hmono := feeLeft_le hpos hle
  have hne : coins ≠ [] := by
    rintro rfl
    exact hinfos (List.forall₂_nil_right_iff.mp hcoins)
  have hnonneg : 0 ≤ feeLeft coins nFeeRet := feeLeft_nonneg hpos (.inr hne)
  omega

/-- The round whose fee is enough is the last one. -/
theorem createLoop_of_round (h : w.createRound (chs round) request nFeeRet = some (tx, nFee))
    (hfee : w.requiredFee tx ≤ nFee) :
    w.createLoop chs request round nFeeRet = some (tx, nFee) := by
  unfold createLoop
  rw [h]
  exact if_neg (not_lt.mpr hfee)

theorem createLoop_of_infosPay (hsend : request.vecSend = [])
    (h : w.InfosPay chs request round nFeeRet) :
    w.createLoop chs request round nFeeRet = some (tx, nFee) →
      ∃ ch nFeeRet', w.signedInfos ch request nFeeRet' = some (tx, 0) ∧
        ∃ r, ch = chs r := by
  induction h with
  | @enough round nFeeRet tx₁ hsigned hpays =>
      intro hloop
      unfold createLoop at hloop
      rw [createRound_of_signedInfos hsend hsigned] at hloop
      split at hloop
      · cases hloop
      · next heq =>
        split at heq
        · cases heq
        · cases heq
          rw [if_neg (not_lt.mpr hpays)] at hloop
          cases hloop
          exact ⟨_, _, hsigned, _, rfl⟩
  | @more round nFeeRet tx₁ hsigned hless _ ih =>
      intro hloop
      unfold createLoop at hloop
      rw [createRound_of_signedInfos hsend hsigned] at hloop
      split at hloop
      · cases hloop
      · next heq =>
        split at heq
        · cases heq
        · cases heq
          rw [if_pos hless] at hloop
          exact ih hloop

/-- A valid result with infos goes back through all the rounds. -/
theorem infosPay_of_validTx (hsign : ∀ r, SignsAll env (chs r).signSignature)
    (hinfos : request.vecTxInfos ≠ [])
    (h : w.createLoop chs request round nFeeRet = some (tx, nFee)) (hvalid : w.ValidTx tx) :
    request.vecSend = [] ∧ (request.vecTxInfos.map Prod.fst).Nodup ∧
      w.InfosPay chs request round nFeeRet := by
  induction round, nFeeRet using createLoop.induct w chs request with
  | case1 round nFeeRet hround =>
      unfold createLoop at h
      rw [hround] at h
      cases h
  | case2 round nFeeRet tx₁ nFee₁ hround hless ih =>
      unfold createLoop at h
      rw [hround] at h
      dsimp only at h
      rw [if_pos hless] at h
      obtain ⟨hsend, hnodup, hpay⟩ := ih h
      obtain ⟨tx', htx'⟩ := hpay.signedInfos
      obtain ⟨⟨tx₂, nFeeLeft⟩, hsigned, -⟩ : ∃ p, w.signedInfos (chs round) request nFeeRet = some p ∧
          _ := Option.bind_eq_some_iff.mp hround
      have hfee := (createRound_size hround).2
      cases signedInfos_zero_of_le hinfos (by omega) htx' hsigned
      rw [createRound_of_signedInfos hsend hsigned] at hround
      split at hround
      · cases hround
      · cases hround
        exact ⟨hsend, hnodup, .more hsigned hless hpay⟩
  | case3 round nFeeRet tx₁ nFee₁ hround hpays =>
      unfold createLoop at h
      rw [hround] at h
      dsimp only at h
      rw [if_neg hpays] at h
      cases h
      obtain ⟨hsend, hnodup, hsigned⟩ := signedInfos_of_validTx (hsign round) hinfos hround hvalid
      rw [createRound_of_signedInfos hsend hsigned] at hround
      split at hround
      · cases hround
      · cases hround
        exact ⟨hsend, hnodup, .enough hsigned (not_lt.mp hpays)⟩

theorem createLoop_valid_of_no_infos (hsign : ∀ r, SignsAll env (chs r).signSignature)
    (hinfos : request.vecTxInfos = [])
    (h : w.createLoop chs request round nFeeRet = some (tx, nFee)) : w.ValidTx tx := by
  induction round, nFeeRet using createLoop.induct w chs request with
  | case1 round nFeeRet hround =>
      unfold createLoop at h
      rw [hround] at h
      cases h
  | case2 round nFeeRet tx₁ nFee₁ hround hless ih =>
      unfold createLoop at h
      rw [hround] at h
      dsimp only at h
      rw [if_pos hless] at h
      exact ih h
  | case3 round nFeeRet tx₁ nFee₁ hround hpays =>
      unfold createLoop at h
      rw [hround] at h
      dsimp only at h
      rw [if_neg hpays] at h
      cases h
      exact createRound_valid_of_no_infos (hsign round) hinfos hround

/-- What `CreateTransaction` makes is valid without infos, and with infos exactly where they are all
it is asked for, no address has them twice, and the outputs they are attached to pay the fee. -/
theorem createTransaction_valid_iff (hsign : ∀ r, SignsAll env (chs r).signSignature)
    (h : w.createTransaction chs request = some (tx, nFee)) :
    w.ValidTx tx ↔ request.vecTxInfos = [] ∨
      (request.vecSend = [] ∧ (request.vecTxInfos.map Prod.fst).Nodup ∧
        w.InfosPay chs request 0 w.nTransactionFee) := by
  unfold createTransaction at h
  split at h
  · cases h
  · split at h
    · cases h
    · constructor
      · intro hvalid
        by_cases hinfos : request.vecTxInfos = []
        · exact .inl hinfos
        · exact .inr (infosPay_of_validTx hsign hinfos h hvalid)
      · rintro (hinfos | ⟨hsend, hnodup, hpay⟩)
        · exact createLoop_valid_of_no_infos hsign hinfos h
        · obtain ⟨ch, nFeeRet, hsigned, r, rfl⟩ := createLoop_of_infosPay hsend hpay h
          obtain ⟨coins, tx₀, hcoins, -, hvin, hfirst⟩ := signedInfos_spec hsigned
          exact validTx_of_signInputs (hsign r) (fun c hc => (hcoins.mem hc).1) hvin
            (hcoins.nodup_iff.mpr hnodup) hfirst

end SpendingWallet

/-! ## Two outputs of one wallet -/

/-- Signatures by a table of the transactions there are signatures for: one that is as long as the
number of its transaction. -/
def Env.signedTable (table : List CTransaction) : Env :=
  { Env.plain with
    verifySignature := fun _ txTo nIn =>
      match txTo.vin[nIn]? with
      | none => false
      | some txin => decide (table[txin.scriptSig.length]? = some txTo.blanked) }

def signByTable (table : List CTransaction) (_ tx : CTransaction) (_ : Nat) : Option CScript :=
  (table.findIdx? (· = tx.blanked)).map fun k => List.replicate k 0

theorem signsAll_signByTable (table : List CTransaction) :
    SignsAll (Env.signedTable table) (signByTable table) := by
  intro txFrom tx nIn scriptSig _ hsign txTo txin htxin hscript
  obtain ⟨k, hk, rfl⟩ := Option.map_eq_some_iff.mp hsign
  obtain ⟨hlt, hfound, -⟩ := List.findIdx?_eq_some_iff_getElem.mp hk
  have htable : table[k] = tx.blanked := of_decide_eq_true hfound
  simp only [Env.signedTable, htxin, hscript, List.length_replicate, decide_eq_true_eq,
    List.getElem?_eq_getElem hlt, htable, Option.some.injEq]
  exact eq_comm

/-- An address whose output is worth less than the fee, and one with more. -/
def pennyScript : CScript := [1]
def purseScript : CScript := [2]

def pennyTx : CTransaction :=
  { vin := [], vout := [{ nValue := 4000, scriptPubKey := pennyScript }] }

def purseTx : CTransaction :=
  { nTime := 1, vin := [], vout := [{ nValue := COIN, scriptPubKey := purseScript }] }

def newInfos : List CTxInfo := [⟨⟨INFO_NORMAL, [65]⟩, [66]⟩]

/-- The transactions the wallet signs below: for the infos of either address alone, and with a coin
and change next to those of the first. -/
def signedTxs : List CTransaction :=
  [{ nTime := 5, vin := [{ prevout := ⟨1, 0⟩, infos := newInfos }], vout := [] },
    { nTime := 5
      vin := [{ prevout := ⟨1, 0⟩, infos := newInfos }, { prevout := ⟨2, 0⟩ }]
      vout := [{ nValue := COIN - 6000, scriptPubKey := [3] }] },
    { nTime := 5
      vin := [{ prevout := ⟨2, 0⟩, infos := newInfos }]
      vout := [{ nValue := COIN - CENT, scriptPubKey := purseScript }] }]

def purseWallet : SpendingWallet (Env.signedTable signedTxs) where
  mapWallet := ((∅ : Std.ExtTreeMap Uint256 CWalletTx compare).insert 1 { tx := pennyTx }).insert 2
    { tx := purseTx }
  isMine _ := true
  haveKey _ := true
  setBitcoinAddress addr := addr.vchData
  isFinal _ := true
  isConfirmed _ := true
  isFromMe _ := false
  getDepthInMainChain _ := 6
  getBlocksToMaturity _ := 0
  nTransactionFee := CENT
  address hash := hash
  keyed := by
    intro hash wtx h
    rw [Lib.getElem?_insert, Lib.getElem?_insert, Std.ExtTreeMap.getElem?_empty] at h
    split_ifs at h <;> cases h <;> subst hash <;> rfl
  nValue_nonneg := by
    intro hash wtx h
    rw [Lib.getElem?_insert, Lib.getElem?_insert, Std.ExtTreeMap.getElem?_empty] at h
    split_ifs at h <;> cases h <;> decide

def purseChoices (_ : Nat) : RoundChoices where
  select _ := { shuffle := id, shuffle_perm := fun _ => .refl _, flip := fun _ _ => false }
  nChangePos := 0
  scriptChange := [3]
  signSignature := signByTable signedTxs

/-- Infos for one address, as `settxinfo` asks for them. -/
def infosFor (script : CScript) : PaymentRequest where
  vecSend := []
  vecTxInfos := [(⟨63, script⟩, newInfos)]
  wtxNew := { nTime := 5, vin := [], vout := [] }

/-- The purse pays the fee of its own infos. -/
def purseInfos : CTransaction :=
  { nTime := 5
    vin := [{ prevout := ⟨2, 0⟩, infos := newInfos, scriptSig := [0, 0] }]
    vout := [{ nValue := COIN - CENT, scriptPubKey := purseScript }] }

/-- The penny does not; the purse is added when the infos are signed already. -/
def pennyInfos : CTransaction :=
  { nTime := 5
    vin := [{ prevout := ⟨1, 0⟩, infos := newInfos, scriptSig := [] },
      { prevout := ⟨2, 0⟩, scriptSig := [0] }]
    vout := [{ nValue := COIN - 6000, scriptPubKey := [3] }] }

theorem signedInfos_purse :
    purseWallet.signedInfos (purseChoices 0) (infosFor purseScript) CENT = some (purseInfos, 0) := by
  decide +kernel

theorem createTransaction_purse :
    purseWallet.createTransaction purseChoices (infosFor purseScript) = some (purseInfos, CENT) := by
  unfold SpendingWallet.createTransaction
  rw [if_neg (by decide), if_neg (by decide)]
  apply SpendingWallet.createLoop_of_round
  · decide +kernel
  · decide

theorem createTransaction_penny :
    purseWallet.createTransaction purseChoices (infosFor pennyScript) = some (pennyInfos, CENT) := by
  unfold SpendingWallet.createTransaction
  rw [if_neg (by decide), if_neg (by decide)]
  apply SpendingWallet.createLoop_of_round
  · decide +kernel
  · decide

theorem createTransaction_valid_purse : purseWallet.ValidTx purseInfos :=
  (SpendingWallet.createTransaction_valid_iff (fun _ => signsAll_signByTable signedTxs)
    createTransaction_purse).mpr
      (.inr ⟨rfl, by decide, .enough signedInfos_purse (by decide)⟩)

/-- The signature of the infos is not one for the transaction with the coin. -/
theorem not_createTransaction_valid :
    (∀ r, SignsAll (Env.signedTable signedTxs) (purseChoices r).signSignature) ∧
      purseWallet.createTransaction purseChoices (infosFor pennyScript) = some (pennyInfos, CENT) ∧
      ¬ purseWallet.ValidTx pennyInfos := by
  refine ⟨fun _ => signsAll_signByTable signedTxs, createTransaction_penny, ?_⟩
  intro hvalid
  obtain ⟨wtx, -, hverify⟩ := hvalid.verifies 0 _ rfl
  have hnot : (Env.signedTable signedTxs).verifySignature pennyTx pennyInfos 0 = false := by decide
  rw [show (Env.signedTable signedTxs).verifySignature wtx.tx pennyInfos 0 = false from hnot]
    at hverify
  cases hverify

end ShinyCoin

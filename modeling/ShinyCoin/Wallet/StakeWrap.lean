import ShinyCoin.Chain.Amounts
import ShinyCoin.Wallet.StakeValid

/-!
# A coin that is newer than the coinstake

The age of a coin that is added is compared on 32 bits. Once the sum wraps, a coin passes that is
newer than the coinstake, whose time has been moved back to the kernel's. There is a wallet with such a
coin for all times of the coinstake, of the kernel and of the coin that a wallet can have then.
-/

namespace ShinyCoin

/-! ## The times -/

section

variable {env : Env} {w : SpendingWallet env} {files : Files} {s : NodeState} {request : StakeRequest}
  {ch : StakeChoices} {c d : Coin} {n : Nat}

/-- The coin is of the seconds between the kernel and the time that `CreateCoinStake` was called with,
and its time and the largest age of a stake wrap. -/
theorem NewerCoin.times (h : NewerCoin w files s request ch c d n)
    (hT : request.txNew.nTime < 2 ^ 32) :
    uint32 (request.txNew.nTime - n) < d.wtx.tx.nTime ∧ d.wtx.tx.nTime ≤ request.txNew.nTime ∧
      request.txNew.nTime < uint32 (request.txNew.nTime - n) + 60 ∧
      2 ^ 32 ≤ d.wtx.tx.nTime + STAKE_MAX_AGE := by
  have hage : STAKE_MAX_AGE = 5184000 := rfl
  have hn := h.kernel.within
  have hle := h.eligible.2.notNewer
  have hnewer := h.newer
  have hold := h.old
  unfold nMaxStakeSearchInterval at hn
  unfold uint32 at hnewer hold ⊢
  refine ⟨hnewer, hle, by omega, ?_⟩
  by_contra hsum
  rw [Int.emod_eq_of_lt (by omega) (by omega)] at hold
  omega

/-- A search that nothing stops comes to the first number that is found. -/
theorem searchBack_of_first {found : Nat → Bool} {m k left : Nat} (hm : m ≤ k) (hk : k < m + left)
    (hfirst : ∀ i, m ≤ i → i < k → found i = false) (hfound : found k = true) :
    searchBack found (fun _ => false) m left = some k := by
  induction left generalizing m with
  | zero => omega
  | succ left ih =>
      unfold searchBack
      rw [if_neg Bool.false_ne_true]
      rcases hm.eq_or_lt with rfl | hm
      · rw [if_pos hfound]
      · rw [if_neg (by simp [hfirst m le_rfl hm])]
        exact ih hm (by omega) fun i hi => hfirst i (by omega)

/-- Numbers that are close to each other differ in the lowest byte. -/
theorem littleEndian_inj_of_close {a b : Nat} (hab : a < b + 256) (hba : b < a + 256) :
    littleEndian 4 a = littleEndian 4 b ↔ a = b := by
  refine ⟨fun heq => ?_, fun heq => heq ▸ rfl⟩
  have hlow := congrArg (fun b : Bytes => b.head?.map UInt8.toNat) heq
  simp [littleEndian, List.range_succ] at hlow
  omega

end

/-! ## The wallet -/

/-- Hashes that a search backward in time finds below a target at the time `t` only -/
def youngEnv (t : Nat) : Env :=
  { Env.plain with
    hash := fun b => if b.drop 24 = littleEndian 4 t then 0 else 2 ^ 256 - 1
    getHash := fun tx => tx.nLockTime + 1
    isProtocolV03 := fun nTimeCoinStake => decide (1363800000 ≤ nTimeCoinStake)
    nStakeMinAge := 604800 }

/-- `<vchPubKey> OP_CHECKSIG` -/
def stakeScript : CScript := pushData (List.replicate 33 2) ++ [OP_CHECKSIG]

/-- A payment of a quarter of a coin to the wallet -/
def quarterTx (nTime nLockTime : Nat) : CTransaction where
  nTime := nTime
  vin := [{ prevout := ⟨9, 0⟩ }]
  vout := [{ nValue := 250000, scriptPubKey := stakeScript }]
  nLockTime := nLockTime

/-- A transaction that is long in the chain, and one that the wallet has just made -/
def oldTx : CWalletTx := { tx := quarterTx 0 0 }

def youngTx (u : Nat) : CWalletTx := { tx := quarterTx u 1, fFromMe := true }

def youngWallet (t u : Nat) : SpendingWallet (youngEnv t) where
  mapWallet := ((∅ : Std.ExtTreeMap Uint256 CWalletTx compare).insert 1 oldTx).insert 2 (youngTx u)
  isMine _ := true
  haveKey _ := true
  setBitcoinAddress addr := addr.vchData
  isFinal _ := true
  isConfirmed _ := true
  isFromMe wtx := wtx.fFromMe
  getDepthInMainChain wtx := if wtx.fFromMe then 0 else 1000
  getBlocksToMaturity _ := 0
  nTransactionFee := 0
  address hash := hash
  keyed := by
    intro hash wtx h
    rw [Lib.getElem?_insert, Lib.getElem?_insert, Std.ExtTreeMap.getElem?_empty] at h
    split_ifs at h <;> cases h <;> subst hash <;> rfl
  nValue_nonneg := by
    intro hash wtx h
    rw [Lib.getElem?_insert, Lib.getElem?_insert, Std.ExtTreeMap.getElem?_empty] at h
    split_ifs at h <;> cases h <;> simp [oldTx, youngTx, quarterTx]

def oldCoin : Coin := ⟨1, oldTx, 0, 250000⟩

def youngCoin (u : Nat) : Coin := ⟨2, youngTx u, 0, 250000⟩

def stakeFiles : Files where
  block _ _ := some { vtx := [] }
  tx _ := some oldTx.tx

/-- The block of the old transaction, and the one with the modifier -/
def stakeChain : BlockPtr :=
  [{ hashBlock := 2, nFile := 1, nBlockPos := 2000, nFlags := BLOCK_STAKE_MODIFIER, nTime := 200000 },
    { hashBlock := 1, nFile := 1, nBlockPos := 1000 }]

def stakeState : NodeState where
  txdb := { data := { txIndex := Lib.PMap.empty.set 1 (CTxIndex.new ⟨1, 1000, 1081⟩ 1) } }
  mapBlockIndex := Lib.PMap.empty.set 1 (stakeChain.drop 1)
  pnext := Lib.PMap.empty.set 1 stakeChain
  pindexBest := stakeChain

def youngRequest (T : Nat) : StakeRequest where
  nBits := 0x1d00ffff
  nSearchInterval := 60
  txNew := { nTime := T, vin := [], vout := [] }
  reserveBalance := none

def youngChoices : StakeChoices where
  select _ := { shuffle := id, shuffle_perm := fun _ => .of_eq rfl, flip := fun _ _ => false }
  fShutdown _ _ := false
  getPubKey _ := none
  signSignature _ _ _ _ := some []

/-- What the times of the coinstake, of the kernel and of the coin can be -/
structure WrapTimes (T t u : Nat) : Prop where
  clock : T < 2 ^ 32
  kernel : t ≤ T
  search : T < t + 60
  coin : u ≤ T
  wraps : 2 ^ 32 ≤ u + STAKE_MAX_AGE

section

variable {T t u : Nat}

theorem stakeable_young : (youngWallet t u).stakeable (youngRequest T) = some 500000 := by
  rfl

theorem coinsOf_old : (youngWallet t u).coinsOf T 1 oldTx = [oldCoin] := by
  simp [SpendingWallet.coinsOf, oldTx, quarterTx, oldCoin, youngWallet, CWalletTx.isUnspent,
    CWalletTx.isSpent]
  rfl

theorem coinsOf_young (hu : u ≤ T) : (youngWallet t u).coinsOf T 2 (youngTx u) = [youngCoin u] := by
  simp [SpendingWallet.coinsOf, youngTx, quarterTx, youngCoin, youngWallet, CWalletTx.isUnspent,
    CWalletTx.isSpent, hu]
  rfl

theorem mapWallet_young :
    (youngWallet t u).mapWallet.toList = [(1, oldTx), (2, youngTx u)] := by
  rfl

theorem isSpendable_old {nConfMine nConfTheirs : ℤ} (h : nConfTheirs ≤ 1000) :
    (youngWallet t u).isSpendable nConfMine nConfTheirs oldTx = true := by
  simpa [SpendingWallet.isSpendable, youngWallet, oldTx] using h

theorem isSpendable_young (nConfMine nConfTheirs : ℤ) :
    (youngWallet t u).isSpendable nConfMine nConfTheirs (youngTx u) = decide (nConfMine ≤ 0) := by
  simp [SpendingWallet.isSpendable, youngWallet, youngTx]

theorem eligibleCoins_young (hu : u ≤ T) :
    (youngWallet t u).eligibleCoins T 0 1 = [oldCoin, youngCoin u] := by
  simp [SpendingWallet.eligibleCoins, mapWallet_young, isSpendable_old, isSpendable_young, coinsOf_old,
    coinsOf_young hu]

theorem selectCoins_young (hu : u ≤ T) :
    (youngWallet t u).selectCoins youngChoices.select 500000 T
      = some ([oldCoin, youngCoin u], 500000) := by
  have hnone : ∀ (ch : SelectChoices) nConfTheirs, ch.shuffle = id → nConfTheirs ≤ 1000 →
      (youngWallet t u).selectCoinsMinConf ch 500000 T 1 nConfTheirs = none := by
    intro ch nConfTheirs hch h
    have havail : (youngWallet t u).availableCoins ch T 1 nConfTheirs = [oldCoin] := by
      simp [SpendingWallet.availableCoins, hch, mapWallet_young, isSpendable_old h, isSpendable_young,
        coinsOf_old]
    rw [SpendingWallet.selectCoinsMinConf, havail]
    rfl
  have hboth : (youngWallet t u).selectCoinsMinConf (youngChoices.select 2) 500000 T 0 1
      = some [oldCoin, youngCoin u] := by
    have havail : (youngWallet t u).availableCoins (youngChoices.select 2) T 0 1
        = [oldCoin, youngCoin u] := eligibleCoins_young hu
    rw [SpendingWallet.selectCoinsMinConf, havail]
    rfl
  rw [SpendingWallet.selectCoins, hnone _ 6 rfl (by decide), hnone _ 1 rfl (by decide), hboth]
  rfl

/-! ## The kernel -/

theorem selectionInterval_young : (youngEnv t).getStakeModifierSelectionInterval = 190460 := by
  have hplain : Env.plain.getStakeModifierSelectionInterval = 190460 := by decide +kernel
  exact hplain

theorem modifier_young : stakeState.getKernelStakeModifier (youngEnv t) 1 = some 0 := by
  have hfrom : stakeState.mapBlockIndex 1 = some (stakeChain.drop 1) := rfl
  have hnext : stakeState.pnext (BlockPtr.hash (stakeChain.drop 1)) = some stakeChain := rfl
  unfold NodeState.getKernelStakeModifier
  rw [hfrom]
  unfold stakeChain at hnext ⊢
  simp only [List.drop_succ_cons, List.drop_zero] at hnext ⊢
  unfold NodeState.modifierLoop
  rw [selectionInterval_young, if_pos (by decide), hnext]
  unfold NodeState.modifierLoop
  rw [selectionInterval_young]
  rfl

/-- Of the seconds of the search the old coin has a kernel in `t` only. -/
theorem checkStakeKernelHash_young (h : WrapTimes T t u) {x : Nat} (hx : x ≤ T) (hx' : T < x + 60) :
    (stakeState.checkStakeKernelHash (youngEnv t) 0x1d00ffff {} 81 oldTx.tx ⟨1, 0⟩ x 0).1
      = decide (x = t) := by
  obtain ⟨hT, htT, ht, hu, hlarge⟩ := h
  have hage : STAKE_MAX_AGE = 5184000 := rfl
  have hv03 : (youngEnv t).isProtocolV03 x = true := decide_eq_true (by omega)
  have hold : ¬ x < (({} : CBlockHeader).nTime + (youngEnv t).nStakeMinAge) % 2 ^ 32 := by
    show ¬ x < 604800
    omega
  have hweight : NodeState.coinDayWeight (youngEnv t) oldTx.tx ⟨1, 0⟩ x = 13 := by
    have hmin : min ((x : ℤ) - (0 : Nat)) STAKE_MAX_AGE = STAKE_MAX_AGE := by omega
    unfold NodeState.coinDayWeight
    rw [show oldTx.tx.nTime = 0 from rfl, hmin, if_pos hv03]
    rfl
  have hseed : stakeState.kernelSeed (youngEnv t) 0x1d00ffff {} x = some (littleEndian 8 0) := by
    unfold NodeState.kernelSeed
    rw [if_pos hv03]
    exact congrArg (Option.map (littleEndian 8)) modifier_young
  have hhash : ∀ b : Bytes, b.length = 24 →
      (youngEnv t).hash (b ++ littleEndian 4 x) = if x = t then 0 else 2 ^ 256 - 1 := by
    intro b hb
    show (if (b ++ littleEndian 4 x).drop 24 = littleEndian 4 t then 0 else 2 ^ 256 - 1) = _
    rw [List.drop_left' hb]
    simp only [littleEndian_inj_of_close (show x < t + 256 by omega) (by omega)]
  unfold NodeState.checkStakeKernelHash
  rw [if_neg (show ¬ x < oldTx.tx.nTime from Nat.not_lt_zero _), if_neg hold, hseed, hweight]
  dsimp only
  rw [hhash _ (by simp [littleEndian])]
  by_cases hxt : x = t
  · simp [hxt]
    decide
  · simp [hxt]
    decide

theorem uint32_sub {n : Nat} (hT : T < 2 ^ 32) (hn : n ≤ T) : uint32 ((T : ℤ) - n) = T - n := by
  unfold uint32
  omega

theorem stakeKernel_young (h : WrapTimes T t u) {n : Nat} (hn : n < 60) :
    stakeKernel (youngEnv t) stakeState (youngRequest T) oldCoin (CTxIndex.new ⟨1, 1000, 1081⟩ 1) {} n
      = decide (n = T - t) := by
  have hage : STAKE_MAX_AGE = 5184000 := rfl
  obtain ⟨hT, htT, ht, hu, hlarge⟩ := h
  have htime := uint32_sub hT (show n ≤ T by omega)
  unfold stakeKernel
  rw [show (youngRequest T).txNew.nTime = T from rfl, htime]
  refine (checkStakeKernelHash_young ⟨hT, htT, ht, hu, hlarge⟩ (show T - n ≤ T by omega)
    (by omega)).trans ?_
  exact decide_eq_decide.mpr (by omega)

/-- The coinstake before it is signed, for an amount -/
def youngStake (t : Nat) (nAmount : ℤ) : CTransaction where
  nTime := t
  vin := [{ prevout := ⟨1, 0⟩ }, { prevout := ⟨2, 0⟩ }]
  vout := [{ nValue := 0 }, { nValue := nAmount, scriptPubKey := stakeScript }]

def oldDraft (t : Nat) : StakeDraft where
  tx := { youngStake t 0 with vin := [{ prevout := ⟨1, 0⟩ }] }
  nCredit := 250000
  scriptPubKeyKernel := stakeScript
  vwtxPrev := [oldTx.tx]

def youngDraft (t u : Nat) : StakeDraft where
  tx := youngStake t 0
  nCredit := 500000
  scriptPubKeyKernel := stakeScript
  vwtxPrev := [oldTx.tx, (youngTx u).tx]

/-- The block of the old coin is old enough for the search, and too old for the stake to be split. -/
theorem block_young (h : WrapTimes T t u) :
    ({} : CBlockHeader).nTime + (youngEnv t).nStakeMinAge
        ≤ uint32 (((youngRequest T).txNew.nTime : ℤ) - nMaxStakeSearchInterval) ∧
      ({} : CBlockHeader).nTime + nStakeSplitAge ≤ t := by
  have hage : STAKE_MAX_AGE = 5184000 := rfl
  obtain ⟨hT, -, ht, hu, hlarge⟩ := h
  have hminAge : ({} : CBlockHeader).nTime + (youngEnv t).nStakeMinAge = 604800 := Nat.zero_add _
  have hsplitAge : ({} : CBlockHeader).nTime + nStakeSplitAge = 7776000 := rfl
  have htime : uint32 ((T : ℤ) - nMaxStakeSearchInterval) = T - 60 :=
    uint32_sub hT (show 60 ≤ T by omega)
  rw [show (youngRequest T).txNew.nTime = T from rfl, htime, hminAge, hsplitAge]
  omega

theorem unsplitKernel_young (h : WrapTimes T t u) :
    UnsplitKernel (youngEnv t) stakeFiles stakeState (youngRequest T) oldCoin (T - t) := by
  have htime := uint32_sub h.clock (Nat.sub_le T t)
  have hn : T - t < 60 := by
    have hsearch := h.search
    omega
  obtain ⟨hmin, hsplit⟩ := block_young h
  have hwithin : ((T - t : Nat) : ℤ) < min (youngRequest T).nSearchInterval nMaxStakeSearchInterval := by
    show ((T - t : Nat) : ℤ) < 60
    exact_mod_cast hn
  refine ⟨hwithin, CTxIndex.new ⟨1, 1000, 1081⟩ 1, {}, rfl, rfl, hmin, ?_, ?_,
    fun m hm => ?_⟩
  · rw [show (youngRequest T).txNew.nTime = T from rfl, htime, Nat.sub_sub_self h.kernel]
    exact hsplit
  · rw [stakeKernel_young h hn]
    exact decide_eq_true rfl
  · rw [stakeKernel_young h (hm.trans hn)]
    exact decide_eq_false hm.ne

theorem tryKernel_young (h : WrapTimes T t u) :
    tryKernel (youngEnv t) stakeFiles stakeState (youngRequest T) youngChoices oldCoin
      = some (oldDraft t) := by
  have hindex : stakeState.txdb.data.txIndex ((youngEnv t).getHash oldCoin.wtx.tx)
      = some (CTxIndex.new ⟨1, 1000, 1081⟩ 1) := rfl
  have hblock : stakeFiles.readHeaderAt 1 1000 = some {} := rfl
  have htime := uint32_sub h.clock (Nat.sub_le T t)
  obtain ⟨hmin, hsplit⟩ := block_young h
  have hn : T - t < 60 := by
    have hsearch := h.search
    omega
  have hsearch : searchBack (stakeKernel (youngEnv t) stakeState (youngRequest T) oldCoin
      (CTxIndex.new ⟨1, 1000, 1081⟩ 1) {}) (youngChoices.fShutdown oldCoin) 0
      (min (youngRequest T).nSearchInterval nMaxStakeSearchInterval).toNat = some (T - t) := by
    refine searchBack_of_first (Nat.zero_le _) (by rw [Nat.zero_add]; exact hn) (fun i _ hi => ?_) ?_
    · rw [stakeKernel_young h (hi.trans hn)]
      exact decide_eq_false hi.ne
    · rw [stakeKernel_young h hn]
      exact decide_eq_true rfl
  have hscript : kernelScriptOut youngChoices.getPubKey oldCoin.scriptPubKey = some stakeScript := rfl
  unfold tryKernel
  rw [hindex, Option.bind_some, show (CTxIndex.new ⟨1, 1000, 1081⟩ 1).pos.nFile = 1 from rfl,
    show (CTxIndex.new ⟨1, 1000, 1081⟩ 1).pos.nBlockPos = 1000 from rfl, hblock, Option.bind_some,
    if_neg (not_lt.mpr hmin), hsearch, Option.bind_some, hscript, Option.map_some]
  unfold addKernel
  rw [show (youngRequest T).txNew.nTime = T from rfl, htime, Nat.sub_sub_self h.kernel]
  dsimp only
  rw [if_neg (not_lt.mpr hsplit)]
  rfl

/-- The sum wraps. -/
theorem uint32_young (h : WrapTimes T t u) : uint32 ((youngCoin u).wtx.tx.nTime + STAKE_MAX_AGE) ≤ t := by
  have hage : STAKE_MAX_AGE = 5184000 := rfl
  obtain ⟨hT, -, ht, hu, hlarge⟩ := h
  show uint32 (u + STAKE_MAX_AGE) ≤ t
  unfold uint32
  omega

theorem addInputs_young (h : WrapTimes T t u) :
    addInputs (youngEnv t) 333333 500000 (oldDraft t) [oldCoin, youngCoin u] = youngDraft t u := by
  have hold : (oldDraft t).sameKey (youngEnv t) oldCoin = false := by rfl
  have hsame : (oldDraft t).sameKey (youngEnv t) (youngCoin u) = true := by rfl
  have hwrap : ¬ (oldDraft t).tx.nTime < uint32 ((youngCoin u).wtx.tx.nTime + STAKE_MAX_AGE) :=
    not_lt.mpr (uint32_young h)
  unfold addInputs
  rw [hold, if_pos (show (!false) = true from rfl)]
  unfold addInputs
  rw [hsame, if_neg (by decide), show (oldDraft t).tx.vin.length = 1 from rfl, if_neg (by decide),
    show (oldDraft t).nCredit = 250000 from rfl, if_neg (by decide),
    show (youngCoin u).nValue = 250000 from rfl, if_neg (by decide), if_neg (by decide), if_neg hwrap]
  rfl

theorem nCombineThreshold_young : stakeState.nCombineThreshold = 333333 := by decide

theorem draftStake_young (h : WrapTimes T t u) :
    (youngWallet t u).draftStake stakeFiles stakeState (youngRequest T) youngChoices 500000
      = some (youngDraft t u) := by
  have hfind : findKernel (youngEnv t) stakeFiles stakeState (youngRequest T) youngChoices
      [oldCoin, youngCoin u] = some (oldDraft t) := by
    unfold findKernel
    rw [tryKernel_young h]
  have hthreshold : (getNextProofOfWorkReward stakeState.pindexBest
      (stakeState.statsOf stakeState.pindexBest).nPoSDebt true).tdiv 3 = 333333 :=
    nCombineThreshold_young
  unfold SpendingWallet.draftStake
  rw [hthreshold, show (youngRequest T).txNew.nTime = T from rfl, selectCoins_young h.coin]
  dsimp only [Option.bind_some]
  rw [hfind, Option.bind_some, addInputs_young h]
  exact if_neg (show ¬ ((250000 : ℤ) = 0 ∨ (500000 : ℤ) < 250000) by decide)

/-- The young coin passes for old beside the kernel of the old one. -/
theorem newerCoin_young (h : WrapTimes T t u) (htu : t < u) :
    NewerCoin (youngWallet t u) stakeFiles stakeState (youngRequest T) youngChoices oldCoin (youngCoin u)
      (T - t) := by
  have htime : uint32 (((youngRequest T).txNew.nTime : ℤ) - (T - t : Nat)) = t :=
    (uint32_sub h.clock (Nat.sub_le T t)).trans (Nat.sub_sub_self h.kernel)
  have hread : readFromDisk stakeFiles stakeState.txdb.data.txIndex ((youngCoin u).prevout (youngEnv t))
      = none := rfl
  have heligible : ∀ c ∈ [oldCoin, youngCoin u], (youngWallet t u).Eligible T 0 1 c := by
    intro c hc
    rw [← eligibleCoins_young h.coin] at hc
    exact SpendingWallet.mem_eligibleCoins.mp hc
  constructor
  case eligible => exact ⟨heligible _ (by simp), heligible _ (by simp)⟩
  case kernel => exact unsplitKernel_young h
  case sameKey => exact ⟨stakeScript, rfl, .inl rfl⟩
  case other => exact show (2 : Uint256) ≠ 1 by decide
  case small =>
    rw [nCombineThreshold_young]
    exact show (250000 : ℤ) ≤ 333333 ∧ (250000 : ℤ) ≤ 333333 by decide
  case reserve => exact ⟨500000, stakeable_young, show (250000 : ℤ) + 250000 ≤ 500000 by decide⟩
  case notOnDisk =>
    intro txPrev txindex hsome
    rw [hread] at hsome
    cases hsome
  case old =>
    rw [htime]
    exact uint32_young h
  case newer =>
    rw [htime]
    exact htu

/-! ## The fee -/

/-- Only the old coin is on disk. -/
theorem getCoinAge_young (h : WrapTimes T t u) (nAmount : ℤ) :
    (youngStake t nAmount).getCoinAge (youngEnv t) stakeFiles stakeState.txdb.data.txIndex
      = some (t / 4) := by
  have hage : STAKE_MAX_AGE = 5184000 := rfl
  obtain ⟨hT, htT, ht, hu, hlarge⟩ := h
  have hold : CTransaction.addCoinAge (youngEnv t) stakeFiles stakeState.txdb.data.txIndex
      (youngStake t nAmount) 0 { prevout := ⟨1, 0⟩ } = some (25 * (t : ℤ)) := by
    have hread : readFromDisk stakeFiles stakeState.txdb.data.txIndex ⟨1, 0⟩
        = some (oldTx.tx, CTxIndex.new ⟨1, 1000, 1081⟩ 1) := rfl
    have hblock : stakeFiles.readHeaderAt (CTxIndex.new ⟨1, 1000, 1081⟩ 1).pos.nFile
        (CTxIndex.new ⟨1, 1000, 1081⟩ 1).pos.nBlockPos = some {} := rfl
    have hminAge : ({} : CBlockHeader).nTime + (youngEnv t).nStakeMinAge = 604800 := Nat.zero_add _
    have htime : (youngStake t nAmount).nTime = t := rfl
    have hvalue : (oldTx.tx.vout[0]?.map CTxOut.nValue).getD 0 = 250000 := rfl
    have htime₀ : oldTx.tx.nTime = 0 := rfl
    unfold CTransaction.addCoinAge
    rw [hread]
    dsimp only
    rw [htime₀, htime, if_neg (Nat.not_lt_zero _), hblock]
    dsimp only
    rw [hminAge, if_neg (by omega), hvalue, Int.tdiv_eq_ediv_of_nonneg (by omega)]
    unfold CENT
    congr 1
    omega
  have hyoung : CTransaction.addCoinAge (youngEnv t) stakeFiles stakeState.txdb.data.txIndex
      (youngStake t nAmount) (25 * (t : ℤ)) { prevout := ⟨2, 0⟩ } = some (25 * (t : ℤ)) := rfl
  unfold CTransaction.getCoinAge
  rw [if_neg (show ¬ (youngStake t nAmount).isCoinBase = true from Bool.false_ne_true)]
  rw [show (youngStake t nAmount).vin = [{ prevout := ⟨1, 0⟩ }, { prevout := ⟨2, 0⟩ }] from rfl,
    List.foldlM_cons, hold, Option.bind_eq_bind, Option.bind_some, List.foldlM_cons, hyoung,
    Option.bind_eq_bind, Option.bind_some, List.foldlM_nil, Option.pure_def, Option.map_some,
    Int.tdiv_eq_ediv_of_nonneg (by unfold CENT; omega)]
  unfold CENT COIN
  congr 1
  omega

theorem reward_young (h : WrapTimes T t u) : 0 < getProofOfStakeReward (int64 (t / 4 : Nat)) := by
  have hage : STAKE_MAX_AGE = 5184000 := rfl
  obtain ⟨hT, htT, ht, hu, hlarge⟩ := h
  have h64 : int64 (t / 4 : Nat) = (t / 4 : Nat) := by
    unfold int64
    apply Int.bmod_eq_of_le <;> omega
  rw [h64, getProofOfStakeReward_of_fits (Int.natCast_nonneg _)]
  · unfold exactStakeReward CENT
    omega
  · unfold RewardFits CENT
    omega

theorem getMinFee_young {nAmount : ℤ} (h : CENT ≤ nAmount) :
    (youngStake t nAmount).getMinFee 1 .GMF_BLOCK = MIN_TX_FEE := by
  have hsize : (youngStake t nAmount).getSerializeSize = 153 := rfl
  have hinfos : (youngStake t nAmount).countInfoTxs = 0 := rfl
  have hdust : (youngStake t nAmount).vout.countP (fun txout => decide (txout.nValue < CENT)) = 1 := by
    simp [youngStake, List.countP_cons, not_lt.mpr h]
    decide
  unfold CTransaction.getMinFee
  rw [if_neg (by simp), CTransaction.getBaseFee, hsize, hinfos, hdust]
  decide

/-- The loop ends in its first round. -/
theorem feeLoop_young {nCredit : ℤ} (h : CENT ≤ nCredit) :
    feeLoop youngChoices.signSignature (youngDraft t u).vwtxPrev nCredit 1 0 (youngStake t 0) 0
      = some (some (youngStake t nCredit, 0)) := by
  have hsign : signInputs (youngChoices.signSignature 0) (youngDraft t u).vwtxPrev 0
      ((youngStake t 0).setStake (nCredit - 0)) = some (youngStake t (nCredit - 0)) := rfl
  have hsize : (youngStake t nCredit).getSerializeSize = 153 := rfl
  unfold feeLoop
  rw [hsign, sub_zero]
  dsimp only
  rw [hsize, if_neg (by decide), getMinFee_young h, if_neg (by decide)]

theorem createCoinStake_young (h : WrapTimes T t u) :
    ∃ nAmount, (youngWallet t u).createCoinStake stakeFiles stakeState (youngRequest T) youngChoices 1
      = some (some (youngStake t nAmount)) := by
  have hreward := reward_young h
  unfold SpendingWallet.createCoinStake
  rw [stakeable_young, Option.bind_some, draftStake_young h]
  dsimp only
  rw [show (youngDraft t u).tx = youngStake t 0 from rfl, getCoinAge_young h]
  dsimp only
  rw [if_neg hreward.ne', feeLoop_young, Option.map_some, Option.bind_some, if_neg (not_le.mpr hreward)]
  · exact ⟨_, rfl⟩
  · have hcredit : (youngDraft t u).nCredit = 500000 := rfl
    unfold CENT
    omega

/-- The second input is of a coin that is newer. -/
theorem not_validStake_young (htu : t < u) (coins : List Coin) (nMinFee nAmount : ℤ) :
    ¬ ValidStake (youngWallet t u) stakeFiles stakeState (youngRequest T) coins nMinFee
      (youngStake t nAmount) := by
  intro h
  obtain ⟨c, hc, hprevout⟩ : ∃ c ∈ coins, c.prevout (youngEnv t) = ⟨2, 0⟩ := by
    rw [← List.mem_map, ← h.prevouts]
    simp [youngStake]
  have hspendable := h.spendable c hc
  have hin := hspendable.isIn.1
  have hhash : c.hash = 2 := by
    rw [← (youngWallet t u).keyed _ _ hin]
    exact congrArg COutPoint.hash hprevout
  have hyoung : (youngWallet t u).mapWallet[(2 : Uint256)]? = some (youngTx u) := rfl
  rw [hhash, hyoung] at hin
  have htime := hspendable.nTime_le
  rw [← Option.some.inj hin] at htime
  have hle : u ≤ t := htime
  omega

theorem length_vout_young (hash : Uint256) (wtx : CWalletTx)
    (h : (youngWallet t u).mapWallet[hash]? = some wtx) : wtx.tx.vout.length ≤ UINT_MAX := by
  rw [youngWallet, Lib.getElem?_insert, Lib.getElem?_insert, Std.ExtTreeMap.getElem?_empty] at h
  split_ifs at h <;> cases h <;> simp [oldTx, youngTx, quarterTx, UINT_MAX]

/-- Where the kernel is of the time of the coinstake, no coin is newer. -/
theorem not_newerCoin_young (h : WrapTimes T T u) (c d : Coin) (n : Nat) :
    ¬ NewerCoin (youngWallet T u) stakeFiles stakeState (youngRequest T) youngChoices c d n := by
  intro hnewer
  obtain ⟨txindex, block, hindex, hblock, -, -, -, hfirst⟩ := hnewer.kernel.kernel
  have hle := hnewer.eligible.2.notNewer
  have hafter := hnewer.newer
  rw [show (youngRequest T).txNew.nTime = T from rfl] at hle hafter
  rcases Nat.eq_zero_or_pos n with rfl | hpos
  · rw [uint32_sub h.clock (Nat.zero_le T)] at hafter
    omega
  · -- only the old coin is on disk, and it has a kernel at once
    have hkernel := hfirst 0 hpos
    have hc := SpendingWallet.mem_eligibleCoins.mpr hnewer.eligible.1
    rw [show (youngRequest T).txNew.nTime = T from rfl, eligibleCoins_young h.coin] at hc
    rcases List.mem_pair.mp hc with rfl | rfl
    · obtain rfl : CTxIndex.new ⟨1, 1000, 1081⟩ 1 = txindex := Option.some.inj hindex
      obtain rfl : {} = block := Option.some.inj hblock
      rw [stakeKernel_young h (by decide), Nat.sub_self] at hkernel
      cases hkernel
    · cases hindex

end

/-! ## The coinstakes that are created -/

end ShinyCoin

import ShinyCoin.Script.SignatureHash
import ShinyCoin.Wire.Injective

/-!
# What a signature commits to

The bytes that are hashed for a signature are those of a transaction with blanked inputs and outputs,
and the type of the hash behind it. They tell its fields, so two signed transactions with the same
bytes agree on what was not blanked.

The number of the signed input is not among the bytes: it shows as the input with a script, as the
only input, or as the number of outputs. A script that runs `OP_CHECKSIG` has that opcode, but
`SignatureHash` can be asked for an empty one, and then the signed input may be any of them.
-/

namespace ShinyCoin

/-- The script code, as it is hashed -/
def withoutSeparators (scriptCode : CScript) : CScript :=
  (scriptCode.findAndDelete [OP_CODESEPARATOR]).1

/-! ## The blanked transaction -/

/-- Whether the other inputs keep their `nSequence`, and the outputs stay: `SIGHASH_ALL`, and every
type without a meaning of its own -/
def signsAll (nHashType : ℤ) : Prop :=
  nHashType % 0x20 ≠ SIGHASH_NONE ∧ nHashType % 0x20 ≠ SIGHASH_SINGLE

instance (nHashType : ℤ) : Decidable (signsAll nHashType) := by
  unfold signsAll
  infer_instance

/-- The input with number `i`, as it is hashed -/
def hashedInput (scriptCode : CScript) (nIn : Nat) (nHashType : ℤ) (i : Nat) (txin : CTxIn) :
    CTxIn :=
  { txin with
    scriptSig := if i = nIn then withoutSeparators scriptCode else []
    nSequence := if i = nIn ∨ signsAll nHashType then txin.nSequence else 0 }

def hashedInputs (scriptCode : CScript) (nIn : Nat) (nHashType : ℤ) (vin : List CTxIn) :
    List CTxIn :=
  let vin := vin.mapIdx (hashedInput scriptCode nIn nHashType)
  if anyoneCanPay nHashType then vin[nIn]?.toList else vin

def hashedOutputs (nIn : Nat) (nHashType : ℤ) (vout : List CTxOut) : List CTxOut :=
  if nHashType % 0x20 = SIGHASH_NONE then []
  else if nHashType % 0x20 = SIGHASH_SINGLE then onlyOutput nIn vout
  else vout

section

variable {scriptCode : CScript} {tx txTmp : CTransaction} {nIn : Nat} {nHashType : ℤ}

theorem blankInputs_zeroSequences (h : ¬ signsAll nHashType) :
    zeroSequences nIn (blankInputs (withoutSeparators scriptCode) nIn tx).vin
      = tx.vin.mapIdx (hashedInput scriptCode nIn nHashType) := by
  unfold zeroSequences blankInputs
  dsimp only
  rw [List.mapIdx_mapIdx]
  congr 1
  funext i txin
  unfold hashedInput
  by_cases hi : i = nIn <;> simp [hi, h]

theorem blankInputs_eq (h : signsAll nHashType) :
    (blankInputs (withoutSeparators scriptCode) nIn tx).vin
      = tx.vin.mapIdx (hashedInput scriptCode nIn nHashType) := by
  unfold blankInputs
  dsimp only
  congr 1
  funext i txin
  unfold hashedInput
  simp [h]

theorem signedTx_eq (h : signedTx scriptCode tx nIn nHashType = some txTmp) :
    nIn < tx.vin.length ∧ (nHashType % 0x20 = SIGHASH_SINGLE → nIn < tx.vout.length) ∧
      txTmp = { tx with
        vin := hashedInputs scriptCode nIn nHashType tx.vin
        vout := hashedOutputs nIn nHashType tx.vout } := by
  unfold signedTx at h
  split at h
  · cases h
  next hlen =>
  obtain ⟨txBlank, hblank, rfl⟩ := Option.map_eq_some_iff.mp h
  have hfields : (nHashType % 0x20 = SIGHASH_SINGLE → nIn < tx.vout.length) ∧
      txBlank = { tx with
        vin := tx.vin.mapIdx (hashedInput scriptCode nIn nHashType)
        vout := hashedOutputs nIn nHashType tx.vout } := by
    unfold hashedOutputs
    split at hblank
    · next hnone =>
        cases hblank
        have hall : ¬ signsAll nHashType := fun hall => hall.1 hnone
        rw [← blankInputs_zeroSequences hall, if_pos hnone]
        refine ⟨fun hsingle => ?_, rfl⟩
        rw [hnone] at hsingle
        cases hsingle
    · next hnone =>
        split at hblank
        · next hsingle =>
            split at hblank
            · cases hblank
            · next hout =>
                cases hblank
                have hall : ¬ signsAll nHashType := fun hall => hall.2 hsingle
                rw [← blankInputs_zeroSequences hall, if_neg hnone, if_pos hsingle]
                exact ⟨fun _ => Nat.lt_of_not_le hout, rfl⟩
        · next hsingle =>
            cases hblank
            rw [← blankInputs_eq ⟨hnone, hsingle⟩, if_neg hnone, if_neg hsingle]
            exact ⟨fun h => absurd h hsingle, rfl⟩
  refine ⟨Nat.lt_of_not_le hlen, hfields.1, ?_⟩
  rw [hfields.2]
  unfold hashedInputs
  split <;> rfl

/-! ## It is in memory, too -/

theorem length_findAndDeleteFrom_le (b pc : CScript) :
    (findAndDeleteFrom b pc).1.length ≤ pc.length := by
  induction pc using findAndDeleteFrom.induct b with
  | case1 pc h ih =>
      rw [findAndDeleteFrom, dif_pos h]
      refine ih.trans ?_
      rw [List.length_drop]
      exact Nat.sub_le _ _
  | case2 pc h hop =>
      rw [findAndDeleteFrom, dif_neg h]
      split
      · exact Nat.le_refl _
      · next heq => rw [hop] at heq; cases heq
  | case3 pc h opcode vch rest hop ih =>
      have hlen := getOp_length hop
      rw [findAndDeleteFrom, dif_neg h]
      split
      · next heq => simp [hop] at heq
      · next heq =>
          rw [hop] at heq
          cases heq
          rw [List.length_append, List.length_take]
          omega

theorem length_withoutSeparators_le (scriptCode : CScript) :
    (withoutSeparators scriptCode).length ≤ scriptCode.length := by
  unfold withoutSeparators CScript.findAndDelete
  exact length_findAndDeleteFrom_le _ _

theorem hashedInput_inMemory {txin : CTxIn} (h : txin.InMemory) (hcode : SizeT scriptCode.length)
    (i : Nat) : (hashedInput scriptCode nIn nHashType i txin).InMemory := by
  refine ⟨⟨h.prevout, ?_⟩, ?_, h.infos, h.info⟩
  · unfold hashedInput
    dsimp only
    split
    · exact h.nSequence
    · decide
  · unfold hashedInput
    dsimp only
    split
    · exact (length_withoutSeparators_le scriptCode).trans_lt hcode
    · exact sizeT_zero

theorem hashedOutput_inMemory {vout : List CTxOut} (h : ∀ txout ∈ vout, txout.InMemory) :
    ∀ txout ∈ hashedOutputs nIn nHashType vout, txout.InMemory := by
  intro txout hmem
  unfold hashedOutputs at hmem
  split at hmem
  · cases hmem
  · split at hmem
    · obtain ⟨i, hi, rfl⟩ := List.mem_mapIdx.mp hmem
      split
      · exact ⟨⟨by decide, by decide⟩, sizeT_zero, sizeT_zero⟩
      · exact h _ (List.mem_of_mem_take (List.getElem_mem _))
    · exact h txout hmem

theorem length_hashedOutputs_le (nIn : Nat) (nHashType : ℤ) (vout : List CTxOut) :
    (hashedOutputs nIn nHashType vout).length ≤ vout.length := by
  unfold hashedOutputs onlyOutput
  split
  · exact Nat.zero_le _
  · split
    · rw [List.length_mapIdx, List.length_take]
      exact Nat.min_le_right _ _
    · exact Nat.le_refl _

theorem mem_hashedInputs {vin : List CTxIn} {txin : CTxIn}
    (h : txin ∈ hashedInputs scriptCode nIn nHashType vin) :
    ∃ i, ∃ txin₀ ∈ vin, txin = hashedInput scriptCode nIn nHashType i txin₀ := by
  have hmem : txin ∈ vin.mapIdx (hashedInput scriptCode nIn nHashType) := by
    unfold hashedInputs at h
    dsimp only at h
    split at h
    · exact List.mem_of_getElem? (Option.mem_toList.mp h)
    · exact h
  obtain ⟨i, hi, rfl⟩ := List.mem_mapIdx.mp hmem
  exact ⟨i, _, List.getElem_mem _, rfl⟩

theorem length_hashedInputs_le (vin : List CTxIn) (hlen : nIn < vin.length) :
    (hashedInputs scriptCode nIn nHashType vin).length ≤ vin.length := by
  unfold hashedInputs
  dsimp only
  split
  · refine (Option.length_toList_le).trans ?_
    omega
  · rw [List.length_mapIdx]

theorem signedTx_inMemory (h : tx.InMemory) (hcode : SizeT scriptCode.length)
    (hsigned : signedTx scriptCode tx nIn nHashType = some txTmp) : txTmp.InMemory := by
  obtain ⟨hlen, -, rfl⟩ := signedTx_eq hsigned
  have hvin : ∀ txin ∈ hashedInputs scriptCode nIn nHashType tx.vin, txin.InMemory := by
    intro txin hmem
    obtain ⟨i, txin, htxin, rfl⟩ := mem_hashedInputs hmem
    exact hashedInput_inMemory (h.txinInMemory txin htxin) hcode i
  have hvout : ∀ txout ∈ hashedOutputs nIn nHashType tx.vout, txout.InMemory :=
    hashedOutput_inMemory h.txoutInMemory
  exact {
    nTime := h.nTime
    txin := fun txin hmem => (hvin txin hmem).toTyped
    txout := fun txout hmem => (hvout txout hmem).toTyped
    nLockTime := h.nLockTime
    mint_numUnits := h.mint_numUnits
    mint_divisibility := h.mint_divisibility
    vin := (length_hashedInputs_le tx.vin hlen).trans_lt h.vin
    txinInMemory := hvin
    vout := (length_hashedOutputs_le nIn nHashType tx.vout).trans_lt h.vout
    txoutInMemory := hvout
    mint_subCurrencyName := h.mint_subCurrencyName
    mint_subCurrencyId := h.mint_subCurrencyId
    mint_remintScript := h.mint_remintScript }

end

/-! ## What equal bytes agree on -/

section

variable {scriptCode scriptCode' : CScript} {tx tx' : CTransaction} {nIn nIn' : Nat}
  {nHashType : ℤ}

theorem signaturePreimage_some {preimage : Bytes} {nHashType : ℤ}
    (h : signaturePreimage scriptCode tx nIn nHashType = some preimage) :
    ∃ txTmp, signedTx scriptCode tx nIn nHashType = some txTmp ∧
      preimage = txTmp.serialize ++ Lib.toLE 4 (nHashType % 2 ^ 32).toNat := by
  obtain ⟨txTmp, htx, rfl⟩ := Option.map_eq_some_iff.mp h
  exact ⟨txTmp, htx, rfl⟩

theorem hashType_of_toLE {t t' : UInt8}
    (h : Lib.toLE 4 ((t.toNat : ℤ) % 2 ^ 32).toNat = Lib.toLE 4 ((t'.toNat : ℤ) % 2 ^ 32).toNat) :
    t = t' := by
  have ht := t.toNat_lt
  have ht' := t'.toNat_lt
  have heq := Lib.toLE_inj (by omega) (by omega) h
  exact UInt8.toNat_inj.mp (by omega)

/-- A field that is not blanked is in the hashed inputs as it was. -/
theorem map_hashedInputs {α : Type} (field : CTxIn → α) (hacp : anyoneCanPay nHashType = false)
    (hfield : ∀ i txin, field (hashedInput scriptCode nIn nHashType i txin) = field txin)
    (vin : List CTxIn) :
    (hashedInputs scriptCode nIn nHashType vin).map field = vin.map field := by
  unfold hashedInputs
  rw [hacp, if_neg Bool.false_ne_true]
  apply List.ext_getElem?
  intro i
  rw [List.getElem?_map, List.getElem?_mapIdx, List.getElem?_map, Option.map_map]
  congr 1
  funext txin
  exact hfield i txin

theorem getElem?_hashedInputs (hacp : anyoneCanPay nHashType = false) (vin : List CTxIn) (i : Nat) :
    (hashedInputs scriptCode nIn nHashType vin)[i]?
      = vin[i]?.map (hashedInput scriptCode nIn nHashType i) := by
  unfold hashedInputs
  rw [hacp, if_neg Bool.false_ne_true]
  exact List.getElem?_mapIdx

/-- The signed inputs, where they are the same one of the hashed inputs. -/
theorem signedInput_eq {txin txin' : CTxIn}
    (h : hashedInput scriptCode nIn nHashType nIn txin
      = hashedInput scriptCode' nIn' nHashType nIn' txin') :
    withoutSeparators scriptCode = withoutSeparators scriptCode' ∧
      txin.prevout = txin'.prevout ∧ txin.nSequence = txin'.nSequence ∧ txin.infos = txin'.infos := by
  unfold hashedInput at h
  simp only [if_true, true_or, CTxIn.mk.injEq] at h
  exact ⟨h.2.1, h.1, h.2.2.1, h.2.2.2⟩

/-- In the hashed inputs, the signed one is told by its script, if that is not empty. -/
theorem signedInput_cases (hlen : nIn < tx.vin.length) (hlen' : nIn' < tx'.vin.length)
    (h : hashedInputs scriptCode nIn nHashType tx.vin
      = hashedInputs scriptCode' nIn' nHashType tx'.vin) :
    hashedInput scriptCode nIn nHashType nIn tx.vin[nIn]
      = hashedInput scriptCode' nIn' nHashType nIn' tx'.vin[nIn'] ∨
    (anyoneCanPay nHashType = false ∧ nIn ≠ nIn' ∧ withoutSeparators scriptCode = [] ∧
      withoutSeparators scriptCode' = []) := by
  cases hacp : anyoneCanPay nHashType with
  | true =>
      left
      unfold hashedInputs at h
      rw [hacp, if_pos rfl, if_pos rfl, List.getElem?_mapIdx, List.getElem?_mapIdx,
        List.getElem?_eq_getElem hlen, List.getElem?_eq_getElem hlen'] at h
      exact List.singleton_inj.mp h
  | false =>
      have hinputs : tx.vin.length = tx'.vin.length := by
        have hmap := congrArg List.length h
        unfold hashedInputs at hmap
        rw [hacp, if_neg Bool.false_ne_true, if_neg Bool.false_ne_true, List.length_mapIdx,
          List.length_mapIdx] at hmap
        exact hmap
      have hnth : ∀ i (hi : i < tx.vin.length) (hi' : i < tx'.vin.length),
          hashedInput scriptCode nIn nHashType i tx.vin[i]
            = hashedInput scriptCode' nIn' nHashType i tx'.vin[i] := by
        intro i hi hi'
        have hget : (hashedInputs scriptCode nIn nHashType tx.vin)[i]?
            = (hashedInputs scriptCode' nIn' nHashType tx'.vin)[i]? := by rw [h]
        rw [getElem?_hashedInputs hacp, getElem?_hashedInputs hacp, List.getElem?_eq_getElem hi,
          List.getElem?_eq_getElem hi'] at hget
        exact Option.some.inj hget
      by_cases hne : nIn = nIn'
      · subst hne
        exact .inl (hnth nIn hlen hlen')
      · -- the other transaction has the script of another input there, and that is empty
        have hscript := congrArg CTxIn.scriptSig (hnth nIn hlen (hinputs ▸ hlen))
        have hscript' := congrArg CTxIn.scriptSig (hnth nIn' (hinputs ▸ hlen') hlen')
        unfold hashedInput at hscript hscript'
        dsimp only at hscript hscript'
        rw [if_pos rfl, if_neg hne] at hscript
        rw [if_neg (Ne.symm hne), if_pos rfl] at hscript'
        exact .inr ⟨rfl, hne, hscript, hscript'.symm⟩

theorem length_onlyOutput {nOut : Nat} {vout : List CTxOut} (h : nOut < vout.length) :
    (onlyOutput nOut vout).length = nOut + 1 := by
  unfold onlyOutput
  rw [List.length_mapIdx, List.length_take]
  omega

theorem getElem?_onlyOutput (nOut : Nat) (vout : List CTxOut) :
    (onlyOutput nOut vout)[nOut]? = vout[nOut]? := by
  unfold onlyOutput
  rw [List.getElem?_mapIdx, List.getElem?_take_of_lt (Nat.lt_succ_self nOut)]
  simp

/-- What two signed transactions agree on. The signed inputs do where the signed input can be told. -/
structure SameSigned (nHashType : ℤ) (tx : CTransaction) (nIn : Nat) (scriptCode : CScript)
    (tx' : CTransaction) (nIn' : Nat) (scriptCode' : CScript) : Prop where
  nVersion : tx.nVersion = tx'.nVersion
  nTime : tx.nTime = tx'.nTime
  nLockTime : tx.nLockTime = tx'.nLockTime
  code : withoutSeparators scriptCode = withoutSeparators scriptCode'
  input : withoutSeparators scriptCode ≠ [] ∨ anyoneCanPay nHashType = true ∨
    nHashType % 0x20 = SIGHASH_SINGLE ∨ nIn = nIn' →
    ∃ txin txin', tx.vin[nIn]? = some txin ∧ tx'.vin[nIn']? = some txin' ∧
      txin.prevout = txin'.prevout ∧ txin.nSequence = txin'.nSequence ∧ txin.infos = txin'.infos
  prevouts : anyoneCanPay nHashType = false → tx.vin.map CTxIn.prevout = tx'.vin.map CTxIn.prevout
  infos : anyoneCanPay nHashType = false → tx.vin.map CTxIn.infos = tx'.vin.map CTxIn.infos
  outputs : signsAll nHashType → tx.vout = tx'.vout
  sequences : signsAll nHashType → anyoneCanPay nHashType = false →
    tx.vin.map CTxIn.nSequence = tx'.vin.map CTxIn.nSequence
  output : nHashType % 0x20 = SIGHASH_SINGLE →
    ∃ txout, tx.vout[nIn]? = some txout ∧ tx'.vout[nIn']? = some txout

/-- The bytes that are hashed commit to the type of the hash and to what it does not blank. The number
of the signed input is not among them: which input was signed shows where it is the only one that has
a script, the only one at all, or the last output goes with it. -/
theorem signaturePreimage_commits (tx tx' : CTransaction) (nIn nIn' : Nat)
    (scriptCode scriptCode' : CScript) (nHashType nHashType' : UInt8) (preimage : Bytes)
    (htx : tx.InMemory) (htx' : tx'.InMemory) (hcode : SizeT scriptCode.length)
    (hcode' : SizeT scriptCode'.length)
    (h : signaturePreimage scriptCode tx nIn nHashType.toNat = some preimage)
    (h' : signaturePreimage scriptCode' tx' nIn' nHashType'.toNat = some preimage) :
    nHashType = nHashType' ∧
      SameSigned nHashType.toNat tx nIn scriptCode tx' nIn' scriptCode' := by
  obtain ⟨txTmp, hsigned, hpre⟩ := signaturePreimage_some h
  obtain ⟨txTmp', hsigned', hpre'⟩ := signaturePreimage_some h'
  obtain ⟨hversion, htime, hvin, hvout, hlock, htype⟩ := CTransaction.serialize_append
    (signedTx_inMemory htx hcode hsigned) (signedTx_inMemory htx' hcode' hsigned')
    (hpre.symm.trans hpre')
  obtain rfl := hashType_of_toLE htype
  obtain ⟨hlen, hout, rfl⟩ := signedTx_eq hsigned
  obtain ⟨hlen', hout', rfl⟩ := signedTx_eq hsigned'
  dsimp only at hversion htime hvin hvout hlock
  have hcases := signedInput_cases hlen hlen' hvin
  have hindex : ∀ hsingle : (nHashType.toNat : ℤ) % 0x20 = SIGHASH_SINGLE, nIn = nIn' ∧
      onlyOutput nIn tx.vout = onlyOutput nIn' tx'.vout := by
    intro hsingle
    unfold hashedOutputs at hvout
    rw [hsingle, if_neg (by decide), if_pos rfl, if_neg (by decide), if_pos rfl] at hvout
    have hlength := congrArg List.length hvout
    rw [length_onlyOutput (hout hsingle), length_onlyOutput (hout' hsingle)] at hlength
    exact ⟨Nat.succ.inj hlength, hvout⟩
  exact ⟨rfl, {
    nVersion := hversion
    nTime := htime
    nLockTime := hlock
    code := by
      obtain hsame | ⟨-, -, hempty, hempty'⟩ := hcases
      · exact (signedInput_eq hsame).1
      · rw [hempty, hempty']
    input := by
      intro htold
      have hsame : hashedInput scriptCode nIn nHashType.toNat nIn tx.vin[nIn]
          = hashedInput scriptCode' nIn' nHashType.toNat nIn' tx'.vin[nIn'] := by
        obtain hsame | ⟨hacp, hne, hempty, -⟩ := hcases
        · exact hsame
        · obtain hcode | hacp' | hsingle | heq := htold
          · exact absurd hempty hcode
          · rw [hacp] at hacp'
            cases hacp'
          · exact absurd (hindex hsingle).1 hne
          · exact absurd heq hne
      exact ⟨tx.vin[nIn], tx'.vin[nIn'], List.getElem?_eq_getElem hlen,
        List.getElem?_eq_getElem hlen', (signedInput_eq hsame).2⟩
    prevouts := by
      intro hacp
      rw [← map_hashedInputs CTxIn.prevout hacp (fun _ _ => rfl) tx.vin, hvin,
        map_hashedInputs CTxIn.prevout hacp (fun _ _ => rfl)]
    infos := by
      intro hacp
      rw [← map_hashedInputs CTxIn.infos hacp (fun _ _ => rfl) tx.vin, hvin,
        map_hashedInputs CTxIn.infos hacp (fun _ _ => rfl)]
    outputs := by
      intro hall
      unfold hashedOutputs at hvout
      rw [if_neg hall.1, if_neg hall.2, if_neg hall.1, if_neg hall.2] at hvout
      exact hvout
    sequences := by
      intro hall hacp
      have hkeep : ∀ (nIn : Nat) (scriptCode : CScript) (i : Nat) (txin : CTxIn),
          (hashedInput scriptCode nIn nHashType.toNat i txin).nSequence = txin.nSequence :=
        fun _ _ _ _ => if_pos (Or.inr hall)
      rw [← map_hashedInputs CTxIn.nSequence hacp (hkeep nIn scriptCode) tx.vin, hvin,
        map_hashedInputs CTxIn.nSequence hacp (hkeep nIn' scriptCode')]
    output := by
      intro hsingle
      obtain ⟨rfl, honly⟩ := hindex hsingle
      have hget := List.getElem?_eq_getElem (hout hsingle)
      refine ⟨tx.vout[nIn], hget, ?_⟩
      rw [← getElem?_onlyOutput, ← honly, getElem?_onlyOutput, hget] }⟩

end

/-- Two inputs, the first one with a script, and no output -/
def twoInputs (scriptSig : CScript) : CTransaction where
  vin := [{ prevout := ⟨1, 0⟩, scriptSig := scriptSig }, { prevout := ⟨2, 0⟩, scriptSig := [] }]
  vout := []

theorem twoInputs_inMemory {scriptSig : CScript} (h : SizeT scriptSig.length) :
    (twoInputs scriptSig).InMemory := by
  have hzero : (0 : Nat) < 2 ^ 32 := by decide
  have htxin : ∀ txin ∈ (twoInputs scriptSig).vin, txin.InMemory := by
    intro txin hmem
    simp only [twoInputs, List.mem_cons, List.not_mem_nil, or_false] at hmem
    obtain rfl | rfl := hmem
    · exact ⟨⟨⟨show 1 < 2 ^ 256 by decide, hzero⟩, show 0xffffffff < 2 ^ 32 by decide⟩, h,
        sizeT_zero, by simp⟩
    · exact ⟨⟨⟨by decide, hzero⟩, by decide⟩, sizeT_zero, sizeT_zero, by simp⟩
  exact {
    nTime := hzero
    txin := fun txin hmem => (htxin txin hmem).toTyped
    txout := by simp [twoInputs]
    nLockTime := hzero
    mint_numUnits := fun hne => absurd rfl hne
    mint_divisibility := fun hv => by cases hv
    vin := show 2 < 2 ^ 64 by decide
    txinInMemory := htxin
    vout := sizeT_zero
    txoutInMemory := by simp [twoInputs]
    mint_subCurrencyName := sizeT_zero
    mint_subCurrencyId := sizeT_zero
    mint_remintScript := sizeT_zero }

/-- The script of an input is not among the bytes. -/
theorem signaturePreimage_commits_twoInputs :
    SameSigned ((1 : UInt8).toNat : ℤ) (twoInputs []) 0 [OP_CHECKSIG] (twoInputs [OP_1]) 0
      [OP_CHECKSIG] :=
  (signaturePreimage_commits (twoInputs []) (twoInputs [OP_1]) 0 0 [OP_CHECKSIG] [OP_CHECKSIG] 1 1 _
    (twoInputs_inMemory sizeT_zero) (twoInputs_inMemory (show 1 < 2 ^ 64 by decide))
    (show 1 < 2 ^ 64 by decide) (show 1 < 2 ^ 64 by decide) rfl rfl).2

theorem withoutSeparators_nil : withoutSeparators [] = [] := by
  unfold withoutSeparators CScript.findAndDelete
  rw [if_neg (by decide), findAndDeleteFrom, dif_neg (by decide)]
  split
  · rfl
  · next heq => cases heq

/-- With an empty script code the bytes are those for either input, though the two spend different
outputs. -/
theorem signaturePreimage_ambiguous : ∃ preimage : Bytes,
    (twoInputs []).InMemory ∧
    signaturePreimage [] (twoInputs []) 0 ((1 : UInt8).toNat : ℤ) = some preimage ∧
    signaturePreimage [] (twoInputs []) 1 ((1 : UInt8).toNat : ℤ) = some preimage ∧
    (twoInputs []).vin[0]?.map CTxIn.prevout ≠ (twoInputs []).vin[1]?.map CTxIn.prevout := by
  have hcode : (CScript.findAndDelete [] [OP_CODESEPARATOR]).1 = [] := withoutSeparators_nil
  refine ⟨_, twoInputs_inMemory sizeT_zero, rfl, ?_, by decide⟩
  unfold signaturePreimage signedTx
  rw [hcode]
  rfl

end ShinyCoin

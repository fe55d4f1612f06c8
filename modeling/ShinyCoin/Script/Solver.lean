import ShinyCoin.Script.Parsing

/-!
# Standard scripts

`Solver` compares a script with its templates, instruction by instruction, and collects the keys,
hashes and small integers that stand where a template has a parameter. A script that matches has the
shape of its template.
-/

namespace ShinyCoin

/-- `txnouttype` -/
inductive TxnOutType where
  | nonstandard
  | pubkey
  | pubkeyhash
  | scripthash
  | multisig
  deriving DecidableEq, Repr

def OP_INVALIDOPCODE : OpcodeType := 0xff

/-! ## Templates -/

/-- In the order of the map -/
def mTemplates : List (TxnOutType × List OpcodeType) :=
  [ -- "Standard tx, sender provides pubkey, receiver adds signature"
    (.pubkey, [OP_PUBKEY, OP_CHECKSIG]),
    -- "sender provides hash of pubkey, receiver provides signature and pubkey"
    (.pubkeyhash, [OP_DUP, OP_HASH160, OP_PUBKEYHASH, OP_EQUALVERIFY, OP_CHECKSIG]),
    -- "Sender provides N pubkeys, receivers provides M signatures"
    (.multisig, [OP_SMALLINTEGER, OP_PUBKEYS, OP_SMALLINTEGER, OP_CHECKMULTISIG])]

/-- The size of a vector that may be a public key -/
def PubKeySize (vch : Bytes) : Prop := 33 ≤ vch.length ∧ vch.length ≤ 120

instance (vch : Bytes) : Decidable (PubKeySize vch) := inferInstanceAs (Decidable (_ ∧ _))

/-- The loop over the keys for `OP_PUBKEYS`: the keys, and the instruction after them with what is
left of the script. -/
def collectPubKeys (opcode1 : OpcodeType) (vch1 : Bytes) (pc1 : CScript) :
    List Bytes × OpcodeType × Bytes × CScript :=
  if PubKeySize vch1 then
    match _hop : getOp pc1 with
    | none => ([vch1], OP_INVALIDOPCODE, [], pc1)
    | some (opcode, vch, pc) =>
        let r := collectPubKeys opcode vch pc
        (vch1 :: r.1, r.2)
  else ([], opcode1, vch1, pc1)
termination_by pc1.length
decreasing_by exact getOp_length _hop

/-- `OP_0`, or `OP_1` to `OP_16` -/
def isSmallInteger (opcode : OpcodeType) : Bool :=
  opcode == OP_0 || OP_1 ≤ opcode && opcode ≤ OP_16

/-- An instruction against an opcode of a template: what is pushed to `vSolutionsRet`. -/
def matchOpcode (opcode2 opcode1 : OpcodeType) (vch1 : Bytes) : Option (List Bytes) :=
  if opcode2 = OP_PUBKEY then if PubKeySize vch1 then some [vch1] else none
  else if opcode2 = OP_PUBKEYHASH then if vch1.length ≠ 20 then none else some [vch1]
  else if opcode2 = OP_SMALLINTEGER then
    if isSmallInteger opcode1 then some [[UInt8.ofNat (decodeOP_N opcode1)]] else none
  -- "Others must match exactly"
  else if opcode1 ≠ opcode2 ∨ vch1 ≠ [] then none
  else some []

/-- The comparison with a template: `vSolutionsRet` where it matches to the end. -/
def matchTemplate : List OpcodeType → CScript → Option (List Bytes)
  | [], pc1 => if pc1.isEmpty then some [] else none
  | opcode2 :: template, pc1 =>
      (getOp pc1).bind fun (opcode1, vch1, pc1) =>
        if opcode2 = OP_PUBKEYS then
          match template with
          | [] => none
          | opcode2 :: template =>
              let (keys, opcode1, vch1, pc1) := collectPubKeys opcode1 vch1 pc1
              (matchOpcode opcode2 opcode1 vch1).bind fun found =>
                (matchTemplate template pc1).map fun rest => keys ++ found ++ rest
        else
          (matchOpcode opcode2 opcode1 vch1).bind fun found =>
            (matchTemplate template pc1).map fun rest => found ++ rest

/-- "Additional checks for TX_MULTISIG" -/
def multiSigCounts (vSolutions : List Bytes) : Bool :=
  let m := (vSolutions.head?.bind List.head?).getD 0
  let n := (vSolutions.getLast?.bind List.head?).getD 0
  !(m < 1 || n < 1 || m > n || vSolutions.length - 2 != n.toNat)

/-- `Solver(scriptPubKey, typeRet, vSolutionsRet)`; `none` where it returns `false`. -/
def solver (scriptPubKey : CScript) : Option (TxnOutType × List Bytes) :=
  if isPayToScriptHash scriptPubKey then
    some (.scripthash, [(scriptPubKey.drop 2).take 20])
  else
    (mTemplates.findSome? fun (typeRet, template) =>
      (matchTemplate template scriptPubKey).map fun vSolutions => (typeRet, vSolutions)).filter
        fun (typeRet, vSolutions) => typeRet ≠ .multisig || multiSigCounts vSolutions

/-! ## What matches -/

variable {script pc : CScript} {opcode2 opcode1 : OpcodeType} {vch1 : Bytes}
  {template : List OpcodeType} {vSolutions found : List Bytes}

theorem matchTemplate_nil (h : matchTemplate [] pc = some vSolutions) : pc = [] ∧ vSolutions = [] := by
  unfold matchTemplate at h
  split at h
  · next hempty =>
      cases h
      exact ⟨List.isEmpty_iff.mp hempty, rfl⟩
  · cases h

theorem matchTemplate_cons (hop : opcode2 ≠ OP_PUBKEYS)
    (h : matchTemplate (opcode2 :: template) pc = some vSolutions) :
    ∃ opcode1 vch1 rest found more, getOp pc = some (opcode1, vch1, rest) ∧
      matchOpcode opcode2 opcode1 vch1 = some found ∧
      matchTemplate template rest = some more ∧ vSolutions = found ++ more := by
  unfold matchTemplate at h
  obtain ⟨⟨opcode1, vch1, rest⟩, hget, h⟩ := Option.bind_eq_some_iff.mp h
  dsimp only at h
  rw [if_neg hop] at h
  obtain ⟨found, hfound, h⟩ := Option.bind_eq_some_iff.mp h
  obtain ⟨more, hmore, h⟩ := Option.map_eq_some_iff.mp h
  exact ⟨opcode1, vch1, rest, found, more, hget, hfound, hmore, h.symm⟩

/-- An opcode that stands for itself -/
def Literal (opcode : OpcodeType) : Prop :=
  opcode ≠ OP_PUBKEY ∧ opcode ≠ OP_PUBKEYHASH ∧ opcode ≠ OP_SMALLINTEGER ∧ opcode ≠ OP_PUBKEYS

instance (opcode : OpcodeType) : Decidable (Literal opcode) := inferInstanceAs (Decidable (_ ∧ _))

/-- An opcode of the template that stands for itself stands in the script. -/
theorem matchTemplate_literal (hop : Literal opcode2)
    (h : matchTemplate (opcode2 :: template) pc = some vSolutions) :
    ∃ rest, getOp pc = some (opcode2, [], rest) ∧
      matchTemplate template rest = some vSolutions := by
  obtain ⟨hkey, hhash, hint, hkeys⟩ := hop
  obtain ⟨opcode1, vch1, rest, found, more, hget, hfound, hmore, rfl⟩ := matchTemplate_cons hkeys h
  unfold matchOpcode at hfound
  rw [if_neg hkey, if_neg hhash, if_neg hint] at hfound
  split at hfound
  · cases hfound
  · next hsame =>
      rw [not_or, not_not, not_not] at hsame
      cases hfound
      obtain ⟨rfl, rfl⟩ := hsame
      exact ⟨rest, hget, hmore⟩

/-- A script that matches opcodes that stand for themselves has these and nothing else. -/
theorem parses_of_literals (hops : (template.all fun opcode => decide (Literal opcode)) = true)
    (h : matchTemplate template pc = some vSolutions) :
    Parses pc (template.map fun opcode => (opcode, [])) ∧ vSolutions = [] := by
  induction template generalizing pc with
  | nil =>
      obtain ⟨rfl, rfl⟩ := matchTemplate_nil h
      exact ⟨.nil, rfl⟩
  | cons opcode template ih =>
      rw [List.all_cons, Bool.and_eq_true, decide_eq_true_eq] at hops
      obtain ⟨rest, hget, hrest⟩ := matchTemplate_literal hops.1 h
      obtain ⟨hparses, hnil⟩ := ih hops.2 hrest
      exact ⟨.cons hget hparses, hnil⟩

/-- The keys are pushes in a row; what comes after them is not the size of a key, or the script
ends there. -/
theorem collectPubKeys_spec {ops : List (OpcodeType × Bytes)} {keys : List Bytes} {opcode : OpcodeType}
    {vch : Bytes} {rest : CScript} (hget : getOp script = some (opcode1, vch1, pc))
    (h : collectPubKeys opcode1 vch1 pc = (keys, opcode, vch, rest)) (hop : opcode ≠ OP_INVALIDOPCODE)
    (hrest : Parses rest ops) :
    (∀ key ∈ keys, PubKeySize key) ∧
    ∃ pushes : List (OpcodeType × Bytes), pushes.map Prod.snd = keys ∧
      Parses script (pushes ++ (opcode, vch) :: ops) := by
  fun_induction collectPubKeys opcode1 vch1 pc generalizing script keys with
  | case1 opcode1 vch1 pc hsize hnone =>
      cases h
      exact absurd rfl hop
  | case2 opcode1 vch1 pc hsize opcode' vch' pc' hsome r =>
      rename_i ih
      cases hr : collectPubKeys opcode' vch' pc' with
      | mk keys' after =>
          rw [show r = (keys', after) from hr] at h
          cases h
          obtain ⟨hsizes, pushes, rfl, hparses⟩ := ih hsome hr
          refine ⟨?_, (opcode1, vch1) :: pushes, rfl, .cons hget hparses⟩
          intro key hkey
          rcases List.mem_cons.mp hkey with rfl | hkey
          · exact hsize
          · exact hsizes key hkey
  | case3 opcode1 vch1 pc hsize =>
      cases h
      exact ⟨by simp, [], rfl, .cons hget hrest⟩

theorem matchTemplate_pubkeys
    (h : matchTemplate (OP_PUBKEYS :: opcode2 :: template) script = some vSolutions) :
    ∃ opcode1 vch1 pc keys opcode vch rest found more, getOp script = some (opcode1, vch1, pc) ∧
      collectPubKeys opcode1 vch1 pc = (keys, opcode, vch, rest) ∧
      matchOpcode opcode2 opcode vch = some found ∧ matchTemplate template rest = some more ∧
      vSolutions = keys ++ found ++ more := by
  unfold matchTemplate at h
  obtain ⟨⟨opcode1, vch1, pc⟩, hget, h⟩ := Option.bind_eq_some_iff.mp h
  dsimp only at h
  rw [if_pos rfl] at h
  cases hcollect : collectPubKeys opcode1 vch1 pc with
  | mk keys after =>
      obtain ⟨opcode, vch, rest⟩ := after
      rw [hcollect] at h
      obtain ⟨found, hfound, h⟩ := Option.bind_eq_some_iff.mp h
      obtain ⟨more, hmore, h⟩ := Option.map_eq_some_iff.mp h
      exact ⟨opcode1, vch1, pc, keys, opcode, vch, rest, found, more, hget, hcollect, hfound, hmore,
        h.symm⟩

theorem matchOpcode_smallInteger (h : matchOpcode OP_SMALLINTEGER opcode1 vch1 = some found) :
    isSmallInteger opcode1 = true ∧ found = [[UInt8.ofNat (decodeOP_N opcode1)]] := by
  unfold matchOpcode at h
  rw [if_neg (by decide), if_neg (by decide), if_pos rfl] at h
  split at h
  · next hint =>
      cases h
      exact ⟨hint, rfl⟩
  · cases h

/-! ## The shapes of standard scripts -/

theorem solver_of_not_scriptHash {typeRet : TxnOutType} (hnot : typeRet ≠ .scripthash)
    (h : solver script = some (typeRet, vSolutions)) :
    isPayToScriptHash script = false ∧ (typeRet ≠ .multisig ∨ multiSigCounts vSolutions = true) ∧
    ∃ template, (typeRet, template) ∈ mTemplates ∧ matchTemplate template script = some vSolutions := by
  unfold solver at h
  split at h
  · cases h
    exact absurd rfl hnot
  · next hscript =>
      obtain ⟨hfind, hcounts⟩ := Option.filter_eq_some_iff.mp h
      obtain ⟨⟨type, template⟩, hmem, hmatch⟩ := List.exists_of_findSome?_eq_some hfind
      obtain ⟨vs, hvs, heq⟩ := Option.map_eq_some_iff.mp hmatch
      cases heq
      refine ⟨Bool.eq_false_iff.mpr hscript, ?_, template, hmem, hvs⟩
      simpa using hcounts

theorem solver_scripthash (h : solver script = some (.scripthash, vSolutions)) :
    isPayToScriptHash script = true ∧ vSolutions = [(script.drop 2).take 20] := by
  unfold solver at h
  split at h
  · next hscript =>
      cases h
      exact ⟨hscript, rfl⟩
  · obtain ⟨hfind, -⟩ := Option.filter_eq_some_iff.mp h
    obtain ⟨⟨type, template⟩, hmem, hmatch⟩ := List.exists_of_findSome?_eq_some hfind
    obtain ⟨vs, -, heq⟩ := Option.map_eq_some_iff.mp hmatch
    cases heq
    simp [mTemplates] at hmem

theorem solver_ne_nonstandard : solver script ≠ some (.nonstandard, vSolutions) := by
  intro h
  obtain ⟨-, -, template, hmem, -⟩ := solver_of_not_scriptHash (by decide) h
  simp [mTemplates] at hmem

theorem solver_pubkey (h : solver script = some (.pubkey, vSolutions)) :
    isPayToScriptHash script = false ∧
    ∃ opcode vchPubKey, vSolutions = [vchPubKey] ∧ PubKeySize vchPubKey ∧
      Parses script [(opcode, vchPubKey), (OP_CHECKSIG, [])] := by
  obtain ⟨hscript, -, template, hmem, hmatch⟩ := solver_of_not_scriptHash (by decide) h
  have htemplate : template = [OP_PUBKEY, OP_CHECKSIG] := by simpa [mTemplates] using hmem
  subst htemplate
  refine ⟨hscript, ?_⟩
  obtain ⟨opcode, vchPubKey, rest, found, more, hget, hfound, hmore, rfl⟩ :=
    matchTemplate_cons (by decide) hmatch
  obtain ⟨hrest, rfl⟩ := parses_of_literals (by decide) hmore
  unfold matchOpcode at hfound
  rw [if_pos rfl] at hfound
  split at hfound
  · next hsize =>
      cases hfound
      exact ⟨opcode, vchPubKey, rfl, hsize, .cons hget hrest⟩
  · cases hfound

theorem solver_pubkeyhash (h : solver script = some (.pubkeyhash, vSolutions)) :
    isPayToScriptHash script = false ∧
    ∃ opcode hash160, vSolutions = [hash160] ∧ hash160.length = 20 ∧
      Parses script [(OP_DUP, []), (OP_HASH160, []), (opcode, hash160), (OP_EQUALVERIFY, []),
        (OP_CHECKSIG, [])] := by
  obtain ⟨hscript, -, template, hmem, hmatch⟩ := solver_of_not_scriptHash (by decide) h
  have htemplate : template = [OP_DUP, OP_HASH160, OP_PUBKEYHASH, OP_EQUALVERIFY, OP_CHECKSIG] := by
    simpa [mTemplates] using hmem
  subst htemplate
  refine ⟨hscript, ?_⟩
  obtain ⟨rest₁, hget₁, hmatch⟩ := matchTemplate_literal (by decide) hmatch
  obtain ⟨rest₂, hget₂, hmatch⟩ := matchTemplate_literal (by decide) hmatch
  obtain ⟨opcode, hash160, rest, found, more, hget, hfound, hmore, rfl⟩ :=
    matchTemplate_cons (by decide) hmatch
  obtain ⟨hrest, rfl⟩ := parses_of_literals (by decide) hmore
  unfold matchOpcode at hfound
  rw [if_neg (by decide), if_pos rfl] at hfound
  split at hfound
  · cases hfound
  · next hsize =>
      cases hfound
      exact ⟨opcode, hash160, rfl, not_not.mp hsize, .cons hget₁ (.cons hget₂ (.cons hget hrest))⟩

/-- `m` of `n` keys -/
structure MultiSigScript (script : CScript) (m : Nat) (keys : List Bytes) : Prop where
  parses : ∃ opM opN, ∃ pushes : List (OpcodeType × Bytes), pushes.map Prod.snd = keys ∧
    Parses script ((opM, []) :: (pushes ++ [(opN, []), (OP_CHECKMULTISIG, [])])) ∧
    isSmallInteger opM = true ∧ decodeOP_N opM = m ∧
    isSmallInteger opN = true ∧ decodeOP_N opN = keys.length
  size : ∀ key ∈ keys, PubKeySize key
  pos : 0 < m
  le : m ≤ keys.length
  keys_le : keys.length ≤ 16

theorem decodeOP_N_le {opcode : OpcodeType} (h : isSmallInteger opcode = true) :
    decodeOP_N opcode ≤ 16 := by
  unfold isSmallInteger at h
  unfold decodeOP_N
  split
  · exact Nat.zero_le _
  · next hne =>
      have hle : opcode ≤ OP_16 := by simpa [hne] using (by simpa [hne] using h : _ ∧ _).2
      have := UInt8.le_iff_toNat_le.mp hle
      have h16 : OP_16.toNat = 96 := rfl
      have h1 : OP_1.toNat = 81 := rfl
      omega

theorem multiSigCounts_eq (m n : UInt8) (keys : List Bytes) :
    multiSigCounts ([m] :: (keys ++ [[n]])) = true
      ↔ 1 ≤ m.toNat ∧ 1 ≤ n.toNat ∧ m.toNat ≤ n.toNat ∧ keys.length = n.toNat := by
  have hback : ([m] :: (keys ++ [[n]])).getLast? = some [n] := by
    rw [← List.cons_append]
    exact List.getLast?_concat
  have hlen : ([m] :: (keys ++ [[n]])).length - 2 = keys.length := by simp
  unfold multiSigCounts
  rw [hback, hlen]
  simp [UInt8.lt_iff_toNat_lt]
  omega

theorem smallInteger_range {opcode : OpcodeType} (hop : isSmallInteger opcode = true)
    (hpos : 0 < decodeOP_N opcode) : OP_1 ≤ opcode ∧ opcode ≤ OP_16 := by
  have hne : opcode ≠ OP_0 := by
    rintro rfl
    exact absurd hpos (by decide)
  unfold isSmallInteger at hop
  simpa [hne] using hop

/-- A number has no data. -/
theorem Parses.smallInteger {ops : List (OpcodeType × Bytes)} {opcode : OpcodeType} {vch : Bytes}
    (h : Parses script ops) (hmem : (opcode, vch) ∈ ops) (hop : isSmallInteger opcode = true)
    (hpos : 0 < decodeOP_N opcode) : vch = [] := by
  by_contra hvch
  have hlt : OP_PUSHDATA4 < opcode :=
    UInt8.lt_of_lt_of_le (by decide) (smallInteger_range hop hpos).1
  exact UInt8.not_lt.mpr (h.push hmem hvch) hlt

theorem solver_multisig (h : solver script = some (.multisig, vSolutions)) :
    isPayToScriptHash script = false ∧
    ∃ m keys, vSolutions = [UInt8.ofNat m] :: (keys ++ [[UInt8.ofNat keys.length]]) ∧
      MultiSigScript script m keys := by
  obtain ⟨hscript, hcounts, template, hmem, hmatch⟩ := solver_of_not_scriptHash (by decide) h
  have htemplate : template = [OP_SMALLINTEGER, OP_PUBKEYS, OP_SMALLINTEGER, OP_CHECKMULTISIG] := by
    simpa [mTemplates] using hmem
  subst htemplate
  refine ⟨hscript, ?_⟩
  obtain ⟨opM, vchM, rest₁, found, more, hgetM, hfound, hmatch₁, rfl⟩ :=
    matchTemplate_cons (by decide) hmatch
  obtain ⟨hopM, rfl⟩ := matchOpcode_smallInteger hfound
  obtain ⟨opcode1, vch1, pc, keys, opN, vchN, rest, found, more, hget, hcollect, hfound, hmore, rfl⟩ :=
    matchTemplate_pubkeys hmatch₁
  obtain ⟨hopN, rfl⟩ := matchOpcode_smallInteger hfound
  obtain ⟨hrest, rfl⟩ := parses_of_literals (by decide) hmore
  have hvalid : opN ≠ OP_INVALIDOPCODE := by
    rintro rfl
    exact absurd hopN (by decide)
  obtain ⟨hsizes, pushes, hpushes, hparses⟩ := collectPubKeys_spec hget hcollect hvalid hrest
  have hM := decodeOP_N_le hopM
  have hN := decodeOP_N_le hopN
  have hbyte : ∀ n, n ≤ 16 → (UInt8.ofNat n).toNat = n :=
    fun n hn => UInt8.toNat_ofNat_of_lt (lt_of_le_of_lt hn (by decide))
  have hcounts := hcounts.resolve_left (by decide)
  rw [List.append_nil, List.singleton_append, multiSigCounts_eq, hbyte _ hM, hbyte _ hN] at hcounts
  obtain ⟨hm, hn, hle, hlen⟩ := hcounts
  refine ⟨decodeOP_N opM, keys, ?_, ?_⟩
  · rw [hlen, List.append_nil, List.singleton_append]
  · have hall := Parses.cons hgetM hparses
    obtain rfl : vchM = [] := hall.smallInteger (by simp) hopM (by omega)
    obtain rfl : vchN = [] := hall.smallInteger (by simp) hopN (by omega)
    exact ⟨⟨opM, opN, pushes, hpushes, hall, hopM, rfl, hopN, hlen.symm⟩, hsizes, by omega,
      by omega, by omega⟩

end ShinyCoin

import ShinyCoin.Script.Solver

/-!
# The grammar of standard scripts

What a standard script is, byte by byte: the instructions that stand in it, and the ways to write the
pushes of its keys and hashes. `Solver` accepts these scripts and no others, whatever the order of its
templates.
-/

namespace ShinyCoin

/-- The standard scripts, each with its type and its solutions -/
inductive Standard : CScript → TxnOutType → List Bytes → Prop
  | scripthash {hash160 : Bytes} : hash160.length = 20 →
      Standard (OP_HASH160 :: 0x14 :: (hash160 ++ [OP_EQUAL])) .scripthash [hash160]
  | pubkey {vchPubKey : Bytes} {push : CScript} : IsPush vchPubKey push → PubKeySize vchPubKey →
      Standard (push ++ [OP_CHECKSIG]) .pubkey [vchPubKey]
  | pubkeyhash {hash160 : Bytes} {push : CScript} : IsPush hash160 push → hash160.length = 20 →
      Standard (OP_DUP :: OP_HASH160 :: (push ++ [OP_EQUALVERIFY, OP_CHECKSIG])) .pubkeyhash
        [hash160]
  | multisig {m : Nat} {keys : List Bytes} {pushes : List CScript} :
      List.Forall₂ IsPush keys pushes → (∀ key ∈ keys, PubKeySize key) → 1 ≤ m → m ≤ keys.length →
      keys.length ≤ 16 →
      Standard (encodeOP_N m :: (pushes.flatten ++ [encodeOP_N keys.length, OP_CHECKMULTISIG]))
        .multisig ([UInt8.ofNat m] :: (keys ++ [[UInt8.ofNat keys.length]]))

/-! ## Instructions by their bytes -/

section

variable {pc rest : CScript} {opcode : OpcodeType} {vch : Bytes}

theorem pushSize_direct {nSize : Nat} (hlt : opcode < OP_PUSHDATA1)
    (h : pushSize opcode pc = some (nSize, rest)) : nSize = opcode.toNat ∧ rest = pc := by
  have hwidth : sizeWidth opcode = 0 := if_pos hlt
  unfold pushSize at h
  rw [hwidth, if_neg (Nat.not_lt_zero _), if_pos hlt, List.drop_zero] at h
  cases h
  exact ⟨rfl, rfl⟩

theorem pushSize_sized {nSize : Nat} (hlt : ¬ opcode < OP_PUSHDATA1)
    (h : pushSize opcode pc = some (nSize, rest)) :
    nSize < 256 ^ sizeWidth opcode ∧ pc = Lib.toLE (sizeWidth opcode) nSize ++ rest := by
  unfold pushSize at h
  by_cases hwidth : pc.length < sizeWidth opcode
  · rw [if_pos hwidth] at h
    cases h
  · rw [if_neg hwidth, if_neg hlt] at h
    cases h
    have hlen : (pc.take (sizeWidth opcode)).length = sizeWidth opcode :=
      List.length_take_of_le (Nat.le_of_not_lt hwidth)
    constructor
    · calc Lib.ofLE (pc.take (sizeWidth opcode))
          < 256 ^ (pc.take (sizeWidth opcode)).length := Lib.ofLE_lt _
        _ = 256 ^ sizeWidth opcode := by rw [hlen]
    · have hback := Lib.toLE_ofLE (pc.take (sizeWidth opcode))
      rw [hlen] at hback
      rw [hback]
      exact (List.take_append_drop _ pc).symm

theorem sizeWidth_mem (hmin : ¬ opcode < OP_PUSHDATA1) (hmax : opcode ≤ OP_PUSHDATA4) :
    (opcode, sizeWidth opcode) ∈ [(OP_PUSHDATA1, 1), (OP_PUSHDATA2, 2), (OP_PUSHDATA4, 4)] := by
  rw [UInt8.not_lt, UInt8.le_iff_toNat_le] at hmin
  rw [UInt8.le_iff_toNat_le] at hmax
  have hvalue : opcode.toNat = OP_PUSHDATA1.toNat ∨ opcode.toNat = OP_PUSHDATA2.toNat
      ∨ opcode.toNat = OP_PUSHDATA4.toNat := by
    simp only [OP_PUSHDATA1, OP_PUSHDATA2, OP_PUSHDATA4, UInt8.reduceToNat] at hmin hmax ⊢
    omega
  simp only [UInt8.toNat_inj] at hvalue
  rcases hvalue with rfl | rfl | rfl <;> decide

/-- What `GetOp` reads as a push is one. -/
theorem getOp_isPush (h : getOp pc = some (opcode, vch, rest)) (hop : opcode ≤ OP_PUSHDATA4) :
    ∃ push, IsPush vch push ∧ pc = push ++ rest := by
  cases pc with
  | nil => cases h
  | cons op pc =>
      rw [getOp_cons] at h
      split at h
      · obtain ⟨⟨nSize, pc'⟩, hsize, h⟩ := Option.bind_eq_some_iff.mp h
        dsimp only at h
        split at h
        · cases h
        · next hlen =>
            cases h
            have htake : (pc'.take nSize).length = nSize :=
              List.length_take_of_le (Nat.le_of_not_lt hlen)
            by_cases hlt : opcode < OP_PUSHDATA1
            · obtain ⟨rfl, rfl⟩ := pushSize_direct hlt hsize
              refine ⟨_, .direct ?_, ?_⟩
              · rw [htake]
                exact UInt8.lt_iff_toNat_lt.mp hlt
              · rw [htake, UInt8.ofNat_toNat, List.cons_append, List.take_append_drop]
            · obtain ⟨hn, rfl⟩ := pushSize_sized hlt hsize
              refine ⟨_, .sized (sizeWidth_mem hlt hop) (by rwa [htake]), ?_⟩
              rw [htake, List.cons_append, List.append_assoc, List.take_append_drop]
      · next hnot =>
          cases h
          exact absurd hop hnot

theorem getOp_isOpcode (h : getOp pc = some (opcode, vch, rest)) (hop : OP_PUSHDATA4 < opcode) :
    vch = [] ∧ pc = opcode :: rest := by
  cases pc with
  | nil => cases h
  | cons op pc =>
      by_cases hlt : OP_PUSHDATA4 < op
      · rw [getOp_cons_of_lt hlt] at h
        cases h
        exact ⟨rfl, rfl⟩
      · obtain ⟨size, -, heq⟩ := getOp_eq_append h
        obtain rfl : op = opcode := (List.cons.inj heq).1
        exact absurd hop hlt

/-- A push, by its bytes -/
theorem Parses.isPush {ops : List (OpcodeType × Bytes)} (h : Parses pc ((opcode, vch) :: ops))
    (hdata : vch ≠ []) : ∃ push rest, IsPush vch push ∧ pc = push ++ rest ∧ Parses rest ops := by
  cases h with
  | cons hget hrest =>
      obtain ⟨push, hpush, rfl⟩ := getOp_isPush hget (getOp_push hget hdata)
      exact ⟨push, _, hpush, rfl, hrest⟩

theorem Parses.isPushes {pushes ops : List (OpcodeType × Bytes)} (h : Parses pc (pushes ++ ops))
    (hdata : ∀ vch ∈ pushes.map Prod.snd, vch ≠ []) :
    ∃ bytes rest, List.Forall₂ IsPush (pushes.map Prod.snd) bytes ∧ pc = bytes.flatten ++ rest ∧
      Parses rest ops := by
  induction pushes generalizing pc with
  | nil => exact ⟨[], pc, .nil, rfl, h⟩
  | cons op pushes ih =>
      obtain ⟨push, after, hpush, rfl, hafter⟩ := Parses.isPush h (hdata _ List.mem_cons_self)
      obtain ⟨bytes, rest, hall, rfl, hrest⟩ :=
        ih hafter fun vch hmem => hdata vch (List.mem_cons_of_mem _ hmem)
      refine ⟨push :: bytes, rest, .cons hpush hall, ?_, hrest⟩
      rw [List.flatten_cons, List.append_assoc]

theorem Parses.isOpcode {ops : List (OpcodeType × Bytes)}
    (h : Parses pc ((opcode, vch) :: ops)) (hop : OP_PUSHDATA4 < opcode) :
    ∃ rest, pc = opcode :: rest ∧ Parses rest ops := by
  cases h with
  | cons hget hrest =>
      obtain ⟨-, rfl⟩ := getOp_isOpcode hget hop
      exact ⟨_, rfl, hrest⟩

/-- Pushes in a row are read back. -/
theorem parses_pushes {keys : List Bytes} {pushes : List CScript} {ops : List (OpcodeType × Bytes)}
    (h : List.Forall₂ IsPush keys pushes) (hrest : Parses rest ops) :
    ∃ read : List (OpcodeType × Bytes), read.map Prod.snd = keys ∧
      Parses (pushes.flatten ++ rest) (read ++ ops) := by
  induction h with
  | nil => exact ⟨[], rfl, hrest⟩
  | @cons key push keys pushes hpush _ ih =>
      obtain ⟨read, hkeys, hparses⟩ := ih
      obtain ⟨op, -, hget⟩ := hpush.getOp_append (pushes.flatten ++ rest)
      refine ⟨(op, key) :: read, congrArg (List.cons key) hkeys, ?_⟩
      rw [List.flatten_cons, List.append_assoc]
      exact .cons hget hparses

theorem Parses.end (h : Parses pc []) : pc = [] := by
  cases h
  rfl

end

/-! ## What `Solver` accepts is standard -/

variable {script pc rest : CScript} {typeRet : TxnOutType} {vSolutions : List Bytes}
  {opcode opcode2 : OpcodeType} {vch : Bytes} {template : List OpcodeType}

theorem encodeOP_N_decodeOP_N (hop : isSmallInteger opcode = true) (hpos : 0 < decodeOP_N opcode) :
    encodeOP_N (decodeOP_N opcode) = opcode := by
  have hrange := smallInteger_range hop hpos
  have hle : OP_1.toNat ≤ opcode.toNat := UInt8.le_iff_toNat_le.mp hrange.1
  have hne : opcode ≠ OP_0 := by
    rintro rfl
    exact absurd hpos (by decide)
  have hlt := opcode.toNat_lt
  have hdecode : decodeOP_N opcode = opcode.toNat - 80 := if_neg hne
  have h1 : OP_1.toNat = 81 := rfl
  unfold encodeOP_N
  rw [if_neg (by omega), hdecode]
  apply UInt8.toNat_inj.mp
  rw [UInt8.toNat_sub, UInt8.toNat_add, UInt8.toNat_ofNat', h1]
  have hone : (1 : UInt8).toNat = 1 := rfl
  omega

theorem PubKeySize.ne_nil {key : Bytes} (h : PubKeySize key) : key ≠ [] := by
  rintro rfl
  exact absurd h.1 (by decide)

theorem MultiSigScript.standard {m : Nat} {keys : List Bytes} (h : MultiSigScript script m keys) :
    Standard script .multisig ([UInt8.ofNat m] :: (keys ++ [[UInt8.ofNat keys.length]])) := by
  obtain ⟨opM, opN, pushes, rfl, hparses, hopM, hM, hopN, hN⟩ := h.parses
  have hpos := h.pos
  have hle := h.le
  have hlt : ∀ op, isSmallInteger op = true → 0 < decodeOP_N op → OP_PUSHDATA4 < op :=
    fun op hop hpos => UInt8.lt_of_lt_of_le (by decide) (smallInteger_range hop hpos).1
  obtain ⟨rest₁, rfl, hrest₁⟩ := hparses.isOpcode (hlt opM hopM (by omega))
  obtain ⟨bytes, rest₂, hall, rfl, hrest₂⟩ := hrest₁.isPushes fun key hkey => (h.size key hkey).ne_nil
  obtain ⟨rest₃, rfl, hrest₃⟩ := hrest₂.isOpcode (hlt opN hopN (by omega))
  obtain ⟨rest₄, rfl, hrest₄⟩ := hrest₃.isOpcode (by decide)
  obtain rfl := hrest₄.end
  have hstandard := Standard.multisig hall h.size hpos hle h.keys_le
  rw [← hM, encodeOP_N_decodeOP_N hopM (by omega), hM, ← hN, encodeOP_N_decodeOP_N hopN (by omega),
    hN] at hstandard
  exact hstandard

theorem solver_standard (h : solver script = some (typeRet, vSolutions)) :
    Standard script typeRet vSolutions := by
  cases typeRet with
  | nonstandard => exact absurd h solver_ne_nonstandard
  | pubkey =>
      obtain ⟨-, opcode, vchPubKey, rfl, hsize, hparses⟩ := solver_pubkey h
      obtain ⟨push, rest₁, hpush, rfl, hrest₁⟩ := hparses.isPush hsize.ne_nil
      obtain ⟨rest₂, rfl, hrest₂⟩ := hrest₁.isOpcode (by decide)
      obtain rfl := hrest₂.end
      exact .pubkey hpush hsize
  | pubkeyhash =>
      obtain ⟨-, opcode, hash160, rfl, hsize, hparses⟩ := solver_pubkeyhash h
      have hdata : hash160 ≠ [] := by
        rintro rfl
        cases hsize
      obtain ⟨rest₁, rfl, hrest₁⟩ := hparses.isOpcode (by decide)
      obtain ⟨rest₂, rfl, hrest₂⟩ := hrest₁.isOpcode (by decide)
      obtain ⟨push, rest₃, hpush, rfl, hrest₃⟩ := hrest₂.isPush hdata
      obtain ⟨rest₄, rfl, hrest₄⟩ := hrest₃.isOpcode (by decide)
      obtain ⟨rest₅, rfl, hrest₅⟩ := hrest₄.isOpcode (by decide)
      obtain rfl := hrest₅.end
      exact .pubkeyhash hpush hsize
  | scripthash =>
      obtain ⟨hscript, rfl⟩ := solver_scripthash h
      obtain ⟨hash, hlen, hdata, heq⟩ := isPayToScriptHash_eq hscript
      have hpush : pushData hash = 0x14 :: hash := by
        unfold pushData
        rw [hlen]
        rfl
      rw [hdata, heq, hpush]
      exact .scripthash hlen
  | multisig =>
      obtain ⟨-, m, keys, rfl, hmultisig⟩ := solver_multisig h
      exact hmultisig.standard

/-! ## What is standard is accepted -/

theorem matchTemplate_instruction (hop : opcode2 ≠ OP_PUBKEYS)
    (h : getOp script = some (opcode, vch, rest)) :
    matchTemplate (opcode2 :: template) script = (matchOpcode opcode2 opcode vch).bind fun found =>
      (matchTemplate template rest).map fun more => found ++ more := by
  rw [matchTemplate, h, Option.bind_some]
  exact if_neg hop

/-- An opcode that stands for itself, where it is the next one -/
theorem matchTemplate_same (hop : Literal opcode2) (hlt : OP_PUSHDATA4 < opcode2) :
    matchTemplate (opcode2 :: template) (opcode2 :: rest) = matchTemplate template rest := by
  obtain ⟨hkey, hhash, hint, hkeys⟩ := hop
  rw [matchTemplate_instruction hkeys (getOp_cons_of_lt hlt), matchOpcode, if_neg hkey, if_neg hhash,
    if_neg hint, if_neg (by simp), Option.bind_some]
  exact Option.map_id'

theorem matchTemplate_other (hop : Literal opcode2) (hlt : OP_PUSHDATA4 < opcode)
    (hne : opcode ≠ opcode2) : matchTemplate (opcode2 :: template) (opcode :: rest) = none := by
  obtain ⟨hkey, hhash, hint, hkeys⟩ := hop
  rw [matchTemplate_instruction hkeys (getOp_cons_of_lt hlt), matchOpcode, if_neg hkey, if_neg hhash,
    if_neg hint, if_pos (Or.inl hne), Option.bind_none]

/-- Where a key is wanted, an opcode is not one. -/
theorem matchTemplate_noKey (hlt : OP_PUSHDATA4 < opcode) :
    matchTemplate (OP_PUBKEY :: template) (opcode :: rest) = none := by
  rw [matchTemplate_instruction (by decide) (getOp_cons_of_lt hlt), matchOpcode, if_pos rfl,
    if_neg (by decide), Option.bind_none]

theorem matchTemplate_end : matchTemplate [] [] = some [] := rfl

/-- The loop over the keys takes the pushes, and stops at the opcode after them. -/
theorem collectPubKeys_pushes {keys : List Bytes} {pushes : List CScript}
    (hall : List.Forall₂ IsPush keys pushes) (hsize : ∀ key ∈ keys, PubKeySize key)
    (hlt : OP_PUSHDATA4 < opcode) (rest : CScript) :
    ∃ opcode1 vch1 pc1, getOp (pushes.flatten ++ opcode :: rest) = some (opcode1, vch1, pc1) ∧
      collectPubKeys opcode1 vch1 pc1 = (keys, opcode, [], rest) := by
  induction hall with
  | nil =>
      refine ⟨opcode, [], rest, getOp_cons_of_lt hlt, ?_⟩
      rw [collectPubKeys, if_neg (by decide)]
  | @cons key push keys pushes hpush hall ih =>
      obtain ⟨opcode1, vch1, pc1, hget, hcollect⟩ :=
        ih fun key hmem => hsize key (List.mem_cons_of_mem _ hmem)
      obtain ⟨op, -, hkey⟩ := hpush.getOp_append (pushes.flatten ++ opcode :: rest)
      refine ⟨op, key, pushes.flatten ++ opcode :: rest, ?_, ?_⟩
      · rw [List.flatten_cons, List.append_assoc]
        exact hkey
      · rw [collectPubKeys, if_pos (hsize key List.mem_cons_self)]
        split
        · next hnone =>
            rw [hget] at hnone
            cases hnone
        · next hsome =>
            rw [hget] at hsome
            cases hsome
            rw [hcollect]

theorem encodeOP_N_spec {n : Nat} (hle : n ≤ 16) : isSmallInteger (encodeOP_N n) = true ∧
    decodeOP_N (encodeOP_N n) = n ∧ encodeOP_N n ≤ OP_16 := by
  have hall : ∀ n : Fin 17, isSmallInteger (encodeOP_N n) = true ∧
      decodeOP_N (encodeOP_N n) = n ∧ encodeOP_N n ≤ OP_16 := by
    decide
  exact hall ⟨n, by omega⟩

theorem lt_encodeOP_N {n : Nat} (hpos : 1 ≤ n) (hle : n ≤ 16) : OP_PUSHDATA4 < encodeOP_N n := by
  obtain ⟨hsmall, hdecode, -⟩ := encodeOP_N_spec hle
  exact UInt8.lt_of_lt_of_le (by decide) (smallInteger_range hsmall (by omega)).1

/-- The opcode of a small integer pushes nothing that is in the script. -/
theorem getOp_encodeOP_N {n : Nat} (hle : n ≤ 16) (rest : CScript) :
    getOp (encodeOP_N n :: rest) = some (encodeOP_N n, [], rest) := by
  by_cases hzero : n = 0
  · rw [hzero]
    rfl
  · exact getOp_cons_of_lt (lt_encodeOP_N (by omega) hle)

theorem solver_of_notScriptHash (hscript : isPayToScriptHash script = false) :
    solver script = (((matchTemplate [OP_PUBKEY, OP_CHECKSIG] script).map (.pubkey, ·)).or
      (((matchTemplate [OP_DUP, OP_HASH160, OP_PUBKEYHASH, OP_EQUALVERIFY, OP_CHECKSIG] script).map
        (.pubkeyhash, ·)).or
      ((matchTemplate [OP_SMALLINTEGER, OP_PUBKEYS, OP_SMALLINTEGER, OP_CHECKMULTISIG] script).map
        (.multisig, ·)))).filter fun (typeRet, vSolutions) =>
          typeRet ≠ .multisig || multiSigCounts vSolutions := by
  unfold solver
  rw [hscript, if_neg (by decide)]
  congr 1
  simp only [mTemplates, List.findSome?_cons, List.findSome?_nil]
  rcases matchTemplate [OP_PUBKEY, OP_CHECKSIG] script with _ | found
  · rcases matchTemplate [OP_DUP, OP_HASH160, OP_PUBKEYHASH, OP_EQUALVERIFY, OP_CHECKSIG] script
      with _ | found
    · rcases matchTemplate [OP_SMALLINTEGER, OP_PUBKEYS, OP_SMALLINTEGER, OP_CHECKMULTISIG] script
        with _ | found
      · rfl
      · rfl
    · rfl
  · rfl

/-- What does not begin with `OP_HASH160` is not paid to a script. -/
theorem notScriptHash (hne : opcode ≠ OP_HASH160) :
    isPayToScriptHash (opcode :: rest) = false := by
  unfold isPayToScriptHash
  simp [hne]

theorem matchTemplate_pubkey {vchPubKey : Bytes} {push : CScript} (hpush : IsPush vchPubKey push)
    (hsize : PubKeySize vchPubKey) :
    matchTemplate [OP_PUBKEY, OP_CHECKSIG] (push ++ [OP_CHECKSIG]) = some [vchPubKey] := by
  obtain ⟨op, -, hget⟩ := hpush.getOp_append [OP_CHECKSIG]
  rw [matchTemplate_instruction (by decide) hget, matchTemplate_same (by decide) (by decide),
    matchTemplate_end, matchOpcode, if_pos rfl, if_pos hsize]
  rfl

theorem matchTemplate_pubkeyhash {hash160 : Bytes} {push : CScript} (hpush : IsPush hash160 push)
    (hsize : hash160.length = 20) :
    matchTemplate [OP_DUP, OP_HASH160, OP_PUBKEYHASH, OP_EQUALVERIFY, OP_CHECKSIG]
      (OP_DUP :: OP_HASH160 :: (push ++ [OP_EQUALVERIFY, OP_CHECKSIG])) = some [hash160] := by
  obtain ⟨op, -, hget⟩ := hpush.getOp_append [OP_EQUALVERIFY, OP_CHECKSIG]
  rw [matchTemplate_same (by decide) (by decide), matchTemplate_same (by decide) (by decide),
    matchTemplate_instruction (by decide) hget, matchTemplate_same (by decide) (by decide),
    matchTemplate_same (by decide) (by decide), matchTemplate_end, matchOpcode,
    if_neg (by decide), if_pos rfl, if_neg (not_not.mpr hsize)]
  rfl

theorem matchTemplate_multisig {m n : Nat} {keys : List Bytes} {pushes : List CScript}
    (hall : List.Forall₂ IsPush keys pushes) (hsize : ∀ key ∈ keys, PubKeySize key)
    (hm : 1 ≤ m) (hm16 : m ≤ 16) (hn : 1 ≤ n) (hn16 : n ≤ 16) :
    matchTemplate [OP_SMALLINTEGER, OP_PUBKEYS, OP_SMALLINTEGER, OP_CHECKMULTISIG]
      (encodeOP_N m :: (pushes.flatten ++ [encodeOP_N n, OP_CHECKMULTISIG]))
      = some ([UInt8.ofNat m] :: (keys ++ [[UInt8.ofNat n]])) := by
  obtain ⟨hsmallM, hdecodeM, -⟩ := encodeOP_N_spec hm16
  obtain ⟨hsmallN, hdecodeN, -⟩ := encodeOP_N_spec hn16
  have hmatch : ∀ op, isSmallInteger op = true →
      matchOpcode OP_SMALLINTEGER op [] = some [[UInt8.ofNat (decodeOP_N op)]] := by
    intro op hop
    rw [matchOpcode, if_neg (by decide), if_neg (by decide), if_pos rfl, if_pos hop]
  obtain ⟨opcode1, vch1, pc1, hget, hcollect⟩ :=
    collectPubKeys_pushes hall hsize (lt_encodeOP_N hn hn16) [OP_CHECKMULTISIG]
  have hkeys : matchTemplate [OP_PUBKEYS, OP_SMALLINTEGER, OP_CHECKMULTISIG]
      (pushes.flatten ++ [encodeOP_N n, OP_CHECKMULTISIG]) = some (keys ++ [[UInt8.ofNat n]]) := by
    rw [matchTemplate, hget, Option.bind_some]
    dsimp only
    rw [if_pos rfl, hcollect]
    dsimp only
    rw [hmatch _ hsmallN, hdecodeN, Option.bind_some, matchTemplate_same (by decide) (by decide),
      matchTemplate_end, Option.map_some, List.append_nil]
  rw [matchTemplate_instruction (by decide) (getOp_cons_of_lt (lt_encodeOP_N hm hm16)),
    hmatch _ hsmallM, hdecodeM,
    Option.bind_some, hkeys]
  rfl

/-- A push of data does not begin with an opcode that stands for something else. -/
theorem IsPush.head_le {push : CScript} (h : IsPush vch push) :
    ∃ op bytes, push = op :: bytes ∧ op ≤ OP_PUSHDATA4 := by
  cases h with
  | direct hshort =>
      obtain ⟨-, hlt⟩ := toNat_ofNat_length hshort
      exact ⟨_, _, rfl, UInt8.le_trans (UInt8.le_of_lt hlt) (by decide)⟩
  | sized hop _ =>
      refine ⟨_, _, rfl, ?_⟩
      simp only [List.mem_cons, Prod.mk.injEq, List.not_mem_nil, or_false] at hop
      rcases hop with ⟨rfl, -⟩ | ⟨rfl, -⟩ | ⟨rfl, -⟩ <;> decide

theorem solver_of_standard (h : Standard script typeRet vSolutions) :
    solver script = some (typeRet, vSolutions) := by
  cases h with
  | @scripthash hash160 hsize =>
      have hlast : (OP_HASH160 :: 0x14 :: (hash160 ++ [OP_EQUAL]))[22]? = some OP_EQUAL := by
        rw [List.getElem?_cons_succ, List.getElem?_cons_succ, ← hsize]
        exact List.getElem?_concat_length
      have hscript : isPayToScriptHash (OP_HASH160 :: 0x14 :: (hash160 ++ [OP_EQUAL])) = true := by
        unfold isPayToScriptHash
        rw [hlast]
        simp [hsize]
      unfold solver
      rw [hscript, if_pos rfl]
      simp [← hsize]
  | @pubkey vchPubKey push hpush hsize =>
      have hscript : isPayToScriptHash (push ++ [OP_CHECKSIG]) = false := by
        obtain ⟨op, bytes, rfl, hle⟩ := hpush.head_le
        apply notScriptHash
        rintro rfl
        exact absurd hle (by decide)
      rw [solver_of_notScriptHash hscript, matchTemplate_pubkey hpush hsize]
      rfl
  | @pubkeyhash hash160 push hpush hsize =>
      rw [solver_of_notScriptHash (notScriptHash (by decide)), matchTemplate_noKey (by decide),
        matchTemplate_pubkeyhash hpush hsize]
      rfl
  | @multisig m keys pushes hall hsize hm hle h16 =>
      have hlt := lt_encodeOP_N hm (hle.trans h16)
      obtain ⟨-, -, hmax⟩ := encodeOP_N_spec (hle.trans h16)
      have hne : ∀ op, OP_16 < op → encodeOP_N m ≠ op := by
        rintro op hop rfl
        exact UInt8.not_lt.mpr hmax hop
      have hcounts : multiSigCounts ([UInt8.ofNat m] :: (keys ++ [[UInt8.ofNat keys.length]]))
          = true := by
        have hbyte : ∀ n, n ≤ 16 → (UInt8.ofNat n).toNat = n :=
          fun n hn => UInt8.toNat_ofNat_of_lt (lt_of_le_of_lt hn (by decide))
        rw [multiSigCounts_eq, hbyte _ (hle.trans h16), hbyte _ h16]
        omega
      rw [solver_of_notScriptHash (notScriptHash (hne _ (by decide))), matchTemplate_noKey hlt,
        matchTemplate_other (by decide) hlt (hne _ (by decide)),
        matchTemplate_multisig hall hsize hm (hle.trans h16) (hm.trans hle) h16]
      show Option.filter _ (some _) = _
      rw [Option.filter_some]
      exact if_pos (Bool.or_eq_true_iff.mpr (Or.inr hcounts))

end ShinyCoin

import ShinyCoin.Script.Standard
import ShinyCoin.Script.Templates

/-!
# What unlocks a standard output

`Templates` runs a standard script forward, from a stack with the right signatures. Here the run goes
both ways: from any stack at all, a standard script leaves `true` exactly if the stack holds what
`Unlocks` asks for, and leaves room for what the script pushes. So an input may spend a standard
output exactly if its script ends with such a stack.
-/

namespace ShinyCoin

/-- Whether a script that runs on this stack leaves `true` on top. -/
def leavesTrue (senv : EvalEnv) (stack : List Bytes) (script : CScript) : Bool :=
  match evalScript senv stack script with
  | some (top :: _) => castToBool top
  | _ => false

/-- The stacks, from the top down, that a standard script accepts. The signatures are taken out of
the script before they are checked. No stack may grow beyond 1000 elements. -/
inductive Unlocks (senv : EvalEnv) (script : CScript) : TxnOutType → List Bytes → List Bytes → Prop
  | pubkey {vchPubKey vchSig : Bytes} {rest : List Bytes} :
      senv.checkSig vchSig vchPubKey (dropSignatures [vchSig] script) = true →
      rest.length + 2 ≤ 1000 → Unlocks senv script .pubkey [vchPubKey] (vchSig :: rest)
  | pubkeyhash {hash160 vchPubKey vchSig : Bytes} {rest : List Bytes} :
      senv.hash160 vchPubKey = hash160 →
      senv.checkSig vchSig vchPubKey (dropSignatures [vchSig] script) = true →
      rest.length + 4 ≤ 1000 → Unlocks senv script .pubkeyhash [hash160] (vchPubKey :: vchSig :: rest)
  | scripthash {hash160 subscript : Bytes} {rest : List Bytes} :
      senv.hash160 subscript = hash160 → rest.length + 2 ≤ 1000 →
      Unlocks senv script .scripthash [hash160] (subscript :: rest)
  | multisig {vchM vchN dummy : Bytes} {keys sigs rest : List Bytes} :
      vchM = [UInt8.ofNat sigs.length] →
      List.SublistForall₂ (fun sig key =>
        senv.checkSig sig key (dropSignatures sigs.reverse script) = true) sigs keys →
      rest.length + sigs.length + keys.length + 3 ≤ 1000 →
      Unlocks senv script .multisig (vchM :: (keys ++ [vchN])) (sigs.reverse ++ dummy :: rest)

section

variable {senv : EvalEnv} {pc rest code script : CScript} {opcode : OpcodeType}
  {vch sig key hash160 : Bytes} {stack : List Bytes} {n : Nat}

/-- The last instruction decides what is left. -/
theorem evalFrom_last (hop : OP_PUSHDATA4 < opcode) (hdisabled : opcode ∉ disabledOpcodes)
    (hcount : n < 201) (hlt : OP_16 < opcode) :
    evalFrom senv [opcode] (.plain stack n code) =
      (execOp senv opcode [] true (.plain stack (n + 1) code)).bind fun st =>
        if 1000 < st.stack.length + st.altstack.length then none else some st := by
  rw [evalFrom_exec_eq (getOp_cons_of_lt hop) hop hdisabled fun _ => hcount, if_pos hlt]
  simp only [evalFrom_nil]

/-- What the run of a script that is not too long leaves -/
theorem leavesTrue_eq (hlen : script.length ≤ 10000) :
    leavesTrue senv stack script = true ↔
      ∃ st top below, evalFrom senv script (.plain stack 0 script) = some st ∧ st.vfExec = [] ∧
        st.stack = top :: below ∧ castToBool top = true := by
  unfold leavesTrue evalScript
  rw [if_neg (by omega)]
  show (match (evalFrom senv script (.plain stack 0 script)).bind fun st =>
      if st.vfExec.isEmpty then some st.stack else none with
    | some (top :: _) => castToBool top
    | _ => false) = true ↔ _
  cases hrun : evalFrom senv script (.plain stack 0 script) with
  | none => simp
  | some st =>
      rw [Option.bind_some]
      cases hbranch : st.vfExec with
      | cons f vfExec => simp [hbranch]
      | nil =>
          cases hstack : st.stack with
          | nil => simp [hbranch, hstack]
          | cons top below => simp [hbranch, hstack]

/-! ## The templates -/

/-- `OP_CHECKSIG` at the end of a script, on two elements at least -/
theorem evalFrom_checkSig (hcount : n < 201) {vchPubKey vchSig : Bytes} :
    evalFrom senv [OP_CHECKSIG] (.plain (vchPubKey :: vchSig :: stack) n code) =
      if 1000 < stack.length + 1 then none
      else some (.plain (boolVch (senv.checkSig vchSig vchPubKey (dropSignatures [vchSig] code))
        :: stack) (n + 1) code) := by
  rw [evalFrom_last (by decide) (by decide) hcount (by decide)]
  rfl

theorem evalFrom_checkSig_single (hcount : n < 201) {vch : Bytes} :
    evalFrom senv [OP_CHECKSIG] (.plain [vch] n code) = none := by
  rw [evalFrom_last (by decide) (by decide) hcount (by decide)]
  rfl

theorem leavesTrue_pubkey {push : CScript} (hpush : IsPush key push) (hkey : PubKeySize key) :
    leavesTrue senv stack (push ++ [OP_CHECKSIG]) = true ↔
      Unlocks senv (push ++ [OP_CHECKSIG]) .pubkey [key] stack := by
  obtain ⟨opcode, hop, hget⟩ := hpush.getOp_append [OP_CHECKSIG]
  have hparses : Parses (push ++ [OP_CHECKSIG]) [(opcode, key), (OP_CHECKSIG, [])] :=
    .cons hget (.cons_opcode (by decide) .nil)
  have hsize := hkey.2
  have hlen : (push ++ [OP_CHECKSIG]).length ≤ 10000 := by
    have := hparses.length_le
    simp only [List.map_cons, List.map_nil, List.sum_cons, List.sum_nil, List.length_nil] at this
    omega
  generalize hscript : push ++ [OP_CHECKSIG] = script at hget hparses hlen ⊢
  rw [leavesTrue_eq hlen, evalFrom_push_eq hget hop (by omega)]
  constructor
  · rintro ⟨st, top, below, hrun, -, hst, htop⟩
    split at hrun
    · next hroom =>
        cases stack with
        | nil =>
            rw [evalFrom_checkSig_single (by decide)] at hrun
            cases hrun
        | cons vchSig stack =>
            rw [evalFrom_checkSig (by decide), if_neg (by rw [List.length_cons] at hroom; omega)]
              at hrun
            cases hrun
            obtain ⟨rfl, rfl⟩ := List.cons.inj hst
            rw [castToBool_boolVch] at htop
            rw [List.length_cons] at hroom
            exact .pubkey htop (by omega)
    · cases hrun
  · intro h
    cases h with
    | pubkey hcheck hroom =>
        rw [if_pos (by rw [List.length_cons]; omega), evalFrom_checkSig (by decide),
          if_neg (by omega)]
        exact ⟨_, _, _, rfl, rfl, rfl, by rw [castToBool_boolVch, hcheck]⟩

/-- The start of a script that pays to a public key's hash: the key has to have the hash. -/
theorem evalFrom_pubkeyhash {push : CScript} (hget : getOp (push ++ [OP_EQUALVERIFY, OP_CHECKSIG])
      = some (opcode, hash160, [OP_EQUALVERIFY, OP_CHECKSIG]))
    (hop : opcode ≤ OP_PUSHDATA4) (hhash : hash160.length = 20) :
    evalFrom senv (OP_DUP :: OP_HASH160 :: (push ++ [OP_EQUALVERIFY, OP_CHECKSIG]))
        (.plain (key :: stack) 0 code) =
      if stack.length + 3 ≤ 1000 ∧ senv.hash160 key = hash160 then
        evalFrom senv [OP_CHECKSIG] (.plain (key :: stack) 3 code)
      else none := by
  have hdup : ∀ pc, execOp senv OP_DUP pc true (.plain (key :: stack) 1 code)
      = some (.plain (key :: key :: stack) 1 code) := by
    intro pc
    unfold execOp
    rw [show instruction senv OP_DUP = some (.shuffle 1 [1, 1], false) from rfl, Option.bind_some]
    show ((if (key :: stack).length < 1 then none
      else some (EvalState.plain (key :: key :: stack) 1 code)).bind some) = _
    rw [if_neg (by simp), Option.bind_some]
  have hhash160 : ∀ pc, execOp senv OP_HASH160 pc true (.plain (key :: key :: stack) 2 code)
      = some (.plain (senv.hash160 key :: key :: stack) 2 code) := fun _ => rfl
  have hverify : ∀ pc, execOp senv OP_EQUALVERIFY pc true
      (.plain (hash160 :: senv.hash160 key :: key :: stack) 3 code)
      = if senv.hash160 key = hash160 then some (.plain (key :: stack) 3 code) else none := by
    intro pc
    show (some (EvalState.plain (boolVch (senv.hash160 key == hash160) :: key :: stack) 3 code)).bind
      execVerify = _
    rw [Option.bind_some, execVerify, EvalState.plain_stack]
    dsimp only
    rw [castToBool_boolVch]
    simp only [beq_iff_eq]
    rfl
  rw [evalFrom_exec_eq (getOp_cons_of_lt (by decide)) (by decide) (by decide) (by simp),
    if_pos (by decide), hdup, Option.bind_some]
  by_cases hroom : stack.length + 3 ≤ 1000
  · have hfew : ∀ vch n, ¬ 1000 < (EvalState.plain (vch :: key :: stack) n code).stack.length
        + (EvalState.plain (vch :: key :: stack) n code).altstack.length := by
      intro vch n
      rw [EvalState.plain_stack, EvalState.plain_altstack, List.length_cons, List.length_cons,
        List.length_nil]
      omega
    rw [if_neg (hfew key 1), evalFrom_exec_eq (getOp_cons_of_lt (by decide)) (by decide) (by decide)
      (by simp), if_pos (by decide), hhash160, Option.bind_some, if_neg (hfew _ 2),
      evalFrom_push_eq hget hop (by omega), if_pos (by rw [List.length_cons, List.length_cons]; omega),
      evalFrom_exec_eq (getOp_cons_of_lt (by decide)) (by decide) (by decide) (by simp),
      if_pos (by decide), hverify]
    by_cases hsame : senv.hash160 key = hash160
    · rw [if_pos hsame, if_pos ⟨hroom, hsame⟩, Option.bind_some, if_neg]
      rw [EvalState.plain_stack, EvalState.plain_altstack, List.length_cons, List.length_nil]
      omega
    · rw [if_neg hsame, if_neg fun h => hsame h.2, Option.bind_none]
  · have hwrong : ¬ (stack.length + 3 ≤ 1000 ∧ senv.hash160 key = hash160) := fun h => hroom h.1
    rw [if_neg hwrong]
    split
    · rfl
    · rw [evalFrom_exec_eq (getOp_cons_of_lt (by decide)) (by decide) (by decide) (by simp),
        if_pos (by decide), hhash160, Option.bind_some]
      split
      · rfl
      · rw [evalFrom_push_eq hget hop (by omega),
          if_neg (by rw [List.length_cons, List.length_cons]; omega)]

theorem leavesTrue_pubkeyhash {push : CScript} (hpush : IsPush hash160 push)
    (hhash : hash160.length = 20) :
    leavesTrue senv stack (OP_DUP :: OP_HASH160 :: (push ++ [OP_EQUALVERIFY, OP_CHECKSIG])) = true ↔
      Unlocks senv (OP_DUP :: OP_HASH160 :: (push ++ [OP_EQUALVERIFY, OP_CHECKSIG])) .pubkeyhash
        [hash160] stack := by
  obtain ⟨opcode, hop, hget⟩ := hpush.getOp_append [OP_EQUALVERIFY, OP_CHECKSIG]
  have hparses : Parses (OP_DUP :: OP_HASH160 :: (push ++ [OP_EQUALVERIFY, OP_CHECKSIG]))
      [(OP_DUP, []), (OP_HASH160, []), (opcode, hash160), (OP_EQUALVERIFY, []), (OP_CHECKSIG, [])] :=
    .cons_opcode (by decide) (.cons_opcode (by decide) (.cons hget
      (.cons_opcode (by decide) (.cons_opcode (by decide) .nil))))
  have hlen : (OP_DUP :: OP_HASH160 :: (push ++ [OP_EQUALVERIFY, OP_CHECKSIG])).length ≤ 10000 := by
    have := hparses.length_le
    simp only [List.map_cons, List.map_nil, List.sum_cons, List.sum_nil, List.length_nil] at this
    omega
  rw [leavesTrue_eq hlen]
  constructor
  · rintro ⟨st, top, below, hrun, -, hst, htop⟩
    cases stack with
    | nil =>
        rw [evalFrom_exec_eq (getOp_cons_of_lt (by decide)) (by decide) (by decide) (by simp)] at hrun
        cases hrun
    | cons vchPubKey stack =>
        rw [evalFrom_pubkeyhash hget hop hhash] at hrun
        split at hrun
        · next hright =>
            cases stack with
            | nil =>
                rw [evalFrom_checkSig_single (by decide)] at hrun
                cases hrun
            | cons vchSig stack =>
                have hroom := hright.1
                rw [List.length_cons] at hroom
                rw [evalFrom_checkSig (by decide), if_neg (by omega)] at hrun
                cases hrun
                obtain ⟨rfl, rfl⟩ := List.cons.inj hst
                rw [castToBool_boolVch] at htop
                exact .pubkeyhash hright.2 htop (by omega)
        · cases hrun
  · intro h
    cases h with
    | pubkeyhash hsame hcheck hroom =>
        rw [evalFrom_pubkeyhash hget hop hhash, if_pos ⟨by rw [List.length_cons]; omega, hsame⟩,
          evalFrom_checkSig (by decide), if_neg (by omega)]
        exact ⟨_, _, _, rfl, rfl, rfl, by rw [castToBool_boolVch, hcheck]⟩

theorem leavesTrue_scripthash (hhash : hash160.length = 20) :
    leavesTrue senv stack (OP_HASH160 :: 0x14 :: (hash160 ++ [OP_EQUAL])) = true ↔
      Unlocks senv (OP_HASH160 :: 0x14 :: (hash160 ++ [OP_EQUAL])) .scripthash [hash160] stack := by
  have hpush : IsPush hash160 (0x14 :: hash160) := by
    have hdirect : IsPush hash160 (UInt8.ofNat hash160.length :: hash160) :=
      .direct (by rw [hhash]; decide)
    rwa [hhash] at hdirect
  obtain ⟨opcode, hop, hget⟩ := hpush.getOp_append [OP_EQUAL]
  rw [List.cons_append] at hget
  have hlen : (OP_HASH160 :: 0x14 :: (hash160 ++ [OP_EQUAL])).length ≤ 10000 := by
    simp only [List.length_cons, List.length_append, List.length_nil]
    omega
  generalize hcode : OP_HASH160 :: 0x14 :: (hash160 ++ [OP_EQUAL]) = code at hlen ⊢
  have hhash160 : ∀ subscript below pc, execOp senv OP_HASH160 pc true
      (.plain (subscript :: below) 1 code) = some (.plain (senv.hash160 subscript :: below) 1 code) :=
    fun _ _ _ => rfl
  have hequal : ∀ subscript below, execOp senv OP_EQUAL [] true
      (.plain (hash160 :: senv.hash160 subscript :: below) 2 code)
      = some (.plain (boolVch (senv.hash160 subscript == hash160) :: below) 2 code) :=
    fun _ _ => rfl
  have hrun : ∀ subscript below, below.length + 1 ≤ 1000 →
      evalFrom senv code (.plain (subscript :: below) 0 code) =
        if below.length + 2 ≤ 1000 then
          some (.plain (boolVch (senv.hash160 subscript == hash160) :: below) 2 code)
        else none := by
    intro subscript below hbelow
    conv_lhs => rw [← hcode]
    rw [evalFrom_exec_eq (getOp_cons_of_lt (by decide)) (by decide) (by decide) (by simp),
      if_pos (by decide), hcode, hhash160, Option.bind_some, if_neg, evalFrom_push_eq hget hop (by omega)]
    · by_cases hroom : below.length + 2 ≤ 1000
      · rw [if_pos (by rw [List.length_cons]; omega), if_pos hroom, evalFrom_last (by decide)
          (by decide) (by decide) (by decide), hequal, Option.bind_some, if_neg]
        rw [EvalState.plain_stack, EvalState.plain_altstack, List.length_cons, List.length_nil]
        omega
      · rw [if_neg (by rw [List.length_cons]; omega), if_neg hroom]
    · rw [EvalState.plain_stack, EvalState.plain_altstack, List.length_cons, List.length_nil]
      omega
  rw [leavesTrue_eq hlen]
  constructor
  · rintro ⟨st, top, below, hst, -, hstack, htop⟩
    cases stack with
    | nil =>
        rw [← hcode, evalFrom_exec_eq (getOp_cons_of_lt (by decide)) (by decide) (by decide)
          (by simp)] at hst
        cases hst
    | cons subscript stack =>
        by_cases hfit : stack.length + 1 ≤ 1000
        · rw [hrun subscript stack hfit] at hst
          split at hst
          · next hroom =>
              cases hst
              obtain ⟨rfl, rfl⟩ := List.cons.inj hstack
              rw [castToBool_boolVch, beq_iff_eq] at htop
              exact .scripthash htop hroom
          · cases hst
        · conv_lhs at hst => rw [← hcode]
          rw [evalFrom_exec_eq (getOp_cons_of_lt (by decide)) (by decide) (by decide) (by simp),
            if_pos (by decide), hcode, hhash160, Option.bind_some, if_pos] at hst
          · cases hst
          · rw [EvalState.plain_stack, EvalState.plain_altstack, List.length_cons, List.length_nil]
            omega
  · intro h
    cases h with
    | scripthash hsame hroom =>
        rw [hrun _ _ (by omega), if_pos hroom]
        exact ⟨_, _, _, rfl, rfl, rfl, by rw [castToBool_boolVch, hsame, BEq.rfl]⟩

/-! ## Several signatures -/

/-- Pushes in a row, where there is room for them and where there is not -/
theorem evalFrom_pushes_eq {keys : List Bytes} {pushes : List CScript}
    (hall : List.Forall₂ IsPush keys pushes) (hkeys : ∀ key ∈ keys, key.length ≤ 520)
    (hsize : stack.length ≤ 1000) :
    evalFrom senv (pushes.flatten ++ rest) (.plain stack n code) =
      if keys.length + stack.length ≤ 1000 then
        evalFrom senv rest (.plain (keys.reverse ++ stack) n code)
      else none := by
  induction hall generalizing stack with
  | nil =>
      rw [if_pos (by simpa using hsize)]
      rfl
  | @cons key push keys pushes hpush hall ih =>
      obtain ⟨op, hop, hget⟩ := hpush.getOp_append (pushes.flatten ++ rest)
      rw [List.flatten_cons, List.append_assoc,
        evalFrom_push_eq hget hop (hkeys key List.mem_cons_self)]
      by_cases hroom : stack.length < 1000
      · rw [if_pos hroom, ih (fun key hmem => hkeys key (List.mem_cons_of_mem _ hmem))
          (by rw [List.length_cons]; omega), List.reverse_cons, List.append_assoc, List.length_cons,
          List.length_cons]
        have hcount : keys.length + (stack.length + 1) = keys.length + 1 + stack.length := by omega
        rw [hcount]
        rfl
      · rw [if_neg hroom, if_neg (by rw [List.length_cons]; omega)]

/-- Signatures that are not there -/
theorem execCheckMultiSig_short {st : EvalState} {keys below : List Bytes} {m : Nat}
    {vchKeys vchSigs : Bytes} (hkeys : Counts vchKeys keys.length) (hmax : keys.length ≤ 20)
    (hsigs : Counts vchSigs m) (hle : m ≤ keys.length)
    (hstack : st.stack = vchKeys :: (keys.reverse ++ vchSigs :: below)) (hshort : below.length ≤ m) :
    execCheckMultiSig senv st = none := by
  have hkeysAt : st.stack.drop (2 - 1) = keys.reverse ++ vchSigs :: below := by
    rw [hstack]
    rfl
  have hsigsAt : st.stack.drop (2 + keys.length - 1) = vchSigs :: below := by
    rw [show 2 + keys.length - 1 = (2 - 1) + keys.length by omega, ← List.drop_drop, hkeysAt]
    exact List.drop_left' List.length_reverse
  have hlen : st.stack.length = 2 + keys.length + below.length := by
    rw [hstack]
    simp only [List.length_cons, List.length_append, List.length_reverse]
    omega
  have hkeysCount : countAt st.stack 1 20 = some keys.length := by
    apply countAt_of_counts _ hkeys (by omega)
    rw [hstack]
    rfl
  have hsigsCount : countAt st.stack (2 + keys.length) keys.length = some m :=
    countAt_of_counts (stacktop_of_drop hsigsAt) hsigs (by omega)
  unfold execCheckMultiSig
  rw [if_neg (by omega), hkeysCount, Option.bind_some]
  dsimp only
  split
  · rfl
  · rw [if_neg (by omega), hsigsCount, Option.bind_some, if_pos (by omega)]

/-- The number that a small integer's opcode pushes -/
theorem evalFrom_smallInteger {m : Nat} (hpos : 1 ≤ m) (hmax : m ≤ 16) :
    evalFrom senv (encodeOP_N m :: rest) (.plain stack n code) =
      if stack.length < 1000 then evalFrom senv rest (.plain (CBigNum.getvch m :: stack) n code)
      else none := by
  obtain ⟨hsmall, hdecode, hle⟩ := encodeOP_N_spec hmax
  have hlt := lt_encodeOP_N hpos hmax
  obtain ⟨-, h16, hdisabled⟩ := smallInteger_push hsmall (by omega)
  rw [evalFrom_exec_eq (getOp_cons_of_lt hlt) hlt hdisabled fun h => absurd h h16, if_neg h16,
    execOp_smallInteger hsmall (by omega), hdecode, Option.bind_some, EvalState.plain_stack,
    EvalState.plain_altstack, List.length_cons, List.length_nil]
  by_cases hroom : stack.length < 1000
  · rw [if_pos hroom, if_neg (by omega)]
  · rw [if_neg hroom, if_pos (by omega)]

/-- The script up to `OP_CHECKMULTISIG` pushes the numbers and the keys. -/
theorem evalFrom_multisig {m : Nat} {keys : List Bytes} {pushes : List CScript}
    (hall : List.Forall₂ IsPush keys pushes) (hkeys : ∀ key ∈ keys, PubKeySize key) (hm : 1 ≤ m)
    (hle : m ≤ keys.length) (hmax : keys.length ≤ 16) :
    evalFrom senv (encodeOP_N m :: (pushes.flatten ++ [encodeOP_N keys.length, OP_CHECKMULTISIG]))
        (.plain stack 0 code) =
      if stack.length + keys.length + 2 ≤ 1000 then
        evalFrom senv [OP_CHECKMULTISIG] (.plain (CBigNum.getvch keys.length ::
          (keys.reverse ++ CBigNum.getvch m :: stack)) 0 code)
      else none := by
  have hsmall : ∀ key ∈ keys, key.length ≤ 520 :=
    fun key hmem => (hkeys key hmem).2.trans (by decide)
  rw [evalFrom_smallInteger hm (by omega)]
  by_cases hfirst : stack.length < 1000
  · rw [if_pos hfirst, evalFrom_pushes_eq hall hsmall (by rw [List.length_cons]; omega)]
    by_cases hkeysRoom : keys.length + (CBigNum.getvch m :: stack).length ≤ 1000
    · have hlen : (keys.reverse ++ CBigNum.getvch m :: stack).length
          = keys.length + (stack.length + 1) := by
        rw [List.length_append, List.length_reverse, List.length_cons]
      rw [if_pos hkeysRoom, evalFrom_smallInteger (by omega) hmax, hlen]
      by_cases hroom : stack.length + keys.length + 2 ≤ 1000
      · rw [if_pos (by omega), if_pos hroom]
      · rw [if_neg (by omega), if_neg hroom]
    · rw [List.length_cons] at hkeysRoom
      rw [if_neg (by rw [List.length_cons]; omega), if_neg (by omega)]
  · rw [if_neg hfirst, if_neg (by omega)]

/-- A stack with more than `m` elements has `m` signatures, and an element below them. -/
theorem exists_signatures {m : Nat} (h : m < stack.length) :
    ∃ (sigs : List Bytes) (dummy : Bytes) (below : List Bytes),
      sigs.length = m ∧ stack = sigs.reverse ++ dummy :: below := by
  refine ⟨(stack.take m).reverse, stack[m], stack.drop (m + 1), ?_, ?_⟩
  · rw [List.length_reverse, List.length_take_of_le h.le]
  · rw [List.reverse_reverse, ← List.drop_eq_getElem_cons h, List.take_append_drop]

theorem evalFrom_checkMultiSig {m : Nat} {keys sigs below : List Bytes} {dummy : Bytes}
    (hm : 1 ≤ m) (hle : m ≤ keys.length) (hmax : keys.length ≤ 16) (hsigs : sigs.length = m)
    (hroom : (sigs.reverse ++ dummy :: below).length + keys.length + 2 ≤ 1000) :
    evalFrom senv [OP_CHECKMULTISIG] (.plain (CBigNum.getvch keys.length ::
        (keys.reverse ++ CBigNum.getvch m :: (sigs.reverse ++ dummy :: below))) 0 code)
      = some (.plain (boolVch (Lib.greedyMatch (fun vchSig vchPubKey =>
          senv.checkSig vchSig vchPubKey (dropSignatures sigs.reverse code))
          sigs.reverse keys.reverse) :: below) (1 + keys.length) code) := by
  subst hsigs
  have hholds : HoldsMultiSig (EvalState.plain (CBigNum.getvch keys.length :: (keys.reverse
      ++ CBigNum.getvch sigs.length :: (sigs.reverse ++ dummy :: below))) 1 code).stack sigs keys
      below :=
    ⟨⟨_, _, dummy, counts_getvch (by omega) (by omega), counts_getvch hm (by omega), rfl⟩, hle,
      by omega⟩
  have hexec : ∀ st, execOp senv OP_CHECKMULTISIG [] true st = execCheckMultiSig senv st := by
    intro st
    show (execCheckMultiSig senv st).bind some = _
    rw [Option.bind_fun_some]
  rw [evalFrom_last (by decide) (by decide) (by decide) (by decide), hexec,
    execCheckMultiSig_eq hholds, EvalState.plain_nOpCount, if_neg (by omega), Option.bind_some,
    if_neg]
  · rfl
  · simp only [List.length_append, List.length_reverse, List.length_cons] at hroom
    show ¬ 1000 < (_ :: below).length + ([] : List Bytes).length
    rw [List.length_cons, List.length_nil]
    omega

theorem leavesTrue_multisig {m : Nat} {keys : List Bytes} {pushes : List CScript}
    (hall : List.Forall₂ IsPush keys pushes) (hkeys : ∀ key ∈ keys, PubKeySize key) (hm : 1 ≤ m)
    (hle : m ≤ keys.length) (hmax : keys.length ≤ 16) :
    leavesTrue senv stack
        (encodeOP_N m :: (pushes.flatten ++ [encodeOP_N keys.length, OP_CHECKMULTISIG])) = true ↔
      Unlocks senv (encodeOP_N m :: (pushes.flatten ++ [encodeOP_N keys.length, OP_CHECKMULTISIG]))
        .multisig ([UInt8.ofNat m] :: (keys ++ [[UInt8.ofNat keys.length]])) stack := by
  have hrun := @evalFrom_multisig senv
    (encodeOP_N m :: (pushes.flatten ++ [encodeOP_N keys.length, OP_CHECKMULTISIG])) stack m keys pushes
    hall hkeys hm hle hmax
  have hlen : (encodeOP_N m :: (pushes.flatten ++ [encodeOP_N keys.length, OP_CHECKMULTISIG])).length
      ≤ 10000 := by
    obtain ⟨-, m', keys', heq, hmultisig⟩ :=
      solver_multisig (solver_of_standard (.multisig hall hkeys hm hle hmax))
    exact hmultisig.length_le
  generalize encodeOP_N m :: (pushes.flatten ++ [encodeOP_N keys.length, OP_CHECKMULTISIG]) = script
    at hlen hrun ⊢
  rw [leavesTrue_eq hlen, hrun]
  constructor
  · rintro ⟨st, top, below, hst, -, hstack, htop⟩
    split at hst
    · next hroom =>
        by_cases hshort : stack.length ≤ m
        · have hnone : execCheckMultiSig senv (.plain (CBigNum.getvch keys.length
              :: (keys.reverse ++ CBigNum.getvch m :: stack)) (0 + 1) script) = none :=
            execCheckMultiSig_short (counts_getvch (by omega) (by omega)) (by omega)
              (counts_getvch hm (by omega)) hle rfl hshort
          rw [evalFrom_last (by decide) (by decide) (by decide) (by decide)] at hst
          have hexec : execOp senv OP_CHECKMULTISIG [] true (.plain (CBigNum.getvch keys.length
              :: (keys.reverse ++ CBigNum.getvch m :: stack)) (0 + 1) script) = none := by
            show (execCheckMultiSig senv _).bind some = none
            rw [hnone, Option.bind_none]
          rw [hexec] at hst
          cases hst
        · obtain ⟨sigs, dummy, rest, hsigs, rfl⟩ := exists_signatures (Nat.lt_of_not_le hshort)
          rw [evalFrom_checkMultiSig hm hle hmax hsigs hroom] at hst
          cases hst
          obtain ⟨rfl, rfl⟩ := List.cons.inj hstack
          rw [castToBool_boolVch, Lib.greedyMatch_iff, Lib.sublistForall₂_reverse] at htop
          simp only [List.length_append, List.length_reverse, List.length_cons] at hroom
          exact .multisig (by rw [hsigs]) htop (by omega)
    · cases hst
  · intro h
    generalize hsolutions : [UInt8.ofNat m] :: (keys ++ [[UInt8.ofNat keys.length]]) = vSolutions at h
    cases h with
    | @multisig vchM vchN dummy keys' sigs rest hvchM hcheck hroom =>
        obtain ⟨hcount, htail⟩ := List.cons.inj hsolutions
        obtain ⟨rfl, -⟩ := List.append_inj' htail rfl
        have hfew := Lib.sublistForall₂_length hcheck
        have hsigs : sigs.length = m := by
          rw [hvchM] at hcount
          have hbyte := congrArg UInt8.toNat (List.cons.inj hcount).1
          rw [UInt8.toNat_ofNat', UInt8.toNat_ofNat', Nat.mod_eq_of_lt (by omega),
            Nat.mod_eq_of_lt (by omega)] at hbyte
          exact hbyte.symm
        have hfits : (sigs.reverse ++ dummy :: rest).length + keys.length + 2 ≤ 1000 := by
          simp only [List.length_append, List.length_reverse, List.length_cons]
          omega
        rw [if_pos hfits, evalFrom_checkMultiSig hm hle hmax hsigs hfits]
        refine ⟨_, _, _, rfl, rfl, rfl, ?_⟩
        rw [castToBool_boolVch, Lib.greedyMatch_iff, Lib.sublistForall₂_reverse]
        exact hcheck

/-! ## Spending -/

/-- A standard script leaves `true` on the stacks that unlock it, and on no others. -/
theorem leavesTrue_standard {whichType : TxnOutType} {vSolutions : List Bytes}
    (h : Standard script whichType vSolutions) :
    leavesTrue senv stack script = true ↔ Unlocks senv script whichType vSolutions stack := by
  cases h with
  | scripthash hhash => exact leavesTrue_scripthash hhash
  | pubkey hpush hkey => exact leavesTrue_pubkey hpush hkey
  | pubkeyhash hpush hhash => exact leavesTrue_pubkeyhash hpush hhash
  | multisig hall hkeys hm hle hmax => exact leavesTrue_multisig hall hkeys hm hle hmax

theorem isPayToScriptHash_standard {whichType : TxnOutType} {vSolutions : List Bytes}
    (h : Standard script whichType vSolutions) :
    isPayToScriptHash script = true ↔ whichType = .scripthash := by
  have hsolver := solver_of_standard h
  constructor
  · intro hscript
    unfold solver at hsolver
    rw [if_pos hscript] at hsolver
    cases hsolver
    rfl
  · rintro rfl
    exact (solver_scripthash hsolver).1

theorem verifyScript_eq {scriptSig : CScript} :
    verifyScript senv scriptSig script = true ↔
      ∃ stack, evalScript senv [] scriptSig = some stack ∧ leavesTrue senv stack script = true ∧
        (isPayToScriptHash script = true →
          isPushOnly scriptSig = true ∧ verifyRedeemScript senv stack = true) := by
  unfold verifyScript leavesTrue
  cases hsig : evalScript senv [] scriptSig with
  | none => simp
  | some stack =>
      cases hrun : evalScript senv stack script with
      | none => simp [hrun]
      | some left =>
          cases left with
          | nil => simp [hrun]
          | cons top below =>
              cases htop : castToBool top with
              | false => simp [hrun, htop]
              | true =>
                  cases hscript : isPayToScriptHash script with
                  | false => simp [hrun, htop]
                  | true => simp [hrun, htop]

/-- An output that pays to keys is spent with their signatures and in no other way: the spending
script, whatever it does, has to end with a stack that unlocks the output. -/
theorem verifyScript_keys {scriptSig scriptPubKey : CScript} {whichType : TxnOutType}
    {vSolutions : List Bytes} (hsolver : solver scriptPubKey = some (whichType, vSolutions))
    (htype : whichType ≠ .scripthash) :
    verifyScript senv scriptSig scriptPubKey = true ↔
      ∃ stack, evalScript senv [] scriptSig = some stack ∧
        Unlocks senv scriptPubKey whichType vSolutions stack := by
  have hstandard := solver_standard hsolver
  have hscript : ¬ isPayToScriptHash scriptPubKey = true :=
    fun h => htype ((isPayToScriptHash_standard hstandard).mp h)
  rw [verifyScript_eq]
  constructor
  · rintro ⟨stack, hsig, hleaves, -⟩
    exact ⟨stack, hsig, (leavesTrue_standard hstandard).mp hleaves⟩
  · rintro ⟨stack, hsig, hunlocks⟩
    exact ⟨stack, hsig, (leavesTrue_standard hstandard).mpr hunlocks, fun h => absurd h hscript⟩

/-- What a script that is paid to by its hash asks of the stack below it: the signatures, where it is
standard, and otherwise no more than that it leaves `true`. -/
def Redeems (senv : EvalEnv) (subscript : CScript) (stack : List Bytes) : Prop :=
  match solver subscript with
  | some (whichType, vSolutions) => Unlocks senv subscript whichType vSolutions stack
  | none => leavesTrue senv stack subscript = true

theorem redeems_iff {subscript : CScript} :
    Redeems senv subscript stack ↔ leavesTrue senv stack subscript = true := by
  unfold Redeems
  cases hsolver : solver subscript with
  | none => rfl
  | some solution =>
      obtain ⟨whichType, vSolutions⟩ := solution
      exact (leavesTrue_standard (solver_standard hsolver)).symm

/-- An output that pays to the hash of a script is spent by pushes only, the last one a script with
this hash, the ones before it what that script asks for. -/
theorem verifyScript_redeem {scriptSig scriptPubKey : CScript} (hsolver : solver scriptPubKey = some (.scripthash, [hash160])) :
    verifyScript senv scriptSig scriptPubKey = true ↔
      isPushOnly scriptSig = true ∧ ∃ subscript rest,
        evalScript senv [] scriptSig = some (subscript :: rest) ∧ rest.length + 2 ≤ 1000 ∧
        senv.hash160 subscript = hash160 ∧ Redeems senv subscript rest := by
  have hstandard := solver_standard hsolver
  have hscript := (isPayToScriptHash_standard hstandard).mpr rfl
  rw [verifyScript_eq]
  constructor
  · rintro ⟨stack, hsig, hleaves, hredeem⟩
    obtain ⟨hpush, hredeem⟩ := hredeem hscript
    have hunlocks := (leavesTrue_standard hstandard).mp hleaves
    cases hunlocks with
    | scripthash hhash hroom =>
        exact ⟨hpush, _, _, hsig, hroom, hhash, redeems_iff.mpr hredeem⟩
  · rintro ⟨hpush, subscript, rest, hsig, hroom, hhash, hredeem⟩
    exact ⟨_, hsig, (leavesTrue_standard hstandard).mpr (.scripthash hhash hroom),
      fun _ => ⟨hpush, redeems_iff.mp hredeem⟩⟩

/-- The ways to spend a standard output: signatures, or the script with its hash and what that one asks
for. -/
def Authorizes (senv : EvalEnv) (scriptSig scriptPubKey : CScript) : Prop :=
  match solver scriptPubKey with
  | none => False
  | some (.scripthash, vSolutions) =>
      isPushOnly scriptSig = true ∧ ∃ subscript rest,
        evalScript senv [] scriptSig = some (subscript :: rest) ∧ rest.length + 2 ≤ 1000 ∧
        vSolutions = [senv.hash160 subscript] ∧ Redeems senv subscript rest
  | some (whichType, vSolutions) =>
      ∃ stack, evalScript senv [] scriptSig = some stack ∧
        Unlocks senv scriptPubKey whichType vSolutions stack

theorem authorizes_iff {scriptSig scriptPubKey : CScript} (hsolver : solver scriptPubKey ≠ none) :
    Authorizes senv scriptSig scriptPubKey ↔ verifyScript senv scriptSig scriptPubKey = true := by
  obtain ⟨⟨whichType, vSolutions⟩, h⟩ := Option.ne_none_iff_exists'.mp hsolver
  unfold Authorizes
  rw [h]
  cases whichType with
  | nonstandard => exact absurd h solver_ne_nonstandard
  | pubkey => exact (verifyScript_keys h (by decide)).symm
  | pubkeyhash => exact (verifyScript_keys h (by decide)).symm
  | multisig => exact (verifyScript_keys h (by decide)).symm
  | scripthash =>
      obtain ⟨-, rfl⟩ := solver_scripthash h
      rw [verifyScript_redeem h]
      simp only [List.cons.injEq, and_true, eq_comm]

end

/-- A standard output is spent by the scripts that `Authorizes` describes, and by no others. -/
theorem verifyScript_authorizes (senv : EvalEnv) (scriptSig scriptPubKey : CScript)
    (hsolver : solver scriptPubKey ≠ none) :
    verifyScript senv scriptSig scriptPubKey = true ↔ Authorizes senv scriptSig scriptPubKey :=
  (authorizes_iff hsolver).symm

/-- A key of 33 bytes, whose signature is the key itself -/
def sampleKey : Bytes := 2 :: List.replicate 32 7

theorem verifyScript_authorizes_sampleKey :
    verifyScript equalEnv (pushAll [sampleKey]) (pushData sampleKey ++ [OP_CHECKSIG]) = true := by
  have hpush : IsPush sampleKey (pushData sampleKey) := isPush_pushData (by decide)
  have hsolver := solver_of_standard (.pubkey hpush (by decide))
  refine (verifyScript_authorizes equalEnv _ _ (by rw [hsolver]; exact Option.some_ne_none _)).mpr ?_
  unfold Authorizes
  rw [hsolver]
  refine ⟨[sampleKey], ?_, .pubkey rfl (by decide)⟩
  exact evalScript_pushes (pushAll_pushes (by decide)) (by decide) (by decide) (by decide)

end ShinyCoin

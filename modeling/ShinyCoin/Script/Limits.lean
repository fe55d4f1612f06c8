import ShinyCoin.Script.Simulation

/-!
# The limits of the script machine

Between two instructions the stacks hold at most 1000 elements together, each of at most 520 bytes,
and at most 201 operations were counted. Every instruction keeps the size of the elements: it moves
elements, or puts down a hash or a number that is short because the numbers it reads are.

Each round reads an instruction, so there are no more rounds than bytes. One that does not get to its
end has returned false, or found a number of more than four bytes.
-/

namespace ShinyCoin

/-! ## Short numbers -/

theorem CBigNum.length_getvch_le {bn : ℤ} {k : Nat} (h : bn.natAbs < 256 ^ k) :
    (CBigNum.getvch bn).length ≤ k + 1 := by
  have hdigits : (Nat.digits 256 bn.natAbs).length ≤ k :=
    (Nat.digits_length_le_iff (by decide) _).mpr h
  have hlen : ((Nat.digits 256 bn.natAbs).map UInt8.ofNat).reverse.length ≤ k := by
    rw [List.length_reverse, List.length_map]
    exact hdigits
  unfold CBigNum.getvch
  dsimp only
  generalize (Nat.digits 256 bn.natAbs).map UInt8.ofNat = vch at hlen
  cases hrev : vch.reverse with
  | nil => exact Nat.zero_le _
  | cons top low =>
      rw [hrev, List.length_cons] at hlen
      have hvch : vch.length = low.length + 1 := by
        rw [← List.length_reverse, hrev, List.length_cons]
      dsimp only
      split
      · rw [List.length_append, hvch]
        exact Nat.add_le_add_right hlen 1
      · rw [List.length_append, List.length_reverse]
        exact Nat.le_succ_of_le hlen

theorem CBigNum.natAbs_setvch_lt (vch : Bytes) : (CBigNum.setvch vch).natAbs < 256 ^ vch.length := by
  unfold CBigNum.setvch
  cases hrev : vch.reverse with
  | nil => exact Nat.pow_pos (by decide)
  | cons top low =>
      have hlt := Lib.ofLE_lt (low.reverse ++ [top &&& 0x7f])
      have hlen : (low.reverse ++ [top &&& 0x7f]).length = vch.length := by
        have hsize : vch.length = vch.reverse.length := List.length_reverse.symm
        rw [hsize, hrev, List.length_append, List.length_reverse]
        rfl
      rw [hlen] at hlt
      dsimp only
      split
      · rw [Int.natAbs_neg, Int.natAbs_natCast]
        exact hlt
      · rw [Int.natAbs_natCast]
        exact hlt

/-- What an opcode computes with -/
theorem natAbs_castToBigNum_lt {vch : Bytes} {bn : ℤ} (h : castToBigNum vch = some bn) :
    bn.natAbs < 256 ^ 5 := by
  unfold castToBigNum at h
  split at h
  · cases h
  · next hlen =>
      cases h
      have hvch : (CBigNum.setvch vch).natAbs < 256 ^ 4 :=
        (CBigNum.natAbs_setvch_lt vch).trans_le (Nat.pow_le_pow_right (by decide) (by omega))
      exact (CBigNum.natAbs_setvch_lt _).trans_le
        (Nat.pow_le_pow_right (by decide) (CBigNum.length_getvch_le hvch))

theorem length_getvch_of_lt {bn : ℤ} (h : bn.natAbs < 256 ^ 6) :
    (CBigNum.getvch bn).length ≤ 520 :=
  (CBigNum.length_getvch_le h).trans (by decide)

/-! ## Elements -/

/-- Every element has at most 520 bytes. -/
def ShortElements (stack : List Bytes) : Prop := ∀ vch ∈ stack, vch.length ≤ 520

section

variable {stack stack' : List Bytes} {vch : Bytes}

@[simp] theorem shortElements_nil : ShortElements [] := by simp [ShortElements]

@[simp] theorem shortElements_cons :
    ShortElements (vch :: stack) ↔ vch.length ≤ 520 ∧ ShortElements stack := List.forall_mem_cons

@[simp] theorem shortElements_append :
    ShortElements (stack ++ stack') ↔ ShortElements stack ∧ ShortElements stack' :=
  List.forall_mem_append

theorem ShortElements.drop (h : ShortElements stack) (n : Nat) : ShortElements (stack.drop n) :=
  fun vch hmem => h vch (List.mem_of_mem_drop hmem)

theorem ShortElements.eraseIdx (h : ShortElements stack) (n : Nat) :
    ShortElements (stack.eraseIdx n) :=
  fun vch hmem => h vch (List.mem_of_mem_eraseIdx hmem)

theorem ShortElements.stacktop {i : Nat} (h : ShortElements stack)
    (htop : stacktop stack i = some vch) : vch.length ≤ 520 :=
  h vch (List.mem_of_getElem? htop)

theorem ShortElements.mapM_stacktop {order : List Nat} {top : List Bytes} (h : ShortElements stack)
    (htop : order.mapM (ShinyCoin.stacktop stack) = some top) : ShortElements top := by
  induction order generalizing top with
  | nil =>
      cases htop
      exact shortElements_nil
  | cons i order ih =>
      rw [List.mapM_cons] at htop
      obtain ⟨vch, hvch, htop⟩ := Option.bind_eq_some_iff.mp htop
      obtain ⟨rest, hrest, htop⟩ := Option.bind_eq_some_iff.mp htop
      cases htop
      exact shortElements_cons.mpr ⟨h.stacktop hvch, ih hrest⟩

@[simp] theorem length_boolVch_le (fValue : Bool) : (boolVch fValue).length ≤ 520 := by
  cases fValue <;> decide

end

/-! ## Instructions -/

/-- The hash functions write hashes of their size. -/
structure EvalEnv.Sized (senv : EvalEnv) : Prop where
  ripemd160 : ∀ b, (senv.ripemd160 b).length = 20
  sha1 : ∀ b, (senv.sha1 b).length = 20
  sha256 : ∀ b, (senv.sha256 b).length = 32
  hash160 : ∀ b, (senv.hash160 b).length = 20
  hash256 : ∀ b, (senv.hash256 b).length = 32

/-- What an instruction puts down by a function of its own is short. -/
def Instruction.Short : Instruction → Prop
  | .push bn => bn.natAbs < 256
  | .onTop f => ∀ vch, vch.length ≤ 520 → ShortElements (f vch)
  | .unary f => ∀ bn, (f bn).natAbs ≤ bn.natAbs + 1
  | .binary f => ∀ bn1 bn2, (f bn1 bn2).natAbs ≤ bn1.natAbs + bn2.natAbs + 1
  | _ => True

theorem short_hash {hash : Bytes → Bytes} {n : Nat} (h : ∀ b, (hash b).length = n)
    (hn : n ≤ 520) : ∀ vch : Bytes, vch.length ≤ 520 → ShortElements [hash vch] := by
  intro vch _
  rw [shortElements_cons, h]
  exact ⟨hn, shortElements_nil⟩

theorem natAbs_bnBool_le (b : Bool) (n : Nat) : (bnBool b).natAbs ≤ n + 1 := by
  cases b
  · exact Nat.zero_le _
  · exact Nat.succ_le_succ (Nat.zero_le n)

theorem short_ifDup (vch : Bytes) (hvch : vch.length ≤ 520) :
    ShortElements (if castToBool vch then [vch, vch] else [vch]) := by
  split <;> simp [hvch]

theorem short_size (vch : Bytes) (hvch : vch.length ≤ 520) :
    ShortElements [CBigNum.getvch vch.length, vch] := by
  have hlen : ((vch.length : ℤ)).natAbs < 256 ^ 6 := by
    rw [Int.natAbs_natCast]
    omega
  simp [hvch, length_getvch_of_lt hlen]

theorem instructions_short {senv : EvalEnv} (hsenv : senv.Sized) :
    ∀ entry ∈ instructions senv, entry.2.1.Short := by
  unfold instructions
  simp only [List.forall_mem_cons, Instruction.Short, true_and]
  exact ⟨short_ifDup, short_size, fun bn => by omega, fun bn => by omega, fun bn => by omega,
    fun bn => by split_ifs <;> omega, fun _ => natAbs_bnBool_le _ _,
    fun _ => natAbs_bnBool_le _ _, fun bn1 bn2 => by omega, fun bn1 bn2 => by omega,
    fun _ _ => natAbs_bnBool_le _ _, fun _ _ => natAbs_bnBool_le _ _,
    fun _ _ => natAbs_bnBool_le _ _, fun _ _ => natAbs_bnBool_le _ _,
    fun _ _ => natAbs_bnBool_le _ _, fun _ _ => natAbs_bnBool_le _ _,
    fun _ _ => natAbs_bnBool_le _ _, fun _ _ => natAbs_bnBool_le _ _,
    fun _ _ => natAbs_bnBool_le _ _, fun bn1 bn2 => by split_ifs <;> omega,
    fun bn1 bn2 => by split_ifs <;> omega, short_hash hsenv.ripemd160 (by decide),
    short_hash hsenv.sha1 (by decide), short_hash hsenv.sha256 (by decide),
    short_hash hsenv.hash160 (by decide), short_hash hsenv.hash256 (by decide), by simp⟩

theorem instruction_short {senv : EvalEnv} (hsenv : senv.Sized) {opcode : OpcodeType}
    {entry : Instruction × Bool} (h : instruction senv opcode = some entry) : entry.1.Short := by
  unfold instruction at h
  split at h
  · cases h
    show ((opcode.toNat : ℤ) - (OP_1.toNat - 1)).natAbs < 256
    have hlt := UInt8.toNat_lt opcode
    have hone : OP_1.toNat = 0x51 := rfl
    omega
  · split at h
    · cases h
      trivial
    · obtain ⟨l, l', heq, -⟩ := List.lookup_eq_some_iff.mp h
      apply instructions_short hsenv (opcode, entry)
      rw [heq]
      simp

/-! ## Every instruction keeps the limits -/

/-- The limits that an instruction keeps by itself -/
structure EvalState.Bounded (st : EvalState) : Prop where
  stack : ShortElements st.stack
  altstack : ShortElements st.altstack
  ops : st.nOpCount ≤ 201

variable {senv : EvalEnv} {pc : CScript} {fExec : Bool} {st st' : EvalState}

theorem execVerify_bounded (h : st.Bounded) (hexec : execVerify st = some st') : st'.Bounded := by
  unfold execVerify at hexec
  have hstack := h.stack
  split at hexec
  · cases hexec
  · next vch stack heq =>
      split at hexec
      · cases hexec
        rw [heq, shortElements_cons] at hstack
        exact ⟨hstack.2, h.altstack, h.ops⟩
      · cases hexec

theorem execPick_bounded {fRoll : Bool} (h : st.Bounded) (hexec : execPick fRoll st = some st') :
    st'.Bounded := by
  unfold execPick at hexec
  have hstack := h.stack
  split at hexec
  · next top vch stack heq =>
      rw [heq, shortElements_cons] at hstack
      obtain ⟨bn, -, hexec⟩ := Option.bind_eq_some_iff.mp hexec
      dsimp only at hexec
      split at hexec
      · cases hexec
      · obtain ⟨picked, hpicked, rfl⟩ := Option.map_eq_some_iff.mp hexec
        refine ⟨shortElements_cons.mpr ⟨hstack.2.stacktop hpicked, ?_⟩, h.altstack, h.ops⟩
        split
        · exact hstack.2.eraseIdx _
        · exact hstack.2
  · cases hexec

theorem execCheckSig_bounded (h : st.Bounded) (hexec : execCheckSig senv st = some st') :
    st'.Bounded := by
  unfold execCheckSig at hexec
  have hstack := h.stack
  split at hexec
  · next vchPubKey vchSig stack heq =>
      cases hexec
      rw [heq, shortElements_cons, shortElements_cons] at hstack
      exact ⟨shortElements_cons.mpr ⟨length_boolVch_le _, hstack.2.2⟩, h.altstack, h.ops⟩
  · cases hexec

theorem execCheckMultiSig_bounded (h : st.Bounded)
    (hexec : execCheckMultiSig senv st = some st') : st'.Bounded := by
  unfold execCheckMultiSig at hexec
  split at hexec
  · cases hexec
  obtain ⟨nKeysCount, -, hexec⟩ := Option.bind_eq_some_iff.mp hexec
  dsimp only at hexec
  split at hexec
  · cases hexec
  next hops =>
  split at hexec
  · cases hexec
  obtain ⟨nSigsCount, -, hexec⟩ := Option.bind_eq_some_iff.mp hexec
  split at hexec
  · cases hexec
  obtain ⟨vchSigs, -, hexec⟩ := Option.bind_eq_some_iff.mp hexec
  obtain ⟨fSuccess, -, rfl⟩ := Option.map_eq_some_iff.mp hexec
  exact ⟨shortElements_cons.mpr ⟨length_boolVch_le _, h.stack.drop _⟩, h.altstack,
    Nat.le_of_not_lt hops⟩

theorem Instruction.exec_bounded {instr : Instruction} (hinstr : instr.Short)
    (hsize : st.stack.length ≤ 1000) (h : st.Bounded)
    (hexec : Instruction.exec senv pc fExec st instr = some st') : st'.Bounded := by
  have hstack := h.stack
  have haltstack := h.altstack
  cases instr with
  | push bn =>
      cases hexec
      exact ⟨shortElements_cons.mpr ⟨length_getvch_of_lt (lt_trans hinstr (by decide)), hstack⟩,
        haltstack, h.ops⟩
  | nop =>
      cases hexec
      exact h
  | branch fNot =>
      unfold Instruction.exec at hexec
      dsimp only at hexec
      split at hexec
      · split at hexec
        · cases hexec
        · next heq =>
            cases hexec
            rw [heq, shortElements_cons] at hstack
            exact ⟨hstack.2, haltstack, h.ops⟩
      · cases hexec
        exact ⟨hstack, haltstack, h.ops⟩
  | «else» =>
      unfold Instruction.exec at hexec
      dsimp only at hexec
      split at hexec
      · cases hexec
      · cases hexec
        exact ⟨hstack, haltstack, h.ops⟩
  | endif =>
      unfold Instruction.exec at hexec
      dsimp only at hexec
      split at hexec
      · cases hexec
      · cases hexec
        exact ⟨hstack, haltstack, h.ops⟩
  | verify => exact execVerify_bounded h hexec
  | «return» => cases hexec
  | toAltStack =>
      unfold Instruction.exec at hexec
      dsimp only at hexec
      split at hexec
      · cases hexec
      · next heq =>
          cases hexec
          rw [heq, shortElements_cons] at hstack
          exact ⟨hstack.2, shortElements_cons.mpr ⟨hstack.1, haltstack⟩, h.ops⟩
  | fromAltStack =>
      unfold Instruction.exec at hexec
      dsimp only at hexec
      split at hexec
      · cases hexec
      · next heq =>
          cases hexec
          rw [heq, shortElements_cons] at haltstack
          exact ⟨shortElements_cons.mpr ⟨haltstack.1, hstack⟩, haltstack.2, h.ops⟩
  | shuffle n order =>
      unfold Instruction.exec at hexec
      dsimp only at hexec
      split at hexec
      · cases hexec
      · obtain ⟨top, htop, rfl⟩ := Option.map_eq_some_iff.mp hexec
        exact ⟨shortElements_append.mpr ⟨hstack.mapM_stacktop htop, hstack.drop n⟩, haltstack, h.ops⟩
  | onTop f =>
      unfold Instruction.exec at hexec
      dsimp only at hexec
      split at hexec
      · cases hexec
      · next vch stack heq =>
          cases hexec
          rw [heq, shortElements_cons] at hstack
          exact ⟨shortElements_append.mpr ⟨hinstr vch hstack.1, hstack.2⟩, haltstack, h.ops⟩
  | equal =>
      unfold Instruction.exec at hexec
      dsimp only at hexec
      split at hexec
      · next heq =>
          cases hexec
          rw [heq, shortElements_cons, shortElements_cons] at hstack
          exact ⟨shortElements_cons.mpr ⟨length_boolVch_le _, hstack.2.2⟩, haltstack, h.ops⟩
      · cases hexec
  | depth =>
      cases hexec
      have hlen : ((st.stack.length : ℤ)).natAbs < 256 ^ 6 := by
        rw [Int.natAbs_natCast]
        omega
      exact ⟨shortElements_cons.mpr ⟨length_getvch_of_lt hlen, hstack⟩, haltstack, h.ops⟩
  | pick fRoll => exact execPick_bounded h hexec
  | unary f =>
      unfold Instruction.exec at hexec
      dsimp only at hexec
      split at hexec
      · cases hexec
      · next heq =>
          obtain ⟨bn, hbn, rfl⟩ := Option.map_eq_some_iff.mp hexec
          have hlt := natAbs_castToBigNum_lt hbn
          have hf := hinstr bn
          rw [heq, shortElements_cons] at hstack
          exact ⟨shortElements_cons.mpr ⟨length_getvch_of_lt (by omega), hstack.2⟩, haltstack, h.ops⟩
  | binary f =>
      unfold Instruction.exec at hexec
      dsimp only at hexec
      split at hexec
      · next heq =>
          obtain ⟨bn1, hbn1, hexec⟩ := Option.bind_eq_some_iff.mp hexec
          obtain ⟨bn2, hbn2, rfl⟩ := Option.map_eq_some_iff.mp hexec
          have hlt1 := natAbs_castToBigNum_lt hbn1
          have hlt2 := natAbs_castToBigNum_lt hbn2
          have hf := hinstr bn1 bn2
          rw [heq, shortElements_cons, shortElements_cons] at hstack
          exact ⟨shortElements_cons.mpr ⟨length_getvch_of_lt (by omega), hstack.2.2⟩, haltstack,
            h.ops⟩
      · cases hexec
  | within =>
      unfold Instruction.exec at hexec
      dsimp only at hexec
      split at hexec
      · next heq =>
          obtain ⟨bn1, -, hexec⟩ := Option.bind_eq_some_iff.mp hexec
          obtain ⟨bn2, -, hexec⟩ := Option.bind_eq_some_iff.mp hexec
          obtain ⟨bn3, -, rfl⟩ := Option.map_eq_some_iff.mp hexec
          rw [heq, shortElements_cons, shortElements_cons, shortElements_cons] at hstack
          exact ⟨shortElements_cons.mpr ⟨length_boolVch_le _, hstack.2.2.2⟩, haltstack, h.ops⟩
      · cases hexec
  | codeSeparator =>
      cases hexec
      exact ⟨hstack, haltstack, h.ops⟩
  | checkSig => exact execCheckSig_bounded h hexec
  | checkMultiSig => exact execCheckMultiSig_bounded h hexec

/-! ## Between the instructions -/

/-- The limits at the boundary between two instructions -/
structure EvalState.WithinLimits (st : EvalState) : Prop extends st.Bounded where
  size : st.stack.length + st.altstack.length ≤ 1000

theorem execOp_bounded (hsenv : senv.Sized) {opcode : OpcodeType} (h : st.Bounded)
    (hsize : st.stack.length ≤ 1000) (hexec : execOp senv opcode pc fExec st = some st') : st'.Bounded := by
  obtain ⟨⟨instr, fVerify⟩, hinstr, hexec⟩ := Option.bind_eq_some_iff.mp hexec
  obtain ⟨st₁, hst₁, hexec⟩ := Option.bind_eq_some_iff.mp hexec
  have hbounded := Instruction.exec_bounded (instruction_short hsenv hinstr) hsize h hst₁
  split at hexec
  · exact execVerify_bounded hbounded hexec
  · cases hexec
    exact hbounded

theorem evalSized_withinLimits (hsenv : senv.Sized) {opcode : OpcodeType} {vch : Bytes}
    (h : st.WithinLimits) (heval : Machine.evalSized senv opcode vch pc st = some st') :
    st'.WithinLimits := by
  obtain ⟨st₁, hst₁, heval⟩ := Option.bind_eq_some_iff.mp heval
  have hsize : st.stack.length ≤ 1000 := by
    have := h.size
    omega
  have hbounded : st₁.Bounded := by
    obtain ⟨hvch, nOpCount, hops, hcases⟩ := evalOp_cases hst₁
    obtain ⟨-, -, rfl⟩ | ⟨-, -, hexec⟩ | ⟨-, rfl⟩ := hcases
    · exact ⟨shortElements_cons.mpr ⟨hvch, h.stack⟩, h.altstack, hops h.ops⟩
    · have hst : EvalState.Bounded { st with nOpCount := nOpCount } :=
        ⟨h.stack, h.altstack, hops h.ops⟩
      exact execOp_bounded hsenv hst hsize hexec
    · exact ⟨h.stack, h.altstack, hops h.ops⟩
  split at heval
  · cases heval
  · next hle =>
      cases heval
      exact ⟨hbounded, Nat.le_of_not_lt hle⟩

/-! ## Runs -/

/-- The boundary between two instructions of a run of `EvalScript`, after `n` of them. -/
inductive Boundary (senv : EvalEnv) (stack : List Bytes) (script : CScript) :
    Nat → CScript → MachineState → Prop
  | start : script.length ≤ 10000 → Boundary senv stack script 0 script (Machine.start stack script)
  | next {n : Nat} {pc pc' : CScript} {m m' : MachineState} :
      Boundary senv stack script n pc m → pc ≠ [] → Machine.round senv pc m = .ok pc' m' →
      Boundary senv stack script (n + 1) pc' m'

/-- A round that gets to its end does what an instruction does. -/
theorem round_ok {pc' : CScript} {m m' : MachineState} (h : Machine.round senv pc m = .ok pc' m') :
    ∃ opcode vch, getOp pc = some (opcode, vch, pc') ∧
      Machine.evalSized senv opcode vch pc' m.toEvalState = some m'.toEvalState := by
  cases hop : getOp pc with
  | none =>
      rw [Machine.round_of_none hop] at h
      cases h
  | some op =>
      obtain ⟨opcode, vch, rest⟩ := op
      rw [Machine.round_of_getOp hop] at h
      have hagrees := Machine.execute_simulates senv opcode vch rest m
      cases hexec : Machine.execute senv opcode vch rest m with
      | error e m₁ =>
          rw [hexec] at h
          cases h
      | ok _ m₁ =>
          rw [hexec] at h hagrees
          cases h
          refine ⟨opcode, vch, rfl, ?_⟩
          cases heval : Machine.evalSized senv opcode vch pc' m.toEvalState with
          | none =>
              rw [heval] at hagrees
              cases hagrees
          | some st =>
              rw [heval] at hagrees
              rw [hagrees.1]

/-- A round that does not has returned false, or read a number that is too long. -/
theorem round_error {e : Stop} {m m' : MachineState} (h : Machine.round senv pc m = .error e m') :
    e = .returnFalse ∨ e = .overflow := by
  cases hop : getOp pc with
  | none =>
      rw [Machine.round_of_none hop] at h
      cases h
      exact .inl rfl
  | some op =>
      obtain ⟨opcode, vch, rest⟩ := op
      rw [Machine.round_of_getOp hop] at h
      have hagrees := Machine.execute_simulates senv opcode vch rest m
      cases hexec : Machine.execute senv opcode vch rest m with
      | ok _ m₁ =>
          rw [hexec] at h
          cases h
      | error e m₁ =>
          rw [hexec] at h hagrees
          cases h
          cases heval : Machine.evalSized senv opcode vch rest m.toEvalState with
          | none =>
              rw [heval] at hagrees
              exact hagrees.1
          | some st =>
              rw [heval] at hagrees
              cases hagrees

section

variable {stack : List Bytes} {script : CScript} {n : Nat} {m : MachineState}

/-- A round takes at least a byte off the script. -/
theorem Boundary.length_le (h : Boundary senv stack script n pc m) :
    n + pc.length ≤ script.length := by
  induction h with
  | start => omega
  | next _ _ hround ih =>
      have hlt := Machine.round_length hround
      omega

theorem Boundary.withinLimits (hsenv : senv.Sized) (hsize : stack.length ≤ 1000)
    (hstack : ShortElements stack) (h : Boundary senv stack script n pc m) :
    m.toEvalState.WithinLimits := by
  induction h with
  | start => exact ⟨⟨hstack, shortElements_nil, Nat.zero_le _⟩, hsize⟩
  | next _ _ hround ih =>
      obtain ⟨opcode, vch, -, heval⟩ := round_ok hround
      exact evalSized_withinLimits hsenv ih heval

/-- The loop goes on from a boundary to the end of the script, or to a round that stops. -/
theorem Boundary.ends (h : Boundary senv stack script n pc m) :
    ∃ n' pc' m', Boundary senv stack script n' pc' m' ∧
      ((pc' = [] ∧ Machine.loop senv pc m = .ok () m') ∨
        ∃ e m'', pc' ≠ [] ∧ Machine.round senv pc' m' = .error e m'' ∧
          Machine.loop senv pc m = .error e m'') := by
  induction pc using getOp_induction generalizing n m with
  | nil => exact ⟨n, [], m, h, .inl ⟨rfl, Machine.loop_nil⟩⟩
  | stuck pc hne hop =>
      exact ⟨n, pc, m, h, .inr ⟨_, m, hne, Machine.round_of_none hop, Machine.loop_of_none hne hop⟩⟩
  | cons pc opcode vch rest hop ih =>
      have hne : pc ≠ [] := by
        rintro rfl
        cases hop
      have hround : Machine.round senv pc m = _ := Machine.round_of_getOp hop
      rw [Machine.loop_of_getOp hop]
      cases hexec : Machine.execute senv opcode vch rest m with
      | ok _ m₁ =>
          rw [hexec] at hround
          exact ih (.next h hne hround)
      | error e m₁ =>
          rw [hexec] at hround
          exact ⟨n, pc, m, h, .inr ⟨e, m₁, hne, hround, rfl⟩⟩

end

/-- On a stack within the limits, a run of `EvalScript` is within the limits at every boundary between
two instructions. It gets to the end of the script, or to a round that stops, in as many rounds as
there are bytes at most; and no round stops because it looked below the bottom of a stack. Nor does
`VerifyScript`, for any two scripts. -/
theorem evalScript_withinLimits (senv : EvalEnv) (hsenv : senv.Sized) (stack : List Bytes)
    (hsize : stack.length ≤ 1000) (hstack : ShortElements stack) (script : CScript) :
    (∀ n pc m, Boundary senv stack script n pc m →
      n + pc.length ≤ script.length ∧ m.toEvalState.WithinLimits ∧
      ∀ e m', Machine.round senv pc m = .error e m' → e = .returnFalse ∨ e = .overflow) ∧
    (script.length ≤ 10000 → ∃ n pc m, Boundary senv stack script n pc m ∧
      ((pc = [] ∧ Machine.loop senv script (Machine.start stack script) = .ok () m) ∨
        ∃ e m', pc ≠ [] ∧ Machine.round senv pc m = .error e m' ∧
          Machine.loop senv script (Machine.start stack script) = .error e m')) ∧
    ∀ scriptSig scriptPubKey, ∃ fReturn runs,
      Verifier.verifyScript senv scriptSig scriptPubKey [] = .ok fReturn runs := by
  refine ⟨fun n pc m h => ⟨h.length_le, h.withinLimits hsenv hsize hstack, fun e m' => round_error⟩,
    fun hlen => Boundary.ends (.start hlen), fun scriptSig scriptPubKey => ?_⟩
  obtain ⟨runs, hverify, -⟩ := Verifier.verifyScript_apply senv scriptSig scriptPubKey
  exact ⟨_, runs, hverify⟩

/-- The first bytes stand for a hash. -/
def prefixEnv : EvalEnv where
  ripemd160 b := b.takeD 20 0
  sha1 b := b.takeD 20 0
  sha256 b := b.takeD 32 0
  hash160 b := b.takeD 20 0
  hash256 b := b.takeD 32 0
  checkSig vchSig vchPubKey _ := vchSig == vchPubKey

theorem prefixEnv_sized : prefixEnv.Sized where
  ripemd160 b := List.takeD_length 20 b 0
  sha1 b := List.takeD_length 20 b 0
  sha256 b := List.takeD_length 32 b 0
  hash160 b := List.takeD_length 20 b 0
  hash256 b := List.takeD_length 32 b 0

/-- After `OP_DUP` on a stack of one element -/
theorem evalScript_withinLimits_dup : EvalState.WithinLimits
    { stack := [[7], [7]], nOpCount := 1, scriptCode := [OP_DUP] } :=
  ((evalScript_withinLimits prefixEnv prefixEnv_sized [[7]] (by decide) (by simp) [OP_DUP]).1 1 []
    { stack := [[7], [7]], nOpCount := 1, scriptCode := [OP_DUP] }
    (.next (.start (by decide)) (by decide) rfl)).2.1

end ShinyCoin

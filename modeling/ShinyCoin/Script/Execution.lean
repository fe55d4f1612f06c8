import ShinyCoin.Script.MultiSig
import ShinyCoin.Script.Parsing

/-!
# Running a script

One lemma for a push and one for an opcode, outside of any branch and with nothing on the second
stack. The scripts of signatures consist of pushes: they run if no push is too large, and leave what
they push on the stack.
-/

namespace ShinyCoin

/-- The machine outside of branches, with nothing on the second stack. -/
def EvalState.plain (stack : List Bytes) (nOpCount : Nat) (scriptCode : CScript) : EvalState where
  stack := stack
  nOpCount := nOpCount
  scriptCode := scriptCode

variable {senv : EvalEnv} {pc rest code : CScript} {opcode : OpcodeType} {vch : Bytes}
  {st st' : EvalState} {stack stack' vs : List Bytes} {n n' : Nat} {ops : List (OpcodeType × Bytes)}

@[simp] theorem EvalState.plain_stack : (EvalState.plain stack n code).stack = stack := rfl
@[simp] theorem EvalState.plain_altstack : (EvalState.plain stack n code).altstack = [] := rfl
@[simp] theorem EvalState.plain_vfExec : (EvalState.plain stack n code).vfExec = [] := rfl
@[simp] theorem EvalState.plain_nOpCount : (EvalState.plain stack n code).nOpCount = n := rfl
@[simp] theorem EvalState.plain_scriptCode : (EvalState.plain stack n code).scriptCode = code := rfl

/-! ## One instruction -/

theorem evalFrom_nil : evalFrom senv [] st = some st := by
  unfold evalFrom
  rfl

theorem evalFrom_cons (hget : getOp pc = some (opcode, vch, rest)) :
    evalFrom senv pc st = (evalOp senv opcode vch rest st).bind fun st' =>
      if 1000 < st'.stack.length + st'.altstack.length then none else evalFrom senv rest st' := by
  have hne : pc.isEmpty = false := by
    cases pc with
    | nil => cases hget
    | cons b pc => rfl
  have hstep : evalStep senv pc st = (evalOp senv opcode vch rest st).bind fun st' =>
      if 1000 < st'.stack.length + st'.altstack.length then none else some (rest, st') := by
    unfold evalStep
    rw [hget, Option.bind_some]
  rw [evalFrom, hne, if_neg (by decide)]
  cases heval : evalOp senv opcode vch rest st with
  | none =>
      rw [heval, Option.bind_none] at hstep
      split
      · rfl
      · next hsome => rw [hstep] at hsome; cases hsome
  | some st' =>
      rw [heval, Option.bind_some] at hstep
      rw [Option.bind_some]
      by_cases hsize : 1000 < st'.stack.length + st'.altstack.length
      · rw [if_pos hsize] at hstep ⊢
        split
        · rfl
        · next hsome => rw [hstep] at hsome; cases hsome
      · rw [if_neg hsize] at hstep ⊢
        split
        · next hnone => rw [hstep] at hnone; cases hnone
        · next hsome =>
            rw [hstep] at hsome
            cases hsome
            rfl

theorem evalFrom_step (hget : getOp pc = some (opcode, vch, rest))
    (heval : evalOp senv opcode vch rest st = some st')
    (hsize : st'.stack.length + st'.altstack.length ≤ 1000) :
    evalFrom senv pc st = evalFrom senv rest st' := by
  rw [evalFrom_cons hget, heval, Option.bind_some, if_neg (by omega)]

/-- What an instruction can do once it is read: push, act as the switch says, or nothing. -/
theorem evalOp_cases (h : evalOp senv opcode vch rest st = some st') :
    vch.length ≤ 520 ∧ ∃ nOpCount, (st.nOpCount ≤ 201 → nOpCount ≤ 201) ∧
      ((st.vfExec.all id = true ∧ opcode ≤ OP_PUSHDATA4 ∧
          st' = { st with nOpCount := nOpCount, stack := vch :: st.stack }) ∨
        ((st.vfExec.all id = true → OP_PUSHDATA4 < opcode) ∧
          (st.vfExec.all id = true ∨ OP_IF ≤ opcode ∧ opcode ≤ OP_ENDIF) ∧
          execOp senv opcode rest (st.vfExec.all id) { st with nOpCount := nOpCount } = some st') ∨
        (¬ st.vfExec.all id = true ∧ st' = { st with nOpCount := nOpCount })) := by
  unfold evalOp at h
  dsimp only at h
  generalize hcount : (if OP_16 < opcode then st.nOpCount + 1 else st.nOpCount) = nOpCount at h
  split at h
  · cases h
  next hvch =>
  split at h
  · cases h
  next hlimit =>
  split at h
  · cases h
  refine ⟨Nat.le_of_not_lt hvch, nOpCount, ?_, ?_⟩
  · intro hops
    by_cases hop : OP_16 < opcode
    · exact Nat.le_of_not_lt fun hlt => hlimit ⟨hop, hlt⟩
    · rw [if_neg hop] at hcount
      omega
  · split at h
    · next hpush =>
        cases h
        exact .inl ⟨hpush.1, hpush.2, rfl⟩
    · next hpush =>
        split at h
        · next hexec =>
            refine .inr (.inl ⟨fun hf => ?_, hexec, h⟩)
            exact UInt8.not_le.mp fun hle => hpush ⟨hf, hle⟩
        · next hexec =>
            cases h
            exact .inr (.inr ⟨fun hf => hexec (.inl hf), rfl⟩)

theorem not_disabled_of_le (hop : opcode ≤ OP_16) : disabledOpcodes.contains opcode = false := by
  have hall : disabledOpcodes.all (fun op => decide (OP_16 < op)) = true := by decide
  rw [Bool.eq_false_iff]
  intro hmem
  have hlt := List.all_eq_true.mp hall opcode (List.contains_iff_mem.mp hmem)
  exact UInt8.not_lt.mpr hop (of_decide_eq_true hlt)

/-- A push, where there is room for it and where there is not -/
theorem evalFrom_push_eq (hget : getOp pc = some (opcode, vch, rest)) (hop : opcode ≤ OP_PUSHDATA4)
    (hvch : vch.length ≤ 520) :
    evalFrom senv pc (.plain stack n code) =
      if stack.length < 1000 then evalFrom senv rest (.plain (vch :: stack) n code) else none := by
  have hle : opcode ≤ OP_16 := UInt8.le_trans hop (by decide)
  have hlt : ¬ OP_16 < opcode := UInt8.not_lt.mpr hle
  have heval : evalOp senv opcode vch rest (.plain stack n code)
      = some (.plain (vch :: stack) n code) := by
    unfold evalOp
    rw [if_neg (by omega), if_neg (fun h => hlt h.1), not_disabled_of_le hle,
      if_neg (by decide), if_neg hlt]
    dsimp only
    rw [if_pos ⟨rfl, hop⟩]
    rfl
  by_cases hsize : stack.length < 1000
  · rw [if_pos hsize]
    exact evalFrom_step hget heval (Nat.succ_le_of_lt hsize)
  · have hfull : 1000 < (EvalState.plain (vch :: stack) n code).stack.length
        + (EvalState.plain (vch :: stack) n code).altstack.length := by
      show 1000 < stack.length + 1 + 0
      omega
    rw [if_neg hsize, evalFrom_cons hget, heval, Option.bind_some, if_pos hfull]

theorem evalFrom_push (hget : getOp pc = some (opcode, vch, rest)) (hop : opcode ≤ OP_PUSHDATA4)
    (hvch : vch.length ≤ 520) (hsize : stack.length < 1000) :
    evalFrom senv pc (.plain stack n code) = evalFrom senv rest (.plain (vch :: stack) n code) := by
  rw [evalFrom_push_eq hget hop hvch, if_pos hsize]

/-- An opcode of the switch, outside of branches -/
theorem evalFrom_exec_eq (hget : getOp pc = some (opcode, [], rest)) (hop : OP_PUSHDATA4 < opcode)
    (hdisabled : opcode ∉ disabledOpcodes) (hcount : OP_16 < opcode → n < 201) :
    evalFrom senv pc (.plain stack n code) =
      (execOp senv opcode rest true (.plain stack (if OP_16 < opcode then n + 1 else n) code)).bind
        fun st => if 1000 < st.stack.length + st.altstack.length then none
          else evalFrom senv rest st := by
  have hlimit : ¬ (OP_16 < opcode ∧ 201 <
      if OP_16 < opcode then (EvalState.plain stack n code).nOpCount + 1
      else (EvalState.plain stack n code).nOpCount) := by
    rintro ⟨hlt, hmany⟩
    rw [if_pos hlt] at hmany
    exact absurd (hcount hlt) (Nat.not_lt.mpr (Nat.le_of_lt_succ hmany))
  have hcontains : disabledOpcodes.contains opcode = false := by
    rw [Bool.eq_false_iff]
    exact fun hmem => hdisabled (List.contains_iff_mem.mp hmem)
  have hall : (EvalState.plain stack n code).vfExec.all id = true := rfl
  have heval : evalOp senv opcode [] rest (.plain stack n code)
      = execOp senv opcode rest true (.plain stack (if OP_16 < opcode then n + 1 else n) code) := by
    unfold evalOp
    rw [if_neg (by simp), if_neg hlimit, hcontains, if_neg (by decide)]
    dsimp only
    rw [if_neg (fun h => UInt8.not_lt.mpr h.2 hop), hall, if_pos (Or.inl rfl)]
    rfl
  rw [evalFrom_cons hget, heval]

theorem evalFrom_exec (hget : getOp pc = some (opcode, [], rest)) (hop : OP_PUSHDATA4 < opcode)
    (hdisabled : opcode ∉ disabledOpcodes) (hcount : OP_16 < opcode → n < 201)
    (hexec : execOp senv opcode rest true (.plain stack (if OP_16 < opcode then n + 1 else n) code)
      = some (.plain stack' n' code)) (hsize : stack'.length ≤ 1000) :
    evalFrom senv pc (.plain stack n code) = evalFrom senv rest (.plain stack' n' code) := by
  rw [evalFrom_exec_eq hget hop hdisabled hcount, hexec, Option.bind_some]
  exact if_neg (Nat.not_lt.mpr hsize)

/-! ## Scripts that push -/

/-- A run gets to every push, so none is too large. -/
theorem length_le_of_evalFrom (hparses : Parses pc ops) (h : evalFrom senv pc st = some st') :
    ∀ op ∈ ops, op.2.length ≤ 520 := by
  induction hparses generalizing st with
  | nil => simp
  | @cons pc rest opcode vch ops hget _ ih =>
      rw [evalFrom_cons hget] at h
      obtain ⟨st₁, heval, h⟩ := Option.bind_eq_some_iff.mp h
      have hvch : vch.length ≤ 520 := by
        unfold evalOp at heval
        by_contra hlarge
        rw [if_pos (by omega)] at heval
        cases heval
      split at h
      · cases h
      · intro op hmem
        rcases List.mem_cons.mp hmem with rfl | hmem
        · exact hvch
        · exact ih h op hmem

/-- The pushes in front of a script are made, if none is too large. -/
theorem evalFrom_pushes (senv : EvalEnv) (code : CScript) {pushes : List (OpcodeType × Bytes)}
    (hparses : Parses pc (pushes ++ ops))
    (hops : ∀ op ∈ pushes, op.1 ≤ OP_PUSHDATA4 ∧ op.2.length ≤ 520)
    (hsize : pushes.length + stack.length ≤ 1000) :
    ∃ rest, Parses rest ops ∧ evalFrom senv pc (.plain stack n code)
      = evalFrom senv rest (.plain ((pushes.map Prod.snd).reverse ++ stack) n code) := by
  induction pushes generalizing pc stack with
  | nil => exact ⟨pc, hparses, rfl⟩
  | cons op pushes ih =>
      rw [List.length_cons] at hsize
      cases hparses with
      | @cons _ rest opcode vch _ hget hrest =>
          obtain ⟨hop, hvch⟩ := hops _ List.mem_cons_self
          have hlen : pushes.length + (vch :: stack).length ≤ 1000 := by
            rw [List.length_cons]
            omega
          obtain ⟨after, hafter, hrun⟩ :=
            ih hrest (fun op hmem => hops op (List.mem_cons_of_mem _ hmem)) hlen
          refine ⟨after, hafter, ?_⟩
          rw [evalFrom_push hget hop hvch (by omega), hrun, List.map_cons, List.reverse_cons,
            List.append_assoc]
          rfl

theorem evalScript_pushes (h : Pushes pc vs) (hvs : ∀ b ∈ vs, b.length ≤ 520)
    (hlen : pc.length ≤ 10000) (hsize : vs.length ≤ 1000) :
    evalScript senv [] pc = some vs.reverse := by
  obtain ⟨ops, hparses, rfl, hpush⟩ := h
  rw [← List.append_nil ops] at hparses
  have hcount : ops.length + ([] : List Bytes).length ≤ 1000 := by simpa using hsize
  obtain ⟨rest, hrest, hrun⟩ := evalFrom_pushes senv pc (n := 0) hparses
    (fun op hmem => ⟨hpush op hmem, hvs _ (List.mem_map_of_mem hmem)⟩) hcount
  cases hrest with
  | nil =>
      unfold evalScript
      rw [if_neg (by omega), show ({ stack := [], scriptCode := pc } : EvalState)
        = .plain [] 0 pc from rfl, hrun, evalFrom_nil, List.append_nil]
      rfl

end ShinyCoin

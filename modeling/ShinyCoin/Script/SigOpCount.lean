import ShinyCoin.Script.Simulation
import ShinyCoin.Script.Solver

/-!
# Counting signature operations

`GetSigOpCount` looks at the text of a script only. It counts the keys of an `OP_CHECKMULTISIG` by the
opcode in front of it, or as twenty. When the script runs, an opcode that comes right after a small
integer is executed exactly if the integer was pushed, since only an opcode can begin or end a branch.
So the integer is on top of the stack then, and the count bounds the calls of `CheckSig`.

The redeem script of an input is what its script leaves on top of the stack; the count takes what the
last instruction pushes as data. The two differ for a number, which is a script without any signature
operation.
-/

namespace ShinyCoin

/-! ## The counts -/

/-- What an instruction adds to `n`, after `lastOpcode` -/
def sigOpsOf (fAccurate : Bool) (lastOpcode opcode : OpcodeType) : Nat :=
  if opcode = OP_CHECKSIG ∨ opcode = OP_CHECKSIGVERIFY then 1
  else if opcode = OP_CHECKMULTISIG ∨ opcode = OP_CHECKMULTISIGVERIFY then
    if fAccurate ∧ OP_1 ≤ lastOpcode ∧ lastOpcode ≤ OP_16 then decodeOP_N lastOpcode else 20
  else 0

/-- The loop of `GetSigOpCount(fAccurate)` from `pc` on -/
def getSigOpCountFrom (fAccurate : Bool) (lastOpcode : OpcodeType) (pc : CScript) : Nat :=
  match _hop : getOp pc with
  | none => 0
  | some (opcode, _, rest) =>
      sigOpsOf fAccurate lastOpcode opcode + getSigOpCountFrom fAccurate opcode rest
termination_by pc.length
decreasing_by exact getOp_length _hop

/-- `GetSigOpCount(fAccurate)` -/
def CScript.getSigOpCount (script : CScript) (fAccurate : Bool) : Nat :=
  getSigOpCountFrom fAccurate OP_INVALIDOPCODE script

/-- The loop of `GetSigOpCount(scriptSig)`: `data` at its end, unless it returns. -/
def lastPush (data pc : CScript) : Option CScript :=
  if pc.isEmpty then some data
  else
    match _hop : getOp pc with
    | none => none
    | some (opcode, vch, rest) => if OP_16 < opcode then none else lastPush vch rest
termination_by pc.length
decreasing_by exact getOp_length _hop

/-- `scriptPubKey.GetSigOpCount(scriptSig)` -/
def CScript.getSigOpCountP2SH (scriptPubKey scriptSig : CScript) : Nat :=
  if !isPayToScriptHash scriptPubKey then scriptPubKey.getSigOpCount true
  else
    match lastPush [] scriptSig with
    | none => 0
    | some data => data.getSigOpCount true

section

variable {fAccurate : Bool} {lastOpcode opcode : OpcodeType} {pc rest : CScript} {vch data : Bytes}

theorem getSigOpCountFrom_none (hop : getOp pc = none) :
    getSigOpCountFrom fAccurate lastOpcode pc = 0 := by
  rw [getSigOpCountFrom]
  split
  · rfl
  · next heq => rw [hop] at heq; cases heq

theorem getSigOpCountFrom_some (hop : getOp pc = some (opcode, vch, rest)) :
    getSigOpCountFrom fAccurate lastOpcode pc
      = sigOpsOf fAccurate lastOpcode opcode + getSigOpCountFrom fAccurate opcode rest := by
  rw [getSigOpCountFrom]
  split
  · next heq => rw [hop] at heq; cases heq
  · next heq => rw [hop] at heq; cases heq; rfl

theorem decodeOP_N_eq (hone : OP_1 ≤ opcode) (hsixteen : opcode ≤ OP_16) :
    0 < decodeOP_N opcode ∧ decodeOP_N opcode ≤ 16 ∧
      opcode.toNat = decodeOP_N opcode + (OP_1.toNat - 1) := by
  rw [UInt8.le_iff_toNat_le] at hone hsixteen
  have hlo : OP_1.toNat = 0x51 := rfl
  have hhi : OP_16.toNat = 0x60 := rfl
  have hzero : opcode ≠ OP_0 := by
    rintro rfl
    exact absurd hone (by decide)
  unfold decodeOP_N
  rw [if_neg hzero]
  omega

theorem sigOpsOf_le_twenty (fAccurate : Bool) (lastOpcode opcode : OpcodeType) :
    sigOpsOf fAccurate lastOpcode opcode ≤ 20 := by
  unfold sigOpsOf
  split
  · decide
  · split
    · split
      · next h => exact (decodeOP_N_eq h.2.1 h.2.2).2.1.trans (by decide)
      · exact Nat.le_refl _
    · exact Nat.zero_le _

theorem sigOpsOf_le (fAccurate : Bool) (lastOpcode opcode : OpcodeType) :
    sigOpsOf fAccurate lastOpcode opcode ≤ sigOpsOf false lastOpcode opcode := by
  by_cases hmulti : (¬ (opcode = OP_CHECKSIG ∨ opcode = OP_CHECKSIGVERIFY)) ∧
      (opcode = OP_CHECKMULTISIG ∨ opcode = OP_CHECKMULTISIGVERIFY)
  · have htwenty : sigOpsOf false lastOpcode opcode = 20 := by
      unfold sigOpsOf
      rw [if_neg hmulti.1, if_pos hmulti.2, if_neg (fun h => Bool.false_ne_true h.1)]
    rw [htwenty]
    exact sigOpsOf_le_twenty fAccurate lastOpcode opcode
  · unfold sigOpsOf
    split
    · exact Nat.le_refl _
    · next hsingle =>
        rw [if_neg (fun h => hmulti ⟨hsingle, h⟩), if_neg (fun h => hmulti ⟨hsingle, h⟩)]

theorem getSigOpCountFrom_le (fAccurate : Bool) (lastOpcode : OpcodeType) (pc : CScript) :
    getSigOpCountFrom fAccurate lastOpcode pc ≤ getSigOpCountFrom false lastOpcode pc := by
  induction pc using getOp_induction generalizing lastOpcode with
  | nil =>
      rw [getSigOpCountFrom_none rfl]
      exact Nat.zero_le _
  | stuck pc _ hop =>
      rw [getSigOpCountFrom_none hop]
      exact Nat.zero_le _
  | cons pc opcode vch rest hop ih =>
      rw [getSigOpCountFrom_some hop, getSigOpCountFrom_some hop]
      exact Nat.add_le_add (sigOpsOf_le fAccurate lastOpcode opcode) (ih opcode)

end

/-! ## A run -/

variable {senv : EvalEnv} {pc : CScript} {st st' : EvalState} {lastOpcode opcode : OpcodeType}
  {vch : Bytes}

/-- Where the next instruction is executed, a small integer that stands in front of it bounds the
number of keys it may find. -/
def FitsLast (lastOpcode : OpcodeType) (st : EvalState) : Prop :=
  st.vfExec.all id = true → OP_1 ≤ lastOpcode → lastOpcode ≤ OP_16 →
    Machine.keysCount st ≤ decodeOP_N lastOpcode

theorem keysCount_le_twenty (st : EvalState) : Machine.keysCount st ≤ 20 := by
  unfold Machine.keysCount
  cases hcount : countAt st.stack 1 20 with
  | none => exact Nat.zero_le _
  | some n => exact_mod_cast Machine.countAt_le hcount

theorem countAt_getvch {stack : List Bytes} {n : Nat} (hpos : 0 < n) (hle : n ≤ 20) :
    countAt (CBigNum.getvch n :: stack) 1 20 = some n := by
  have htop : stacktop (CBigNum.getvch n :: stack) 1 = some (CBigNum.getvch n) := rfl
  unfold countAt
  rw [htop, Option.bind_some, castToBigNum_small hpos (by omega), Option.bind_some]
  dsimp only
  rw [CBigNum.getint_of_small (by omega), if_neg (by omega), Int.toNat_natCast]

/-- What the machine does with a small integer -/
theorem execOp_OP_N {fExec : Bool} (hone : OP_1 ≤ opcode) (hsixteen : opcode ≤ OP_16) :
    execOp senv opcode pc fExec st
      = some { st with stack := CBigNum.getvch (decodeOP_N opcode) :: st.stack } := by
  have hinstr : instruction senv opcode
      = some (.push ((opcode.toNat : ℤ) - (OP_1.toNat - 1)), false) := by
    unfold instruction
    rw [if_pos (Or.inr ⟨hone, hsixteen⟩)]
  have hn : (opcode.toNat : ℤ) - (OP_1.toNat - 1) = decodeOP_N opcode := by
    have heq := (decodeOP_N_eq hone hsixteen).2.2
    have hval : OP_1.toNat = 0x51 := rfl
    omega
  rw [hn] at hinstr
  unfold execOp
  rw [hinstr]
  rfl

/-- An opcode fits the next one. -/
theorem fitsLast_evalSized (heval : Machine.evalSized senv opcode vch pc st = some st') :
    FitsLast opcode st' := by
  intro hexec hone hsixteen
  obtain ⟨hpos, hle, -⟩ := decodeOP_N_eq hone hsixteen
  obtain ⟨st₁, heval, hsize⟩ := Option.bind_eq_some_iff.mp heval
  split at hsize
  · cases hsize
  cases hsize
  obtain ⟨-, nOpCount, -, hcases⟩ := evalOp_cases heval
  obtain ⟨-, hpush, -⟩ | ⟨-, -, hexecOp⟩ | ⟨hskip, rfl⟩ := hcases
  · exact absurd (UInt8.le_trans hone hpush) (by decide)
  · rw [execOp_OP_N hone hsixteen] at hexecOp
    cases hexecOp
    unfold Machine.keysCount
    rw [countAt_getvch hpos (hle.trans (by decide))]
    exact Nat.le_refl _
  · exact absurd hexec hskip

/-- A round calls `CheckSig` at most as often as the text says. -/
theorem roundSigOps_le (h : FitsLast lastOpcode st) :
    Machine.roundSigOps opcode st ≤ sigOpsOf true lastOpcode opcode := by
  unfold Machine.roundSigOps Machine.sigOps sigOpsOf
  split
  · next hexec =>
      split
      · exact Nat.le_refl _
      · split
        · split
          · next hlast => exact h hexec hlast.2.1 hlast.2.2
          · exact keysCount_le_twenty st
        · exact Nat.le_refl _
  · exact Nat.zero_le _

/-- How often `CheckSig` was called, however a run ends. -/
def Machine.calls : EStateM.Result Stop MachineState Unit → Nat
  | .ok _ m => m.nCheckSig
  | .error _ m => m.nCheckSig

theorem Machine.Agrees.calls_le {bound : Nat} {r : EStateM.Result Stop MachineState Unit}
    {st? : Option EvalState} (h : Machine.Agrees bound r st?) : Machine.calls r ≤ bound := by
  cases r with
  | ok _ m =>
      cases st? with
      | none => cases h
      | some st => exact h.2
  | error e m =>
      cases st? with
      | none => exact h.2
      | some st => cases h

theorem calls_loop_le (senv : EvalEnv) (pc : CScript) (m : MachineState)
    (h : FitsLast lastOpcode m.toEvalState) :
    Machine.calls (Machine.loop senv pc m) ≤ m.nCheckSig + getSigOpCountFrom true lastOpcode pc := by
  induction pc using getOp_induction generalizing lastOpcode m with
  | nil =>
      rw [Machine.loop_nil]
      exact Nat.le_add_right _ _
  | stuck pc hne hop =>
      rw [Machine.loop_of_none hne hop]
      exact Nat.le_add_right _ _
  | cons pc opcode vch rest hop ih =>
      have hagrees := Machine.execute_simulates senv opcode vch rest m
      have hround : Machine.roundSigOps opcode m.toEvalState ≤ _ := roundSigOps_le h
      have hcalls := hagrees.calls_le
      rw [Machine.loop_of_getOp hop, getSigOpCountFrom_some hop]
      cases hexec : Machine.execute senv opcode vch rest m with
      | error e m' =>
          rw [hexec] at hcalls
          exact hcalls.trans (by omega)
      | ok _ m' =>
          rw [hexec] at hagrees hcalls
          cases heval : Machine.evalSized senv opcode vch rest m.toEvalState with
          | none =>
              rw [heval] at hagrees
              cases hagrees
          | some st =>
              rw [heval] at hagrees
              obtain ⟨rfl, hm'⟩ := hagrees
              have hrest := ih m' (fitsLast_evalSized heval)
              dsimp only
              omega

theorem nCheckSig_evalScriptRun_le (senv : EvalEnv) (stack : List Bytes) (script : CScript) :
    (evalScriptRun senv stack script).nCheckSig ≤ script.getSigOpCount true := by
  have hstart : FitsLast OP_INVALIDOPCODE (Machine.start stack script).toEvalState :=
    fun _ _ hle => absurd hle (by decide)
  have hle := calls_loop_le senv script (Machine.start stack script) hstart
  unfold evalScriptRun
  split
  · exact Nat.zero_le _
  · cases hloop : Machine.loop senv script (Machine.start stack script) with
    | ok _ m =>
        rw [hloop] at hle
        exact hle.trans (Nat.le_of_eq (Nat.zero_add _))
    | error e m =>
        rw [hloop] at hle
        exact hle.trans (Nat.le_of_eq (Nat.zero_add _))

/-! ## The redeem script -/

section

variable {data rest : Bytes}

theorem isPushOnly_of_none (hne : pc ≠ []) (hop : getOp pc = none) : isPushOnly pc = false := by
  rw [isPushOnly, if_neg (by simpa using hne)]
  split
  · rfl
  · next heq => rw [hop] at heq; cases heq

theorem isPushOnly_of_some (hop : getOp pc = some (opcode, vch, rest)) :
    isPushOnly pc = if OP_16 < opcode then false else isPushOnly rest := by
  have hne : pc ≠ [] := by
    rintro rfl
    cases hop
  rw [isPushOnly, if_neg (by simpa using hne)]
  split
  · next heq => rw [hop] at heq; cases heq
  · next heq => rw [hop] at heq; cases heq; rfl

theorem lastPush_of_some (hop : getOp pc = some (opcode, vch, rest)) :
    lastPush data pc = if OP_16 < opcode then none else lastPush vch rest := by
  have hne : pc ≠ [] := by
    rintro rfl
    cases hop
  rw [lastPush, if_neg (by simpa using hne)]
  split
  · next heq => rw [hop] at heq; cases heq
  · next heq => rw [hop] at heq; cases heq; rfl

end

/-- The opcodes from `OP_1NEGATE` to `OP_16` push a number; `OP_RESERVED`, in between, fails. -/
theorem execOp_number {fExec : Bool} (hpush : OP_PUSHDATA4 < opcode) (hsixteen : opcode ≤ OP_16)
    (hexec : execOp senv opcode pc fExec st = some st') :
    ∃ bn : ℤ, (bn = -1 ∨ ∃ n : Nat, bn = n ∧ 0 < n ∧ n ≤ 16) ∧
      st' = { st with stack := CBigNum.getvch bn :: st.stack } := by
  by_cases hone : OP_1 ≤ opcode
  · obtain ⟨hpos, hle, -⟩ := decodeOP_N_eq hone hsixteen
    rw [execOp_OP_N hone hsixteen] at hexec
    cases hexec
    exact ⟨_, .inr ⟨_, rfl, hpos, hle⟩, rfl⟩
  · have hcases : opcode = OP_1NEGATE ∨ opcode = 0x50 := by
      rw [UInt8.not_le, UInt8.lt_iff_toNat_lt] at hone
      rw [UInt8.lt_iff_toNat_lt] at hpush
      have hlo : OP_PUSHDATA4.toNat = 0x4e := rfl
      have hhi : OP_1.toNat = 0x51 := rfl
      have hneg : OP_1NEGATE.toNat = 0x4f := rfl
      have hreserved : UInt8.toNat 0x50 = 0x50 := rfl
      rw [← UInt8.toNat_inj, ← UInt8.toNat_inj]
      omega
    rcases hcases with rfl | rfl
    · cases hexec
      exact ⟨-1, .inl rfl, rfl⟩
    · cases hexec

/-- A number is a script without signature operations: it ends within a push, or is disabled. -/
theorem getSigOpCount_number {bn : ℤ} (h : bn = -1 ∨ ∃ n : Nat, bn = n ∧ 0 < n ∧ n ≤ 16) :
    CScript.getSigOpCount (CBigNum.getvch bn) true = 0 := by
  unfold CScript.getSigOpCount
  obtain rfl | ⟨n, rfl, hpos, hle⟩ := h
  · have hvch : CBigNum.getvch (-1) = [OP_RIGHT] := by
      unfold CBigNum.getvch
      simp
      decide
    rw [hvch, getSigOpCountFrom_some (getOp_cons_of_lt (by decide)), getSigOpCountFrom_none rfl]
    rfl
  · rw [CBigNum.getvch_small hpos (by omega)]
    apply getSigOpCountFrom_none
    interval_cases n <;> rfl

/-- What is on top of the stack has no more signature operations than `data`. -/
def Covers (data : Bytes) (stack : List Bytes) : Prop :=
  ∀ top ∈ stack.head?, CScript.getSigOpCount top true ≤ CScript.getSigOpCount data true

/-- What a push-only script leaves on top of the stack -/
theorem lastPush_covers {data : Bytes} (hpush : isPushOnly pc = true)
    (hrun : evalFrom senv pc st = some st') (hst : st.vfExec = []) (hdata : Covers data st.stack) :
    ∃ data', lastPush data pc = some data' ∧ Covers data' st'.stack := by
  induction pc using getOp_induction generalizing st data with
  | nil =>
      rw [evalFrom_nil] at hrun
      cases hrun
      exact ⟨data, by rw [lastPush]; rfl, hdata⟩
  | stuck pc hne hop =>
      rw [isPushOnly_of_none hne hop] at hpush
      cases hpush
  | cons pc opcode vch rest hop ih =>
      rw [isPushOnly_of_some hop] at hpush
      have hsixteen : ¬ OP_16 < opcode := by
        intro hlt
        rw [if_pos hlt] at hpush
        cases hpush
      rw [if_neg hsixteen] at hpush
      rw [lastPush_of_some hop, if_neg hsixteen]
      rw [evalFrom_cons hop] at hrun
      obtain ⟨st₁, heval, hrun⟩ := Option.bind_eq_some_iff.mp hrun
      split at hrun
      · cases hrun
      have hall : st.vfExec.all id = true := by
        rw [hst]
        rfl
      obtain ⟨-, nOpCount, -, hcases⟩ := evalOp_cases heval
      obtain ⟨-, -, rfl⟩ | ⟨hlt, -, hexec⟩ | ⟨hskip, -⟩ := hcases
      · refine ih hpush hrun hst ?_
        intro top htop
        cases htop
        exact Nat.le_refl _
      · obtain ⟨bn, hbn, rfl⟩ := execOp_number (hlt hall) (UInt8.not_lt.mp hsixteen) hexec
        refine ih hpush hrun hst ?_
        intro top htop
        cases htop
        rw [getSigOpCount_number hbn]
        exact Nat.zero_le _
      · exact absurd hall hskip

/-- The calls of `EvalScript` that `VerifyScript` makes, however it ends. -/
def verifyScriptRuns (senv : EvalEnv) (scriptSig scriptPubKey : CScript) : List EvalRun :=
  match Verifier.verifyScript senv scriptSig scriptPubKey [] with
  | .ok _ runs => runs
  | .error _ runs => runs

/-- How often `VerifyScript` calls `CheckSig` in the third script it runs, the redeem script. -/
def redeemScriptCalls (senv : EvalEnv) (scriptSig scriptPubKey : CScript) : Nat :=
  ((verifyScriptRuns senv scriptSig scriptPubKey)[2]?.map EvalRun.nCheckSig).getD 0

theorem redeemScriptCalls_le (senv : EvalEnv) (scriptSig scriptPubKey : CScript) :
    redeemScriptCalls senv scriptSig scriptPubKey ≤ scriptPubKey.getSigOpCountP2SH scriptSig := by
  obtain ⟨runs, hverify, hredeem⟩ := Verifier.verifyScript_apply senv scriptSig scriptPubKey
  unfold redeemScriptCalls verifyScriptRuns
  rw [hverify]
  dsimp only
  cases hrun : runs[2]? with
  | none => exact Nat.zero_le _
  | some run =>
      obtain ⟨hp2sh, hpush, top, stackCopy, heval, rfl⟩ := hredeem run hrun
      have hempty : Covers [] [] := by
        intro top htop
        cases htop
      unfold evalScript at heval
      split at heval
      · cases heval
      obtain ⟨st, hst, heval⟩ := Option.bind_eq_some_iff.mp heval
      obtain ⟨data, hdata, hcovers⟩ := lastPush_covers hpush hst rfl hempty
      split at heval
      · have hstack : st.stack = top :: stackCopy := Option.some.inj heval
        have htop : CScript.getSigOpCount top true ≤ CScript.getSigOpCount data true := by
          apply hcovers
          rw [hstack]
          rfl
        unfold CScript.getSigOpCountP2SH
        rw [hp2sh, hdata]
        exact (nCheckSig_evalScriptRun_le senv stackCopy top).trans htop
      · cases heval

/-- The counts of signature operations bound the work: `EvalScript` calls `CheckSig` at most as often
as the exact count of its script says, which is at most the rough one; and running a redeem script
does at most as often as the count of the output says for the input. -/
theorem sigOpCount_bounds_calls (senv : EvalEnv) :
    (∀ (stack : List Bytes) (script : CScript),
      (evalScriptRun senv stack script).nCheckSig ≤ script.getSigOpCount true ∧
      script.getSigOpCount true ≤ script.getSigOpCount false) ∧
    ∀ scriptSig scriptPubKey : CScript, redeemScriptCalls senv scriptSig scriptPubKey
      ≤ scriptPubKey.getSigOpCountP2SH scriptSig :=
  ⟨fun stack script => ⟨nCheckSig_evalScriptRun_le senv stack script,
    getSigOpCountFrom_le true OP_INVALIDOPCODE script⟩, redeemScriptCalls_le senv⟩

end ShinyCoin

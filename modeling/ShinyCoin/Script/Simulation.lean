import ShinyCoin.Script.Machine
import ShinyCoin.Script.Execution
import Mathlib.Data.Int.SuccPred
import Mathlib.Data.Nat.SuccPred

/-!
# The two machines agree

Each case of the switch does to the state what the instruction of `Script/Eval` does, and where the
instruction fails, the case returns false or finds a number too long: its statements never look
below the bottom of a stack. So the round and the run of the two machines agree.

Along with it goes a bound on how often a case calls `CheckSig`.
-/

namespace ShinyCoin

namespace Machine

section

variable {α β : Type}

/-! ## What the statements do -/

@[simp] theorem bind_apply (x : Machine α) (f : α → Machine β) (m : MachineState) :
    (x >>= f) m = match x m with
      | .ok a m' => f a m'
      | .error e m' => .error e m' := by
  show EStateM.bind x f m = _
  unfold EStateM.bind
  cases x m <;> rfl

@[simp] theorem pure_apply (a : α) (m : MachineState) : (pure a : Machine α) m = .ok a m := rfl

@[simp] theorem map_apply (f : α → β) (x : Machine α) (m : MachineState) :
    (f <$> x) m = match x m with
      | .ok a m' => .ok (f a) m'
      | .error e m' => .error e m' := by
  show EStateM.map f x m = _
  unfold EStateM.map
  cases x m <;> rfl

@[simp] theorem throw_apply (e : Stop) (m : MachineState) :
    (throw e : Machine α) m = .error e m := rfl

@[simp] theorem get_apply (m : MachineState) : (get : Machine MachineState) m = .ok m m := rfl

@[simp] theorem modify_apply (f : MachineState → MachineState) (m : MachineState) :
    (modify f : Machine Unit) m = .ok () (f m) := rfl

end

@[simp] theorem returnFalseIf_apply (c : Prop) [Decidable c] (m : MachineState) :
    returnFalseIf c m = if c then .error .returnFalse m else .ok () m := by
  unfold returnFalseIf
  split <;> rfl

@[simp] theorem size_apply (m : MachineState) : size m = .ok m.stack.length m := rfl

@[simp] theorem needs_apply (n : Nat) (m : MachineState) :
    needs n m = if m.stack.length < n then .error .returnFalse m else .ok () m := by
  rw [needs, bind_apply, size_apply]
  exact returnFalseIf_apply _ m

@[simp] theorem setStack_apply (stack : List Bytes) (m : MachineState) :
    setStack stack m = .ok () { m with stack := stack } := rfl

@[simp] theorem pushBack_apply (vch : Bytes) (m : MachineState) :
    pushBack vch m = .ok () { m with stack := vch :: m.stack } := rfl

@[simp] theorem stacktop_apply (i : Nat) (m : MachineState) :
    stacktop (i + 1) m = match m.stack[i]? with
      | some vch => .ok vch m
      | none => .error .outOfRange m := by
  rw [stacktop, bind_apply, get_apply]
  dsimp only
  cases m.stack[i]? <;> rfl

@[simp] theorem popstack_apply (m : MachineState) :
    popstack m = match m.stack with
      | [] => .error .stackEmpty m
      | _ :: stack => .ok () { m with stack := stack } := by
  rw [popstack, bind_apply, get_apply]
  dsimp only
  cases m.stack <;> rfl

@[simp] theorem swapTop_apply (i j : Nat) (m : MachineState) :
    swapTop (i + 1) (j + 1) m = match m.stack[i]?, m.stack[j]? with
      | some vch1, some vch2 => .ok () { m with stack := (m.stack.set i vch2).set j vch1 }
      | _, _ => .error .outOfRange m := by
  rw [swapTop, bind_apply, stacktop_apply]
  cases m.stack[i]? with
  | none => rfl
  | some vch1 =>
      dsimp only
      rw [bind_apply, stacktop_apply]
      cases m.stack[j]? <;> rfl

@[simp] theorem erase_apply (i j : Nat) (m : MachineState) :
    erase i j m = if m.stack.length < i then .error .outOfRange m
      else .ok () { m with stack := m.stack.take j ++ m.stack.drop i } := by
  rw [erase, bind_apply, get_apply]
  dsimp only
  split <;> rfl

@[simp] theorem insert_apply (i : Nat) (vch : Bytes) (m : MachineState) :
    insert i vch m = if m.stack.length < i then .error .outOfRange m
      else .ok () { m with stack := m.stack.take i ++ vch :: m.stack.drop i } := by
  rw [insert, bind_apply, get_apply]
  dsimp only
  split <;> rfl

@[simp] theorem castToBigNum_apply (vch : Bytes) (m : MachineState) :
    castToBigNum vch m = match ShinyCoin.castToBigNum vch with
      | some bn => .ok bn m
      | none => .error .overflow m := by
  unfold castToBigNum
  cases ShinyCoin.castToBigNum vch <;> rfl

@[simp] theorem checkSig_apply (senv : EvalEnv) (vchSig vchPubKey : Bytes) (scriptCode : CScript)
    (m : MachineState) : checkSig senv vchSig vchPubKey scriptCode m
      = .ok (senv.checkSig vchSig vchPubKey scriptCode) { m with nCheckSig := m.nCheckSig + 1 } :=
  rfl

/-! ## Agreement -/

/-- What a case of the switch does, next to what the instruction does: at most `bound` calls of
`CheckSig` are counted afterwards. -/
def Agrees (bound : Nat) : EStateM.Result Stop MachineState Unit → Option EvalState → Prop
  | .ok () m, some st => m.toEvalState = st ∧ m.nCheckSig ≤ bound
  | .error e m, none => (e = .returnFalse ∨ e = .overflow) ∧ m.nCheckSig ≤ bound
  | _, _ => False

section

variable {bound : Nat} {m : MachineState} {x : Machine Unit} {st? : Option EvalState}
  {g : EvalState → Option EvalState}

theorem agrees_returnFalseIf {c : Prop} [Decidable c] (hbound : m.nCheckSig ≤ bound)
    (h : ¬ c → Agrees bound (x m) (st?.bind g)) :
    Agrees bound ((returnFalseIf c >>= fun _ => x) m) ((if c then none else st?).bind g) := by
  rw [bind_apply, returnFalseIf_apply]
  by_cases hc : c
  · rw [if_pos hc, if_pos hc]
    exact ⟨.inl rfl, hbound⟩
  · rw [if_neg hc, if_neg hc]
    exact h hc

theorem agrees_needs {n : Nat} (hbound : m.nCheckSig ≤ bound)
    (h : n ≤ m.stack.length → Agrees bound (x m) (st?.bind g)) :
    Agrees bound ((needs n >>= fun _ => x) m)
      ((if m.stack.length < n then none else st?).bind g) := by
  rw [bind_apply, needs_apply]
  by_cases hn : m.stack.length < n
  · rw [if_pos hn, if_pos hn]
    exact ⟨.inl rfl, hbound⟩
  · rw [if_neg hn, if_neg hn]
    exact h (Nat.le_of_not_lt hn)

/-- A result is pushed, and taken off again where it is verified and true. -/
theorem agrees_pushResult (fVerify fValue : Bool) (hbound : m.nCheckSig ≤ bound) :
    Agrees bound ((pushBack (boolVch fValue) >>= fun _ => verify fVerify fValue) m)
      (if fVerify then execVerify { m.toEvalState with stack := boolVch fValue :: m.stack }
      else some { m.toEvalState with stack := boolVch fValue :: m.stack }) := by
  cases fVerify with
  | false => simp [verify, Agrees, hbound]
  | true => cases fValue <;> simp [verify, execVerify, Agrees, hbound]

end

/-- From every state; `k` bounds the calls. -/
def Simulates (k : EvalState → Nat) (x : Machine Unit) (f : EvalState → Option EvalState) : Prop :=
  ∀ m, Agrees (m.nCheckSig + k m.toEvalState) (x m) (f m.toEvalState)

/-- What the instruction does, and `VERIFY`. -/
def instructionOf (senv : EvalEnv) (pc : CScript) (fExec : Bool) (entry : Instruction × Bool)
    (st : EvalState) : Option EvalState :=
  (entry.1.exec senv pc fExec st).bind fun st => if entry.2 then execVerify st else some st

variable {senv : EvalEnv} {pc : CScript} {fExec : Bool} {k : EvalState → Nat}


/-! ## Control -/

theorem opPush_simulates (bn : ℤ) :
    Simulates k (opPush bn) (instructionOf senv pc fExec (.push bn, false)) := by
  intro m
  simp [opPush, instructionOf, Instruction.exec, Agrees]

theorem opNop_simulates : Simulates k opNop (instructionOf senv pc fExec (.nop, false)) := by
  intro m
  simp [opNop, instructionOf, Instruction.exec, Agrees]

theorem opIf_simulates (fNot : Bool) :
    Simulates k (opIf fNot fExec) (instructionOf senv pc fExec (.branch fNot, false)) := by
  rintro ⟨⟨stack, altstack, vfExec, nOpCount, scriptCode⟩, n⟩
  cases fExec with
  | false => simp [opIf, instructionOf, Instruction.exec, Agrees]
  | true =>
      cases stack with
      | nil => simp [opIf, instructionOf, Instruction.exec, Agrees]
      | cons vch stack => cases fNot <;> simp [opIf, instructionOf, Instruction.exec, Agrees]

theorem opElse_simulates : Simulates k opElse (instructionOf senv pc fExec (.else, false)) := by
  rintro ⟨⟨stack, altstack, vfExec, nOpCount, scriptCode⟩, n⟩
  cases vfExec <;> simp [opElse, instructionOf, Instruction.exec, Agrees]

theorem opEndif_simulates : Simulates k opEndif (instructionOf senv pc fExec (.endif, false)) := by
  rintro ⟨⟨stack, altstack, vfExec, nOpCount, scriptCode⟩, n⟩
  cases vfExec <;> simp [opEndif, instructionOf, Instruction.exec, Agrees]

theorem opVerify_simulates :
    Simulates k opVerify (instructionOf senv pc fExec (.verify, false)) := by
  rintro ⟨⟨stack, altstack, vfExec, nOpCount, scriptCode⟩, n⟩
  cases stack with
  | nil => simp [opVerify, instructionOf, Instruction.exec, execVerify, Agrees]
  | cons vch stack =>
      cases h : castToBool vch <;>
        simp [opVerify, verify, instructionOf, Instruction.exec, execVerify, Agrees, h]

theorem opReturn_simulates :
    Simulates k opReturn (instructionOf senv pc fExec (.return, false)) := by
  intro m
  simp [opReturn, instructionOf, Instruction.exec, Agrees]

/-! ## Stack ops -/

theorem opToAltStack_simulates :
    Simulates k opToAltStack (instructionOf senv pc fExec (.toAltStack, false)) := by
  rintro ⟨⟨stack, altstack, vfExec, nOpCount, scriptCode⟩, n⟩
  cases stack <;> simp [opToAltStack, instructionOf, Instruction.exec, Agrees]

theorem opFromAltStack_simulates :
    Simulates k opFromAltStack (instructionOf senv pc fExec (.fromAltStack, false)) := by
  rintro ⟨⟨stack, altstack, vfExec, nOpCount, scriptCode⟩, n⟩
  cases altstack <;> simp [opFromAltStack, instructionOf, Instruction.exec, Agrees]

theorem op2Drop_simulates :
    Simulates k op2Drop (instructionOf senv pc fExec (.shuffle 2 [], false)) := by
  rintro ⟨⟨stack, altstack, vfExec, nOpCount, scriptCode⟩, n⟩
  rcases stack with _ | ⟨a, _ | ⟨b, stack⟩⟩ <;>
    simp +arith [op2Drop, instructionOf, Instruction.exec, Agrees]

theorem op2Dup_simulates :
    Simulates k op2Dup (instructionOf senv pc fExec (.shuffle 2 [1, 2, 1, 2], false)) := by
  rintro ⟨⟨stack, altstack, vfExec, nOpCount, scriptCode⟩, n⟩
  rcases stack with _ | ⟨a, _ | ⟨b, stack⟩⟩ <;>
    simp +arith [op2Dup, instructionOf, Instruction.exec, ShinyCoin.stacktop, Agrees]

theorem op3Dup_simulates :
    Simulates k op3Dup (instructionOf senv pc fExec (.shuffle 3 [1, 2, 3, 1, 2, 3], false)) := by
  rintro ⟨⟨stack, altstack, vfExec, nOpCount, scriptCode⟩, n⟩
  rcases stack with _ | ⟨a, _ | ⟨b, _ | ⟨c, stack⟩⟩⟩ <;>
    simp +arith [op3Dup, instructionOf, Instruction.exec, ShinyCoin.stacktop, Agrees]

theorem op2Over_simulates :
    Simulates k op2Over (instructionOf senv pc fExec (.shuffle 4 [3, 4, 1, 2, 3, 4], false)) := by
  rintro ⟨⟨stack, altstack, vfExec, nOpCount, scriptCode⟩, n⟩
  rcases stack with _ | ⟨a, _ | ⟨b, _ | ⟨c, _ | ⟨d, stack⟩⟩⟩⟩ <;>
    simp +arith [op2Over, instructionOf, Instruction.exec, ShinyCoin.stacktop, Agrees]

theorem op2Rot_simulates :
    Simulates k op2Rot (instructionOf senv pc fExec (.shuffle 6 [5, 6, 1, 2, 3, 4], false)) := by
  rintro ⟨⟨stack, altstack, vfExec, nOpCount, scriptCode⟩, n⟩
  rcases stack with _ | ⟨a, _ | ⟨b, _ | ⟨c, _ | ⟨d, _ | ⟨e, _ | ⟨f, stack⟩⟩⟩⟩⟩⟩ <;>
    simp +arith [op2Rot, instructionOf, Instruction.exec, ShinyCoin.stacktop, Agrees]

theorem op2Swap_simulates :
    Simulates k op2Swap (instructionOf senv pc fExec (.shuffle 4 [3, 4, 1, 2], false)) := by
  rintro ⟨⟨stack, altstack, vfExec, nOpCount, scriptCode⟩, n⟩
  rcases stack with _ | ⟨a, _ | ⟨b, _ | ⟨c, _ | ⟨d, stack⟩⟩⟩⟩ <;>
    simp +arith [op2Swap, instructionOf, Instruction.exec, ShinyCoin.stacktop, Agrees]

theorem opIfDup_simulates : Simulates k opIfDup (instructionOf senv pc fExec
    (.onTop fun vch => if castToBool vch then [vch, vch] else [vch], false)) := by
  rintro ⟨⟨stack, altstack, vfExec, nOpCount, scriptCode⟩, n⟩
  cases stack with
  | nil => simp [opIfDup, instructionOf, Instruction.exec, Agrees]
  | cons vch stack =>
      cases h : castToBool vch <;>
        simp [opIfDup, instructionOf, Instruction.exec, Agrees, h]

theorem opDepth_simulates : Simulates k opDepth (instructionOf senv pc fExec (.depth, false)) := by
  intro m
  simp [opDepth, instructionOf, Instruction.exec, Agrees]

theorem opDrop_simulates :
    Simulates k opDrop (instructionOf senv pc fExec (.shuffle 1 [], false)) := by
  rintro ⟨⟨stack, altstack, vfExec, nOpCount, scriptCode⟩, n⟩
  cases stack <;> simp +arith [opDrop, instructionOf, Instruction.exec, Agrees]

theorem opDup_simulates :
    Simulates k opDup (instructionOf senv pc fExec (.shuffle 1 [1, 1], false)) := by
  rintro ⟨⟨stack, altstack, vfExec, nOpCount, scriptCode⟩, n⟩
  cases stack <;> simp +arith [opDup, instructionOf, Instruction.exec, ShinyCoin.stacktop, Agrees]

theorem opNip_simulates :
    Simulates k opNip (instructionOf senv pc fExec (.shuffle 2 [1], false)) := by
  rintro ⟨⟨stack, altstack, vfExec, nOpCount, scriptCode⟩, n⟩
  rcases stack with _ | ⟨a, _ | ⟨b, stack⟩⟩ <;>
    simp +arith [opNip, instructionOf, Instruction.exec, ShinyCoin.stacktop, Agrees]

theorem opOver_simulates :
    Simulates k opOver (instructionOf senv pc fExec (.shuffle 2 [2, 1, 2], false)) := by
  rintro ⟨⟨stack, altstack, vfExec, nOpCount, scriptCode⟩, n⟩
  rcases stack with _ | ⟨a, _ | ⟨b, stack⟩⟩ <;>
    simp +arith [opOver, instructionOf, Instruction.exec, ShinyCoin.stacktop, Agrees]

theorem opPick_simulates (fRoll : Bool) :
    Simulates k (opPick fRoll) (instructionOf senv pc fExec (.pick fRoll, false)) := by
  rintro ⟨⟨stack, altstack, vfExec, nOpCount, scriptCode⟩, n⟩
  rcases stack with _ | ⟨top, _ | ⟨vch, stack⟩⟩
  · simp [opPick, instructionOf, Instruction.exec, execPick, Agrees]
  · simp [opPick, instructionOf, Instruction.exec, execPick, Agrees]
  · have hsize : ¬ stack.length + 1 + 1 < 2 := by omega
    cases hbn : ShinyCoin.castToBigNum top with
    | none => simp [opPick, instructionOf, Instruction.exec, execPick, Agrees, hsize, hbn]
    | some bn =>
        by_cases hn : CBigNum.getint bn < 0 ∨ (stack.length : ℤ) < CBigNum.getint bn
        · simp [opPick, instructionOf, Instruction.exec, execPick, Agrees, hsize, hbn, hn]
        · have hlt : (CBigNum.getint bn).toNat < (vch :: stack).length := by
            rw [List.length_cons]
            omega
          have hget := List.getElem?_eq_getElem hlt
          have hdepth : ¬ stack.length < (CBigNum.getint bn).toNat := by
            rw [List.length_cons] at hlt
            omega
          cases fRoll <;>
            simp [opPick, instructionOf, Instruction.exec, execPick, ShinyCoin.stacktop, Agrees,
              List.eraseIdx_eq_take_drop_succ, hsize, hbn, hn, hget, hdepth]

theorem opRot_simulates :
    Simulates k opRot (instructionOf senv pc fExec (.shuffle 3 [3, 1, 2], false)) := by
  rintro ⟨⟨stack, altstack, vfExec, nOpCount, scriptCode⟩, n⟩
  rcases stack with _ | ⟨a, _ | ⟨b, _ | ⟨c, stack⟩⟩⟩ <;>
    simp +arith [opRot, instructionOf, Instruction.exec, ShinyCoin.stacktop, Agrees]

theorem opSwap_simulates :
    Simulates k opSwap (instructionOf senv pc fExec (.shuffle 2 [2, 1], false)) := by
  rintro ⟨⟨stack, altstack, vfExec, nOpCount, scriptCode⟩, n⟩
  rcases stack with _ | ⟨a, _ | ⟨b, stack⟩⟩ <;>
    simp +arith [opSwap, instructionOf, Instruction.exec, ShinyCoin.stacktop, Agrees]

theorem opTuck_simulates :
    Simulates k opTuck (instructionOf senv pc fExec (.shuffle 2 [1, 2, 1], false)) := by
  rintro ⟨⟨stack, altstack, vfExec, nOpCount, scriptCode⟩, n⟩
  rcases stack with _ | ⟨a, _ | ⟨b, stack⟩⟩ <;>
    simp +arith [opTuck, instructionOf, Instruction.exec, ShinyCoin.stacktop, Agrees]

theorem opSize_simulates : Simulates k opSize (instructionOf senv pc fExec
    (.onTop fun vch => [CBigNum.getvch vch.length, vch], false)) := by
  rintro ⟨⟨stack, altstack, vfExec, nOpCount, scriptCode⟩, n⟩
  cases stack <;> simp [opSize, instructionOf, Instruction.exec, Agrees]

/-! ## Bit logic and numeric -/

theorem opEqual_simulates (fVerify : Bool) :
    Simulates k (opEqual fVerify) (instructionOf senv pc fExec (.equal, fVerify)) := by
  rintro ⟨⟨stack, altstack, vfExec, nOpCount, scriptCode⟩, n⟩
  rcases stack with _ | ⟨vch2, _ | ⟨vch1, stack⟩⟩
  · simp [opEqual, instructionOf, Instruction.exec, Agrees]
  · simp [opEqual, instructionOf, Instruction.exec, Agrees]
  · exact agrees_pushResult (m := ⟨⟨stack, altstack, vfExec, nOpCount, scriptCode⟩, n⟩) fVerify
      (vch1 == vch2) (Nat.le_add_right _ _)

theorem opUnary_simulates (f : ℤ → ℤ) :
    Simulates k (opUnary f) (instructionOf senv pc fExec (.unary f, false)) := by
  rintro ⟨⟨stack, altstack, vfExec, nOpCount, scriptCode⟩, n⟩
  cases stack with
  | nil => simp [opUnary, instructionOf, Instruction.exec, Agrees]
  | cons vch stack =>
      cases hbn : ShinyCoin.castToBigNum vch <;>
        simp [opUnary, instructionOf, Instruction.exec, Agrees, hbn]

theorem opBinary_simulates (f : ℤ → ℤ → ℤ) (fVerify : Bool) :
    Simulates k (opBinary f fVerify) (instructionOf senv pc fExec (.binary f, fVerify)) := by
  rintro ⟨⟨stack, altstack, vfExec, nOpCount, scriptCode⟩, n⟩
  rcases stack with _ | ⟨vch2, _ | ⟨vch1, stack⟩⟩
  · simp [opBinary, instructionOf, Instruction.exec, Agrees]
  · simp [opBinary, instructionOf, Instruction.exec, Agrees]
  · cases hbn1 : ShinyCoin.castToBigNum vch1 with
    | none => simp +arith [opBinary, instructionOf, Instruction.exec, Agrees, hbn1]
    | some bn1 =>
      cases hbn2 : ShinyCoin.castToBigNum vch2 with
      | none => simp +arith [opBinary, instructionOf, Instruction.exec, Agrees, hbn1, hbn2]
      | some bn2 =>
        cases fVerify with
        | false => simp +arith [opBinary, instructionOf, Instruction.exec, Agrees, hbn1, hbn2]
        | true =>
            cases hvalue : castToBool (CBigNum.getvch (f bn1 bn2)) <;>
              simp +arith [opBinary, verify, instructionOf, Instruction.exec, execVerify, Agrees,
                hbn1, hbn2, hvalue]

theorem opWithin_simulates :
    Simulates k opWithin (instructionOf senv pc fExec (.within, false)) := by
  rintro ⟨⟨stack, altstack, vfExec, nOpCount, scriptCode⟩, n⟩
  rcases stack with _ | ⟨vch3, _ | ⟨vch2, _ | ⟨vch1, stack⟩⟩⟩
  · simp [opWithin, instructionOf, Instruction.exec, Agrees]
  · simp [opWithin, instructionOf, Instruction.exec, Agrees]
  · simp [opWithin, instructionOf, Instruction.exec, Agrees]
  · have hsize : ¬ stack.length + 1 + 1 + 1 < 3 := by omega
    cases hbn1 : ShinyCoin.castToBigNum vch1 with
    | none => simp [opWithin, instructionOf, Instruction.exec, Agrees, hsize, hbn1]
    | some bn1 =>
      cases hbn2 : ShinyCoin.castToBigNum vch2 with
      | none => simp [opWithin, instructionOf, Instruction.exec, Agrees, hsize, hbn1, hbn2]
      | some bn2 =>
        cases hbn3 : ShinyCoin.castToBigNum vch3 <;>
          simp [opWithin, instructionOf, Instruction.exec, Agrees, hsize, hbn1, hbn2, hbn3]

/-! ## Crypto -/

theorem opHash_simulates (hash : Bytes → Bytes) :
    Simulates k (opHash hash)
      (instructionOf senv pc fExec (.onTop fun vch => [hash vch], false)) := by
  rintro ⟨⟨stack, altstack, vfExec, nOpCount, scriptCode⟩, n⟩
  cases stack <;> simp [opHash, instructionOf, Instruction.exec, Agrees]

theorem opCodeSeparator_simulates :
    Simulates k (opCodeSeparator pc) (instructionOf senv pc fExec (.codeSeparator, false)) := by
  intro m
  simp [opCodeSeparator, instructionOf, Instruction.exec, Agrees]

theorem opCheckSig_simulates (fVerify : Bool) : Simulates (fun _ => 1) (opCheckSig senv fVerify)
    (instructionOf senv pc fExec (.checkSig, fVerify)) := by
  rintro ⟨⟨stack, altstack, vfExec, nOpCount, scriptCode⟩, n⟩
  rcases stack with _ | ⟨vchPubKey, _ | ⟨vchSig, stack⟩⟩
  · simp [opCheckSig, instructionOf, Instruction.exec, execCheckSig, Agrees]
  · simp [opCheckSig, instructionOf, Instruction.exec, execCheckSig, Agrees]
  · exact agrees_pushResult (m := ⟨⟨stack, altstack, vfExec, nOpCount, scriptCode⟩, n + 1⟩) fVerify
      (senv.checkSig vchSig vchPubKey (ShinyCoin.dropSignatures [vchSig] scriptCode))
      (Nat.le_refl _)

theorem readCount_of_some {i n : Nat} {nMax : ℤ} {m : MachineState}
    (h : countAt m.stack (i + 1) nMax = some n) : readCount (i + 1) nMax m = .ok n m := by
  obtain ⟨vch, hvch, h⟩ := Option.bind_eq_some_iff.mp h
  obtain ⟨bn, hbn, h⟩ := Option.bind_eq_some_iff.mp h
  have hget : m.stack[i]? = some vch := hvch
  dsimp only at h
  split at h
  · cases h
  · next hn =>
      cases h
      simp [readCount, hget, hbn, hn]

theorem readCount_of_none {i : Nat} {nMax : ℤ} {m : MachineState} (hi : i < m.stack.length)
    (h : countAt m.stack (i + 1) nMax = none) :
    ∃ e, (e = .returnFalse ∨ e = .overflow) ∧ readCount (i + 1) nMax m = .error e m := by
  have hget := List.getElem?_eq_getElem hi
  unfold countAt at h
  rw [show ShinyCoin.stacktop m.stack (i + 1) = some m.stack[i] from hget, Option.bind_some] at h
  cases hbn : ShinyCoin.castToBigNum m.stack[i] with
  | none => exact ⟨.overflow, .inr rfl, by simp [readCount, hget, hbn]⟩
  | some bn =>
      rw [hbn, Option.bind_some] at h
      dsimp only at h
      split at h
      · next hn => exact ⟨.returnFalse, .inl rfl, by simp [readCount, hget, hbn, hn]⟩
      · cases h

theorem agrees_readCount {bound i : Nat} {nMax : ℤ} {m : MachineState} {x : Nat → Machine Unit}
    {f : Nat → Option EvalState} {g : EvalState → Option EvalState} (hbound : m.nCheckSig ≤ bound)
    (hi : i < m.stack.length)
    (h : ∀ n, countAt m.stack (i + 1) nMax = some n → Agrees bound (x n m) ((f n).bind g)) :
    Agrees bound ((readCount (i + 1) nMax >>= x) m)
      (((countAt m.stack (i + 1) nMax).bind f).bind g) := by
  rw [bind_apply]
  cases hcount : countAt m.stack (i + 1) nMax with
  | none =>
      obtain ⟨e, he, hread⟩ := readCount_of_none hi hcount
      rw [hread]
      exact ⟨he, hbound⟩
  | some n =>
      rw [readCount_of_some hcount]
      exact h n hcount

theorem dropSignatures_apply {l rest : List Bytes} {i : Nat} {m : MachineState}
    (h : m.stack.drop i = l ++ rest) (code : CScript) :
    dropSignatures (i + 1) l.length code m = .ok (ShinyCoin.dropSignatures l code) m := by
  induction l generalizing i code with
  | nil => rfl
  | cons vchSig l ih =>
      have hget : m.stack[i]? = some vchSig := stacktop_of_drop (i := i + 1) h
      have hnext : m.stack.drop (i + 1) = l ++ rest :=
        drop_succ_of_drop (i := i + 1) (Nat.succ_pos i) h
      rw [List.length_cons, dropSignatures, bind_apply, stacktop_apply, hget]
      exact ih hnext _

/-- The loop makes at most one call for each key, and stays on the keys and the signatures. -/
theorem checkSignatures_apply (senv : EvalEnv) (code : CScript) (isig ikey nSigsCount nKeysCount : Nat)
    (m : MachineState) (hle : nSigsCount ≤ nKeysCount)
    (hsigs : isig + nSigsCount ≤ m.stack.length) (hkeys : ikey + nKeysCount ≤ m.stack.length) :
    ∃ fSuccess n, multiSigLoop (fun vchSig vchPubKey => senv.checkSig vchSig vchPubKey code)
        m.stack (isig + 1) (ikey + 1) nSigsCount nKeysCount = some fSuccess ∧
      checkSignatures senv code (isig + 1) (ikey + 1) nSigsCount nKeysCount m
        = .ok fSuccess { m with nCheckSig := n } ∧
      n ≤ m.nCheckSig + nKeysCount := by
  induction nKeysCount generalizing isig ikey nSigsCount m with
  | zero =>
      obtain rfl : nSigsCount = 0 := by omega
      exact ⟨true, m.nCheckSig, rfl, rfl, Nat.le_refl _⟩
  | succ nKeysCount ih =>
      rw [multiSigLoop, checkSignatures]
      by_cases hzero : nSigsCount = 0
      · rw [if_pos hzero, if_pos hzero]
        exact ⟨true, m.nCheckSig, rfl, rfl, Nat.le_add_right _ _⟩
      · rw [if_neg hzero, if_neg hzero]
        have hsig := List.getElem?_eq_getElem (show isig < m.stack.length by omega)
        have hkey := List.getElem?_eq_getElem (show ikey < m.stack.length by omega)
        have hnext : checkNext senv code (isig + 1) (ikey + 1) m
            = .ok (senv.checkSig m.stack[isig] m.stack[ikey] code)
              { m with nCheckSig := m.nCheckSig + 1 } := by
          simp [checkNext, hsig, hkey]
        rw [show ShinyCoin.stacktop m.stack (isig + 1) = some m.stack[isig] from hsig,
          show ShinyCoin.stacktop m.stack (ikey + 1) = some m.stack[ikey] from hkey,
          Option.bind_some, Option.bind_some, bind_apply, hnext]
        dsimp only
        cases hmatch : senv.checkSig m.stack[isig] m.stack[ikey] code with
        | true =>
            rw [if_pos rfl, if_pos rfl, if_neg (by omega), if_neg (by omega)]
            obtain ⟨fSuccess, n, hloop, hrun, hn⟩ := ih (isig + 1) (ikey + 1) (nSigsCount - 1)
              { m with nCheckSig := m.nCheckSig + 1 } (by omega) (by dsimp only; omega)
              (by dsimp only; omega)
            exact ⟨fSuccess, n, hloop, hrun, by dsimp only at hn; omega⟩
        | false =>
            rw [if_neg Bool.false_ne_true, if_neg Bool.false_ne_true]
            by_cases hfew : nKeysCount < nSigsCount
            · rw [if_pos hfew, if_pos hfew]
              exact ⟨false, m.nCheckSig + 1, rfl, rfl, by omega⟩
            · rw [if_neg hfew, if_neg hfew]
              obtain ⟨fSuccess, n, hloop, hrun, hn⟩ := ih isig (ikey + 1) nSigsCount
                { m with nCheckSig := m.nCheckSig + 1 } (by omega) (by dsimp only; omega)
                (by dsimp only; omega)
              exact ⟨fSuccess, n, hloop, hrun, by dsimp only at hn; omega⟩

theorem popstacks_apply {i : Nat} {m : MachineState} (h : i ≤ m.stack.length) :
    popstacks i m = .ok () { m with stack := m.stack.drop i } := by
  induction i generalizing m with
  | zero => rfl
  | succ i ih =>
      obtain ⟨⟨stack, altstack, vfExec, nOpCount, scriptCode⟩, n⟩ := m
      cases stack with
      | nil => cases h
      | cons vch stack =>
          rw [popstacks, bind_apply, popstack_apply]
          exact ih (m := ⟨⟨stack, altstack, vfExec, nOpCount, scriptCode⟩, n⟩)
            (Nat.le_of_succ_le_succ h)

theorem countAt_le {stack : List Bytes} {i n : Nat} {nMax : ℤ}
    (h : countAt stack i nMax = some n) : (n : ℤ) ≤ nMax := by
  obtain ⟨vch, -, h⟩ := Option.bind_eq_some_iff.mp h
  obtain ⟨bn, -, h⟩ := Option.bind_eq_some_iff.mp h
  dsimp only at h
  split at h
  · cases h
  · cases h
    omega

/-- The calls that `OP_CHECKMULTISIG` may make: its number of keys. -/
def keysCount (st : EvalState) : Nat := (countAt st.stack 1 20).getD 0

theorem opCheckMultiSig_simulates (fVerify : Bool) :
    Simulates keysCount (opCheckMultiSig senv fVerify)
      (instructionOf senv pc fExec (.checkMultiSig, fVerify)) := by
  rintro ⟨⟨stack, altstack, vfExec, nOpCount, scriptCode⟩, n⟩
  show Agrees _ _ ((execCheckMultiSig senv _).bind _)
  unfold opCheckMultiSig execCheckMultiSig
  refine agrees_needs (Nat.le_add_right _ _) fun hsize => ?_
  refine agrees_readCount (Nat.le_add_right _ _) hsize fun nKeysCount hkeys => ?_
  have hcount : keysCount ⟨stack, altstack, vfExec, nOpCount, scriptCode⟩ = nKeysCount := by
    unfold keysCount
    rw [show countAt _ 1 20 = some nKeysCount from hkeys]
    rfl
  rw [hcount, bind_apply, modify_apply]
  dsimp only
  rw [bind_apply, get_apply]
  refine agrees_returnFalseIf (Nat.le_add_right _ _) fun _ => ?_
  refine agrees_needs (Nat.le_add_right _ _) fun hsize => ?_
  rw [show 1 + 1 + nKeysCount = (1 + nKeysCount) + 1 by omega] at hsize ⊢
  refine agrees_readCount (Nat.le_add_right _ _) hsize fun nSigsCount hsigs => ?_
  have hle : nSigsCount ≤ nKeysCount := by exact_mod_cast countAt_le hsigs
  refine agrees_needs (Nat.le_add_right _ _) fun hsize => ?_
  dsimp only at hsize ⊢
  -- the signatures, the keys and what is below them are all there
  have hdrop := (List.take_append_drop nSigsCount (stack.drop (1 + nKeysCount + 1))).symm
  have hlen : (List.take nSigsCount (stack.drop (1 + nKeysCount + 1))).length = nSigsCount := by
    rw [List.length_take, List.length_drop]
    omega
  generalize List.take nSigsCount (stack.drop (1 + nKeysCount + 1)) = vchSigs at hdrop hlen
  subst hlen
  obtain ⟨fSuccess, calls, hloop, hrun, hcalls⟩ := checkSignatures_apply senv
    (ShinyCoin.dropSignatures vchSigs scriptCode) (1 + nKeysCount + 1) 1 vchSigs.length nKeysCount
    ⟨⟨stack, altstack, vfExec, nOpCount + nKeysCount, scriptCode⟩, n⟩ hle
    (by dsimp only; omega) (by dsimp only; omega)
  rw [mapM_stacktop (Nat.succ_pos _) hdrop, Option.bind_some, hloop, Option.map_some,
    Option.bind_some, bind_apply, get_apply]
  dsimp only
  rw [bind_apply, dropSignatures_apply hdrop]
  dsimp only
  rw [bind_apply, hrun]
  dsimp only
  rw [bind_apply, popstacks_apply hsize]
  exact agrees_pushResult fVerify fSuccess hcalls

/-! ## The switch -/

/-- The calls that an opcode may make when it is executed -/
def sigOps (opcode : OpcodeType) (st : EvalState) : Nat :=
  if opcode = OP_CHECKSIG ∨ opcode = OP_CHECKSIGVERIFY then 1
  else if opcode = OP_CHECKMULTISIG ∨ opcode = OP_CHECKMULTISIGVERIFY then keysCount st
  else 0

theorem switchCases_simulate (senv : EvalEnv) (pc : CScript) (fExec : Bool) :
    List.Forall₂ (fun c c' => c.1 = c'.1 ∧
      Simulates (sigOps c'.1) c.2 (instructionOf senv pc fExec c'.2))
      (switchCases senv pc fExec) (instructions senv) := by
  unfold switchCases instructions
  simp only [List.forall₂_cons, List.forall₂_nil_left_iff, true_and]
  exact ⟨opNop_simulates, opIf_simulates false, opIf_simulates true, opElse_simulates,
    opEndif_simulates, opVerify_simulates, opReturn_simulates, opToAltStack_simulates,
    opFromAltStack_simulates, op2Drop_simulates, op2Dup_simulates, op3Dup_simulates,
    op2Over_simulates, op2Rot_simulates, op2Swap_simulates, opIfDup_simulates, opDepth_simulates,
    opDrop_simulates, opDup_simulates, opNip_simulates, opOver_simulates, opPick_simulates false,
    opPick_simulates true, opRot_simulates, opSwap_simulates, opTuck_simulates, opSize_simulates,
    opEqual_simulates false, opEqual_simulates true, opUnary_simulates _, opUnary_simulates _,
    opUnary_simulates _, opUnary_simulates _, opUnary_simulates _, opUnary_simulates _,
    opBinary_simulates _ _, opBinary_simulates _ _, opBinary_simulates _ _,
    opBinary_simulates _ _, opBinary_simulates _ _, opBinary_simulates _ _,
    opBinary_simulates _ _, opBinary_simulates _ _, opBinary_simulates _ _,
    opBinary_simulates _ _, opBinary_simulates _ _, opBinary_simulates _ _,
    opBinary_simulates _ _, opWithin_simulates, opHash_simulates _, opHash_simulates _,
    opHash_simulates _, opHash_simulates _, opHash_simulates _, opCodeSeparator_simulates,
    opCheckSig_simulates false, opCheckSig_simulates true, opCheckMultiSig_simulates false,
    opCheckMultiSig_simulates true, trivial⟩

/-- Two tables with the same keys are looked up in the same place. -/
theorem lookup_forall₂ {α β γ : Type} [BEq α] [LawfulBEq α] {R : α → β → γ → Prop}
    {l : List (α × β)} {l' : List (α × γ)} (key : α)
    (h : List.Forall₂ (fun c c' => c.1 = c'.1 ∧ R c'.1 c.2 c'.2) l l') :
    (l.lookup key = none ∧ l'.lookup key = none) ∨
    ∃ b c, l.lookup key = some b ∧ l'.lookup key = some c ∧ R key b c := by
  induction h with
  | nil => exact .inl ⟨rfl, rfl⟩
  | @cons entry entry' l l' hentry _ ih =>
      obtain ⟨a, b⟩ := entry
      obtain ⟨a', c⟩ := entry'
      obtain ⟨rfl, hR⟩ := hentry
      rw [List.lookup_cons, List.lookup_cons]
      cases hkey : key == a with
      | true =>
          obtain rfl := LawfulBEq.eq_of_beq hkey
          exact .inr ⟨b, c, rfl, rfl, hR⟩
      | false => exact ih

theorem execOp_eq (opcode : OpcodeType) (st : EvalState) : execOp senv opcode pc fExec st
    = (instruction senv opcode).bind fun entry => instructionOf senv pc fExec entry st := rfl

theorem switch_simulates (senv : EvalEnv) (opcode : OpcodeType) (pc : CScript) (fExec : Bool) :
    Simulates (sigOps opcode) (switch senv opcode pc fExec) (execOp senv opcode pc fExec) := by
  intro m
  rw [execOp_eq]
  unfold switch instruction
  split
  · show Agrees _ _ (instructionOf senv pc fExec (.push _, false) m.toEvalState)
    exact opPush_simulates _ m
  · split
    · show Agrees _ _ (instructionOf senv pc fExec (.nop, false) m.toEvalState)
      exact opNop_simulates m
    · obtain ⟨hl, hr⟩ | ⟨op, entry, hl, hr, hsame⟩ := lookup_forall₂
        (R := fun opcode op entry => Simulates (sigOps opcode) op (instructionOf senv pc fExec entry))
        opcode (switchCases_simulate senv pc fExec)
      · rw [hl, hr]
        exact ⟨.inl rfl, Nat.le_add_right _ _⟩
      · rw [hl, hr]
        exact hsame m

/-! ## A round -/

theorem sigOps_of_le {opcode : OpcodeType} (h : opcode ≤ OP_ENDIF) (st : EvalState) :
    sigOps opcode st = 0 := by
  have hne : (opcode ≠ OP_CHECKSIG ∧ opcode ≠ OP_CHECKSIGVERIFY) ∧
      opcode ≠ OP_CHECKMULTISIG ∧ opcode ≠ OP_CHECKMULTISIGVERIFY := by
    refine ⟨⟨?_, ?_⟩, ?_, ?_⟩ <;>
      · rintro rfl
        exact absurd h (by decide)
  unfold sigOps
  rw [if_neg (not_or.mpr hne.1), if_neg (not_or.mpr hne.2)]

/-- The calls that a round may make -/
def roundSigOps (opcode : OpcodeType) (st : EvalState) : Nat :=
  if st.vfExec.all id then sigOps opcode st else 0

theorem countOp_apply (opcode : OpcodeType) (m : MachineState) :
    countOp opcode m = (
      let nOpCount := if OP_16 < opcode then m.nOpCount + 1 else m.nOpCount
      if OP_16 < opcode ∧ 201 < nOpCount then .error .returnFalse { m with nOpCount := nOpCount }
      else .ok () { m with nOpCount := nOpCount }) := by
  unfold countOp
  by_cases hop : OP_16 < opcode
  · simp [hop]
  · simp [hop]

theorem dispatch_simulates (senv : EvalEnv) (opcode : OpcodeType) (vchPushValue : Bytes)
    (pc : CScript) (m : MachineState) :
    Agrees (m.nCheckSig + roundSigOps opcode m.toEvalState)
      (dispatch senv opcode vchPushValue pc (m.vfExec.all id) m)
      (if m.vfExec.all id ∧ opcode ≤ OP_PUSHDATA4 then
        some { m.toEvalState with stack := vchPushValue :: m.stack }
      else if m.vfExec.all id ∨ OP_IF ≤ opcode ∧ opcode ≤ OP_ENDIF then
        execOp senv opcode pc (m.vfExec.all id) m.toEvalState
      else some m.toEvalState) := by
  unfold dispatch
  split
  · exact ⟨rfl, Nat.le_add_right _ _⟩
  · split
    · next hexec =>
        have hcalls : roundSigOps opcode m.toEvalState = sigOps opcode m.toEvalState := by
          unfold roundSigOps
          split
          · rfl
          · next hskip => exact (sigOps_of_le ((hexec.resolve_left hskip).2) _).symm
        rw [hcalls]
        exact switch_simulates senv opcode pc _ m
    · exact ⟨rfl, Nat.le_add_right _ _⟩

/-- What one instruction does once it is read, with the size of the stack -/
def evalSized (senv : EvalEnv) (opcode : OpcodeType) (vchPushValue : Bytes) (pc : CScript)
    (st : EvalState) : Option EvalState :=
  (evalOp senv opcode vchPushValue pc st).bind fun st =>
    if 1000 < st.stack.length + st.altstack.length then none else some st

theorem agrees_checkSize {bound : Nat} {m : MachineState} {op : Machine Unit} {st? : Option EvalState}
    (h : Agrees bound (op m) st?) : Agrees bound ((op >>= fun _ => checkSize) m)
      (st?.bind fun st => if 1000 < st.stack.length + st.altstack.length then none else some st) := by
  rw [bind_apply]
  cases hop : op m with
  | error e m' =>
      rw [hop] at h
      cases st? with
      | none => exact h
      | some st => cases h
  | ok _ m' =>
      rw [hop] at h
      cases st? with
      | none => cases h
      | some st =>
          obtain ⟨rfl, hbound⟩ := h
          dsimp only
          rw [checkSize, bind_apply, get_apply, Option.bind_some]
          dsimp only
          rw [returnFalseIf_apply]
          split
          · exact ⟨.inl rfl, hbound⟩
          · exact ⟨rfl, hbound⟩

theorem execute_simulates (senv : EvalEnv) (opcode : OpcodeType) (vchPushValue : Bytes)
    (pc : CScript) : Simulates (roundSigOps opcode) (execute senv opcode vchPushValue pc)
      (evalSized senv opcode vchPushValue pc) := by
  intro m
  unfold execute evalSized evalOp
  rw [bind_apply, get_apply]
  refine agrees_returnFalseIf (Nat.le_add_right _ _) fun _ => ?_
  rw [bind_apply, countOp_apply]
  dsimp only
  by_cases hcount : OP_16 < opcode ∧ 201 < if OP_16 < opcode then m.nOpCount + 1 else m.nOpCount
  · rw [if_pos hcount, if_pos hcount]
    exact ⟨.inl rfl, Nat.le_add_right _ _⟩
  · rw [if_neg hcount, if_neg hcount]
    refine agrees_returnFalseIf (Nat.le_add_right _ _) fun _ => ?_
    exact agrees_checkSize (dispatch_simulates senv opcode vchPushValue pc
      { m with nOpCount := if OP_16 < opcode then m.nOpCount + 1 else m.nOpCount })

/-! ## The loop -/

variable {opcode : OpcodeType} {vch : Bytes} {rest : CScript} {m : MachineState}

theorem round_of_getOp (hop : getOp pc = some (opcode, vch, rest)) :
    round senv pc m = match execute senv opcode vch rest m with
      | .ok _ m' => .ok rest m'
      | .error e m' => .error e m' := by
  unfold round
  rw [hop]
  show (execute senv opcode vch rest >>= fun _ => pure rest) m = _
  rw [bind_apply]
  cases execute senv opcode vch rest m <;> rfl

theorem round_of_none (hop : getOp pc = none) : round senv pc m = .error .returnFalse m := by
  unfold round
  rw [hop]
  rfl

theorem loop_nil : loop senv [] m = .ok () m := by
  rw [loop]
  rfl

theorem loop_of_none (hne : pc ≠ []) (hop : getOp pc = none) :
    loop senv pc m = .error .returnFalse m := by
  rw [loop, if_neg (by simpa using hne)]
  split
  · next hround =>
      rw [round_of_none hop] at hround
      cases hround
      rfl
  · next hround =>
      rw [round_of_none hop] at hround
      cases hround

theorem loop_of_getOp (hop : getOp pc = some (opcode, vch, rest)) :
    loop senv pc m = match execute senv opcode vch rest m with
      | .ok _ m' => loop senv rest m'
      | .error e m' => .error e m' := by
  have hne : pc ≠ [] := by
    rintro rfl
    cases hop
  rw [loop, if_neg (by simpa using hne)]
  cases hexec : execute senv opcode vch rest m with
  | ok _ m' =>
      split
      · next hround =>
          rw [round_of_getOp hop, hexec] at hround
          cases hround
      · next hround =>
          rw [round_of_getOp hop, hexec] at hround
          cases hround
          rfl
  | error e m' =>
      split
      · next hround =>
          rw [round_of_getOp hop, hexec] at hround
          cases hround
          rfl
      · next hround =>
          rw [round_of_getOp hop, hexec] at hround
          cases hround

/-- The runs of the two machines. -/
theorem loop_agrees (senv : EvalEnv) (pc : CScript) (m : MachineState) :
    ∃ bound, Agrees bound (loop senv pc m) (evalFrom senv pc m.toEvalState) := by
  induction pc using getOp_induction generalizing m with
  | nil =>
      rw [loop_nil, evalFrom_nil]
      exact ⟨_, rfl, Nat.le_refl _⟩
  | stuck pc hne hop =>
      have hnone : evalFrom senv pc m.toEvalState = none := by
        rw [evalFrom, if_neg (by simpa using hne)]
        split
        · rfl
        · next hstep =>
            rw [evalStep, hop] at hstep
            cases hstep
      rw [loop_of_none hne hop, hnone]
      exact ⟨_, .inl rfl, Nat.le_refl _⟩
  | cons pc opcode vch rest hop ih =>
      have hrest : evalFrom senv pc m.toEvalState
          = (evalSized senv opcode vch rest m.toEvalState).bind (evalFrom senv rest) := by
        rw [evalFrom_cons hop, evalSized, Option.bind_assoc]
        congr 1
        funext st
        split <;> rfl
      rw [loop_of_getOp hop, hrest]
      have hround := execute_simulates senv opcode vch rest m
      cases hexec : execute senv opcode vch rest m with
      | ok _ m' =>
          rw [hexec] at hround
          cases heval : evalSized senv opcode vch rest m.toEvalState with
          | none =>
              rw [heval] at hround
              cases hround
          | some st =>
              rw [heval] at hround
              obtain ⟨rfl, -⟩ := hround
              exact ih m'
      | error e m' =>
          rw [hexec] at hround
          cases heval : evalSized senv opcode vch rest m.toEvalState with
          | none =>
              rw [heval] at hround
              exact ⟨_, hround⟩
          | some st =>
              rw [heval] at hround
              cases hround

end Machine

/-! ## EvalScript and VerifyScript -/

theorem evalScript_eq_run (senv : EvalEnv) (stack : List Bytes) (script : CScript) :
    evalScript senv stack script = if (evalScriptRun senv stack script).fReturn
      then some (evalScriptRun senv stack script).stack else none := by
  unfold evalScript evalScriptRun
  split
  · rfl
  · obtain ⟨bound, hagrees⟩ := Machine.loop_agrees senv script (Machine.start stack script)
    have hstart : (Machine.start stack script).toEvalState
        = { stack := stack, scriptCode := script } := rfl
    rw [hstart] at hagrees
    cases hloop : Machine.loop senv script (Machine.start stack script) with
    | ok _ m =>
        cases heval : evalFrom senv script { stack := stack, scriptCode := script } with
        | none =>
            rw [hloop, heval] at hagrees
            cases hagrees
        | some st =>
            rw [hloop, heval] at hagrees
            obtain ⟨rfl, -⟩ := hagrees
            rfl
    | error e m =>
        cases heval : evalFrom senv script { stack := stack, scriptCode := script } with
        | none => rfl
        | some st =>
            rw [hloop, heval] at hagrees
            cases hagrees

/-- On the empty stack `OP_HASH160` finds nothing to hash. -/
theorem evalScript_payToScriptHash_nil {scriptPubKey : CScript}
    (h : isPayToScriptHash scriptPubKey = true) : evalScript senv [] scriptPubKey = none := by
  have hhead : scriptPubKey[0]? = some OP_HASH160 := by
    unfold isPayToScriptHash at h
    simp only [Bool.and_eq_true, beq_iff_eq] at h
    exact h.1.1.2
  cases scriptPubKey with
  | nil => cases hhead
  | cons op rest =>
      obtain rfl := Option.some.inj hhead
      unfold evalScript
      split
      · rfl
      · rw [evalFrom_cons (getOp_cons_of_lt (by decide))]
        rfl

namespace Verifier

variable {runs : List EvalRun}

theorem bind_apply {α β : Type} (x : Verifier α) (f : α → Verifier β) (runs : List EvalRun) :
    (x >>= f) runs = match x runs with
      | .ok a runs' => f a runs'
      | .error e runs' => .error e runs' := by
  show EStateM.bind x f runs = _
  unfold EStateM.bind
  cases x runs <;> rfl

theorem evalScript_apply (senv : EvalEnv) (stack : List Bytes) (script : CScript)
    (runs : List EvalRun) : evalScript senv stack script runs
      = .ok (evalScriptRun senv stack script) (runs ++ [evalScriptRun senv stack script]) := rfl

theorem back_cons (vch : Bytes) (stack : List Bytes) (runs : List EvalRun) :
    back (vch :: stack) runs = .ok vch runs := rfl

theorem popstack_cons (vch : Bytes) (stack : List Bytes) (runs : List EvalRun) :
    popstack (vch :: stack) runs = .ok stack runs := rfl

/-- The redeem script is run on what is below it. -/
theorem verifyRedeemScript_apply (senv : EvalEnv) {scriptSig : CScript}
    (hpush : isPushOnly scriptSig = true) (top : Bytes) (stackCopy : List Bytes)
    (runs : List EvalRun) :
    verifyRedeemScript senv scriptSig (top :: stackCopy) runs
      = .ok (ShinyCoin.verifyRedeemScript senv (top :: stackCopy))
        (runs ++ [evalScriptRun senv stackCopy top]) := by
  unfold verifyRedeemScript ShinyCoin.verifyRedeemScript
  rw [hpush]
  dsimp only
  rw [evalScript_eq_run, if_neg (by decide), bind_apply, back_cons]
  dsimp only
  rw [bind_apply, popstack_cons]
  dsimp only
  rw [bind_apply, evalScript_apply]
  dsimp only
  generalize evalScriptRun senv stackCopy top = run
  obtain ⟨fReturn, stack, nCheckSig⟩ := run
  cases fReturn with
  | false => rfl
  | true => cases stack <;> rfl

/-- `VerifyScript` never takes `back()` of an empty stack, and returns what it should. If it has run
a third script, it is the one on top of what the script of a push-only input left. -/
theorem verifyScript_apply (senv : EvalEnv) (scriptSig scriptPubKey : CScript) :
    ∃ runs, verifyScript senv scriptSig scriptPubKey []
        = .ok (ShinyCoin.verifyScript senv scriptSig scriptPubKey) runs ∧
      ∀ run, runs[2]? = some run → isPayToScriptHash scriptPubKey = true ∧
        isPushOnly scriptSig = true ∧ ∃ top stackCopy,
          ShinyCoin.evalScript senv [] scriptSig = some (top :: stackCopy) ∧
          run = evalScriptRun senv stackCopy top := by
  unfold verifyScript ShinyCoin.verifyScript
  rw [bind_apply, evalScript_apply]
  have hsig := evalScript_eq_run senv [] scriptSig
  dsimp only
  generalize evalScriptRun senv [] scriptSig = run₁ at hsig ⊢
  obtain ⟨fReturn₁, stackCopy, nCheckSig₁⟩ := run₁
  rw [hsig]
  cases fReturn₁ with
  | false => exact ⟨_, rfl, by simp⟩
  | true =>
      have hpub := evalScript_eq_run senv stackCopy scriptPubKey
      dsimp only [Bool.not_true, if_true]
      rw [if_neg (by decide), bind_apply, evalScript_apply]
      dsimp only
      generalize evalScriptRun senv stackCopy scriptPubKey = run₂ at hpub ⊢
      obtain ⟨fReturn₂, stack, nCheckSig₂⟩ := run₂
      rw [if_pos rfl]
      dsimp only
      rw [hpub]
      cases fReturn₂ with
      | false => exact ⟨_, rfl, by simp⟩
      | true =>
          cases stack with
          | nil => exact ⟨_, rfl, by simp⟩
          | cons top stack =>
              rw [if_neg (by decide), List.isEmpty_cons, if_neg (by decide), bind_apply, back_cons]
              dsimp only
              rw [if_pos rfl]
              dsimp only
              cases castToBool top with
              | false => exact ⟨_, rfl, by simp⟩
              | true =>
                  have htrue : ¬ (!true) = true := by decide
                  rw [if_neg htrue, if_neg htrue]
                  cases hp2sh : isPayToScriptHash scriptPubKey with
                  | false => exact ⟨_, rfl, by simp⟩
                  | true =>
                      rw [if_pos rfl, if_pos rfl]
                      cases hpush : isPushOnly scriptSig with
                      | false =>
                          unfold verifyRedeemScript
                          rw [hpush]
                          exact ⟨_, rfl, by simp⟩
                      | true =>
                          cases stackCopy with
                          | nil =>
                              rw [evalScript_payToScriptHash_nil hp2sh] at hpub
                              cases hpub
                          | cons redeem stackCopy =>
                              refine ⟨_, verifyRedeemScript_apply senv hpush redeem stackCopy _, ?_⟩
                              intro run hrun
                              obtain rfl := Option.some.inj hrun
                              exact ⟨rfl, rfl, redeem, stackCopy, rfl, rfl⟩

end Verifier

end ShinyCoin

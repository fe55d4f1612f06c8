import ShinyCoin.Script.Eval

/-!
# The script machine, statement by statement

`EvalScript` once more, each case of the switch as the sequence of its statements. A case looks at
the size of the stack and returns false if it is too small; what it does then to the stack may throw.
`EvalScript` catches everything, so nobody sees a check that was too weak: here the ways to stop are
kept apart. The calls of `CheckSig` are counted.

`Script/Simulation` connects this machine with that of `Script/Eval`.
-/

namespace ShinyCoin

/-- Why a round of the loop of `EvalScript` does not get to its end -/
inductive Stop where
  /-- `return false` -/
  | returnFalse
  /-- `CastToBigNum() : overflow` -/
  | overflow
  /-- `stacktop` and `altstacktop`, which are `at`, and an iterator that is below the bottom -/
  | outOfRange
  /-- `popstack() : stack empty` -/
  | stackEmpty
  /-- `back()` of an empty vector, which is undefined -/
  | noBack
  deriving DecidableEq, Repr

/-- The locals of `EvalScript`, and how often it has called `CheckSig`. -/
structure MachineState extends EvalState where
  nCheckSig : Nat := 0
  deriving DecidableEq, Repr

abbrev Machine := EStateM Stop MachineState

namespace Machine

/-! ## Statements -/

/-- `if (c) return false;` -/
def returnFalseIf (c : Prop) [Decidable c] : Machine Unit :=
  if c then throw .returnFalse else pure ()

/-- `stack.size()` -/
def size : Machine Nat := return (← get).stack.length

/-- `if (stack.size() < n) return false;` -/
def needs (n : Nat) : Machine Unit := do returnFalseIf ((← size) < n)

def setStack (stack : List Bytes) : Machine Unit := modify fun m => { m with stack := stack }

/-- `stacktop(-i)` -/
def stacktop : Nat → Machine Bytes
  | 0 => throw .outOfRange
  | i + 1 => do
      match (← get).stack[i]? with
      | some vch => pure vch
      | none => throw .outOfRange

def popstack : Machine Unit := do
  match (← get).stack with
  | [] => throw .stackEmpty
  | _ :: stack => setStack stack

/-- `stack.push_back(vch)` -/
def pushBack (vch : Bytes) : Machine Unit := do setStack (vch :: (← get).stack)

/-- `swap(stacktop(-i), stacktop(-j))` -/
def swapTop (i j : Nat) : Machine Unit := do
  let vch1 ← stacktop i
  let vch2 ← stacktop j
  setStack (((← get).stack.set (i - 1) vch2).set (j - 1) vch1)

/-- `stack.erase(stack.end()-i, stack.end()-j)` -/
def erase (i j : Nat) : Machine Unit := do
  let stack := (← get).stack
  if stack.length < i then throw .outOfRange else setStack (stack.take j ++ stack.drop i)

/-- `stack.insert(stack.end()-i, vch)` -/
def insert (i : Nat) (vch : Bytes) : Machine Unit := do
  let stack := (← get).stack
  if stack.length < i then throw .outOfRange else setStack (stack.take i ++ vch :: stack.drop i)

/-- `CastToBigNum` -/
def castToBigNum (vch : Bytes) : Machine ℤ :=
  match ShinyCoin.castToBigNum vch with
  | some bn => pure bn
  | none => throw .overflow

/-- `CheckSig` -/
def checkSig (senv : EvalEnv) (vchSig vchPubKey : Bytes) (scriptCode : CScript) : Machine Bool := do
  modify fun m => { m with nCheckSig := m.nCheckSig + 1 }
  return senv.checkSig vchSig vchPubKey scriptCode

/-- The end of an opcode with `VERIFY` in its name: "if (fValue) popstack(stack); else return false;" -/
def verify (fVerify fValue : Bool) : Machine Unit :=
  if fVerify then if fValue then popstack else throw .returnFalse else pure ()

/-! ## Push value and control -/

def opPush (bn : ℤ) : Machine Unit := pushBack (CBigNum.getvch bn)

def opNop : Machine Unit := pure ()

/-- `OP_IF` and `OP_NOTIF` -/
def opIf (fNot fExec : Bool) : Machine Unit := do
  let fValue ←
    if fExec then do
      needs 1
      let vch ← stacktop 1
      let fValue := castToBool vch
      let fValue := if fNot then !fValue else fValue
      popstack
      pure fValue
    else pure false
  modify fun m => { m with vfExec := fValue :: m.vfExec }

def opElse : Machine Unit := do
  match (← get).vfExec with
  | [] => throw .returnFalse
  | f :: vfExec => modify fun m => { m with vfExec := (!f) :: vfExec }

def opEndif : Machine Unit := do
  match (← get).vfExec with
  | [] => throw .returnFalse
  | _ :: vfExec => modify fun m => { m with vfExec := vfExec }

def opVerify : Machine Unit := do
  needs 1
  verify true (castToBool (← stacktop 1))

def opReturn : Machine Unit := throw .returnFalse

/-! ## Stack ops -/

def opToAltStack : Machine Unit := do
  needs 1
  let vch ← stacktop 1
  modify fun m => { m with altstack := vch :: m.altstack }
  popstack

/-- `altstacktop(-1)` and `popstack(altstack)` are one `match`. -/
def opFromAltStack : Machine Unit := do
  returnFalseIf ((← get).altstack.length < 1)
  match (← get).altstack with
  | [] => throw .outOfRange
  | vch :: altstack =>
      pushBack vch
      modify fun m => { m with altstack := altstack }

def op2Drop : Machine Unit := do
  needs 2
  popstack
  popstack

def op2Dup : Machine Unit := do
  needs 2
  let vch1 ← stacktop 2
  let vch2 ← stacktop 1
  pushBack vch1
  pushBack vch2

def op3Dup : Machine Unit := do
  needs 3
  let vch1 ← stacktop 3
  let vch2 ← stacktop 2
  let vch3 ← stacktop 1
  pushBack vch1
  pushBack vch2
  pushBack vch3

def op2Over : Machine Unit := do
  needs 4
  let vch1 ← stacktop 4
  let vch2 ← stacktop 3
  pushBack vch1
  pushBack vch2

def op2Rot : Machine Unit := do
  needs 6
  let vch1 ← stacktop 6
  let vch2 ← stacktop 5
  erase 6 4
  pushBack vch1
  pushBack vch2

def op2Swap : Machine Unit := do
  needs 4
  swapTop 4 2
  swapTop 3 1

def opIfDup : Machine Unit := do
  needs 1
  let vch ← stacktop 1
  if castToBool vch then pushBack vch else pure ()

def opDepth : Machine Unit := do pushBack (CBigNum.getvch (← size))

def opDrop : Machine Unit := do
  needs 1
  popstack

def opDup : Machine Unit := do
  needs 1
  pushBack (← stacktop 1)

def opNip : Machine Unit := do
  needs 2
  erase 2 1

def opOver : Machine Unit := do
  needs 2
  pushBack (← stacktop 2)

/-- `OP_PICK` and `OP_ROLL` -/
def opPick (fRoll : Bool) : Machine Unit := do
  needs 2
  let n := CBigNum.getint (← castToBigNum (← stacktop 1))
  popstack
  let stackSize ← size
  returnFalseIf (n < 0 ∨ stackSize ≤ n)
  let vch ← stacktop (n.toNat + 1)
  if fRoll then erase (n.toNat + 1) n.toNat else pure ()
  pushBack vch

def opRot : Machine Unit := do
  needs 3
  swapTop 3 2
  swapTop 2 1

def opSwap : Machine Unit := do
  needs 2
  swapTop 2 1

def opTuck : Machine Unit := do
  needs 2
  insert 2 (← stacktop 1)

/-! ## Splice ops, bit logic and numeric -/

def opSize : Machine Unit := do
  needs 1
  pushBack (CBigNum.getvch (← stacktop 1).length)

/-- `OP_EQUAL` and `OP_EQUALVERIFY` -/
def opEqual (fVerify : Bool) : Machine Unit := do
  needs 2
  let vch1 ← stacktop 2
  let vch2 ← stacktop 1
  let fEqual := vch1 == vch2
  popstack
  popstack
  pushBack (boolVch fEqual)
  verify fVerify fEqual

/-- From `OP_1ADD` to `OP_0NOTEQUAL`; the inner switch is `f`. -/
def opUnary (f : ℤ → ℤ) : Machine Unit := do
  needs 1
  let bn ← castToBigNum (← stacktop 1)
  popstack
  pushBack (CBigNum.getvch (f bn))

/-- From `OP_ADD` to `OP_MAX`; only `OP_NUMEQUALVERIFY` verifies. -/
def opBinary (f : ℤ → ℤ → ℤ) (fVerify : Bool) : Machine Unit := do
  needs 2
  let bn1 ← castToBigNum (← stacktop 2)
  let bn2 ← castToBigNum (← stacktop 1)
  popstack
  popstack
  pushBack (CBigNum.getvch (f bn1 bn2))
  if fVerify then verify true (castToBool (← stacktop 1)) else pure ()

def opWithin : Machine Unit := do
  needs 3
  let bn1 ← castToBigNum (← stacktop 3)
  let bn2 ← castToBigNum (← stacktop 2)
  let bn3 ← castToBigNum (← stacktop 1)
  let fValue := decide (bn2 ≤ bn1) && decide (bn1 < bn3)
  popstack
  popstack
  popstack
  pushBack (boolVch fValue)

/-! ## Crypto -/

/-- From `OP_RIPEMD160` to `OP_HASH256` -/
def opHash (hash : Bytes → Bytes) : Machine Unit := do
  needs 1
  let vchHash := hash (← stacktop 1)
  popstack
  pushBack vchHash

def opCodeSeparator (pc : CScript) : Machine Unit := modify fun m => { m with scriptCode := pc }

/-- `OP_CHECKSIG` and `OP_CHECKSIGVERIFY` -/
def opCheckSig (senv : EvalEnv) (fVerify : Bool) : Machine Unit := do
  needs 2
  let vchSig ← stacktop 2
  let vchPubKey ← stacktop 1
  let scriptCode := ((← get).scriptCode.findAndDelete (pushData vchSig)).1
  let fSuccess ← checkSig senv vchSig vchPubKey scriptCode
  popstack
  popstack
  pushBack (boolVch fSuccess)
  verify fVerify fSuccess

/-- "Drop the signatures": the loop, from `isig` on. -/
def dropSignatures (isig : Nat) : Nat → CScript → Machine CScript
  | 0, scriptCode => pure scriptCode
  | n + 1, scriptCode => do
      let vchSig ← stacktop isig
      dropSignatures (isig + 1) n (scriptCode.findAndDelete (pushData vchSig)).1

/-- `CheckSig` of the next signature and the next key -/
def checkNext (senv : EvalEnv) (scriptCode : CScript) (isig ikey : Nat) : Machine Bool := do
  let vchSig ← stacktop isig
  let vchPubKey ← stacktop ikey
  checkSig senv vchSig vchPubKey scriptCode

/-- `while (fSuccess && nSigsCount > 0)`; without a key left, `nKeysCount--` is negative. -/
def checkSignatures (senv : EvalEnv) (scriptCode : CScript) (isig ikey nSigsCount : Nat) :
    Nat → Machine Bool
  | 0 =>
      if nSigsCount = 0 then pure true
      else do
        let _ ← checkNext senv scriptCode isig ikey
        pure false
  | nKeysCount + 1 =>
      if nSigsCount = 0 then pure true
      else do
        let fMatch ← checkNext senv scriptCode isig ikey
        let isig := if fMatch then isig + 1 else isig
        let nSigsCount := if fMatch then nSigsCount - 1 else nSigsCount
        if nKeysCount < nSigsCount then pure false
        else checkSignatures senv scriptCode isig (ikey + 1) nSigsCount nKeysCount

/-- `while (i-- > 0) popstack(stack);` -/
def popstacks : Nat → Machine Unit
  | 0 => pure ()
  | i + 1 => do
      popstack
      popstacks i

/-- A count of `OP_CHECKMULTISIG`: `CastToBigNum(stacktop(-i)).getint()`, from zero to `nMax` -/
def readCount (i : Nat) (nMax : ℤ) : Machine Nat := do
  let n := CBigNum.getint (← castToBigNum (← stacktop i))
  returnFalseIf (n < 0 ∨ nMax < n)
  pure n.toNat

/-- `OP_CHECKMULTISIG` and `OP_CHECKMULTISIGVERIFY` -/
def opCheckMultiSig (senv : EvalEnv) (fVerify : Bool) : Machine Unit := do
  let i := 1
  needs i
  let nKeysCount ← readCount i 20
  modify fun m => { m with nOpCount := m.nOpCount + nKeysCount }
  returnFalseIf (201 < (← get).nOpCount)
  let ikey := i + 1
  let i := ikey + nKeysCount
  needs i
  let nSigsCount ← readCount i nKeysCount
  let isig := i + 1
  let i := isig + nSigsCount
  needs i
  let scriptCode ← dropSignatures isig nSigsCount (← get).scriptCode
  let fSuccess ← checkSignatures senv scriptCode isig ikey nSigsCount nKeysCount
  popstacks i
  pushBack (boolVch fSuccess)
  verify fVerify fSuccess

/-! ## The switch -/

def switchCases (senv : EvalEnv) (pc : CScript) (fExec : Bool) : List (OpcodeType × Machine Unit) :=
  [ -- control
    (OP_NOP, opNop),
    (OP_IF, opIf false fExec),
    (OP_NOTIF, opIf true fExec),
    (OP_ELSE, opElse),
    (OP_ENDIF, opEndif),
    (OP_VERIFY, opVerify),
    (OP_RETURN, opReturn),
    -- stack ops
    (OP_TOALTSTACK, opToAltStack),
    (OP_FROMALTSTACK, opFromAltStack),
    (OP_2DROP, op2Drop),
    (OP_2DUP, op2Dup),
    (OP_3DUP, op3Dup),
    (OP_2OVER, op2Over),
    (OP_2ROT, op2Rot),
    (OP_2SWAP, op2Swap),
    (OP_IFDUP, opIfDup),
    (OP_DEPTH, opDepth),
    (OP_DROP, opDrop),
    (OP_DUP, opDup),
    (OP_NIP, opNip),
    (OP_OVER, opOver),
    (OP_PICK, opPick false),
    (OP_ROLL, opPick true),
    (OP_ROT, opRot),
    (OP_SWAP, opSwap),
    (OP_TUCK, opTuck),
    -- splice ops and bit logic
    (OP_SIZE, opSize),
    (OP_EQUAL, opEqual false),
    (OP_EQUALVERIFY, opEqual true),
    -- numeric
    (OP_1ADD, opUnary fun bn => bn + 1),
    (OP_1SUB, opUnary fun bn => bn - 1),
    (OP_NEGATE, opUnary fun bn => -bn),
    (OP_ABS, opUnary fun bn => if bn < 0 then -bn else bn),
    (OP_NOT, opUnary fun bn => bnBool (bn == 0)),
    (OP_0NOTEQUAL, opUnary fun bn => bnBool (bn != 0)),
    (OP_ADD, opBinary (fun bn1 bn2 => bn1 + bn2) false),
    (OP_SUB, opBinary (fun bn1 bn2 => bn1 - bn2) false),
    (OP_BOOLAND, opBinary (fun bn1 bn2 => bnBool (bn1 != 0 && bn2 != 0)) false),
    (OP_BOOLOR, opBinary (fun bn1 bn2 => bnBool (bn1 != 0 || bn2 != 0)) false),
    (OP_NUMEQUAL, opBinary (fun bn1 bn2 => bnBool (bn1 == bn2)) false),
    (OP_NUMEQUALVERIFY, opBinary (fun bn1 bn2 => bnBool (bn1 == bn2)) true),
    (OP_NUMNOTEQUAL, opBinary (fun bn1 bn2 => bnBool (bn1 != bn2)) false),
    (OP_LESSTHAN, opBinary (fun bn1 bn2 => bnBool (decide (bn1 < bn2))) false),
    (OP_GREATERTHAN, opBinary (fun bn1 bn2 => bnBool (decide (bn2 < bn1))) false),
    (OP_LESSTHANOREQUAL, opBinary (fun bn1 bn2 => bnBool (decide (bn1 ≤ bn2))) false),
    (OP_GREATERTHANOREQUAL, opBinary (fun bn1 bn2 => bnBool (decide (bn2 ≤ bn1))) false),
    (OP_MIN, opBinary (fun bn1 bn2 => if bn1 < bn2 then bn1 else bn2) false),
    (OP_MAX, opBinary (fun bn1 bn2 => if bn2 < bn1 then bn1 else bn2) false),
    (OP_WITHIN, opWithin),
    -- crypto
    (OP_RIPEMD160, opHash senv.ripemd160),
    (OP_SHA1, opHash senv.sha1),
    (OP_SHA256, opHash senv.sha256),
    (OP_HASH160, opHash senv.hash160),
    (OP_HASH256, opHash senv.hash256),
    (OP_CODESEPARATOR, opCodeSeparator pc),
    (OP_CHECKSIG, opCheckSig senv false),
    (OP_CHECKSIGVERIFY, opCheckSig senv true),
    (OP_CHECKMULTISIG, opCheckMultiSig senv false),
    (OP_CHECKMULTISIGVERIFY, opCheckMultiSig senv true)]

/-- `switch (opcode)`; `pc` is what comes after the opcode. -/
def switch (senv : EvalEnv) (opcode : OpcodeType) (pc : CScript) (fExec : Bool) : Machine Unit :=
  if opcode = OP_1NEGATE ∨ OP_1 ≤ opcode ∧ opcode ≤ OP_16 then
    opPush ((opcode.toNat : ℤ) - (OP_1.toNat - 1))
  else if OP_NOP1 ≤ opcode ∧ opcode ≤ OP_NOP10 then opNop
  else
    match (switchCases senv pc fExec).lookup opcode with
    | some op => op
    | none => throw .returnFalse

/-! ## The loop -/

/-- `if (opcode > OP_16 && ++nOpCount > 201) return false;` -/
def countOp (opcode : OpcodeType) : Machine Unit :=
  if OP_16 < opcode then do
    modify fun m => { m with nOpCount := m.nOpCount + 1 }
    returnFalseIf (201 < (← get).nOpCount)
  else pure ()

/-- A push is made, an opcode looked up; in a branch that is not taken, only one that ends it is. -/
def dispatch (senv : EvalEnv) (opcode : OpcodeType) (vchPushValue : Bytes) (pc : CScript)
    (fExec : Bool) : Machine Unit :=
  if fExec ∧ opcode ≤ OP_PUSHDATA4 then pushBack vchPushValue
  else if fExec ∨ OP_IF ≤ opcode ∧ opcode ≤ OP_ENDIF then switch senv opcode pc fExec
  else pure ()

/-- "Size limits" -/
def checkSize : Machine Unit := do
  let m ← get
  returnFalseIf (1000 < m.stack.length + m.altstack.length)

/-- A round, once the instruction is read -/
def execute (senv : EvalEnv) (opcode : OpcodeType) (vchPushValue : Bytes) (pc : CScript) :
    Machine Unit := do
  let fExec := (← get).vfExec.all id
  returnFalseIf (520 < vchPushValue.length)
  countOp opcode
  returnFalseIf (disabledOpcodes.contains opcode)
  dispatch senv opcode vchPushValue pc fExec
  checkSize

/-- A round of the loop: the iterator after it -/
def round (senv : EvalEnv) (pc : CScript) : Machine CScript := do
  match getOp pc with
  | none => throw .returnFalse
  | some (opcode, vchPushValue, pc) =>
      execute senv opcode vchPushValue pc
      pure pc

theorem round_length {senv : EvalEnv} {pc pc' : CScript} {m m' : MachineState}
    (h : round senv pc m = .ok pc' m') : pc'.length < pc.length := by
  unfold round at h
  cases hop : getOp pc with
  | none =>
      rw [hop] at h
      cases h
  | some op =>
      obtain ⟨opcode, vch, rest⟩ := op
      rw [hop] at h
      simp only [bind, EStateM.bind] at h
      split at h
      · cases h
        exact getOp_length hop
      · cases h

/-- `while (pc < pend)` -/
def loop (senv : EvalEnv) (pc : CScript) (m : MachineState) : EStateM.Result Stop MachineState Unit :=
  if pc.isEmpty then .ok () m
  else
    match _h : round senv pc m with
    | .error e m' => .error e m'
    | .ok pc' m' => loop senv pc' m'
termination_by pc.length
decreasing_by exact round_length _h

/-- The locals before the first round -/
def start (stack : List Bytes) (script : CScript) : MachineState where
  stack := stack
  scriptCode := script

end Machine

/-! ## EvalScript and VerifyScript -/

/-- What a call of `EvalScript` returns and leaves behind: the stack, which it was passed by
reference, and how often it called `CheckSig`. -/
structure EvalRun where
  fReturn : Bool
  stack : List Bytes
  nCheckSig : Nat

/-- `EvalScript`; a round that stops ends it, with `return false` as with `catch (...)`. -/
def evalScriptRun (senv : EvalEnv) (stack : List Bytes) (script : CScript) : EvalRun :=
  if 10000 < script.length then ⟨false, stack, 0⟩
  else
    match Machine.loop senv script (Machine.start stack script) with
    | .error _ m => ⟨false, m.stack, m.nCheckSig⟩
    | .ok () m => ⟨m.vfExec.isEmpty, m.stack, m.nCheckSig⟩

/-- `VerifyScript`, with the calls of `EvalScript` it has made; nothing is caught here. -/
abbrev Verifier := EStateM Stop (List EvalRun)

namespace Verifier

def evalScript (senv : EvalEnv) (stack : List Bytes) (script : CScript) : Verifier EvalRun := do
  let run := evalScriptRun senv stack script
  modify fun runs => runs ++ [run]
  return run

/-- `back()` -/
def back : List Bytes → Verifier Bytes
  | [] => throw .noBack
  | vch :: _ => pure vch

def popstack : List Bytes → Verifier (List Bytes)
  | [] => throw .stackEmpty
  | _ :: stack => pure stack

/-- "Additional validation for spend-to-script-hash transactions" -/
def verifyRedeemScript (senv : EvalEnv) (scriptSig : CScript) (stackCopy : List Bytes) :
    Verifier Bool := do
  if !isPushOnly scriptSig then return false
  else
    let pubKeySerialized ← back stackCopy
    let stackCopy ← popstack stackCopy
    let run ← evalScript senv stackCopy pubKeySerialized
    if !run.fReturn then return false
    else if run.stack.isEmpty then return false
    else return castToBool (← back run.stack)

def verifyScript (senv : EvalEnv) (scriptSig scriptPubKey : CScript) : Verifier Bool := do
  let run ← evalScript senv [] scriptSig
  if !run.fReturn then return false
  else
    let stackCopy := run.stack
    let run ← evalScript senv run.stack scriptPubKey
    if !run.fReturn then return false
    else if run.stack.isEmpty then return false
    else if !castToBool (← back run.stack) then return false
    else if isPayToScriptHash scriptPubKey then verifyRedeemScript senv scriptSig stackCopy
    else return true

end Verifier

end ShinyCoin

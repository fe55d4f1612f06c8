import ShinyCoin.Script.Number

/-!
# The script machine

`EvalScript` runs a script on a stack, instruction by instruction, and stops at the first one that
fails. A stack is a list from its top down. What `switch (opcode)` does with an opcode is looked up
in `instructions`: most of them take a fixed number of elements off the stack and put others there.

An opcode with `VERIFY` in its name leaves its result on the stack, and takes it off again if it is
true. The disabled opcodes fail before they are looked up.
-/

namespace ShinyCoin

/-- What scripts are run with: the hash functions, and `CheckSig(vchSig, vchPubKey, scriptCode)` for
the transaction, the input and the type at hand. -/
structure EvalEnv where
  ripemd160 : Bytes → Bytes
  sha1 : Bytes → Bytes
  sha256 : Bytes → Bytes
  hash160 : Bytes → Bytes
  hash256 : Bytes → Bytes
  checkSig : Bytes → Bytes → CScript → Bool

/-- The locals of `EvalScript`, the innermost branch of `vfExec` first. -/
structure EvalState where
  stack : List Bytes
  altstack : List Bytes := []
  vfExec : List Bool := []
  nOpCount : Nat := 0
  /-- The script from `pbegincodehash` on -/
  scriptCode : CScript
  deriving DecidableEq, Repr

def vchFalse : Bytes := []
def vchTrue : Bytes := [1]

def boolVch (fValue : Bool) : Bytes := if fValue then vchTrue else vchFalse

@[simp] theorem castToBool_boolVch (fValue : Bool) : castToBool (boolVch fValue) = fValue := by
  cases fValue <;> rfl

/-! ## Instructions -/

inductive Instruction where
  | push (bn : ℤ)
  | nop
  | branch (fNot : Bool)
  | else
  | endif
  | verify
  | return
  | toAltStack
  | fromAltStack
  /-- The top `n` elements give way to those with the given numbers, counted from the top. -/
  | shuffle (n : Nat) (order : List Nat)
  /-- The top element gives way to others. -/
  | onTop (f : Bytes → List Bytes)
  | equal
  | depth
  | pick (fRoll : Bool)
  | unary (f : ℤ → ℤ)
  | binary (f : ℤ → ℤ → ℤ)
  | within
  | codeSeparator
  | checkSig
  | checkMultiSig

/-- A condition as a number -/
def bnBool (b : Bool) : ℤ := if b then 1 else 0

/-- The cases of the switch, and whether the result is verified. -/
def instructions (senv : EvalEnv) : List (OpcodeType × Instruction × Bool) :=
  [ -- control
    (OP_NOP, .nop, false),
    (OP_IF, .branch false, false),
    (OP_NOTIF, .branch true, false),
    (OP_ELSE, .else, false),
    (OP_ENDIF, .endif, false),
    (OP_VERIFY, .verify, false),
    (OP_RETURN, .return, false),
    -- stack ops
    (OP_TOALTSTACK, .toAltStack, false),
    (OP_FROMALTSTACK, .fromAltStack, false),
    (OP_2DROP, .shuffle 2 [], false),
    (OP_2DUP, .shuffle 2 [1, 2, 1, 2], false),
    (OP_3DUP, .shuffle 3 [1, 2, 3, 1, 2, 3], false),
    (OP_2OVER, .shuffle 4 [3, 4, 1, 2, 3, 4], false),
    (OP_2ROT, .shuffle 6 [5, 6, 1, 2, 3, 4], false),
    (OP_2SWAP, .shuffle 4 [3, 4, 1, 2], false),
    (OP_IFDUP, .onTop fun vch => if castToBool vch then [vch, vch] else [vch], false),
    (OP_DEPTH, .depth, false),
    (OP_DROP, .shuffle 1 [], false),
    (OP_DUP, .shuffle 1 [1, 1], false),
    (OP_NIP, .shuffle 2 [1], false),
    (OP_OVER, .shuffle 2 [2, 1, 2], false),
    (OP_PICK, .pick false, false),
    (OP_ROLL, .pick true, false),
    (OP_ROT, .shuffle 3 [3, 1, 2], false),
    (OP_SWAP, .shuffle 2 [2, 1], false),
    (OP_TUCK, .shuffle 2 [1, 2, 1], false),
    -- splice ops and bit logic
    (OP_SIZE, .onTop fun vch => [CBigNum.getvch vch.length, vch], false),
    (OP_EQUAL, .equal, false),
    (OP_EQUALVERIFY, .equal, true),
    -- numeric
    (OP_1ADD, .unary fun bn => bn + 1, false),
    (OP_1SUB, .unary fun bn => bn - 1, false),
    (OP_NEGATE, .unary fun bn => -bn, false),
    (OP_ABS, .unary fun bn => if bn < 0 then -bn else bn, false),
    (OP_NOT, .unary fun bn => bnBool (bn == 0), false),
    (OP_0NOTEQUAL, .unary fun bn => bnBool (bn != 0), false),
    (OP_ADD, .binary fun bn1 bn2 => bn1 + bn2, false),
    (OP_SUB, .binary fun bn1 bn2 => bn1 - bn2, false),
    (OP_BOOLAND, .binary fun bn1 bn2 => bnBool (bn1 != 0 && bn2 != 0), false),
    (OP_BOOLOR, .binary fun bn1 bn2 => bnBool (bn1 != 0 || bn2 != 0), false),
    (OP_NUMEQUAL, .binary fun bn1 bn2 => bnBool (bn1 == bn2), false),
    (OP_NUMEQUALVERIFY, .binary fun bn1 bn2 => bnBool (bn1 == bn2), true),
    (OP_NUMNOTEQUAL, .binary fun bn1 bn2 => bnBool (bn1 != bn2), false),
    (OP_LESSTHAN, .binary fun bn1 bn2 => bnBool (decide (bn1 < bn2)), false),
    (OP_GREATERTHAN, .binary fun bn1 bn2 => bnBool (decide (bn2 < bn1)), false),
    (OP_LESSTHANOREQUAL, .binary fun bn1 bn2 => bnBool (decide (bn1 ≤ bn2)), false),
    (OP_GREATERTHANOREQUAL, .binary fun bn1 bn2 => bnBool (decide (bn2 ≤ bn1)), false),
    (OP_MIN, .binary fun bn1 bn2 => if bn1 < bn2 then bn1 else bn2, false),
    (OP_MAX, .binary fun bn1 bn2 => if bn2 < bn1 then bn1 else bn2, false),
    (OP_WITHIN, .within, false),
    -- crypto
    (OP_RIPEMD160, .onTop fun vch => [senv.ripemd160 vch], false),
    (OP_SHA1, .onTop fun vch => [senv.sha1 vch], false),
    (OP_SHA256, .onTop fun vch => [senv.sha256 vch], false),
    (OP_HASH160, .onTop fun vch => [senv.hash160 vch], false),
    (OP_HASH256, .onTop fun vch => [senv.hash256 vch], false),
    (OP_CODESEPARATOR, .codeSeparator, false),
    (OP_CHECKSIG, .checkSig, false),
    (OP_CHECKSIGVERIFY, .checkSig, true),
    (OP_CHECKMULTISIG, .checkMultiSig, false),
    (OP_CHECKMULTISIGVERIFY, .checkMultiSig, true)]

/-- The case of an opcode; `none` is the default one, which fails. -/
def instruction (senv : EvalEnv) (opcode : OpcodeType) : Option (Instruction × Bool) :=
  if opcode = OP_1NEGATE ∨ OP_1 ≤ opcode ∧ opcode ≤ OP_16 then
    some (.push ((opcode.toNat : ℤ) - (OP_1.toNat - 1)), false)
  else if OP_NOP1 ≤ opcode ∧ opcode ≤ OP_NOP10 then some (.nop, false)
  else (instructions senv).lookup opcode

def disabledOpcodes : List OpcodeType :=
  [OP_CAT, OP_SUBSTR, OP_LEFT, OP_RIGHT, OP_INVERT, OP_AND, OP_OR, OP_XOR, OP_2MUL, OP_2DIV, OP_MUL,
    OP_DIV, OP_MOD, OP_LSHIFT, OP_RSHIFT]

/-! ## Signatures -/

/-- `stacktop(-i)`; `none` where `at` throws. -/
def stacktop (stack : List Bytes) (i : Nat) : Option Bytes := stack[i - 1]?

/-- The loop of `OP_CHECKMULTISIG`: `fSuccess` at its end. -/
def multiSigLoop (check : Bytes → Bytes → Bool) (stack : List Bytes) (isig ikey nSigsCount : Nat) :
    Nat → Option Bool
  | 0 => some (nSigsCount == 0)
  | nKeysCount + 1 =>
      if nSigsCount = 0 then some true
      else
        (stacktop stack isig).bind fun vchSig =>
          (stacktop stack ikey).bind fun vchPubKey =>
            let fMatch := check vchSig vchPubKey
            let isig := if fMatch then isig + 1 else isig
            let nSigsCount := if fMatch then nSigsCount - 1 else nSigsCount
            -- "If there are more signatures left than keys left, then too many signatures have failed"
            if nKeysCount < nSigsCount then some false
            else multiSigLoop check stack isig (ikey + 1) nSigsCount nKeysCount

/-- "Drop the signatures, since there's no way for a signature to sign itself" -/
def dropSignatures (vchSigs : List Bytes) (scriptCode : CScript) : CScript :=
  vchSigs.foldl (fun scriptCode vchSig => (scriptCode.findAndDelete (pushData vchSig)).1) scriptCode

/-- A number of elements that the stack holds, no larger than `nMax`. -/
def countAt (stack : List Bytes) (i : Nat) (nMax : ℤ) : Option Nat :=
  (stacktop stack i).bind fun vch =>
    (castToBigNum vch).bind fun bn =>
      let n := CBigNum.getint bn
      if n < 0 ∨ nMax < n then none else some n.toNat

def execCheckMultiSig (senv : EvalEnv) (st : EvalState) : Option EvalState :=
  if st.stack.length < 1 then none
  else
    (countAt st.stack 1 20).bind fun nKeysCount =>
      let nOpCount := st.nOpCount + nKeysCount
      if 201 < nOpCount then none
      else
        let ikey := 2
        let i := ikey + nKeysCount
        if st.stack.length < i then none
        else
          (countAt st.stack i nKeysCount).bind fun nSigsCount =>
            let isig := i + 1
            let i := isig + nSigsCount
            if st.stack.length < i then none
            else
              ((List.range nSigsCount).mapM fun k => stacktop st.stack (isig + k)).bind fun vchSigs =>
                let scriptCode := dropSignatures vchSigs st.scriptCode
                (multiSigLoop (fun vchSig vchPubKey => senv.checkSig vchSig vchPubKey scriptCode)
                  st.stack isig ikey nSigsCount nKeysCount).map fun fSuccess =>
                    { st with stack := boolVch fSuccess :: st.stack.drop i, nOpCount := nOpCount }

/-! ## One instruction -/

/-- `OP_VERIFY`, and the end of the opcodes that verify -/
def execVerify (st : EvalState) : Option EvalState :=
  match st.stack with
  | [] => none
  | vch :: stack => if castToBool vch then some { st with stack := stack } else none

/-- `OP_PICK` and `OP_ROLL` -/
def execPick (fRoll : Bool) (st : EvalState) : Option EvalState :=
  match st.stack with
  | top :: x :: xs =>
      (castToBigNum top).bind fun bn =>
        let n := CBigNum.getint bn
        let stack := x :: xs
        if n < 0 ∨ stack.length ≤ n then none
        else
          (stacktop stack (n.toNat + 1)).map fun vch =>
            { st with stack := vch :: if fRoll then stack.eraseIdx n.toNat else stack }
  | _ => none

def execCheckSig (senv : EvalEnv) (st : EvalState) : Option EvalState :=
  match st.stack with
  | vchPubKey :: vchSig :: stack =>
      let scriptCode := dropSignatures [vchSig] st.scriptCode
      some { st with stack := boolVch (senv.checkSig vchSig vchPubKey scriptCode) :: stack }
  | _ => none

/-- An instruction; `pc` is what comes after it. -/
def Instruction.exec (senv : EvalEnv) (pc : CScript) (fExec : Bool) (st : EvalState) :
    Instruction → Option EvalState
  | .push bn => some { st with stack := CBigNum.getvch bn :: st.stack }
  | .nop => some st
  | .branch fNot =>
      if fExec then
        match st.stack with
        | [] => none
        | vch :: stack => some { st with stack := stack, vfExec := (castToBool vch ^^ fNot) :: st.vfExec }
      else some { st with vfExec := false :: st.vfExec }
  | .else =>
      match st.vfExec with
      | [] => none
      | f :: vfExec => some { st with vfExec := (!f) :: vfExec }
  | .endif =>
      match st.vfExec with
      | [] => none
      | _ :: vfExec => some { st with vfExec := vfExec }
  | .verify => execVerify st
  | .return => none
  | .toAltStack =>
      match st.stack with
      | [] => none
      | vch :: stack => some { st with stack := stack, altstack := vch :: st.altstack }
  | .fromAltStack =>
      match st.altstack with
      | [] => none
      | vch :: altstack => some { st with stack := vch :: st.stack, altstack := altstack }
  | .shuffle n order =>
      if st.stack.length < n then none
      else (order.mapM (stacktop st.stack)).map fun top => { st with stack := top ++ st.stack.drop n }
  | .onTop f =>
      match st.stack with
      | [] => none
      | vch :: stack => some { st with stack := f vch ++ stack }
  | .equal =>
      match st.stack with
      | vch2 :: vch1 :: stack => some { st with stack := boolVch (vch1 == vch2) :: stack }
      | _ => none
  | .depth => some { st with stack := CBigNum.getvch st.stack.length :: st.stack }
  | .pick fRoll => execPick fRoll st
  | .unary f =>
      match st.stack with
      | [] => none
      | vch :: stack =>
          (castToBigNum vch).map fun bn => { st with stack := CBigNum.getvch (f bn) :: stack }
  | .binary f =>
      match st.stack with
      | vch2 :: vch1 :: stack =>
          (castToBigNum vch1).bind fun bn1 =>
            (castToBigNum vch2).map fun bn2 =>
              { st with stack := CBigNum.getvch (f bn1 bn2) :: stack }
      | _ => none
  | .within =>
      match st.stack with
      | vch3 :: vch2 :: vch1 :: stack =>
          (castToBigNum vch1).bind fun bn1 =>
            (castToBigNum vch2).bind fun bn2 =>
              (castToBigNum vch3).map fun bn3 =>
                { st with stack := boolVch (decide (bn2 ≤ bn1) && decide (bn1 < bn3)) :: stack }
      | _ => none
  | .codeSeparator => some { st with scriptCode := pc }
  | .checkSig => execCheckSig senv st
  | .checkMultiSig => execCheckMultiSig senv st

/-- The switch -/
def execOp (senv : EvalEnv) (opcode : OpcodeType) (pc : CScript) (fExec : Bool) (st : EvalState) :
    Option EvalState :=
  (instruction senv opcode).bind fun (instr, fVerify) =>
    (instr.exec senv pc fExec st).bind fun st => if fVerify then execVerify st else some st

/-! ## The loop -/

/-- What one instruction does once it is read, before the size of the stack is looked at. -/
def evalOp (senv : EvalEnv) (opcode : OpcodeType) (vchPushValue : Bytes) (pc : CScript)
    (st : EvalState) : Option EvalState :=
  let fExec := st.vfExec.all id
  let nOpCount := if OP_16 < opcode then st.nOpCount + 1 else st.nOpCount
  if 520 < vchPushValue.length then none
  else if OP_16 < opcode ∧ 201 < nOpCount then none
  else if disabledOpcodes.contains opcode then none
  else
    let st := { st with nOpCount := nOpCount }
    if fExec ∧ opcode ≤ OP_PUSHDATA4 then some { st with stack := vchPushValue :: st.stack }
    else if fExec ∨ OP_IF ≤ opcode ∧ opcode ≤ OP_ENDIF then execOp senv opcode pc fExec st
    else some st

/-- One round: what is left of the script, and the state. -/
def evalStep (senv : EvalEnv) (pc : CScript) (st : EvalState) : Option (CScript × EvalState) :=
  (getOp pc).bind fun (opcode, vchPushValue, pc) =>
    (evalOp senv opcode vchPushValue pc st).bind fun st =>
      if 1000 < st.stack.length + st.altstack.length then none else some (pc, st)

theorem evalStep_length {senv : EvalEnv} {pc pc' : CScript} {st st' : EvalState}
    (h : evalStep senv pc st = some (pc', st')) : pc'.length < pc.length := by
  unfold evalStep at h
  obtain ⟨⟨opcode, vch, rest⟩, hop, h⟩ := Option.bind_eq_some_iff.mp h
  obtain ⟨st₁, -, h⟩ := Option.bind_eq_some_iff.mp h
  split at h
  · cases h
  · cases h
    exact getOp_length hop

def evalFrom (senv : EvalEnv) (pc : CScript) (st : EvalState) : Option EvalState :=
  if pc.isEmpty then some st
  else
    match _h : evalStep senv pc st with
    | none => none
    | some (pc', st') => evalFrom senv pc' st'
termination_by pc.length
decreasing_by exact evalStep_length _h

/-- `EvalScript`: the stack, where it returns `true`. -/
def evalScript (senv : EvalEnv) (stack : List Bytes) (script : CScript) : Option (List Bytes) :=
  if 10000 < script.length then none
  else
    (evalFrom senv script { stack := stack, scriptCode := script }).bind fun st =>
      if st.vfExec.isEmpty then some st.stack else none

/-! ## Verification -/

/-- The additional validation for spend-to-script-hash transactions, with what `scriptSig` pushed -/
def verifyRedeemScript (senv : EvalEnv) : List Bytes → Bool
  | [] => false
  | pubKeySerialized :: stackCopy =>
      match evalScript senv stackCopy pubKeySerialized with
      | some (top :: _) => castToBool top
      | _ => false

def verifyScript (senv : EvalEnv) (scriptSig scriptPubKey : CScript) : Bool :=
  match evalScript senv [] scriptSig with
  | none => false
  | some stackCopy =>
      match evalScript senv stackCopy scriptPubKey with
      | some (top :: _) =>
          if !castToBool top then false
          else if isPayToScriptHash scriptPubKey then
            isPushOnly scriptSig && verifyRedeemScript senv stackCopy
          else true
      | _ => false

end ShinyCoin

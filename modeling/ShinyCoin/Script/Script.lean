import ShinyCoin.Core.Env
import ShinyCoin.Lib.Reader

/-!
# Scripts

A script is its bytes. `GetOp` takes one instruction off the front, with the data it pushes; what is
left of the script stands for the iterator `pc`. `<<` appends a push or an opcode.
-/

namespace ShinyCoin

/-- `opcodetype`; any byte is cast to it. -/
abbrev OpcodeType := UInt8

/-! ## Opcodes -/

-- push value
def OP_0 : OpcodeType := 0x00
def OP_PUSHDATA1 : OpcodeType := 0x4c
def OP_PUSHDATA2 : OpcodeType := 0x4d
def OP_PUSHDATA4 : OpcodeType := 0x4e
def OP_1NEGATE : OpcodeType := 0x4f
def OP_1 : OpcodeType := 0x51
def OP_16 : OpcodeType := 0x60

-- control
def OP_NOP : OpcodeType := 0x61
def OP_IF : OpcodeType := 0x63
def OP_NOTIF : OpcodeType := 0x64
def OP_ELSE : OpcodeType := 0x67
def OP_ENDIF : OpcodeType := 0x68
def OP_VERIFY : OpcodeType := 0x69
def OP_RETURN : OpcodeType := 0x6a

-- stack ops
def OP_TOALTSTACK : OpcodeType := 0x6b
def OP_FROMALTSTACK : OpcodeType := 0x6c
def OP_2DROP : OpcodeType := 0x6d
def OP_2DUP : OpcodeType := 0x6e
def OP_3DUP : OpcodeType := 0x6f
def OP_2OVER : OpcodeType := 0x70
def OP_2ROT : OpcodeType := 0x71
def OP_2SWAP : OpcodeType := 0x72
def OP_IFDUP : OpcodeType := 0x73
def OP_DEPTH : OpcodeType := 0x74
def OP_DROP : OpcodeType := 0x75
def OP_DUP : OpcodeType := 0x76
def OP_NIP : OpcodeType := 0x77
def OP_OVER : OpcodeType := 0x78
def OP_PICK : OpcodeType := 0x79
def OP_ROLL : OpcodeType := 0x7a
def OP_ROT : OpcodeType := 0x7b
def OP_SWAP : OpcodeType := 0x7c
def OP_TUCK : OpcodeType := 0x7d

-- splice ops
def OP_CAT : OpcodeType := 0x7e
def OP_SUBSTR : OpcodeType := 0x7f
def OP_LEFT : OpcodeType := 0x80
def OP_RIGHT : OpcodeType := 0x81
def OP_SIZE : OpcodeType := 0x82

-- bit logic
def OP_INVERT : OpcodeType := 0x83
def OP_AND : OpcodeType := 0x84
def OP_OR : OpcodeType := 0x85
def OP_XOR : OpcodeType := 0x86
def OP_EQUAL : OpcodeType := 0x87
def OP_EQUALVERIFY : OpcodeType := 0x88

-- numeric
def OP_1ADD : OpcodeType := 0x8b
def OP_1SUB : OpcodeType := 0x8c
def OP_2MUL : OpcodeType := 0x8d
def OP_2DIV : OpcodeType := 0x8e
def OP_NEGATE : OpcodeType := 0x8f
def OP_ABS : OpcodeType := 0x90
def OP_NOT : OpcodeType := 0x91
def OP_0NOTEQUAL : OpcodeType := 0x92
def OP_ADD : OpcodeType := 0x93
def OP_SUB : OpcodeType := 0x94
def OP_MUL : OpcodeType := 0x95
def OP_DIV : OpcodeType := 0x96
def OP_MOD : OpcodeType := 0x97
def OP_LSHIFT : OpcodeType := 0x98
def OP_RSHIFT : OpcodeType := 0x99
def OP_BOOLAND : OpcodeType := 0x9a
def OP_BOOLOR : OpcodeType := 0x9b
def OP_NUMEQUAL : OpcodeType := 0x9c
def OP_NUMEQUALVERIFY : OpcodeType := 0x9d
def OP_NUMNOTEQUAL : OpcodeType := 0x9e
def OP_LESSTHAN : OpcodeType := 0x9f
def OP_GREATERTHAN : OpcodeType := 0xa0
def OP_LESSTHANOREQUAL : OpcodeType := 0xa1
def OP_GREATERTHANOREQUAL : OpcodeType := 0xa2
def OP_MIN : OpcodeType := 0xa3
def OP_MAX : OpcodeType := 0xa4
def OP_WITHIN : OpcodeType := 0xa5

-- crypto
def OP_RIPEMD160 : OpcodeType := 0xa6
def OP_SHA1 : OpcodeType := 0xa7
def OP_SHA256 : OpcodeType := 0xa8
def OP_HASH160 : OpcodeType := 0xa9
def OP_HASH256 : OpcodeType := 0xaa
def OP_CODESEPARATOR : OpcodeType := 0xab
def OP_CHECKSIG : OpcodeType := 0xac
def OP_CHECKSIGVERIFY : OpcodeType := 0xad
def OP_CHECKMULTISIG : OpcodeType := 0xae
def OP_CHECKMULTISIGVERIFY : OpcodeType := 0xaf

-- expansion
def OP_NOP1 : OpcodeType := 0xb0
def OP_NOP10 : OpcodeType := 0xb9

-- template matching params
def OP_SMALLINTEGER : OpcodeType := 0xfa
def OP_PUBKEYS : OpcodeType := 0xfb
def OP_PUBKEYHASH : OpcodeType := 0xfd
def OP_PUBKEY : OpcodeType := 0xfe

/-! ## Building -/

/-- `<<` of a vector, which is also `CScript(vch)`: the shortest push that fits its size. The size
is cut off at 32 bits. -/
def pushData (b : Bytes) : CScript :=
  if b.length < OP_PUSHDATA1.toNat then UInt8.ofNat b.length :: b
  else if b.length ≤ 0xff then OP_PUSHDATA1 :: UInt8.ofNat b.length :: b
  else if b.length ≤ 0xffff then OP_PUSHDATA2 :: Lib.toLE 2 b.length ++ b
  else OP_PUSHDATA4 :: Lib.toLE 4 b.length ++ b

def encodeOP_N (n : Nat) : OpcodeType := if n = 0 then OP_0 else OP_1 + UInt8.ofNat n - 1

/-- `DecodeOP_N`, of an opcode that is a small integer -/
def decodeOP_N (opcode : OpcodeType) : Nat :=
  if opcode = OP_0 then 0 else opcode.toNat - (OP_1.toNat - 1)

/-! ## Reading -/

/-- The bytes after the opcode that hold the size -/
def sizeWidth (opcode : OpcodeType) : Nat :=
  if opcode < OP_PUSHDATA1 then 0
  else if opcode = OP_PUSHDATA1 then 1
  else if opcode = OP_PUSHDATA2 then 2
  else 4

theorem sizeWidth_le (opcode : OpcodeType) : sizeWidth opcode ≤ 4 := by
  unfold sizeWidth
  split_ifs <;> omega

/-- `nSize` of a push, and what comes after it -/
def pushSize (opcode : OpcodeType) (pc : CScript) : Option (Nat × CScript) :=
  if pc.length < sizeWidth opcode then none
  else some (if opcode < OP_PUSHDATA1 then opcode.toNat else Lib.ofLE (pc.take (sizeWidth opcode)),
    pc.drop (sizeWidth opcode))

/-- `GetOp`: the opcode, what it pushes and the instructions after it -/
def getOp : CScript → Option (OpcodeType × Bytes × CScript)
  | [] => none
  | opcode :: pc =>
      if opcode ≤ OP_PUSHDATA4 then
        (pushSize opcode pc).bind fun (nSize, pc) =>
          if pc.length < nSize then none else some (opcode, pc.take nSize, pc.drop nSize)
      else some (opcode, [], pc)

section

variable {opcode : OpcodeType} {vch pc rest : Bytes} {nSize : Nat}

theorem getOp_cons : getOp (opcode :: pc) = if opcode ≤ OP_PUSHDATA4 then
    (pushSize opcode pc).bind fun (nSize, pc) =>
      if pc.length < nSize then none else some (opcode, pc.take nSize, pc.drop nSize)
    else some (opcode, [], pc) := rfl

/-- An instruction is its opcode, at most four bytes of the size, and the data. -/
theorem getOp_eq_append (h : getOp pc = some (opcode, vch, rest)) :
    ∃ size : Bytes, size.length ≤ 4 ∧ pc = opcode :: (size ++ vch ++ rest) := by
  cases pc with
  | nil => cases h
  | cons op pc =>
      rw [getOp_cons] at h
      by_cases hpush : op ≤ OP_PUSHDATA4
      · rw [if_pos hpush] at h
        obtain ⟨⟨nSize, pc'⟩, hsize, h⟩ := Option.bind_eq_some_iff.mp h
        unfold pushSize at hsize
        generalize (if op < OP_PUSHDATA1 then op.toNat
          else Lib.ofLE (pc.take (sizeWidth op))) = n at hsize
        split at hsize
        · cases hsize
        · cases hsize
          dsimp only at h
          split at h
          · cases h
          · cases h
            refine ⟨pc.take (sizeWidth opcode), ?_, ?_⟩
            · exact (List.length_take_le _ _).trans (sizeWidth_le opcode)
            · rw [List.append_assoc, List.take_append_drop, List.take_append_drop]
      · rw [if_neg hpush] at h
        cases h
        exact ⟨[], Nat.zero_le _, rfl⟩

/-- An instruction takes at least its opcode. -/
theorem getOp_length (h : getOp pc = some (opcode, vch, rest)) : rest.length < pc.length := by
  obtain ⟨size, -, rfl⟩ := getOp_eq_append h
  simp only [List.length_cons, List.length_append]
  omega

theorem getOp_suffix (h : getOp pc = some (opcode, vch, rest)) : rest <:+ pc := by
  obtain ⟨size, -, rfl⟩ := getOp_eq_append h
  exact (List.suffix_append _ rest).trans (List.suffix_cons _ _)

/-- An opcode that pushes nothing -/
theorem getOp_cons_of_lt (h : OP_PUSHDATA4 < opcode) :
    getOp (opcode :: pc) = some (opcode, [], pc) := by
  rw [getOp_cons, if_neg (UInt8.not_le.mpr h)]

end

/-- The loop of `FindAndDelete` from `pc` on: what becomes of the rest, and `nFound`. -/
def findAndDeleteFrom (b pc : CScript) : CScript × Nat :=
  if _h : b ≠ [] ∧ b <+: pc then
    let r := findAndDeleteFrom b (pc.drop b.length)
    (r.1, r.2 + 1)
  else
    match _hop : getOp pc with
    | none => (pc, 0)
    | some (_, _, rest) =>
        let r := findAndDeleteFrom b rest
        (pc.take (pc.length - rest.length) ++ r.1, r.2)
termination_by pc.length
decreasing_by
  · obtain ⟨hne, hprefix⟩ := _h
    have := hprefix.length_le
    have := List.length_pos_iff.mpr hne
    rw [List.length_drop]
    omega
  · exact getOp_length _hop

/-- `FindAndDelete`: the script that is left, and how often `b` was found. -/
def CScript.findAndDelete (script b : CScript) : CScript × Nat :=
  if b.isEmpty then (script, 0) else findAndDeleteFrom b script

/-- `IsPushOnly` -/
def isPushOnly (pc : CScript) : Bool :=
  if pc.isEmpty then true
  else
    match _hop : getOp pc with
    | none => false
    | some (opcode, _, rest) => if OP_16 < opcode then false else isPushOnly rest
termination_by pc.length
decreasing_by exact getOp_length _hop

/-- `IsPayToScriptHash` -/
def isPayToScriptHash (script : CScript) : Bool :=
  script.length == 23 && script[0]? == some OP_HASH160 && script[1]? == some 0x14
    && script[22]? == some OP_EQUAL

end ShinyCoin

import ShinyCoin.Script.Parsing
import ShinyCoin.Script.NumberFormat

/-!
# Scripts as lists of instructions

Every script is a list of whole instructions and a tail of which no instruction can be read. The
encoding of an instruction is no proper prefix of another one: `FindAndDelete` of one instruction takes
whole instructions out, and what `<<` writes is read back one by one.
-/

namespace ShinyCoin

section

variable {pc rest b : CScript} {opcode : OpcodeType} {vch : Bytes} {nSize : Nat}

/-! ## What follows does not matter -/

/-- The size is read the same way whatever follows it. -/
theorem pushSize_split (h : pushSize opcode pc = some (nSize, rest)) :
    ∃ size : Bytes, pc = size ++ rest ∧ ∀ t, pushSize opcode (size ++ t) = some (nSize, t) := by
  unfold pushSize at h
  split at h
  · cases h
  · next hlong =>
    have hlen : (pc.take (sizeWidth opcode)).length = sizeWidth opcode :=
      List.length_take_of_le (Nat.le_of_not_lt hlong)
    rw [Option.some.injEq, Prod.mk.injEq] at h
    obtain ⟨rfl, rfl⟩ := h
    refine ⟨pc.take (sizeWidth opcode), (List.take_append_drop _ _).symm, fun t => ?_⟩
    unfold pushSize
    rw [if_neg (by rw [List.length_append]; omega), List.take_left' hlen, List.drop_left' hlen]

/-- An instruction is read the same way whatever follows it. -/
theorem getOp_split (h : getOp pc = some (opcode, vch, rest)) :
    ∃ b : CScript, pc = b ++ rest ∧ ∀ t, getOp (b ++ t) = some (opcode, vch, t) := by
  cases pc with
  | nil => cases h
  | cons op pc =>
      rw [getOp_cons] at h
      split at h
      · next hpush =>
        obtain ⟨⟨n, data⟩, hread, hdata⟩ := Option.bind_eq_some_iff.mp h
        obtain ⟨size, rfl, hsize⟩ := pushSize_split hread
        dsimp only at hdata
        split at hdata
        · cases hdata
        · next hlong =>
          have hlen : (data.take n).length = n := List.length_take_of_le (Nat.le_of_not_lt hlong)
          cases hdata
          refine ⟨opcode :: (size ++ data.take n), ?_, fun t => ?_⟩
          · rw [List.cons_append, List.append_assoc, List.take_append_drop]
          · rw [List.cons_append, List.append_assoc, getOp_cons, if_pos hpush, hsize,
              Option.bind_some]
            dsimp only
            rw [if_neg (by rw [List.length_append]; omega), List.take_left' hlen,
              List.drop_left' hlen]
      · next hpush =>
        cases h
        refine ⟨[opcode], rfl, fun t => ?_⟩
        rw [List.singleton_append, getOp_cons, if_neg hpush]

/-! ## Instructions and the tail -/

/-- The encoding of exactly one instruction -/
def IsInstruction (b : CScript) : Prop := ∃ opcode vch, getOp b = some (opcode, vch, [])

theorem IsInstruction.getOp_append (h : IsInstruction b) :
    ∃ opcode vch, ∀ t, getOp (b ++ t) = some (opcode, vch, t) := by
  obtain ⟨opcode, vch, h⟩ := h
  obtain ⟨b', rfl, hb'⟩ := getOp_split h
  rw [List.append_nil]
  exact ⟨opcode, vch, hb'⟩

theorem isInstruction_pushData (hb : b.length < 2 ^ 32) : IsInstruction (pushData b) := by
  obtain ⟨opcode, -, hop⟩ := getOp_pushData hb []
  rw [List.append_nil] at hop
  exact ⟨opcode, b, hop⟩

theorem isInstruction_opcode (h : OP_PUSHDATA4 < opcode) : IsInstruction [opcode] :=
  ⟨opcode, [], getOp_cons_of_lt h⟩

/-- The first instruction by itself -/
theorem exists_instruction (h : getOp pc = some (opcode, vch, rest)) :
    ∃ b, IsInstruction b ∧ pc = b ++ rest := by
  obtain ⟨b, hpc, hb⟩ := getOp_split h
  have hop := hb []
  rw [List.append_nil] at hop
  exact ⟨b, ⟨opcode, vch, hop⟩, hpc⟩

/-- The encodings of the instructions that `GetOp` finds from front to back, and what is left where it
finds none -/
def encodings (pc : CScript) : List CScript × CScript :=
  match _hop : getOp pc with
  | none => ([], pc)
  | some (_, _, rest) =>
      let r := encodings rest
      (pc.take (pc.length - rest.length) :: r.1, r.2)
termination_by pc.length
decreasing_by exact getOp_length _hop

theorem encodings_of_none (h : getOp pc = none) : encodings pc = ([], pc) := by
  rw [encodings]
  split
  · rfl
  · next hsome => simp [h] at hsome

theorem encodings_append (h : IsInstruction b) (rest : CScript) :
    encodings (b ++ rest) = (b :: (encodings rest).1, (encodings rest).2) := by
  obtain ⟨opcode, vch, hop⟩ := h.getOp_append
  rw [encodings]
  split
  · next hnone => simp [hop] at hnone
  · next hsome =>
    rw [hop] at hsome
    cases hsome
    rw [List.length_append, Nat.add_sub_cancel, List.take_left' rfl]

/-- Induction over the instructions of a script, down to the tail. -/
@[elab_as_elim]
theorem instruction_induction {motive : CScript → Prop}
    (tail : ∀ pc, getOp pc = none → motive pc)
    (instruction : ∀ b rest, IsInstruction b → motive rest → motive (b ++ rest))
    (pc : CScript) : motive pc := by
  induction pc using getOp_induction with
  | nil => exact tail [] rfl
  | stuck pc _ hop => exact tail pc hop
  | cons pc opcode vch rest hop ih =>
      obtain ⟨b, hb, rfl⟩ := exists_instruction hop
      exact instruction b rest hb ih

/-- A script is its instructions and its tail, and no instruction can be read from the tail. -/
theorem encodings_spec (pc : CScript) :
    (encodings pc).1.flatten ++ (encodings pc).2 = pc ∧
      (∀ b ∈ (encodings pc).1, IsInstruction b) ∧ getOp (encodings pc).2 = none := by
  induction pc using instruction_induction with
  | tail pc hop =>
      rw [encodings_of_none hop]
      exact ⟨rfl, by simp, hop⟩
  | instruction b rest hb ih =>
      obtain ⟨hflatten, hall, htail⟩ := ih
      rw [encodings_append hb]
      refine ⟨?_, List.forall_mem_cons.mpr ⟨hb, hall⟩, htail⟩
      rw [List.flatten_cons, List.append_assoc, hflatten]

/-! ## FindAndDelete -/

/-- At an instruction, another one is found exactly when they are the same. -/
theorem IsInstruction.prefix_iff {b' : CScript} (hb : IsInstruction b) (hb' : IsInstruction b')
    (rest : CScript) : b <+: b' ++ rest ↔ b = b' := by
  constructor
  · rintro ⟨t, ht⟩
    obtain ⟨_, _, hop⟩ := hb.getOp_append
    obtain ⟨_, _, hop'⟩ := hb'.getOp_append
    have heq := hop t
    rw [ht, hop'] at heq
    cases heq
    exact List.append_cancel_right ht
  · rintro rfl
    exact List.prefix_append b rest

theorem IsInstruction.ne_nil (hb : IsInstruction b) : b ≠ [] := by
  rintro rfl
  obtain ⟨_, _, hop⟩ := hb
  cases hop

/-- In a tail nothing is found. -/
theorem findAndDeleteFrom_tail (hb : IsInstruction b) (hop : getOp pc = none) :
    findAndDeleteFrom b pc = (pc, 0) := by
  have hprefix : ¬ (b ≠ [] ∧ b <+: pc) := by
    rintro ⟨-, t, rfl⟩
    obtain ⟨_, _, hsome⟩ := hb.getOp_append
    rw [hsome t] at hop
    cases hop
  rw [findAndDeleteFrom, dif_neg hprefix]
  split
  · rfl
  · next hsome => simp [hop] at hsome

theorem findAndDeleteFrom_self (hb : IsInstruction b) (rest : CScript) :
    findAndDeleteFrom b (b ++ rest)
      = ((findAndDeleteFrom b rest).1, (findAndDeleteFrom b rest).2 + 1) := by
  rw [findAndDeleteFrom, dif_pos ⟨hb.ne_nil, List.prefix_append b rest⟩, List.drop_left' rfl]

theorem findAndDeleteFrom_other {b' : CScript} (hb : IsInstruction b) (hb' : IsInstruction b')
    (hne : b ≠ b') (rest : CScript) :
    findAndDeleteFrom b (b' ++ rest)
      = (b' ++ (findAndDeleteFrom b rest).1, (findAndDeleteFrom b rest).2) := by
  have hprefix : ¬ (b ≠ [] ∧ b <+: b' ++ rest) := fun h => hne ((hb.prefix_iff hb' rest).mp h.2)
  obtain ⟨_, _, hop⟩ := hb'.getOp_append
  rw [findAndDeleteFrom, dif_neg hprefix]
  split
  · next hnone => simp [hop] at hnone
  · next hsome =>
    rw [hop] at hsome
    cases hsome
    rw [List.length_append, Nat.add_sub_cancel, List.take_left' rfl]

theorem findAndDeleteFrom_eq (hb : IsInstruction b) (pc : CScript) :
    findAndDeleteFrom b pc
      = (((encodings pc).1.filter (· ≠ b)).flatten ++ (encodings pc).2,
        (encodings pc).1.count b) := by
  induction pc using instruction_induction with
  | tail pc hop =>
      rw [findAndDeleteFrom_tail hb hop, encodings_of_none hop]
      rfl
  | instruction b' rest hb' ih =>
      rw [encodings_append hb']
      by_cases hne : b = b'
      · subst hne
        rw [findAndDeleteFrom_self hb, ih, List.filter_cons_of_neg (by simp), List.count_cons_self]
      · rw [findAndDeleteFrom_other hb hb' hne, ih, List.filter_cons_of_pos (by simpa using Ne.symm hne),
          List.flatten_cons, List.append_assoc, List.count_cons_of_ne (Ne.symm hne)]

/-- One instruction is deleted from a script wherever it is one of the script's own instructions, and
nothing else changes: not the data of another instruction, and not the tail. -/
theorem findAndDelete_spec (script b : CScript) (hb : IsInstruction b) :
    script = (encodings script).1.flatten ++ (encodings script).2 ∧
    (∀ b' ∈ (encodings script).1, IsInstruction b') ∧ getOp (encodings script).2 = none ∧
    script.findAndDelete b
      = (((encodings script).1.filter (· ≠ b)).flatten ++ (encodings script).2,
        (encodings script).1.count b) := by
  obtain ⟨hflatten, hall, htail⟩ := encodings_spec script
  refine ⟨hflatten.symm, hall, htail, ?_⟩
  rw [CScript.findAndDelete, if_neg, findAndDeleteFrom_eq hb]
  rw [List.isEmpty_iff]
  exact hb.ne_nil

/-- A code separator goes, the one that is pushed as data stays, and so does a tail without its size. -/
theorem findAndDelete_spec_codeSeparator :
    CScript.findAndDelete [OP_CODESEPARATOR, 1, OP_CODESEPARATOR, OP_PUSHDATA1] [OP_CODESEPARATOR]
      = ([1, OP_CODESEPARATOR, OP_PUSHDATA1], 1) := by
  have hsep : IsInstruction [OP_CODESEPARATOR] := isInstruction_opcode (by decide)
  have hpush : IsInstruction [1, OP_CODESEPARATOR] := isInstruction_pushData (b := [OP_CODESEPARATOR])
    (by decide)
  have hlist : encodings [OP_CODESEPARATOR, 1, OP_CODESEPARATOR, OP_PUSHDATA1]
      = ([[OP_CODESEPARATOR], [1, OP_CODESEPARATOR]], [OP_PUSHDATA1]) := by
    rw [show [OP_CODESEPARATOR, 1, OP_CODESEPARATOR, OP_PUSHDATA1]
      = [OP_CODESEPARATOR] ++ ([1, OP_CODESEPARATOR] ++ [OP_PUSHDATA1]) from rfl,
      encodings_append hsep, encodings_append hpush, encodings_of_none (by decide)]
  rw [(findAndDelete_spec _ _ hsep).2.2.2, hlist]
  decide

end

/-! ## Building -/

/-- `push_int64`: an opcode for the small ones, else the number as a vector -/
def pushInt64 (n : ℤ) : CScript :=
  if n = -1 ∨ (1 ≤ n ∧ n ≤ 16) then [UInt8.ofNat (n + (OP_1.toNat - 1)).toNat]
  else pushData (CBigNum.getvch ((CBigNum.setint64 n).getD 0))

/-- What `<<` takes -/
inductive ScriptItem where
  | vector (b : Bytes)
  | int64 (n : ℤ)
  | opcode (op : OpcodeType)

/-- `<<` -/
def CScript.write (script : CScript) : ScriptItem → CScript
  | .vector b => script ++ pushData b
  | .int64 n => script ++ pushInt64 n
  | .opcode op => script ++ [op]

namespace ScriptItem

/-- A vector whose size can be written, a number that is an `int64`, an opcode that is no push -/
def Valid : ScriptItem → Prop
  | vector b => b.length < 2 ^ 32
  | int64 n => -2 ^ 63 ≤ n ∧ n < 2 ^ 63
  | opcode op => OP_PUSHDATA4 < op

/-- The instruction that an item is read back as: a push of the vector, the opcode of a small number or
a push of its encoding, the opcode -/
def ReadAs : ScriptItem → OpcodeType × Bytes → Prop
  | vector b, op => op.1 ≤ OP_PUSHDATA4 ∧ op.2 = b
  | int64 n, op =>
      if n = -1 ∨ (1 ≤ n ∧ n ≤ 16) then (op.1.toNat : ℤ) = n + (OP_1.toNat - 1) ∧ op.2 = []
      else op.1 ≤ OP_PUSHDATA4 ∧ op.2 = CBigNum.getvch n
  | opcode op', op => op = (op', [])

/-- The bytes of an item -/
def bytes (item : ScriptItem) : CScript := CScript.write [] item

theorem write_eq (script : CScript) (item : ScriptItem) : script.write item = script ++ item.bytes := by
  cases item <;> rfl

theorem length_getvch_lt {n : ℤ} (hmin : -2 ^ 63 ≤ n) (hmax : n < 2 ^ 63) :
    (CBigNum.getvch n).length < 2 ^ 32 := by
  have hsize : CBigNum.mpiSize n.natAbs ≤ 9 := CBigNum.mpiSize_le (by norm_num; omega)
  rw [(CBigNum.getvch_spec n).1]
  omega

/-- What was written is read back, whatever follows. -/
theorem getOp_bytes {item : ScriptItem} (h : item.Valid) (rest : CScript) :
    ∃ op, item.ReadAs op ∧ getOp (item.bytes ++ rest) = some (op.1, op.2, rest) := by
  cases item with
  | vector b =>
      obtain ⟨opcode, hop, hget⟩ := getOp_pushData h rest
      exact ⟨(opcode, b), ⟨hop, rfl⟩, hget⟩
  | int64 n =>
      obtain ⟨hmin, hmax⟩ := h
      have h81 : OP_1.toNat = 81 := rfl
      by_cases hsmall : n = -1 ∨ (1 ≤ n ∧ n ≤ 16)
      · have hop : (UInt8.ofNat (n + (OP_1.toNat - 1)).toNat).toNat = (n + (OP_1.toNat - 1)).toNat :=
          UInt8.toNat_ofNat_of_lt (by rw [h81, UInt8.size]; omega)
        refine ⟨(UInt8.ofNat (n + (OP_1.toNat - 1)).toNat, []), ?_, ?_⟩
        · rw [ReadAs, if_pos hsmall]
          refine ⟨?_, rfl⟩
          rw [hop, h81]
          omega
        · have hbytes : bytes (.int64 n) = [UInt8.ofNat (n + (OP_1.toNat - 1)).toNat] := if_pos hsmall
          rw [hbytes]
          apply getOp_cons_of_lt
          rw [UInt8.lt_iff_toNat_lt, hop, h81, show OP_PUSHDATA4.toNat = 78 from rfl]
          omega
      · have hbytes : bytes (.int64 n) = pushData (CBigNum.getvch n) := by
          rw [bytes, CScript.write, pushInt64, if_neg hsmall, CBigNum.setint64_eq hmin hmax]
          rfl
        obtain ⟨opcode, hop, hget⟩ := getOp_pushData (length_getvch_lt hmin hmax) rest
        refine ⟨(opcode, CBigNum.getvch n), ?_, hbytes ▸ hget⟩
        rw [ReadAs, if_neg hsmall]
        exact ⟨hop, rfl⟩
  | opcode op => exact ⟨(op, []), rfl, getOp_cons_of_lt h⟩

theorem parses_flatMap {items : List ScriptItem} (h : ∀ item ∈ items, item.Valid) :
    ∃ ops, Parses (items.flatMap bytes) ops ∧ List.Forall₂ ReadAs items ops := by
  induction items with
  | nil => exact ⟨[], .nil, .nil⟩
  | cons item items ih =>
      obtain ⟨hitem, hitems⟩ := List.forall_mem_cons.mp h
      obtain ⟨ops, hparses, hread⟩ := ih hitems
      obtain ⟨op, hop, hget⟩ := getOp_bytes hitem (items.flatMap bytes)
      exact ⟨op :: ops, .cons hget hparses, .cons hop hread⟩

end ScriptItem

theorem foldl_write (items : List ScriptItem) :
    items.foldl CScript.write [] = items.flatMap ScriptItem.bytes := by
  have hwrite : CScript.write = fun script item => script ++ item.bytes := by
    funext script item
    exact ScriptItem.write_eq script item
  rw [hwrite, List.foldl_append_eq_append, List.nil_append, List.flatMap]

/-- What is written with `<<` is parsed into as many instructions as there were items, each of them the
one for its item, up to the end of the script. Each instruction that is read takes at least a byte and
ends within the script, and a script is parsed in one way only. -/
theorem build_and_parse :
    (∀ items : List ScriptItem, (∀ item ∈ items, item.Valid) →
      ∃ ops, Parses (items.foldl CScript.write []) ops ∧
        List.Forall₂ ScriptItem.ReadAs items ops) ∧
    (∀ (pc rest : CScript) (opcode : OpcodeType) (vch : Bytes),
      getOp pc = some (opcode, vch, rest) → rest <:+ pc ∧ rest.length + 1 ≤ pc.length) ∧
    ∀ (pc : CScript) (ops ops' : List (OpcodeType × Bytes)),
      Parses pc ops → Parses pc ops' → ops = ops' := by
  refine ⟨fun items h => ?_, fun pc rest opcode vch h => ⟨getOp_suffix h, getOp_length h⟩,
    fun pc ops ops' h h' => h.unique h'⟩
  rw [foldl_write]
  exact ScriptItem.parses_flatMap h

/-- Three items: a vector, a number that is pushed and an opcode -/
theorem build_and_parse_three :
    ∃ ops, Parses ([.vector [1, 2], .int64 17, .opcode OP_CHECKSIG].foldl CScript.write []) ops ∧
      List.Forall₂ ScriptItem.ReadAs [.vector [1, 2], .int64 17, .opcode OP_CHECKSIG] ops := by
  refine build_and_parse.1 _ fun item hitem => ?_
  simp only [List.mem_cons, List.not_mem_nil, or_false] at hitem
  rcases hitem with rfl | rfl | rfl
  · exact (by decide : (2 : Nat) < 2 ^ 32)
  · exact (by decide : (-2 : ℤ) ^ 63 ≤ 17 ∧ (17 : ℤ) < 2 ^ 63)
  · exact (by decide : OP_PUSHDATA4 < OP_CHECKSIG)

end ShinyCoin

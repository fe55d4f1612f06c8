import ShinyCoin.Script.Script

/-!
# The instructions of a script

`Parses` is the relation of a script and the instructions that `GetOp` finds in it from front to
back. A vector that was put into a script with `<<` is read back, and what no instruction pushes is
not found by `FindAndDelete` either.
-/

namespace ShinyCoin

/-- All of the script's instructions, with what they push. -/
inductive Parses : CScript → List (OpcodeType × Bytes) → Prop
  | nil : Parses [] []
  | cons {pc rest : CScript} {opcode : OpcodeType} {vch : Bytes} {ops : List (OpcodeType × Bytes)} :
      getOp pc = some (opcode, vch, rest) → Parses rest ops → Parses pc ((opcode, vch) :: ops)

variable {pc rest : CScript} {opcode : OpcodeType} {vch b : Bytes} {ops : List (OpcodeType × Bytes)}

theorem Parses.cons_opcode (h : OP_PUSHDATA4 < opcode) (hrest : Parses rest ops) :
    Parses (opcode :: rest) ((opcode, []) :: ops) :=
  .cons (getOp_cons_of_lt h) hrest

/-- Induction on the instructions from `pc` on: at the end, where none can be read, after the one that
is read. -/
@[elab_as_elim]
theorem getOp_induction {motive : CScript → Prop} (nil : motive [])
    (stuck : ∀ pc, pc ≠ [] → getOp pc = none → motive pc)
    (cons : ∀ pc opcode vch rest, getOp pc = some (opcode, vch, rest) → motive rest → motive pc)
    (pc : CScript) : motive pc := by
  cases hop : getOp pc with
  | none =>
      by_cases hne : pc = []
      · rw [hne]
        exact nil
      · exact stuck pc hne hop
  | some op =>
      obtain ⟨opcode, vch, rest⟩ := op
      exact cons pc opcode vch rest hop (getOp_induction nil stuck cons rest)
termination_by pc.length
decreasing_by exact getOp_length hop

/-- There is one way only to read a script. -/
theorem Parses.unique {ops' : List (OpcodeType × Bytes)} (h : Parses pc ops) (h' : Parses pc ops') :
    ops = ops' := by
  induction h generalizing ops' with
  | nil =>
      cases h' with
      | nil => rfl
      | cons hop _ => cases hop
  | cons hop _ ih =>
      cases h' with
      | nil => cases hop
      | cons hop' hrest' =>
          rw [hop] at hop'
          cases hop'
          rw [ih hrest']

/-- An instruction takes at most five bytes more than it pushes. -/
theorem Parses.length_le (h : Parses pc ops) :
    pc.length ≤ (ops.map fun op => op.2.length + 5).sum := by
  induction h with
  | nil => exact Nat.le_refl _
  | cons hop _ ih =>
      obtain ⟨size, hsize, rfl⟩ := getOp_eq_append hop
      simp only [List.length_cons, List.length_append, List.map_cons, List.sum_cons]
      omega

/-! ## Pushes -/

/-- Only a push has data. -/
theorem getOp_push (h : getOp pc = some (opcode, vch, rest)) (hvch : vch ≠ []) :
    opcode ≤ OP_PUSHDATA4 := by
  cases pc with
  | nil => cases h
  | cons op pc =>
      by_contra hop
      rw [getOp_cons] at h
      split at h
      · next hle =>
          obtain ⟨⟨nSize, pc'⟩, -, h⟩ := Option.bind_eq_some_iff.mp h
          dsimp only at h
          split at h
          · cases h
          · cases h
            exact hop hle
      · cases h
        exact hvch rfl

theorem Parses.push {op : OpcodeType × Bytes} (h : Parses pc ops) (hmem : op ∈ ops)
    (hdata : op.2 ≠ []) : op.1 ≤ OP_PUSHDATA4 := by
  induction h with
  | nil => simp at hmem
  | cons hget _ ih =>
      rcases List.mem_cons.mp hmem with rfl | hmem
      · exact getOp_push hget hdata
      · exact ih hmem

/-- A size of `w` bytes before the data -/
theorem pushSize_toLE {w n : Nat} (hop : ¬ opcode < OP_PUSHDATA1) (hw : sizeWidth opcode = w)
    (hn : n < 256 ^ w) (pc : CScript) :
    pushSize opcode (Lib.toLE w n ++ pc) = some (n, pc) := by
  have hlen : (Lib.toLE w n).length = w := Lib.length_toLE w n
  unfold pushSize
  rw [hw, if_neg (by rw [List.length_append]; omega), if_neg hop, List.take_left' hlen,
    List.drop_left' hlen, Lib.ofLE_toLE hn]

/-- The bytes of an instruction that pushes `vch`: its size is in the opcode, or in one, two or four
bytes after the opcode. -/
inductive IsPush (vch : Bytes) : CScript → Prop
  | direct : vch.length < OP_PUSHDATA1.toNat → IsPush vch (UInt8.ofNat vch.length :: vch)
  | sized {opcode : OpcodeType} {w : Nat} :
      (opcode, w) ∈ [(OP_PUSHDATA1, 1), (OP_PUSHDATA2, 2), (OP_PUSHDATA4, 4)] →
      vch.length < 256 ^ w → IsPush vch (opcode :: (Lib.toLE w vch.length ++ vch))

theorem toNat_ofNat_length (h : vch.length < OP_PUSHDATA1.toNat) :
    (UInt8.ofNat vch.length).toNat = vch.length ∧ UInt8.ofNat vch.length < OP_PUSHDATA1 := by
  have hbyte : (UInt8.ofNat vch.length).toNat = vch.length :=
    UInt8.toNat_ofNat_of_lt (h.trans (by decide))
  refine ⟨hbyte, ?_⟩
  rw [UInt8.lt_iff_toNat_lt, hbyte]
  exact h

/-- A push is read as one instruction. -/
theorem IsPush.getOp_append {push : CScript} (h : IsPush vch push) (rest : CScript) :
    ∃ opcode, opcode ≤ OP_PUSHDATA4 ∧ getOp (push ++ rest) = some (opcode, vch, rest) := by
  have hread : ∀ (opcode : OpcodeType) (pc : CScript), opcode ≤ OP_PUSHDATA4 →
      pushSize opcode pc = some (vch.length, vch ++ rest) →
      getOp (opcode :: pc) = some (opcode, vch, rest) := by
    intro opcode pc hop hsize
    have hlen : ¬ (vch ++ rest).length < vch.length := by
      rw [List.length_append]
      omega
    rw [getOp_cons, if_pos hop, hsize, Option.bind_some]
    dsimp only
    rw [if_neg hlen, List.take_left' rfl, List.drop_left' rfl]
  cases h with
  | direct hshort =>
      obtain ⟨hbyte, hlt⟩ := toNat_ofNat_length hshort
      have hle := UInt8.le_trans (UInt8.le_of_lt hlt) (show OP_PUSHDATA1 ≤ OP_PUSHDATA4 by decide)
      refine ⟨_, hle, hread _ _ hle ?_⟩
      unfold pushSize
      rw [show sizeWidth (UInt8.ofNat vch.length) = 0 from if_pos hlt, if_neg (Nat.not_lt_zero _),
        if_pos hlt, hbyte]
      rfl
  | @sized opcode w hop hsize =>
      have hwidth : opcode ≤ OP_PUSHDATA4 ∧ ¬ opcode < OP_PUSHDATA1 ∧ sizeWidth opcode = w := by
        simp only [List.mem_cons, Prod.mk.injEq, List.not_mem_nil, or_false] at hop
        rcases hop with ⟨rfl, rfl⟩ | ⟨rfl, rfl⟩ | ⟨rfl, rfl⟩ <;> decide
      obtain ⟨hle, hlt, hw⟩ := hwidth
      refine ⟨opcode, hle, ?_⟩
      rw [List.cons_append, List.append_assoc]
      exact hread _ _ hle (pushSize_toLE hlt hw hsize _)

/-- `<<` writes a push. -/
theorem isPush_pushData (hb : b.length < 2 ^ 32) : IsPush b (pushData b) := by
  unfold pushData
  split_ifs with hshort hone htwo
  · exact .direct hshort
  · have hbyte : Lib.toLE 1 b.length = [UInt8.ofNat b.length] := rfl
    have hpush : IsPush b (OP_PUSHDATA1 :: (Lib.toLE 1 b.length ++ b)) :=
      .sized (by simp) (Nat.lt_succ_of_le hone)
    rw [hbyte] at hpush
    exact hpush
  · exact .sized (by simp) (Nat.lt_succ_of_le htwo)
  · exact .sized (by simp) hb

/-- What was put into a script is read back. -/
theorem getOp_pushData (hb : b.length < 2 ^ 32) (rest : CScript) :
    ∃ opcode, opcode ≤ OP_PUSHDATA4 ∧ getOp (pushData b ++ rest) = some (opcode, b, rest) :=
  (isPush_pushData hb).getOp_append rest

/-- The pushes of these vectors -/
def pushAll (vs : List Bytes) : CScript := vs.flatMap pushData

/-- A script that pushes these vectors and does nothing else -/
def Pushes (pc : CScript) (vs : List Bytes) : Prop :=
  ∃ ops, Parses pc ops ∧ ops.map Prod.snd = vs ∧ ∀ op ∈ ops, op.1 ≤ OP_PUSHDATA4

theorem pushAll_pushes {vs : List Bytes} (h : ∀ b ∈ vs, b.length < 2 ^ 32) :
    Pushes (pushAll vs) vs := by
  induction vs with
  | nil => exact ⟨[], .nil, rfl, by simp⟩
  | cons b vs ih =>
      obtain ⟨ops, hparses, hvs, hpush⟩ := ih fun b hb => h b (List.mem_cons_of_mem _ hb)
      obtain ⟨opcode, hop, hget⟩ := getOp_pushData (h b List.mem_cons_self) (pushAll vs)
      refine ⟨(opcode, b) :: ops, .cons hget hparses, by rw [List.map_cons, hvs], ?_⟩
      intro op hmem
      rcases List.mem_cons.mp hmem with rfl | hmem
      · exact hop
      · exact hpush op hmem

theorem Pushes.isPushOnly {vs : List Bytes} (h : Pushes pc vs) : isPushOnly pc = true := by
  obtain ⟨ops, hparses, -, hpush⟩ := h
  clear vs
  induction hparses with
  | nil =>
      unfold ShinyCoin.isPushOnly
      rfl
  | @cons pc rest opcode vch ops hop _ ih =>
      have hle : ¬ OP_16 < opcode := by
        have := hpush _ List.mem_cons_self
        exact UInt8.not_lt.mpr (UInt8.le_trans this (by decide))
      unfold ShinyCoin.isPushOnly
      split
      · rfl
      · split
        · next hnone => rw [hop] at hnone; cases hnone
        · next hsome =>
            rw [hop] at hsome
            cases hsome
            rw [if_neg hle]
            exact ih fun op hmem => hpush op (List.mem_cons_of_mem _ hmem)

/-! ## FindAndDelete -/

/-- A push is not found in a script whose instructions push other vectors. -/
theorem Parses.findAndDelete_pushData (h : Parses pc ops) (hb : b.length < 2 ^ 32)
    (hnot : b ∉ ops.map Prod.snd) : pc.findAndDelete (pushData b) = (pc, 0) := by
  have hfrom : findAndDeleteFrom (pushData b) pc = (pc, 0) := by
    induction h with
    | nil =>
        unfold findAndDeleteFrom
        have hprefix : ¬ (pushData b ≠ [] ∧ pushData b <+: ([] : CScript)) := by
          rintro ⟨hne, hprefix⟩
          exact hne (List.prefix_nil.mp hprefix)
        rw [dif_neg hprefix]
        rfl
    | @cons pc rest opcode vch ops hop _ ih =>
        rw [List.map_cons, List.mem_cons, not_or] at hnot
        have hprefix : ¬ (pushData b ≠ [] ∧ pushData b <+: pc) := by
          rintro ⟨-, tail, rfl⟩
          obtain ⟨_, -, hget⟩ := getOp_pushData hb tail
          rw [hop] at hget
          cases hget
          exact hnot.1 rfl
        unfold findAndDeleteFrom
        rw [dif_neg hprefix]
        split
        · next hnone => simp [hop] at hnone
        · next hsome =>
            rw [hop] at hsome
            cases hsome
            obtain ⟨front, rfl⟩ := getOp_suffix hop
            rw [ih hnot.2, List.length_append, Nat.add_sub_cancel, List.take_left' rfl]
  unfold CScript.findAndDelete
  rw [hfrom]
  split
  · rfl
  · rfl

/-! ## Pay to script hash -/

theorem isPayToScriptHash_eq {script : CScript} (h : isPayToScriptHash script = true) :
    ∃ hash : Bytes, hash.length = 20 ∧ (script.drop 2).take 20 = hash ∧
      script = OP_HASH160 :: (pushData hash ++ [OP_EQUAL]) := by
  unfold isPayToScriptHash at h
  simp only [Bool.and_eq_true, beq_iff_eq] at h
  obtain ⟨⟨⟨hlen, hfirst⟩, hsecond⟩, hlast⟩ := h
  have hhash : ((script.drop 2).take 20).length = 20 := by
    rw [List.length_take, List.length_drop, hlen]
    rfl
  have hpush : pushData ((script.drop 2).take 20) = 0x14 :: (script.drop 2).take 20 := by
    unfold pushData
    rw [hhash]
    rfl
  have hend : script.drop 22 = [OP_EQUAL] := by
    apply List.ext_getElem?
    intro i
    rw [List.getElem?_drop]
    cases i with
    | zero => rw [hlast, List.getElem?_cons_zero]
    | succ i =>
        rw [List.getElem?_eq_none (by omega)]
        rfl
  refine ⟨_, hhash, rfl, ?_⟩
  rw [hpush]
  apply List.ext_getElem?
  intro i
  match i with
  | 0 => exact hfirst
  | 1 => exact hsecond
  | i + 2 =>
      have hsplit : (script.drop 2).take 20 ++ [OP_EQUAL] = script.drop 2 := by
        rw [← hend, ← List.drop_drop (i := 20) (j := 2)]
        exact List.take_append_drop 20 _
      show _ = ((script.drop 2).take 20 ++ [OP_EQUAL])[i]?
      rw [hsplit, List.getElem?_drop, Nat.add_comm]

end ShinyCoin

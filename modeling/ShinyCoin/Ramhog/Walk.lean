import ShinyCoin.Ramhog.Exclusive

/-!
# What the walk reads

The words a walk reads are words the generators wrote, so it does not matter what the scratchpads
held before (`runIterations_of_generated`). Word by word the walk comes to the same hash
(`eval_runIterationsReads`).
-/

namespace ShinyCoin

open Lib (Reads)

/-! ## Word by word -/

section

variable {pbkdf2 : Pbkdf2} {input : Bytes} {output_size : Nat} {N C I : UInt32} {pads : Nat → Pad}

@[simp] theorem map_finalChunksAt :
    (finalChunksAt N C).map (readPads pads) = finalChunks N C pads := by
  simp [finalChunksAt, finalChunks, readPads, List.map_flatMap, Function.comp_def]

@[simp] theorem eval_walkStepReads (st : XorshiftCtx × UInt64) :
    (walkStepReads N C st).eval (readPads pads) = walkStep N C pads st := rfl

theorem eval_trace_walkStepReads (n : Nat) (st : XorshiftCtx × UInt64) :
    ((Reads.trace (walkStepReads N C) n st).eval (readPads pads)).map (·.2)
      = walkWords N C pads n st := by
  induction n generalizing st with
  | zero => rfl
  | succ n ih => simp [Reads.trace, walkWords, ih]

theorem eval_runIterationsReads :
    (runIterationsReads pbkdf2 input output_size N C I).eval (readPads pads)
      = ramhogRunIterations pbkdf2 input output_size N C I pads := by
  unfold runIterationsReads ramhogRunIterations walkStart walkSalt
  simp only [Reads.eval_bind, Reads.eval_readAll, Reads.eval_iterate, Reads.eval_done,
    map_finalChunksAt, eval_walkStepReads, eval_trace_walkStepReads]

/-- How many words a walk reads -/
def walkReads (N C I : UInt32) : Nat := (finalChunksAt N C).length + ((I - (32 - 5)).toNat + 27)

theorem count_runIterationsReads :
    (runIterationsReads pbkdf2 input output_size N C I).Count (walkReads N C I) := by
  have hstep : ∀ st, (walkStepReads N C st).Count 1 := fun _ => .read _ fun _ => .done _
  have hskip : ∀ n st, (Reads.iterate (walkStepReads N C) n st).Count n := by
    intro n st
    simpa only [Nat.mul_one] using Reads.count_iterate hstep n st
  have hwords : ∀ st, (Reads.trace (walkStepReads N C) 27 st).Count 27 := fun st =>
    Reads.count_trace hstep 27 st
  unfold runIterationsReads walkReads
  apply (Reads.count_readAll _).bind
  intro finalChunks
  apply (hskip _ _).bind
  intro st
  exact (hwords st).bind fun sts => .done _

/-! ## Only words that were written -/

theorem padOf_lt (hN : 0 < N) (X : UInt64) : padOf N X < N.toNat := by
  unfold padOf
  rw [UInt64.toNat_mod]
  exact Nat.mod_lt _ (UInt32.lt_iff_toNat_lt.mp hN)

theorem chunkOf_lt (hC : 33 ≤ C) (X : UInt64) : chunkOf C X < C.toNat := by
  have hC : 33 ≤ C.toNat := UInt32.le_iff_toNat_le.mp hC
  unfold chunkOf
  rw [UInt64.toNat_mod]
  exact Nat.mod_lt _ (show 0 < C.toNat by omega)

/-- Where the words of `finalChunks` are -/
theorem toNat_sub_33 (hC : 33 ≤ C) : (C - 1 - 32).toNat = C.toNat - 33 := by
  have hC : 33 ≤ C.toNat := UInt32.le_iff_toNat_le.mp hC
  have h1 : (C - 1).toNat = C.toNat - 1 := by
    apply UInt32.toNat_sub_of_le
    exact UInt32.le_iff_toNat_le.mpr (show 1 ≤ C.toNat by omega)
  rw [UInt32.toNat_sub_of_le, h1]
  · show C.toNat - 1 - 32 = C.toNat - 33
    omega
  · apply UInt32.le_iff_toNat_le.mpr
    rw [h1]
    show 32 ≤ C.toNat - 1
    omega

variable {pads' : Nat → Pad}

/-- The words of the first `N` pads below `C` -/
def SameWords (N C : UInt32) (pads pads' : Nat → Pad) : Prop :=
  ∀ padIndex < N.toNat, ∀ chunk < C.toNat, pads padIndex chunk = pads' padIndex chunk

theorem finalChunks_congr (hC : 33 ≤ C) (h : SameWords N C pads pads') :
    finalChunks N C pads = finalChunks N C pads' := by
  have hC' : 33 ≤ C.toNat := UInt32.le_iff_toNat_le.mp hC
  unfold finalChunks
  apply List.flatMap_congr
  intro padIndex hpad
  apply List.map_congr_left
  intro j hj
  apply h padIndex (List.mem_range.mp hpad)
  rw [toNat_sub_33 hC]
  have := List.mem_range.mp hj
  omega

theorem walkStep_congr (hN : 0 < N) (hC : 33 ≤ C) (h : SameWords N C pads pads') :
    walkStep N C pads = walkStep N C pads' := by
  funext st
  unfold walkStep
  rw [h _ (padOf_lt hN st.2) _ (chunkOf_lt hC st.2)]

theorem walkWords_congr (hstep : walkStep N C pads = walkStep N C pads') (n : Nat)
    (st : XorshiftCtx × UInt64) : walkWords N C pads n st = walkWords N C pads' n st := by
  induction n generalizing st with
  | zero => rfl
  | succ n ih =>
      unfold walkWords
      dsimp only
      rw [hstep, ih]

theorem ramhogRunIterations_congr (hN : 0 < N) (hC : 33 ≤ C) (h : SameWords N C pads pads') :
    ramhogRunIterations pbkdf2 input output_size N C I pads
      = ramhogRunIterations pbkdf2 input output_size N C I pads' := by
  have hstep := walkStep_congr hN hC h
  unfold ramhogRunIterations walkStart walkSalt
  dsimp only
  rw [finalChunks_congr hC h, hstep, walkWords_congr hstep]

/-! ## What the generator writes -/

/-- Two generators in one state, over pads that agree so far -/
def Agree (n : Nat) (st st' : XorshiftCtx × Pad) : Prop :=
  st.1 = st'.1 ∧ ∀ chunk < n, st.2 chunk = st'.2 chunk

/-- A chunk depends on earlier chunks only. -/
theorem Agree.genChunk {n : Nat} {st st' : XorshiftCtx × Pad} (h : Agree n st st') :
    Agree (n + 1) (genChunk st n) (genChunk st' n) := by
  obtain ⟨ctx, pad⟩ := st
  obtain ⟨ctx', pad'⟩ := st'
  obtain ⟨rfl, hpad⟩ := h
  have hwritten : ∀ x y : UInt64, x = y → ∀ chunk < n + 1,
      Function.update pad n x chunk = Function.update pad' n y chunk := by
    rintro x _ rfl chunk hlt
    by_cases heq : chunk = n
    · subst heq
      rw [Function.update_self, Function.update_self]
    · rw [Function.update_of_ne heq, Function.update_of_ne heq]
      exact hpad chunk (Nat.lt_of_le_of_ne (Nat.lt_succ_iff.mp hlt) heq)
  unfold ShinyCoin.genChunk
  dsimp only
  split_ifs with hback
  · refine ⟨rfl, hwritten _ _ (congrArg _ (hpad _ ?_))⟩
    have hhalf : 0 < n / 2 := by omega
    have := Nat.mod_lt (ctx.next.2.next.1.toNat) hhalf
    omega
  · exact ⟨rfl, hwritten _ _ rfl⟩

theorem Agree.foldl_genChunk {ctx : XorshiftCtx} (pad pad' : Pad) (n : Nat) :
    Agree n ((List.range n).foldl ShinyCoin.genChunk (ctx, pad))
      ((List.range n).foldl ShinyCoin.genChunk (ctx, pad')) := by
  induction n with
  | zero => exact ⟨rfl, nofun⟩
  | succ n ih =>
      rw [List.range_succ, List.foldl_append, List.foldl_append]
      exact ih.genChunk

/-- The pad is one that the generator has filled. -/
def Generated (pbkdf2 : Pbkdf2) (input : Bytes) (C : UInt32) (padIndex : Nat) (pad : Pad) : Prop :=
  ∃ before, pad = ramhogGenPad pbkdf2 input C padIndex before

theorem Generated.congr {padIndex chunk : Nat} {pad pad' : Pad}
    (h : Generated pbkdf2 input C padIndex pad) (h' : Generated pbkdf2 input C padIndex pad')
    (hlt : chunk < C.toNat) : pad chunk = pad' chunk := by
  obtain ⟨before, rfl⟩ := h
  obtain ⟨before', rfl⟩ := h'
  exact (Agree.foldl_genChunk before before' _).2 chunk
    (Nat.lt_of_lt_of_le hlt (Nat.le_max_right _ _))

/-- The walk over generated pads gives the hash. -/
theorem runIterations_of_generated (hN : 0 < N) (hC : 33 ≤ C)
    (h : ∀ padIndex < N.toNat, Generated pbkdf2 input C padIndex (pads padIndex))
    (scratchpads : Nat → Pad) :
    ramhogRunIterations pbkdf2 input output_size N C I pads
      = ramhog pbkdf2 input output_size N C I scratchpads :=
  ramhogRunIterations_congr hN hC fun padIndex hpad _ hchunk =>
    (h padIndex hpad).congr ⟨scratchpads padIndex, rfl⟩ hchunk

end

end ShinyCoin

import ShinyCoin.Stake.Modifier
import ShinyCoin.Chain.Tree
import ShinyCoin.Lib.Scan

/-!
# Selection of the blocks of a modifier

Where the blocks of a chain are indexed under their hashes, every round finds a block, so that the
next modifier can always be computed on a chain whose modifiers were. What the blocks are looked up
in does not matter then, nor what is above them.
-/

namespace ShinyCoin

/-! ## The order of the candidates -/

/-- In the order of `vSortedByTimestamp`. -/
def CBlockIndex.Before (a b : CBlockIndex) : Prop := toLex a.stamp ≤ toLex b.stamp

instance (a b : CBlockIndex) : Decidable (a.Before b) :=
  inferInstanceAs (Decidable (toLex a.stamp ≤ toLex b.stamp))

instance : IsTrans CBlockIndex CBlockIndex.Before := ⟨fun _ _ _ => le_trans⟩

instance : Std.Refl CBlockIndex.Before := ⟨fun _ => le_refl _⟩

instance : Std.Total CBlockIndex.Before := ⟨fun _ _ => le_total _ _⟩

theorem CBlockIndex.Before.nTime_le {a b : CBlockIndex} (h : a.Before b) : a.nTime ≤ b.nTime := by
  rcases Prod.Lex.toLex_le_toLex.mp h with hlt | ⟨heq, -⟩
  · exact Int.ofNat_le.mp hlt.le
  · exact Int.ofNat_le.mp heq.le

/-- The candidates in this order. -/
def Env.sortedCandidates (env : Env) (pindexPrev : BlockPtr) : List CBlockIndex :=
  (env.candidates pindexPrev).reverse.insertionSort CBlockIndex.Before

section

variable {env : Env} {m m' : Uint256 → Option BlockPtr} {ptr pprev : BlockPtr}
  {p pindexPrev : CBlockIndex} {selected bs : List CBlockIndex} {nStakeModifier : Nat}
  {nSelectionIntervalStop : ℤ}

theorem vSortedByTimestamp_eq (env : Env) (ptr : BlockPtr) :
    env.vSortedByTimestamp ptr = (env.sortedCandidates ptr).map CBlockIndex.stamp := by
  rw [Env.vSortedByTimestamp, Env.sortedCandidates, ← List.map_reverse]
  exact (List.map_insertionSort CBlockIndex.Before (fun a b => toLex a ≤ toLex b) CBlockIndex.stamp
    _ fun _ _ _ _ => Iff.rfl).symm

theorem pairwise_sortedCandidates (env : Env) (ptr : BlockPtr) :
    (env.sortedCandidates ptr).Pairwise CBlockIndex.Before :=
  List.pairwise_insertionSort _ _

theorem perm_sortedCandidates (env : Env) (ptr : BlockPtr) :
    (env.sortedCandidates ptr).Perm (env.candidates ptr) :=
  (List.perm_insertionSort _ _).trans (List.reverse_perm _)

theorem length_vSortedByTimestamp (env : Env) (ptr : BlockPtr) :
    (env.vSortedByTimestamp ptr).length = (env.candidates ptr).length := by
  rw [vSortedByTimestamp_eq, List.length_map, (perm_sortedCandidates env ptr).length_eq]

theorem candidates_subset : env.candidates ptr ⊆ ptr := by
  cases ptr with
  | nil => exact List.Subset.refl _
  | cons pindexPrev pprev => exact (List.takeWhile_sublist _).subset

/-! ## Indexed ancestors -/

/-- A block and all its ancestors are found under their hashes. -/
def AncestorsIndexed (mapBlockIndex : Uint256 → Option BlockPtr) (ptr : BlockPtr) : Prop :=
  ∀ p pprev, (p :: pprev) <:+ ptr → mapBlockIndex p.hashBlock = some (p :: pprev)

theorem AncestorsIndexed.cons (h : AncestorsIndexed m pprev)
    (hp : m p.hashBlock = some (p :: pprev)) : AncestorsIndexed m (p :: pprev) := by
  intro q rest hq
  rcases List.suffix_cons_iff.mp hq with heq | hq
  · cases heq
    exact hp
  · exact h q rest hq

theorem AncestorsIndexed.tail (h : AncestorsIndexed m (p :: pprev)) : AncestorsIndexed m pprev :=
  fun q rest hq => h q rest (hq.trans (List.suffix_cons p pprev))

theorem AncestorsIndexed.exists_of_mem (h : AncestorsIndexed m ptr) (hmem : p ∈ ptr) :
    ∃ pprev, m p.hashBlock = some (p :: pprev) := by
  obtain ⟨before, pprev, rfl⟩ := List.append_of_mem hmem
  exact ⟨pprev, h p pprev (List.suffix_append _ _)⟩

/-- A hash is the hash of one ancestor. -/
theorem AncestorsIndexed.eq_of_hash {q : CBlockIndex} (h : AncestorsIndexed m ptr) (hp : p ∈ ptr)
    (hq : q ∈ ptr) (heq : p.hashBlock = q.hashBlock) : p = q := by
  obtain ⟨pprev, hp⟩ := h.exists_of_mem hp
  obtain ⟨qprev, hq⟩ := h.exists_of_mem hq
  rw [heq, hq] at hp
  cases hp
  rfl

theorem AncestorsIndexed.nodup (h : AncestorsIndexed m ptr) : ptr.Nodup := by
  induction ptr with
  | nil => exact List.nodup_nil
  | cons p pprev ih =>
      refine List.nodup_cons.mpr ⟨fun hmem => ?_, ih h.tail⟩
      obtain ⟨before, rest, rfl⟩ := List.append_of_mem hmem
      -- it would be found with two different lists of ancestors
      have hfirst := h p _ List.suffix_rfl
      have hagain := h p rest ((List.suffix_append before _).trans (List.suffix_cons _ _))
      rw [hfirst, Option.some.injEq, List.cons.injEq] at hagain
      have hlen := congrArg List.length hagain.2
      rw [List.length_append, List.length_cons] at hlen
      omega

theorem nodup_candidates (h : AncestorsIndexed m ptr) : (env.candidates ptr).Nodup := by
  cases ptr with
  | nil => exact List.nodup_nil
  | cons pindexPrev pprev => exact h.nodup.sublist (List.takeWhile_sublist _)

/-! ## One round -/

/-- The loop is a scan of the candidates. -/
theorem selectFrom_eq (env : Env) (selected : List CBlockIndex) (nSelectionIntervalStop : ℤ)
    (nStakeModifier : Nat) (hindexed : ∀ b ∈ bs, ∃ pprev, m b.hashBlock = some (b :: pprev))
    (best : Option CBlockIndex) :
    selectFrom env m selected nSelectionIntervalStop nStakeModifier (bs.map CBlockIndex.stamp)
        (best.map fun b => (selectionHash env nStakeModifier b, b))
      = (Lib.scan (fun b => decide (nSelectionIntervalStop < b.nTime))
          (fun b => selected.any fun p => p.hashBlock == b.hashBlock)
          (selectionHash env nStakeModifier) bs best).map
            fun b => (selectionHash env nStakeModifier b, b) := by
  induction bs generalizing best with
  | nil => rfl
  | cons b bs ih =>
      obtain ⟨pprev, hb⟩ := hindexed b List.mem_cons_self
      have ih := fun best => ih (fun c hc => hindexed c (List.mem_cons_of_mem b hc)) best
      rw [List.map_cons, selectFrom, show b.stamp.2 = b.hashBlock from rfl, hb]
      cases best with
      | none =>
          rw [Lib.scan]
          simp only [Option.map_none, Option.isSome_none, Bool.false_and, Bool.false_eq_true, if_false]
          split
          · exact ih none
          · exact ih (some b)
      | some c =>
          rw [Lib.scan]
          simp only [Option.map_some, Option.isSome_some, Bool.true_and]
          split
          · rfl
          · split
            · exact ih (some c)
            · split
              · exact ih (some b)
              · exact ih (some c)

theorem selectBlockFromCandidates_eq (hindexed : AncestorsIndexed m ptr) :
    selectBlockFromCandidates env m (env.vSortedByTimestamp ptr) selected nSelectionIntervalStop
        nStakeModifier
      = Lib.scan (fun b => decide (nSelectionIntervalStop < b.nTime))
          (fun b => selected.any fun p => p.hashBlock == b.hashBlock)
          (selectionHash env nStakeModifier) (env.sortedCandidates ptr) none := by
  have hfound : ∀ b ∈ env.sortedCandidates ptr, ∃ pprev, m b.hashBlock = some (b :: pprev) :=
    fun b hb => hindexed.exists_of_mem
      (candidates_subset ((perm_sortedCandidates env ptr).mem_iff.mp hb))
  have heq := selectFrom_eq env selected nSelectionIntervalStop nStakeModifier hfound none
  rw [Option.map_none] at heq
  rw [selectBlockFromCandidates, vSortedByTimestamp_eq, heq, Option.map_map]
  exact congrFun Option.map_id _

/-- What a round selects: of the candidates up to the end of the window that are not selected yet
one with the least selection hash, the first of these; if there is none, the first candidate that is
not selected yet. -/
structure Selects (env : Env) (nStakeModifier : Nat) (candidates selected : List CBlockIndex)
    (nSelectionIntervalStop : ℤ) (pindex : CBlockIndex) : Prop where
  mem : pindex ∈ candidates
  fresh : pindex ∉ selected
  least : (∃ b ∈ candidates, b ∉ selected ∧ (b.nTime : ℤ) ≤ nSelectionIntervalStop) →
    (pindex.nTime : ℤ) ≤ nSelectionIntervalStop ∧
      ∀ b ∈ candidates, b ∉ selected → (b.nTime : ℤ) ≤ nSelectionIntervalStop →
        selectionHash env nStakeModifier pindex < selectionHash env nStakeModifier b ∨
          selectionHash env nStakeModifier pindex = selectionHash env nStakeModifier b ∧
            pindex.Before b
  first : (¬ ∃ b ∈ candidates, b ∉ selected ∧ (b.nTime : ℤ) ≤ nSelectionIntervalStop) →
    ∀ b ∈ candidates, b ∉ selected → pindex.Before b

/-- A round selects a block as long as there is a candidate left. -/
theorem exists_selects (nStakeModifier : Nat) (nSelectionIntervalStop : ℤ)
    (hindexed : AncestorsIndexed m ptr) (hsub : selected ⊆ env.candidates ptr)
    (hlt : selected.length < (env.candidates ptr).length) :
    ∃ pindex, selectBlockFromCandidates env m (env.vSortedByTimestamp ptr) selected
        nSelectionIntervalStop nStakeModifier = some pindex ∧
      Selects env nStakeModifier (env.candidates ptr) selected nSelectionIntervalStop pindex := by
  have hmem : ∀ b, b ∈ env.sortedCandidates ptr ↔ b ∈ env.candidates ptr := fun b =>
    (perm_sortedCandidates env ptr).mem_iff
  -- blocks are told apart by their hashes
  have hskip : ∀ b ∈ env.candidates ptr,
      (selected.any fun p => p.hashBlock == b.hashBlock) = false ↔ b ∉ selected := by
    intro b hb
    rw [Bool.eq_false_iff, Ne, not_iff_not, List.any_eq_true]
    constructor
    · rintro ⟨p, hp, heq⟩
      rw [← hindexed.eq_of_hash (candidates_subset (hsub hp)) (candidates_subset hb)
        (beq_iff_eq.mp heq)]
      exact hp
    · exact fun hb => ⟨b, hb, beq_self_eq_true _⟩
  obtain ⟨b, hb, hnot⟩ : ∃ b ∈ env.candidates ptr, b ∉ selected := by
    by_contra hall
    have hall : env.candidates ptr ⊆ selected := fun b hb => by
      by_contra hnot
      exact hall ⟨b, hb, hnot⟩
    have hle := (List.subperm_of_subset (nodup_candidates hindexed) hall).length_le
    omega
  have hlate : ∀ a b : CBlockIndex, a.Before b →
      decide (nSelectionIntervalStop < (a.nTime : ℤ)) = true →
        decide (nSelectionIntervalStop < (b.nTime : ℤ)) = true := by
    intro a b hab hlate
    have := hab.nTime_le
    rw [decide_eq_true_eq] at hlate ⊢
    omega
  have hsome : ∃ b ∈ env.sortedCandidates ptr,
      (selected.any fun p => p.hashBlock == b.hashBlock) = false :=
    ⟨b, (hmem b).mpr hb, (hskip b hb).mpr hnot⟩
  obtain ⟨pindex, hscan, hbest⟩ := Lib.scan_best (selectionHash env nStakeModifier) hlate
    (pairwise_sortedCandidates env ptr) hsome
  rw [selectBlockFromCandidates_eq hindexed]
  have hcandidate := (hmem pindex).mp hbest.mem
  have hex : (∃ b ∈ env.candidates ptr, b ∉ selected ∧ (b.nTime : ℤ) ≤ nSelectionIntervalStop) ↔
      ∃ b ∈ env.sortedCandidates ptr,
        (selected.any fun p => p.hashBlock == b.hashBlock) = false ∧
          decide (nSelectionIntervalStop < (b.nTime : ℤ)) = false := by
    refine exists_congr fun b => ?_
    rw [hmem b]
    refine and_congr_right fun hb => ?_
    rw [hskip b hb, decide_eq_false_iff_not, not_lt]
  refine ⟨pindex, hscan, hcandidate, (hskip pindex hcandidate).mp hbest.notSkipped, ?_, ?_⟩
  · intro hin
    obtain ⟨htime, hbeats⟩ := hbest.inTime (hex.mp hin)
    refine ⟨not_lt.mp (of_decide_eq_false htime), fun b hb hnew htime => ?_⟩
    exact hbeats b ((hmem b).mpr hb) ((hskip b hb).mpr hnew) (decide_eq_false (not_lt.mpr htime))
  · intro hnone b hb hnew
    exact hbest.first (mt hex.mpr hnone) b ((hmem b).mpr hb) ((hskip b hb).mpr hnew)

/-! ## All rounds -/

/-- `nSelectionIntervalStop` when `nRound` sections have been added. -/
def Env.selectionIntervalStop (env : Env) (pindexPrev : CBlockIndex) (nRound : Nat) : ℤ :=
  env.selectionIntervalStart pindexPrev
    + ((List.range nRound).map env.getStakeModifierSelectionIntervalSection).sum

theorem selectionIntervalStop_succ (env : Env) (pindexPrev : CBlockIndex) (nRound : Nat) :
    env.selectionIntervalStop pindexPrev (nRound + 1) = env.selectionIntervalStop pindexPrev nRound
      + env.getStakeModifierSelectionIntervalSection nRound := by
  simp [Env.selectionIntervalStop, List.range_succ, add_assoc]

/-- The locals after some rounds. -/
structure RanRounds (env : Env) (nStakeModifier : Nat) (pindexPrev : CBlockIndex) (pprev : BlockPtr)
    (nRound : Nat) (st : ModifierRounds) : Prop where
  stop : st.nSelectionIntervalStop = env.selectionIntervalStop pindexPrev nRound
  length : st.mapSelectedBlocks.length = nRound
  nodup : st.mapSelectedBlocks.Nodup
  subset : st.mapSelectedBlocks ⊆ env.candidates (pindexPrev :: pprev)
  selects : ∀ r pindex, st.mapSelectedBlocks[r]? = some pindex →
    Selects env nStakeModifier (env.candidates (pindexPrev :: pprev)) (st.mapSelectedBlocks.take r)
      (env.selectionIntervalStop pindexPrev (r + 1)) pindex
  /-- Every bit of the modifier is the bit of a selected block. -/
  bits : ∀ r, st.nStakeModifierNew.testBit r =
    st.mapSelectedBlocks[r]?.any fun pindex => pindex.getStakeEntropyBit == 1

theorem getStakeEntropyBit_le (p : CBlockIndex) : p.getStakeEntropyBit ≤ 1 := by
  have : p.nFlags &&& BLOCK_STAKE_ENTROPY ≤ 2 := Nat.and_le_right
  rw [CBlockIndex.getStakeEntropyBit, Nat.shiftRight_eq_div_pow]
  omega

theorem testBit_or_entropy (n nRound r : Nat) (p : CBlockIndex) :
    (n ||| p.getStakeEntropyBit <<< nRound).testBit r
      = (n.testBit r || decide (r = nRound) && p.getStakeEntropyBit == 1) := by
  rw [Nat.testBit_or, Nat.testBit_shiftLeft]
  congr 1
  have hbit : p.getStakeEntropyBit = 0 ∨ p.getStakeEntropyBit = 1 := by
    have := getStakeEntropyBit_le p
    omega
  rcases hbit with h | h
  · simp [h]
  · rw [h]
    by_cases hr : r = nRound
    · simp [hr]
    · simp only [hr, decide_false, Bool.false_and, Bool.and_eq_false_imp, decide_eq_true_eq]
      intro hge
      rw [Bool.eq_false_iff, Ne, Nat.testBit_one_eq_true_iff_self_eq_zero]
      omega

theorem RanRounds.step {nRound : Nat} {st : ModifierRounds}
    (hindexed : AncestorsIndexed m (pindexPrev :: pprev))
    (h : RanRounds env nStakeModifier pindexPrev pprev nRound st)
    (hlt : nRound < (env.candidates (pindexPrev :: pprev)).length) :
    ∃ st', modifierRound env m (env.vSortedByTimestamp (pindexPrev :: pprev)) nStakeModifier st nRound
        = some st' ∧ RanRounds env nStakeModifier pindexPrev pprev (nRound + 1) st' := by
  have hstop : st.nSelectionIntervalStop + env.getStakeModifierSelectionIntervalSection nRound
      = env.selectionIntervalStop pindexPrev (nRound + 1) := by
    rw [selectionIntervalStop_succ, h.stop]
  have hleft : st.mapSelectedBlocks.length < (env.candidates (pindexPrev :: pprev)).length := by
    rw [h.length]
    exact hlt
  obtain ⟨pindex, hselect, hsel⟩ := exists_selects nStakeModifier
    (env.selectionIntervalStop pindexPrev (nRound + 1)) hindexed h.subset hleft
  have hlength : (st.mapSelectedBlocks ++ [pindex]).length = nRound + 1 := by
    rw [List.length_append, h.length, List.length_singleton]
  have hround : modifierRound env m (env.vSortedByTimestamp (pindexPrev :: pprev)) nStakeModifier st
      nRound = some
        { nSelectionIntervalStop := env.selectionIntervalStop pindexPrev (nRound + 1)
          nStakeModifierNew := st.nStakeModifierNew ||| pindex.getStakeEntropyBit <<< nRound
          mapSelectedBlocks := st.mapSelectedBlocks ++ [pindex] } := by
    simp only [modifierRound, hstop, hselect, Option.map_some]
  refine ⟨_, hround, ?_⟩
  constructor
  case stop => rfl
  case length => exact hlength
  case nodup =>
    rw [← List.concat_eq_append, List.nodup_concat]
    exact ⟨hsel.fresh, h.nodup⟩
  case subset =>
    refine List.append_subset.mpr ⟨h.subset, ?_⟩
    exact List.cons_subset.mpr ⟨hsel.mem, List.nil_subset _⟩
  case selects =>
    intro r q hq
    dsimp only at hq ⊢
    rcases lt_trichotomy r nRound with hr | rfl | hr
    · rw [List.getElem?_append_left (h.length ▸ hr)] at hq
      rw [List.take_append_of_le_length (h.length ▸ hr.le)]
      exact h.selects r q hq
    · rw [← h.length, List.getElem?_concat_length] at hq
      cases hq
      rw [List.take_append_of_le_length h.length.ge, List.take_of_length_le h.length.le]
      exact hsel
    · rw [List.getElem?_eq_none (hlength.trans_le hr)] at hq
      cases hq
  case bits =>
    intro r
    dsimp only
    rw [testBit_or_entropy, h.bits]
    rcases lt_trichotomy r nRound with hr | rfl | hr
    · rw [List.getElem?_append_left (h.length ▸ hr)]
      simp [hr.ne]
    · rw [List.getElem?_eq_none h.length.le, ← h.length, List.getElem?_concat_length]
      simp
    · rw [List.getElem?_eq_none (hlength.trans_le hr),
        List.getElem?_eq_none (h.length.trans_le hr.le)]
      simp [hr.ne']

/-- As many rounds as there are candidates select a block each. -/
theorem exists_ranRounds (hindexed : AncestorsIndexed m (pindexPrev :: pprev)) {n : Nat}
    (hle : n ≤ (env.candidates (pindexPrev :: pprev)).length) :
    ∃ st, (List.range n).foldlM
        (modifierRound env m (env.vSortedByTimestamp (pindexPrev :: pprev)) nStakeModifier)
        { nSelectionIntervalStop := env.selectionIntervalStart pindexPrev } = some st ∧
      RanRounds env nStakeModifier pindexPrev pprev n st := by
  induction n with
  | zero =>
      refine ⟨_, rfl, ?_, rfl, List.nodup_nil, List.nil_subset _, ?_, ?_⟩
      · simp [Env.selectionIntervalStop]
      · intro r pindex h
        cases h
      · intro r
        simp
  | succ n ih =>
      obtain ⟨st, hst, hran⟩ := ih (by omega)
      obtain ⟨st', hst', hran'⟩ := hran.step hindexed hle
      refine ⟨st', ?_, hran'⟩
      rw [List.range_succ, List.foldlM_append, hst]
      simp [hst']

theorem exists_modifierRounds (env : Env) (nStakeModifier : Nat)
    (hindexed : AncestorsIndexed m (pindexPrev :: pprev)) :
    ∃ st, modifierRounds env m nStakeModifier pindexPrev pprev = some st ∧
      RanRounds env nStakeModifier pindexPrev pprev
        (min 64 (env.candidates (pindexPrev :: pprev)).length) st := by
  rw [modifierRounds, length_vSortedByTimestamp]
  exact exists_ranRounds hindexed (min_le_right _ _)

/-- It does not matter where the ancestors are looked up. -/
theorem modifierRounds_congr (hindexed : AncestorsIndexed m (pindexPrev :: pprev))
    (hindexed' : AncestorsIndexed m' (pindexPrev :: pprev)) :
    modifierRounds env m nStakeModifier pindexPrev pprev
      = modifierRounds env m' nStakeModifier pindexPrev pprev := by
  have hround : modifierRound env m (env.vSortedByTimestamp (pindexPrev :: pprev)) nStakeModifier
      = modifierRound env m' (env.vSortedByTimestamp (pindexPrev :: pprev)) nStakeModifier := by
    funext st nRound
    rw [modifierRound, modifierRound, selectBlockFromCandidates_eq hindexed,
      selectBlockFromCandidates_eq hindexed']
  rw [modifierRounds, modifierRounds, hround]

/-! ## Chains of computed modifiers -/

/-- A chain from its genesis block on, each of whose modifiers was computed when its ancestors were
indexed. -/
inductive ModifierChain (env : Env) : BlockPtr → Prop
  | nil : ModifierChain env []
  | cons {mapBlockIndex : Uint256 → Option BlockPtr} {pindex : CBlockIndex} {pprev : BlockPtr} :
      ModifierChain env pprev → AncestorsIndexed mapBlockIndex pprev →
      computeNextStakeModifier env mapBlockIndex (pindex :: pprev)
        = some (pindex.nStakeModifier, pindex.generatedStakeModifier) →
      ModifierChain env (pindex :: pprev)

theorem ModifierChain.of_suffix (h : ModifierChain env ptr) (hsuf : pprev <:+ ptr) :
    ModifierChain env pprev := by
  induction h with
  | nil => exact List.suffix_nil.mp hsuf ▸ .nil
  | cons hchain hindexed hcompute ih =>
      rcases List.suffix_cons_iff.mp hsuf with rfl | hsuf
      · exact .cons hchain hindexed hcompute
      · exact ih hsuf

/-- The genesis block generates a modifier. -/
theorem ModifierChain.exists_getLastStakeModifier (h : ModifierChain env ptr) (hne : ptr ≠ []) :
    ∃ nStakeModifier nModifierTime,
      ptr.getLastStakeModifier = some (nStakeModifier, nModifierTime) := by
  induction h with
  | nil => exact absurd rfl hne
  | @cons m p pprev hchain hindexed hcompute ih =>
      rw [BlockPtr.getLastStakeModifier]
      split
      next => exact ⟨_, _, rfl⟩
      next hgen =>
        apply ih
        rintro rfl
        rw [computeNextStakeModifier, Option.some.injEq, Prod.mk.injEq] at hcompute
        exact hgen hcompute.2.symm

/-- What is computed above a block: the last modifier is kept, or the rounds make a new one. -/
theorem computeNextStakeModifier_cons (env : Env) (m : Uint256 → Option BlockPtr)
    (pindexCurrent : CBlockIndex) {nModifierTime : ℤ}
    (hlast : BlockPtr.getLastStakeModifier (pindexPrev :: pprev)
      = some (nStakeModifier, nModifierTime)) :
    computeNextStakeModifier env m (pindexCurrent :: pindexPrev :: pprev) =
      if (pindexPrev.nTime : ℤ) / env.nModifierInterval ≤ nModifierTime / env.nModifierInterval ∨
          (pindexCurrent.nTime : ℤ) / env.nModifierInterval
              ≤ nModifierTime / env.nModifierInterval ∧
            env.isProtocolV04 pindexCurrent.nTime then
        some (nStakeModifier, false)
      else (modifierRounds env m nStakeModifier pindexPrev pprev).map fun st =>
        (st.nStakeModifierNew, true) := by
  rw [computeNextStakeModifier, hlast, Option.bind_eq_bind, Option.bind_some]
  dsimp only
  by_cases hprev : (pindexPrev.nTime : ℤ) / env.nModifierInterval
      ≤ nModifierTime / env.nModifierInterval
  · rw [if_pos hprev, if_pos (.inl hprev)]
    rfl
  · by_cases hcurrent : (pindexCurrent.nTime : ℤ) / env.nModifierInterval
          ≤ nModifierTime / env.nModifierInterval ∧ env.isProtocolV04 pindexCurrent.nTime
    · rw [if_neg hprev, if_pos hcurrent, if_pos (.inr hcurrent)]
      rfl
    · rw [if_neg hprev, if_neg hcurrent, if_neg (not_or.mpr ⟨hprev, hcurrent⟩)]
      cases modifierRounds env m nStakeModifier pindexPrev pprev with
      | none => rfl
      | some st => rfl

theorem computeNextStakeModifier_congr {pindexCurrent pindexCurrent' : CBlockIndex}
    (hchain : ModifierChain env pprev) (hindexed : AncestorsIndexed m pprev)
    (hindexed' : AncestorsIndexed m' pprev) (htime : pindexCurrent.nTime = pindexCurrent'.nTime) :
    computeNextStakeModifier env m (pindexCurrent :: pprev)
      = computeNextStakeModifier env m' (pindexCurrent' :: pprev) := by
  cases pprev with
  | nil => rfl
  | cons pindexPrev pprev =>
      obtain ⟨nStakeModifier, nModifierTime, hlast⟩ :=
        hchain.exists_getLastStakeModifier (List.cons_ne_nil _ _)
      rw [computeNextStakeModifier_cons env m pindexCurrent hlast,
        computeNextStakeModifier_cons env m' pindexCurrent' hlast, htime,
        modifierRounds_congr hindexed hindexed']

theorem exists_computeNextStakeModifier (pindexCurrent : CBlockIndex)
    (hchain : ModifierChain env pprev) (hindexed : AncestorsIndexed m pprev) :
    ∃ nStakeModifier fGeneratedStakeModifier,
      computeNextStakeModifier env m (pindexCurrent :: pprev)
        = some (nStakeModifier, fGeneratedStakeModifier) := by
  cases pprev with
  | nil => exact ⟨0, true, rfl⟩
  | cons pindexPrev pprev =>
      obtain ⟨nStakeModifier, nModifierTime, hlast⟩ :=
        hchain.exists_getLastStakeModifier (List.cons_ne_nil _ _)
      obtain ⟨st, hst, -⟩ := exists_modifierRounds env nStakeModifier hindexed
      rw [computeNextStakeModifier_cons env m pindexCurrent hlast, hst]
      split
      · exact ⟨_, _, rfl⟩
      · exact ⟨_, _, rfl⟩

theorem ranRounds_of_generated {pindexCurrent : CBlockIndex} {nStakeModifierNew : Nat}
    (hchain : ModifierChain env (pindexPrev :: pprev))
    (hindexed : AncestorsIndexed m (pindexPrev :: pprev))
    (h : computeNextStakeModifier env m (pindexCurrent :: pindexPrev :: pprev)
      = some (nStakeModifierNew, true)) :
    ∃ nStakeModifier nModifierTime st,
      BlockPtr.getLastStakeModifier (pindexPrev :: pprev) = some (nStakeModifier, nModifierTime) ∧
      modifierRounds env m nStakeModifier pindexPrev pprev = some st ∧
      st.nStakeModifierNew = nStakeModifierNew ∧
      RanRounds env nStakeModifier pindexPrev pprev
        (min 64 (env.candidates (pindexPrev :: pprev)).length) st := by
  obtain ⟨nStakeModifier, nModifierTime, hlast⟩ :=
    hchain.exists_getLastStakeModifier (List.cons_ne_nil _ _)
  obtain ⟨st, hst, hran⟩ := exists_modifierRounds env nStakeModifier hindexed
  refine ⟨nStakeModifier, nModifierTime, st, hlast, hst, ?_, hran⟩
  rw [computeNextStakeModifier_cons env m pindexCurrent hlast, hst] at h
  split at h
  · cases h
  · cases h
    rfl

/-! ## Indexing a block -/

theorem generatedStakeModifier_flags (fProofOfStake noEntropy fGenerated : Bool) :
    ((((if fProofOfStake then BLOCK_PROOF_OF_STAKE else 0) |||
        (if noEntropy then 0 else BLOCK_STAKE_ENTROPY)) |||
        (if fGenerated then BLOCK_STAKE_MODIFIER else 0)) &&& BLOCK_STAKE_MODIFIER != 0)
      = fGenerated := by
  revert fProofOfStake noEntropy fGenerated
  decide

/-- `AddToBlockIndex` makes a chain longer by a modifier that was computed. -/
theorem ModifierChain.fill {kernel : StakeKernel} {block : CBlock} {nFile nBlockPos : Nat}
    (hchain : ModifierChain env pprev) (hindexed : AncestorsIndexed m pprev)
    (hkernel : kernel.nextStakeModifier = computeNextStakeModifier env m)
    (h : kernel.fill block (block.newIndex env nFile nBlockPos pprev) pprev = .ok p) :
    ModifierChain env (p :: pprev) := by
  refine .cons hchain hindexed ?_
  rw [StakeKernel.fill] at h
  obtain ⟨-, h⟩ := Lib.seq_eq_ok.mp h
  obtain ⟨-, h⟩ := Lib.seq_eq_ok.mp h
  rw [StakeKernel.setStakeModifier, hkernel] at h
  split at h
  next => cases h
  next nStakeModifier fGenerated hcompute =>
    obtain ⟨-, h⟩ := Lib.seq_eq_ok.mp h
    cases h
    have hflags := generatedStakeModifier_flags block.isProofOfStake
      (decide (kernel.nEntropyBit = 0)) fGenerated
    simp only [decide_eq_true_eq] at hflags
    refine Eq.trans ?_ (hcompute.trans ?_)
    · exact computeNextStakeModifier_congr hchain hindexed hindexed rfl
    · exact congrArg (fun b => some (nStakeModifier, b)) hflags.symm

theorem TreeInv.ancestorsIndexed {full : Files} (h : TreeInv env full m) {hash : Uint256}
    (hptr : m hash = some ptr) : AncestorsIndexed m ptr :=
  fun _ _ hsuf => h.inTree hptr _ (BlockPtr.mem_path.mpr ⟨List.cons_ne_nil _ _, hsuf⟩)

/-! ## The selection -/

/-- On a chain whose modifiers were computed every block has a last modifier, and the next one can
be computed. When it is a new one, as many rounds have been made as there are candidates, at most
64, and each has selected the best block of its window. The ancestors and the time of a block decide
its modifier. -/
theorem stake_modifier_selection (hchain : ModifierChain env pprev)
    (hindexed : AncestorsIndexed m pprev) :
    (∀ ptr, ptr ≠ [] → ptr <:+ pprev → ∃ nStakeModifier nModifierTime,
      BlockPtr.getLastStakeModifier ptr = some (nStakeModifier, nModifierTime)) ∧
    (∀ pindexCurrent, ∃ nStakeModifier fGeneratedStakeModifier,
      computeNextStakeModifier env m (pindexCurrent :: pprev)
        = some (nStakeModifier, fGeneratedStakeModifier)) ∧
    (∀ pindexCurrent pindexPrev rest nStakeModifierNew, pprev = pindexPrev :: rest →
      computeNextStakeModifier env m (pindexCurrent :: pprev) = some (nStakeModifierNew, true) →
      ∃ nStakeModifier nModifierTime st,
        pprev.getLastStakeModifier = some (nStakeModifier, nModifierTime) ∧
        modifierRounds env m nStakeModifier pindexPrev rest = some st ∧
        st.nStakeModifierNew = nStakeModifierNew ∧
        RanRounds env nStakeModifier pindexPrev rest (min 64 (env.candidates pprev).length) st) ∧
    ∀ m' pindexCurrent pindexCurrent', AncestorsIndexed m' pprev →
      pindexCurrent.nTime = pindexCurrent'.nTime →
      computeNextStakeModifier env m (pindexCurrent :: pprev)
        = computeNextStakeModifier env m' (pindexCurrent' :: pprev) := by
  refine ⟨?_, ?_, ?_, ?_⟩
  · intro ptr hne hsuf
    exact (hchain.of_suffix hsuf).exists_getLastStakeModifier hne
  · intro pindexCurrent
    exact exists_computeNextStakeModifier pindexCurrent hchain hindexed
  · rintro pindexCurrent pindexPrev rest nStakeModifierNew rfl h
    exact ranRounds_of_generated hchain hindexed h
  · intro m' pindexCurrent pindexCurrent' hindexed' htime
    exact computeNextStakeModifier_congr hchain hindexed hindexed' htime

end

/-- A genesis block, and a block of the next interval. -/
def modifierGenesis : CBlockIndex where
  hashBlock := 1
  nFile := 1
  nBlockPos := 0
  nFlags := BLOCK_STAKE_MODIFIER

def modifierBlock : CBlockIndex where
  hashBlock := 2
  nFile := 1
  nBlockPos := 1000
  nFlags := BLOCK_STAKE_ENTROPY
  nTime := 6000

def modifierIndex (hash : Uint256) : Option BlockPtr :=
  if hash = 1 then some [modifierGenesis]
  else if hash = 2 then some [modifierBlock, modifierGenesis]
  else none

/-- Above these two blocks a modifier is generated, of both of them. -/
theorem stake_modifier_selection_modifierBlock :
    ∃ nStakeModifier nModifierTime st,
      BlockPtr.getLastStakeModifier [modifierBlock, modifierGenesis]
        = some (nStakeModifier, nModifierTime) ∧
      modifierRounds Env.plain modifierIndex nStakeModifier modifierBlock [modifierGenesis]
        = some st ∧
      RanRounds Env.plain nStakeModifier modifierBlock [modifierGenesis] 2 st := by
  have hgenesis : AncestorsIndexed modifierIndex [modifierGenesis] :=
    AncestorsIndexed.cons (fun _ _ hsuf => absurd (List.suffix_nil.mp hsuf) (List.cons_ne_nil _ _)) rfl
  have hindexed : AncestorsIndexed modifierIndex [modifierBlock, modifierGenesis] :=
    hgenesis.cons rfl
  have hchain : ModifierChain Env.plain [modifierBlock, modifierGenesis] :=
    .cons (.cons .nil hgenesis.tail rfl) hgenesis (by decide)
  obtain ⟨-, hcompute, hgenerated, -⟩ := stake_modifier_selection hchain hindexed
  obtain ⟨nStakeModifierNew, fGenerated, h⟩ :=
    hcompute { modifierBlock with hashBlock := 3, nTime := 12000 }
  have hnew : fGenerated = true := by
    rw [computeNextStakeModifier_cons Env.plain modifierIndex _ rfl, if_neg (by decide)] at h
    obtain ⟨st, -, hst⟩ := Option.map_eq_some_iff.mp h
    exact (Prod.mk.inj hst).2.symm
  subst hnew
  obtain ⟨nStakeModifier, nModifierTime, st, hlast, hst, -, hran⟩ := hgenerated _ _ _ _ rfl h
  exact ⟨nStakeModifier, nModifierTime, st, hlast, hst, hran⟩

end ShinyCoin

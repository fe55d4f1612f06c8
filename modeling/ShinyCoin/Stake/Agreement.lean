import ShinyCoin.Stake.Kernel
import ShinyCoin.Sync.Safety

/-!
# When two nodes agree on a proof of stake

The modifier of a kernel is found along `pnext`, so what `CheckProofOfStake` answers depends on the
chain the node follows, not on the ancestors of the block it checks. Two nodes agree when their main
chains share the block that ends the selection interval after the staked output, or when neither
chain has come to such a block. Otherwise they need not, and then a block that one of them takes is
refused by the other.
-/

namespace ShinyCoin

/-! ## The walk along the main chain -/

/-- Following `pnext` from `ptr` leads through the blocks of the list, the lowest first. -/
def Linked (pnext : Lib.PMap Uint256 BlockPtr) : BlockPtr → List CBlockIndex → Prop
  | _, [] => True
  | ptr, p :: blocks => pnext (BlockPtr.hash ptr) = some (p :: ptr) ∧ Linked pnext (p :: ptr) blocks

/-- The block has a modifier of its own, a selection interval later than `pindexFrom`. -/
def CBlockIndex.endsInterval (env : Env) (pindexFrom p : CBlockIndex) : Bool :=
  p.generatedStakeModifier &&
    decide ((pindexFrom.nTime : ℤ) + env.getStakeModifierSelectionInterval ≤ p.nTime)

namespace NodeState

variable {env : Env} {s : NodeState} {pindexFrom p : CBlockIndex} {blocks : List CBlockIndex}
  {ptr : BlockPtr} {nTime : ℤ} {fuel : Nat}

/-- The modifier's time is short of the interval until a block ends it. -/
theorem modifierTime_lt
    (htime : nTime < pindexFrom.nTime + env.getStakeModifierSelectionInterval)
    (hends : pindexFrom.endsInterval env p = false) :
    (if p.generatedStakeModifier then (p.nTime : ℤ) else nTime)
      < pindexFrom.nTime + env.getStakeModifierSelectionInterval := by
  unfold CBlockIndex.endsInterval at hends
  split
  · next hgen =>
    rw [hgen, Bool.true_and, decide_eq_false_iff_not] at hends
    exact not_le.mp hends
  · exact htime

theorem modifierLoop_ends (hends : pindexFrom.endsInterval env p = true) :
    s.modifierLoop env pindexFrom fuel (p :: ptr)
      (if p.generatedStakeModifier then p.nTime else nTime) = some p.nStakeModifier := by
  unfold CBlockIndex.endsInterval at hends
  obtain ⟨hgen, hlate⟩ := Bool.and_eq_true_iff.mp hends
  unfold modifierLoop
  rw [if_pos hgen, if_neg (not_lt.mpr (of_decide_eq_true hlate))]
  rfl

/-- The loop stops at the first block that ends the interval. -/
theorem modifierLoop_linked (hlinked : Linked s.pnext ptr blocks)
    (htime : nTime < pindexFrom.nTime + env.getStakeModifierSelectionInterval)
    (hfind : blocks.find? (pindexFrom.endsInterval env) = some p) (hfuel : blocks.length ≤ fuel) :
    s.modifierLoop env pindexFrom fuel ptr nTime = some p.nStakeModifier := by
  induction blocks generalizing ptr nTime fuel with
  | nil => cases hfind
  | cons q blocks ih =>
      obtain ⟨hnext, hlinked⟩ := hlinked
      cases fuel with
      | zero => cases hfuel
      | succ fuel =>
          unfold modifierLoop
          rw [if_pos htime, hnext]
          cases hq : pindexFrom.endsInterval env q with
          | true =>
              rw [List.find?_cons_of_pos hq] at hfind
              cases hfind
              exact modifierLoop_ends hq
          | false =>
              rw [List.find?_cons_of_neg (by simp [hq])] at hfind
              exact ih hlinked (modifierTime_lt htime hq) hfind (Nat.le_of_succ_le_succ hfuel)

/-- Where the chain ends before the interval does, there is no modifier. -/
theorem modifierLoop_behind (hlinked : Linked s.pnext ptr blocks)
    (htime : nTime < pindexFrom.nTime + env.getStakeModifierSelectionInterval)
    (hnone : ∀ p ∈ blocks, pindexFrom.endsInterval env p = false)
    (hend : s.pnext (BlockPtr.hash (blocks.reverse ++ ptr)) = none) :
    s.modifierLoop env pindexFrom fuel ptr nTime = none := by
  induction blocks generalizing ptr nTime fuel with
  | nil =>
      unfold modifierLoop
      rw [if_pos htime, show s.pnext (BlockPtr.hash ptr) = none from hend]
      cases fuel <;> rfl
  | cons q blocks ih =>
      obtain ⟨hnext, hlinked⟩ := hlinked
      unfold modifierLoop
      rw [if_pos htime, hnext]
      cases fuel with
      | zero => rfl
      | succ fuel =>
          apply ih hlinked (modifierTime_lt htime (hnone q List.mem_cons_self))
          · exact fun p hp => hnone p (List.mem_cons_of_mem _ hp)
          · rw [List.reverse_cons, List.append_assoc] at hend
            exact hend

end NodeState

/-! ## The length of the walk -/

/-- The blocks follow `ptr` on the main chain, and the last of them is indexed. -/
structure Follows (s : NodeState) (ptr : BlockPtr) (blocks : List CBlockIndex) : Prop where
  linked : Linked s.pnext ptr blocks
  indexed : s.mapBlockIndex (BlockPtr.hash (blocks.reverse ++ ptr)) = some (blocks.reverse ++ ptr)

theorem Linked.last {pnext : Lib.PMap Uint256 BlockPtr} {ptr : BlockPtr} {p : CBlockIndex}
    {blocks : List CBlockIndex} (h : Linked pnext ptr (blocks ++ [p])) :
    pnext (BlockPtr.hash (blocks.reverse ++ ptr)) = some (p :: (blocks.reverse ++ ptr)) := by
  induction blocks generalizing ptr with
  | nil => exact h.1
  | cons q blocks ih =>
      rw [List.reverse_cons, List.append_assoc]
      exact ih h.2

/-- No more blocks follow one another than the best chain has. -/
theorem Follows.length_le {env : Env} {full : Files} {s : NodeState} {ptr : BlockPtr}
    {blocks : List CBlockIndex} (h : Follows s ptr blocks) (hp : Pointers env full s)
    (hne : ptr ≠ []) : blocks.length ≤ s.pindexBest.length := by
  rcases List.eq_nil_or_concat blocks with rfl | ⟨below, p, rfl⟩
  · exact Nat.zero_le _
  · obtain ⟨hlinked, hindexed⟩ := h
    rw [List.concat_eq_append] at hlinked hindexed ⊢
    -- the block below the last one has a `pnext`, so it is on the best chain
    obtain ⟨y, hy, hsuf, hhash⟩ := hp.next _ _ hlinked.last
    rw [List.reverse_append, List.append_assoc] at hindexed
    have hbelow : below.reverse ++ ptr ≠ [] := by simp [hne]
    have hbest := hsuf.trans (List.tail_suffix s.pindexBest)
    have hymap := hp.tree.inTree hp.best y (BlockPtr.mem_path.mpr ⟨hy, hbest⟩)
    have heq : below.reverse ++ ptr = y := by
      apply hp.eq_of_hash hindexed hbelow (List.suffix_cons p _)
      rw [← hhash]
      exact hymap
    have hlen := hsuf.length_le
    have hcount := congrArg List.length heq
    rw [List.length_tail] at hlen
    rw [List.length_append, List.length_reverse] at hcount
    rw [List.length_append, List.length_singleton]
    have hpos := List.length_pos_of_ne_nil hne
    omega

/-! ## Agreement -/

/-- Two nodes have recorded a block alike, as far as the kernel looks. -/
structure RecordedAlike (p q : CBlockIndex) : Prop where
  hashBlock : p.hashBlock = q.hashBlock
  nTime : p.nTime = q.nTime
  generated : p.generatedStakeModifier = q.generatedStakeModifier
  nStakeModifier : p.nStakeModifier = q.nStakeModifier

/-- How the main chains of two nodes may run above the block of a staked output. -/
inductive ChainsAgree (env : Env) (s₁ s₂ : NodeState) (pindexFrom : CBlockIndex)
    (ptr₁ ptr₂ : BlockPtr) : Prop where
  /-- They share the blocks up to one that ends the selection interval. -/
  | reached {blocks₁ blocks₂ : List CBlockIndex} (h₁ : Follows s₁ ptr₁ blocks₁)
      (h₂ : Follows s₂ ptr₂ blocks₂) (hsame : List.Forall₂ RecordedAlike blocks₁ blocks₂)
      (hends : ∃ p ∈ blocks₁, pindexFrom.endsInterval env p = true)
  /-- Both end before there is one. -/
  | behind {blocks₁ blocks₂ : List CBlockIndex} (h₁ : Follows s₁ ptr₁ blocks₁)
      (h₂ : Follows s₂ ptr₂ blocks₂)
      (hnone : ∀ p ∈ blocks₁ ++ blocks₂, pindexFrom.endsInterval env p = false)
      (hend₁ : s₁.pnext (BlockPtr.hash (blocks₁.reverse ++ ptr₁)) = none)
      (hend₂ : s₂.pnext (BlockPtr.hash (blocks₂.reverse ++ ptr₂)) = none)

/-- The output that is staked: its transaction is at the offset in the block `header`, which is
indexed at `ptr`. -/
structure StakedIn (env : Env) (files : Files) (s : NodeState) (prevout : COutPoint)
    (txPrev : CTransaction) (header : CBlockHeader) (nTxPrevOffset : Nat) (ptr : BlockPtr) :
    Prop where
  onDisk : ∃ txindex, readFromDisk files s.txdb.data.txIndex prevout = some (txPrev, txindex) ∧
    files.readHeaderAt txindex.pos.nFile txindex.pos.nBlockPos = some header ∧
    txindex.offset = nTxPrevOffset
  indexed : s.mapBlockIndex (env.getIDHash header) = some ptr

section

variable {env : Env} {full₁ full₂ files₁ files₂ : Files} {s₁ s₂ : NodeState}
  {p₁ p₂ : CBlockIndex} {pprev₁ pprev₂ : BlockPtr} {blocks₁ blocks₂ : List CBlockIndex}

theorem RecordedAlike.endsInterval (hfrom : RecordedAlike p₁ p₂) {q₁ q₂ : CBlockIndex}
    (h : RecordedAlike q₁ q₂) (env : Env) : p₁.endsInterval env q₁ = p₂.endsInterval env q₂ := by
  unfold CBlockIndex.endsInterval
  rw [hfrom.nTime, h.nTime, h.generated]

/-- Chains that are recorded alike end the interval at the same block. -/
theorem find?_endsInterval (hfrom : RecordedAlike p₁ p₂)
    (h : List.Forall₂ RecordedAlike blocks₁ blocks₂)
    (hends : ∃ p ∈ blocks₁, p₁.endsInterval env p = true) :
    ∃ q₁ q₂, blocks₁.find? (p₁.endsInterval env) = some q₁ ∧
      blocks₂.find? (p₂.endsInterval env) = some q₂ ∧ q₁.nStakeModifier = q₂.nStakeModifier := by
  induction h with
  | nil =>
      obtain ⟨p, hp, -⟩ := hends
      cases hp
  | @cons q₁ q₂ blocks₁ blocks₂ hq _ ih =>
      have hsame := hfrom.endsInterval hq env
      cases h₁ : p₁.endsInterval env q₁ with
      | true =>
          rw [h₁] at hsame
          exact ⟨q₁, q₂, List.find?_cons_of_pos h₁, List.find?_cons_of_pos hsame.symm,
            hq.nStakeModifier⟩
      | false =>
          rw [h₁] at hsame
          rw [List.find?_cons_of_neg (by simp [h₁]), List.find?_cons_of_neg (by simp [← hsame])]
          apply ih
          obtain ⟨p, hp, hends⟩ := hends
          rcases List.mem_cons.mp hp with rfl | hp
          · rw [h₁] at hends
            cases hends
          · exact ⟨p, hp, hends⟩

/-- The block of the staked output starts the walk, short of the interval. -/
theorem getKernelStakeModifier_eq {s : NodeState} {hash : Uint256} {p : CBlockIndex}
    {pprev : BlockPtr} (h : s.mapBlockIndex hash = some (p :: pprev)) :
    s.getKernelStakeModifier env hash
      = s.modifierLoop env p s.pindexBest.length (p :: pprev) p.nTime := by
  unfold NodeState.getKernelStakeModifier
  rw [h]

theorem getKernelStakeModifier_agrees (hp₁ : Pointers env full₁ s₁) (hp₂ : Pointers env full₂ s₂)
    {hash : Uint256} (h₁ : s₁.mapBlockIndex hash = some (p₁ :: pprev₁))
    (h₂ : s₂.mapBlockIndex hash = some (p₂ :: pprev₂)) (hfrom : RecordedAlike p₁ p₂)
    (hagree : ChainsAgree env s₁ s₂ p₁ (p₁ :: pprev₁) (p₂ :: pprev₂)) :
    s₁.getKernelStakeModifier env hash = s₂.getKernelStakeModifier env hash := by
  rw [getKernelStakeModifier_eq h₁, getKernelStakeModifier_eq h₂]
  have hshort : ∀ p : CBlockIndex,
      (p.nTime : ℤ) < p.nTime + env.getStakeModifierSelectionInterval := by
    intro p
    have := env.getStakeModifierSelectionInterval_pos
    omega
  cases hagree with
  | reached hf₁ hf₂ hsame hends =>
      obtain ⟨q₁, q₂, hq₁, hq₂, hmodifier⟩ := find?_endsInterval hfrom hsame hends
      have hlen₁ := hf₁.length_le hp₁ (List.cons_ne_nil _ _)
      have hlen₂ := hf₂.length_le hp₂ (List.cons_ne_nil _ _)
      rw [NodeState.modifierLoop_linked hf₁.linked (hshort p₁) hq₁ hlen₁,
        NodeState.modifierLoop_linked hf₂.linked (hshort p₂) hq₂ hlen₂, hmodifier]
  | @behind blocks₁ blocks₂ hf₁ hf₂ hnone hend₁ hend₂ =>
      have hnone₂ : ∀ p ∈ blocks₂, p₂.endsInterval env p = false := by
        intro p hp
        have := hnone p (List.mem_append_right _ hp)
        unfold CBlockIndex.endsInterval at this ⊢
        rw [← hfrom.nTime]
        exact this
      rw [NodeState.modifierLoop_behind hf₁.linked (hshort p₁)
          (fun p hp => hnone p (List.mem_append_left _ hp)) hend₁,
        NodeState.modifierLoop_behind hf₂.linked (hshort p₂) hnone₂ hend₂]

/-- Above a block of the best chain the walk goes to the best block, where it ends. -/
theorem NodeInv.follows {full : Files} {s : NodeState} (h : NodeInv env full s)
    {ptr : BlockPtr} {blocks : List CBlockIndex} (hbest : s.pindexBest = blocks.reverse ++ ptr)
    (hne : ptr ≠ []) : Follows s ptr blocks ∧ s.pnext (BlockPtr.hash s.pindexBest) = none := by
  have htip : s.pindexBest ≠ [] := by simp [hbest, hne]
  refine ⟨⟨?_, ?_⟩, ?_⟩
  · clear htip
    induction blocks generalizing ptr with
    | nil => trivial
    | cons q blocks ih =>
        rw [List.reverse_cons, List.append_assoc] at hbest
        refine ⟨(h.next _ _).mpr ⟨?_, hne, rfl⟩, ih hbest (List.cons_ne_nil _ _)⟩
        rw [BlockPtr.mem_path, hbest]
        exact ⟨List.cons_ne_nil _ _, List.suffix_append _ _⟩
  · rw [← hbest]
    exact h.best htip
  · cases hnext : s.pnext (BlockPtr.hash s.pindexBest) with
    | none => rfl
    | some x =>
        obtain ⟨hmem, hx, hhash⟩ := (h.next _ _).mp hnext
        exact absurd hhash (h.inTree.tail_hash_ne hmem hx)

/-- Where pointers and databases agree, the modifier is that of the first block of the best chain,
above the staked output's, that ends the selection interval. -/
theorem NodeInv.getKernelStakeModifier_eq {full : Files} {s : NodeState} (h : NodeInv env full s)
    {p : CBlockIndex} {pprev : BlockPtr} {blocks : List CBlockIndex}
    (hbest : s.pindexBest = blocks.reverse ++ p :: pprev) :
    s.getKernelStakeModifier env p.hashBlock
      = (blocks.find? (p.endsInterval env)).map CBlockIndex.nStakeModifier := by
  obtain ⟨hf, hend⟩ := h.follows hbest (List.cons_ne_nil _ _)
  have hindexed : s.mapBlockIndex p.hashBlock = some (p :: pprev) := by
    apply h.inTree (p :: pprev)
    rw [BlockPtr.mem_path, hbest]
    exact ⟨List.cons_ne_nil _ _, List.suffix_append _ _⟩
  have hshort : (p.nTime : ℤ) < p.nTime + env.getStakeModifierSelectionInterval := by
    have := env.getStakeModifierSelectionInterval_pos
    omega
  rw [ShinyCoin.getKernelStakeModifier_eq hindexed]
  cases hfind : blocks.find? (p.endsInterval env) with
  | some q =>
      apply NodeState.modifierLoop_linked hf.linked hshort hfind
      simp [hbest]
  | none =>
      apply NodeState.modifierLoop_behind hf.linked hshort
      · simpa using hfind
      · rw [← hbest]
        exact hend

/-- Where the chains agree, so do the answers: outside the modifier `CheckProofOfStake` reads nothing
but the staked output, its block and the coinstake. -/
theorem checkProofOfStake_agrees (hp₁ : Pointers env full₁ s₁) (hp₂ : Pointers env full₂ s₂)
    {tx txPrev : CTransaction} {txin : CTxIn} {header : CBlockHeader} {nTxPrevOffset : Nat}
    (hvin : tx.vin.head? = some txin)
    (h₁ : StakedIn env files₁ s₁ txin.prevout txPrev header nTxPrevOffset (p₁ :: pprev₁))
    (h₂ : StakedIn env files₂ s₂ txin.prevout txPrev header nTxPrevOffset (p₂ :: pprev₂))
    (hagree : env.isProtocolV03 tx.nTime = true →
      RecordedAlike p₁ p₂ ∧ ChainsAgree env s₁ s₂ p₁ (p₁ :: pprev₁) (p₂ :: pprev₂))
    (nBits : Nat) (hashProofOfStake : Uint256) :
    s₁.checkProofOfStake env files₁ tx nBits hashProofOfStake
      = s₂.checkProofOfStake env files₂ tx nBits hashProofOfStake := by
  obtain ⟨⟨txindex₁, hread₁, hheader₁, hoff₁⟩, hindexed₁⟩ := h₁
  obtain ⟨⟨txindex₂, hread₂, hheader₂, hoff₂⟩, hindexed₂⟩ := h₂
  have hseed : s₁.kernelSeed env nBits header tx.nTime = s₂.kernelSeed env nBits header tx.nTime := by
    unfold NodeState.kernelSeed
    cases hv03 : env.isProtocolV03 tx.nTime with
    | false => rfl
    | true =>
        obtain ⟨hfrom, hchains⟩ := hagree hv03
        rw [getKernelStakeModifier_agrees hp₁ hp₂ hindexed₁ hindexed₂ hfrom hchains]
  have hkernel : s₁.checkStakeKernelHash env nBits header nTxPrevOffset txPrev txin.prevout tx.nTime
        hashProofOfStake
      = s₂.checkStakeKernelHash env nBits header nTxPrevOffset txPrev txin.prevout tx.nTime
        hashProofOfStake := by
    unfold NodeState.checkStakeKernelHash
    rw [hseed]
  obtain ⟨txins, hcons⟩ : ∃ txins, tx.vin = txin :: txins := by
    obtain ⟨ys, hys⟩ := List.head?_eq_some_iff.mp hvin
    exact ⟨ys, hys⟩
  unfold NodeState.checkProofOfStake
  rw [hcons]
  cases tx.isCoinStake with
  | false => rfl
  | true => simp only [hread₁, hread₂, hheader₁, hheader₂, hoff₁, hoff₂, hkernel]

end

/-! ## Two runs -/

/-- A node after a run that started on its sync checkpoint. -/
def SyncState.After (senv : SyncEnv) (full : Files) (s : SyncState) : Prop :=
  ∃ s₀ ops, Pointers senv.toEnv full s₀.node ∧ (∃ c, OnCheckpoint s₀.node c) ∧
    (∀ op ∈ ops, op.DiskOk full) ∧ SyncState.run senv ops s₀ = some s

theorem SyncState.After.pointers {senv : SyncEnv} {full : Files} {s : SyncState}
    (h : s.After senv full) : Pointers senv.toEnv full s.node := by
  obtain ⟨s₀, ops, hp, ⟨c, hc⟩, hdisk, hrun⟩ := h
  exact (steps_safe hp hc (run_steps hdisk hrun)).1

/-- Two nodes, whatever blocks they received and in whatever order, answer alike on a coinstake whose
output both have in the same block: under the v0.2 rule always, and under the v0.3 rule where their
main chains share the block that ends the selection interval after the output, or have not come to
one yet. -/
theorem proof_of_stake_of_chains (senv : SyncEnv) (full₁ full₂ files₁ files₂ : Files)
    (s₁ s₂ : SyncState) (h₁ : s₁.After senv full₁) (h₂ : s₂.After senv full₂)
    (tx txPrev : CTransaction) (txin : CTxIn) (hvin : tx.vin.head? = some txin)
    (header : CBlockHeader) (nTxPrevOffset : Nat) (p₁ p₂ : CBlockIndex) (pprev₁ pprev₂ : BlockPtr)
    (hin₁ : StakedIn senv.toEnv files₁ s₁.node txin.prevout txPrev header nTxPrevOffset
      (p₁ :: pprev₁))
    (hin₂ : StakedIn senv.toEnv files₂ s₂.node txin.prevout txPrev header nTxPrevOffset
      (p₂ :: pprev₂))
    (hagree : senv.isProtocolV03 tx.nTime = true → RecordedAlike p₁ p₂ ∧
      ChainsAgree senv.toEnv s₁.node s₂.node p₁ (p₁ :: pprev₁) (p₂ :: pprev₂))
    (nBits : Nat) (hashProofOfStake : Uint256) :
    s₁.node.checkProofOfStake senv.toEnv files₁ tx nBits hashProofOfStake
      = s₂.node.checkProofOfStake senv.toEnv files₂ tx nBits hashProofOfStake :=
  checkProofOfStake_agrees h₁.pointers h₂.pointers hvin hin₁ hin₂ hagree nBits hashProofOfStake

/-! ### Two branches

A coin of the block `blockS` is staked. Above it are two blocks of the same trust, and only `blockX`
is later by a selection interval. -/

def kernelEnv : SyncEnv :=
  { plainSync with
    isProtocolV03 := fun _ => true
    nStakeMinAge := 60 * 60 * 24 * 7
    computeNextStakeModifier := fun ptr => some (0, decide (ptr.length ≠ 2)) }

/-- The block with the staked coin. -/
def blockS : CBlock := { forkBlock 1 1 [forkCoinbase 1 COIN] with nTime := 6 }

def blockX : CBlock := { forkBlock 2 2 [forkCoinbase 200000 COIN] with nTime := 200000 }
def blockY : CBlock := { forkBlock 3 2 [forkCoinbase 3 COIN] with nTime := 7 }
def blockZ : CBlock := { forkBlock 4 3 [forkCoinbase 200001 COIN] with nTime := 200001 }

def kernelFiles : Files where
  block nFile nBlockPos :=
    match nFile, nBlockPos with
    | 1, 0 => some forkGenesis
    | 1, 1000 => some blockS
    | 1, 2000 => some blockX
    | 1, 3000 => some blockY
    | 1, 4000 => some blockZ
    | _, _ => none
  tx pos := if pos = ⟨1, 1000, 1081⟩ then some (forkCoinbase 1 COIN) else none

/-- A block is written where it is on file. -/
def kernelDisk (block : CBlock) : Disk where
  files := kernelFiles
  writeToDisk := if kernelFiles.block 1 (1000 * block.nNonce) = some block then
    some (1, 1000 * block.nNonce) else none

/-- The clock is set, and the blocks arrive. -/
def kernelRun (blocks : List CBlock) : List SyncOp :=
  .other {} [] 200000 :: blocks.map (SyncOp.block kernelDisk)

def indexS : CBlockIndex := blockS.newIndex kernelEnv.toEnv 1 1000 [indexG]

def indexX : CBlockIndex :=
  { blockX.newIndex kernelEnv.toEnv 1 2000 [indexS, indexG] with nFlags := BLOCK_STAKE_MODIFIER }

/-- A coinstake that stakes the coinbase of `blockS`. -/
def kernelTx : CTransaction := { stakeTx with nTime := 700000, vin := [{ prevout := ⟨2, 0⟩ }] }

/-- Its block is on top of `blockX`. -/
def kernelBlock : CBlock :=
  { forkBlock 9 3 [forkCoinbase 700000 0, kernelTx] with nTime := 700000 }

theorem pointers_kernelStart : Pointers kernelEnv.toEnv kernelFiles syncStart.node := by
  refine ⟨treeInv_syncStart rfl rfl rfl, rfl, rfl, ?_, ?_, ?_, ?_⟩
  · decide +kernel
  · decide +kernel
  · decide +kernel
  · intro k ptr hk
    cases hk

theorem kernelRun_after {blocks : List CBlock} {s : SyncState}
    (h : SyncState.run kernelEnv (kernelRun blocks) syncStart = some s) :
    s.After kernelEnv kernelFiles := by
  refine ⟨syncStart, _, pointers_kernelStart, ⟨[indexG], rfl, List.suffix_rfl⟩, ?_, h⟩
  intro op hop
  rcases List.mem_cons.mp hop with rfl | hop
  · trivial
  · obtain ⟨block, -, rfl⟩ := List.mem_map.mp hop
    intro b
    refine ⟨⟨fun _ _ _ h => h, fun _ _ h => h⟩, ?_⟩
    intro nFile nBlockPos hpos
    unfold kernelDisk at hpos
    split at hpos
    · next hfile =>
      cases hpos
      exact ⟨by decide, hfile⟩
    · cases hpos

/-- What both nodes have, and are asked for: the ancestors of `kernelBlock`, and the staked output in
`blockS` on their main chains. -/
structure KnowsKernel (s : NodeState) : Prop where
  ancestors : s.mapBlockIndex kernelBlock.hashPrevBlock = some [indexX, indexS, indexG]
  inMainChain : s.isInMainChain [indexS, indexG] = true
  stakedIn : StakedIn kernelEnv.toEnv kernelFiles s ⟨2, 0⟩ (forkCoinbase 1 COIN)
    blockS.toCBlockHeader 81 [indexS, indexG]

/-- What a run shows of the state it ends in. -/
theorem eq_of_run {α : Type} {x : Option SyncState} {s : SyncState} (hs : x = some s)
    {f : SyncState → α} {a : α} (h : x.map f = some a) : f s = a := by
  rw [hs] at h
  exact Option.some.inj h

theorem knowsKernel_of_run {x : Option SyncState} {s : SyncState} (hs : x = some s)
    (h : x.map (fun s => (s.node.mapBlockIndex 3, s.node.isInMainChain [indexS, indexG],
      s.node.txdb.data.txIndex 2, s.node.mapBlockIndex 2))
      = some (some [indexX, indexS, indexG], true, some (CTxIndex.new ⟨1, 1000, 1081⟩ 1),
        some [indexS, indexG])) : KnowsKernel s.node := by
  have hall := eq_of_run hs h
  simp only [Prod.mk.injEq] at hall
  obtain ⟨hX, hmain, htx, hS⟩ := hall
  refine ⟨hX, hmain, ⟨CTxIndex.new ⟨1, 1000, 1081⟩ 1, ?_, rfl, by decide⟩, hS⟩
  unfold readFromDisk
  rw [htx]
  rfl

/-- The answer on the coinstake of `kernelBlock`. -/
def kernelVerdict (s : SyncState) : StakeVerdict :=
  s.node.checkProofOfStake kernelEnv.toEnv kernelFiles kernelTx kernelBlock.nBits 0

/-- The node that received `blockX` first takes the coinstake, the one that received `blockY` first
refuses it, although both know every ancestor of its block and have the staked output in the same
block of their main chains. -/
theorem not_proof_of_stake_local :
    kernelBlock.isProofOfStake = true ∧ kernelBlock.vtx[1]? = some kernelTx ∧
      ∃ s₁ s₂, SyncState.run kernelEnv (kernelRun [blockS, blockX, blockY]) syncStart = some s₁ ∧
        SyncState.run kernelEnv (kernelRun [blockS, blockY, blockX]) syncStart = some s₂ ∧
        s₁.After kernelEnv kernelFiles ∧ s₂.After kernelEnv kernelFiles ∧
        KnowsKernel s₁.node ∧ KnowsKernel s₂.node ∧
        kernelVerdict s₁ = ⟨true, 0, 0⟩ ∧ kernelVerdict s₂ = ⟨false, 1, 0⟩ := by
  have hrun₁ : (SyncState.run kernelEnv (kernelRun [blockS, blockX, blockY]) syncStart).isSome
      = true := by decide +kernel
  have hrun₂ : (SyncState.run kernelEnv (kernelRun [blockS, blockY, blockX]) syncStart).isSome
      = true := by decide +kernel
  obtain ⟨s₁, hs₁⟩ := Option.isSome_iff_exists.mp hrun₁
  obtain ⟨s₂, hs₂⟩ := Option.isSome_iff_exists.mp hrun₂
  exact ⟨by decide, rfl, s₁, s₂, hs₁, hs₂, kernelRun_after hs₁, kernelRun_after hs₂,
    knowsKernel_of_run hs₁ (by decide +kernel), knowsKernel_of_run hs₂ (by decide +kernel),
    eq_of_run hs₁ (f := kernelVerdict) (by decide +kernel),
    eq_of_run hs₂ (f := kernelVerdict) (by decide +kernel)⟩

/-- A third node, that went from `blockY` to `blockX` and on to `blockZ`, answers as the first. -/
theorem proof_of_stake_of_chains_kernelTx :
    ∃ s₁ s₂, SyncState.run kernelEnv (kernelRun [blockS, blockX, blockY]) syncStart = some s₁ ∧
      SyncState.run kernelEnv (kernelRun [blockS, blockY, blockX, blockZ]) syncStart = some s₂ ∧
      kernelVerdict s₁ = kernelVerdict s₂ := by
  have hrun₁ : (SyncState.run kernelEnv (kernelRun [blockS, blockX, blockY]) syncStart).isSome
      = true := by decide +kernel
  have hrun₂ : (SyncState.run kernelEnv (kernelRun [blockS, blockY, blockX, blockZ])
      syncStart).isSome = true := by decide +kernel
  obtain ⟨s₁, hs₁⟩ := Option.isSome_iff_exists.mp hrun₁
  obtain ⟨s₂, hs₂⟩ := Option.isSome_iff_exists.mp hrun₂
  have hk₁ : KnowsKernel s₁.node := knowsKernel_of_run hs₁ (by decide +kernel)
  have hk₂ : KnowsKernel s₂.node := knowsKernel_of_run hs₂ (by decide +kernel)
  have hnext₁ : s₁.node.pnext 2 = some [indexX, indexS, indexG] :=
    eq_of_run hs₁ (f := fun s => s.node.pnext 2) (by decide +kernel)
  have hnext₂ : s₂.node.pnext 2 = some [indexX, indexS, indexG] :=
    eq_of_run hs₂ (f := fun s => s.node.pnext 2) (by decide +kernel)
  have hf₁ : Follows s₁.node [indexS, indexG] [indexX] := ⟨⟨hnext₁, trivial⟩, hk₁.ancestors⟩
  have hf₂ : Follows s₂.node [indexS, indexG] [indexX] := ⟨⟨hnext₂, trivial⟩, hk₂.ancestors⟩
  have hagree : ChainsAgree kernelEnv.toEnv s₁.node s₂.node indexS [indexS, indexG]
      [indexS, indexG] :=
    .reached hf₁ hf₂ (.cons ⟨rfl, rfl, rfl, rfl⟩ .nil)
      ⟨indexX, List.mem_singleton_self _, by decide⟩
  exact ⟨s₁, s₂, hs₁, hs₂, proof_of_stake_of_chains kernelEnv kernelFiles kernelFiles kernelFiles
    kernelFiles s₁ s₂ (kernelRun_after hs₁) (kernelRun_after hs₂) kernelTx _ _ rfl _ _ _ _ _ _
    hk₁.stakedIn hk₂.stakedIn (fun _ => ⟨⟨rfl, rfl, rfl, rfl⟩, hagree⟩) _ _⟩

end ShinyCoin

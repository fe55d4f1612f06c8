import ShinyCoin.Sync.Followers
import ShinyCoin.Chain.MedianTime
import ShinyCoin.Chain.Retarget

/-!
# The rules for a block under its parent

`AcceptBlock` asks something of a block that only its ancestors can answer: its target, its time, and
at some heights its hash. What it asked holds of every branch of the index in every run. So no target is
easier than the limit, and two nodes whose best chains have passed a hardened checkpoint have the same
chain up to there, whatever blocks, messages and disks they had.
-/

namespace ShinyCoin

/-- What `AcceptBlock` asks of a block under its parent. -/
structure UnderRules (senv : SyncEnv) (p pindexPrev : CBlockIndex) (pprev : BlockPtr) : Prop where
  nBits : p.nBits = senv.getNextTargetRequired (pindexPrev :: pprev) p.isProofOfStake
  late : BlockPtr.getMedianTimePast (pindexPrev :: pprev) < p.nTime
  drift : (pindexPrev.nTime : ℤ) ≤ p.nTime + nMaxClockDrift
  hardened : senv.checkHardened p.nHeight p.hashBlock = true

/-- Every block of the branch but the first is under the rules. -/
def Ruled (senv : SyncEnv) : BlockPtr → Prop
  | p :: pindexPrev :: pprev => UnderRules senv p pindexPrev pprev ∧ Ruled senv (pindexPrev :: pprev)
  | _ => True

section

variable {senv : SyncEnv} {full : Files} {s s' : SyncState} {c ptr ancestor : BlockPtr}

theorem Ruled.timely (h : Ruled senv ptr) : ptr.Timely := by
  induction ptr with
  | nil => trivial
  | cons p pprev ih =>
      cases pprev with
      | nil => trivial
      | cons pindexPrev pprev => exact ⟨h.1.late, ih h.2⟩

theorem Ruled.suffix (h : Ruled senv ptr) (hsuf : ancestor <:+ ptr) : Ruled senv ancestor := by
  induction ptr with
  | nil =>
      rw [List.suffix_nil.mp hsuf]
      trivial
  | cons p pprev ih =>
      rcases List.suffix_cons_iff.mp hsuf with rfl | hsuf
      · exact h
      · refine ih ?_ hsuf
        cases pprev with
        | nil => trivial
        | cons pindexPrev pprev => exact h.2

/-- A block that passes the checks, as the entry that it gets. -/
theorem CBlock.underRules_of_checkContext {block : CBlock} {kernel : StakeKernel}
    {nFile nBlockPos : Nat} {p pindexPrev : CBlockIndex} {pprev : BlockPtr} {t : NodeState}
    (hcheck : block.checkContext senv t pindexPrev pprev = .ok ())
    (hfill : kernel.fill block (block.newIndex senv.toEnv nFile nBlockPos (pindexPrev :: pprev))
      (pindexPrev :: pprev) = .ok p) : UnderRules senv p pindexPrev pprev := by
  obtain ⟨nStakeModifier, fGenerated, hp⟩ := StakeKernel.fill_eq hfill
  have hpos : p.isProofOfStake = block.isProofOfStake := by
    rw [hp]
    exact isProofOfStake_flags block.isProofOfStake kernel.nEntropyBit fGenerated
  have htime : p.nTime = block.nTime := by rw [hp]; rfl
  unfold checkContext at hcheck
  obtain ⟨hbits, hcheck⟩ := Lib.seq_eq_ok.mp hcheck
  obtain ⟨hlate, hcheck⟩ := Lib.seq_eq_ok.mp hcheck
  obtain ⟨-, hcheck⟩ := Lib.seq_eq_ok.mp hcheck
  obtain ⟨hhardened, -⟩ := Lib.seq_eq_ok.mp hcheck
  rw [Lib.require_eq_ok, beq_iff_eq] at hbits
  rw [Lib.require_eq_ok, Bool.and_eq_true, decide_eq_true_eq, decide_eq_true_eq] at hlate
  rw [Lib.require_eq_ok] at hhardened
  refine ⟨?_, ?_, ?_, ?_⟩
  · rw [hpos, ← hbits, hp]
    rfl
  · rw [htime]
    exact hlate.1
  · rw [htime]
    exact hlate.2
  · rw [hp]
    exact hhardened

/-! ## What a step adds to the index -/

/-- A step leaves the index as it is, or adds one block that passed the checks. -/
theorem SyncStep.mapBlockIndex_cases (hp : Pointers senv.toEnv full s.node)
    (hc : OnCheckpoint s.node c) (h : SyncStep senv full s s') :
    s'.node.mapBlockIndex = s.node.mapBlockIndex ∨
      ∃ p pindexPrev pprev, s.node.mapBlockIndex (BlockPtr.hash (pindexPrev :: pprev))
          = some (pindexPrev :: pprev) ∧ UnderRules senv p pindexPrev pprev ∧
        (HeightsMaintained (pindexPrev :: pprev) → HeightsMaintained (p :: pindexPrev :: pprev)) ∧
        s'.node.mapBlockIndex = s.node.mapBlockIndex.set p.hashBlock (p :: pindexPrev :: pprev) := by
  have hsame : s'.node = s.node → s'.node.mapBlockIndex = s.node.mapBlockIndex :=
    congrArg NodeState.mapBlockIndex
  cases h with
  | books hnode _ => exact .inl hnode.mapBlockIndex
  | checkpoint hdisk h =>
      rcases processSyncCheckpoint_enters hp hc h with ⟨heq, -⟩ | ⟨caller, ptr, hptr, hsuf, hne, h⟩
      · exact .inl (hsame heq)
      · exact .inl (enterCheckpoint_safe hp hc hdisk hptr hsuf hne h).2.2
  | pending hdisk h =>
      rcases acceptPendingSyncCheckpoint_enters hp hc h
        with ⟨heq, -⟩ | ⟨-, caller, ptr, hptr, hsuf, hne, h⟩
      · exact .inl (hsame heq)
      · exact .inl (enterCheckpoint_safe hp hc hdisk hptr hsuf hne h).2.2
  | @index disk block nFile nBlockPos pindexPrev pprev hprev hcheck hdisk hpos h =>
      rcases CBlock.indexBlock_cases hp hprev hdisk hpos h with heq | ⟨p, hfill, hE, -, -, htried⟩
      · exact .inl (hsame heq)
      · exact .inr ⟨p, pindexPrev, pprev, hE.parent (List.cons_ne_nil _ _),
          CBlock.underRules_of_checkContext hcheck hfill, fun hheights => hheights.add hE.hashPrevBlock hfill,
          htried.mapBlockIndex⟩

/-! ## Every branch of the index, in every run -/

/-- A property of branches is kept where a block that passes the checks keeps it. -/
def KeptByRules (senv : SyncEnv) (P : BlockPtr → Prop) : Prop :=
  ∀ p pindexPrev pprev, P (pindexPrev :: pprev) → UnderRules senv p pindexPrev pprev →
    (HeightsMaintained (pindexPrev :: pprev) → HeightsMaintained (p :: pindexPrev :: pprev)) →
    P (p :: pindexPrev :: pprev)

/-- Every branch of the index has it. -/
def AllBranches (P : BlockPtr → Prop) (node : NodeState) : Prop :=
  ∀ k ptr, node.mapBlockIndex k = some ptr → P ptr

theorem SyncStep.allBranches {P : BlockPtr → Prop} (hP : KeptByRules senv P) (h : AllBranches P s.node)
    (hp : Pointers senv.toEnv full s.node) (hc : OnCheckpoint s.node c)
    (hstep : SyncStep senv full s s') : AllBranches P s'.node := by
  intro k ptr hptr
  rcases hstep.mapBlockIndex_cases hp hc
    with hmap | ⟨p, pindexPrev, pprev, hprev, hrules, hheights, hmap⟩
  · rw [hmap] at hptr
    exact h k ptr hptr
  · rw [hmap, Lib.PMap.set_apply] at hptr
    split at hptr
    · cases hptr
      exact hP p pindexPrev pprev (h _ _ hprev) hrules hheights
    · exact h k ptr hptr

open Relation in
theorem steps_allBranches {P : BlockPtr → Prop} (hP : KeptByRules senv P) (h : AllBranches P s.node)
    (hp : Pointers senv.toEnv full s.node) (hc : OnCheckpoint s.node c)
    (hsteps : ReflTransGen (SyncStep senv full) s s') : AllBranches P s'.node := by
  induction hsteps with
  | refl => exact h
  | tail hbefore hstep ih =>
      obtain ⟨hp₁, c₁, hc₁, -⟩ := steps_safe hp hc hbefore
      exact hstep.allBranches hP ih hp₁ hc₁

theorem keptByRules_ruled (senv : SyncEnv) : KeptByRules senv (Ruled senv) :=
  fun _ _ _ h hrules _ => ⟨hrules, h⟩

/-- In every run, on every branch of the index, best chain or not: every block but the first has the
target that its ancestors set for its kind, is later than their median time past, is at most two hours
before its parent and passes the checkpoint for its height. So the median time past does not fall
along any branch. -/
theorem index_ruled (senv : SyncEnv) (full : Files) (s₀ : SyncState)
    (hp : Pointers senv.toEnv full s₀.node) (hc : ∃ c, OnCheckpoint s₀.node c)
    (hstart : AllBranches (Ruled senv) s₀.node) (ops : List SyncOp) (hdisk : ∀ op ∈ ops, op.DiskOk full) :
    ∀ ops₁, ops₁ <+: ops → ∀ s, SyncState.run senv ops₁ s₀ = some s →
      ∀ k ptr, s.node.mapBlockIndex k = some ptr →
        ∀ p pindexPrev pprev, p :: pindexPrev :: pprev <:+ ptr →
          UnderRules senv p pindexPrev pprev ∧
            BlockPtr.getMedianTimePast (pindexPrev :: pprev)
              ≤ BlockPtr.getMedianTimePast (p :: pindexPrev :: pprev) := by
  obtain ⟨c, hc⟩ := hc
  intro ops₁ hpre s hrun k ptr hptr p pindexPrev pprev hsuf
  have hsteps := run_steps (fun op hop => hdisk op (hpre.subset hop)) hrun
  have hruled := steps_allBranches (keptByRules_ruled senv) hstart hp hc hsteps k ptr hptr
  exact ⟨(hruled.suffix hsuf).1, (BlockPtr.medianTimePast_mono hruled.timely).1 _ _ _ hsuf⟩

end

/-! ### A checkpoint above the genesis block -/

/-- The first block has to be `awaitedBlock`. -/
def lockedSync : SyncEnv :=
  { plainSync with mapCheckpoints := fun nHeight => if nHeight = 1 then some 2 else none }

/-- The genesis block and the one on top of it -/
def firstFiles (block : CBlock) : Files where
  block nFile nBlockPos :=
    match nFile, nBlockPos with
    | 1, 0 => some forkGenesis
    | 1, 1000 => some block
    | _, _ => none
  tx pos := if pos = ⟨1, 1000, 1081⟩ then some (forkCoinbase 1 COIN) else none

def firstDisk (first block : CBlock) : Disk where
  files := firstFiles first
  writeToDisk := if block = first then some (1, 1000) else none

theorem firstDisk_ok (first block : CBlock) : (firstDisk first block).Ok (firstFiles first) block := by
  refine ⟨⟨fun _ _ _ h => h, fun _ _ h => h⟩, ?_⟩
  intro nFile nBlockPos hpos
  unfold firstDisk at hpos
  split at hpos
  · next hblock =>
    cases hpos
    rw [hblock]
    exact ⟨by decide, rfl⟩
  · cases hpos

theorem firstDisk_diskOk (first : CBlock) (blocks : List CBlock) :
    ∀ op ∈ blocks.map (SyncOp.block (firstDisk first)), op.DiskOk (firstFiles first) := by
  intro op hop
  obtain ⟨block, -, rfl⟩ := List.mem_map.mp hop
  exact firstDisk_ok first

theorem allBranches_syncStart {P : BlockPtr → Prop} (h : P [indexG]) : AllBranches P syncStart.node := by
  have htree : syncStart.node.mapBlockIndex = Lib.PMap.empty.set 1 [indexG] := rfl
  intro k ptr hk
  rw [htree, Lib.PMap.set_apply] at hk
  split at hk
  · cases hk
    exact h
  · cases hk

theorem index_ruled_awaitedBlock :
    ∃ s p, SyncState.run lockedSync [.block (firstDisk awaitedBlock) awaitedBlock] syncStart = some s ∧
      s.node.mapBlockIndex 2 = some [p, indexG] ∧ UnderRules lockedSync p indexG [] := by
  obtain ⟨p, hrun⟩ : ∃ p, (SyncState.run lockedSync [.block (firstDisk awaitedBlock) awaitedBlock]
      syncStart).map (fun s => s.node.mapBlockIndex 2) = some (some [p, indexG]) := ⟨_, rfl⟩
  obtain ⟨s, hs, hin⟩ := Option.map_eq_some_iff.mp hrun
  have hrules := index_ruled lockedSync (firstFiles awaitedBlock) syncStart (pointers_syncStart rfl)
    ⟨[indexG], rfl, List.suffix_rfl⟩ (allBranches_syncStart trivial) _
    (firstDisk_diskOk awaitedBlock [awaitedBlock]) _ List.prefix_rfl s hs 2 _ hin p indexG []
    List.suffix_rfl
  exact ⟨s, p, hs, hin, hrules.1⟩

/-! ## Targets -/

/-- The node's rule for targets is `GetNextTargetRequired`. -/
def SyncEnv.Retargets (senv : SyncEnv) : Prop :=
  ∀ ptr fProofOfStake nBits, ShinyCoin.getNextTargetRequired senv.fTestNet ptr fProofOfStake = some nBits →
    senv.getNextTargetRequired ptr fProofOfStake = nBits

/-- Heights as they should be, and no target that is negative or easier than the limit -/
structure Targeted (fTestNet : Bool) (ptr : BlockPtr) : Prop where
  heights : HeightsMaintained ptr
  nonneg : ∀ q ∈ ptr, 0 ≤ setCompact q.nBits
  le_limit : ∀ q ∈ ptr, setCompact q.nBits ≤ bnNewProofOfWorkLimit fTestNet

theorem keptByRules_targeted {senv : SyncEnv} (hretargets : senv.Retargets) :
    KeptByRules senv (Targeted senv.fTestNet) := by
  intro p pindexPrev pprev h hrules hheights
  obtain ⟨nBits, hsome, hnonneg, hle⟩ := getNextTargetRequired_le_limit senv.fTestNet h.heights
    h.nonneg p.isProofOfStake
  have hbits : p.nBits = nBits := hrules.nBits.trans (hretargets _ _ _ hsome)
  refine ⟨hheights h.heights, ?_, ?_⟩
  · rw [← hbits] at hnonneg
    exact List.forall_mem_cons.mpr ⟨hnonneg, h.nonneg⟩
  · rw [← hbits] at hle
    exact List.forall_mem_cons.mpr ⟨hle, h.le_limit⟩

/-- In every run of a node that takes its targets from `GetNextTargetRequired`, on every branch of the
index: heights and heights by proof of work count the blocks, no target is negative or easier than the
limit, and `GetNextTargetRequired` has a target for the next block of either kind. -/
theorem targets_bounded (senv : SyncEnv) (full : Files) (s₀ : SyncState)
    (hp : Pointers senv.toEnv full s₀.node) (hc : ∃ c, OnCheckpoint s₀.node c)
    (hretargets : senv.Retargets) (hstart : AllBranches (Targeted senv.fTestNet) s₀.node)
    (ops : List SyncOp) (hdisk : ∀ op ∈ ops, op.DiskOk full) :
    ∀ ops₁, ops₁ <+: ops → ∀ s, SyncState.run senv ops₁ s₀ = some s →
      ∀ k ptr, s.node.mapBlockIndex k = some ptr →
        Targeted senv.fTestNet ptr ∧ ∀ fProofOfStake, ∃ nBits,
          getNextTargetRequired senv.fTestNet ptr fProofOfStake = some nBits ∧
            setCompact nBits ≤ bnNewProofOfWorkLimit senv.fTestNet := by
  obtain ⟨c, hc⟩ := hc
  intro ops₁ hpre s hrun k ptr hptr
  have hsteps := run_steps (fun op hop => hdisk op (hpre.subset hop)) hrun
  have htargeted := steps_allBranches (keptByRules_targeted hretargets) hstart hp hc hsteps k ptr hptr
  refine ⟨htargeted, fun fProofOfStake => ?_⟩
  obtain ⟨p, pprev, rfl⟩ :=
    List.exists_cons_of_ne_nil ((steps_safe hp hc hsteps).1.ptr_ne_nil hptr).1
  obtain ⟨nBits, hsome, -, hle⟩ := getNextTargetRequired_le_limit senv.fTestNet htargeted.heights
    htargeted.nonneg fProofOfStake
  exact ⟨nBits, hsome, hle⟩

def retargetSync : SyncEnv :=
  { plainSync with
    getNextTargetRequired := fun ptr fProofOfStake =>
      (getNextTargetRequired false ptr fProofOfStake).getD 0 }

/-- Its target is the limit for the first blocks. -/
def limitBlock : CBlock := { awaitedBlock with nBits := 0x1e7fffff }

theorem targets_bounded_limitBlock :
    ∃ s p, SyncState.run retargetSync [.block (firstDisk limitBlock) limitBlock] syncStart = some s ∧
      s.node.mapBlockIndex 2 = some [p, indexG] ∧ p.nBits = 0x1e7fffff ∧
      Targeted false [p, indexG] := by
  have hrun : (SyncState.run retargetSync [.block (firstDisk limitBlock) limitBlock] syncStart).map
      (fun s => (s.node.mapBlockIndex 2).map fun ptr => (ptr.head?.map CBlockIndex.nBits, ptr.tail))
      = some (some (some 0x1e7fffff, [indexG])) := by decide +kernel
  obtain ⟨s, hs, hin⟩ := Option.map_eq_some_iff.mp hrun
  obtain ⟨ptr, hin, hptr⟩ := Option.map_eq_some_iff.mp hin
  obtain ⟨hhead, htail⟩ := Prod.mk.inj hptr
  obtain ⟨p, hhead, hbits⟩ := Option.map_eq_some_iff.mp hhead
  rw [← List.cons_head?_tail hhead, htail] at hin
  have hretargets : retargetSync.Retargets := by
    intro ptr fProofOfStake nBits h
    show (getNextTargetRequired false ptr fProofOfStake).getD 0 = nBits
    rw [show getNextTargetRequired false ptr fProofOfStake = some nBits from h]
    rfl
  have hstart : AllBranches (Targeted retargetSync.fTestNet) syncStart.node :=
    allBranches_syncStart ⟨⟨⟨rfl, rfl⟩, trivial⟩, by decide, by decide⟩
  exact ⟨s, p, hs, hin, hbits, (targets_bounded retargetSync (firstFiles limitBlock) syncStart
    (pointers_syncStart rfl) ⟨[indexG], rfl, List.suffix_rfl⟩ hretargets hstart _
    (firstDisk_diskOk limitBlock [limitBlock]) _ List.prefix_rfl s hs 2 _ hin).1⟩

/-! ## Two nodes with one hardened checkpoint -/

/-- A state that a node comes to in a run of its own. -/
def Ran (parent : Uint256 → Uint256) (senv : SyncEnv) (s : SyncState) : Prop :=
  ∃ full s₀ ops, ParentsOf parent senv full ∧ Pointers senv.toEnv full s₀.node ∧
    (∃ c, OnCheckpoint s₀.node c) ∧ AllBranches (Ruled senv) s₀.node ∧ (∀ op ∈ ops, op.DiskOk full) ∧
    SyncState.run senv ops s₀ = some s

section

variable {parent : Uint256 → Uint256} {senv : SyncEnv} {s : SyncState}

theorem Ran.ruled (h : Ran parent senv s) : ∃ full, ParentsOf parent senv full ∧
    Pointers senv.toEnv full s.node ∧ AllBranches (Ruled senv) s.node := by
  obtain ⟨full, s₀, ops, hparents, hp, ⟨c, hc⟩, hstart, hdisk, hrun⟩ := h
  have hsteps := run_steps hdisk hrun
  exact ⟨full, hparents, (steps_safe hp hc hsteps).1,
    steps_allBranches (keptByRules_ruled senv) hstart hp hc hsteps⟩

/-- The block of the best chain at the height of a hardened checkpoint is the checkpoint. -/
theorem hardened_inTree {full : Files} {n : Nat} {hash : Uint256}
    (hp : Pointers senv.toEnv full s.node) (hruled : AllBranches (Ruled senv) s.node)
    (hmain : senv.fTestNet = false) (hpos : n ≠ 0) (hn : senv.mapCheckpoints n = some hash)
    (hlen : n < s.node.pindexBest.length) :
    s.node.mapBlockIndex hash
      = some (s.node.pindexBest.drop (s.node.pindexBest.length - (n + 1))) := by
  obtain ⟨c, hc⟩ : ∃ c, s.node.pindexBest.drop (s.node.pindexBest.length - (n + 1)) = c := ⟨_, rfl⟩
  have hsuf : c <:+ s.node.pindexBest := hc ▸ List.drop_suffix _ _
  have hclen : c.length = n + 1 := by
    rw [← hc, List.length_drop]
    omega
  rw [hc]
  match c, hclen with
  | [p], hclen => exact absurd (Nat.succ.inj hclen).symm hpos
  | p :: pindexPrev :: pprev, hclen =>
      have hin : s.node.mapBlockIndex p.hashBlock = some (p :: pindexPrev :: pprev) :=
        hp.tree.inTree hp.best _ (BlockPtr.mem_path.mpr ⟨List.cons_ne_nil _ _, hsuf⟩)
      obtain ⟨q, qs, block, heq, hE⟩ := hp.tree _ _ hin
      cases heq
      have hheight : p.nHeight = n := by
        rw [hE.nHeight, ← Nat.succ.inj hclen]
      have hhardened := (hruled _ _ hin).1.hardened
      unfold SyncEnv.checkHardened at hhardened
      rw [hmain, hheight, hn, Bool.false_or, Option.all_some, beq_iff_eq] at hhardened
      rw [hhardened]
      exact hin

/-- Two nodes outside the test network that know one checkpoint for a height, each at any time of any
run of its own, both with a best chain that is higher: the two best chains are the same from the
genesis block up to the checkpoint. -/
theorem hardened_agree (parent : Uint256 → Uint256) (senv senv' : SyncEnv) (s s' : SyncState)
    (h : Ran parent senv s) (h' : Ran parent senv' s') (hmain : senv.fTestNet = false)
    (hmain' : senv'.fTestNet = false) (n : Nat) (hash : Uint256) (hpos : n ≠ 0)
    (hn : senv.mapCheckpoints n = some hash) (hn' : senv'.mapCheckpoints n = some hash)
    (hlen : n < s.node.pindexBest.length) (hlen' : n < s'.node.pindexBest.length) :
    (BlockPtr.hashes s.node.pindexBest).reverse.take (n + 1)
      = (BlockPtr.hashes s'.node.pindexBest).reverse.take (n + 1) := by
  obtain ⟨full, hparents, hp, hruled⟩ := h.ruled
  obtain ⟨full', hparents', hp', hruled'⟩ := h'.ruled
  have hin := hardened_inTree hp hruled hmain hpos hn hlen
  have hin' := hardened_inTree hp' hruled' hmain' hpos hn' hlen'
  have hsame := hparents.hashes_eq hparents' hp.tree hp'.tree hin hin'
  rw [hashes_drop, hashes_drop] at hsame
  have hlength : ∀ b, (BlockPtr.hashes b).length = b.length := fun _ => List.length_map _
  rw [List.take_reverse, List.take_reverse, hlength, hlength, hsame]

end

/-! ### A node that was offered another block first -/

def lockedParent (hash : Uint256) : Uint256 := if hash = 2 then 1 else 0

def rivalBlock : CBlock := { forkBlock 3 1 [forkCoinbase 3 COIN] with nTime := 6 }

theorem parentsOf_lockedParent : ParentsOf lockedParent lockedSync (firstFiles awaitedBlock) := by
  have hall : ∀ nFile nBlockPos block, (firstFiles awaitedBlock).block nFile nBlockPos = some block →
      block = forkGenesis ∨ block = awaitedBlock := by
    intro nFile nBlockPos block h
    unfold firstFiles at h
    dsimp only at h
    split at h
    · exact .inl (Option.some.inj h).symm
    · exact .inr (Option.some.inj h).symm
    · cases h
  refine ⟨fun nFile nBlockPos block h => ?_, fun nFile nBlockPos block h => Nat.succ_ne_zero _⟩
  rcases hall nFile nBlockPos block h with rfl | rfl
  · rfl
  · rfl

theorem ran_lockedSync {blocks : List CBlock} {s : SyncState}
    (h : SyncState.run lockedSync (blocks.map (SyncOp.block (firstDisk awaitedBlock))) syncStart
      = some s) : Ran lockedParent lockedSync s :=
  ⟨firstFiles awaitedBlock, syncStart, _, parentsOf_lockedParent, pointers_syncStart rfl,
    ⟨[indexG], rfl, List.suffix_rfl⟩, allBranches_syncStart trivial, firstDisk_diskOk _ blocks, h⟩

theorem hardened_agree_rivalBlock :
    ∃ s s', SyncState.run lockedSync [.block (firstDisk awaitedBlock) awaitedBlock] syncStart = some s ∧
      SyncState.run lockedSync [.block (firstDisk awaitedBlock) rivalBlock,
        .block (firstDisk awaitedBlock) awaitedBlock] syncStart = some s' ∧
      (BlockPtr.hashes s.node.pindexBest).reverse.take 2
        = (BlockPtr.hashes s'.node.pindexBest).reverse.take 2 := by
  have hrun : (SyncState.run lockedSync [.block (firstDisk awaitedBlock) awaitedBlock] syncStart).map
      (fun s => s.node.pindexBest.length) = some 2 := by decide
  have hrun' : (SyncState.run lockedSync [.block (firstDisk awaitedBlock) rivalBlock,
      .block (firstDisk awaitedBlock) awaitedBlock] syncStart).map
      (fun s => s.node.pindexBest.length) = some 2 := by decide
  obtain ⟨s, hs, hlen⟩ := Option.map_eq_some_iff.mp hrun
  obtain ⟨s', hs', hlen'⟩ := Option.map_eq_some_iff.mp hrun'
  have h := @ran_lockedSync [awaitedBlock] s hs
  have h' := @ran_lockedSync [rivalBlock, awaitedBlock] s' hs'
  exact ⟨s, s', hs, hs', hardened_agree lockedParent lockedSync lockedSync s s' h h' rfl rfl 1 2
    (by decide) rfl rfl (by rw [hlen]; decide) (by rw [hlen']; decide)⟩

end ShinyCoin

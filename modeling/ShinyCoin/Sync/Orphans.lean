import ShinyCoin.Sync.Process
import ShinyCoin.Chain.Consistency
import ShinyCoin.Lib.TreeMap

/-!
# The books on orphan blocks

`mapOrphanBlocks` and `mapOrphanBlocksByPrev` always hold the same blocks. `setStakeSeenOrphan` is
meant to hold the stakes of those that are proof-of-stake. Several orphans may share a stake, and the
stake goes with the first of them that leaves: the set is right exactly as long as no call takes out
one of them and leaves another.
-/

namespace ShinyCoin

namespace SyncState

variable {senv : SyncEnv} {s s' : SyncState} {block : CBlock}

/-! ## What leaves the orphans alone -/

structure SameOrphans (s s' : SyncState) : Prop where
  mapOrphanBlocks : s'.mapOrphanBlocks = s.mapOrphanBlocks
  mapOrphanBlocksByPrev : s'.mapOrphanBlocksByPrev = s.mapOrphanBlocksByPrev
  setStakeSeenOrphan : s'.setStakeSeenOrphan = s.setStakeSeenOrphan

theorem SameOrphans.refl (s : SyncState) : SameOrphans s s := ⟨rfl, rfl, rfl⟩

theorem SameOrphans.trans {s₁ s₂ s₃ : SyncState} (h : SameOrphans s₁ s₂) (h' : SameOrphans s₂ s₃) :
    SameOrphans s₁ s₃ :=
  ⟨h'.1.trans h.1, h'.2.trans h.2, h'.3.trans h.3⟩

theorem validateSyncCheckpoint_sameOrphans (hashCheckpoint : Uint256) (s : SyncState) :
    SameOrphans s (Lib.final (validateSyncCheckpoint hashCheckpoint s)) := by
  unfold validateSyncCheckpoint
  repeat' split
  all_goals exact ⟨rfl, rfl, rfl⟩

theorem switchToCheckpoint_sameOrphans (senv : SyncEnv) (disk : Disk) (caller : String)
    (hashCheckpoint : Uint256) (ptr : BlockPtr) (s : SyncState) :
    SameOrphans s (Lib.final (switchToCheckpoint senv disk caller hashCheckpoint ptr s)) := by
  unfold switchToCheckpoint
  repeat' split
  all_goals exact ⟨rfl, rfl, rfl⟩

theorem enterCheckpoint_sameOrphans (senv : SyncEnv) (disk : Disk) (caller : String)
    (hashCheckpoint : Uint256) (ptr : BlockPtr) (s : SyncState) :
    SameOrphans s (Lib.final (enterCheckpoint senv disk caller hashCheckpoint ptr s)) := by
  unfold enterCheckpoint
  have hswitch := switchToCheckpoint_sameOrphans senv disk caller hashCheckpoint ptr s
  -- what is written afterwards is the checkpoint
  have hwrite : ∀ s₁ : SyncState, SameOrphans s s₁ →
      SameOrphans s (Lib.final (writeSyncCheckpoint disk caller hashCheckpoint s₁ >>= fun s₂ =>
        pure { s₂ with hashPendingCheckpoint := 0 })) := by
    intro s₁ h₁
    unfold writeSyncCheckpoint
    split
    · exact ⟨h₁.1, h₁.2, h₁.3⟩
    · exact h₁
  apply Lib.final_bind
  · intro e he
    rw [he] at hswitch
    exact hswitch
  · intro s₁ h₁
    rw [h₁] at hswitch
    exact hwrite s₁ hswitch

theorem acceptPendingSyncCheckpoint_sameOrphans (senv : SyncEnv) (disk : Disk) (s : SyncState) :
    SameOrphans s (Lib.final (acceptPendingSyncCheckpoint senv disk s)) := by
  unfold acceptPendingSyncCheckpoint
  have hvalid := validateSyncCheckpoint_sameOrphans s.hashPendingCheckpoint s
  split
  · exact SameOrphans.refl s
  · split
    · exact SameOrphans.refl s
    · split
      · next e s₁ hv =>
        rw [hv] at hvalid
        exact ⟨hvalid.1, hvalid.2, hvalid.3⟩
      · next s₁ hv =>
        rw [hv] at hvalid
        exact hvalid.trans (enterCheckpoint_sameOrphans ..)

theorem processSyncCheckpoint_sameOrphans (senv : SyncEnv) (disk : Disk) (hashCheckpoint : Uint256)
    (s : SyncState) :
    SameOrphans s (Lib.final (processSyncCheckpoint senv disk hashCheckpoint s)) := by
  unfold processSyncCheckpoint
  have hvalid := validateSyncCheckpoint_sameOrphans hashCheckpoint s
  split
  · exact ⟨rfl, rfl, rfl⟩
  · apply Lib.final_bind
    · intro e he
      rw [he] at hvalid
      exact hvalid
    · intro s₁ h₁
      rw [h₁] at hvalid
      exact hvalid.trans (enterCheckpoint_sameOrphans ..)

theorem seeStake_sameOrphans (senv : SyncEnv) (block : CBlock) (s : SyncState) :
    SameOrphans s (block.seeStake senv s) := by
  unfold CBlock.seeStake
  split <;> exact ⟨rfl, rfl, rfl⟩

theorem storeBlock_sameOrphans (senv : SyncEnv) (disk : Disk) (block : CBlock) (s : SyncState) :
    SameOrphans s (Lib.final (block.storeBlock senv disk s)) := by
  have hindex : ∀ nFile nBlockPos,
      SameOrphans s (Lib.final (block.indexBlock senv disk.files nFile nBlockPos s)) := by
    intro nFile nBlockPos
    unfold CBlock.indexBlock
    split
    · next node _ =>
      obtain ⟨h₁, h₂, h₃⟩ := seeStake_sameOrphans senv block { s with node := node }
      exact ⟨h₁, h₂, h₃⟩
    · next e node _ =>
      obtain ⟨h₁, h₂, h₃⟩ := seeStake_sameOrphans senv block { s with node := node }
      exact ⟨h₁, h₂, h₃⟩
  unfold CBlock.storeBlock
  apply Lib.final_bind
  · intro e he
    obtain ⟨-, rfl⟩ := Lib.require_eq_error.mp he
    exact SameOrphans.refl s
  · rintro - -
    split
    · exact SameOrphans.refl s
    · next nFile nBlockPos _ =>
      have hindexed := hindex nFile nBlockPos
      apply Lib.final_bind
      · intro e he
        rw [he] at hindexed
        exact hindexed
      · intro s₁ h₁
        rw [h₁] at hindexed
        have hpending := acceptPendingSyncCheckpoint_sameOrphans senv disk s₁
        split
        · next s₂ h₂ =>
          rw [h₂] at hpending
          exact hindexed.trans hpending
        · next e s₂ h₂ =>
          rw [h₂] at hpending
          split <;> exact hindexed.trans hpending

theorem acceptBlock_sameOrphans (senv : SyncEnv) (disk : Disk) (block : CBlock) (s : SyncState) :
    SameOrphans s (Lib.final (block.acceptBlock senv disk s)) := by
  unfold CBlock.acceptBlock
  apply Lib.final_bind
  · intro e he
    obtain ⟨-, rfl⟩ := Lib.require_eq_error.mp he
    exact SameOrphans.refl s
  · rintro - -
    split
    · exact SameOrphans.refl s
    · exact SameOrphans.refl s
    · apply Lib.final_bind
      · intro e he
        obtain ⟨e', -, rfl⟩ := Lib.mapError_eq_error.mp he
        exact SameOrphans.refl s
      · rintro - -
        exact storeBlock_sameOrphans senv disk block s

/-- Nothing has changed but `mapProofOfStake`. -/
def NotesStake (s s' : SyncState) : Prop := ∃ m, s' = { s with mapProofOfStake := m }

theorem NotesStake.refl (s : SyncState) : NotesStake s s := ⟨s.mapProofOfStake, rfl⟩

theorem checkReceived_notesStake (senv : SyncEnv) (block : CBlock) (s : SyncState) :
    NotesStake s (Lib.final (checkReceived senv block s)) := by
  have hstake : NotesStake s (Lib.final (checkStake senv block s)) := by
    unfold checkStake
    dsimp only
    repeat' split
    all_goals exact ⟨_, rfl⟩
  have hreq : ∀ {c : Bool} {e : Err} {e' : Err × SyncState}, Lib.require c (e, s) = .error e' →
      NotesStake s e'.2 := by
    intro c e e' h
    obtain ⟨-, rfl⟩ := Lib.require_eq_error.mp h
    exact NotesStake.refl s
  have hmap : ∀ {x : Except Err Unit} {f : Err → Err} {s₁ : SyncState} {e' : Err × SyncState},
      NotesStake s s₁ → x.mapError (fun e => (f e, s₁)) = .error e' → NotesStake s e'.2 := by
    intro x f s₁ e' h₁ h
    obtain ⟨e, -, rfl⟩ := Lib.mapError_eq_error.mp h
    exact h₁
  unfold checkReceived
  refine Lib.final_bind (fun e he => hreq he) fun _ _ => ?_
  refine Lib.final_bind (fun e he => hreq he) fun _ _ => ?_
  refine Lib.final_bind (fun e he => hreq he) fun _ _ => ?_
  refine Lib.final_bind (fun e he => hmap (NotesStake.refl s) he) fun _ _ => ?_
  refine Lib.final_bind (fun e he => ?_) fun s₁ h₁ => ?_
  · rw [he] at hstake
    exact hstake
  · rw [h₁] at hstake
    exact Lib.final_bind (fun e he => hmap hstake he) fun _ _ => hstake

theorem checkReceived_sameOrphans (senv : SyncEnv) (block : CBlock) (s : SyncState) :
    SameOrphans s (Lib.final (checkReceived senv block s)) := by
  obtain ⟨m, hm⟩ := checkReceived_notesStake senv block s
  rw [hm]
  exact ⟨rfl, rfl, rfl⟩

/-! ## The books -/

/-- The maps hold the same blocks, each once and under its own hashes. -/
structure Filed (senv : SyncEnv) (s : SyncState) : Prop where
  keyed : ∀ (h : Uint256) (b : CBlock), s.mapOrphanBlocks[h]? = some b → senv.getIDHash b.toCBlockHeader = h
  byPrev : ∀ p b, (p, b) ∈ s.mapOrphanBlocksByPrev ↔
    b.hashPrevBlock = p ∧ s.mapOrphanBlocks[senv.getIDHash b.toCBlockHeader]? = some b
  once : s.mapOrphanBlocksByPrev.Nodup

/-- `setStakeSeenOrphan` holds the stakes of the stored orphans and no other. -/
def StakesSeen (s : SyncState) : Prop :=
  ∀ stake, stake ∈ s.setStakeSeenOrphan ↔
    ∃ (h : Uint256) (b : CBlock), s.mapOrphanBlocks[h]? = some b ∧ b.isProofOfStake = true ∧ b.getProofOfStake = stake

theorem Filed.of_empty (h : s.mapOrphanBlocks = ∅) (hprev : s.mapOrphanBlocksByPrev = []) :
    Filed senv s := by
  have hempty : ∀ k : Uint256, s.mapOrphanBlocks[k]? = none := by
    intro k
    rw [h]
    exact Std.ExtTreeMap.getElem?_empty
  refine ⟨?_, ?_, by rw [hprev]; exact List.nodup_nil⟩
  · intro k b hb
    rw [hempty] at hb
    cases hb
  · intro p b
    rw [hempty, hprev]
    simp

theorem SameOrphans.filed (h : SameOrphans s s') (hs : Filed senv s) : Filed senv s' := by
  refine ⟨?_, ?_, ?_⟩
  · rw [h.mapOrphanBlocks]; exact hs.keyed
  · rw [h.mapOrphanBlocks, h.mapOrphanBlocksByPrev]; exact hs.byPrev
  · rw [h.mapOrphanBlocksByPrev]; exact hs.once

theorem SameOrphans.stakesSeen (h : SameOrphans s s') : StakesSeen s' ↔ StakesSeen s := by
  unfold StakesSeen
  rw [h.mapOrphanBlocks, h.setStakeSeenOrphan]

theorem mem_orphansUnder {k : Uint256} {b : CBlock} (hs : Filed senv s) :
    b ∈ s.orphansUnder k ↔
      b.hashPrevBlock = k ∧ s.mapOrphanBlocks[senv.getIDHash b.toCBlockHeader]? = some b := by
  unfold orphansUnder
  rw [List.mem_map]
  constructor
  · rintro ⟨⟨p, b'⟩, hx, rfl⟩
    obtain ⟨hmem, hp⟩ := List.mem_filter.mp hx
    rw [beq_iff_eq] at hp
    obtain ⟨hprev, hmap⟩ := (hs.byPrev p b').mp hmem
    exact ⟨hprev.trans hp, hmap⟩
  · rintro ⟨hprev, hmap⟩
    refine ⟨(k, b), List.mem_filter.mpr ⟨(hs.byPrev k b).mpr ⟨hprev, hmap⟩, ?_⟩, rfl⟩
    exact beq_iff_eq.mpr rfl

/-- A stake is never the one a proof-of-work block answers with. -/
theorem getProofOfStake_ne {b b' : CBlock} (hb : b.isProofOfStake = true)
    (hb' : b'.isProofOfStake = false) : b.getProofOfStake ≠ b'.getProofOfStake := by
  have hnull : b'.getProofOfStake = (COutPoint.null, 0) := by
    unfold CBlock.isProofOfStake at hb'
    unfold CBlock.getProofOfStake
    split
    · next tx _ hvtx =>
      rw [hvtx] at hb'
      exact if_neg (Bool.eq_false_iff.mp hb')
    · rfl
  obtain ⟨coinbase, tx, rest, hvtx, hstake⟩ : ∃ coinbase tx rest,
      b.vtx = coinbase :: tx :: rest ∧ tx.isCoinStake = true := by
    unfold CBlock.isProofOfStake at hb
    split at hb
    · next coinbase tx rest hvtx => exact ⟨coinbase, tx, rest, hvtx, hb⟩
    · cases hb
  rw [hnull]
  unfold CBlock.getProofOfStake
  rw [hvtx]
  dsimp only
  rw [if_pos hstake]
  intro heq
  -- the first input of a coinstake is not null
  unfold CTransaction.isCoinStake at hstake
  split at hstake
  · next txin _ _ _ _ hvin _ =>
    rw [hvin] at heq
    have hprevout : txin.prevout = COutPoint.null := congrArg Prod.fst heq
    rw [hprevout] at hstake
    exact Bool.noConfusion hstake
  · cases hstake

/-! ## The loop over the orphans -/

/-- What trying the orphans of one key does to the books: they are taken out, accepted or not. -/
theorem tryOrphans_ok {disk : CBlock → Disk} {blocks : List CBlock} {r r' : SyncState × List Uint256}
    (h : blocks.foldlM (tryOrphan senv disk) r = .ok r') :
    r'.1.mapOrphanBlocksByPrev = r.1.mapOrphanBlocksByPrev ∧
      (∀ k : Uint256, r'.1.mapOrphanBlocks[k]? =
        if k ∈ blocks.map (fun b => senv.getIDHash b.toCBlockHeader) then none
        else r.1.mapOrphanBlocks[k]?) ∧
      (∀ stake, stake ∈ r'.1.setStakeSeenOrphan ↔
        stake ∈ r.1.setStakeSeenOrphan ∧ stake ∉ blocks.map CBlock.getProofOfStake) ∧
      ∃ new, r'.2 = r.2 ++ new ∧ new.length ≤ blocks.length := by
  induction blocks generalizing r with
  | nil =>
      cases h
      exact ⟨rfl, by simp, by simp, [], by simp, le_rfl⟩
  | cons b blocks ih =>
      rw [List.foldlM_cons, Lib.bind_eq_ok] at h
      obtain ⟨r₁, h₁, h⟩ := h
      obtain ⟨hprev, hmap, hstake, new, hnew, hlen⟩ := ih h
      -- one orphan: `AcceptBlock` leaves the books alone, and then it is taken out
      have hstep : ∃ s₁, SameOrphans r.1 s₁ ∧ r₁.1 = takeOut senv b s₁ ∧
          ∃ new₁, r₁.2 = r.2 ++ new₁ ∧ new₁.length ≤ 1 := by
        have hsame := acceptBlock_sameOrphans senv (disk b) b r.1
        unfold tryOrphan at h₁
        split at h₁
        · next s₁ hacc =>
          cases h₁
          rw [hacc] at hsame
          exact ⟨s₁, hsame, rfl, _, rfl, le_rfl⟩
        · next e s₁ hacc =>
          rw [hacc] at hsame
          split at h₁
          · cases h₁
            exact ⟨s₁, hsame, rfl, [], by simp, by simp⟩
          · cases h₁
      obtain ⟨s₁, hsame, hr₁, new₁, hnew₁, hlen₁⟩ := hstep
      rw [hr₁] at hprev hmap hstake
      refine ⟨?_, ?_, ?_, new₁ ++ new, ?_, ?_⟩
      · rw [hprev]
        exact hsame.mapOrphanBlocksByPrev
      · intro k
        rw [hmap k]
        show (if _ then none else (s₁.mapOrphanBlocks.erase _)[k]?) = _
        rw [Lib.getElem?_erase, hsame.mapOrphanBlocks, List.map_cons]
        simp only [List.mem_cons]
        grind
      · intro stake
        rw [hstake stake]
        show stake ∈ s₁.setStakeSeenOrphan.erase _ ∧ _ ↔ _
        rw [Finset.mem_erase, hsame.setStakeSeenOrphan, List.map_cons, List.mem_cons]
        tauto
      · rw [hnew, hnew₁, List.append_assoc]
      · rw [List.length_append, List.length_cons]
        omega

/-- The books in the loop: what waits for a key that was visited has been taken out. -/
structure Resolved (s₀ : SyncState) (visited : List Uint256) (s : SyncState) : Prop where
  byPrev : s.mapOrphanBlocksByPrev = s₀.mapOrphanBlocksByPrev.filter fun x => x.1 ∉ visited
  orphans : ∀ k : Uint256, s.mapOrphanBlocks[k]?
    = (s₀.mapOrphanBlocks[k]?).filter fun b : CBlock => b.hashPrevBlock ∉ visited
  stakes : ∀ stake, stake ∈ s.setStakeSeenOrphan ↔ stake ∈ s₀.setStakeSeenOrphan ∧
    ∀ (k : Uint256) (b : CBlock), s₀.mapOrphanBlocks[k]? = some b → b.hashPrevBlock ∈ visited → b.getProofOfStake ≠ stake

theorem Resolved.filed {visited : List Uint256} {s₀ : SyncState} (h : Resolved s₀ visited s)
    (hs : Filed senv s₀) : Filed senv s := by
  refine ⟨?_, ?_, ?_⟩
  · intro k b hb
    rw [h.orphans, Option.filter_eq_some_iff] at hb
    exact hs.keyed k b hb.1
  · intro p b
    rw [h.byPrev, List.mem_filter, hs.byPrev, h.orphans, Option.filter_eq_some_iff]
    constructor
    · rintro ⟨⟨rfl, hmap⟩, hv⟩
      exact ⟨rfl, hmap, hv⟩
    · rintro ⟨rfl, hmap, hv⟩
      exact ⟨⟨rfl, hmap⟩, hv⟩
  · rw [h.byPrev]
    exact hs.once.filter _

theorem Resolved.nil (s : SyncState) : Resolved s [] s := by
  refine ⟨?_, ?_, ?_⟩
  · simp
  · intro k
    cases s.mapOrphanBlocks[k]? <;> simp [Option.filter]
  · simp

/-- One round: the key is visited, and every push is one of its orphans. -/
theorem Resolved.visit {disk : CBlock → Disk} {s₀ : SyncState} {visited : List Uint256}
    {r r' : SyncState × List Uint256} {k : Uint256} {new : List Uint256}
    (h : Resolved s₀ visited r.1) (hs : Filed senv s₀)
    (hv : visitPrev senv disk r k = .ok (r', new)) :
    Resolved s₀ (visited ++ [k]) r'.1 ∧ r'.2 = r.2 ++ new ∧
      r'.1.mapOrphanBlocksByPrev.length + new.length ≤ r.1.mapOrphanBlocksByPrev.length := by
  have hfiled := h.filed hs
  unfold visitPrev at hv
  obtain ⟨r₁, h₁, hv⟩ := Lib.bind_eq_ok.mp hv
  cases hv
  obtain ⟨hprev, hmap, hstake, new, hnew, hlen⟩ := tryOrphans_ok h₁
  have hdrop : r₁.2.drop r.2.length = new := by
    rw [hnew, List.drop_left]
  -- an orphan is under `k` when it is stored and waits for `k`
  have hunder : ∀ (h' : Uint256) (b : CBlock), r.1.mapOrphanBlocks[h']? = some b →
      (h' ∈ (r.1.orphansUnder k).map (fun b => senv.getIDHash b.toCBlockHeader) ↔
        b.hashPrevBlock = k) := by
    intro h' b hb
    have hkey := hfiled.keyed h' b hb
    rw [List.mem_map]
    constructor
    · rintro ⟨b', hb', rfl⟩
      obtain ⟨hp, hstored⟩ := (mem_orphansUnder hfiled).mp hb'
      rw [hstored, Option.some.injEq] at hb
      rw [← hb]
      exact hp
    · intro hp
      refine ⟨b, (mem_orphansUnder hfiled).mpr ⟨hp, ?_⟩, hkey⟩
      rw [hkey]
      exact hb
  refine ⟨⟨?_, ?_, ?_⟩, ?_, ?_⟩
  · show r₁.1.mapOrphanBlocksByPrev.filter _ = _
    rw [hprev, h.byPrev, List.filter_filter]
    apply List.filter_congr
    intro x _
    grind
  · intro h'
    show r₁.1.mapOrphanBlocks[h']? = _
    rw [hmap]
    cases hb : r.1.mapOrphanBlocks[h']? with
    | none =>
        rw [h.orphans] at hb
        rw [ite_self]
        cases hb₀ : s₀.mapOrphanBlocks[h']? with
        | none => rfl
        | some b =>
            rw [hb₀] at hb
            grind
    | some b =>
        have hiff := hunder h' b hb
        rw [h.orphans] at hb
        obtain ⟨hb₀, hvisited⟩ := Option.filter_eq_some_iff.mp hb
        rw [hb₀]
        grind
  · intro stake
    show stake ∈ r₁.1.setStakeSeenOrphan ↔ _
    rw [hstake, h.stakes, and_assoc]
    apply and_congr_right
    intro _
    constructor
    · rintro ⟨hold, hnot⟩ h' b hb hmem heq
      by_cases hin : b.hashPrevBlock ∈ visited
      · exact hold h' b hb hin heq
      · -- it was still stored, under `k`
        have hk : b.hashPrevBlock = k := by grind
        apply hnot
        rw [← heq]
        refine List.mem_map_of_mem ((mem_orphansUnder hfiled).mpr ⟨hk, ?_⟩)
        rw [hs.keyed h' b hb, h.orphans, hb]
        grind
    · intro hall
      refine ⟨fun h' b hb hin => hall h' b hb (List.mem_append_left _ hin), ?_⟩
      intro hmem
      obtain ⟨b, hb, heq⟩ := List.mem_map.mp hmem
      obtain ⟨hk, hstored⟩ := (mem_orphansUnder hfiled).mp hb
      rw [h.orphans, Option.filter_eq_some_iff] at hstored
      refine hall _ b hstored.1 ?_ heq
      rw [hk]
      exact List.mem_append_right _ List.mem_cons_self
  · show r₁.2 = _
    rw [hdrop]
    exact hnew
  · show (r₁.1.mapOrphanBlocksByPrev.filter _).length + (r₁.2.drop r.2.length).length ≤ _
    rw [hdrop, hprev]
    have hsplit := List.length_eq_length_filter_add
      (l := r.1.mapOrphanBlocksByPrev) (fun x => x.1 == k)
    have hunderlen : (r.1.orphansUnder k).length
        = (r.1.mapOrphanBlocksByPrev.filter fun x => x.1 == k).length := by
      unfold orphansUnder
      rw [List.length_map]
    have hneg : (r.1.mapOrphanBlocksByPrev.filter fun x => x.1 != k).length
        = (r.1.mapOrphanBlocksByPrev.filter fun x => !(x.1 == k)).length := rfl
    omega

/-- The whole loop: what waits for a block that was accepted has been taken out. -/
theorem resolveOrphans_ok {disk : CBlock → Disk} {hash : Uint256} {r : SyncState × List Uint256}
    (hs : Filed senv s) (h : resolveOrphans senv disk s hash = .ok r) : Resolved s r.2 r.1 := by
  unfold resolveOrphans at h
  -- the queue is what was visited and what still waits
  obtain ⟨visited, hR, hq⟩ := Lib.drain_ok_inv
    (μ := fun r : SyncState × List Uint256 => r.1.mapOrphanBlocksByPrev.length)
    (fun ks r => ∃ visited, Resolved s visited r.1 ∧ r.2 = visited ++ ks) (by
      rintro k ks r r' new ⟨visited, hR, hq⟩ hv
      obtain ⟨hR', hq', hlen⟩ := hR.visit hs hv
      refine ⟨⟨visited ++ [k], hR', ?_⟩, hlen⟩
      rw [hq', hq]
      simp) ⟨[], Resolved.nil s, rfl⟩ (by simp [Nat.add_comm]) h
  rw [List.append_nil] at hq
  rw [hq]
  exact hR

/-- The bound on the rounds of `resolveOrphans` is no restriction. -/
theorem resolveOrphans_add {disk : CBlock → Disk} {hash : Uint256} (hs : Filed senv s) (more : Nat) :
    Lib.drain (visitPrev senv disk) (s.mapOrphanBlocksByPrev.length + 1 + more) [hash] (s, [hash])
      = resolveOrphans senv disk s hash := by
  refine Lib.drain_add (μ := fun r : SyncState × List Uint256 => r.1.mapOrphanBlocksByPrev.length)
    (I := fun r => ∃ visited, Resolved s visited r.1) ?_ ⟨[], Resolved.nil s⟩ ?_ more
  · rintro k r r' new ⟨visited, hR⟩ hv
    obtain ⟨hR', -, hlen⟩ := hR.visit hs hv
    exact ⟨⟨_, hR'⟩, hlen⟩
  · rw [List.length_singleton]
    show 1 + s.mapOrphanBlocksByPrev.length ≤ _
    omega

/-! ## One call -/

/-- Only an exception ends the loop over the orphans. -/
theorem resolveOrphans_error {disk : CBlock → Disk} {hash : Uint256} {e : Err}
    (h : resolveOrphans senv disk s hash = .error (e, s')) : e.isFalse = false := by
  obtain ⟨k, ks, r, -, hv⟩ := Lib.drain_error_inv (fun _ _ => True)
    (fun _ _ _ _ _ _ _ => trivial) trivial h
  unfold visitPrev at hv
  rcases Lib.bind_eq_error.mp hv with hv | ⟨r', -, hv⟩
  · obtain ⟨b, -, r₁, -, hb⟩ := Lib.foldlM_error_inv (fun _ _ => True)
      (fun _ _ _ _ _ _ => trivial) trivial hv
    unfold tryOrphan at hb
    split at hb
    · cases hb
    · split at hb
      · cases hb
      · next hexc =>
        cases hb
        exact Bool.eq_false_iff.mpr hexc
  · cases hv

theorem checkReceived_new {s₁ : SyncState} (h : checkReceived senv block s = .ok s₁) :
    s.node.mapBlockIndex (senv.getIDHash block.toCBlockHeader) = none ∧
      s.mapOrphanBlocks[senv.getIDHash block.toCBlockHeader]? = none := by
  unfold checkReceived at h
  obtain ⟨hindex, h⟩ := Lib.seq_eq_ok.mp h
  obtain ⟨horphan, -⟩ := Lib.seq_eq_ok.mp h
  rw [Lib.require_eq_ok, Option.isNone_iff_eq_none] at hindex
  rw [Lib.require_eq_ok, Bool.not_eq_true', Bool.eq_false_iff] at horphan
  refine ⟨hindex, Lib.getElem?_eq_none_iff.mpr fun hmem => horphan ?_⟩
  exact Std.ExtTreeMap.contains_iff_mem.mpr hmem

/-- What a `ProcessBlock` that returns has done to the books: nothing, it has shunted the block off,
or it has taken out the orphans of the blocks in `vWorkQueue`. -/
theorem exec_block_cases {disk : CBlock → Disk} (hs : Filed senv s)
    (h : exec senv s (.block disk block) = some s') :
    (s.workQueue senv disk block = [] ∧ SameOrphans s s') ∨
      (s.workQueue senv disk block = [] ∧
        s.mapOrphanBlocks[senv.getIDHash block.toCBlockHeader]? = none ∧
        ∃ s₁, SameOrphans s s₁ ∧ shuntOff senv block s₁ = .ok s') ∨
      ∃ s₁, SameOrphans s s₁ ∧ Resolved s₁ (s.workQueue senv disk block) s' := by
  have hreceived := checkReceived_sameOrphans senv block s
  unfold workQueue
  rcases exec_eq_some.mp h with h | ⟨e, he, h⟩
  · obtain ⟨s₁, hc, h⟩ := Lib.bind_eq_ok.mp h
    rw [hc] at hreceived
    rw [hc]
    dsimp only
    split at h
    · next horphan =>
      rw [if_pos horphan]
      exact .inr (.inl ⟨rfl, (checkReceived_new hc).2, s₁, hreceived, h⟩)
    · next horphan =>
      obtain ⟨s₂, hacc, h⟩ := Lib.bind_eq_ok.mp h
      obtain ⟨r, hr, h⟩ := Lib.bind_eq_ok.mp h
      rw [Lib.mapError_eq_ok] at hacc
      cases h
      have hsame := acceptBlock_sameOrphans senv (disk block) block s₁
      rw [hacc] at hsame
      rw [if_neg horphan, hacc]
      dsimp only
      rw [hr]
      exact .inr (.inr ⟨s₂, hreceived.trans hsame,
        resolveOrphans_ok ((hreceived.trans hsame).filed hs) hr⟩)
  · rcases Lib.bind_eq_error.mp h with hc | ⟨s₁, hc, h⟩
    · rw [hc] at hreceived
      rw [hc]
      exact .inl ⟨rfl, hreceived⟩
    · rw [hc] at hreceived
      rw [hc]
      dsimp only
      split at h
      · next horphan =>
        rw [if_pos horphan]
        unfold shuntOff at h
        rcases Lib.bind_eq_error.mp h with h | ⟨-, -, h⟩
        · obtain ⟨-, heq⟩ := Lib.require_eq_error.mp h
          cases heq
          exact .inl ⟨rfl, hreceived⟩
        · cases h
      · next horphan =>
        rw [if_neg horphan]
        rcases Lib.bind_eq_error.mp h with h | ⟨s₂, hacc, h⟩
        · obtain ⟨⟨e', s₂⟩, hacc, heq⟩ := Lib.mapError_eq_error.mp h
          cases heq
          have hsame := acceptBlock_sameOrphans senv (disk block) block s₁
          rw [hacc] at hsame
          rw [hacc]
          exact .inl ⟨rfl, hreceived.trans hsame⟩
        · rcases Lib.bind_eq_error.mp h with h | ⟨r, -, h⟩
          · rw [resolveOrphans_error h] at he
            cases he
          · cases h

/-- Shunting a block off keeps the books. -/
theorem Filed.shuntOff (hs : Filed senv s)
    (hnew : s.mapOrphanBlocks[senv.getIDHash block.toCBlockHeader]? = none)
    (h : SyncState.shuntOff senv block s = .ok s') :
    Filed senv s' ∧ (StakesSeen s → StakesSeen s') := by
  unfold SyncState.shuntOff at h
  obtain ⟨-, h⟩ := Lib.seq_eq_ok.mp h
  cases h
  have hget : ∀ k : Uint256,
      (s.mapOrphanBlocks.insertIfNew (senv.getIDHash block.toCBlockHeader) block)[k]?
        = if k = senv.getIDHash block.toCBlockHeader then some block else s.mapOrphanBlocks[k]? := by
    intro k
    rw [Lib.getElem?_insertIfNew]
    by_cases hk : k = senv.getIDHash block.toCBlockHeader
    · rw [if_pos ⟨hk, by rw [hk]; exact hnew⟩, if_pos hk]
    · rw [if_neg (fun hc => hk hc.1), if_neg hk]
  refine ⟨⟨?_, ?_, ?_⟩, ?_⟩
  · intro k b hb
    rw [hget] at hb
    split at hb
    · next hk =>
      cases hb
      exact hk.symm
    · exact hs.keyed k b hb
  · intro p b
    show (p, b) ∈ s.mapOrphanBlocksByPrev ++ [(block.hashPrevBlock, block)] ↔ _
    rw [List.mem_append, hs.byPrev, List.mem_singleton, hget]
    constructor
    · rintro (⟨hp, hb⟩ | heq)
      · refine ⟨hp, ?_⟩
        rw [if_neg, hb]
        intro hk
        rw [hk, hnew] at hb
        cases hb
      · cases heq
        exact ⟨rfl, if_pos rfl⟩
    · rintro ⟨hp, hb⟩
      split at hb
      · cases hb
        exact .inr (by rw [hp])
      · exact .inl ⟨hp, hb⟩
  · refine List.nodup_append.mpr ⟨hs.once, List.nodup_singleton _, ?_⟩
    rintro ⟨p, b⟩ hx y hy rfl
    rw [List.mem_singleton] at hy
    cases hy
    rw [((hs.byPrev _ _).mp hx).2] at hnew
    cases hnew
  · intro hseen stake
    show stake ∈ (if block.isProofOfStake = true then _ else _) ↔ _
    have hold := hseen stake
    constructor
    · intro hmem
      have hcases : stake ∈ s.setStakeSeenOrphan ∨
          block.isProofOfStake = true ∧ block.getProofOfStake = stake := by
        split at hmem
        · next hpos =>
          rcases Finset.mem_insert.mp hmem with rfl | hmem
          · exact .inr ⟨hpos, rfl⟩
          · exact .inl hmem
        · exact .inl hmem
      rcases hcases with hmem | ⟨hpos, heq⟩
      · obtain ⟨k, b, hb, hpos, heq⟩ := hold.mp hmem
        refine ⟨k, b, ?_, hpos, heq⟩
        rw [hget, if_neg, hb]
        rintro rfl
        rw [hnew] at hb
        cases hb
      · exact ⟨_, block, by rw [hget, if_pos rfl], hpos, heq⟩
    · rintro ⟨k, b, hb, hpos, heq⟩
      rw [hget] at hb
      split at hb
      · cases hb
        rw [if_pos hpos, heq]
        exact Finset.mem_insert_self _ _
      · have hmem := hold.mpr ⟨k, b, hb, hpos, heq⟩
        split
        · exact Finset.mem_insert_of_mem hmem
        · exact hmem

/-- Of two stored orphans with one stake, the call takes out both or neither. -/
def Together (senv : SyncEnv) (s : SyncState) : SyncOp → Prop
  | .block disk block => ∀ (k k' : Uint256) (b b' : CBlock), s.mapOrphanBlocks[k]? = some b →
      s.mapOrphanBlocks[k']? = some b' → b.isProofOfStake = true → b'.isProofOfStake = true →
      b.getProofOfStake = b'.getProofOfStake → b.hashPrevBlock ∈ s.workQueue senv disk block →
      b'.hashPrevBlock ∈ s.workQueue senv disk block
  | _ => True

/-- A call that throws leaves no queue behind. -/
theorem together_of_throws {op : SyncOp} (h : exec senv s op = none) : s.Together senv op := by
  cases op with
  | block disk block =>
      have hq : s.workQueue senv disk block = [] := by
        unfold workQueue
        cases hc : checkReceived senv block s with
        | error e => rfl
        | ok s₁ =>
            dsimp only
            split
            · rfl
            · next horphan =>
              cases hacc : block.acceptBlock senv (disk block) s₁ with
              | error e => rfl
              | ok s₂ =>
                  dsimp only
                  cases hr : resolveOrphans senv disk s₂ (senv.getIDHash block.toCBlockHeader) with
                  | error e => rfl
                  | ok r =>
                      have hok : call senv (.block disk block) s = .ok r.1 := by
                        show processBlock senv disk block s = .ok r.1
                        unfold processBlock
                        rw [Lib.bind_eq_ok]
                        refine ⟨s₁, hc, ?_⟩
                        rw [if_neg horphan, Lib.bind_eq_ok]
                        refine ⟨s₂, Lib.mapError_eq_ok.mpr hacc, ?_⟩
                        rw [hr]
                        rfl
                      rw [exec_eq_some.mpr (.inl hok)] at h
                      cases h
      intro k k' b b' _ _ _ _ _ hin
      rw [hq] at hin
      cases hin
  | checkpoint disk hashCheckpoint => trivial
  | pending disk => trivial
  | other mempool wallets nAdjustedTime => trivial

/-- The stakes are right after the loop exactly when orphans with one stake left together. -/
theorem Resolved.stakesSeen_iff {s₀ : SyncState} {visited : List Uint256}
    (h : Resolved s₀ visited s) (hseen : StakesSeen s₀) :
    StakesSeen s ↔ ∀ (k k' : Uint256) (b b' : CBlock), s₀.mapOrphanBlocks[k]? = some b →
      s₀.mapOrphanBlocks[k']? = some b' → b.isProofOfStake = true → b'.isProofOfStake = true →
      b.getProofOfStake = b'.getProofOfStake → b.hashPrevBlock ∈ visited →
      b'.hashPrevBlock ∈ visited := by
  have hstays : ∀ (k : Uint256) (b : CBlock), s.mapOrphanBlocks[k]? = some b ↔
      s₀.mapOrphanBlocks[k]? = some b ∧ b.hashPrevBlock ∉ visited := by
    intro k b
    rw [h.orphans, Option.filter_eq_some_iff, decide_eq_true_iff]
  constructor
  · intro hs k k' b b' hb hb' hpos hpos' heq hin
    by_contra hout
    -- the stake of the one that stays has gone with the other
    have hmem := (hs b'.getProofOfStake).mpr ⟨k', b', (hstays k' b').mpr ⟨hb', hout⟩, hpos', rfl⟩
    exact ((h.stakes _).mp hmem).2 k b hb hin heq
  · intro htogether stake
    rw [h.stakes]
    constructor
    · rintro ⟨hmem, hnone⟩
      obtain ⟨k, b, hb, hpos, heq⟩ := (hseen stake).mp hmem
      refine ⟨k, b, (hstays k b).mpr ⟨hb, ?_⟩, hpos, heq⟩
      intro hin
      exact hnone k b hb hin heq
    · rintro ⟨k, b, hb, hpos, heq⟩
      obtain ⟨hb₀, hout⟩ := (hstays k b).mp hb
      refine ⟨(hseen stake).mpr ⟨k, b, hb₀, hpos, heq⟩, ?_⟩
      intro k' b' hb' hin' heq'
      cases hpos' : b'.isProofOfStake with
      | true => exact hout (htogether k' k b' b hb' hb₀ hpos' hpos (heq'.trans heq.symm) hin')
      | false => exact getProofOfStake_ne hpos hpos' (heq.trans heq'.symm)

/-- Every call keeps the maps, and the stakes exactly when it takes orphans with one stake out
together. -/
theorem exec_books {op : SyncOp} (hs : Filed senv s) (h : exec senv s op = some s') :
    Filed senv s' ∧ (StakesSeen s → (StakesSeen s' ↔ s.Together senv op)) := by
  -- a call that leaves the books alone
  have hsame : SameOrphans s s' → s.Together senv op →
      Filed senv s' ∧ (StakesSeen s → (StakesSeen s' ↔ s.Together senv op)) := by
    intro hsame ht
    exact ⟨hsame.filed hs, fun hseen => iff_of_true (hsame.stakesSeen.mpr hseen) ht⟩
  have hfinal : s' = Lib.final (call senv op s) := by
    rcases exec_eq_some.mp h with h | ⟨e, -, h⟩ <;> rw [h] <;> rfl
  cases op with
  | checkpoint disk hashCheckpoint =>
      refine hsame ?_ trivial
      rw [hfinal]
      exact processSyncCheckpoint_sameOrphans senv disk hashCheckpoint s
  | pending disk =>
      refine hsame ?_ trivial
      rw [hfinal]
      exact acceptPendingSyncCheckpoint_sameOrphans senv disk s
  | other mempool wallets nAdjustedTime =>
      refine hsame ?_ trivial
      rw [hfinal]
      exact ⟨rfl, rfl, rfl⟩
  | block disk block =>
      rcases exec_block_cases hs h with ⟨hq, hso⟩ | ⟨hq, hnew, s₁, hso, hsh⟩ | ⟨s₁, hso, hR⟩
      · refine hsame hso ?_
        intro k k' b b' _ _ _ _ _ hin
        rw [hq] at hin
        cases hin
      · obtain ⟨hf, hst⟩ := (hso.filed hs).shuntOff (by rw [hso.mapOrphanBlocks]; exact hnew) hsh
        refine ⟨hf, fun hseen => iff_of_true (hst (hso.stakesSeen.mpr hseen)) ?_⟩
        intro k k' b b' _ _ _ _ _ hin
        rw [hq] at hin
        cases hin
      · refine ⟨hR.filed (hso.filed hs), fun hseen => ?_⟩
        rw [hR.stakesSeen_iff (hso.stakesSeen.mpr hseen), hso.mapOrphanBlocks]
        rfl

/-! ## Every run -/

/-- In every call of the run, orphans with one stake are taken out together. -/
def AlwaysTogether (senv : SyncEnv) : SyncState → List SyncOp → Prop
  | _, [] => True
  | s, op :: ops => s.Together senv op ∧
      ∀ s', exec senv s op = some s' → AlwaysTogether senv s' ops

/-- The two parts of the books at every point of a run. -/
theorem books_run (ops : List SyncOp) (hs : Filed senv s) :
    (∀ ops₁, ops₁ <+: ops → ∀ s', run senv ops₁ s = some s' → Filed senv s') ∧
      (StakesSeen s →
        ((∀ ops₁, ops₁ <+: ops → ∀ s', run senv ops₁ s = some s' → StakesSeen s') ↔
          AlwaysTogether senv s ops)) := by
  induction ops generalizing s with
  | nil =>
      have hnil : ∀ ops₁ : List SyncOp, ops₁ <+: [] → ∀ s', run senv ops₁ s = some s' → s = s' := by
        intro ops₁ hpre s' h
        rw [List.prefix_nil.mp hpre] at h
        exact Option.some.inj h
      refine ⟨fun ops₁ hpre s' h => hnil ops₁ hpre s' h ▸ hs, fun hseen => ?_⟩
      exact iff_of_true (fun ops₁ hpre s' h => hnil ops₁ hpre s' h ▸ hseen) trivial
  | cons op ops ih =>
      -- a beginning of the run is empty, or the first call and a beginning of the rest
      have hcons : ∀ {ops₁ : List SyncOp} {s' : SyncState}, ops₁ <+: op :: ops →
          run senv ops₁ s = some s' → s = s' ∨ ∃ s₁ ops₂, exec senv s op = some s₁ ∧
            ops₂ <+: ops ∧ run senv ops₂ s₁ = some s' := by
        intro ops₁ s' hpre h
        rcases List.prefix_cons_iff.mp hpre with rfl | ⟨ops₂, rfl, hpre₂⟩
        · exact .inl (Option.some.inj h)
        · unfold run at h
          rw [List.foldlM_cons] at h
          obtain ⟨s₁, h₁, h⟩ := Option.bind_eq_some_iff.mp h
          exact .inr ⟨s₁, ops₂, h₁, hpre₂, h⟩
      have hrun : ∀ {s₁ : SyncState} {ops₂ : List SyncOp}, exec senv s op = some s₁ →
          run senv (op :: ops₂) s = run senv ops₂ s₁ := by
        intro s₁ ops₂ h₁
        unfold run
        rw [List.foldlM_cons, h₁]
        rfl
      refine ⟨?_, fun hseen => ⟨?_, ?_⟩⟩
      · intro ops₁ hpre s' h
        rcases hcons hpre h with rfl | ⟨s₁, ops₂, h₁, hpre, h⟩
        · exact hs
        · exact (ih (exec_books hs h₁).1).1 ops₂ hpre s' h
      · intro hall
        refine ⟨?_, fun s₁ h₁ => ?_⟩
        · cases h₁ : exec senv s op with
          | some s₁ =>
              have := hall [op] ⟨ops, rfl⟩ s₁ (hrun h₁)
              exact ((exec_books hs h₁).2 hseen).mp this
          | none =>
              -- a call that throws has no queue
              exact together_of_throws h₁
        · have hseen₁ : StakesSeen s₁ := hall [op] ⟨ops, rfl⟩ s₁ (hrun h₁)
          refine ((ih (exec_books hs h₁).1).2 hseen₁).mp ?_
          intro ops₂ hpre s' h
          exact hall (op :: ops₂) (List.prefix_cons_inj op |>.mpr hpre) s' ((hrun h₁).trans h)
      · rintro ⟨ht, hrest⟩ ops₁ hpre s' h
        rcases hcons hpre h with rfl | ⟨s₁, ops₂, h₁, hpre, h⟩
        · exact hseen
        · have hb := exec_books hs h₁
          exact ((ih hb.1).2 ((hb.2 hseen).mpr ht)).mpr (hrest s₁ h₁) ops₂ hpre s' h

/-- In every run that starts without orphans, and whose calls return, the two maps hold the same blocks
at every point. The stakes are right at every point exactly when every call takes out all the orphans
of a stake or none of them. -/
theorem orphan_books_iff (senv : SyncEnv) (s : SyncState) (ops : List SyncOp) :
    let s₀ := { s with
      mapOrphanBlocks := ∅, mapOrphanBlocksByPrev := [], setStakeSeenOrphan := ∅ }
    (∀ ops₁, ops₁ <+: ops → ∀ s', run senv ops₁ s₀ = some s' → Filed senv s') ∧
      ((∀ ops₁, ops₁ <+: ops → ∀ s', run senv ops₁ s₀ = some s' → Filed senv s' ∧ StakesSeen s') ↔
        AlwaysTogether senv s₀ ops) := by
  intro s₀
  have hempty : ∀ k : Uint256, s₀.mapOrphanBlocks[k]? = none := fun k => Std.ExtTreeMap.getElem?_empty
  have hfiled : Filed senv s₀ := .of_empty rfl rfl
  have hseen : StakesSeen s₀ := by
    intro stake
    simp only [hempty]
    simp [s₀]
  obtain ⟨hfiled, hiff⟩ := books_run ops hfiled
  refine ⟨hfiled, ?_⟩
  rw [← hiff hseen]
  constructor
  · intro h ops₁ hpre s' hrun
    exact (h ops₁ hpre s' hrun).2
  · intro h ops₁ hpre s' hrun
    exact ⟨hfiled ops₁ hpre s' hrun, h ops₁ hpre s' hrun⟩

end SyncState

/-! ### A stake that is lost

Two orphans share a stake: the second is let in because an orphan waits for it. Then the block that
the first one waits for arrives. -/

def plainSync : SyncEnv :=
  { Env.plain with
    getNextTargetRequired := fun _ _ => 0x03000001
    checkProofOfStake := fun _ _ _ => some 0
    mapCheckpoints := fun _ => none
    getStakeEntropyBit := fun _ => 0
    computeNextStakeModifier := fun _ => some (0, false)
    checkStakeModifierCheckpoints := fun _ => true }

def plainDisk (_ : CBlock) : Disk := { files := forkFiles, writeToDisk := some (1, 1000) }

/-- A node on the genesis block. -/
def syncStart : SyncState := { node := { stateG with hashSyncCheckpoint := 1 } }

theorem treeInv_syncStart {env : Env} {full : Files}
    (hhash : env.getIDHash forkGenesis.toCBlockHeader = 1) (hgenesis : env.hashGenesisBlock = 1)
    (honDisk : full.block 1 0 = some forkGenesis) :
    TreeInv env full syncStart.node.mapBlockIndex := by
  have htree : syncStart.node.mapBlockIndex = Lib.PMap.empty.set 1 [indexG] := rfl
  intro k ptr hk
  rw [htree, Lib.PMap.set_apply] at hk
  split at hk
  · next heq =>
    cases hk
    subst heq
    exact ⟨indexG, [], forkGenesis, rfl, rfl, by decide, honDisk, hhash, rfl, rfl, by simp,
      fun hne => absurd rfl hne, fun _ => hgenesis.symm⟩
  · cases hk

def stakeTx : CTransaction where
  nTime := 5
  vin := [{ prevout := ⟨9, 0⟩ }]
  vout := [{ nValue := 0 }, { nValue := COIN, scriptPubKey := [1] }]

/-- A proof-of-stake block with hash `nNonce + 1`. -/
def stakeBlock (nNonce hashPrevBlock : Nat) : CBlock :=
  forkBlock nNonce hashPrevBlock [forkCoinbase 1 0, stakeTx]

/-- The block that the first orphan waits for. -/
def awaitedBlock : CBlock := { forkBlock 1 1 [forkCoinbase 1 COIN] with nTime := 6 }

/-- The child of the second orphan, both orphans, and the block the first one waits for. -/
def stakeRun : List SyncOp :=
  [forkBlock 12 12 [forkCoinbase 3 0], stakeBlock 10 2, stakeBlock 11 20, awaitedBlock].map
    (SyncOp.block plainDisk)

namespace SyncState

/-- The second orphan is still stored, and its stake is not in the set any more. -/
theorem not_orphan_books_stakeRun :
    ∃ s, run plainSync stakeRun syncStart = some s ∧
      s.mapOrphanBlocks[12]? = some (stakeBlock 11 20) ∧
      (stakeBlock 11 20).getProofOfStake ∉ s.setStakeSeenOrphan ∧
      ¬ (Filed plainSync s ∧ StakesSeen s) := by
  have hsome : (run plainSync stakeRun syncStart).isSome = true := by decide +kernel
  obtain ⟨s, hs⟩ := Option.isSome_iff_exists.mp hsome
  have hstored : s.mapOrphanBlocks[12]? = some (stakeBlock 11 20) := by
    have : (run plainSync stakeRun syncStart).bind (fun s => s.mapOrphanBlocks[12]?)
        = some (stakeBlock 11 20) := by decide +kernel
    rw [hs] at this
    exact this
  have hlost : (stakeBlock 11 20).getProofOfStake ∉ s.setStakeSeenOrphan := by
    have : (run plainSync stakeRun syncStart).map SyncState.setStakeSeenOrphan = some ∅ := by
      decide +kernel
    rw [hs] at this
    rw [Option.some.inj this]
    exact Finset.notMem_empty _
  refine ⟨s, hs, hstored, hlost, ?_⟩
  rintro ⟨-, hseen⟩
  exact hlost ((hseen _).mpr ⟨12, _, hstored, by decide, rfl⟩)

end SyncState

end ShinyCoin

import ShinyCoin.Sync.Settled

/-!
# The order in which blocks arrive does not matter

After every call a block that has arrived is indexed, or waits among the orphans for a parent that has
not arrived. So nothing waits once all blocks have arrived, and the highest of them is the best block.

That the blocks grow is shown along each branch: when a branch is delivered in order, its last block is
the best one, and the node is where the next block passed.
-/

namespace ShinyCoin

namespace Delivery

variable {d : Delivery}

/-! ## Branches of the set -/

/-- The hash a block on top of the branch has as its parent's. -/
def tipHash (d : Delivery) (hashPrev : Uint256) (branch : List CBlock) : Uint256 :=
  (branch.getLast?.map d.idHash).getD hashPrev

@[simp] theorem tipHash_nil (hashPrev : Uint256) : d.tipHash hashPrev [] = hashPrev := rfl

@[simp] theorem tipHash_concat (hashPrev : Uint256) (branch : List CBlock) (b : CBlock) :
    d.tipHash hashPrev (branch ++ [b]) = d.idHash b := by
  simp [tipHash]

theorem linked_concat {hashPrev : Uint256} {branch : List CBlock} {b : CBlock} :
    d.Linked hashPrev (branch ++ [b]) ↔
      d.Linked hashPrev branch ∧ b.hashPrevBlock = d.tipHash hashPrev branch := by
  induction branch generalizing hashPrev with
  | nil => simp [Linked]
  | cons c branch ih =>
      have htip : d.tipHash (d.idHash c) branch = d.tipHash hashPrev (c :: branch) := by
        simp only [tipHash, List.getLast?_cons]
        cases branch.getLast? <;> rfl
      rw [List.cons_append, Linked, Linked, ih, htip, and_assoc]

theorem Linked.of_append {hashPrev : Uint256} {branch rest : List CBlock}
    (h : d.Linked hashPrev (branch ++ rest)) : d.Linked hashPrev branch := by
  induction branch generalizing hashPrev with
  | nil => trivial
  | cons c branch ih => exact ⟨h.1, ih h.2⟩

/-- A branch is known by its last block. -/
theorem linked_unique (hd : d.Sound) {branch branch' : List CBlock} {b : CBlock}
    (hbranch : ∀ x ∈ branch, x ∈ d.blocks) (hbranch' : ∀ x ∈ branch', x ∈ d.blocks)
    (h : d.Linked d.senv.hashGenesisBlock (branch ++ [b]))
    (h' : d.Linked d.senv.hashGenesisBlock (branch' ++ [b])) : branch = branch' := by
  obtain ⟨hlinked, htip⟩ := linked_concat.mp h
  obtain ⟨hlinked', htip'⟩ := linked_concat.mp h'
  induction branch using List.reverseRecOn generalizing branch' b with
  | nil =>
      rcases List.eq_nil_or_concat branch' with rfl | ⟨rest, c, rfl⟩
      · rfl
      · rw [List.concat_eq_append] at hbranch' htip'
        rw [tipHash_concat] at htip'
        exact absurd (htip'.symm.trans htip) (hd.notGenesis c (hbranch' c (by simp)))
  | append_singleton branch c ih =>
      rw [tipHash_concat] at htip
      rcases List.eq_nil_or_concat branch' with rfl | ⟨rest, c', rfl⟩
      · exact absurd (htip.symm.trans htip') (hd.notGenesis c (hbranch c (by simp)))
      · rw [List.concat_eq_append] at hbranch' htip' hlinked' h' ⊢
        rw [tipHash_concat] at htip'
        have hc := List.inj_on_of_nodup_map hd.distinct (hbranch c (by simp))
          (hbranch' c' (by simp)) (htip.symm.trans htip')
        subst hc
        obtain ⟨hl, ht⟩ := linked_concat.mp hlinked
        obtain ⟨hl', ht'⟩ := linked_concat.mp hlinked'
        rw [ih (fun x hx => hbranch x (List.mem_append_left _ hx))
          (fun x hx => hbranch' x (List.mem_append_left _ hx)) hlinked hlinked' hl ht hl' ht']

/-- What a grown branch is that ends with the last block of the list. -/
theorem Grown.follows (hd : d.Sound) {branch : List CBlock} (hbranch : ∀ x ∈ branch, x ∈ d.blocks)
    (hlinked : d.Linked d.senv.hashGenesisBlock branch) {ptr : BlockPtr} {m : TxIndexMap}
    {vs : List BlockStats} (h : d.Grown ptr m vs)
    (hhash : BlockPtr.hash ptr = d.tipHash d.senv.hashGenesisBlock branch) :
    ptr.length = branch.length + 1 ∧
      ∀ k, (∀ b ∈ branch, ∀ tx ∈ b.vtx, d.senv.getHash tx ≠ k) → m k = none := by
  induction branch using List.reverseRecOn generalizing ptr m vs with
  | nil =>
      cases h with
      | genesis => exact ⟨rfl, fun _ _ => rfl⟩
      | block hprev hb hlink hcheck hcontext hentry hfresh hAt hheight hconn =>
          have hE := hd.entryOf hb hcheck hentry
          exact absurd (hE.hashBlock.symm.trans hhash) (hd.notGenesis _ hb)
  | append_singleton branch c ih =>
      have hc : c ∈ d.blocks := hbranch c (by simp)
      obtain ⟨hbefore, htip⟩ := linked_concat.mp hlinked
      rw [tipHash_concat] at hhash
      cases h with
      | genesis => exact absurd (hhash.symm.trans hd.start.hashBlock) (hd.notGenesis c hc)
      | @block b p q qs m vs t u hprev hb hlink hcheck hcontext hentry hfresh hAt hheight hconn =>
          have hE := hd.entryOf hb hcheck hentry
          have hsame := List.inj_on_of_nodup_map hd.distinct hb hc (hE.hashBlock.symm.trans hhash)
          subst hsame
          obtain ⟨hlen, hnone⟩ := ih (fun x hx => hbranch x (List.mem_append_left _ hx)) hbefore hprev
            (hlink.symm.trans htip)
          refine ⟨?_, ?_⟩
          · simp only [List.length_cons, List.length_append, List.length_nil] at hlen ⊢
            omega
          · intro k hk
            rw [CBlock.connectBlock_txIndex hconn, hAt.txIndex]
            exact applyTxs_eq_none (hnone k fun b' hb' => hk b' (List.mem_append_left _ hb'))
              (hk _ (by simp))

/-! ## What has arrived -/

/-- Every block that has arrived is indexed or waits; what waits for a block that is indexed waits for
one of the keys. -/
structure Received (d : Delivery) (arrived : List CBlock) (keys : List Uint256) (s : SyncState) :
    Prop where
  settled : d.Settled s.node
  hashPendingCheckpoint : s.hashPendingCheckpoint = 0
  indexed : ∀ h ptr, s.node.mapBlockIndex h = some ptr →
    h = d.senv.hashGenesisBlock ∨ ∃ b ∈ arrived, d.idHash b = h
  waiting : ∀ (k : Uint256) (b : CBlock), s.mapOrphanBlocks[k]? = some b →
    b ∈ arrived ∧ s.node.mapBlockIndex (d.idHash b) = none ∧
      ((s.node.mapBlockIndex b.hashPrevBlock).isSome → b.hashPrevBlock ∈ keys)
  placed : ∀ b ∈ arrived,
    (s.node.mapBlockIndex (d.idHash b)).isSome ∨ s.mapOrphanBlocks[d.idHash b]? = some b
  keys : ∀ k ∈ keys, (s.node.mapBlockIndex k).isSome

/-- What trying orphans one after another has done to the index and the queue. -/
structure Tried (d : Delivery) (s : SyncState) (queue : List Uint256) (tried : List CBlock)
    (r : SyncState × List Uint256) : Prop where
  settled : d.Settled r.1.node
  hashPendingCheckpoint : r.1.hashPendingCheckpoint = 0
  queue : r.2 = queue ++ tried.map d.idHash
  kept : ∀ h ptr, s.node.mapBlockIndex h = some ptr → r.1.node.mapBlockIndex h = some ptr
  added : ∀ h ptr, r.1.node.mapBlockIndex h = some ptr →
    s.node.mapBlockIndex h = some ptr ∨ ∃ b ∈ tried, d.idHash b = h
  indexed : ∀ b ∈ tried, (r.1.node.mapBlockIndex (d.idHash b)).isSome

section

variable {s : SyncState} {queue keys : List Uint256} {tried arrived : List CBlock} {b : CBlock}
  {k : Uint256}

/-- An orphan whose parent is indexed is accepted. -/
theorem Tried.tryOrphan (hd : d.Sound) {r : SyncState × List Uint256} (hr : d.Tried s queue tried r)
    (hb : b ∈ d.blocks) (hgrows : d.Grows b) (hnew : s.node.mapBlockIndex (d.idHash b) = none)
    (hfirst : ∀ c ∈ tried, d.idHash c ≠ d.idHash b) {pprev : BlockPtr}
    (hprev : s.node.mapBlockIndex b.hashPrevBlock = some pprev) :
    ∃ r', SyncState.tryOrphan d.senv d.disk r b = .ok r' ∧ d.Tried s queue (tried ++ [b]) r' := by
  have hnew' : r.1.node.mapBlockIndex (d.idHash b) = none := by
    rw [Option.eq_none_iff_forall_ne_some]
    intro ptr hptr
    rcases hr.added _ _ hptr with hold | ⟨c, hc, heq⟩
    · rw [hnew] at hold
      cases hold
    · exact hfirst c hc heq
  obtain ⟨node, hacc, hnode, p, hindex⟩ := hr.settled.acceptBlock hd hr.hashPendingCheckpoint hb
    hgrows hnew' (hr.kept _ _ hprev)
  refine ⟨(SyncState.takeOut d.senv b { r.1 with node := node }, r.2 ++ [d.idHash b]), ?_, ?_⟩
  · unfold SyncState.tryOrphan
    rw [hacc]
    rfl
  · refine ⟨hnode, hr.hashPendingCheckpoint, ?_, ?_, ?_, ?_⟩
    · rw [hr.queue, List.map_append, List.append_assoc]
      rfl
    · intro h ptr hptr
      show node.mapBlockIndex h = some ptr
      rw [hindex, Lib.PMap.set_of_ne]
      · exact hr.kept h ptr hptr
      · rintro rfl
        rw [hnew] at hptr
        cases hptr
    · intro h ptr hptr
      change node.mapBlockIndex h = some ptr at hptr
      rw [hindex, Lib.PMap.set_apply] at hptr
      split at hptr
      · next heq => exact .inr ⟨b, by simp, heq.symm⟩
      · exact (hr.added h ptr hptr).imp_right fun ⟨c, hc, heq⟩ => ⟨c, List.mem_append_left _ hc, heq⟩
    · intro c hc
      show (node.mapBlockIndex (d.idHash c)).isSome
      rw [hindex, Lib.PMap.set_apply]
      split
      · rfl
      · next hne =>
        rcases List.mem_append.mp hc with hc | hc
        · exact hr.indexed c hc
        · rw [List.mem_singleton.mp hc] at hne
          exact absurd rfl hne

/-- All the orphans of a key are accepted. -/
theorem Received.tryOrphans (hd : d.Sound) (hs : d.Received arrived (k :: keys) s)
    (hfiled : SyncState.Filed d.senv s) (hgrows : ∀ b ∈ arrived, b ∈ d.blocks ∧ d.Grows b)
    (queue : List Uint256) :
    ∃ r', (s.orphansUnder k).foldlM (SyncState.tryOrphan d.senv d.disk) (s, queue) = .ok r' ∧
      d.Tried s queue (s.orphansUnder k) r' := by
  have hunder : ∀ b ∈ s.orphansUnder k, b.hashPrevBlock = k ∧ b ∈ arrived ∧
      s.node.mapBlockIndex (d.idHash b) = none := by
    intro b hb
    obtain ⟨hprev, hstored⟩ := (SyncState.mem_orphansUnder hfiled).mp hb
    obtain ⟨harr, hnew, -⟩ := hs.waiting _ b hstored
    exact ⟨hprev, harr, hnew⟩
  have hnodup : (s.orphansUnder k).Nodup := by
    unfold SyncState.orphansUnder
    refine List.Nodup.map_on ?_ (hfiled.once.filter _)
    rintro ⟨k₁, b₁⟩ h₁ ⟨k₂, b₂⟩ h₂ rfl
    have e₁ := (List.mem_filter.mp h₁).2
    have e₂ := (List.mem_filter.mp h₂).2
    rw [beq_iff_eq] at e₁ e₂
    exact Prod.ext (e₁.trans e₂.symm) rfl
  obtain ⟨pprev, hpprev⟩ := Option.isSome_iff_exists.mp (hs.keys k List.mem_cons_self)
  refine Lib.foldlM_total (d.Tried s queue) ?_ ?_
  · intro tried b rest r hsplit hr
    have hmem : b ∈ s.orphansUnder k := by
      rw [hsplit]
      simp
    obtain ⟨hprev, harr, hnew⟩ := hunder b hmem
    refine hr.tryOrphan hd (hgrows b harr).1 (hgrows b harr).2 hnew ?_ (by rw [hprev]; exact hpprev)
    intro c hc heq
    have hcmem : c ∈ s.orphansUnder k := by
      rw [hsplit]
      exact List.mem_append_left _ hc
    have hcb := List.inj_on_of_nodup_map hd.distinct (hgrows c (hunder c hcmem).2.1).1
      (hgrows b harr).1 heq
    rw [hsplit] at hnodup
    rw [hcb] at hc
    exact (List.nodup_append.mp hnodup).2.2 b hc b List.mem_cons_self rfl
  · exact ⟨hs.settled, hs.hashPendingCheckpoint, by simp, fun _ _ h => h, fun _ _ h => .inl h, by simp⟩

/-- One round of the loop over the queue: the key is done with, the orphans it had are keys now. -/
theorem Received.visitPrev (hd : d.Sound) {s₀ : SyncState} {visited : List Uint256}
    {r : SyncState × List Uint256} (hs : d.Received arrived (k :: keys) r.1)
    (hresolved : SyncState.Resolved s₀ visited r.1) (hfiled : SyncState.Filed d.senv s₀)
    (hgrows : ∀ b ∈ arrived, b ∈ d.blocks ∧ d.Grows b) :
    ∃ r' new, SyncState.visitPrev d.senv d.disk r k = .ok (r', new) ∧
      d.Received arrived (keys ++ new) r'.1 := by
  obtain ⟨r₁, hloop, htried⟩ := hs.tryOrphans hd (hresolved.filed hfiled) hgrows r.2
  have hvisit : SyncState.visitPrev d.senv d.disk r k = .ok
      (({ r₁.1 with mapOrphanBlocksByPrev := r₁.1.mapOrphanBlocksByPrev.filter fun x => x.1 != k },
        r₁.2), (r.1.orphansUnder k).map d.idHash) := by
    unfold SyncState.visitPrev
    refine Lib.bind_eq_ok.mpr ⟨r₁, hloop, ?_⟩
    rw [htried.queue, List.drop_left]
    rfl
  obtain ⟨hresolved', -, -⟩ := hresolved.visit hfiled hvisit
  -- what still waits is what waited and did not wait for `k`
  have hstays : ∀ (h : Uint256) (b : CBlock), r₁.1.mapOrphanBlocks[h]? = some b ↔
      r.1.mapOrphanBlocks[h]? = some b ∧ b.hashPrevBlock ≠ k := by
    intro h b
    have hafter := hresolved'.orphans h
    change r₁.1.mapOrphanBlocks[h]? = _ at hafter
    rw [hafter, hresolved.orphans h, Option.filter_eq_some_iff, Option.filter_eq_some_iff]
    simp only [List.mem_append, List.mem_singleton, decide_eq_true_eq]
    tauto
  refine ⟨_, _, hvisit, htried.settled, htried.hashPendingCheckpoint, ?_, ?_, ?_, ?_⟩
  · intro h ptr hptr
    rcases htried.added h ptr hptr with hold | ⟨b, hb, heq⟩
    · exact hs.indexed h ptr hold
    · obtain ⟨-, hstored⟩ := (SyncState.mem_orphansUnder (hresolved.filed hfiled)).mp hb
      exact .inr ⟨b, (hs.waiting _ b hstored).1, heq⟩
  · intro h b hb
    obtain ⟨hold, hne⟩ := (hstays h b).mp hb
    obtain ⟨harr, hnew, hwait⟩ := hs.waiting h b hold
    refine ⟨harr, ?_, ?_⟩
    · rw [Option.eq_none_iff_forall_ne_some]
      intro ptr hptr
      rcases htried.added _ ptr hptr with hold' | ⟨c, hc, heq⟩
      · rw [hnew] at hold'
        cases hold'
      · -- then it was one of those that waited for `k`
        obtain ⟨hprev, hstored⟩ := (SyncState.mem_orphansUnder (hresolved.filed hfiled)).mp hc
        have hcb := List.inj_on_of_nodup_map hd.distinct
          (hgrows c (hs.waiting _ c hstored).1).1 (hgrows b harr).1 heq
        rw [hcb] at hprev
        exact hne hprev
    · intro hsome
      obtain ⟨ptr, hptr⟩ := Option.isSome_iff_exists.mp hsome
      rcases htried.added _ ptr hptr with hold' | ⟨c, hc, heq⟩
      · rcases List.mem_cons.mp (hwait (by rw [hold']; rfl)) with heq | hmem
        · exact absurd heq hne
        · exact List.mem_append_left _ hmem
      · rw [← heq]
        exact List.mem_append_right _ (List.mem_map_of_mem hc)
  · intro b hb
    rcases hs.placed b hb with hsome | hstored
    · obtain ⟨ptr, hptr⟩ := Option.isSome_iff_exists.mp hsome
      exact .inl (by rw [htried.kept _ ptr hptr]; rfl)
    · by_cases hk : b.hashPrevBlock = k
      · exact .inl (htried.indexed b
          ((SyncState.mem_orphansUnder (hresolved.filed hfiled)).mpr ⟨hk, hstored⟩))
      · exact .inr ((hstays _ b).mpr ⟨hstored, hk⟩)
  · intro h hh
    rcases List.mem_append.mp hh with hh | hh
    · obtain ⟨ptr, hptr⟩ := Option.isSome_iff_exists.mp (hs.keys h (List.mem_cons_of_mem _ hh))
      rw [htried.kept _ ptr hptr]
      rfl
    · obtain ⟨b, hb, rfl⟩ := List.mem_map.mp hh
      exact htried.indexed b hb

/-- The whole loop: in the end nothing waits for a block that is indexed. -/
theorem Received.resolveOrphans (hd : d.Sound) (hs : d.Received arrived [k] s)
    (hfiled : SyncState.Filed d.senv s) (hgrows : ∀ b ∈ arrived, b ∈ d.blocks ∧ d.Grows b) :
    ∃ r, SyncState.resolveOrphans d.senv d.disk s k = .ok r ∧ d.Received arrived [] r.1 ∧
      SyncState.Filed d.senv r.1 := by
  have hloop : ∃ r, Lib.drain (SyncState.visitPrev d.senv d.disk)
      (s.mapOrphanBlocksByPrev.length + 1) [k] (s, [k]) = .ok r ∧
        (∃ visited, SyncState.Resolved s visited r.1) ∧ d.Received arrived [] r.1 := by
    refine Lib.drain_isOk (μ := fun r : SyncState × List Uint256 => r.1.mapOrphanBlocksByPrev.length)
      (fun keys r => (∃ visited, SyncState.Resolved s visited r.1) ∧ d.Received arrived keys r.1)
      ?_ ⟨⟨[], SyncState.Resolved.nil s⟩, hs⟩ (by simp [Nat.add_comm])
    rintro k keys r ⟨⟨visited, hresolved⟩, hreceived⟩
    obtain ⟨r', new, hvisit, hreceived'⟩ := hreceived.visitPrev hd hresolved hfiled hgrows
    obtain ⟨hresolved', -, hle⟩ := hresolved.visit hfiled hvisit
    exact ⟨r', new, hvisit, ⟨⟨_, hresolved'⟩, hreceived'⟩, hle⟩
  obtain ⟨r, hr, ⟨visited, hresolved⟩, hreceived⟩ := hloop
  exact ⟨r, hr, hreceived, hresolved.filed hfiled⟩

/-! ## One call -/

theorem checkStake_of_isProofOfWork {senv : SyncEnv} (hpow : b.isProofOfWork = true) :
    SyncState.checkStake senv b s = .ok s := by
  have hstake := CBlock.isProofOfStake_of_isProofOfWork hpow
  unfold CBlock.isProofOfStake at hstake
  unfold SyncState.checkStake
  dsimp only
  split
  · next coinbase tx rest hvtx =>
    rw [hvtx] at hstake
    exact if_neg (Bool.eq_false_iff.mp hstake)
  · rfl

theorem Grows.checkBlock (hd : d.Sound) (hb : b ∈ d.blocks) (hgrows : d.Grows b) :
    b.checkBlock d.senv.toEnv d.start.node.nAdjustedTime true = .ok () := by
  obtain ⟨p, pprev, m, vs, hgrown, hhash⟩ := hgrows
  cases hgrown with
  | genesis => exact absurd (hhash.symm.trans hd.start.hashBlock) (hd.notGenesis b hb)
  | block hprev hb' hlink hcheck hcontext hentry hfresh hAt hheight hconn =>
      have hE := hd.entryOf hb' hcheck hentry
      rw [← List.inj_on_of_nodup_map hd.distinct hb' hb (hE.hashBlock.symm.trans hhash)]
      exact hcheck

/-- A block that has not arrived is not indexed. -/
theorem Received.not_indexed (hd : d.Sound) (hs : d.Received arrived keys s) (hb : b ∈ d.blocks)
    (hfirst : ∀ c ∈ arrived, d.idHash c ≠ d.idHash b) : s.node.mapBlockIndex (d.idHash b) = none := by
  rw [Option.eq_none_iff_forall_ne_some]
  intro ptr hptr
  rcases hs.indexed _ ptr hptr with heq | ⟨c, hc, heq⟩
  · exact hd.notGenesis b hb heq
  · exact hfirst c hc heq

/-- And does not wait. -/
theorem Received.not_orphan (hs : d.Received arrived keys s) (hfiled : SyncState.Filed d.senv s)
    (hfirst : ∀ c ∈ arrived, d.idHash c ≠ d.idHash b) : s.mapOrphanBlocks[d.idHash b]? = none := by
  rw [Option.eq_none_iff_forall_ne_some]
  intro c hc
  exact hfirst c (hs.waiting _ c hc).1 (hfiled.keyed _ c hc)

/-- A block that has grown passes the checks of `ProcessBlock`, which leave the node as it is. -/
theorem Received.checkReceived (hd : d.Sound) (hs : d.Received arrived [] s)
    (hfiled : SyncState.Filed d.senv s) (hb : b ∈ d.blocks) (hgrows : d.Grows b)
    (hfirst : ∀ c ∈ arrived, d.idHash c ≠ d.idHash b) :
    SyncState.checkReceived d.senv b s = .ok s := by
  have horphan : d.idHash b ∉ s.mapOrphanBlocks :=
    Lib.getElem?_eq_none_iff.mp (hs.not_orphan hfiled hfirst)
  have hcheck := hgrows.checkBlock hd hb
  rw [← hs.settled.nAdjustedTime] at hcheck
  have hpow := hd.proofOfWork b hb
  unfold SyncState.checkReceived
  refine Lib.seq_eq_ok.mpr ⟨?_, Lib.seq_eq_ok.mpr ⟨?_, Lib.seq_eq_ok.mpr ⟨?_, Lib.seq_eq_ok.mpr
    ⟨Lib.mapError_eq_ok.mpr (CBlock.checkBlock_iff.mp hcheck).1, Lib.bind_eq_ok.mpr
      ⟨s, checkStake_of_isProofOfWork hpow, Lib.seq_eq_ok.mpr ⟨Lib.mapError_eq_ok.mpr hcheck, rfl⟩⟩⟩⟩⟩⟩
  · rw [Lib.require_eq_ok, Option.isNone_iff_eq_none]
    exact hs.not_indexed hd hb hfirst
  · rw [Lib.require_eq_ok, Bool.not_eq_true', Bool.eq_false_iff]
    exact fun h => horphan (Std.ExtTreeMap.contains_iff_mem.mp h)
  · rw [CBlock.isProofOfStake_of_isProofOfWork hpow]
    rfl

/-- A block whose parent has not arrived waits for it. -/
theorem Received.shuntOff (hd : d.Sound) (hs : d.Received arrived [] s)
    (hfiled : SyncState.Filed d.senv s) (hb : b ∈ d.blocks)
    (hfirst : ∀ c ∈ arrived, d.idHash c ≠ d.idHash b)
    (hprev : s.node.mapBlockIndex b.hashPrevBlock = none) :
    ∃ s', SyncState.shuntOff d.senv b s = .ok s' ∧ d.Received (arrived ++ [b]) [] s' ∧
      SyncState.Filed d.senv s' := by
  have hpow := hd.proofOfWork b hb
  have hnone := hs.not_orphan hfiled hfirst
  have hrun : ∃ s', SyncState.shuntOff d.senv b s = .ok s' ∧ s'.node = s.node ∧
      s'.hashPendingCheckpoint = s.hashPendingCheckpoint ∧
      s'.mapOrphanBlocks = s.mapOrphanBlocks.insertIfNew (d.idHash b) b := by
    unfold SyncState.shuntOff
    rw [CBlock.isProofOfStake_of_isProofOfWork hpow]
    exact ⟨_, rfl, rfl, rfl, rfl⟩
  obtain ⟨s', hs', hnode, hpending, hmap⟩ := hrun
  have hget : ∀ k : Uint256, s'.mapOrphanBlocks[k]?
      = if k = d.idHash b then some b else s.mapOrphanBlocks[k]? := by
    intro k
    rw [hmap, Lib.getElem?_insertIfNew]
    by_cases hk : k = d.idHash b
    · rw [if_pos ⟨hk, by rw [hk]; exact hnone⟩, if_pos hk]
    · rw [if_neg (fun h => hk h.1), if_neg hk]
  refine ⟨s', hs', ⟨?_, hpending.trans hs.hashPendingCheckpoint, ?_, ?_, ?_, by simp⟩,
    (hfiled.shuntOff hnone hs').1⟩
  · rw [hnode]
    exact hs.settled
  · intro h ptr hptr
    rw [hnode] at hptr
    exact (hs.indexed h ptr hptr).imp_right fun ⟨c, hc, heq⟩ => ⟨c, List.mem_append_left _ hc, heq⟩
  · intro k c hc
    rw [hnode]
    rw [hget] at hc
    split at hc
    · cases hc
      refine ⟨by simp, hs.not_indexed hd hb hfirst, fun hsome => ?_⟩
      rw [hprev] at hsome
      cases hsome
    · obtain ⟨harr, hnew, hwait⟩ := hs.waiting k c hc
      exact ⟨List.mem_append_left _ harr, hnew, hwait⟩
  · intro c hc
    rw [hnode, hget]
    rcases List.mem_append.mp hc with hc | hc
    · rw [if_neg (hfirst c hc)]
      exact hs.placed c hc
    · rw [List.mem_singleton.mp hc]
      exact .inr (if_pos rfl)

/-- A block whose parent is indexed is accepted, and is the key the loop over the orphans begins with. -/
theorem Received.acceptBlock (hd : d.Sound) (hs : d.Received arrived [] s)
    (hfiled : SyncState.Filed d.senv s) (hb : b ∈ d.blocks) (hgrows : d.Grows b)
    (hfirst : ∀ c ∈ arrived, d.idHash c ≠ d.idHash b) {pprev : BlockPtr}
    (hprev : s.node.mapBlockIndex b.hashPrevBlock = some pprev) :
    ∃ s', b.acceptBlock d.senv (d.disk b) s = .ok s' ∧
      d.Received (arrived ++ [b]) [d.idHash b] s' ∧ SyncState.Filed d.senv s' := by
  obtain ⟨node, hacc, hnode, p, hindex⟩ := hs.settled.acceptBlock hd hs.hashPendingCheckpoint hb hgrows
    (hs.not_indexed hd hb hfirst) hprev
  have hkept : ∀ h, (s.node.mapBlockIndex h).isSome → (node.mapBlockIndex h).isSome := by
    intro h hsome
    rw [hindex, Lib.PMap.set_apply]
    split
    · rfl
    · exact hsome
  have hself : (node.mapBlockIndex (d.idHash b)).isSome := by
    rw [hindex, Lib.PMap.set_self]
    rfl
  refine ⟨_, hacc, ⟨hnode, hs.hashPendingCheckpoint, ?_, ?_, ?_, ?_⟩, ⟨hfiled.1, hfiled.2, hfiled.3⟩⟩
  · intro h ptr hptr
    change node.mapBlockIndex h = some ptr at hptr
    rw [hindex, Lib.PMap.set_apply] at hptr
    split at hptr
    · next heq => exact .inr ⟨b, by simp, heq.symm⟩
    · exact (hs.indexed h ptr hptr).imp_right fun ⟨c, hc, heq⟩ => ⟨c, List.mem_append_left _ hc, heq⟩
  · intro k c hc
    obtain ⟨harr, hnew', hwait⟩ := hs.waiting k c hc
    refine ⟨List.mem_append_left _ harr, ?_, fun hsome => ?_⟩
    · show node.mapBlockIndex (d.idHash c) = none
      rw [hindex, Lib.PMap.set_of_ne (hfirst c harr)]
      exact hnew'
    · change (node.mapBlockIndex c.hashPrevBlock).isSome at hsome
      rw [hindex, Lib.PMap.set_apply] at hsome
      split at hsome
      · next heq =>
        rw [heq]
        exact List.mem_singleton_self _
      · exact absurd (hwait hsome) List.not_mem_nil
  · intro c hc
    rcases List.mem_append.mp hc with hc | hc
    · exact (hs.placed c hc).imp_left (hkept _)
    · rw [List.mem_singleton.mp hc]
      exact .inl hself
  · intro k hk
    rw [List.mem_singleton.mp hk]
    exact hself

/-- One call of `ProcessBlock`. -/
theorem Received.processBlock (hd : d.Sound) (hs : d.Received arrived [] s)
    (hfiled : SyncState.Filed d.senv s) (hgrows : ∀ c ∈ arrived ++ [b], c ∈ d.blocks ∧ d.Grows c)
    (hnodup : (arrived ++ [b]).Nodup) :
    ∃ s', SyncState.exec d.senv s (.block d.disk b) = some s' ∧ d.Received (arrived ++ [b]) [] s' ∧
      SyncState.Filed d.senv s' := by
  obtain ⟨hb, hgrowsb⟩ := hgrows b (by simp)
  have hfirst : ∀ c ∈ arrived, d.idHash c ≠ d.idHash b := by
    intro c hc heq
    have hcb := List.inj_on_of_nodup_map hd.distinct (hgrows c (List.mem_append_left _ hc)).1 hb heq
    rw [hcb] at hc
    exact (List.nodup_append.mp hnodup).2.2 b hc b (List.mem_singleton_self b) rfl
  have hcheck := hs.checkReceived hd hfiled hb hgrowsb hfirst
  cases hprev : s.node.mapBlockIndex b.hashPrevBlock with
  | none =>
      obtain ⟨s', hs', hreceived, hfiled'⟩ := hs.shuntOff hd hfiled hb hfirst hprev
      refine ⟨s', SyncState.exec_eq_some.mpr (.inl ?_), hreceived, hfiled'⟩
      show SyncState.processBlock d.senv d.disk b s = .ok s'
      unfold SyncState.processBlock
      refine Lib.bind_eq_ok.mpr ⟨s, hcheck, ?_⟩
      rw [hprev]
      exact hs'
  | some pprev =>
      obtain ⟨s₁, hacc, hreceived₁, hfiled₁⟩ := hs.acceptBlock hd hfiled hb hgrowsb hfirst hprev
      obtain ⟨r, hr, hreceived, hfiled'⟩ := hreceived₁.resolveOrphans hd hfiled₁ hgrows
      refine ⟨r.1, SyncState.exec_eq_some.mpr (.inl ?_), hreceived, hfiled'⟩
      show SyncState.processBlock d.senv d.disk b s = .ok r.1
      unfold SyncState.processBlock
      refine Lib.bind_eq_ok.mpr ⟨s, hcheck, ?_⟩
      rw [hprev, if_neg (by simp)]
      exact Lib.bind_eq_ok.mpr ⟨s₁, Lib.mapError_eq_ok.mpr hacc, Lib.bind_eq_ok.mpr ⟨r, hr, rfl⟩⟩

end

/-! ## Every run -/

theorem AtGenesis.received (hs : d.AtGenesis) : d.Received [] [] d.start := by
  refine ⟨hs.settled, hs.hashPendingCheckpoint, ?_, ?_, by simp, by simp⟩
  · intro h ptr hptr
    obtain ⟨p, pprev, block, rfl, hE⟩ := hs.inv.tree h ptr hptr
    exact .inl (hE.genesis (List.cons.inj (hs.mapBlockIndex h _ hptr)).2)
  · intro k b hb
    rw [hs.mapOrphanBlocks, Std.ExtTreeMap.getElem?_empty] at hb
    cases hb

theorem deliver_concat (order : List CBlock) (b : CBlock) : d.deliver (order ++ [b])
    = (d.deliver order).bind fun s => SyncState.exec d.senv s (.block d.disk b) := by
  unfold deliver SyncState.run
  rw [List.map_append, List.foldlM_append]
  cases (order.map (SyncOp.block d.disk)).foldlM (SyncState.exec d.senv) d.start with
  | none => rfl
  | some s =>
      show (SyncState.exec d.senv s (.block d.disk b)).bind some = _
      exact Option.bind_fun_some _

/-- Blocks that grow are received in every order. -/
theorem received (hd : d.Sound) {order : List CBlock}
    (horder : ∀ b ∈ order, b ∈ d.blocks ∧ d.Grows b) (hnodup : order.Nodup) :
    ∃ s, d.deliver order = some s ∧ d.Received order [] s ∧ SyncState.Filed d.senv s := by
  induction order using List.reverseRecOn with
  | nil =>
      exact ⟨d.start, rfl, hd.start.received,
        .of_empty hd.start.mapOrphanBlocks hd.start.mapOrphanBlocksByPrev⟩
  | append_singleton order b ih =>
      obtain ⟨s, hs, hreceived, hfiled⟩ := ih (fun c hc => horder c (List.mem_append_left _ hc))
        (List.nodup_append.mp hnodup).1
      obtain ⟨s', hs', hreceived', hfiled'⟩ := hreceived.processBlock hd hfiled horder hnodup
      refine ⟨s', ?_, hreceived', hfiled'⟩
      rw [deliver_concat, hs]
      exact hs'

/-! ## Every block grows -/

section

variable {s : SyncState} {arrived branch : List CBlock} {b : CBlock} {q : CBlockIndex} {qs : BlockPtr}

/-- A branch that was delivered in its order is the best one. -/
theorem Received.pindexBest (hd : d.Sound) (hs : d.Received branch [] s)
    (hbranch : ∀ x ∈ branch, x ∈ d.blocks) (hlinked : d.Linked d.senv.hashGenesisBlock branch)
    (hprev : s.node.mapBlockIndex (d.tipHash d.senv.hashGenesisBlock branch) = some (q :: qs)) :
    s.node.pindexBest = q :: qs := by
  obtain ⟨m, vs, hbest, -⟩ := hs.settled.connected
  obtain ⟨m', vs', hgrown⟩ := hs.settled.grown _ _ hprev
  have hindexed := hs.settled.inv.best hs.settled.pindexBest_ne_nil
  -- the best block is the last of some beginning of the branch
  have hbeginning : ∃ l rest, branch = l ++ rest ∧
      BlockPtr.hash s.node.pindexBest = d.tipHash d.senv.hashGenesisBlock l := by
    rcases hs.indexed _ _ hindexed with heq | ⟨c, hc, heq⟩
    · exact ⟨[], branch, rfl, heq⟩
    · obtain ⟨l, rest, rfl⟩ := List.append_of_mem hc
      exact ⟨l ++ [c], rest, by simp, by rw [tipHash_concat]; exact heq.symm⟩
  obtain ⟨l, rest, rfl, hhash⟩ := hbeginning
  obtain ⟨hlen, -⟩ := hbest.follows hd (fun x hx => hbranch x (List.mem_append_left _ hx))
    hlinked.of_append hhash
  have hhash' : BlockPtr.hash (q :: qs) = d.tipHash d.senv.hashGenesisBlock (l ++ rest) := by
    obtain ⟨p, pprev, block, heq, hE⟩ := hs.settled.inv.tree _ _ hprev
    cases heq
    exact hE.hashBlock
  obtain ⟨hlen', -⟩ := hgrown.follows hd hbranch hlinked hhash'
  -- and no block is higher
  have hle := hs.settled.highest _ _ hprev
  rw [hlen, hlen', List.length_append] at hle
  have hrest : rest = [] := List.length_eq_zero_iff.mp (by omega)
  rw [hrest, List.append_nil] at hprev
  exact (hs.settled.eq_of_hash hd hprev hbest hhash).symm

/-- So a block that passes after its ancestors grows. -/
theorem Received.grows (hd : d.Sound) (hs : d.Received branch [] s) (hb : b ∈ d.blocks)
    (hbranch : ∀ x ∈ branch, x ∈ d.blocks)
    (hlinked : d.Linked d.senv.hashGenesisBlock (branch ++ [b])) (hpasses : d.Passes s b)
    (hfresh : ∀ c ∈ branch, ∀ tx ∈ b.vtx, ∀ tx' ∈ c.vtx, d.senv.getHash tx ≠ d.senv.getHash tx') :
    d.Grows b := by
  obtain ⟨hcheck, q, qs, p, hprev, hcontext, hfill, hconn⟩ := hpasses
  obtain ⟨hlinked', htip⟩ := linked_concat.mp hlinked
  have hbest := hs.pindexBest hd hbranch hlinked' (htip ▸ hprev)
  obtain ⟨m, vs, hgrown, hAt⟩ := hs.settled.connected
  rw [hbest] at hgrown hAt
  obtain ⟨u, hu⟩ : ∃ u, b.connectBlock d.senv.toEnv d.files p (q :: qs) s.node.inView = .ok u := by
    cases hu : b.connectBlock d.senv.toEnv d.files p (q :: qs) s.node.inView with
    | ok u => exact ⟨u, rfl⟩
    | error e =>
        rw [hu] at hconn
        cases hconn
  have hlink : b.hashPrevBlock = q.hashBlock := by
    obtain ⟨q', qs', block, heq, hE⟩ := hs.settled.inv.tree _ _ hprev
    cases heq
    exact hE.hashBlock.symm
  rw [hs.settled.nAdjustedTime] at hcheck
  rw [hs.settled.checkContext_eq hd hd.start.settled hgrown] at hcontext
  have hentry : d.entry b (q :: qs) = .ok p := by
    rw [← hfill]
    exact CBlock.fill_of_isProofOfWork (hd.proofOfWork b hb)
  have hheight : s.node.nBestHeight = q.nHeight := by
    have h := hs.settled.nBestHeight
    rw [hbest, List.length_cons] at h
    rw [(hgrown.rooted hd).2.1.1]
    push_cast at h
    omega
  have hnone : ∀ tx ∈ b.vtx, m (d.senv.getHash tx) = none := by
    intro tx htx
    refine (hgrown.follows hd hbranch hlinked' (hlink.symm.trans htip)).2 _ ?_
    exact fun c hc tx' htx' => (hfresh c hc tx htx tx' htx').symm
  exact ⟨p, q :: qs, _, _, .block hgrown hb hlink hcheck hcontext hentry hnone hAt hheight hu,
    (hd.entryOf hb hcheck hentry).hashBlock⟩

/-- The blocks of a branch are different and grow: each of them passes on the node that the ones before
it lead to. -/
theorem grows_of_linked (hd : d.Sound) (hbranch : ∀ x ∈ branch, x ∈ d.blocks)
    (hlinked : d.Linked d.senv.hashGenesisBlock branch) :
    branch.Nodup ∧ ∀ x ∈ branch, d.Grows x := by
  induction branch using List.reverseRecOn with
  | nil => exact ⟨List.nodup_nil, fun x hx => absurd hx List.not_mem_nil⟩
  | append_singleton branch b ih =>
      have hbefore : ∀ x ∈ branch, x ∈ d.blocks := fun x hx => hbranch x (List.mem_append_left _ hx)
      have hb : b ∈ d.blocks := hbranch b (by simp)
      obtain ⟨hnodup, hgrows⟩ := ih hbefore hlinked.of_append
      refine ⟨?_, ?_⟩
      · -- two branches of different lengths do not end with one block
        rw [List.nodup_append]
        refine ⟨hnodup, List.nodup_singleton b, ?_⟩
        intro x hx y hy hxy
        rw [hxy, List.mem_singleton.mp hy] at hx
        obtain ⟨l, rest, hsplit⟩ := List.append_of_mem hx
        have hl : l = branch := by
          refine linked_unique hd (fun x hx => hbefore x ?_) hbefore ?_ hlinked
          · rw [hsplit]
            exact List.mem_append_left _ hx
          · have hfirst := hlinked.of_append
            rw [hsplit, List.append_cons] at hfirst
            exact hfirst.of_append
        have := congrArg List.length hsplit
        rw [← hl, List.length_append, List.length_cons] at this
        omega
      · intro x hx
        rcases List.mem_append.mp hx with hx | hx
        · exact hgrows x hx
        · rw [List.mem_singleton.mp hx]
          obtain ⟨branch', hown⟩ := hd.own b hb
          have hsame := linked_unique hd hown.within hbefore hown.linked hlinked
          subst hsame
          obtain ⟨s, hs, hreceived, -⟩ := received hd (fun c hc => ⟨hbefore c hc, hgrows c hc⟩) hnodup
          obtain ⟨t, ht, hpasses⟩ := hown.passes
          rw [hs] at ht
          cases ht
          exact hreceived.grows hd hb hbefore hlinked hpasses hown.fresh

theorem grows (hd : d.Sound) (hb : b ∈ d.blocks) : d.Grows b := by
  obtain ⟨branch, hown⟩ := hd.own b hb
  refine (grows_of_linked hd ?_ hown.linked).2 b (by simp)
  intro x hx
  rcases List.mem_append.mp hx with hx | hx
  · exact hown.within x hx
  · rw [List.mem_singleton.mp hx]
    exact hb

/-! ## When all have arrived -/

/-- The end of a branch is indexed once the whole branch has arrived. -/
theorem Received.isSome_tip (hd : d.Sound) (hs : d.Received arrived [] s)
    (hbranch : ∀ x ∈ branch, x ∈ arrived) (hlinked : d.Linked d.senv.hashGenesisBlock branch) :
    (s.node.mapBlockIndex (d.tipHash d.senv.hashGenesisBlock branch)).isSome := by
  induction branch using List.reverseRecOn with
  | nil =>
      rw [tipHash_nil, hs.settled.genesis hd]
      rfl
  | append_singleton branch b ih =>
      obtain ⟨hbefore, hprev⟩ := linked_concat.mp hlinked
      have hparent := ih (fun x hx => hbranch x (List.mem_append_left _ hx)) hbefore
      rw [tipHash_concat]
      rcases hs.placed b (hbranch b (by simp)) with hsome | hwaits
      · exact hsome
      · obtain ⟨-, -, hwaiting⟩ := hs.waiting _ b hwaits
        exact absurd (hwaiting (by rw [hprev]; exact hparent)) List.not_mem_nil

theorem Received.isSome (hd : d.Sound) (hs : d.Received arrived [] s)
    (hall : ∀ x, x ∈ arrived ↔ x ∈ d.blocks) (hb : b ∈ d.blocks) :
    (s.node.mapBlockIndex (d.idHash b)).isSome := by
  obtain ⟨branch, hown⟩ := hd.own b hb
  have htip := hs.isSome_tip hd ?_ hown.linked
  · rw [tipHash_concat] at htip
    exact htip
  · intro x hx
    rw [hall]
    rcases List.mem_append.mp hx with hx | hx
    · exact hown.within x hx
    · rw [List.mem_singleton.mp hx]
      exact hb

/-- The chain trusts of the blocks. -/
def chainTrusts (d : Delivery) (s : NodeState) : Set ℤ :=
  {bnChainTrust | ∃ b ∈ d.blocks, ∃ p pprev,
    s.mapBlockIndex (d.idHash b) = some (p :: pprev) ∧ p.bnChainTrust = bnChainTrust}

theorem Received.isGreatest (hd : d.Sound) (hs : d.Received arrived [] s)
    (hall : ∀ x, x ∈ arrived ↔ x ∈ d.blocks) (hne : d.blocks ≠ []) :
    IsGreatest (d.chainTrusts s.node) s.node.bnBestChainTrust := by
  obtain ⟨best, rest, hcons⟩ := List.exists_cons_of_ne_nil hs.settled.pindexBest_ne_nil
  obtain ⟨m, vs, hgrown, -⟩ := hs.settled.connected
  have hindexed := hs.settled.inv.best hs.settled.pindexBest_ne_nil
  rw [hcons] at hgrown hindexed
  have htrust : s.node.bnBestChainTrust = best.bnChainTrust := by
    obtain ⟨-, hheights, htrust⟩ := hgrown.rooted hd
    have hheight := hs.settled.nBestHeight
    rw [hcons, List.length_cons] at hheight
    rw [hs.settled.bnBestChainTrust, htrust best rfl, hheights.1]
    push_cast at hheight
    omega
  constructor
  · rcases hs.indexed _ _ hindexed with heq | ⟨b, hb, heq⟩
    · -- the genesis block is not the highest one
      obtain ⟨b, hb⟩ := List.exists_mem_of_ne_nil _ hne
      obtain ⟨ptr, hptr⟩ := Option.isSome_iff_exists.mp (hs.isSome hd hall hb)
      have hgenesis := hs.settled.eq_of_hash hd (hs.settled.genesis hd) hgrown heq
      have hle := hs.settled.highest _ _ hptr
      rw [hcons, ← hgenesis] at hle
      obtain ⟨m', vs', hgrown'⟩ := hs.settled.grown _ _ hptr
      cases hgrown' with
      | genesis =>
          obtain ⟨p, pprev, block, hcons', hE⟩ := hs.settled.inv.tree _ _ hptr
          cases hcons'
          exact absurd (hE.hashBlock.symm.trans hd.start.hashBlock) (hd.notGenesis b hb)
      | block => simp only [List.length_cons, List.length_nil] at hle; omega
    · refine ⟨b, (hall b).mp hb, best, rest, ?_, htrust.symm⟩
      rw [heq]
      exact hindexed
  · rintro _ ⟨b, -, p, pprev, hptr, rfl⟩
    rw [htrust]
    exact hs.settled.trust_le hd hptr (by rw [hcons]; rfl)

theorem Received.mapOrphanBlocks (hd : d.Sound) (hs : d.Received arrived [] s)
    (hall : ∀ x, x ∈ arrived ↔ x ∈ d.blocks) : s.mapOrphanBlocks = ∅ := by
  refine Std.ExtTreeMap.ext_getElem? fun k => ?_
  rw [Std.ExtTreeMap.getElem?_empty, Option.eq_none_iff_forall_ne_some]
  intro b hb
  obtain ⟨harr, hnew, -⟩ := hs.waiting k b hb
  have hsome := hs.isSome hd hall ((hall b).mp harr)
  rw [hnew] at hsome
  cases hsome

end

/-- In whatever order the blocks arrive, in the end each of them is indexed, no orphan is left, and no
block of them has more chain trust than the best one. -/
theorem deliver_perm (d : Delivery) (hd : d.Sound) (order : List CBlock)
    (horder : order.Perm d.blocks) :
    ∃ s, d.deliver order = some s ∧
      (∀ b ∈ d.blocks, (s.node.mapBlockIndex (d.idHash b)).isSome) ∧
      s.mapOrphanBlocks = ∅ ∧ s.mapOrphanBlocksByPrev = [] ∧
      (d.blocks ≠ [] → IsGreatest (d.chainTrusts s.node) s.node.bnBestChainTrust) := by
  have hall : ∀ b, b ∈ order ↔ b ∈ d.blocks := fun b => horder.mem_iff
  obtain ⟨s, hs, hreceived, hfiled⟩ := received hd
    (fun b hb => ⟨(hall b).mp hb, grows hd ((hall b).mp hb)⟩)
    (horder.nodup_iff.mpr (List.Nodup.of_map _ hd.distinct))
  have hempty := hreceived.mapOrphanBlocks hd hall
  refine ⟨s, hs, fun b hb => hreceived.isSome hd hall hb, hempty, ?_, hreceived.isGreatest hd hall⟩
  rw [List.eq_nil_iff_forall_not_mem]
  rintro ⟨hashPrev, b⟩ hmem
  have hstored := ((hfiled.byPrev hashPrev b).mp hmem).2
  rw [hempty, Std.ExtTreeMap.getElem?_empty] at hstored
  cases hstored

end Delivery

/-! ### A block that waits while another branch is the best

`blockU2` comes first and waits for `blockU1`. Meanwhile `blockV1` becomes the best block, which the
node leaves when `blockU1` comes. -/

def workSync : SyncEnv :=
  { plainSync with
    checkProofOfWork := checkProofOfWork false
    mapCheckpoints := fun nHeight => if nHeight = 0 then some 1 else none }

/-- A block with hash `nNonce + 1`. -/
def workBlock (nTime nNonce hashPrevBlock : Nat) : CBlock :=
  { forkBlock nNonce hashPrevBlock [forkCoinbase nNonce COIN] with nTime := nTime }

def blockU1 : CBlock := workBlock 6 1 1
def blockU2 : CBlock := workBlock 7 2 2
def blockV1 : CBlock := workBlock 6 3 1

def workFiles : Files where
  block _ nBlockPos :=
    match nBlockPos with
    | 0 => some forkGenesis
    | 1000 => some blockU1
    | 2000 => some blockU2
    | 3000 => some blockV1
    | _ => none
  tx pos :=
    if pos = ⟨1, 1000, 1081⟩ then some (forkCoinbase 1 COIN)
    else if pos = ⟨1, 2000, 2081⟩ then some (forkCoinbase 2 COIN)
    else if pos = ⟨1, 3000, 3081⟩ then some (forkCoinbase 3 COIN)
    else none

def workDelivery : Delivery where
  senv := workSync
  files := workFiles
  place block := (1, 1000 * block.nNonce)
  genesis := indexG
  start := syncStart
  blocks := [blockU1, blockU2, blockV1]

namespace Delivery

theorem atGenesis_workDelivery : workDelivery.AtGenesis := by
  have htree : syncStart.node.mapBlockIndex = Lib.PMap.empty.set 1 [indexG] := rfl
  refine ⟨⟨treeInv_syncStart rfl rfl rfl, rfl, rfl, ?_, ?_, ?_, ?_, ⟨?_, ?_⟩, ?_⟩, ?_, ?_, ?_, ?_, rfl,
    rfl, rfl, rfl, rfl⟩
  · intro _
    decide +kernel
  · exact .inr ⟨by decide +kernel, by decide +kernel⟩
  · decide +kernel
  · decide +kernel
  · decide +kernel
  · intro x hx
    cases hx
  · exact nextInv_singleton indexG
  · decide +kernel
  · intro h ptr hptr
    change syncStart.node.mapBlockIndex h = some ptr at hptr
    rw [htree, Lib.PMap.set_apply] at hptr
    split at hptr
    · exact (Option.some.inj hptr).symm
    · cases hptr
  · decide +kernel
  · decide +kernel

theorem sound_workDelivery : workDelivery.Sound := by
  have hwallets : workDelivery.start.node.wallets = [] := rfl
  have hknown : ∀ h tx, workDelivery.Known h tx →
      ∃ b ∈ workDelivery.blocks, tx ∈ b.vtx ∧ workSync.getHash tx = h := by
    rintro h tx (⟨w, hw, -⟩ | hb)
    · rw [hwallets] at hw
      cases hw
    · exact hb
  have htxs : ∀ b ∈ workDelivery.blocks, ∀ tx ∈ b.vtx, ∀ b' ∈ workDelivery.blocks, ∀ tx' ∈ b'.vtx,
      workSync.getHash tx = workSync.getHash tx' → tx = tx' := by decide
  have hblocks : ∀ {P : CBlock → Prop}, P blockU1 → P blockU2 → P blockV1 →
      ∀ b ∈ workDelivery.blocks, P b := by
    intro P h₁ h₂ h₃
    exact List.forall_mem_cons.mpr ⟨h₁, List.forall_mem_cons.mpr ⟨h₂, List.forall_mem_singleton.mpr h₃⟩⟩
  refine ⟨fun _ _ => rfl, ?_, plain_getIDHash_ne_zero, ?_, ?_, atGenesis_workDelivery, by decide,
    by decide, by decide, ?_, ?_, ?_⟩
  · rw [if_neg (by decide)]
    refine ⟨rfl, fun n hn => ?_⟩
    by_contra hlt
    have hne : n ≠ 0 := fun h => hlt h.le
    change (if n = 0 then some 1 else none : Option Uint256).isSome = true at hn
    rw [if_neg hne] at hn
    cases hn
  · intro tx htx
    obtain ⟨b, -, -, hhash⟩ := hknown 0 tx htx
    cases hhash
  · intro h tx tx' htx htx'
    obtain ⟨b, hb, hmem, hhash⟩ := hknown h tx htx
    obtain ⟨b', hb', hmem', hhash'⟩ := hknown h tx' htx'
    exact htxs b hb tx hmem b' hb' tx' hmem' (hhash.trans hhash'.symm)
  · unfold CTransaction.NoInfos
    decide
  · exact hblocks ⟨by decide, rfl, rfl, trivial⟩ ⟨by decide, rfl, rfl, trivial⟩
      ⟨by decide, rfl, rfl, trivial⟩
  · exact hblocks ⟨[], by decide +kernel⟩ ⟨[blockU1], by decide +kernel⟩ ⟨[], by decide +kernel⟩

theorem deliver_perm_workDelivery : ∃ s, workDelivery.deliver [blockU2, blockV1, blockU1] = some s ∧
    (∀ b ∈ [blockU1, blockU2, blockV1], (s.node.mapBlockIndex (workDelivery.idHash b)).isSome) ∧
    s.mapOrphanBlocks = ∅ ∧ s.mapOrphanBlocksByPrev = [] ∧
    IsGreatest (workDelivery.chainTrusts s.node) s.node.bnBestChainTrust := by
  obtain ⟨s, hs, hindexed, horphans, hbyPrev, hgreatest⟩ := deliver_perm workDelivery sound_workDelivery
    [blockU2, blockV1, blockU1] (by decide)
  exact ⟨s, hs, hindexed, horphans, hbyPrev, hgreatest (List.cons_ne_nil _ _)⟩

end Delivery

end ShinyCoin

import ShinyCoin.Sync.Grown

/-!
# A node between two blocks

`Settled` is what a delivery keeps: every indexed block has grown, the best branch is the connected
one, and no indexed block is higher. A block that has grown elsewhere is accepted by any settled node
that has its parent, whether it extends the best branch, makes the node leave it, or stays aside.

Of two competing branches both are higher than the last hardened checkpoint or neither is, so a node
that is past it checks signatures of such blocks only as were checked on their own branch.
-/

namespace ShinyCoin

theorem Heights.heightsFrom {ptr : BlockPtr} (h : Heights ptr) : HeightsFrom 0 ptr := by
  intro x hne hx
  obtain ⟨p, pprev, rfl⟩ := List.exists_cons_of_ne_nil hne
  have := (h.suffix hx).1
  rw [BlockPtr.nHeight, this, List.length_cons]
  push_cast
  ring

namespace Delivery

variable {d : Delivery} {s t : NodeState} {p q : CBlockIndex} {ptr pprev qs : BlockPtr}
  {m : TxIndexMap} {vs : List BlockStats} {b : CBlock}

/-- Only what the connected blocks left matters. -/
theorem On.of_same (hs : d.On ptr s) (htxIndex : t.txdb.data.txIndex = s.txdb.data.txIndex)
    (hstats : t.blockStats = s.blockStats) (hwallets : t.wallets = s.wallets)
    (htime : t.nAdjustedTime = s.nAdjustedTime) (hin : t.infos.inTransaction = true) : d.On ptr t := by
  obtain ⟨m, vs, hgrown, hAt⟩ := hs
  refine ⟨m, vs, hgrown, htxIndex.trans hAt.txIndex, ?_, hin, htime.trans hAt.nAdjustedTime, ?_⟩
  · rw [← hAt.stats]
    exact List.map_congr_left fun x _ => statsOf_congr hstats x
  · rw [hwallets]
    exact hAt.wallets

theorem On.inTransaction (hs : d.On ptr s) : s.infos.inTransaction = true := by
  obtain ⟨m, vs, -, hAt⟩ := hs
  exact hAt.inTransaction

/-! ## The invariant -/

structure Settled (d : Delivery) (s : NodeState) : Prop where
  inv : NodeInv d.senv.toEnv d.files s
  grown : ∀ h ptr, s.mapBlockIndex h = some ptr → ∃ m vs, d.Grown ptr m vs
  connected : d.On s.pindexBest s.inView
  nBestHeight : s.nBestHeight + 1 = s.pindexBest.length
  bnBestChainTrust : s.bnBestChainTrust = d.genesis.bnChainTrust + s.nBestHeight
  highest : ∀ h ptr, s.mapBlockIndex h = some ptr → ptr.length ≤ s.pindexBest.length
  hashSyncCheckpoint : s.hashSyncCheckpoint = d.senv.hashGenesisBlock

theorem AtGenesis.settled (hs : d.AtGenesis) : d.Settled d.start.node := by
  refine ⟨hs.inv, ?_, ?_, ?_, ?_, ?_, hs.hashSyncCheckpoint⟩
  · intro h ptr hptr
    rw [hs.mapBlockIndex h ptr hptr]
    exact ⟨_, _, .genesis⟩
  · rw [hs.pindexBest]
    refine ⟨_, _, .genesis, hs.txIndex, rfl, rfl, rfl, ?_⟩
    intro w hw h wtx hwtx
    exact .inl ⟨w, hw, wtx, hwtx, rfl⟩
  · rw [hs.nBestHeight, hs.nHeight, hs.pindexBest]
    rfl
  · rw [hs.bnBestChainTrust, hs.nBestHeight, hs.nHeight, add_zero]
  · intro h ptr hptr
    rw [hs.mapBlockIndex h ptr hptr, hs.pindexBest]

namespace Settled

theorem nAdjustedTime (hs : d.Settled s) : s.nAdjustedTime = d.start.node.nAdjustedTime := by
  obtain ⟨m, vs, -, hAt⟩ := hs.connected
  exact hAt.nAdjustedTime

theorem pindexBest_ne_nil (hs : d.Settled s) : s.pindexBest ≠ [] := by
  obtain ⟨m, vs, hgrown, -⟩ := hs.connected
  exact hgrown.ne_nil

theorem genesis (hd : d.Sound) (hs : d.Settled s) :
    s.mapBlockIndex d.senv.hashGenesisBlock = some [d.genesis] := by
  obtain ⟨g, hg, -⟩ := hs.inv.tree.root (hs.inv.best hs.pindexBest_ne_nil)
  obtain ⟨m, vs, hgrown⟩ := hs.grown _ _ hg
  have hlast := (hgrown.rooted hd).1
  rw [List.getLast?_singleton] at hlast
  rw [← Option.some.inj hlast]
  exact hg

/-- An indexed branch is the one its hash stands for. -/
theorem eq_of_hash (hd : d.Sound) (hs : d.Settled s) {h : Uint256} {x : BlockPtr}
    {m : TxIndexMap} {vs : List BlockStats} (hptr : s.mapBlockIndex h = some ptr)
    (hx : d.Grown x m vs) (hhash : BlockPtr.hash x = h) : ptr = x := by
  obtain ⟨m', vs', hgrown⟩ := hs.grown _ _ hptr
  refine hgrown.eq_of_hash hd hx ?_
  rw [hhash]
  exact (hs.inv.tree.hash_ne_zero hd.getIDHash hptr).1

/-! ## The checks of AcceptBlock -/

/-- Every branch descends from the genesis block. -/
theorem checkSync (hd : d.Sound) (hs : d.Settled s) (hgrown : d.Grown (q :: qs) m vs)
    (hash : Uint256) : d.senv.checkSync s hash q qs = .ok true := by
  obtain ⟨hlast, hheights, -⟩ := hgrown.rooted hd
  unfold SyncEnv.checkSync
  split
  · rfl
  · rw [hs.hashSyncCheckpoint, hs.genesis hd]
    dsimp only
    have hlow : lowerTo d.genesis.nHeight (q :: qs) = [d.genesis] := by
      obtain ⟨init, hinit⟩ := List.getLast?_eq_some_iff.mp hlast
      have hsuf : [d.genesis] <:+ q :: qs := ⟨init, hinit.symm⟩
      rw [hd.start.nHeight]
      have hge : [d.genesis] <:+ lowerTo 0 (q :: qs) := suffix_lowerTo hheights hsuf (by
        rw [List.length_singleton]
        rfl)
      have hle : ((lowerTo 0 (q :: qs)).length : ℤ) ≤ 0 + 1 := length_lowerTo hheights le_rfl
      refine (hge.eq_of_length_le ?_).symm
      rw [List.length_singleton]
      omega
    have hlt : d.genesis.nHeight < q.nHeight + 1 := by
      rw [hd.start.nHeight, hheights.1]
      omega
    rw [if_pos hlt, hlow]
    dsimp only
    rw [hd.start.hashBlock]
    simp

/-- What `AcceptBlock` asks is asked in the same way by every settled node. -/
theorem checkContext_eq (hd : d.Sound) (hs : d.Settled s) (ht : d.Settled t)
    (hgrown : d.Grown (q :: qs) m vs) (b : CBlock) :
    b.checkContext d.senv s q qs = b.checkContext d.senv t q qs := by
  have hheight : (q.nHeight + 1 == 0) = false := by
    rw [beq_eq_false_iff_ne, (hgrown.rooted hd).2.1.1]
    omega
  have hfinal : ∀ tx : CTransaction,
      tx.isFinal s.nBestHeight s.nAdjustedTime (q.nHeight + 1) b.getBlockTime
        = tx.isFinal t.nBestHeight t.nAdjustedTime (q.nHeight + 1) b.getBlockTime := by
    intro tx
    unfold CTransaction.isFinal
    rw [hheight, hs.nAdjustedTime, ht.nAdjustedTime]
    rfl
  unfold CBlock.checkContext
  simp only [hfinal, hs.checkSync hd hgrown, ht.checkSync hd hgrown]

/-! ## Where branches meet -/

/-- The hardened checkpoint that every branch past it goes through. -/
theorem exists_checkpoint (hd : d.Sound) (hgrown : d.Grown ptr m vs) (hnet : d.senv.fTestNet = false)
    {c : Uint256} (hc : d.senv.mapCheckpoints d.senv.totalBlocksEstimate = some c)
    (hpos : 0 < d.senv.totalBlocksEstimate)
    (hlen : d.senv.totalBlocksEstimate + 1 ≤ ptr.length) :
    ∃ x, x <:+ ptr ∧ (x.length : ℤ) = d.senv.totalBlocksEstimate + 1 ∧ BlockPtr.hash x = c := by
  induction hgrown with
  | genesis =>
      rw [List.length_singleton] at hlen
      omega
  | @block b p q qs m vs t u hprev hb hlink hcheck hcontext hentry hfresh hAt hheight hconn ih =>
      have hE := hd.entryOf hb hcheck hentry
      have hn := (hprev.rooted hd).2.1.1
      rcases lt_or_ge (qs.length + 1 : ℤ) d.senv.totalBlocksEstimate with hlt | hge
      · simp only [List.length_cons] at hlen
        push_cast at hlen
        omega
      · by_cases heq : (qs.length + 1 : ℤ) = d.senv.totalBlocksEstimate
        · -- the block at the height of the checkpoint was compared with it
          refine ⟨p :: q :: qs, List.suffix_rfl, by simp only [List.length_cons]; push_cast; omega, ?_⟩
          unfold CBlock.checkContext at hcontext
          obtain ⟨-, hcontext⟩ := Lib.seq_eq_ok.mp hcontext
          obtain ⟨-, hcontext⟩ := Lib.seq_eq_ok.mp hcontext
          obtain ⟨-, hcontext⟩ := Lib.seq_eq_ok.mp hcontext
          obtain ⟨hhard, -⟩ := Lib.seq_eq_ok.mp hcontext
          rw [Lib.require_eq_ok, SyncEnv.checkHardened, hnet, Bool.false_or, hn, heq, hc] at hhard
          rw [BlockPtr.hash, hE.hashBlock]
          exact (beq_iff_eq.mp hhard).symm
        · obtain ⟨x, hx, hlenx, hhash⟩ := ih (by simp only [List.length_cons]; push_cast; omega)
          exact ⟨x, hx.trans (List.suffix_cons _ _), hlenx, hhash⟩

/-- Where a node that is past the last hardened checkpoint leaves its branch for a higher one, the
blocks it connects are past the checkpoint too. -/
theorem verify_above (hd : d.Sound) {tip z : BlockPtr} {m' : TxIndexMap} {vs' : List BlockStats}
    (hbest : d.Grown ptr m vs) (htip : d.Grown tip m' vs') (hlen : ptr.length ≤ tip.length)
    (hz : Lib.IsMeet z ptr tip) (hsuf : z <:+ q :: qs) (hq : q.nHeight = qs.length)
    (h : d.senv.totalBlocksEstimate + 1 ≤ ptr.length) : d.senv.totalBlocksEstimate ≤ q.nHeight := by
  rcases lt_or_ge 0 d.senv.totalBlocksEstimate with hpos | hneg
  · have hestimate := hd.totalBlocksEstimate
    cases hnet : d.senv.fTestNet with
    | true =>
        rw [hnet, if_pos rfl] at hestimate
        omega
    | false =>
        rw [hnet, if_neg Bool.false_ne_true] at hestimate
        obtain ⟨c, hc⟩ := Option.isSome_iff_exists.mp hestimate.1
        obtain ⟨x, hx, hlenx, hhash⟩ := exists_checkpoint hd hbest hnet hc hpos h
        obtain ⟨y, hy, hleny, hhash'⟩ := exists_checkpoint hd htip hnet hc hpos (by omega)
        have hne : ∀ {w : BlockPtr}, (w.length : ℤ) = d.senv.totalBlocksEstimate + 1 → w ≠ [] := by
          rintro w hw rfl
          rw [List.length_nil] at hw
          omega
        -- both branches go through the checkpoint, so they meet there or above
        obtain ⟨m₁, vs₁, hgx⟩ := hbest.suffix (hne hlenx) hx
        obtain ⟨m₂, vs₂, hgy⟩ := htip.suffix (hne hleny) hy
        have heq := hgx.eq_of_hash hd hgy (hhash.trans hhash'.symm)
        rw [← heq] at hy
        have hle := ((hz.greatest x (hne hlenx) hx hy).trans hsuf).length_le
        rw [List.length_cons] at hle
        rw [hq]
        omega
  · rw [hq]
    omega

end Settled

/-! ## SetBestChain -/

/-- Somewhere the block was connected on its own branch. -/
def Grows (d : Delivery) (b : CBlock) : Prop :=
  ∃ p pprev m vs, d.Grown (p :: pprev) m vs ∧ p.hashBlock = d.idHash b

/-- What `Walks` is used with: the branch, and what is the same throughout a call. -/
def OnFrom (d : Delivery) (s₀ : NodeState) (ptr : BlockPtr) (s : NodeState) : Prop :=
  d.On ptr s ∧ s.nBestHeight = s₀.nBestHeight ∧ s.mapBlockIndex = s₀.mapBlockIndex ∧
    s.hashSyncCheckpoint = s₀.hashSyncCheckpoint

theorem walks_onFrom (hd : d.Sound) (s₀ : NodeState) :
    Walks d.senv.toEnv d.files (d.OnFrom s₀) := by
  refine ⟨?_, ?_⟩
  · rintro ptr s s' hsame ⟨hon, hheight, hindex, hsync⟩
    refine ⟨hon.of_same hsame.txIndex hsame.blockStats hsame.wallets hsame.nAdjustedTime ?_,
      hsame.nBestHeight.trans hheight, hsame.mapBlockIndex.trans hindex,
      hsame.hashSyncCheckpoint.trans hsync⟩
    exact hsame.inTransaction.trans hon.inTransaction
  · rintro p pprev s hne ⟨hon, hheight, hindex, hsync⟩
    obtain ⟨b, s', hread, hdis, hon'⟩ := hon.disconnectBlock hd hne
    have hmem := CBlock.disconnectBlock_sameMemory d.senv.toEnv d.files b pprev s
    rw [hdis] at hmem
    exact ⟨b, s', hread, hdis, hon', (CBlock.disconnectBlock_blockStats hdis).2.trans hheight,
      (SameMemory.mapBlockIndex hmem).trans hindex,
      (SameMemory.hashSyncCheckpoint hmem).trans hsync⟩

/-- Up from where it meets the best branch, every block of a higher branch connects. -/
theorem Settled.climbs (hd : d.Sound) (hs : d.Settled s) {tip z : BlockPtr}
    (htip : d.Grown tip m vs) (hlen : s.pindexBest.length ≤ tip.length)
    (hz : Lib.IsMeet z s.pindexBest tip) {s₀ : NodeState} (hheight : s₀.nBestHeight = s.nBestHeight) :
    Climbs d.senv.toEnv d.files (d.OnFrom s₀) z tip := by
  rintro p pprev t hsuf hge ⟨hon, hn, hindex, hsync⟩
  have hne : pprev ≠ [] := by
    rintro rfl
    exact hz.ne_nil (List.suffix_nil.mp hge)
  obtain ⟨q, qs, rfl⟩ := List.exists_cons_of_ne_nil hne
  obtain ⟨m', vs', hgrown⟩ := htip.suffix (List.cons_ne_nil _ _) hsuf
  obtain ⟨m₀, vs₀, hbest, -⟩ := hs.connected
  have hq : q.nHeight = qs.length := (hgrown.rooted hd).2.1.2.1
  obtain ⟨b, t', hread, hconn, hon'⟩ := hon.connectBlock hd hgrown (by
    intro hverify
    refine Settled.verify_above hd hbest htip hlen hz hge hq ?_
    have := hs.nBestHeight
    rw [hn, hheight] at hverify
    omega)
  have hmem := CBlock.connectBlock_sameMemory d.senv.toEnv d.files b p (q :: qs) t
  rw [hconn] at hmem
  exact ⟨b, t', hread, hconn, hon', (CBlock.connectBlock_blockStats hconn).2.trans hn,
    (SameMemory.mapBlockIndex hmem).trans hindex, (SameMemory.hashSyncCheckpoint hmem).trans hsync⟩

/-- Nothing needs to be known of the ledger. -/
theorem kept_true (env : Env) (full : Files) :
    Kept env full (fun _ _ => True) (fun _ _ _ => True) :=
  ⟨fun _ _ _ _ _ => trivial, fun _ _ _ _ _ => trivial⟩

/-- A settled node indexes a block that has grown on a parent it has. -/
theorem Settled.insertIndex (hd : d.Sound) (hs : d.Settled s) (hb : b ∈ d.blocks)
    (hE : d.EntryOf b p (q :: qs)) (hentry : d.entry b (q :: qs) = .ok p)
    (hnew : s.mapBlockIndex (d.idHash b) = none)
    (hprev : s.mapBlockIndex b.hashPrevBlock = some (q :: qs)) :
    NodeInv d.senv.toEnv d.files (s.insertIndex p (q :: qs)) ∧
      ∀ h ptr, (s.insertIndex p (q :: qs)).mapBlockIndex h = some ptr →
        s.mapBlockIndex h = some ptr ∨ ptr = p :: q :: qs := by
  have hget : (s.mapBlockIndex b.hashPrevBlock).getD [] = q :: qs := by
    rw [hprev]
    rfl
  have hw := hd.written b hb
  have htree := treeEntry_newIndex hs.inv.tree hw.nFile hw.onDisk (.inl (by rw [hprev]; rfl))
    (by rw [hget]; exact hentry)
  rw [hget] at htree
  refine ⟨hs.inv.insertIndex (by rw [hE.hashBlock]; exact hnew) htree, ?_⟩
  intro h ptr hptr
  change s.mapBlockIndex.set p.hashBlock (p :: q :: qs) h = some ptr at hptr
  rw [Lib.PMap.set_apply] at hptr
  split at hptr
  · exact .inr (Option.some.inj hptr).symm
  · exact .inl hptr

/-- No indexed block has more trust than the best one. -/
theorem Settled.trust_le (hd : d.Sound) (hs : d.Settled s) {h : Uint256}
    (hptr : s.mapBlockIndex h = some (p :: pprev)) {best : CBlockIndex}
    (hbest : best ∈ s.pindexBest.head?) : p.bnChainTrust ≤ best.bnChainTrust := by
  obtain ⟨m₀, vs₀, hgrown₀, -⟩ := hs.connected
  obtain ⟨m, vs, hgrown⟩ := hs.grown _ _ hptr
  obtain ⟨-, hheights₀, htrust₀⟩ := hgrown₀.rooted hd
  obtain ⟨-, hheights, htrust⟩ := hgrown.rooted hd
  have hle := hs.highest _ _ hptr
  obtain ⟨rest, hcons⟩ := List.head?_eq_some_iff.mp (Option.mem_def.mp hbest)
  rw [hcons] at hheights₀ hle
  rw [htrust₀ best hbest, htrust p rfl, hheights₀.1, hheights.1]
  simp only [List.length_cons] at hle
  omega

/-- Trust counts the blocks of a branch. -/
theorem Settled.length_lt (hd : d.Sound) (hs : d.Settled s) (hgrown : d.Grown (p :: pprev) m vs)
    (htrust : s.bnBestChainTrust < p.bnChainTrust) : s.pindexBest.length < (p :: pprev).length := by
  obtain ⟨-, hheights, htrustp⟩ := hgrown.rooted hd
  have hheight := hs.nBestHeight
  rw [hs.bnBestChainTrust, htrustp p rfl, hheights.1] at htrust
  simp only [List.length_cons] at htrust ⊢
  omega

theorem Settled.pindexGenesisBlock_ne_nil (hd : d.Sound) (hs : d.Settled s) :
    s.pindexGenesisBlock ≠ [] := by
  rcases hs.inv.genesis with ⟨-, hnil⟩ | ⟨hgenesis, -⟩
  · exact absurd hnil hs.pindexBest_ne_nil
  · rw [hs.genesis hd] at hgenesis
    rw [← Option.some.inj hgenesis]
    exact List.cons_ne_nil _ _

/-- The node does not leave its sync checkpoint: the genesis block is where the branches meet, or below. -/
theorem Settled.not_checkpoint (hd : d.Sound) (hs : d.Settled s) {z : BlockPtr} (hne : z ≠ [])
    (hz : z <:+ s.pindexBest) :
    ∀ x ∈ backTo z s.pindexBest, BlockPtr.hash x ≠ s.hashSyncCheckpoint := by
  intro x hx heq
  obtain ⟨m, vs, hbest, -⟩ := hs.connected
  have hlong := length_lt_of_mem_backTo hz hx
  have hpos := List.length_pos_iff.mpr hne
  have hmem : x ∈ BlockPtr.path s.pindexBest := by
    rw [path_eq_backTo hz]
    exact List.mem_append_left _ hx
  obtain ⟨hxne, hsuf⟩ := BlockPtr.mem_path.mp hmem
  obtain ⟨m', vs', hx'⟩ := hbest.suffix hxne hsuf
  have hgenesis := hs.eq_of_hash hd (hs.genesis hd) hx' (heq.trans hs.hashSyncCheckpoint)
  rw [← hgenesis, List.length_singleton] at hlong
  omega

/-- And goes to it when it is higher than the best block. -/
theorem Settled.setBestChain (hd : d.Sound) (hs : d.Settled s) (hgrown : d.Grown (p :: q :: qs) m vs)
    (hb : b ∈ d.blocks) (hE : d.EntryOf b p (q :: qs)) (hentry : d.entry b (q :: qs) = .ok p)
    (hnew : s.mapBlockIndex (d.idHash b) = none)
    (hprev : s.mapBlockIndex b.hashPrevBlock = some (q :: qs))
    (htrust : s.bnBestChainTrust < p.bnChainTrust) :
    ∃ s', b.setBestChain d.senv.toEnv d.files p (q :: qs) (s.insertIndex p (q :: qs)) = .ok s' ∧
      d.Settled s' ∧ s'.mapBlockIndex = s.mapBlockIndex.set (d.idHash b) (p :: q :: qs) := by
  obtain ⟨hinv, hindexed⟩ := hs.insertIndex hd hb hE hentry hnew hprev
  obtain ⟨hlast, hheights, htrustp⟩ := hgrown.rooted hd
  obtain ⟨m₀, vs₀, hbest, -⟩ := hs.connected
  obtain ⟨hlast₀, hheights₀, htrust₀⟩ := hbest.rooted hd
  have hlen := hs.length_lt hd hgrown htrust
  obtain ⟨z, hz⟩ := Lib.exists_isMeet hs.pindexBest_ne_nil (hlast₀.trans hlast.symm)
  have hprevBest : b.hashPrevBlock = s.hashBestChain → q :: qs = s.pindexBest := by
    intro heq
    refine hs.eq_of_hash hd hprev hbest ?_
    rw [heq]
    exact hs.inv.hashBestChain.symm
  have hparent : ∀ best ∈ s.pindexBest.head?, ∀ r ∈ (q :: qs).head?,
      r.bnChainTrust ≤ best.bnChainTrust := by
    intro best hhead r hr
    cases hr
    exact hs.trust_le hd hprev hhead
  have hgenesis := hs.pindexGenesisBlock_ne_nil hd
  have hwalks := walks_onFrom hd (s.insertIndex p (q :: qs))
  obtain ⟨s₂, ⟨hon, -, hindex, hsync⟩, hset⟩ := hwalks.setBestChain hinv.noView hinv.idle
    hgenesis (List.cons_ne_nil _ _) hprevBest hE.readBlock hparent
    (findFork_of_isMeet hheights₀.heightsFrom hheights.heightsFrom hz)
    (hs.not_checkpoint hd hz.ne_nil hz.left) (hs.climbs hd hgrown hlen.le hz rfl)
    ⟨hs.connected.of_same rfl rfl rfl rfl rfl, rfl, rfl, rfl⟩ (fun s' h => h.1.inTransaction)
  have hptr : (s.insertIndex p (q :: qs)).mapBlockIndex p.hashBlock = some (p :: q :: qs) :=
    Lib.PMap.set_self _ _ _
  have honDisk : d.files.block p.nFile p.nBlockPos = some b := by
    rw [hE.nFile, hE.nBlockPos]
    exact (hd.written b hb).onDisk
  have hpost : PostponedConnect d.senv.toEnv d.files p (q :: qs) (s.insertIndex p (q :: qs)) := by
    intro best rest s' hbest' _
    have hhead : best ∈ s.pindexBest.head? := by
      rw [show s.pindexBest = best :: rest from hbest']
      rfl
    rw [postpone_of_trust_le (hparent best hhead)]
    rfl
  obtain ⟨hinv', -⟩ := setBestChain_inv (kept_true d.senv.toEnv d.files)
    ⟨fun _ _ _ h => h, fun _ _ h => h⟩ hd.getIDHash hinv trivial hptr honDisk
    (fun _ _ _ _ _ => trivial) hpost
  rw [hset] at hinv'
  have hmap : s₂.mapBlockIndex = s.mapBlockIndex.set (d.idHash b) (p :: q :: qs) := by
    rw [hindex, ← hE.hashBlock]
    rfl
  refine ⟨_, hset, ⟨hinv', ?_, ?_, ?_, ?_, ?_, ?_⟩, hmap⟩
  · intro h ptr hptr'
    rcases hindexed h ptr (by rw [← hindex]; exact hptr') with hold | rfl
    · exact hs.grown h ptr hold
    · exact ⟨m, vs, hgrown⟩
  · exact hon.of_same rfl rfl rfl rfl rfl
  · show p.nHeight + 1 = ((p :: q :: qs).length : ℤ)
    rw [hheights.1]
    simp only [List.length_cons]
    push_cast
    rfl
  · exact htrustp p rfl
  · intro h ptr hptr'
    rcases hindexed h ptr (by rw [← hindex]; exact hptr') with hold | rfl
    · exact (hs.highest h ptr hold).trans hlen.le
    · exact le_rfl
  · exact hsync.trans hs.hashSyncCheckpoint

/-! ## AcceptBlock -/

/-- `AddToBlockIndex` for a block that has grown, on a node that has its parent. -/
theorem Settled.addToBlockIndex (hd : d.Sound) (hs : d.Settled s)
    (hgrown : d.Grown (p :: q :: qs) m vs) (hb : b ∈ d.blocks) (hE : d.EntryOf b p (q :: qs))
    (hentry : d.entry b (q :: qs) = .ok p) (hnew : s.mapBlockIndex (d.idHash b) = none)
    (hprev : s.mapBlockIndex b.hashPrevBlock = some (q :: qs)) (t : SyncState) :
    ∃ s', b.addToBlockIndex d.senv.toEnv d.files (b.kernel d.senv t) (d.place b).1 (d.place b).2 s
        = .ok s' ∧
      d.Settled s' ∧ s'.mapBlockIndex = s.mapBlockIndex.set (d.idHash b) (p :: q :: qs) := by
  have hget : (s.mapBlockIndex b.hashPrevBlock).getD [] = q :: qs := by
    rw [hprev]
    rfl
  have hfill : (b.kernel d.senv t).fill b (b.newIndex d.senv.toEnv (d.place b).1 (d.place b).2
      (q :: qs)) (q :: qs) = .ok p := by
    rw [← hentry]
    exact CBlock.fill_of_isProofOfWork (hd.proofOfWork b hb)
  have hrun : b.addToBlockIndex d.senv.toEnv d.files (b.kernel d.senv t) (d.place b).1 (d.place b).2 s
      = if s.bnBestChainTrust < p.bnChainTrust then
          b.setBestChain d.senv.toEnv d.files p (q :: qs) (s.insertIndex p (q :: qs))
        else .ok (s.insertIndex p (q :: qs)) := by
    have hnew' : s.mapBlockIndex (d.senv.getIDHash b.toCBlockHeader) = none := hnew
    unfold CBlock.addToBlockIndex
    rw [hnew', hget]
    dsimp only
    rw [hfill]
    rfl
  rw [hrun]
  split
  · next htrust => exact hs.setBestChain hd hgrown hb hE hentry hnew hprev htrust
  · next htrust =>
    -- the block stays aside
    obtain ⟨hinv, hindexed⟩ := hs.insertIndex hd hb hE hentry hnew hprev
    refine ⟨_, rfl, ⟨hinv, ?_, hs.connected.of_same rfl rfl rfl rfl rfl, hs.nBestHeight,
      hs.bnBestChainTrust, ?_, hs.hashSyncCheckpoint⟩, ?_⟩
    · intro h ptr hptr
      rcases hindexed h ptr hptr with hold | rfl
      · exact hs.grown h ptr hold
      · exact ⟨m, vs, hgrown⟩
    · intro h ptr hptr
      rcases hindexed h ptr hptr with hold | rfl
      · exact hs.highest h ptr hold
      · obtain ⟨-, hheights, htrustp⟩ := hgrown.rooted hd
        have hheight := hs.nBestHeight
        rw [hs.bnBestChainTrust, htrustp p rfl, hheights.1] at htrust
        show (p :: q :: qs).length ≤ s.pindexBest.length
        simp only [List.length_cons] at htrust ⊢
        push_cast at htrust
        omega
    · show s.mapBlockIndex.set p.hashBlock (p :: q :: qs) = _
      rw [hE.hashBlock]

/-- A settled node without a pending checkpoint accepts every block that has grown and whose parent it
has. -/
theorem Settled.acceptBlock (hd : d.Sound) {t : SyncState} (ht : d.Settled t.node)
    (hpending : t.hashPendingCheckpoint = 0) (hb : b ∈ d.blocks) (hgrows : d.Grows b)
    (hnew : t.node.mapBlockIndex (d.idHash b) = none)
    (hprev : t.node.mapBlockIndex b.hashPrevBlock = some pprev) :
    ∃ s', b.acceptBlock d.senv (d.disk b) t = .ok { t with node := s' } ∧ d.Settled s' ∧
      ∃ p, s'.mapBlockIndex = t.node.mapBlockIndex.set (d.idHash b) (p :: pprev) := by
  obtain ⟨p, ps, m, vs, hgrown, hhash⟩ := hgrows
  have hgrown' := hgrown
  cases hgrown with
  | genesis => exact absurd (hhash.symm.trans hd.start.hashBlock) (hd.notGenesis b hb)
  | @block b' _ q qs m vs t₀ u hprev₀ hb' hlink hcheck hcontext hentry hfresh hAt hheight hconn =>
      have hE := hd.entryOf hb' hcheck hentry
      have hsame := List.inj_on_of_nodup_map hd.distinct hb' hb (hE.hashBlock.symm.trans hhash)
      subst hsame
      have hpprev := ht.eq_of_hash hd hprev hprev₀ hlink.symm
      subst hpprev
      obtain ⟨s', hadd, hs', hindex⟩ := ht.addToBlockIndex hd hgrown' hb hE hentry hnew hprev t
      refine ⟨s', ?_, hs', p, hindex⟩
      have hcontext' : b'.checkContext d.senv t.node q qs = .ok () := by
        rw [ht.checkContext_eq hd hd.start.settled hprev₀]
        exact hcontext
      have hstake := CBlock.isProofOfStake_of_isProofOfWork (hd.proofOfWork b' hb)
      have hindexed : b'.indexBlock d.senv d.files (d.place b').1 (d.place b').2 t
          = .ok { t with node := s' } := by
        unfold CBlock.indexBlock
        rw [hadd]
        simp only [CBlock.seeStake, hstake, Bool.and_false, Bool.false_eq_true, if_false]
      unfold CBlock.acceptBlock
      have hnew' : t.node.mapBlockIndex (d.senv.getIDHash b'.toCBlockHeader) = none := hnew
      refine Lib.seq_eq_ok.mpr ⟨by rw [hnew']; rfl, ?_⟩
      rw [hprev]
      refine Lib.seq_eq_ok.mpr ⟨Lib.mapError_eq_ok.mpr hcontext', ?_⟩
      unfold CBlock.storeBlock
      refine Lib.seq_eq_ok.mpr ⟨rfl, ?_⟩
      show (b'.indexBlock d.senv d.files (d.place b').1 (d.place b').2 t >>= _) = _
      rw [hindexed]
      have haccept : SyncState.acceptPendingSyncCheckpoint d.senv (d.disk b') { t with node := s' }
          = .error (.fail "", { t with node := s' }) := by
        unfold SyncState.acceptPendingSyncCheckpoint
        exact if_pos hpending
      dsimp only [Bind.bind, Except.bind]
      rw [haccept]
      rfl

end Delivery

end ShinyCoin

import ShinyCoin.Reload.Load
import ShinyCoin.Chain.Tree

/-!
# The two loops of LoadBlockIndex

The first loop meets every hash of the index as a block's own hash, and that is when its entry is
filled in, whatever order the records come in. In the second one every parent comes before its
children, so that every entry gets the trust and the checksum of its chain.
-/

namespace ShinyCoin

/-! ## Records -/

/-- The cursor goes over the records, with their keys, each of them once. -/
def CursorOver (records : Lib.PMap Uint256 CDiskBlockIndex)
    (cursor : List (Uint256 × CDiskBlockIndex)) : Prop :=
  (cursor.map Prod.fst).Nodup ∧ ∀ h record, (h, record) ∈ cursor ↔ records h = some record

/-- Every record has the hash it is stored under, and the neighbours it names have records. -/
structure RecordsLinked (env : Env) (records : Lib.PMap Uint256 CDiskBlockIndex) : Prop where
  key : ∀ h record, records h = some record → record.getBlockIDHash env = h ∧ h ≠ 0
  prev : ∀ h record, records h = some record →
    record.hashPrev = 0 ∨ (records record.hashPrev).isSome
  next : ∀ h record, records h = some record →
    record.hashNext = 0 ∨ (records record.hashNext).isSome

/-- The entry that a record fills in. -/
def LoadedBlock.ofRecord (h : Uint256) (record : CDiskBlockIndex) : LoadedBlock :=
  (LoadedBlock.new h).construct record.unserialized

/-- The pair of `setStakeSeen` for a proof-of-stake block. -/
def CBlockIndex.stakeSeen (pindex : CBlockIndex) : COutPoint × Nat :=
  (pindex.prevoutStake, pindex.nStakeTime)

theorem insertBlockIndex_getElem? (m : LoadedMap) (hash k : Uint256) :
    (insertBlockIndex m hash)[k]?
      = if k = hash ∧ hash ≠ 0 ∧ m[k]? = none then some (LoadedBlock.new k) else m[k]? := by
  unfold insertBlockIndex
  split
  · next hzero => simp [hzero]
  · next hzero =>
    rw [Lib.getElem?_insertIfNew]
    by_cases hk : k = hash
    · simp [hk, hzero]
    · simp [hk]

/-- The entries of `m'` are those of `m` and new ones for blocks that have records. -/
def EntriesAdded (records : Lib.PMap Uint256 CDiskBlockIndex) (m m' : LoadedMap) : Prop :=
  ∀ k, m'[k]? = m[k]? ∨
    m[k]? = none ∧ m'[k]? = some (LoadedBlock.new k) ∧ (records k).isSome

section

variable {env : Env} {records : Lib.PMap Uint256 CDiskBlockIndex} {m m' m'' : LoadedMap}
  {hash h : Uint256} {record : CDiskBlockIndex} {done : List (Uint256 × CDiskBlockIndex)}
  {st : LoadedIndex}

theorem grown_insertBlockIndex (hhash : hash = 0 ∨ (records hash).isSome) :
    EntriesAdded records m (insertBlockIndex m hash) := by
  intro k
  rw [insertBlockIndex_getElem?]
  split
  · next hc =>
    obtain ⟨rfl, hne, hnone⟩ := hc
    exact .inr ⟨hnone, rfl, hhash.resolve_left hne⟩
  · exact .inl rfl

theorem EntriesAdded.trans (h : EntriesAdded records m m') (h' : EntriesAdded records m' m'') : EntriesAdded records m m'' := by
  intro k
  rcases h k with heq | ⟨hnone, hnew, hsome⟩
  · rcases h' k with heq' | ⟨hnone', hrest⟩
    · exact .inl (heq'.trans heq)
    · exact .inr ⟨heq.symm.trans hnone', hrest⟩
  · rcases h' k with heq' | ⟨hnone', -⟩
    · exact .inr ⟨hnone, heq'.trans hnew, hsome⟩
    · rw [hnew] at hnone'
      cases hnone'

/-- After the records `done`. -/
structure Loading (env : Env) (records : Lib.PMap Uint256 CDiskBlockIndex)
    (done : List (Uint256 × CDiskBlockIndex)) (st : LoadedIndex) : Prop where
  read : ∀ h record, (h, record) ∈ done →
    st.mapBlockIndex[h]? = some (LoadedBlock.ofRecord h record)
  other : ∀ h, h ∉ done.map Prod.fst → st.mapBlockIndex[h]? = none ∨
    st.mapBlockIndex[h]? = some (LoadedBlock.new h) ∧ (records h).isSome
  genesis : st.pindexGenesisBlock
    = if env.hashGenesisBlock ∈ done.map Prod.fst then env.hashGenesisBlock else 0
  stakeSeen : ∀ x, x ∈ st.setStakeSeen ↔ ∃ h record, (h, record) ∈ done ∧
    record.index.isProofOfStake = true ∧ x = record.index.stakeSeen

/-- A proof-of-stake record gives its stake back. -/
theorem CDiskBlockIndex.unserialized_stakeSeen (hpos : record.index.isProofOfStake = true) :
    record.unserialized.index.stakeSeen = record.index.stakeSeen := by
  simp [unserialized, CBlockIndex.stakeSeen, hpos]

/-- A record that has not come up before. -/
theorem Loading.loadRecord (hst : Loading env records done st) (hL : RecordsLinked env records)
    (hrecord : records h = some record) (hnew : h ∉ done.map Prod.fst) :
    ∃ st', ShinyCoin.loadRecord env st record.unserialized = .ok st' ∧
      Loading env records (done ++ [(h, record)]) st' := by
  obtain ⟨hhash, hzero⟩ := hL.key h record hrecord
  replace hhash : record.unserialized.getBlockIDHash env = h := hhash
  have hgrown : EntriesAdded records (insertBlockIndex st.mapBlockIndex h)
      (insertBlockIndex (insertBlockIndex (insertBlockIndex st.mapBlockIndex h)
        record.unserialized.hashPrev) record.unserialized.hashNext) :=
    (grown_insertBlockIndex (hL.prev h record hrecord)).trans
      (grown_insertBlockIndex (hL.next h record hrecord))
  generalize hm : insertBlockIndex (insertBlockIndex (insertBlockIndex st.mapBlockIndex h)
    record.unserialized.hashPrev) record.unserialized.hashNext = m at hgrown
  -- the entry is there, and is a new one
  have hown : (insertBlockIndex st.mapBlockIndex h)[h]? = some (LoadedBlock.new h) := by
    rw [insertBlockIndex_getElem?]
    rcases hst.other h hnew with hnone | ⟨hsome, -⟩
    · simp [hnone, hzero]
    · simp [hsome]
  have hentry : m[h]? = some (LoadedBlock.new h) := by
    rcases hgrown h with heq | ⟨hnone, -⟩
    · exact heq.trans hown
    · rw [hown] at hnone
      cases hnone
  have hall : EntriesAdded records st.mapBlockIndex m :=
    (grown_insertBlockIndex (.inr (by rw [hrecord]; rfl))).trans hgrown
  unfold ShinyCoin.loadRecord
  simp only [hhash, hm, hentry]
  refine ⟨_, rfl, ?_, ?_, ?_, ?_⟩
  · intro k r hk
    rw [Lib.getElem?_insert]
    rcases List.mem_append.mp hk with hk | hk
    · have hkeys : k ∈ done.map Prod.fst := List.mem_map_of_mem hk
      rw [if_neg fun heq : k = h => hnew (heq ▸ hkeys)]
      rcases hall k with heq | ⟨hnone, -⟩
      · rw [heq]
        exact hst.read k r hk
      · rw [hst.read k r hk] at hnone
        cases hnone
    · cases List.mem_singleton.mp hk
      simp [LoadedBlock.ofRecord]
  · intro k hk
    rw [List.map_append, List.mem_append, not_or] at hk
    have hne : k ≠ h := fun heq => hk.2 (by simp [heq])
    rw [Lib.getElem?_insert, if_neg hne]
    rcases hall k with heq | ⟨-, hsome⟩
    · rw [heq]
      exact hst.other k hk.1
    · exact .inr hsome
  · rw [hst.genesis]
    by_cases hg : env.hashGenesisBlock ∈ done.map Prod.fst
    · have hne : env.hashGenesisBlock ≠ h := fun heq => hnew (heq ▸ hg)
      simp [hg, hne.symm]
    · by_cases heq : h = env.hashGenesisBlock
      · simp [hg, heq]
      · simp [hg, heq, Ne.symm heq]
  · intro x
    have hpos : ((LoadedBlock.new h).construct record.unserialized).index.isProofOfStake
        = record.index.isProofOfStake := rfl
    have hsplit : (∃ k r, (k, r) ∈ done ++ [(h, record)] ∧ r.index.isProofOfStake = true ∧
          x = r.index.stakeSeen) ↔ x ∈ st.setStakeSeen ∨
        record.index.isProofOfStake = true ∧ x = record.index.stakeSeen := by
      rw [hst.stakeSeen]
      constructor
      · rintro ⟨k, r, hk, hr⟩
        rcases List.mem_append.mp hk with hk | hk
        · exact .inl ⟨k, r, hk, hr⟩
        · cases List.mem_singleton.mp hk
          exact .inr hr
      · rintro (⟨k, r, hk, hr⟩ | hr)
        · exact ⟨k, r, List.mem_append_left _ hk, hr⟩
        · exact ⟨h, record, by simp, hr⟩
    rw [hsplit]
    simp only [hpos]
    split
    · next htrue =>
      have hstake := CDiskBlockIndex.unserialized_stakeSeen htrue
      simp only [Finset.mem_insert, htrue, true_and]
      rw [or_comm]
      apply or_congr_right
      rw [← hstake]
      rfl
    · next hfalse => simp [hfalse]

/-- The first loop fills in an entry for every record. -/
theorem loadRecords_ok (hL : RecordsLinked env records) {cursor : List (Uint256 × CDiskBlockIndex)}
    (hc : CursorOver records cursor) :
    ∃ st, loadRecords env (cursor.map Prod.snd) = .ok st ∧ Loading env records cursor st := by
  rw [loadRecords, List.foldlM_map]
  apply Lib.foldlM_total (Loading env records)
  · intro done x rest st hl hst
    obtain ⟨h, record⟩ := x
    have hmem : (h, record) ∈ cursor := by rw [hl]; simp
    refine hst.loadRecord hL ((hc.2 h record).mp hmem) fun hin => ?_
    have hnodup := hc.1
    rw [hl, List.map_append, List.nodup_append] at hnodup
    exact hnodup.2.2 h hin h (by simp) rfl
  · refine ⟨fun _ _ hk => (by cases hk), fun h _ => .inl ?_, by simp, by simp⟩
    exact Std.ExtTreeMap.getElem?_empty

theorem Loading.getElem? {cursor : List (Uint256 × CDiskBlockIndex)}
    (hst : Loading env records cursor st) (hc : CursorOver records cursor) (h : Uint256) :
    st.mapBlockIndex[h]? = (records h).map (LoadedBlock.ofRecord h) := by
  cases hr : records h with
  | some record => exact hst.read h record ((hc.2 h record).mpr hr)
  | none =>
      have hout : h ∉ cursor.map Prod.fst := by
        intro hin
        obtain ⟨⟨k, record⟩, hmem, rfl⟩ := List.mem_map.mp hin
        rw [(hc.2 k record).mp hmem] at hr
        cases hr
      rcases hst.other h hout with hnone | ⟨-, hsome⟩
      · exact hnone
      · rw [hr] at hsome
        cases hsome

end

/-! ## Trust and checksums -/

/-- The trust of an entry is its parent's and its own. -/
def BlockPtr.sumsTrust : BlockPtr → Prop
  | [] => True
  | p :: pprev => p.bnChainTrust = (pprev.head?.map CBlockIndex.bnChainTrust).getD 0
      + getBlockTrust p.nBits p.isProofOfStake

/-- The entries are those of the block tree, but for the trust and the checksums. -/
structure Untrusted (env : Env) (tree : Lib.PMap Uint256 BlockPtr) (m : LoadedMap) : Prop where
  absent : ∀ h, tree h = none → m[h]? = none
  present : ∀ h p pprev, tree h = some (p :: pprev) → ∃ b, m[h]? = some b ∧
    b.index = { p with bnChainTrust := 0 } ∧ b.pprev = BlockPtr.hash pprev

/-- An entry with its trust and its checksum. -/
def LoadedBlock.trusted (env : Env) (ptr : BlockPtr) (b : LoadedBlock) : LoadedBlock where
  index := { b.index with bnChainTrust := (ptr.head?.map CBlockIndex.bnChainTrust).getD 0 }
  stats := b.stats
  pprev := b.pprev
  pnext := b.pnext
  nStakeModifierChecksum := BlockPtr.nStakeModifierChecksum env ptr

theorem Env.checkStakeModifierCheckpoints_eq_true (env : Env) (nHeight : ℤ) (checksum : Nat) :
    env.checkStakeModifierCheckpoints nHeight checksum = true := by
  simp [checkStakeModifierCheckpoints, mapStakeModifierCheckpoints]

section

variable {env : Env} {full : Files} {tree : Lib.PMap Uint256 BlockPtr} {m m' : LoadedMap}
  {addr : Uint256 → Nat}

theorem heightLe_trans (a b c : ℤ × Uint256) (hab : heightLe addr a b = true)
    (hbc : heightLe addr b c = true) : heightLe addr a c = true := by
  simp only [heightLe, Bool.or_eq_true, Bool.and_eq_true, decide_eq_true_eq] at *
  omega

theorem heightLe_total (a b : ℤ × Uint256) :
    (heightLe addr a b || heightLe addr b a) = true := by
  simp only [heightLe, Bool.or_eq_true, Bool.and_eq_true, decide_eq_true_eq]
  omega

theorem mem_vSortedByHeight {item : ℤ × Uint256} : item ∈ vSortedByHeight addr m ↔
    ∃ b, m[item.2]? = some b ∧ b.index.nHeight = item.1 := by
  rw [vSortedByHeight, List.mem_mergeSort, List.mem_map]
  constructor
  · rintro ⟨⟨h, b⟩, hmem, rfl⟩
    exact ⟨b, Std.ExtTreeMap.mem_toList_iff_getElem?_eq_some.mp hmem, rfl⟩
  · rintro ⟨b, hb, hheight⟩
    exact ⟨(item.2, b), Std.ExtTreeMap.mem_toList_iff_getElem?_eq_some.mpr hb,
      Prod.ext hheight rfl⟩

/-- What comes later is not lower. -/
theorem vSortedByHeight_le {done rest : List (ℤ × Uint256)} {item item' : ℤ × Uint256}
    (hl : vSortedByHeight addr m = done ++ item :: rest) (hmem : item' ∈ rest) :
    item.1 ≤ item'.1 := by
  have hsorted : (vSortedByHeight addr m).Pairwise fun a b => heightLe addr a b = true :=
    List.pairwise_mergeSort heightLe_trans heightLe_total _
  rw [hl, List.pairwise_append] at hsorted
  have hle := (List.pairwise_cons.mp hsorted.2.1).1 item' hmem
  simp only [heightLe, Bool.or_eq_true, Bool.and_eq_true, decide_eq_true_eq] at hle
  omega

/-- The pointer of a hash. -/
def ptrAt (tree : Lib.PMap Uint256 BlockPtr) (h : Uint256) : BlockPtr := (tree h).getD []

/-- After the entries `done`. -/
def TrustedUpTo (env : Env) (tree : Lib.PMap Uint256 BlockPtr) (m : LoadedMap)
    (done : List (ℤ × Uint256)) (m' : LoadedMap) : Prop :=
  ∀ h, m'[h]? = m[h]?.map fun b =>
    if h ∈ done.map Prod.snd then b.trusted env (ptrAt tree h) else b

/-- One entry, when its parent has had its turn. -/
theorem TrustedUpTo.calculateTrust {done : List (ℤ × Uint256)} {nHeight : ℤ} {h : Uint256}
    {p : CBlockIndex} {pprev : BlockPtr} {block : CBlock} (hm' : TrustedUpTo env tree m done m')
    (hm : Untrusted env tree m) (hptr : tree h = some (p :: pprev))
    (hE : TreeEntry env full tree h p pprev block) (htrust : BlockPtr.sumsTrust (p :: pprev))
    (hzero : tree 0 = none)
    (hparent : pprev ≠ [] → BlockPtr.hash pprev ∈ done.map Prod.snd) :
    ∃ m'', ShinyCoin.calculateTrust env m' (nHeight, h) = .ok m'' ∧
      TrustedUpTo env tree m (done ++ [(nHeight, h)]) m'' := by
  obtain ⟨b, hb, hindex, hprev⟩ := hm.present h p pprev hptr
  -- the entry is as it was, or has had its turn before
  obtain ⟨b', hb', hsame⟩ : ∃ b', m'[h]? = some b' ∧ (b' = b ∨ b' = b.trusted env (p :: pprev)) := by
    rw [hm' h, hb]
    refine ⟨_, rfl, ?_⟩
    split
    · apply Or.inr
      rw [ptrAt, hptr]
      rfl
    · exact .inl rfl
  have hpprev' : b'.pprev = BlockPtr.hash pprev := by
    rcases hsame with rfl | rfl
    · exact hprev
    · exact hprev
  have hparent' : m'[BlockPtr.hash pprev]?.map LoadedBlock.nStakeModifierChecksum
        = pprev.head?.map (fun _ => BlockPtr.nStakeModifierChecksum env pprev) ∧
      m'[BlockPtr.hash pprev]?.map (fun prev => prev.index.bnChainTrust)
        = pprev.head?.map CBlockIndex.bnChainTrust := by
    cases pprev with
    | nil =>
        have hnone : m'[BlockPtr.hash []]? = none := by
          rw [hm' (BlockPtr.hash []), hm.absent (BlockPtr.hash []) hzero]
          rfl
        rw [hnone]
        exact ⟨rfl, rfl⟩
    | cons q qprev =>
        have hq := hE.parent (List.cons_ne_nil _ _)
        obtain ⟨bq, hbq, -, -⟩ := hm.present _ q qprev hq
        rw [hm' _, hbq, Option.map_some, if_pos (hparent (List.cons_ne_nil _ _)), ptrAt, hq]
        exact ⟨rfl, rfl⟩
  obtain ⟨hchecksum, htrust'⟩ := hparent'
  have hassert : (m'[b'.pprev]?.isSome || h == env.hashGenesisBlock) = true := by
    rw [hpprev', Bool.or_eq_true]
    cases pprev with
    | nil => exact .inr (by simp [hE.genesis rfl])
    | cons q qprev =>
        apply Or.inl
        have := congrArg Option.isSome htrust'
        simpa using this
  have hindex' : { b'.index with bnChainTrust := p.bnChainTrust } = p := by
    rcases hsame with rfl | rfl
    · rw [hindex]
    · rw [LoadedBlock.trusted, hindex]
  have hbits : b'.index.nBits = p.nBits := by
    rw [← hindex']
  have hpos : b'.index.isProofOfStake = p.isProofOfStake := by
    rw [← hindex']
    rfl
  have hsum : env.getStakeModifierChecksum
      (m'[b'.pprev]?.map LoadedBlock.nStakeModifierChecksum) b'.index
      = BlockPtr.nStakeModifierChecksum env (p :: pprev) := by
    rw [hpprev', hchecksum, BlockPtr.nStakeModifierChecksum, ← hindex']
    rfl
  have hnew : (m'[b'.pprev]?.map fun prev => prev.index.bnChainTrust).getD 0
      + getBlockTrust b'.index.nBits b'.index.isProofOfStake = p.bnChainTrust := by
    rw [hpprev', htrust', hbits, hpos]
    exact htrust.symm
  refine ⟨m'.insert h (b.trusted env (p :: pprev)), ?_, ?_⟩
  · unfold ShinyCoin.calculateTrust
    simp only [hb', hassert, hsum, hnew, Env.checkStakeModifierCheckpoints_eq_true, Lib.require,
      if_true]
    rcases hsame with rfl | rfl
    · rfl
    · rfl
  · intro k
    rw [Lib.getElem?_insert]
    split
    · next heq =>
      rw [heq, hb, Option.map_some, if_pos (by simp), ptrAt, hptr]
      rfl
    · next hne =>
      rw [hm' k]
      have hiff : k ∈ (done ++ [(nHeight, h)]).map Prod.snd ↔ k ∈ done.map Prod.snd := by
        simp [hne]
      simp only [hiff]

/-- The second loop gives every entry the trust and the checksum of its chain. -/
theorem calculateTrusts_ok (hm : Untrusted env tree m) (hT : TreeInv env full tree)
    (hzero : ∀ header, env.getIDHash header ≠ 0)
    (htrust : ∀ h ptr, tree h = some ptr → BlockPtr.sumsTrust ptr) (addr : Uint256 → Nat) :
    ∃ m', (vSortedByHeight addr m).foldlM (calculateTrust env) m = .ok m' ∧
      ∀ h, m'[h]? = m[h]?.map (LoadedBlock.trusted env (ptrAt tree h)) := by
  have hnull : tree 0 = none := by
    cases h0 : tree 0 with
    | none => rfl
    | some ptr => exact absurd rfl (hT.hash_ne_zero hzero h0).2
  have hkey : ∀ h b, m[h]? = some b → ∃ p pprev, tree h = some (p :: pprev) ∧
      b.index.nHeight = p.nHeight := by
    intro h b hb
    cases hptr : tree h with
    | none =>
        rw [hm.absent h hptr] at hb
        cases hb
    | some ptr =>
        obtain ⟨p, pprev, block, rfl, -⟩ := hT h ptr hptr
        obtain ⟨b', hb', hindex, -⟩ := hm.present h p pprev hptr
        rw [hb] at hb'
        cases hb'
        exact ⟨p, pprev, rfl, by rw [hindex]⟩
  have hloop : ∃ m', (vSortedByHeight addr m).foldlM (calculateTrust env) m = .ok m' ∧
      TrustedUpTo env tree m (vSortedByHeight addr m) m' := by
    refine Lib.foldlM_total (TrustedUpTo env tree m) ?_ fun h => by simp
    rintro done ⟨nHeight, h⟩ rest m₁ hl hm₁
    obtain ⟨b, hb, hheight⟩ := mem_vSortedByHeight.mp (show (nHeight, h) ∈ vSortedByHeight addr m by
      rw [hl]; simp)
    obtain ⟨p, pprev, hptr, hp⟩ := hkey h b hb
    obtain ⟨p', pprev', block, heq, hE⟩ := hT h _ hptr
    cases heq
    apply hm₁.calculateTrust hm hptr hE (htrust h _ hptr) hnull
    -- the parent is lower, so it is not among the rest
    intro hne
    obtain ⟨q, qprev, rfl⟩ := List.exists_cons_of_ne_nil hne
    have hq := hE.parent hne
    obtain ⟨q', qprev', blockq, heq, hEq⟩ := hT _ _ hq
    cases heq
    obtain ⟨bq, hbq, hindexq, -⟩ := hm.present _ q qprev hq
    have hmem : (q.nHeight, BlockPtr.hash (q :: qprev)) ∈ vSortedByHeight addr m :=
      mem_vSortedByHeight.mpr ⟨bq, hbq, by rw [hindexq]⟩
    have hlower : q.nHeight < nHeight := by
      replace hheight : b.index.nHeight = nHeight := hheight
      rw [← hheight, hp, hE.nHeight, hEq.nHeight]
      simp
    rw [hl] at hmem
    rcases List.mem_append.mp hmem with hdone | hrest
    · exact List.mem_map.mpr ⟨_, hdone, rfl⟩
    · rcases List.mem_cons.mp hrest with heq | hrest
      · cases heq
        omega
      · have hle := vSortedByHeight_le hl hrest
        replace hle : nHeight ≤ q.nHeight := hle
        omega
  obtain ⟨m', hloop, hm'⟩ := hloop
  refine ⟨m', hloop, fun h => ?_⟩
  rw [hm' h]
  cases hb : m[h]? with
  | none => rfl
  | some b =>
      have hin : h ∈ (vSortedByHeight addr m).map Prod.snd :=
        List.mem_map.mpr ⟨(b.index.nHeight, h), mem_vSortedByHeight.mpr ⟨b, hb, rfl⟩, rfl⟩
      rw [Option.map_some, Option.map_some, if_pos hin]

end

end ShinyCoin

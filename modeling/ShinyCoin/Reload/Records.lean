import ShinyCoin.Chain.Node

/-!
# The block index records

`AddToBlockIndex` writes a record for a new block; from then on only `ConnectBlock` and
`DisconnectBlock` write it, together with the record of its parent, whose `hashNext` they set before
`pnext` changes in memory. `RecordsAt` says what the records hold when `tip` is the last block that
is connected. The lemmas here are about the records alone, whatever the code that writes them.
-/

namespace ShinyCoin

/-! ## The link to the next block -/

/-- `hashNext` of a block when `tip` is the last connected one: the hash of the block after it on
the way up, 0 where there is none. -/
def NextOn (tip ptr : BlockPtr) (hashNext : Uint256) : Prop :=
  (∃ c, c :: ptr <:+ tip ∧ hashNext = c.hashBlock) ∨ (∀ c, ¬ c :: ptr <:+ tip) ∧ hashNext = 0

theorem nextOn_tip (tip : BlockPtr) : NextOn tip tip 0 := by
  apply Or.inr
  refine ⟨fun c hsuf => ?_, rfl⟩
  have hle := hsuf.length_le
  simp at hle

theorem nextOn_pprev (p : CBlockIndex) (pprev : BlockPtr) :
    NextOn (p :: pprev) pprev p.hashBlock :=
  .inl ⟨p, List.suffix_rfl, rfl⟩

/-- One block more on top changes the link of its parent only. -/
theorem nextOn_cons {p : CBlockIndex} {pprev ptr : BlockPtr} {hashNext : Uint256}
    (hne : ptr ≠ pprev) : NextOn (p :: pprev) ptr hashNext ↔ NextOn pprev ptr hashNext := by
  have hsuf : ∀ c, c :: ptr <:+ p :: pprev ↔ c :: ptr <:+ pprev := by
    intro c
    rw [List.suffix_cons_iff]
    apply or_iff_right
    intro heq
    exact hne (List.cons.inj heq).2
  simp [NextOn, hsuf]

/-- The link in memory is the one of the records. -/
theorem NextInv.nextOn {pnext tree : Lib.PMap Uint256 BlockPtr} {tip ptr : BlockPtr}
    (h : NextInv pnext tip) (hT : InTree tree tip) (hptr : tree (BlockPtr.hash ptr) = some ptr)
    (hne : ptr ≠ []) : NextOn tip ptr (BlockPtr.hash ((pnext (BlockPtr.hash ptr)).getD [])) := by
  cases hnext : pnext (BlockPtr.hash ptr) with
  | none =>
      apply Or.inr
      refine ⟨fun c hsuf => ?_, rfl⟩
      have hset : pnext (BlockPtr.hash ptr) = some (c :: ptr) :=
        (h _ _).mpr ⟨BlockPtr.mem_path.mpr ⟨List.cons_ne_nil _ _, hsuf⟩, hne, rfl⟩
      rw [hnext] at hset
      cases hset
  | some next =>
      obtain ⟨hmem, htail, hhash⟩ := (h _ _).mp hnext
      obtain ⟨hnil, hsuf⟩ := BlockPtr.mem_path.mp hmem
      obtain ⟨c, rest, rfl⟩ := List.exists_cons_of_ne_nil hnil
      have hrest : tree (BlockPtr.hash rest) = some rest :=
        hT rest (BlockPtr.mem_path.mpr ⟨htail, (List.suffix_cons c rest).trans hsuf⟩)
      rw [show BlockPtr.hash rest = BlockPtr.hash ptr from hhash, hptr] at hrest
      cases hrest
      exact .inl ⟨c, hsuf, rfl⟩

theorem NextOn.unique {tip ptr : BlockPtr} {hashNext hashNext' : Uint256}
    (h : NextOn tip ptr hashNext) (h' : NextOn tip ptr hashNext') : hashNext = hashNext' := by
  rcases h with ⟨c, hsuf, rfl⟩ | ⟨hnone, rfl⟩
  · rcases h' with ⟨c', hsuf', rfl⟩ | ⟨hnone', -⟩
    · have heq := (List.suffix_of_suffix_length_le hsuf hsuf' (by simp)).eq_of_length (by simp)
      rw [(List.cons.inj heq).1]
    · exact absurd hsuf (hnone' c)
  · rcases h' with ⟨c', hsuf', -⟩ | ⟨-, rfl⟩
    · exact absurd hsuf' (hnone c')
    · rfl

/-- A block that no connected block has as its parent has no `pnext`. -/
theorem NextInv.eq_none {pnext tree : Lib.PMap Uint256 BlockPtr} {tip : BlockPtr} {h : Uint256}
    (hnext : NextInv pnext tip) (hT : InTree tree tip)
    (hnot : ∀ ptr, tree h = some ptr → ∀ c, ¬ c :: ptr <:+ tip) : pnext h = none := by
  cases hp : pnext h with
  | none => rfl
  | some next =>
      obtain ⟨hmem, htail, hhash⟩ := (hnext _ _).mp hp
      obtain ⟨hnil, hsuf⟩ := BlockPtr.mem_path.mp hmem
      obtain ⟨c, rest, rfl⟩ := List.exists_cons_of_ne_nil hnil
      have hrest : tree (BlockPtr.hash rest) = some rest :=
        hT rest (BlockPtr.mem_path.mpr ⟨htail, (List.suffix_cons c rest).trans hsuf⟩)
      rw [show BlockPtr.hash rest = h from hhash] at hrest
      exact absurd hsuf (hnot rest hrest c)

/-! ## What the records hold -/

/-- The blocks whose counters are in their records: those of the chain, and the genesis block, which
never gets any. -/
def HasCounters (tip ptr : BlockPtr) : Prop := ptr <:+ tip ∨ ptr.tail = []

/-- The counters of a block. -/
def statsAt (stats : Lib.PMap Uint256 BlockStats) (p : CBlockIndex) : BlockStats :=
  (stats p.hashBlock).getD {}

/-- The record of a block when `tip` is the last connected one. -/
structure RecordAt (stats : Lib.PMap Uint256 BlockStats) (tip : BlockPtr) (p : CBlockIndex)
    (pprev : BlockPtr) (record : CDiskBlockIndex) : Prop where
  index : record.index = p
  hashPrev : record.hashPrev = BlockPtr.hash pprev
  hashNext : NextOn tip (p :: pprev) record.hashNext
  stats : HasCounters tip (p :: pprev) → record.stats = statsAt stats p

/-- The indexed blocks, and no others, have their records in the database. -/
structure RecordsAt (tree : Lib.PMap Uint256 BlockPtr) (stats : Lib.PMap Uint256 BlockStats)
    (tip : BlockPtr) (records : Lib.PMap Uint256 CDiskBlockIndex) : Prop where
  absent : ∀ h, tree h = none → records h = none
  present : ∀ h p pprev, tree h = some (p :: pprev) →
    ∃ record, records h = some record ∧ RecordAt stats tip p pprev record

theorem recordsAt_empty (stats : Lib.PMap Uint256 BlockStats) :
    RecordsAt Lib.PMap.empty stats [] Lib.PMap.empty :=
  ⟨fun _ _ => rfl, fun _ _ _ h => by cases h⟩

section

variable {env : Env} {full : Files} {tree : Lib.PMap Uint256 BlockPtr}
  {stats stats' : Lib.PMap Uint256 BlockStats} {tip : BlockPtr}
  {records : Lib.PMap Uint256 CDiskBlockIndex} {p q : CBlockIndex} {pprev qprev : BlockPtr}

theorem TreeInv.hashBlock (hT : TreeInv env full tree) {h : Uint256}
    (hptr : tree h = some (p :: pprev)) : p.hashBlock = h := by
  obtain ⟨p', pprev', block, heq, hE⟩ := hT h _ hptr
  cases heq
  exact hE.hashBlock

/-- Counters of blocks that are not in their records may change. -/
theorem RecordsAt.congr (h : RecordsAt tree stats tip records)
    (hstats : ∀ k x xprev, tree k = some (x :: xprev) → HasCounters tip (x :: xprev) →
      statsAt stats' x = statsAt stats x) : RecordsAt tree stats' tip records := by
  refine ⟨h.absent, fun k x xprev hk => ?_⟩
  obtain ⟨record, hrecord, hat⟩ := h.present k x xprev hk
  refine ⟨record, hrecord, hat.index, hat.hashPrev, hat.hashNext, fun hc => ?_⟩
  rw [hat.stats hc, hstats k x xprev hk hc]

/-- The record of a new block. -/
theorem RecordsAt.insert (h : RecordsAt tree stats tip records) (hT : InTree tree tip)
    (hnew : tree p.hashBlock = none) :
    RecordsAt (tree.set p.hashBlock (p :: pprev)) stats tip
      (records.set p.hashBlock ⟨p, statsAt stats p, BlockPtr.hash pprev, 0⟩) := by
  constructor
  · intro k hk
    rw [Lib.PMap.set_apply] at hk ⊢
    split at hk
    · cases hk
    · next hne =>
      rw [if_neg hne]
      exact h.absent k hk
  · intro k x xprev hk
    rw [Lib.PMap.set_apply] at hk ⊢
    split at hk
    · next heq =>
      cases hk
      rw [if_pos heq]
      refine ⟨_, rfl, rfl, rfl, .inr ⟨fun c hsuf => ?_, rfl⟩, fun _ => rfl⟩
      have hin : tree p.hashBlock = some (p :: pprev) :=
        hT _ (BlockPtr.mem_path.mpr ⟨List.cons_ne_nil _ _, (List.suffix_cons c _).trans hsuf⟩)
      rw [hnew] at hin
      cases hin
    · next hne =>
      rw [if_neg hne]
      exact h.present k x xprev hk

/-- The first block of the chain. -/
theorem RecordsAt.start (h : RecordsAt tree stats [] records) : RecordsAt tree stats [p] records := by
  refine ⟨h.absent, fun k x xprev hk => ?_⟩
  obtain ⟨record, hrecord, hat⟩ := h.present k x xprev hk
  refine ⟨record, hrecord, hat.index, hat.hashPrev, ?_, fun hc => hat.stats ?_⟩
  · rw [nextOn_cons (List.cons_ne_nil _ _)]
    exact hat.hashNext
  · rcases hc with hsuf | hroot
    · rcases List.suffix_cons_iff.mp hsuf with heq | hnil
      · exact .inr (by rw [(List.cons.inj heq).2]; rfl)
      · exact .inl hnil
    · exact .inr hroot

/-- `DisconnectBlock` takes the link out of the parent's record. -/
theorem RecordsAt.pop (h : RecordsAt tree stats (p :: q :: qprev) records)
    (hT : TreeInv env full tree) (hq : tree q.hashBlock = some (q :: qprev)) :
    RecordsAt tree stats (q :: qprev)
      (records.set q.hashBlock ⟨q, statsAt stats q, BlockPtr.hash qprev, 0⟩) := by
  constructor
  · intro k hk
    rw [Lib.PMap.set_of_ne]
    · exact h.absent k hk
    · rintro rfl
      rw [hq] at hk
      cases hk
  · intro k x xprev hk
    rw [Lib.PMap.set_apply]
    split
    · next heq =>
      rw [heq, hq] at hk
      cases hk
      exact ⟨_, rfl, rfl, rfl, nextOn_tip _, fun _ => rfl⟩
    · next hne =>
      obtain ⟨record, hrecord, hat⟩ := h.present k x xprev hk
      have hother : x :: xprev ≠ q :: qprev := by
        intro heq
        cases heq
        exact hne (hT.hashBlock hk).symm
      refine ⟨record, hrecord, hat.index, hat.hashPrev, (nextOn_cons hother).mp hat.hashNext, ?_⟩
      intro hc
      apply hat.stats
      exact hc.imp_left fun hsuf => hsuf.trans (List.suffix_cons _ _)

/-- `ConnectBlock` writes the block's record with its counters, and the link into the parent's. -/
theorem RecordsAt.push (h : RecordsAt tree stats (q :: qprev) records)
    (hT : TreeInv env full tree) (hp : tree p.hashBlock = some (p :: q :: qprev))
    (hq : tree q.hashBlock = some (q :: qprev)) (st : BlockStats) :
    RecordsAt tree (stats.set p.hashBlock st) (p :: q :: qprev)
      ((records.set p.hashBlock ⟨p, st, q.hashBlock, 0⟩).set q.hashBlock
        ⟨q, statsAt (stats.set p.hashBlock st) q, BlockPtr.hash qprev, p.hashBlock⟩) := by
  constructor
  · intro k hk
    rw [Lib.PMap.set_of_ne, Lib.PMap.set_of_ne]
    · exact h.absent k hk
    · rintro rfl
      rw [hp] at hk
      cases hk
    · rintro rfl
      rw [hq] at hk
      cases hk
  · intro k x xprev hk
    rw [Lib.PMap.set_apply]
    split
    · next heq =>
      rw [heq, hq] at hk
      cases hk
      exact ⟨_, rfl, rfl, rfl, nextOn_pprev _ _, fun _ => rfl⟩
    rw [Lib.PMap.set_apply]
    split
    · next heq =>
      rw [heq, hp] at hk
      cases hk
      refine ⟨_, rfl, rfl, rfl, nextOn_tip _, fun _ => ?_⟩
      simp [statsAt]
    · next hneq hnep =>
      obtain ⟨record, hrecord, hat⟩ := h.present k x xprev hk
      have hhash := hT.hashBlock hk
      have hotherq : x :: xprev ≠ q :: qprev := by
        intro heq
        cases heq
        exact hneq hhash.symm
      refine ⟨record, hrecord, hat.index, hat.hashPrev, (nextOn_cons hotherq).mpr hat.hashNext, ?_⟩
      intro hc
      have hsame : statsAt (stats.set p.hashBlock st) x = statsAt stats x := by
        rw [statsAt, statsAt, Lib.PMap.set_of_ne]
        rw [hhash]
        exact hnep
      rw [hsame]
      apply hat.stats
      refine hc.imp_left fun hsuf => ?_
      rcases List.suffix_cons_iff.mp hsuf with heq | hsuf
      · cases heq
        exact absurd hhash.symm hnep
      · exact hsuf

end

end ShinyCoin

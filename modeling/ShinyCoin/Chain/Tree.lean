import ShinyCoin.Chain.Frame

/-!
# The block tree and the main chain through it

`mapBlockIndex` holds every indexed block under its hash, together with its ancestors, and every
root of it is the genesis block. `pnext` leads from the genesis block up to the tip: `Reorganize`
unlinks the blocks it leaves, last one first, and links the ones it enters.
-/

namespace ShinyCoin

/-! ## Indexed blocks -/

/-- The block is on disk where the pointer says. -/
def BlockAt (full : Files) (ptr : BlockPtr) (block : CBlock) : Prop :=
  ∃ p pprev, ptr = p :: pprev ∧ p.nFile ≠ UINT_MAX ∧ full.block p.nFile p.nBlockPos = some block

theorem BlockAt.unique {full : Files} {ptr : BlockPtr} {block block' : CBlock}
    (h : BlockAt full ptr block) (h' : BlockAt full ptr block') : block = block' := by
  obtain ⟨p, pprev, rfl, -, h⟩ := h
  obtain ⟨p', pprev', heq, -, h'⟩ := h'
  cases heq
  rw [h] at h'
  exact Option.some.inj h'

/-- What `ReadFromDisk(pindex)` returns is the block at the pointer. -/
theorem Files.PartOf.readBlock {files full : Files} (h : files.PartOf full) {env : Env}
    {ptr : BlockPtr} {block : CBlock} (hread : files.readBlock env ptr = some block) :
    BlockAt full ptr block ∧ env.getIDHash block.toCBlockHeader = BlockPtr.hash ptr := by
  cases ptr with
  | nil => cases hread
  | cons p pprev =>
      rw [Files.readBlock, Option.filter_eq_some_iff, beq_iff_eq, readBlockAt] at hread
      obtain ⟨hread, hhash⟩ := hread
      split at hread
      · cases hread
      · next hfile =>
        rw [Option.filter_eq_some_iff] at hread
        exact ⟨⟨p, pprev, rfl, hfile, h.block _ _ _ hread.1⟩, hhash⟩

/-- What is known of a pointer that `mapBlockIndex` holds under `h`. -/
structure TreeEntry (env : Env) (full : Files) (tree : Lib.PMap Uint256 BlockPtr) (h : Uint256)
    (p : CBlockIndex) (pprev : BlockPtr) (block : CBlock) : Prop where
  hashBlock : p.hashBlock = h
  nFile : p.nFile ≠ UINT_MAX
  onDisk : full.block p.nFile p.nBlockPos = some block
  getIDHash : env.getIDHash block.toCBlockHeader = h
  hashPrevBlock : block.hashPrevBlock = BlockPtr.hash pprev
  nHeight : p.nHeight = pprev.length
  bnChainTrust : ∀ q ∈ pprev.head?, q.bnChainTrust ≤ p.bnChainTrust
  parent : pprev ≠ [] → tree (BlockPtr.hash pprev) = some pprev
  genesis : pprev = [] → h = env.hashGenesisBlock

def TreeInv (env : Env) (full : Files) (tree : Lib.PMap Uint256 BlockPtr) : Prop :=
  ∀ h ptr, tree h = some ptr → ∃ p pprev block, ptr = p :: pprev ∧
    TreeEntry env full tree h p pprev block

section

variable {env : Env} {full : Files} {tree : Lib.PMap Uint256 BlockPtr} {ptr : BlockPtr}

/-- The pointer and its ancestors are indexed, each under its own hash. -/
def InTree (tree : Lib.PMap Uint256 BlockPtr) (ptr : BlockPtr) : Prop :=
  ∀ x ∈ BlockPtr.path ptr, tree (BlockPtr.hash x) = some x

theorem TreeInv.inTree (hT : TreeInv env full tree) {h : Uint256} (hptr : tree h = some ptr) :
    InTree tree ptr := by
  induction ptr generalizing h with
  | nil => simp [InTree, BlockPtr.path]
  | cons p pprev ih =>
      obtain ⟨p', pprev', block, heq, hE⟩ := hT h _ hptr
      cases heq
      intro x hx
      rcases List.mem_cons.mp hx with rfl | hx
      · rw [BlockPtr.hash, hE.hashBlock]
        exact hptr
      · refine ih (hE.parent ?_) x hx
        rintro rfl
        simp [BlockPtr.path] at hx

theorem TreeInv.heights (hT : TreeInv env full tree) {h : Uint256} (hptr : tree h = some ptr) :
    Heights ptr := by
  induction ptr generalizing h with
  | nil => trivial
  | cons p pprev ih =>
      obtain ⟨p', pprev', block, heq, hE⟩ := hT h _ hptr
      cases heq
      refine ⟨hE.nHeight, ?_⟩
      cases pprev with
      | nil => trivial
      | cons q qs => exact ih (hE.parent (List.cons_ne_nil _ _))

/-- No ancestor has more trust. -/
theorem TreeInv.trust_le (hT : TreeInv env full tree) {h : Uint256} {p q : CBlockIndex}
    {pprev qprev : BlockPtr} (hptr : tree h = some (p :: pprev))
    (hsuf : q :: qprev <:+ p :: pprev) : q.bnChainTrust ≤ p.bnChainTrust := by
  induction pprev generalizing h p with
  | nil =>
      obtain ⟨rfl, -⟩ := List.cons.inj (List.suffix_cons_iff.mp hsuf |>.resolve_right (by simp))
      exact le_rfl
  | cons r rprev ih =>
      rcases List.suffix_cons_iff.mp hsuf with heq | hsuf
      · cases heq
        exact le_rfl
      · obtain ⟨p', pprev', block, heq, hE⟩ := hT h _ hptr
        cases heq
        exact (ih (hE.parent (List.cons_ne_nil _ _)) hsuf).trans (hE.bnChainTrust r rfl)

/-- `0` stands for no block, so no indexed block has it as its hash. -/
theorem TreeInv.hash_ne_zero (hT : TreeInv env full tree)
    (hzero : ∀ header, env.getIDHash header ≠ 0) {h : Uint256} (hptr : tree h = some ptr) :
    BlockPtr.hash ptr = h ∧ h ≠ 0 := by
  obtain ⟨p, pprev, block, rfl, hE⟩ := hT h _ hptr
  refine ⟨hE.hashBlock, ?_⟩
  rw [← hE.getIDHash]
  exact hzero _

/-- Where anything is indexed the genesis block is, and it has no parent. -/
theorem TreeInv.root (hT : TreeInv env full tree) {h : Uint256} (hptr : tree h = some ptr) :
    ∃ g, tree env.hashGenesisBlock = some [g] ∧ [g] <:+ ptr := by
  induction ptr generalizing h with
  | nil =>
      obtain ⟨p, pprev, block, heq, -⟩ := hT h _ hptr
      cases heq
  | cons p pprev ih =>
      obtain ⟨p', pprev', block, heq, hE⟩ := hT h _ hptr
      cases heq
      cases pprev with
      | nil => exact ⟨p, by rw [← hE.genesis rfl]; exact hptr, List.suffix_rfl⟩
      | cons q qs =>
          obtain ⟨g, hg, hsuf⟩ := ih (hE.parent (List.cons_ne_nil _ _))
          exact ⟨g, hg, hsuf.trans (List.suffix_cons _ _)⟩

theorem InTree.suffix {x : BlockPtr} (h : InTree tree ptr) (hx : x <:+ ptr) : InTree tree x := by
  intro y hy
  obtain ⟨hne, hsuf⟩ := BlockPtr.mem_path.mp hy
  exact h y (BlockPtr.mem_path.mpr ⟨hne, hsuf.trans hx⟩)

/-- Blocks of one branch have different hashes. -/
theorem InTree.eq_of_hash_eq (h : InTree tree ptr) {x y : BlockPtr} (hx : x ∈ BlockPtr.path ptr)
    (hy : y ∈ BlockPtr.path ptr) (heq : BlockPtr.hash x = BlockPtr.hash y) : x = y := by
  have := h x hx
  rw [heq, h y hy] at this
  exact (Option.some.inj this).symm

end

/-! ## `pnext` -/

/-- `pnext` is set exactly in the ancestors of the tip, and leads to the next one. -/
def NextInv (pnext : Lib.PMap Uint256 BlockPtr) (tip : BlockPtr) : Prop :=
  ∀ h ptr, pnext h = some ptr ↔
    ptr ∈ BlockPtr.path tip ∧ ptr.tail ≠ [] ∧ BlockPtr.hash ptr.tail = h

theorem nextInv_nil : NextInv Lib.PMap.empty [] := by
  intro h ptr
  simp [BlockPtr.path]

theorem nextInv_singleton (g : CBlockIndex) : NextInv Lib.PMap.empty [g] := by
  intro h ptr
  simp only [Lib.PMap.empty_apply, BlockPtr.path, List.mem_singleton, reduceCtorEq, false_iff]
  rintro ⟨rfl, hne, -⟩
  exact hne rfl

section

variable {tree pnext : Lib.PMap Uint256 BlockPtr} {p : CBlockIndex} {pprev : BlockPtr}

/-- No block of a branch has the tip of the branch as its parent. -/
theorem InTree.tail_hash_ne (hT : InTree tree pprev) {ptr : BlockPtr}
    (hptr : ptr ∈ BlockPtr.path pprev) (hne : ptr.tail ≠ []) :
    BlockPtr.hash ptr.tail ≠ BlockPtr.hash pprev := by
  obtain ⟨hnil, hsuf⟩ := BlockPtr.mem_path.mp hptr
  intro heq
  have hpp : pprev ≠ [] := by
    rintro rfl
    exact hnil (List.suffix_nil.mp hsuf)
  have htail : ptr.tail ∈ BlockPtr.path pprev :=
    BlockPtr.mem_path.mpr ⟨hne, (List.tail_suffix ptr).trans hsuf⟩
  have := hT.eq_of_hash_eq htail (BlockPtr.mem_path.mpr ⟨hpp, List.suffix_rfl⟩) heq
  have hlen := hsuf.length_le
  rw [← this, List.length_tail] at hlen
  have hpos := List.length_pos_iff.mpr hnil
  omega

theorem NextInv.link (h : NextInv pnext pprev) (hT : InTree tree (p :: pprev))
    (hne : pprev ≠ []) : NextInv (link pnext (p :: pprev)) (p :: pprev) := by
  have hpp := hT.suffix (List.suffix_cons p pprev)
  obtain ⟨q, qs, rfl⟩ := List.exists_cons_of_ne_nil hne
  intro k ptr
  show (pnext.set q.hashBlock (p :: q :: qs)) k = some ptr ↔ _
  rw [Lib.PMap.set_apply, BlockPtr.path, List.mem_cons]
  split
  · next hk =>
    subst hk
    constructor
    · intro heq
      cases heq
      exact ⟨.inl rfl, hne, rfl⟩
    · rintro ⟨rfl | hptr, hne', hhash⟩
      · rfl
      · exact absurd hhash (hpp.tail_hash_ne hptr hne')
  · next hk =>
    rw [h k ptr]
    constructor
    · rintro ⟨hptr, hrest⟩
      exact ⟨.inr hptr, hrest⟩
    · rintro ⟨rfl | hptr, hne', hhash⟩
      · exact absurd hhash.symm hk
      · exact ⟨hptr, hne', hhash⟩

theorem NextInv.unlink (h : NextInv pnext (p :: pprev)) (hT : InTree tree (p :: pprev))
    (hne : pprev ≠ []) : NextInv (unlink pnext (p :: pprev)) pprev := by
  have hpp := hT.suffix (List.suffix_cons p pprev)
  obtain ⟨q, qs, rfl⟩ := List.exists_cons_of_ne_nil hne
  intro k ptr
  show (pnext.erase q.hashBlock) k = some ptr ↔ _
  rw [Lib.PMap.erase_apply]
  split
  · next hk =>
    subst hk
    constructor
    · intro heq
      cases heq
    · rintro ⟨hptr, hne', hhash⟩
      exact absurd hhash (hpp.tail_hash_ne hptr hne')
  · next hk =>
    rw [h k ptr, BlockPtr.path, List.mem_cons]
    constructor
    · rintro ⟨rfl | hptr, hne', hhash⟩
      · exact absurd hhash.symm hk
      · exact ⟨hptr, hne', hhash⟩
    · rintro ⟨hptr, hrest⟩
      exact ⟨.inr hptr, hrest⟩

/-- Unlinking back to an ancestor. -/
theorem NextInv.unlinks {pfork tip : BlockPtr} (hsuf : pfork <:+ tip) (hne : pfork ≠ [])
    (h : NextInv pnext tip) (hT : InTree tree tip) :
    NextInv ((backTo pfork tip).foldl ShinyCoin.unlink pnext) pfork := by
  induction tip generalizing pnext with
  | nil => exact absurd (List.suffix_nil.mp hsuf) hne
  | cons p pprev ih =>
      rw [backTo]
      split
      · next heq =>
        rw [← heq]
        exact h
      · next hne' =>
        obtain ⟨hsuf', hpp⟩ := suffix_pprev hne hsuf hne'
        exact ih hsuf' (h.unlink hT hpp) (hT.suffix (List.suffix_cons p pprev))

/-- Linking up from an ancestor. -/
theorem NextInv.links {pfork tip : BlockPtr} (hsuf : pfork <:+ tip) (hne : pfork ≠ [])
    (h : NextInv pnext pfork) (hT : InTree tree tip) :
    NextInv ((backTo pfork tip).reverse.foldl ShinyCoin.link pnext) tip := by
  induction tip with
  | nil => exact absurd (List.suffix_nil.mp hsuf) hne
  | cons p pprev ih =>
      rw [backTo]
      split
      · next heq =>
        rw [heq]
        exact h
      · next hne' =>
        obtain ⟨hsuf', hpp⟩ := suffix_pprev hne hsuf hne'
        rw [List.reverse_cons, List.foldl_append]
        exact (ih hsuf' (hT.suffix (List.suffix_cons p pprev))).link hT hpp

end

/-! ## Walking up from the genesis block -/

/-- The blocks visited by following `pnext` from a pointer, at most `n` of them. -/
def followNext (pnext : Lib.PMap Uint256 BlockPtr) : Nat → BlockPtr → List BlockPtr
  | n + 1, p :: pprev => (p :: pprev) :: followNext pnext n ((pnext p.hashBlock).getD [])
  | _, _ => []

/-- The step of a walk up: one block less is left above. -/
theorem backTo_step {x tip : BlockPtr} {p : CBlockIndex} (h : p :: x <:+ tip) :
    backTo x tip = backTo (p :: x) tip ++ [p :: x] := by
  have hpath := path_eq_backTo h
  rw [path_eq_backTo ((List.suffix_cons p x).trans h), BlockPtr.path, List.append_cons] at hpath
  exact List.append_cancel_right hpath

/-- From any ancestor the walk goes up to the tip and stops there. -/
theorem NextInv.followNext {pnext tree : Lib.PMap Uint256 BlockPtr} {tip : BlockPtr}
    (h : NextInv pnext tip) (hT : InTree tree tip) {n : Nat} :
    ∀ {x : BlockPtr}, x ≠ [] → x <:+ tip → tip.length < n + x.length →
      ShinyCoin.followNext pnext n x = (backTo x tip ++ [x]).reverse := by
  induction n with
  | zero =>
      intro x _ hsuf hlen
      have := hsuf.length_le
      omega
  | succ n ih =>
      intro x hne hsuf hlen
      obtain ⟨q, qs, rfl⟩ := List.exists_cons_of_ne_nil hne
      obtain ⟨above, rfl⟩ := hsuf
      rcases List.eq_nil_or_concat above with rfl | ⟨above, p, rfl⟩
      · -- nothing has the tip as its parent
        have hnone : pnext q.hashBlock = none := by
          rw [Option.eq_none_iff_forall_ne_some]
          intro ptr hptr
          obtain ⟨hmem, htail, hhash⟩ := (h _ ptr).mp hptr
          exact hT.tail_hash_ne hmem htail hhash
        simp [ShinyCoin.followNext, hnone, backTo]
      · have hup : p :: q :: qs <:+ above.concat p ++ q :: qs := ⟨above, by simp⟩
        have hnext : pnext q.hashBlock = some (p :: q :: qs) :=
          (h _ _).mpr ⟨BlockPtr.mem_path.mpr ⟨List.cons_ne_nil _ _, hup⟩, List.cons_ne_nil _ _, rfl⟩
        rw [ShinyCoin.followNext, hnext, Option.getD_some,
          ih (List.cons_ne_nil _ _) hup (by simp only [List.length_cons] at hlen ⊢; omega),
          backTo_step hup]
        simp

end ShinyCoin

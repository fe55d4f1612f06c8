import ShinyCoin.Chain.Fork
import ShinyCoin.Lib.Meet

/-!
# The fork of two blocks of a tree

The loop of `Reorganize` walks two pointers back until they are one. `plonger` stops at the height of
`pfork` or below, so neither of them ever passes the block where the branches meet.
-/

namespace ShinyCoin

/-- Blocks that go back to one genesis block, each one higher than its parent. -/
structure BlockTree where
  genesis : CBlockIndex
  blocks : Set BlockPtr
  rooted : ∀ ptr ∈ blocks, ptr.getLast? = some genesis
  heights : ∀ ptr ∈ blocks, ∀ p q pprev, p :: q :: pprev <:+ ptr → p.nHeight = q.nHeight + 1

/-- `nHeight` of the block a pointer points to -/
def BlockPtr.nHeight : BlockPtr → ℤ
  | [] => 0
  | p :: _ => p.nHeight

/-- Heights count from that of the genesis block on. -/
def HeightsFrom (nGenesis : ℤ) (ptr : BlockPtr) : Prop :=
  ∀ x, x ≠ [] → x <:+ ptr → BlockPtr.nHeight x + 1 = nGenesis + x.length

theorem HeightsFrom.suffix {nGenesis : ℤ} {ptr x : BlockPtr} (h : HeightsFrom nGenesis ptr)
    (hx : x <:+ ptr) : HeightsFrom nGenesis x :=
  fun y hne hy => h y hne (hy.trans hx)

theorem BlockTree.heightsFrom (tree : BlockTree) {ptr : BlockPtr} (hptr : ptr ∈ tree.blocks) :
    HeightsFrom tree.genesis.nHeight ptr := by
  have hroot := tree.rooted ptr hptr
  have hheights := tree.heights ptr hptr
  intro x hne hx
  induction x with
  | nil => exact absurd rfl hne
  | cons p pprev ih =>
      cases pprev with
      | nil =>
          obtain ⟨init, rfl⟩ := hx
          rw [List.getLast?_append_of_ne_nil _ (List.cons_ne_nil p []), List.getLast?_singleton]
            at hroot
          rw [← Option.some.inj hroot]
          rfl
      | cons q pprev =>
          have hstep := hheights p q pprev hx
          have hrest := ih (List.cons_ne_nil _ _) ((List.suffix_cons p _).trans hx)
          simp only [BlockPtr.nHeight, List.length_cons] at hrest ⊢
          push_cast at hrest ⊢
          omega

/-- Going down to a height never passes a block that is not higher. -/
theorem suffix_lowerTo_of_le {nGenesis nHeight : ℤ} {ptr z : BlockPtr} (h : HeightsFrom nGenesis ptr)
    (hz : z <:+ ptr) (hle : nGenesis + z.length ≤ nHeight + 1) : z <:+ lowerTo nHeight ptr := by
  induction ptr with
  | nil => exact hz
  | cons p pprev ih =>
      rw [lowerTo]
      split
      · next hlt =>
        rcases List.suffix_cons_iff.mp hz with rfl | hz
        · have hhead := h _ (List.cons_ne_nil p pprev) List.suffix_rfl
          simp only [BlockPtr.nHeight] at hhead
          omega
        · exact ih (h.suffix (List.suffix_cons p pprev)) hz
      · exact hz

theorem nHeight_lowerTo_le {nHeight : ℤ} {ptr : BlockPtr} (hne : lowerTo nHeight ptr ≠ []) :
    BlockPtr.nHeight (lowerTo nHeight ptr) ≤ nHeight := by
  induction ptr with
  | nil => exact absurd rfl hne
  | cons p pprev ih =>
      rw [lowerTo] at hne ⊢
      split at hne
      · next hlt =>
        rw [if_pos hlt]
        exact ih hne
      · next hge =>
        rw [if_neg hge]
        exact not_lt.mp hge

/-- The walk ends where the branches meet. -/
theorem findFork_of_isMeet {nGenesis : ℤ} {ptr plonger z : BlockPtr}
    (hptr : HeightsFrom nGenesis ptr) (hlonger : HeightsFrom nGenesis plonger)
    (hz : Lib.IsMeet z ptr plonger) : findFork ptr plonger = .ok z := by
  induction ptr generalizing plonger with
  | nil => exact absurd (List.suffix_nil.mp hz.left) hz.ne_nil
  | cons f fprev ih =>
      rw [findFork]
      split
      · next heq =>
        rw [hz.eq_left (heq ▸ List.suffix_rfl)]
      · have hhead := hptr _ (List.cons_ne_nil f fprev) List.suffix_rfl
        simp only [BlockPtr.nHeight] at hhead
        have hsuf := lowerTo_suffix f.nHeight plonger
        have hlow : z <:+ lowerTo f.nHeight plonger := by
          apply suffix_lowerTo_of_le hlonger hz.right
          have := hz.left.length_le
          omega
        have hmeet := hz.of_suffix List.suffix_rfl hsuf hz.left hlow
        have hlowNe : lowerTo f.nHeight plonger ≠ [] := by
          intro hnil
          rw [hnil] at hlow
          exact hz.ne_nil (List.suffix_nil.mp hlow)
        have hlowLe := nHeight_lowerTo_le hlowNe
        have hlowHead := hlonger _ hlowNe hsuf
        generalize lowerTo f.nHeight plonger = low at *
        cases low with
        | nil => exact absurd rfl hlowNe
        | cons l lprev =>
            dsimp only
            split
            · next heq =>
              rw [hmeet.eq_left (heq ▸ List.suffix_rfl)]
            · next hne =>
              -- `plonger` is not above `pfork`, so the meet is below `pfork`
              have hbelow : z <:+ fprev := by
                rcases List.suffix_cons_iff.mp hz.left with heq | hbelow
                · have hle := hlow.length_le
                  rw [heq] at hlow hle
                  exact absurd (hlow.eq_of_length (by omega)) hne
                · exact hbelow
              exact ih (hptr.suffix (List.suffix_cons f fprev)) (hlonger.suffix hsuf)
                (hmeet.of_suffix (List.suffix_cons f fprev) List.suffix_rfl hbelow hlow)

/-- Above an ancestor the blocks follow each other. -/
theorem length_getElem_backTo {pfork ptr x : BlockPtr} (hsuf : pfork <:+ ptr) {i : Nat}
    (h : (backTo pfork ptr).reverse[i]? = some x) :
    x <:+ ptr ∧ x.length = pfork.length + 1 + i := by
  induction ptr generalizing i with
  | nil => cases h
  | cons p pprev ih =>
      rw [backTo] at h
      split at h
      · cases h
      · next hne =>
        rcases List.suffix_cons_iff.mp hsuf with heq | hsuf
        · exact absurd heq.symm hne
        · have hlen := congrArg List.length (path_eq_backTo hsuf)
          rw [List.length_append, BlockPtr.length_path, BlockPtr.length_path] at hlen
          rw [List.reverse_cons, List.getElem?_append] at h
          split at h
          · obtain ⟨hx, hlength⟩ := ih hsuf h
            exact ⟨hx.trans (List.suffix_cons p pprev), hlength⟩
          · next hge =>
            rw [List.length_reverse] at hge h
            have hlast : i - (backTo pfork pprev).length = 0 := by
              have := (List.getElem?_eq_some_iff.mp h).1
              simpa using this
            rw [hlast] at h
            cases h
            refine ⟨List.suffix_rfl, ?_⟩
            rw [List.length_cons]
            omega

/-- What `Reorganize` finds: the lowest common ancestor, the blocks from the best block down to it,
and those from its child up to the new block. -/
structure ForkFound (pindexBest pindexNew pfork : BlockPtr) (vDisconnect vConnect : List BlockPtr) :
    Prop where
  lowest : Lib.IsMeet pfork pindexBest pindexNew
  disconnect : BlockPtr.path pindexBest = vDisconnect ++ BlockPtr.path pfork
  connect : BlockPtr.path pindexNew = vConnect.reverse ++ BlockPtr.path pfork
  ascending : ∀ (i : Nat) (ptr : BlockPtr), vConnect[i]? = some ptr →
    BlockPtr.nHeight ptr = BlockPtr.nHeight pfork + 1 + i

/-- The fork of two blocks of a tree is found without coming to `NULL`. -/
theorem findFork_lowest (tree : BlockTree) (s : NodeState) (pindexNew : BlockPtr)
    (hbest : s.pindexBest ∈ tree.blocks) (hnew : pindexNew ∈ tree.blocks) :
    ∃ pfork, findFork s.pindexBest pindexNew = .ok pfork ∧
      ForkFound s.pindexBest pindexNew pfork (disconnectList pfork s)
        (connectList pfork pindexNew) := by
  have hrootBest := tree.rooted _ hbest
  have hne : s.pindexBest ≠ [] := by
    intro hnil
    rw [hnil] at hrootBest
    cases hrootBest
  obtain ⟨pfork, hmeet⟩ := Lib.exists_isMeet hne (hrootBest.trans (tree.rooted _ hnew).symm)
  have hheights := tree.heightsFrom hnew
  refine ⟨pfork, findFork_of_isMeet (tree.heightsFrom hbest) hheights hmeet, hmeet, ?_, ?_, ?_⟩
  · exact path_eq_backTo hmeet.left
  · rw [connectList, List.reverse_reverse]
    exact path_eq_backTo hmeet.right
  · intro i ptr hptr
    obtain ⟨hsuf, hlen⟩ := length_getElem_backTo hmeet.right hptr
    have hhigh := hheights ptr (List.ne_nil_of_length_pos (by omega)) hsuf
    have hlow := hheights pfork hmeet.ne_nil hmeet.right
    omega

/-! ### Two branches of different lengths -/

def rootBlock : CBlockIndex where
  hashBlock := 1
  nFile := 1
  nBlockPos := 0

def leftBranch : BlockPtr := [{ rootBlock with hashBlock := 2, nHeight := 1 }, rootBlock]

def rightBranch : BlockPtr :=
  [{ rootBlock with hashBlock := 4, nHeight := 2 }, { rootBlock with hashBlock := 3, nHeight := 1 },
    rootBlock]

def twoBranches : BlockTree where
  genesis := rootBlock
  blocks := {leftBranch, rightBranch}
  rooted := by
    rintro ptr (rfl | rfl) <;> rfl
  heights := by
    rintro ptr (rfl | rfl) p q pprev hsuf
    · simp only [leftBranch, List.suffix_cons_iff, List.suffix_nil, List.cons.injEq] at hsuf
      obtain ⟨rfl, rfl, -⟩ | ⟨-, hnil, -⟩ | hnil := hsuf
      · rfl
      · cases hnil
    · simp only [rightBranch, List.suffix_cons_iff, List.suffix_nil, List.cons.injEq] at hsuf
      obtain ⟨rfl, rfl, -⟩ | ⟨rfl, rfl, -⟩ | ⟨-, hnil, -⟩ | hnil := hsuf
      · rfl
      · rfl
      · cases hnil

theorem findFork_lowest_twoBranches :
    ∃ pfork, findFork leftBranch rightBranch = .ok pfork ∧
      ForkFound leftBranch rightBranch pfork (disconnectList pfork { pindexBest := leftBranch })
        (connectList pfork rightBranch) :=
  findFork_lowest twoBranches { pindexBest := leftBranch } rightBranch (.inl rfl) (.inr rfl)

end ShinyCoin

import ShinyCoin.Chain.Tree
import ShinyCoin.Chain.ForkPoint
import ShinyCoin.Sync.Checkpoint

/-!
# Block locators

A locator lists blocks on the way back from a block: the first twelve one by one, and from there on
in steps that double. Whoever gets it takes the first one on its own main chain. The steps are counted
in two ways: `Set` looks at the number of entries it has, `GetDistanceBack` at the distance so far. They
double at the same entry.
-/

namespace ShinyCoin

/-! ## The functions -/

/-- `nStep` -/
abbrev StepSize := { n : Nat // 0 < n }

/-- `nStep *= 2` -/
def StepSize.double (nStep : StepSize) : StepSize := ⟨nStep.1 * 2, Nat.mul_pos nStep.2 (by decide)⟩

namespace CBlockLocator

/-- The loop of `Set`, once `vHave` has `size` entries. -/
def setLoop (nStep : StepSize) (size : Nat) : BlockPtr → List Uint256
  | [] => []
  | p :: pprev =>
      p.hashBlock :: setLoop (if 10 < size + 1 then nStep.double else nStep) (size + 1)
        ((p :: pprev).drop nStep.1)
termination_by ptr => ptr.length
decreasing_by
  have := nStep.2
  simp only [List.length_drop, List.length_cons]
  omega

/-- `CBlockLocator(pindex)` -/
def set (hashGenesisBlock : Uint256) (pindex : BlockPtr) : List Uint256 :=
  setLoop ⟨1, Nat.one_pos⟩ 0 pindex ++ [hashGenesisBlock]

end CBlockLocator

namespace NodeState

/-- The block with a hash, if it is in the main chain. -/
def findMain (s : NodeState) (hash : Uint256) : Option BlockPtr :=
  (s.mapBlockIndex hash).filter s.isInMainChain

/-- `CBlockLocator::GetBlockIndex` -/
def getBlockIndex (s : NodeState) (vHave : List Uint256) : BlockPtr :=
  (vHave.findSome? s.findMain).getD s.pindexGenesisBlock

def distanceLoop (s : NodeState) : List Uint256 → Nat → Nat → Nat
  | [], nDistance, _ => nDistance
  | hash :: vHave, nDistance, nStep =>
      if (s.findMain hash).isSome then nDistance
      else distanceLoop s vHave (nDistance + nStep)
        (if 10 < nDistance + nStep then nStep * 2 else nStep)

/-- `CBlockLocator::GetDistanceBack` -/
def getDistanceBack (s : NodeState) (vHave : List Uint256) : Nat := s.distanceLoop vHave 0 1

end NodeState

/-! ## The schedule -/

/-- Where the loop of `Set` is once it has `size` entries, `D` blocks back: the step is 1 for the
first eleven, and 9 less than the distance from there on. -/
def Scheduled (size D nStep : Nat) : Prop :=
  size ≤ 10 ∧ D = size ∧ nStep = 1 ∨ 10 < size ∧ D = nStep + 9 ∧ 2 ≤ nStep

theorem Scheduled.next {size D : Nat} {nStep : StepSize} (h : Scheduled size D nStep.1) :
    Scheduled (size + 1) (D + nStep.1)
      (if 10 < size + 1 then nStep.double else nStep).1 := by
  unfold Scheduled at *
  split
  · show _ ∨ 10 < size + 1 ∧ D + nStep.1 = nStep.1 * 2 + 9 ∧ 2 ≤ nStep.1 * 2
    omega
  · omega

/-- `GetDistanceBack` doubles the step where `Set` does. -/
theorem Scheduled.double_iff {size D : Nat} {nStep : StepSize} (h : Scheduled size D nStep.1) :
    (if 10 < D + nStep.1 then nStep.1 * 2 else nStep.1)
      = (if 10 < size + 1 then nStep.double else nStep).1 := by
  have hiff : 10 < D + nStep.1 ↔ 10 < size + 1 := by
    unfold Scheduled at h
    omega
  split
  · next hlt =>
    rw [if_pos (hiff.mp hlt)]
    rfl
  · next hge => rw [if_neg (fun hlt => hge (hiff.mpr hlt))]

section

variable {b : BlockPtr}

/-- Every entry of the loop is a block `d` steps back, and `d` is what `GetDistanceBack` returns where
it is the first one in the main chain. -/
theorem distanceLoop_setLoop (nStep : StepSize) (size : Nat) (ptr : BlockPtr) {D : Nat}
    (hptr : ptr = b.drop D) (hsched : Scheduled size D nStep.1) {i : Nat} {hash : Uint256}
    (hi : (CBlockLocator.setLoop nStep size ptr)[i]? = some hash) :
    ∃ d < b.length, BlockPtr.hash (b.drop d) = hash ∧
      ∀ (s : NodeState) (rest : List Uint256),
        (∀ j < i, ∀ h, (CBlockLocator.setLoop nStep size ptr)[j]? = some h → s.findMain h = none) →
        (s.findMain hash).isSome = true →
        s.distanceLoop (CBlockLocator.setLoop nStep size ptr ++ rest) D nStep.1 = d := by
  induction nStep, size, ptr using CBlockLocator.setLoop.induct generalizing D i with
  | case1 nStep size =>
      rw [CBlockLocator.setLoop] at hi
      cases hi
  | case2 nStep size p pprev ih =>
      rw [CBlockLocator.setLoop] at hi ⊢
      cases i with
      | zero =>
          cases hi
          refine ⟨D, ?_, by rw [← hptr]; rfl, ?_⟩
          · by_contra hge
            rw [List.drop_of_length_le (not_lt.mp hge)] at hptr
            cases hptr
          · intro s rest _ hfound
            rw [List.cons_append, NodeState.distanceLoop, if_pos hfound]
      | succ i =>
          rw [List.getElem?_cons_succ] at hi
          have hdrop : (p :: pprev).drop nStep.1 = b.drop (D + nStep.1) := by
            rw [hptr, List.drop_drop]
          obtain ⟨d, hd, hhash, hdist⟩ := ih hdrop hsched.next hi
          refine ⟨d, hd, hhash, ?_⟩
          intro s rest hbefore hfound
          have hfirst := hbefore 0 (Nat.succ_pos i) _ rfl
          rw [List.cons_append, NodeState.distanceLoop, if_neg (by rw [hfirst]; decide),
            hsched.double_iff]
          apply hdist s rest _ hfound
          intro j hj h hh
          exact hbefore (j + 1) (Nat.succ_lt_succ hj) h (by rw [List.getElem?_cons_succ]; exact hh)

end

/-! ## The main chain -/

/-- The hashes of a block and its ancestors -/
def BlockPtr.hashes (ptr : BlockPtr) : List Uint256 := ptr.map CBlockIndex.hashBlock

/-- A node's block index and its main chain: blocks are indexed under their hashes, and `pnext` is set
in the blocks below the best one. -/
structure MainChain (s : NodeState) : Prop where
  keyed : ∀ h ptr, s.mapBlockIndex h = some ptr → ptr ≠ [] ∧ BlockPtr.hash ptr = h
  indexed : InTree s.mapBlockIndex s.pindexBest
  next : NextInv s.pnext s.pindexBest

theorem TreeInv.mainChain {env : Env} {full : Files} {s : NodeState}
    (hT : TreeInv env full s.mapBlockIndex) {h : Uint256}
    (hbest : s.mapBlockIndex h = some s.pindexBest) (hnext : NextInv s.pnext s.pindexBest) :
    MainChain s := by
  refine ⟨?_, hT.inTree hbest, hnext⟩
  intro h ptr hptr
  obtain ⟨p, pprev, block, rfl, hentry⟩ := hT h ptr hptr
  exact ⟨List.cons_ne_nil _ _, hentry.hashBlock⟩

/-- A block of the branch that the node has, it has with the same ancestors. -/
def SameTree (b : BlockPtr) (s : NodeState) : Prop :=
  ∀ x, x ≠ [] → x <:+ b → ∀ y, s.mapBlockIndex (BlockPtr.hash x) = some y →
    BlockPtr.hashes y = BlockPtr.hashes x

theorem hash_eq_of_hashes_eq {x y : BlockPtr} (h : BlockPtr.hashes x = BlockPtr.hashes y) :
    BlockPtr.hash x = BlockPtr.hash y := by
  have hhead := congrArg List.head? h
  cases x <;> cases y <;> simp [BlockPtr.hashes, BlockPtr.hash] at hhead ⊢
  exact hhead

theorem hashes_drop (b : BlockPtr) (d : Nat) :
    BlockPtr.hashes (b.drop d) = (BlockPtr.hashes b).drop d := List.map_drop

theorem hashes_suffix {x y : BlockPtr} (h : x <:+ y) : BlockPtr.hashes x <:+ BlockPtr.hashes y :=
  h.map _

theorem hash_drop_last {b : BlockPtr} {hash : Uint256}
    (h : (BlockPtr.hashes b).getLast? = some hash) : BlockPtr.hash (b.drop (b.length - 1)) = hash := by
  obtain ⟨init, hinit⟩ := List.getLast?_eq_some_iff.mp h
  have hlen := congrArg List.length hinit
  rw [BlockPtr.hashes, List.length_map, List.length_append, List.length_singleton] at hlen
  have hone : BlockPtr.hashes (b.drop (b.length - 1)) = [hash] := by
    rw [hashes_drop, hinit, hlen, Nat.add_sub_cancel, List.drop_left]
  match b.drop (b.length - 1), hone with
  | p :: pprev, hone => exact (List.cons.inj hone).1

namespace MainChain

variable {s : NodeState} {b x ptr : BlockPtr}

/-- `IsInMainChain` says whether a block is the best one or below it. -/
theorem isInMainChain_iff (h : MainChain s) {hash : Uint256}
    (hptr : s.mapBlockIndex hash = some ptr) : s.isInMainChain ptr = true ↔ ptr <:+ s.pindexBest := by
  obtain ⟨hne, hkey⟩ := h.keyed hash ptr hptr
  unfold NodeState.isInMainChain
  rw [Bool.or_eq_true, beq_iff_eq, Option.isSome_iff_exists]
  constructor
  · rintro (⟨c, hc⟩ | rfl)
    · obtain ⟨hmem, htail, hhash⟩ := (h.next _ c).mp hc
      have hsuf := (List.tail_suffix c).trans (BlockPtr.mem_path.mp hmem).2
      have hin := h.indexed c.tail (BlockPtr.mem_path.mpr ⟨htail, hsuf⟩)
      rw [hhash, hkey, hptr] at hin
      rw [Option.some.inj hin]
      exact hsuf
    · exact List.suffix_rfl
  · rintro ⟨above, habove⟩
    rcases List.eq_nil_or_concat above with rfl | ⟨above, p, rfl⟩
    · exact .inr habove
    · refine .inl ⟨p :: ptr, (h.next _ _).mpr ⟨?_, hne, rfl⟩⟩
      apply BlockPtr.mem_path.mpr
      exact ⟨List.cons_ne_nil _ _, above, by rw [← habove]; simp⟩

/-- What a node finds for a block of the branch: the block, if it is on its main chain. -/
theorem findMain_eq_some (h : MainChain s) (htree : SameTree b s) (hne : x ≠ []) (hx : x <:+ b)
    (hfind : s.findMain (BlockPtr.hash x) = some ptr) :
    ptr <:+ s.pindexBest ∧ BlockPtr.hashes ptr = BlockPtr.hashes x := by
  obtain ⟨hptr, hmain⟩ := Option.filter_eq_some_iff.mp hfind
  exact ⟨(h.isInMainChain_iff hptr).mp hmain, htree x hne hx ptr hptr⟩

theorem findMain_of_suffix (h : MainChain s) (hne : x ≠ [])
    (hsuf : BlockPtr.hashes x <:+ BlockPtr.hashes s.pindexBest) :
    ∃ ptr, s.findMain (BlockPtr.hash x) = some ptr := by
  have hsame : BlockPtr.hashes (s.pindexBest.drop (s.pindexBest.length - x.length))
      = BlockPtr.hashes x := by
    rw [hashes_drop]
    have hdrop := List.suffix_iff_eq_drop.mp hsuf
    simp only [BlockPtr.hashes, List.length_map] at hdrop ⊢
    exact hdrop.symm
  generalize hy : s.pindexBest.drop (s.pindexBest.length - x.length) = y at hsame
  have hysuf : y <:+ s.pindexBest := hy ▸ List.drop_suffix _ _
  have hyne : y ≠ [] := by
    rintro rfl
    exact hne (List.map_eq_nil_iff.mp hsame.symm)
  have hin := h.indexed y (BlockPtr.mem_path.mpr ⟨hyne, hysuf⟩)
  rw [hash_eq_of_hashes_eq hsame] at hin
  exact ⟨y, Option.filter_eq_some_iff.mpr ⟨hin, (h.isInMainChain_iff hin).mpr hysuf⟩⟩

end MainChain

/-! ## What the locator finds -/

section

variable {s : NodeState} {b ptr : BlockPtr} {fork : List Uint256}

/-- Which blocks of the branch the node finds: those from the fork on. -/
theorem findMain_drop (h : MainChain s) (htree : SameTree b s)
    (hfork : Lib.IsMeet fork (BlockPtr.hashes b) (BlockPtr.hashes s.pindexBest)) {d : Nat}
    (hd : d < b.length) :
    if b.length - fork.length ≤ d then
      ∃ ptr, s.findMain (BlockPtr.hash (b.drop d)) = some ptr ∧ ptr <:+ s.pindexBest ∧
        BlockPtr.hashes ptr = (BlockPtr.hashes b).drop d
    else s.findMain (BlockPtr.hash (b.drop d)) = none := by
  have hne : b.drop d ≠ [] := by simpa using hd
  have hlen : (BlockPtr.hashes b).length = b.length := List.length_map _
  have hiff := hfork.drop_suffix_iff (d := d) (by rw [hlen]; exact hd)
  rw [hlen, ← hashes_drop] at hiff
  split
  · next hle =>
    obtain ⟨ptr, hptr⟩ := h.findMain_of_suffix hne (hiff.mpr hle)
    obtain ⟨hsuf, hsame⟩ := h.findMain_eq_some htree hne (List.drop_suffix d b) hptr
    exact ⟨ptr, hptr, hsuf, by rw [hsame, hashes_drop]⟩
  · next hgt =>
    rw [Option.eq_none_iff_forall_ne_some]
    intro ptr hptr
    obtain ⟨hsuf, hsame⟩ := h.findMain_eq_some htree hne (List.drop_suffix d b) hptr
    apply hgt
    apply hiff.mp
    rw [← hsame]
    exact hashes_suffix hsuf

/-- How far from the fork a block is that the locator leads to. -/
def CloseTo (F d : Nat) : Prop := F ≤ d ∧ d ≤ 2 * F ∧ (F ≤ 11 → d = F)

/-- The loop of `Set` goes on until it has an entry on the main chain, or it comes to its end; it has
not gone far past the fork then. -/
theorem findSome?_setLoop (h : MainChain s) (htree : SameTree b s)
    (hfork : Lib.IsMeet fork (BlockPtr.hashes b) (BlockPtr.hashes s.pindexBest))
    (nStep : StepSize) (size : Nat) (ptr : BlockPtr) {D : Nat} (hptr : ptr = b.drop D)
    (hsched : Scheduled size D nStep.1)
    (hnear : D ≤ b.length - fork.length ∨
      D ≤ 2 * (b.length - fork.length) ∧ 11 < b.length - fork.length) :
    (∃ d < b.length, CloseTo (b.length - fork.length) d ∧
      ∃ found, (CBlockLocator.setLoop nStep size ptr).findSome? s.findMain = some found ∧
        found <:+ s.pindexBest ∧ BlockPtr.hashes found = (BlockPtr.hashes b).drop d) ∨
    ((CBlockLocator.setLoop nStep size ptr).findSome? s.findMain = none ∧
      b.length ≤ 2 * (b.length - fork.length) ∧ 11 < b.length - fork.length) := by
  have hpos : 0 < fork.length := List.length_pos_iff.mpr hfork.ne_nil
  have hle : fork.length ≤ b.length := by
    simpa [BlockPtr.hashes] using hfork.left.length_le
  generalize hF : b.length - fork.length = F at hnear ⊢
  induction nStep, size, ptr using CBlockLocator.setLoop.induct generalizing D with
  | case1 nStep size =>
      -- the steps have gone past the genesis block
      have hend : b.length ≤ D := List.drop_eq_nil_iff.mp hptr.symm
      right
      rw [CBlockLocator.setLoop]
      refine ⟨rfl, ?_⟩
      omega
  | case2 nStep size p pprev ih =>
      have hD : D < b.length := by
        by_contra hge
        rw [List.drop_of_length_le (not_lt.mp hge)] at hptr
        cases hptr
      have hhash : p.hashBlock = BlockPtr.hash (b.drop D) := by
        rw [← hptr]
        rfl
      have hfind := findMain_drop h htree hfork hD
      rw [hF, ← hhash] at hfind
      rw [CBlockLocator.setLoop, List.findSome?_cons]
      split at hfind
      · next hfar =>
        obtain ⟨found, hfound, hsuf, hsame⟩ := hfind
        left
        rw [hfound]
        refine ⟨D, hD, ⟨hfar, ?_, ?_⟩, found, rfl, hsuf, hsame⟩ <;> omega
      · next hclose =>
        rw [hfind]
        apply ih _ hsched.next
        · unfold Scheduled at hsched
          omega
        · rw [hptr, List.drop_drop]

/-- Where `GetBlockIndex` leads, and what `GetDistanceBack` says about the entries. -/
structure LocatorLeads (s : NodeState) (b : BlockPtr) (fork vHave : List Uint256) : Prop where
  /-- A block of the main chain, on the branch or below it -/
  found : s.getBlockIndex vHave <:+ s.pindexBest ∧
    BlockPtr.hashes (s.getBlockIndex vHave) <:+ BlockPtr.hashes b
  notEmpty : s.getBlockIndex vHave ≠ []
  near : b.length - (s.getBlockIndex vHave).length ≤ 2 * (b.length - fork.length)
  exact : b.length - fork.length ≤ 11 →
    b.length - (s.getBlockIndex vHave).length = b.length - fork.length
  /-- Each entry but the genesis block at the end -/
  distances : ∀ (i : Nat) (hash : Uint256), vHave[i]? = some hash → i + 1 < vHave.length →
    ∃ d < b.length, BlockPtr.hash (b.drop d) = hash ∧
      ∀ t : NodeState, (∀ j < i, ∀ h, vHave[j]? = some h → t.findMain h = none) →
        (t.findMain hash).isSome = true → t.getDistanceBack vHave = d

theorem getDistanceBack_set (hashGenesisBlock : Uint256) {i : Nat} {hash : Uint256}
    (hi : (CBlockLocator.set hashGenesisBlock b)[i]? = some hash)
    (hlast : i + 1 < (CBlockLocator.set hashGenesisBlock b).length) :
    ∃ d < b.length, BlockPtr.hash (b.drop d) = hash ∧
      ∀ t : NodeState,
        (∀ j < i, ∀ h, (CBlockLocator.set hashGenesisBlock b)[j]? = some h → t.findMain h = none) →
        (t.findMain hash).isSome = true →
        t.getDistanceBack (CBlockLocator.set hashGenesisBlock b) = d := by
  unfold CBlockLocator.set at *
  rw [List.length_append, List.length_singleton] at hlast
  rw [List.getElem?_append_left (by omega)] at hi
  obtain ⟨d, hd, hhash, hdist⟩ := distanceLoop_setLoop ⟨1, Nat.one_pos⟩ 0 b (D := 0) rfl
    (.inl ⟨by decide, rfl, rfl⟩) hi
  refine ⟨d, hd, hhash, ?_⟩
  intro t hbefore hfound
  apply hdist t _ _ hfound
  intro j hj h hh
  apply hbefore j hj h
  rw [List.getElem?_append_left (by omega)]
  exact hh

/-- The first block of a locator that is on a node's main chain is at most twice as far away as the
fork, and the fork itself where it is near. -/
theorem getBlockIndex_locator (s : NodeState) (b : BlockPtr) (hashGenesisBlock : Uint256)
    (h : MainChain s) (htree : SameTree b s)
    (hgenesis : (BlockPtr.hashes b).getLast? = some hashGenesisBlock)
    (hgenesis' : (BlockPtr.hashes s.pindexBest).getLast? = some hashGenesisBlock) :
    ∃ fork, Lib.IsMeet fork (BlockPtr.hashes b) (BlockPtr.hashes s.pindexBest) ∧
      LocatorLeads s b fork (CBlockLocator.set hashGenesisBlock b) := by
  have hne : BlockPtr.hashes b ≠ [] := by
    intro hnil
    rw [hnil] at hgenesis
    cases hgenesis
  obtain ⟨fork, hfork⟩ := Lib.exists_isMeet hne (hgenesis.trans hgenesis'.symm)
  refine ⟨fork, hfork, ?_⟩
  have hlen : (BlockPtr.hashes b).length = b.length := List.length_map _
  have hpos : 0 < fork.length := List.length_pos_iff.mpr hfork.ne_nil
  have hle : fork.length ≤ b.length := hlen ▸ hfork.left.length_le
  -- some entry is found, the last one if no other
  obtain ⟨d, hd, ⟨hfar, htwice, hshort⟩, found, hfound, hsuf, hsame⟩ :
      ∃ d < b.length, CloseTo (b.length - fork.length) d ∧ ∃ found, (CBlockLocator.set hashGenesisBlock b).findSome? s.findMain = some found ∧
        found <:+ s.pindexBest ∧ BlockPtr.hashes found = (BlockPtr.hashes b).drop d := by
    unfold CBlockLocator.set
    rw [List.findSome?_append]
    rcases findSome?_setLoop h htree hfork ⟨1, Nat.one_pos⟩ 0 b (D := 0) rfl
      (.inl ⟨by decide, rfl, rfl⟩) (.inl (Nat.zero_le _)) with
      ⟨d, hd, hclose, found, hfound, hrest⟩ | ⟨hnone, hlong, hfar⟩
    · rw [hfound]
      exact ⟨d, hd, hclose, found, rfl, hrest⟩
    · have hlast := hash_drop_last hgenesis
      have hfind := findMain_drop h htree hfork (d := b.length - 1) (by omega)
      rw [if_pos (by omega), hlast] at hfind
      obtain ⟨found, hfound, hrest⟩ := hfind
      rw [hnone, List.findSome?_singleton, hfound]
      exact ⟨b.length - 1, by omega, ⟨by omega, by omega, by omega⟩, found, rfl, hrest⟩
  have hindex : s.getBlockIndex (CBlockLocator.set hashGenesisBlock b) = found := by
    unfold NodeState.getBlockIndex
    rw [hfound]
    rfl
  have hlength : found.length = b.length - d := by
    have := congrArg List.length hsame
    rw [List.length_drop, hlen] at this
    simpa [BlockPtr.hashes] using this
  constructor
  · rw [hindex, hsame]
    exact ⟨hsuf, List.drop_suffix d _⟩
  · rw [hindex]
    exact List.ne_nil_of_length_pos (by omega)
  · rw [hindex]
    omega
  · intro hnear
    rw [hindex, hlength]
    have := hshort hnear
    omega
  · intro i hash hi hlast
    exact getDistanceBack_set hashGenesisBlock hi hlast

end

/-! ### A node on the other branch -/

theorem find?_eq_some_of_unique {α : Type} {p : α → Bool} {l : List α} {a : α}
    (h : ∀ a ∈ l, ∀ b ∈ l, p a = true → p b = true → a = b) :
    l.find? p = some a ↔ a ∈ l ∧ p a = true := by
  constructor
  · exact fun hfind => ⟨List.mem_of_find?_eq_some hfind, List.find?_some hfind⟩
  · rintro ⟨hmem, hp⟩
    obtain ⟨b, hfind⟩ := Option.isSome_iff_exists.mp (List.find?_isSome.mpr ⟨a, hmem, hp⟩)
    rw [hfind, h b (List.mem_of_find?_eq_some hfind) a hmem (List.find?_some hfind) hp]

/-- Blocks on top of others, with hashes from `first` on. -/
def chainOn (base : BlockPtr) (first : Uint256) : Nat → BlockPtr
  | 0 => base
  | n + 1 =>
      { rootBlock with hashBlock := first + n, nHeight := base.length + n } :: chainOn base first n

def mainBranch : BlockPtr := chainOn [rootBlock] 10 20

/-- It leaves the other one 30 blocks back. -/
def sideBranch : BlockPtr := chainOn (chainOn [rootBlock] 10 12) 100 30

/-- The node knows the one branch and not the other. -/
def mainNode : NodeState where
  mapBlockIndex hash := (BlockPtr.path mainBranch).find? fun ptr => BlockPtr.hash ptr == hash
  pnext hash := (BlockPtr.path mainBranch).find? fun ptr =>
    ptr.tail != [] && BlockPtr.hash ptr.tail == hash
  pindexBest := mainBranch

theorem mainNode_mapBlockIndex {hash : Uint256} {ptr : BlockPtr} :
    mainNode.mapBlockIndex hash = some ptr ↔
      ptr ∈ BlockPtr.path mainBranch ∧ BlockPtr.hash ptr = hash := by
  have hinj : ∀ x ∈ BlockPtr.path mainBranch, ∀ y ∈ BlockPtr.path mainBranch,
      BlockPtr.hash x = BlockPtr.hash y → x = y := by decide +kernel
  refine (find?_eq_some_of_unique (p := fun ptr => BlockPtr.hash ptr == hash)
    fun x hx y hy hxh hyh => hinj x hx y hy ?_).trans (and_congr_right fun _ => beq_iff_eq)
  rw [beq_iff_eq] at hxh hyh
  rw [hxh, hyh]

theorem mainNode_pnext {hash : Uint256} {ptr : BlockPtr} :
    mainNode.pnext hash = some ptr ↔
      ptr ∈ BlockPtr.path mainBranch ∧ ptr.tail ≠ [] ∧ BlockPtr.hash ptr.tail = hash := by
  have hinj : ∀ x ∈ BlockPtr.path mainBranch, ∀ y ∈ BlockPtr.path mainBranch, x.tail ≠ [] →
      y.tail ≠ [] → BlockPtr.hash x.tail = BlockPtr.hash y.tail → x = y := by decide +kernel
  refine (find?_eq_some_of_unique fun x hx y hy hxh hyh => ?_).trans (by simp)
  simp only [Bool.and_eq_true, bne_iff_ne, beq_iff_eq] at hxh hyh
  exact hinj x hx y hy hxh.1 hyh.1 (hxh.2.trans hyh.2.symm)

theorem mainChain_mainNode : MainChain mainNode where
  keyed hash ptr h := by
    obtain ⟨hmem, hhash⟩ := mainNode_mapBlockIndex.mp h
    exact ⟨(BlockPtr.mem_path.mp hmem).1, hhash⟩
  indexed x hx := mainNode_mapBlockIndex.mpr ⟨hx, rfl⟩
  next _ _ := mainNode_pnext

theorem sameTree_sideBranch : SameTree sideBranch mainNode := by
  have hall : ∀ x ∈ BlockPtr.path sideBranch, ∀ y ∈ BlockPtr.path mainBranch,
      BlockPtr.hash y = BlockPtr.hash x → BlockPtr.hashes y = BlockPtr.hashes x := by decide +kernel
  intro x hne hx y hy
  obtain ⟨hmem, hhash⟩ := mainNode_mapBlockIndex.mp hy
  exact hall x (BlockPtr.mem_path.mpr ⟨hne, hx⟩) y hmem hhash

theorem getBlockIndex_locator_sideBranch :
    ∃ fork, Lib.IsMeet fork (BlockPtr.hashes sideBranch) (BlockPtr.hashes mainBranch) ∧
      LocatorLeads mainNode sideBranch fork (CBlockLocator.set 1 sideBranch) :=
  getBlockIndex_locator mainNode sideBranch 1 mainChain_mainNode sameTree_sideBranch rfl rfl

end ShinyCoin

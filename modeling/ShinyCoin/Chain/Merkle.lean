import ShinyCoin.Chain.Index
import ShinyCoin.Lib.Merkle

/-!
# The merkle tree of a block

`vMerkleTree` holds the hashes of the transactions and above them level after level, all in one
vector; `j` is where a level starts and `nSize` how many nodes it has. `BuildMerkleTree` fills it,
`GetMerkleBranch` reads the other side of each node on the way up out of it. A read outside of the
vector is undefined, so it has no value here.
-/

namespace ShinyCoin

/-! ## Building -/

/-- The inner loop of `BuildMerkleTree`, from node `i` of the level on. -/
def pushLevel (hash2 : Uint256 → Uint256 → Uint256) (j nSize i : Nat) (vMerkleTree : List Uint256) :
    Option (List Uint256) :=
  if i < nSize then do
    let left ← vMerkleTree[j + i]?
    let right ← vMerkleTree[j + min (i + 1) (nSize - 1)]?
    pushLevel hash2 j nSize (i + 2) (vMerkleTree ++ [hash2 left right])
  else some vMerkleTree
termination_by nSize - i

/-- The outer loop. -/
def pushLevels (hash2 : Uint256 → Uint256 → Uint256) (j nSize : Nat) (vMerkleTree : List Uint256) :
    Option (List Uint256) :=
  if 1 < nSize then do
    let vMerkleTree ← pushLevel hash2 j nSize 0 vMerkleTree
    pushLevels hash2 (j + nSize) ((nSize + 1) / 2) vMerkleTree
  else some vMerkleTree
termination_by nSize

/-- `Hash` over two hashes is `hash2`. -/
def merkleTreeOf (env : Env) (hash2 : Uint256 → Uint256 → Uint256) (vtx : List CTransaction) :
    Option (List Uint256) :=
  pushLevels hash2 0 vtx.length (vtx.map env.getHash)

/-- A block with its `vMerkleTree`, which is not there yet or that of its transactions. -/
structure MerkleBlock (env : Env) (hash2 : Uint256 → Uint256 → Uint256) where
  vtx : List CTransaction
  vMerkleTree : List Uint256
  built : vMerkleTree = [] ∨ merkleTreeOf env hash2 vtx = some vMerkleTree

namespace MerkleBlock

variable {env : Env} {hash2 : Uint256 → Uint256 → Uint256}

/-- `BuildMerkleTree`: the root, and the block with its tree -/
def buildMerkleTree (block : MerkleBlock env hash2) : Option (Uint256 × MerkleBlock env hash2) :=
  match h : merkleTreeOf env hash2 block.vtx with
  | none => none
  | some vMerkleTree =>
      some (vMerkleTree.getLast?.getD 0, ⟨block.vtx, vMerkleTree, .inr h⟩)

end MerkleBlock

/-! ## Branches -/

/-- `nIndex ^ 1` -/
def flipIndex (nIndex : ℤ) : ℤ := if nIndex % 2 = 0 then nIndex + 1 else nIndex - 1

/-- The loop of `GetMerkleBranch` -/
def collectBranch (vMerkleTree : List Uint256) (j nSize : Nat) (nIndex : ℤ)
    (vMerkleBranch : List Uint256) : Option (List Uint256) :=
  if 1 < nSize then do
    let i := min (flipIndex nIndex) (nSize - 1)
    let otherside ← if j + i < 0 then none else vMerkleTree[(j + i).toNat]?
    collectBranch vMerkleTree (j + nSize) ((nSize + 1) / 2) (nIndex / 2)
      (vMerkleBranch ++ [otherside])
  else some vMerkleBranch
termination_by nSize

/-- `if (vMerkleTree.empty()) BuildMerkleTree();` -/
def MerkleBlock.ensureTree {env : Env} {hash2 : Uint256 → Uint256 → Uint256}
    (block : MerkleBlock env hash2) : Option (MerkleBlock env hash2) :=
  if block.vMerkleTree.isEmpty then block.buildMerkleTree.map Prod.snd else some block

def MerkleBlock.getMerkleBranch {env : Env} {hash2 : Uint256 → Uint256 → Uint256}
    (block : MerkleBlock env hash2) (nIndex : ℤ) :
    Option (List Uint256 × MerkleBlock env hash2) := do
  let block ← block.ensureTree
  let vMerkleBranch ← collectBranch block.vMerkleTree 0 block.vtx.length nIndex []
  return (vMerkleBranch, block)

/-- One step up, from a node and the other side. -/
def climb (hash2 : Uint256 → Uint256 → Uint256) : Uint256 → List Uint256 → ℤ → Uint256
  | hash, [], _ => hash
  | hash, otherside :: vMerkleBranch, nIndex =>
      climb hash2 (if nIndex % 2 = 1 then hash2 otherside hash else hash2 hash otherside)
        vMerkleBranch (nIndex / 2)

def checkMerkleBranch (hash2 : Uint256 → Uint256 → Uint256) (hash : Uint256)
    (vMerkleBranch : List Uint256) (nIndex : ℤ) : Uint256 :=
  if nIndex = -1 then 0 else climb hash2 hash vMerkleBranch nIndex

/-! ## The flat vector and its levels -/

section

variable {env : Env} {hash2 : Uint256 → Uint256 → Uint256}

/-- What the inner loop has still to push is the rest of the level, paired up. -/
theorem pushLevel_eq (pre level done : List Uint256) (i : Nat) :
    pushLevel hash2 pre.length level.length i (pre ++ level ++ done)
      = some (pre ++ level ++ done ++ Lib.Merkle.pairUp hash2 (level.drop i)) := by
  induction hrest : level.length - i using Nat.strong_induction_on generalizing i done with
  | _ rest ih =>
    unfold pushLevel
    split
    · next hlt =>
      have hat : ∀ k < level.length, (pre ++ level ++ done)[pre.length + k]? = level[k]? := by
        intro k hk
        rw [List.append_assoc, List.getElem?_append_right (by omega),
          List.getElem?_append_left (by omega), Nat.add_sub_cancel_left]
      rw [hat i hlt, hat _ (by omega), List.getElem?_eq_getElem hlt,
        List.getElem?_eq_getElem (by omega)]
      dsimp only [Option.bind_eq_bind, Option.bind_some]
      rw [List.append_assoc (pre ++ level), ih (level.length - (i + 2)) (by omega) _ (i + 2) rfl,
        List.drop_eq_getElem_cons hlt]
      -- the last node of an odd level goes with itself
      by_cases hlast : i + 1 < level.length
      · have hmin : min (i + 1) (level.length - 1) = i + 1 := by omega
        rw [List.drop_eq_getElem_cons hlast]
        simp [Lib.Merkle.pairUp, hmin]
      · have hmin : min (i + 1) (level.length - 1) = i := by omega
        rw [List.drop_of_length_le (show level.length ≤ i + 1 by omega),
          List.drop_of_length_le (show level.length ≤ i + 2 by omega)]
        simp [Lib.Merkle.pairUp, hmin]
    · next hge =>
      rw [List.drop_of_length_le (by omega)]
      simp [Lib.Merkle.pairUp]

theorem pushLevels_eq (pre level : List Uint256) :
    pushLevels hash2 pre.length level.length (pre ++ level)
      = some (pre ++ Lib.Merkle.tree hash2 level) := by
  induction level using Lib.Merkle.tree.induct hash2 generalizing pre with
  | case1 level hlen ih =>
      have hpush := @pushLevel_eq hash2 pre level [] 0
      rw [List.append_nil, List.drop_zero] at hpush
      unfold pushLevels
      rw [if_pos hlen, hpush, Lib.Merkle.tree_of_lt hlen]
      dsimp only [Option.bind_eq_bind, Option.bind_some]
      rw [← Lib.Merkle.length_pairUp hash2 level, ← List.length_append, ih, List.append_assoc]
  | case2 level hlen =>
      unfold pushLevels
      rw [if_neg hlen, Lib.Merkle.tree_of_le (not_lt.mp hlen)]

/-- `BuildMerkleTree` never reads outside of the vector. -/
theorem merkleTreeOf_eq (vtx : List CTransaction) :
    merkleTreeOf env hash2 vtx = some (Lib.Merkle.tree hash2 (vtx.map env.getHash)) := by
  have h := @pushLevels_eq hash2 [] (vtx.map env.getHash)
  rw [List.length_map] at h
  exact h

/-- The other side of node `i`, on a level of `n` nodes. -/
def otherSide (i n : Nat) : Nat := if i % 2 = 0 then min (i + 1) (n - 1) else i - 1

theorem otherSide_lt {i n : Nat} (h : i < n) : otherSide i n < n := by
  unfold otherSide
  split <;> omega

theorem min_flipIndex {i n : Nat} (h : i < n) : min (flipIndex i) ((n : ℤ) - 1) = otherSide i n := by
  unfold flipIndex otherSide
  split <;> split <;> omega

/-- A node and its other side give the node above. -/
theorem getElem?_pairUp_div (level : List Uint256) {i : Nat} {hash otherside : Uint256}
    (hi : level[i]? = some hash) (hother : level[otherSide i level.length]? = some otherside) :
    (Lib.Merkle.pairUp hash2 level)[i / 2]?
      = some (if (i : ℤ) % 2 = 1 then hash2 otherside hash else hash2 hash otherside) := by
  have hlt := (List.getElem?_eq_some_iff.mp hi).1
  rw [Lib.Merkle.getElem?_pairUp]
  unfold otherSide at hother
  rcases Nat.mod_two_eq_zero_or_one i with heven | hodd
  · have htwice : 2 * (i / 2) = i := by omega
    rw [if_pos heven] at hother
    rw [htwice, hi, Option.map_some, if_neg (by omega)]
    by_cases hlast : i + 1 < level.length
    · have hmin : min (i + 1) (level.length - 1) = i + 1 := by omega
      rw [hmin] at hother
      rw [hother, Option.getD_some]
    · have hmin : min (i + 1) (level.length - 1) = i := by omega
      rw [hmin, hi] at hother
      rw [List.getElem?_eq_none (by omega), Option.getD_none, Option.some.inj hother]
  · have htwice : 2 * (i / 2) = i - 1 := by omega
    have hnext : i - 1 + 1 = i := by omega
    rw [if_neg (by omega)] at hother
    rw [htwice, hnext, hother, hi, Option.map_some, Option.getD_some, if_pos (by omega)]

/-- The branch leads from a node of the level to the root. -/
theorem collectBranch_climb (pre level : List Uint256) (i : Nat) (hash : Uint256)
    (hi : level[i]? = some hash) (vMerkleBranch : List Uint256) :
    ∃ rest, collectBranch (pre ++ Lib.Merkle.tree hash2 level) pre.length level.length i
        vMerkleBranch = some (vMerkleBranch ++ rest) ∧
      Lib.Merkle.root hash2 level = some (climb hash2 hash rest i) := by
  have hlt := (List.getElem?_eq_some_iff.mp hi).1
  induction level using Lib.Merkle.tree.induct hash2 generalizing pre i hash vMerkleBranch with
  | case1 level hlen ih =>
      have hpartner := otherSide_lt hlt
      obtain ⟨otherside, hother⟩ : ∃ otherside, level[otherSide i level.length]? = some otherside :=
        ⟨_, List.getElem?_eq_getElem hpartner⟩
      have hread : (pre ++ Lib.Merkle.tree hash2 level)[pre.length + otherSide i level.length]?
          = some otherside := by
        rw [Lib.Merkle.tree_of_lt hlen, List.getElem?_append_right (by omega),
          Nat.add_sub_cancel_left, List.getElem?_append_left hpartner, hother]
      have hup := @getElem?_pairUp_div hash2 level i _ _ hi hother
      obtain ⟨rest, hcollect, hroot⟩ := ih (pre ++ level) (i / 2) _ hup
        (vMerkleBranch ++ [otherside]) (List.getElem?_eq_some_iff.mp hup).1
      refine ⟨otherside :: rest, ?_, ?_⟩
      · have hhalf : ((i / 2 : Nat) : ℤ) = (i : ℤ) / 2 := by omega
        unfold collectBranch
        rw [if_pos hlen]
        dsimp only
        rw [min_flipIndex hlt, if_neg (by omega), ← Nat.cast_add, Int.toNat_natCast, hread]
        dsimp only [Option.bind_eq_bind, Option.bind_some]
        rw [Lib.Merkle.tree_of_lt hlen, ← List.append_assoc pre, ← hhalf,
          ← Lib.Merkle.length_pairUp hash2 level, ← List.length_append, hcollect]
        simp
      · rw [Lib.Merkle.root_of_lt hlen, hroot, climb]
        rfl
  | case2 level hlen =>
      refine ⟨[], ?_, ?_⟩
      · unfold collectBranch
        rw [if_neg hlen, List.append_nil]
      · have hzero : i = 0 := by omega
        subst hzero
        rw [Lib.Merkle.root_of_le (not_lt.mp hlen), List.head?_eq_getElem?, hi]
        rfl

end

/-! ## What the block says -/

namespace MerkleBlock

variable {env : Env} {hash2 : Uint256 → Uint256 → Uint256}

/-- The block once its tree is built -/
def withTree (block : MerkleBlock env hash2) : MerkleBlock env hash2 where
  vtx := block.vtx
  vMerkleTree := Lib.Merkle.tree hash2 (block.vtx.map env.getHash)
  built := .inr (merkleTreeOf_eq block.vtx)

theorem buildMerkleTree_eq (block : MerkleBlock env hash2) :
    block.buildMerkleTree
      = some ((Lib.Merkle.root hash2 (block.vtx.map env.getHash)).getD 0, block.withTree) := by
  unfold buildMerkleTree
  split
  · next hnone =>
    rw [merkleTreeOf_eq] at hnone
    cases hnone
  · next vMerkleTree hsome =>
    have htree := Option.some.inj ((merkleTreeOf_eq block.vtx).symm.trans hsome)
    subst htree
    rw [Lib.Merkle.getLast?_tree]
    rfl

theorem ensureTree_eq (block : MerkleBlock env hash2) : block.ensureTree = some block.withTree := by
  unfold ensureTree
  split
  · rw [buildMerkleTree_eq]
    rfl
  · next hfull =>
    obtain ⟨vtx, vMerkleTree, hbuilt⟩ := block
    rcases hbuilt with rfl | hbuilt
    · exact absurd rfl hfull
    · have htree := Option.some.inj ((merkleTreeOf_eq vtx).symm.trans hbuilt)
      subst htree
      rfl

/-- The branch of each transaction of a block leads from its hash to the root. -/
theorem checkMerkleBranch_getMerkleBranch (block : MerkleBlock env hash2) (i : Nat)
    (tx : CTransaction) (h : block.vtx[i]? = some tx) :
    ∃ vMerkleBranch hashMerkleRoot,
      block.getMerkleBranch i = some (vMerkleBranch, block.withTree) ∧
      block.buildMerkleTree = some (hashMerkleRoot, block.withTree) ∧
      checkMerkleBranch hash2 (env.getHash tx) vMerkleBranch i = hashMerkleRoot := by
  have hleaf : (block.vtx.map env.getHash)[i]? = some (env.getHash tx) := by
    rw [List.getElem?_map, h]
    rfl
  obtain ⟨rest, hcollect, hroot⟩ := @collectBranch_climb hash2 [] _ i _ hleaf []
  rw [List.nil_append, List.nil_append, List.length_map, List.length_nil] at hcollect
  refine ⟨rest, climb hash2 (env.getHash tx) rest i, ?_, ?_, ?_⟩
  · unfold getMerkleBranch
    rw [ensureTree_eq]
    dsimp only [Option.bind_eq_bind, Option.bind_some, withTree]
    rw [hcollect]
    rfl
  · rw [buildMerkleTree_eq, hroot]
    rfl
  · exact if_neg (by omega)

/-- Hashes of pairs apart from those of the transactions below. -/
def pairHash (a b : Uint256) : Uint256 := Nat.pair a b + 4

def threeTxs : MerkleBlock Env.plain pairHash where
  vtx := [{ vin := [], vout := [] }, { nTime := 1, vin := [], vout := [] },
    { nTime := 2, vin := [], vout := [] }]
  vMerkleTree := []
  built := .inl rfl

theorem checkMerkleBranch_getMerkleBranch_threeTxs :
    ∃ vMerkleBranch hashMerkleRoot,
      threeTxs.getMerkleBranch 2 = some (vMerkleBranch, threeTxs.withTree) ∧
      threeTxs.buildMerkleTree = some (hashMerkleRoot, threeTxs.withTree) ∧
      checkMerkleBranch pairHash 3 vMerkleBranch 2 = hashMerkleRoot :=
  threeTxs.checkMerkleBranch_getMerkleBranch 2 _ rfl

/-! ## What the root says -/

theorem buildMerkleTree_fst (block : MerkleBlock env hash2) (hne : block.vtx ≠ []) :
    block.buildMerkleTree.map Prod.fst = Lib.Merkle.root hash2 (block.vtx.map env.getHash) := by
  have hmap : block.vtx.map env.getHash ≠ [] := by simpa using hne
  obtain ⟨r, hr⟩ := Lib.Merkle.root_isSome (f := hash2) hmap
  rw [buildMerkleTree_eq, hr]
  rfl

theorem hashes_of_root_eq {vtx vtx' : List CTransaction} (hinj : Lib.Merkle.Injective2 hash2)
    (hne : vtx ≠ []) (hne' : vtx' ≠ []) (hunique : (vtx.map env.getHash).Nodup)
    (hunique' : (vtx'.map env.getHash).Nodup)
    (hleaf : ∀ tx ∈ vtx ++ vtx', ∀ a b, hash2 a b ≠ env.getHash tx)
    (hroot : Lib.Merkle.root hash2 (vtx.map env.getHash)
      = Lib.Merkle.root hash2 (vtx'.map env.getHash)) :
    vtx.map env.getHash = vtx'.map env.getHash := by
  have hmem : ∀ txs : List CTransaction, (∀ tx ∈ txs, tx ∈ vtx ++ vtx') →
      ∀ a b, hash2 a b ∉ txs.map env.getHash := by
    intro txs hsub a b h
    obtain ⟨tx, htx, heq⟩ := List.mem_map.mp h
    exact hleaf tx (hsub tx htx) a b heq.symm
  apply Lib.Merkle.root_injOn hinj hunique hunique' _ _ _ _ hroot
  · simpa using hne
  · simpa using hne'
  · exact hmem _ fun tx htx => List.mem_append_left _ htx
  · exact hmem _ fun tx htx => List.mem_append_right _ htx

/-- Two blocks without a repeated transaction that have one root have the same transactions. -/
theorem hashes_of_buildMerkleTree_eq (block block' : MerkleBlock env hash2)
    (hinj : Lib.Merkle.Injective2 hash2) (hne : block.vtx ≠ []) (hne' : block'.vtx ≠ [])
    (hunique : (block.vtx.map env.getHash).Nodup) (hunique' : (block'.vtx.map env.getHash).Nodup)
    (hleaf : ∀ tx ∈ block.vtx ++ block'.vtx, ∀ a b, hash2 a b ≠ env.getHash tx)
    (hroot : block.buildMerkleTree.map Prod.fst = block'.buildMerkleTree.map Prod.fst) :
    block.vtx.map env.getHash = block'.vtx.map env.getHash := by
  rw [buildMerkleTree_fst block hne, buildMerkleTree_fst block' hne'] at hroot
  exact hashes_of_root_eq hinj hne hne' hunique hunique' hleaf hroot

theorem hashes_of_buildMerkleTree_eq_threeTxs :
    threeTxs.vtx.map Env.plain.getHash = threeTxs.withTree.vtx.map Env.plain.getHash := by
  apply hashes_of_buildMerkleTree_eq threeTxs threeTxs.withTree _ (by decide) (by decide) (by decide)
    (by decide) _ rfl
  · intro a b c d h
    exact Nat.pair_eq_pair.mp (Nat.add_right_cancel h)
  · intro tx htx a b
    have hsmall : ∀ tx ∈ threeTxs.vtx ++ threeTxs.vtx, Env.plain.getHash tx < 4 := by decide
    exact ne_of_gt (lt_of_lt_of_le (hsmall tx htx) (Nat.le_add_left 4 _))

end MerkleBlock

/-- `CheckBlock` looks for repeated transactions, so `hashMerkleRoot` of an accepted block says which
transactions it has. -/
theorem CBlock.hashes_of_checkBlock {env : Env} {hash2 : Uint256 → Uint256 → Uint256}
    (hmerkle : ∀ block : MerkleBlock env hash2,
      block.buildMerkleTree.map Prod.fst = some (env.buildMerkleTree block.vtx))
    (hinj : Lib.Merkle.Injective2 hash2) {block block' : CBlock} {nTime nTime' : ℤ}
    {fCheckPoWHash fCheckPoWHash' : Bool}
    (hleaf : ∀ tx ∈ block.vtx ++ block'.vtx, ∀ a b, hash2 a b ≠ env.getHash tx)
    (h : block.checkBlock env nTime fCheckPoWHash = .ok ())
    (h' : block'.checkBlock env nTime' fCheckPoWHash' = .ok ())
    (hroot : block.hashMerkleRoot = block'.hashMerkleRoot) :
    block.vtx.map env.getHash = block'.vtx.map env.getHash := by
  have hchecked : ∀ {b : CBlock} {n : ℤ} {f : Bool}, b.checkBlock env n f = .ok () →
      b.vtx ≠ [] ∧ (b.vtx.map env.getHash).Nodup ∧ b.hashMerkleRoot = env.buildMerkleTree b.vtx := by
    intro b n f hb
    obtain ⟨⟨tx, txs, hvtx, -⟩, -, -, hnodup⟩ := checkBlock_ok hb
    simp only [checkBlock, Lib.seq_eq_ok, Lib.require_eq_ok] at hb
    obtain ⟨-, -, -, -, -, -, -, -, -, -, hmatch, -⟩ := hb
    refine ⟨?_, hnodup, by simpa using hmatch⟩
    rw [hvtx]
    exact List.cons_ne_nil _ _
  obtain ⟨hne, hunique, hbuild⟩ := hchecked h
  obtain ⟨hne', hunique', hbuild'⟩ := hchecked h'
  -- neither block has built its tree before
  have hfresh : ∀ vtx : List CTransaction, vtx ≠ [] →
      Lib.Merkle.root hash2 (vtx.map env.getHash) = some (env.buildMerkleTree vtx) := by
    intro vtx hvtx
    rw [← hmerkle ⟨vtx, [], .inl rfl⟩, MerkleBlock.buildMerkleTree_fst _ hvtx]
  apply MerkleBlock.hashes_of_root_eq hinj hne hne' hunique hunique' hleaf
  rw [hfresh _ hne, hfresh _ hne', ← hbuild, ← hbuild', hroot]

end ShinyCoin

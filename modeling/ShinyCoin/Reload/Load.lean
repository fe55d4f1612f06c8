import ShinyCoin.Stake.Kernel
import ShinyCoin.Lib.TreeMap
import Mathlib.Data.Finset.Insert

/-!
# LoadBlockIndex

At start the block index is built from its records. A record names its neighbours by their hashes,
and `InsertBlockIndex` makes an entry for a hash when it comes up first, as the block's own or as a
neighbour's; the block's record fills it in. The trust and the checksum of the stake modifier are not
in the records: a second loop computes them, parents first because they are lower.

An entry is found by its hash, and a pointer to it is that hash, 0 for `NULL`. What `LoadBlockIndex`
does afterwards, to verify the last blocks of the best chain, is left out.
-/

namespace ShinyCoin

/-! ## The checksum of the stake modifier -/

def CBlockIndex.isProofOfStake (pindex : CBlockIndex) : Bool :=
  pindex.nFlags &&& BLOCK_PROOF_OF_STAKE != 0

/-- `GetStakeModifierChecksum`, from the parent's checksum if there is a parent. -/
def Env.getStakeModifierChecksum (env : Env) (prev : Option Nat) (pindex : CBlockIndex) : Nat :=
  env.hash ((prev.map (littleEndian 4)).getD [] ++ littleEndian 4 pindex.nFlags
    ++ littleEndian 32 pindex.hashProofOfStake ++ littleEndian 8 pindex.nStakeModifier)
    / 2 ^ (256 - 32) % 2 ^ 32

/-- `nStakeModifierChecksum` of a block: `AddToBlockIndex` sets it when it has set the flags and the
modifier. -/
def BlockPtr.nStakeModifierChecksum (env : Env) : BlockPtr → Nat
  | [] => 0
  | pindex :: pprev => env.getStakeModifierChecksum
      (pprev.head?.map fun _ => nStakeModifierChecksum env pprev) pindex

/-- `mapStakeModifierCheckpoints`, to which nothing has been added yet. -/
def mapStakeModifierCheckpoints : List (ℤ × Nat) := []

def Env.checkStakeModifierCheckpoints (env : Env) (nHeight : ℤ) (nStakeModifierChecksum : Nat) :
    Bool :=
  env.fTestNet || match mapStakeModifierCheckpoints.lookup nHeight with
    | some checksum => nStakeModifierChecksum == checksum
    | none => true

/-! ## Records -/

namespace CDiskBlockIndex

/-- What is read back of a record: `phashBlock` and `bnChainTrust` are not written, and the stake
fields are written for a proof-of-stake block only. -/
def unserialized (diskindex : CDiskBlockIndex) : CDiskBlockIndex :=
  let pindex := diskindex.index
  { diskindex with index := { pindex with
      hashBlock := 0
      bnChainTrust := 0
      prevoutStake := if pindex.isProofOfStake then pindex.prevoutStake else COutPoint.null
      nStakeTime := if pindex.isProofOfStake then pindex.nStakeTime else 0
      hashProofOfStake := if pindex.isProofOfStake then pindex.hashProofOfStake else 0 } }

def getBlockIDHash (env : Env) (diskindex : CDiskBlockIndex) : Uint256 :=
  env.getIDHash
    { nVersion := diskindex.index.nVersion
      hashPrevBlock := diskindex.hashPrev
      hashMerkleRoot := diskindex.index.hashMerkleRoot
      nTime := diskindex.index.nTime
      nBits := diskindex.index.nBits
      nNonce := diskindex.index.nNonce }

end CDiskBlockIndex

/-! ## Entries -/

/-- An entry of the index that is being built. -/
structure LoadedBlock where
  index : CBlockIndex
  stats : BlockStats := {}
  pprev : Uint256 := 0
  pnext : Uint256 := 0
  nStakeModifierChecksum : Nat := 0
  deriving DecidableEq, Repr

namespace LoadedBlock

/-- `new CBlockIndex()` with its `phashBlock` -/
def new (hash : Uint256) : LoadedBlock where
  index := { hashBlock := hash, nFile := 0, nBlockPos := 0 }

/-- `Construct block index object` -/
def construct (pindexNew : LoadedBlock) (diskindex : CDiskBlockIndex) : LoadedBlock where
  index := { diskindex.index with
    hashBlock := pindexNew.index.hashBlock
    bnChainTrust := pindexNew.index.bnChainTrust }
  stats := diskindex.stats
  pprev := diskindex.hashPrev
  pnext := diskindex.hashNext
  nStakeModifierChecksum := pindexNew.nStakeModifierChecksum

end LoadedBlock

abbrev LoadedMap := Std.ExtTreeMap Uint256 LoadedBlock compare

/-- What the loop over the records builds. -/
structure LoadedIndex where
  mapBlockIndex : LoadedMap := ∅
  pindexGenesisBlock : Uint256 := 0
  setStakeSeen : Finset (COutPoint × Nat) := ∅

/-- `InsertBlockIndex(hash)`; what it returns is the entry under `hash`. -/
def insertBlockIndex (mapBlockIndex : LoadedMap) (hash : Uint256) : LoadedMap :=
  if hash = 0 then mapBlockIndex else mapBlockIndex.insertIfNew hash (LoadedBlock.new hash)

/-- A round of the loop over the records. -/
def loadRecord (env : Env) (st : LoadedIndex) (diskindex : CDiskBlockIndex) :
    Except Err LoadedIndex :=
  let hash := diskindex.getBlockIDHash env
  let mapBlockIndex := insertBlockIndex (insertBlockIndex (insertBlockIndex st.mapBlockIndex hash)
    diskindex.hashPrev) diskindex.hashNext
  match mapBlockIndex[hash]? with
  | none => .error (.exc "pindexNew is NULL")
  | some pindexNew =>
      let pindexNew := pindexNew.construct diskindex
      .ok {
        mapBlockIndex := mapBlockIndex.insert hash pindexNew
        pindexGenesisBlock := if st.pindexGenesisBlock = 0 ∧ hash = env.hashGenesisBlock then hash
          else st.pindexGenesisBlock
        setStakeSeen := if pindexNew.index.isProofOfStake then
            insert (pindexNew.index.prevoutStake, pindexNew.index.nStakeTime) st.setStakeSeen
          else st.setStakeSeen }

/-- The loop over the records, in the order of the cursor. -/
def loadRecords (env : Env) (cursor : List CDiskBlockIndex) : Except Err LoadedIndex :=
  cursor.foldlM (fun st diskindex => loadRecord env st diskindex.unserialized) {}

/-! ## Trust and checksums -/

/-- `operator<=` of `pair<int, CBlockIndex*>`, for entries at the addresses `addr`. -/
def heightLe (addr : Uint256 → Nat) (a b : ℤ × Uint256) : Bool :=
  decide (a.1 < b.1) || decide (a.1 = b.1) && decide (addr a.2 ≤ addr b.2)

def vSortedByHeight (addr : Uint256 → Nat) (mapBlockIndex : LoadedMap) : List (ℤ × Uint256) :=
  (mapBlockIndex.toList.map fun item => (item.2.index.nHeight, item.1)).mergeSort (heightLe addr)

/-- A round of `Calculate bnChainTrust`. There is no entry under 0. -/
def calculateTrust (env : Env) (mapBlockIndex : LoadedMap) (item : ℤ × Uint256) :
    Except Err LoadedMap :=
  match mapBlockIndex[item.2]? with
  | none => .ok mapBlockIndex
  | some pindex => do
      let pprev := mapBlockIndex[pindex.pprev]?
      Lib.require (pprev.isSome || item.2 == env.hashGenesisBlock)
        (.exc "pindex->pprev || pindex->GetBlockIDHash() == hashGenesisBlock")
      let checksum := env.getStakeModifierChecksum
        (pprev.map LoadedBlock.nStakeModifierChecksum) pindex.index
      Lib.require (env.checkStakeModifierCheckpoints pindex.index.nHeight checksum)
        (.fail "CTxDB::LoadBlockIndex() : Failed stake modifier checkpoint")
      return mapBlockIndex.insert item.2 { pindex with
        index := { pindex.index with
          bnChainTrust := (pprev.map fun prev => prev.index.bnChainTrust).getD 0
            + getBlockTrust pindex.index.nBits pindex.index.isProofOfStake }
        nStakeModifierChecksum := checksum }

/-! ## The best chain -/

/-- The globals that `LoadBlockIndex` sets. -/
structure LoadedNode extends LoadedIndex where
  hashBestChain : Uint256 := 0
  pindexBest : Uint256 := 0
  nBestHeight : ℤ := -1
  bnBestChainTrust : ℤ := 0
  hashSyncCheckpoint : Uint256 := 0
  bnBestInvalidTrust : ℤ := 0

/-- `ReadHashBestChain`. No block has the hash 0, which stands for no record. -/
def TxDbData.readHashBestChain (d : TxDbData) : Option Uint256 :=
  if d.hashBestChain = 0 then none else some d.hashBestChain

/-- `Load hashBestChain pointer to end of best chain`, and the sync checkpoint, whose record is
`syncCheckpoint`. -/
def loadBestChain (d : TxDbData) (syncCheckpoint : Option Uint256) (loaded : LoadedIndex) :
    Except Err LoadedNode :=
  match d.readHashBestChain with
  | none =>
      if loaded.pindexGenesisBlock = 0 then .ok { loaded with }
      else .error (.fail "CTxDB::LoadBlockIndex() : hashBestChain not loaded")
  | some hashBestChain =>
      match loaded.mapBlockIndex[hashBestChain]?, syncCheckpoint with
      | none, _ =>
          .error (.fail "CTxDB::LoadBlockIndex() : hashBestChain not found in the block index")
      | _, none => .error (.fail "CTxDB::LoadBlockIndex() : hashSyncCheckpoint not loaded")
      | some pindexBest, some hashSyncCheckpoint => .ok { loaded with
          hashBestChain := hashBestChain
          pindexBest := hashBestChain
          nBestHeight := pindexBest.index.nHeight
          bnBestChainTrust := pindexBest.index.bnChainTrust
          hashSyncCheckpoint := hashSyncCheckpoint
          bnBestInvalidTrust := d.bnBestInvalidTrust }

/-- `CTxDB::LoadBlockIndex`, for a cursor that goes over the records in some order, and entries that
are allocated at the addresses `addr`. -/
def CTxDB.loadBlockIndex (env : Env) (addr : Uint256 → Nat) (cursor : List CDiskBlockIndex)
    (syncCheckpoint : Option Uint256) (txdb : CTxDB) : Except Err LoadedNode := do
  let loaded ← loadRecords env cursor
  let mapBlockIndex ← (vSortedByHeight addr loaded.mapBlockIndex).foldlM (calculateTrust env)
    loaded.mapBlockIndex
  loadBestChain txdb.data syncCheckpoint { loaded with mapBlockIndex := mapBlockIndex }

end ShinyCoin

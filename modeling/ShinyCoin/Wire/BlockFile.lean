import ShinyCoin.Chain.Replay
import ShinyCoin.Wire.Block
import ShinyCoin.Wire.Messages

/-!
# The block files

`blk%04d.dat` as bytes: `WriteToDisk` appends a block behind the message start and its size, and
`ReadFromDisk` reads from a position on. `ConnectBlock` never sees where the transactions of a
block went; it computes the positions from sizes, and they are those of the bytes.
-/

namespace ShinyCoin

/-! ## Sizes bound lengths -/

theorem length_le_bytesSerializeSize (s : Bytes) : s.length ≤ bytesSerializeSize s :=
  Nat.le_add_left _ _

section

variable {α : Type} {size : α → Nat} {v : List α}

theorem size_le_vectorSerializeSize (size : α → Nat) {a : α} (h : a ∈ v) : size a ≤ vectorSerializeSize size v :=
  (List.single_le_sum (by simp) _ (List.mem_map_of_mem h)).trans (Nat.le_add_left _ _)

theorem length_le_vectorSerializeSize (h : ∀ a ∈ v, 0 < size a) :
    v.length ≤ vectorSerializeSize size v := by
  have hsum : (v.map size).length ≤ (v.map size).sum :=
    List.length_le_sum_of_one_le _ (by simpa [Nat.one_le_iff_ne_zero, Nat.pos_iff_ne_zero] using h)
  rw [List.length_map] at hsum
  exact hsum.trans (Nat.le_add_left _ _)

end

/-! ### The types of the fields -/

structure CTxIn.Typed (txin : CTxIn) : Prop where
  prevout : txin.prevout.Fits
  nSequence : txin.nSequence < 2 ^ 32

structure CTxOut.Typed (txout : CTxOut) : Prop where
  nValue_ge : -(2 ^ 63) ≤ txout.nValue
  nValue_lt : txout.nValue < 2 ^ 63

/-- Every field that is written has a value of its type in the source. -/
structure CTransaction.Typed (tx : CTransaction) : Prop where
  nTime : tx.nTime < 2 ^ 32
  txin : ∀ txin ∈ tx.vin, txin.Typed
  txout : ∀ txout ∈ tx.vout, txout.Typed
  nLockTime : tx.nLockTime < 2 ^ 32
  mint_numUnits : tx.nVersion ≠ .TT_NORMAL →
    -(2 ^ 63) ≤ tx.mint_numUnits ∧ tx.mint_numUnits < 2 ^ 63
  mint_divisibility : tx.nVersion = .TT_MINT_SUBCURRENCY →
    -(2 ^ 63) ≤ tx.mint_divisibility ∧ tx.mint_divisibility < 2 ^ 63

structure CBlock.Typed (block : CBlock) : Prop where
  header : block.toCBlockHeader.Fits
  tx : ∀ tx ∈ block.vtx, tx.Typed

theorem CTxInfo.fits_of_size {info : CTxInfo} (h : info.getSerializeSize ≤ MAX_SIZE) :
    info.Fits := by
  have hkey := length_le_bytesSerializeSize info.key.keyString
  have hvalue := length_le_bytesSerializeSize info.value
  unfold getSerializeSize at h
  exact ⟨by omega, by omega⟩

theorem CTxInfo.getSerializeSize_pos (info : CTxInfo) : 0 < info.getSerializeSize := by
  unfold getSerializeSize
  omega

theorem CTxIn.Typed.fits {txin : CTxIn} (h : txin.Typed)
    (hsize : txin.getSerializeSize ≤ MAX_SIZE) : txin.Fits := by
  have hscript := length_le_bytesSerializeSize txin.scriptSig
  have hinfos : txin.infos.length ≤ vectorSerializeSize CTxInfo.getSerializeSize txin.infos :=
    length_le_vectorSerializeSize fun info _ => info.getSerializeSize_pos
  unfold CTxIn.getSerializeSize at hsize
  refine ⟨h.prevout, by omega, h.nSequence, by omega, fun info hinfo => ?_⟩
  have hle := size_le_vectorSerializeSize CTxInfo.getSerializeSize hinfo
  apply CTxInfo.fits_of_size
  omega

theorem CTxOut.Typed.fits {txout : CTxOut} (h : txout.Typed)
    (hsize : txout.getSerializeSize ≤ MAX_SIZE) : txout.Fits := by
  have hcurrency := length_le_bytesSerializeSize txout.subCurrency
  have hscript := length_le_bytesSerializeSize txout.scriptPubKey
  unfold CTxOut.getSerializeSize at hsize
  exact ⟨by omega, h.nValue_ge, h.nValue_lt, by omega⟩

theorem CTransaction.Typed.fits {tx : CTransaction} (h : tx.Typed)
    (hsize : tx.getSerializeSize ≤ MAX_SIZE) : tx.Fits := by
  have hvin : tx.vin.length ≤ vectorSerializeSize CTxIn.getSerializeSize tx.vin :=
    length_le_vectorSerializeSize fun txin _ => by unfold CTxIn.getSerializeSize; omega
  have hvout : tx.vout.length ≤ vectorSerializeSize CTxOut.getSerializeSize tx.vout :=
    length_le_vectorSerializeSize fun txout _ => by unfold CTxOut.getSerializeSize; omega
  have hname := length_le_bytesSerializeSize tx.mint_subCurrencyName
  have hid := length_le_bytesSerializeSize tx.mint_subCurrencyId
  have hscript := length_le_bytesSerializeSize tx.mint_remintScript
  unfold CTransaction.getSerializeSize at hsize
  refine ⟨h.nTime, by omega, fun txin htxin => (h.txin txin htxin).fits ?_, by omega,
    fun txout htxout => (h.txout txout htxout).fits ?_, h.nLockTime, fun hv => ?_, fun hv => ?_,
    h.mint_numUnits, h.mint_divisibility, fun hv => ?_⟩
  · have hle := size_le_vectorSerializeSize CTxIn.getSerializeSize htxin
    omega
  · have hle := size_le_vectorSerializeSize CTxOut.getSerializeSize htxout
    omega
  · rw [hv] at hsize
    dsimp only at hsize
    omega
  · cases hversion : tx.nVersion <;> rw [hversion] at hsize hv <;> dsimp only at hsize
    · exact absurd rfl hv
    · omega
    · omega
  · cases hversion : tx.nVersion <;> rw [hversion] at hsize hv <;> dsimp only at hsize
    · exact absurd rfl hv
    · omega
    · omega

theorem CBlock.Typed.fits {block : CBlock} (h : block.Typed)
    (hsize : block.getSerializeSize ≤ MAX_SIZE) : block.Fits := by
  have hvtx : block.vtx.length ≤ vectorSerializeSize CTransaction.getSerializeSize block.vtx :=
    length_le_vectorSerializeSize fun tx _ => by unfold CTransaction.getSerializeSize; omega
  have hsig := length_le_bytesSerializeSize block.vchBlockSig
  unfold CBlock.getSerializeSize at hsize
  refine ⟨h.header, by omega, fun tx htx => (h.tx tx htx).fits ?_, by omega⟩
  have hle := size_le_vectorSerializeSize CTransaction.getSerializeSize htx
  omega

/-! ## Files -/

/-- The block files by number. Those from `nFiles` on are not there yet. -/
structure BlockDisk where
  blk : Nat → Bytes
  nFiles : Nat
  blk_eq_nil : ∀ n, nFiles ≤ n → blk n = []
  nCurrentBlockFile : Nat

namespace BlockDisk

/-- "FAT32 filesize max 4GB, fseek and ftell max 2GB, so we must stay under 2GB" -/
def MAX_APPEND_POS : Nat := 0x7F000000 - MAX_SIZE

/-- The loop of `AppendBlockFile` from a file on; there is no file -1. -/
def appendBlockFileFrom (disk : BlockDisk) (n : Nat) : Option Nat :=
  if n = UINT_MAX then none
  else if _h : (disk.blk n).length < MAX_APPEND_POS then some n
  else disk.appendBlockFileFrom (n + 1)
termination_by disk.nFiles - n
decreasing_by
  -- a file that is full is there
  have hlt : n < disk.nFiles := by
    by_contra hge
    apply _h
    rw [disk.blk_eq_nil n (by omega)]
    decide
  omega

def appendBlockFile (disk : BlockDisk) : Option Nat :=
  disk.appendBlockFileFrom disk.nCurrentBlockFile

/-- Write at the end of a file. -/
def append (disk : BlockDisk) (nFile : Nat) (b : Bytes) : BlockDisk where
  blk := Function.update disk.blk nFile (disk.blk nFile ++ b)
  nFiles := max disk.nFiles (nFile + 1)
  blk_eq_nil n hn := by
    have hne : n ≠ nFile := by
      have := le_max_right disk.nFiles (nFile + 1)
      omega
    rw [Function.update_of_ne hne]
    exact disk.blk_eq_nil n ((le_max_left _ _).trans hn)
  nCurrentBlockFile := nFile

/-- The index header in front of a block: message start and size -/
def indexHeader (env : Env) (block : CBlock) : Bytes :=
  Wire.getMessageStart env ++ Lib.toLE 4 (block.nSerSize SER_DISK).toNat

/-- `CBlock::WriteToDisk`: the files, `nFileRet` and `nBlockPosRet` -/
def writeToDisk (env : Env) (disk : BlockDisk) (block : CBlock) :
    Option (BlockDisk × Nat × Nat) :=
  disk.appendBlockFile.map fun nFileRet =>
    let disk := disk.append nFileRet (indexHeader env block)
    let nBlockPosRet := (disk.blk nFileRet).length % 2 ^ 32
    (disk.append nFileRet (block.serialize SER_DISK), nFileRet, nBlockPosRet)

/-- Blocks written one after the other -/
def writeAll (env : Env) (disk : BlockDisk) (blocks : List CBlock) : Option BlockDisk :=
  blocks.foldlM (fun disk block => (disk.writeToDisk env block).map Prod.fst) disk

/-- Unserialize from a position of a file; any exception is an error. -/
def readAt {α : Type} (disk : BlockDisk) (item : Lib.Reader Err α) (nFile nPos : Nat) : Option α :=
  if nFile = UINT_MAX then none
  else match item.run ((disk.blk nFile).drop nPos) with
    | .ok (a, _) => some a
    | .error _ => none

/-- `CTransaction::ReadFromDisk(pos)` -/
def readTx (disk : BlockDisk) (sz : Sizeof) (fresh : CTransaction) (pos : CDiskTxPos) :
    Option CTransaction :=
  disk.readAt (CTransaction.unserialize sz fresh) pos.nFile pos.nTxPos

/-- What the block files hold, as the rest of the program reads it -/
def toFiles (disk : BlockDisk) (sz : Sizeof) (fresh : CTransaction) : Files where
  block := disk.readAt (CBlock.unserialize sz fresh SER_DISK)
  tx := disk.readTx sz fresh

/-! ### What writing does -/

variable {env : Env} {disk disk' : BlockDisk} {block : CBlock} {nFile nBlockPos : Nat}

theorem appendBlockFileFrom_some {n m : Nat} (h : disk.appendBlockFileFrom n = some m) :
    m ≠ UINT_MAX ∧ (disk.blk m).length < MAX_APPEND_POS := by
  induction n using appendBlockFileFrom.induct disk with
  | case1 =>
      rw [appendBlockFileFrom, if_pos rfl] at h
      cases h
  | case2 n hmax hroom =>
      rw [appendBlockFileFrom, if_neg hmax, dif_pos hroom] at h
      cases h
      exact ⟨hmax, hroom⟩
  | case3 n hmax hfull ih =>
      rw [appendBlockFileFrom, if_neg hmax, dif_neg hfull] at h
      exact ih h

@[simp] theorem blk_append_self (disk : BlockDisk) (n : Nat) (b : Bytes) :
    (disk.append n b).blk n = disk.blk n ++ b := Function.update_self _ _ _

/-- The block's bytes stand at the position that is returned. -/
theorem writeToDisk_some (h : disk.writeToDisk env block = some (disk', nFile, nBlockPos)) :
    nFile ≠ UINT_MAX ∧ nBlockPos < MAX_APPEND_POS + 8 ∧
      ∃ before, before.length = nBlockPos ∧
        disk'.blk nFile = before ++ block.serialize SER_DISK := by
  obtain ⟨n, happend, heq⟩ := Option.map_eq_some_iff.mp h
  obtain ⟨hmax, hroom⟩ := appendBlockFileFrom_some happend
  obtain ⟨rfl, hpos⟩ := Prod.mk.inj heq
  obtain ⟨rfl, rfl⟩ := Prod.mk.inj hpos
  have hheader : (indexHeader env block).length = 8 := by
    rw [indexHeader, List.length_append, Wire.getMessageStart_length, Lib.length_toLE]
  have hlimit : MAX_APPEND_POS + 8 < 2 ^ 32 := by decide
  have hlen : (disk.blk n).length + 8 < MAX_APPEND_POS + 8 := by omega
  rw [blk_append_self, List.length_append, hheader, Nat.mod_eq_of_lt (by omega)]
  refine ⟨hmax, hlen, disk.blk n ++ indexHeader env block, ?_, ?_⟩
  · rw [List.length_append, hheader]
  · rw [blk_append_self, blk_append_self]

/-- Files only grow. -/
theorem writeToDisk_grows (h : disk.writeToDisk env block = some (disk', nFile, nBlockPos))
    (n : Nat) : ∃ more, disk'.blk n = disk.blk n ++ more := by
  have happend : ∀ (d : BlockDisk) (m : Nat) (b : Bytes),
      ∃ more, (d.append m b).blk n = d.blk n ++ more := by
    intro d m b
    by_cases hn : n = m
    · rw [hn, blk_append_self]
      exact ⟨b, rfl⟩
    · refine ⟨[], ?_⟩
      rw [List.append_nil]
      exact Function.update_of_ne hn _ _
  obtain ⟨m, -, heq⟩ := Option.map_eq_some_iff.mp h
  obtain ⟨rfl, -⟩ := Prod.mk.inj heq
  obtain ⟨more₁, h₁⟩ := happend disk m (indexHeader env block)
  obtain ⟨more₂, h₂⟩ := happend (disk.append m _) m (block.serialize SER_DISK)
  refine ⟨more₁ ++ more₂, ?_⟩
  rw [h₂, h₁, List.append_assoc]

theorem writeAll_grows {blocks : List CBlock} (h : disk.writeAll env blocks = some disk') (n : Nat) :
    ∃ more, disk'.blk n = disk.blk n ++ more := by
  induction blocks generalizing disk with
  | nil =>
      cases h
      exact ⟨[], (List.append_nil _).symm⟩
  | cons block blocks ih =>
      unfold writeAll at h
      rw [List.foldlM_cons] at h
      obtain ⟨disk₁, hfirst, hrest⟩ := Option.bind_eq_some_iff.mp h
      obtain ⟨⟨_, nFile, nBlockPos⟩, hwrite, rfl⟩ := Option.map_eq_some_iff.mp hfirst
      obtain ⟨more₁, h₁⟩ := writeToDisk_grows hwrite n
      obtain ⟨more₂, h₂⟩ := ih hrest
      refine ⟨more₁ ++ more₂, ?_⟩
      rw [h₂, h₁, List.append_assoc]

theorem readAt_some {α : Type} {item : Lib.Reader Err α} {b before more : Bytes} {a : α} {nPos : Nat}
    (hfile : nFile ≠ UINT_MAX) (hblk : disk.blk nFile = before ++ (b ++ more))
    (hpos : before.length = nPos) (hread : Lib.Yields item b a) :
    disk.readAt item nFile nPos = some a := by
  unfold readAt
  rw [if_neg hfile, hblk, List.drop_left' hpos, hread more]

end BlockDisk

/-! ## Where the transactions are -/

section

variable {env : Env} {block : CBlock} {pindex : CBlockIndex} {before after : List CTransaction}
  {tx : CTransaction}

/-- The position `ConnectBlock` computes for a transaction behind others -/
def CBlock.txPos (block : CBlock) (before : List CTransaction) (nBlockPos : Nat) : Nat :=
  block.firstTxPos nBlockPos + (before.map CTransaction.getSerializeSize).sum

/-- The bytes before a transaction in its block are as many as `ConnectBlock` counts. -/
theorem CBlock.serialize_split (h : block.vtx = before ++ tx :: after) (nBlockPos : Nat) :
    ∃ b more, block.serialize SER_DISK = b ++ (tx.serialize ++ more) ∧
      nBlockPos + b.length = block.txPos before nBlockPos := by
  have h82 : ({ vtx := [] } : CBlock).getSerializeSize = 82 := by decide
  have h1 : getSizeOfCompactSize 0 = 1 := by decide
  refine ⟨block.toCBlockHeader.serialize ++ (writeCompactSize block.vtx.length
    ++ before.flatMap CTransaction.serialize),
    after.flatMap CTransaction.serialize ++ writeBytes block.vchBlockSig, ?_, ?_⟩
  · unfold CBlock.serialize writeVector
    rw [if_pos (by decide), h]
    simp only [List.flatMap_append, List.flatMap_cons, List.append_assoc]
  · have hbefore : (before.flatMap CTransaction.serialize).length
        = (before.map CTransaction.getSerializeSize).sum := by
      simp [List.length_flatMap, CTransaction.length_serialize]
    simp only [List.length_append, CBlockHeader.length_serialize, length_writeCompactSize, hbefore,
      CBlock.txPos, CBlock.firstTxPos, h82, h1]
    omega

/-- The position an index has for a transaction whose hash no later one has. -/
theorem applyTxs_pos (hne : ∀ tx' ∈ after, env.getHash tx' ≠ env.getHash tx) (nTxPos : Nat)
    (m : TxIndexMap) :
    (applyTxs env pindex (before ++ tx :: after) nTxPos m (env.getHash tx)).map CTxIndex.pos
      = some ⟨pindex.nFile, pindex.nBlockPos,
          nTxPos + (before.map CTransaction.getSerializeSize).sum⟩ := by
  induction before generalizing nTxPos m with
  | nil =>
      show (applyTxs env pindex after _ (applyTx env _ m tx) (env.getHash tx)).map _ = _
      rw [pos_applyTxs hne, applyTx, Lib.PMap.set_self]
      rfl
  | cons tx' before ih =>
      rw [List.cons_append, applyTxs, ih, List.map_cons, List.sum_cons, Nat.add_assoc]

/-- `CheckBlock` bounds the size of a block and looks for duplicates. -/
theorem CBlock.checkBlock_size {nAdjustedTime : ℤ} {fCheckPoWHash : Bool}
    (h : block.checkBlock env nAdjustedTime fCheckPoWHash = .ok ()) :
    block.getSerializeSize ≤ MAX_BLOCK_SIZE := by
  simp only [checkBlock, Lib.seq_eq_ok, Lib.require_eq_ok, Bool.and_eq_true, decide_eq_true_eq] at h
  exact h.1.2

/-- The bytes of a transaction stand where `ConnectBlock` takes them to be, whatever was written
behind its block. -/
theorem BlockDisk.tx_written {disk disk₁ disk₂ : BlockDisk} {later : List CBlock}
    {nFile nBlockPos : Nat} (hwrite : disk.writeToDisk env block = some (disk₁, nFile, nBlockPos))
    (hlater : disk₁.writeAll env later = some disk₂) (hvtx : block.vtx = before ++ tx :: after) :
    ∃ b more, disk₂.blk nFile = b ++ (tx.serialize ++ more) ∧
      b.length = block.txPos before nBlockPos := by
  obtain ⟨-, -, blocksBefore, hlen, hblk⟩ := writeToDisk_some hwrite
  obtain ⟨b, more, hsplit, hb⟩ := CBlock.serialize_split hvtx nBlockPos
  obtain ⟨blocksAfter, hgrown⟩ := writeAll_grows hlater nFile
  refine ⟨blocksBefore ++ b, more ++ blocksAfter, ?_, ?_⟩
  · rw [hgrown, hblk, hsplit]
    simp only [List.append_assoc]
  · rw [List.length_append, hlen, hb]

theorem BlockDisk.readTx_written {disk disk₁ disk₂ : BlockDisk} {later : List CBlock}
    {nFile nBlockPos : Nat} (sz : Sizeof) (fresh : CTransaction)
    (hwrite : disk.writeToDisk env block = some (disk₁, nFile, nBlockPos))
    (hlater : disk₁.writeAll env later = some disk₂) (hfits : block.Fits)
    (hvtx : block.vtx = before ++ tx :: after) :
    disk₂.readTx sz fresh ⟨nFile, nBlockPos, block.txPos before nBlockPos⟩
      = some (tx.onto fresh) := by
  obtain ⟨b, more, hbytes, hlen⟩ := tx_written hwrite hlater hvtx
  apply readAt_some (writeToDisk_some hwrite).1 hbytes hlen
  apply CTransaction.yields_unserialize sz fresh
  apply hfits.tx
  rw [hvtx]
  simp

/-- The files hold a block that was written, as `CBlock.Stored` asks for, if the fields of its
transactions that are not written are those of a fresh object. -/
theorem CBlock.stored_toFiles {disk disk₁ disk₂ : BlockDisk} {later : List CBlock} (sz : Sizeof)
    (fresh : CTransaction)
    (hwrite : disk.writeToDisk env block = some (disk₁, pindex.nFile, pindex.nBlockPos))
    (hlater : disk₁.writeAll env later = some disk₂) (hfits : block.Fits)
    (honto : ∀ tx ∈ block.vtx, tx.onto fresh = tx) :
    block.Stored (disk₂.toFiles sz fresh) pindex := by
  have suffix : ∀ after before, block.vtx = before ++ after →
      TxsStored (disk₂.toFiles sz fresh) pindex after (block.txPos before pindex.nBlockPos) := by
    intro after
    induction after with
    | nil => intro before _; trivial
    | cons tx after ih =>
        intro before hvtx
        have hmem : tx ∈ block.vtx := by simp [hvtx]
        have hread := BlockDisk.readTx_written sz fresh hwrite hlater hfits hvtx
        rw [honto tx hmem] at hread
        refine ⟨Files.readTx_eq_some.mpr ⟨hread, ?_, (hfits.tx tx hmem).vout⟩, ?_⟩
        · simpa [CDiskTxPos.isNull] using (BlockDisk.writeToDisk_some hwrite).1
        · have hnext := ih (before ++ [tx]) (by rw [hvtx, List.append_assoc]; rfl)
          simpa [CBlock.txPos, Nat.add_assoc] using hnext
  exact suffix block.vtx [] rfl

/-- What was written and connected is found through the index: the entry of every transaction of
the block has the position its bytes begin at, and reading there gives the transaction, whatever is
written behind it. -/
theorem connectBlock_txPos (sz : Sizeof) (fresh : CTransaction) (files : Files)
    (disk disk₁ disk₂ : BlockDisk) (block : CBlock) (pindex : CBlockIndex) (pprev : BlockPtr)
    (later : List CBlock) (s s' : NodeState) (htyped : block.Typed)
    (hwrite : disk.writeToDisk env block = some (disk₁, pindex.nFile, pindex.nBlockPos))
    (hlater : disk₁.writeAll env later = some disk₂)
    (hconnect : block.connectBlock env files pindex pprev s = .ok s')
    (before : List CTransaction) (tx : CTransaction) (after : List CTransaction)
    (hvtx : block.vtx = before ++ tx :: after) :
    ∃ txindex b more, s'.txdb.data.txIndex (env.getHash tx) = some txindex ∧
      disk₂.blk txindex.pos.nFile = b ++ (tx.serialize ++ more) ∧
      txindex.pos.nTxPos = b.length ∧ txindex.pos.nTxPos < 2 ^ 32 ∧
      disk₂.readTx sz fresh txindex.pos = some (tx.onto fresh) := by
  obtain ⟨st, -, -, hcheck, htxs, -, -, -⟩ := CBlock.connectBlock_ok hconnect
  obtain ⟨-, -, -, hindex, -⟩ := CBlock.connectBlock_writes htxs hconnect
  have hsize : block.getSerializeSize ≤ MAX_BLOCK_SIZE := by
    simp only [CBlock.checkConnect, Lib.seq_eq_ok] at hcheck
    exact CBlock.checkBlock_size hcheck.1
  have hfits := htyped.fits (hsize.trans (by decide))
  -- no later transaction of the block has the hash
  have hne : ∀ tx' ∈ after, env.getHash tx' ≠ env.getHash tx := by
    have hnodup := (CBlock.checkConnect_ok hcheck).1.nodup
    rw [hvtx, List.map_append, List.map_cons] at hnodup
    intro tx' htx' heq
    have hnot := (List.nodup_cons.mp (List.nodup_append.mp hnodup).2.1).1
    rw [← heq] at hnot
    exact hnot (List.mem_map_of_mem htx')
  have hpos : (s'.txdb.data.txIndex (env.getHash tx)).map CTxIndex.pos
      = some ⟨pindex.nFile, pindex.nBlockPos, block.txPos before pindex.nBlockPos⟩ := by
    rw [hindex, (CBlock.connectTxs_applyTo htxs).1, CBlock.applyTo, hvtx, applyTxs_pos hne]
    rfl
  obtain ⟨txindex, hentry, hpos⟩ := Option.map_eq_some_iff.mp hpos
  obtain ⟨b, more, hbytes, hlen⟩ := BlockDisk.tx_written hwrite hlater hvtx
  refine ⟨txindex, b, more, hentry, ?_, ?_, ?_, ?_⟩ <;> rw [hpos]
  · exact hbytes
  · exact hlen.symm
  · -- the files stay small, and so does the block
    obtain ⟨-, hlimit, -⟩ := BlockDisk.writeToDisk_some hwrite
    obtain ⟨b', more', hsplit, hb'⟩ := CBlock.serialize_split hvtx pindex.nBlockPos
    have hshort : b'.length ≤ block.getSerializeSize := by
      rw [← CBlock.length_serialize (show CBlock.isWhole SER_DISK = true by decide), hsplit,
        List.length_append]
      exact Nat.le_add_right _ _
    have hmax : BlockDisk.MAX_APPEND_POS + 8 + MAX_BLOCK_SIZE < 2 ^ 32 := by decide
    show block.txPos before pindex.nBlockPos < 2 ^ 32
    omega
  · exact BlockDisk.readTx_written sz fresh hwrite hlater hfits hvtx

end

/-! ### The first block of a file -/

def emptyDisk : BlockDisk := ⟨fun _ => [], 0, fun _ _ => rfl, 1⟩

theorem writeToDisk_emptyDisk (env : Env) (block : CBlock) :
    ∃ disk₁, emptyDisk.writeToDisk env block = some (disk₁, 1, 8) := by
  have hfile : emptyDisk.appendBlockFile = some 1 := by
    unfold BlockDisk.appendBlockFile
    rw [BlockDisk.appendBlockFileFrom, if_neg (by decide), dif_pos (by decide)]
    rfl
  have hpos : ((emptyDisk.append 1 (BlockDisk.indexHeader env block)).blk 1).length % 2 ^ 32 = 8 := by
    rw [BlockDisk.blk_append_self, BlockDisk.indexHeader]
    simp [emptyDisk, Wire.getMessageStart_length]
  unfold BlockDisk.writeToDisk
  rw [hfile]
  dsimp only [Option.map_some]
  rw [hpos]
  exact ⟨_, rfl⟩

def writtenIndex : CBlockIndex := { sampleIndex with nBlockPos := 8 }

def writtenFiles : Files where
  block _ _ := none
  tx pos := if pos = ⟨1, 8, 89⟩ then some sampleCoinbase else none

theorem sampleBlock_typed : sampleBlock.Typed where
  header := by refine ⟨?_, ?_, ?_, ?_, ?_, ?_⟩ <;> decide
  tx tx htx := by
    simp only [sampleBlock, List.mem_cons, List.not_mem_nil, or_false] at htx
    rcases htx with rfl | rfl
    all_goals
      refine ⟨by decide, fun txin h => ?_, fun txout h => ?_, by decide, fun h => absurd rfl h,
        fun h => by cases h⟩
      · cases List.mem_singleton.mp h
        exact ⟨⟨by decide, by decide⟩, by decide⟩
      · cases List.mem_singleton.mp h
        exact ⟨by decide, by decide⟩

theorem connectBlock_txPos_sampleBlock :
    ∃ (disk₁ : BlockDisk) (s' : NodeState) (txindex : CTxIndex),
      s'.txdb.data.txIndex (Env.plain.getHash samplePayment) = some txindex ∧
      disk₁.readTx .lp64 samplePayment txindex.pos = some (samplePayment.onto samplePayment) := by
  obtain ⟨disk₁, hwrite⟩ := writeToDisk_emptyDisk .plain sampleBlock
  have hconnect := Lib.eq_ok_final (show (sampleBlock.connectBlock Env.plain writtenFiles
    writtenIndex [sampleGenesis] sampleState).isOk = true by decide)
  obtain ⟨txindex, b, more, hentry, -, -, -, hread⟩ := connectBlock_txPos .lp64 samplePayment
    writtenFiles emptyDisk disk₁ disk₁ sampleBlock writtenIndex [sampleGenesis] [] sampleState _
    sampleBlock_typed hwrite rfl hconnect [sampleCoinbase] samplePayment [] rfl
  exact ⟨disk₁, _, txindex, hentry, hread⟩

end ShinyCoin

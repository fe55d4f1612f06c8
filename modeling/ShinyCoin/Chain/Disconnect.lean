import ShinyCoin.Chain.Replay

/-!
# Disconnecting blocks restores the transaction index

`ConnectBlock` lets a block overwrite an entry whose outputs are all spent, and `DisconnectBlock`
erases the entry then. So what comes back is the index without the hashes of the block
(`forget`): the same index when the block repeats no transaction, and an index with the same
unspent outputs when it does, because a repeated entry had none.

The argument compares the block on the index `m` with the block on `forget m`. Up to the entries
that are still to be overwritten both are the same index (`Forgets`), and no input ever refers to
one of those, since it would have to be unspent.
-/

namespace ShinyCoin

/-! ## Forgetting the hashes of a block -/

/-- The index without the entries of the transactions. -/
def forget (env : Env) (txs : List CTransaction) (m : TxIndexMap) : TxIndexMap :=
  fun h => if h ∈ txs.map env.getHash then none else m h

section

variable {env : Env} {txs : List CTransaction} {m m' : TxIndexMap} {h : Uint256}

theorem forget_of_mem (hmem : h ∈ txs.map env.getHash) : forget env txs m h = none :=
  if_pos hmem

theorem forget_of_notMem (hmem : h ∉ txs.map env.getHash) : forget env txs m h = m h :=
  if_neg hmem

theorem forget_eq_self (hnew : ∀ tx ∈ txs, m (env.getHash tx) = none) : forget env txs m = m := by
  ext1 h
  by_cases hmem : h ∈ txs.map env.getHash
  · obtain ⟨tx, htx, rfl⟩ := List.mem_map.mp hmem
    rw [forget_of_mem hmem, hnew tx htx]
  · exact forget_of_notMem hmem

theorem CleanSlots.forget (hm : CleanSlots m) : CleanSlots (forget env txs m) := by
  intro h txindex hidx
  by_cases hmem : h ∈ txs.map env.getHash
  · rw [forget_of_mem hmem] at hidx
    cases hidx
  · rw [forget_of_notMem hmem] at hidx
    exact hm h txindex hidx

/-- Forgetting entries without an unspent output leaves the unspent outputs as they were. -/
theorem unspent_forget (hspent : ∀ tx ∈ txs, FullySpent m (env.getHash tx)) (o : COutPoint) :
    Unspent (forget env txs m) o ↔ Unspent m o := by
  by_cases hmem : o.hash ∈ txs.map env.getHash
  · obtain ⟨tx, htx, heq⟩ := List.mem_map.mp hmem
    constructor
    · rintro ⟨txindex, pos, hidx, -, -⟩
      rw [forget_of_mem hmem] at hidx
      cases hidx
    · intro ho
      exact absurd heq.symm ((hspent tx htx).ne_hash ho)
  · rw [Unspent, Unspent, forget_of_notMem hmem]

/-! ## The two indices side by side -/

/-- `m'` is `m` without the entries of the transactions still to come, none of which has an unspent
output. -/
structure Forgets (env : Env) (txs : List CTransaction) (m m' : TxIndexMap) : Prop where
  same : ∀ h, h ∉ txs.map env.getHash → m' h = m h
  gone : ∀ h ∈ txs.map env.getHash, m' h = none
  spent : ∀ tx ∈ txs, FullySpent m (env.getHash tx)

theorem forgets_forget (hspent : ∀ tx ∈ txs, FullySpent m (env.getHash tx)) :
    Forgets env txs m (forget env txs m) :=
  ⟨fun _ hmem => forget_of_notMem hmem, fun _ hmem => forget_of_mem hmem, hspent⟩

/-- What is unspent is in both. -/
theorem Forgets.unspent (hF : Forgets env txs m m') {o : COutPoint} (ho : Unspent m o) :
    o.hash ∉ txs.map env.getHash ∧ Unspent m' o := by
  have hmem : o.hash ∉ txs.map env.getHash := by
    intro hmem
    obtain ⟨tx, htx, heq⟩ := List.mem_map.mp hmem
    exact (hF.spent tx htx).ne_hash ho heq.symm
  refine ⟨hmem, ?_⟩
  unfold Unspent
  rw [hF.same _ hmem]
  exact ho

theorem Forgets.spend (hF : Forgets env txs m m') {o : COutPoint} (ho : Unspent m o)
    (pos : CDiskTxPos) : Forgets env txs (spend pos m o) (spend pos m' o) := by
  obtain ⟨hmem, -⟩ := hF.unspent ho
  have hne : ∀ h ∈ txs.map env.getHash, h ≠ o.hash := by
    rintro h hh rfl
    exact hmem hh
  refine ⟨?_, ?_, ?_⟩
  · intro h hh
    rw [spend_apply, spend_apply, hF.same h hh]
  · intro h hh
    rw [spend_of_ne (hne h hh), hF.gone h hh]
  · intro tx htx
    unfold FullySpent
    rw [spend_of_ne (hne _ (List.mem_map_of_mem htx))]
    exact hF.spent tx htx

theorem Forgets.spends {pos : CDiskTxPos} {os : List COutPoint} (hF : Forgets env txs m m')
    (hos : SpendsUnspent pos m os) :
    SpendsUnspent pos m' os ∧
      Forgets env txs (os.foldl (ShinyCoin.spend pos) m) (os.foldl (ShinyCoin.spend pos) m') := by
  induction os generalizing m m' with
  | nil => exact ⟨trivial, hF⟩
  | cons o os ih =>
      obtain ⟨hrest, hF'⟩ := ih (hF.spend hos.1 pos) hos.2
      exact ⟨⟨(hF.unspent hos.1).2, hrest⟩, hF'⟩

/-- After a transaction was applied to both, its own entry is in both. -/
theorem Forgets.applyTx {tx : CTransaction} {pos : CDiskTxPos} (hF : Forgets env (tx :: txs) m m')
    (hnodup : ((tx :: txs).map env.getHash).Nodup)
    (hspend : tx.isCoinBase = false → SpendsUnspent pos m (tx.vin.map CTxIn.prevout)) :
    (tx.isCoinBase = false → SpendsUnspent pos m' (tx.vin.map CTxIn.prevout)) ∧
      Forgets env txs (applyTx env pos m tx) (applyTx env pos m' tx) := by
  have hspent : Forgets env (tx :: txs) (spendInputs pos m tx) (spendInputs pos m' tx) := by
    unfold spendInputs
    split
    · exact hF
    · next hcb => exact (hF.spends (hspend (by simpa using hcb))).2
  rw [List.map_cons, List.nodup_cons] at hnodup
  refine ⟨fun hcb => (hF.spends (hspend hcb)).1, ?_, ?_, ?_⟩
  · intro h hh
    rw [ShinyCoin.applyTx, ShinyCoin.applyTx, Lib.PMap.set_apply, Lib.PMap.set_apply]
    split
    · rfl
    · next hne =>
      apply hspent.same
      rw [List.map_cons, List.mem_cons, not_or]
      exact ⟨hne, hh⟩
  · intro h hh
    have hne : h ≠ env.getHash tx := by
      rintro rfl
      exact hnodup.1 hh
    rw [ShinyCoin.applyTx, Lib.PMap.set_of_ne hne]
    exact hspent.gone h (List.mem_cons_of_mem _ hh)
  · intro tx' htx'
    have hne : env.getHash tx' ≠ env.getHash tx := by
      intro heq
      exact hnodup.1 (heq ▸ List.mem_map_of_mem htx')
    unfold FullySpent
    rw [ShinyCoin.applyTx, Lib.PMap.set_of_ne hne]
    exact hspent.spent tx' (List.mem_cons_of_mem _ htx')

/-- A block that overwrites spent entries makes of the index what it makes of the index without
them. -/
theorem Forgets.applyTxs {pindex : CBlockIndex} {nTxPos : Nat} (hF : Forgets env txs m m')
    (hnodup : (txs.map env.getHash).Nodup) (hspend : TxsSpend env pindex txs nTxPos m) :
    TxsSpend env pindex txs nTxPos m' ∧
      ShinyCoin.applyTxs env pindex txs nTxPos m = ShinyCoin.applyTxs env pindex txs nTxPos m' := by
  induction txs generalizing m m' nTxPos with
  | nil =>
      refine ⟨trivial, ?_⟩
      ext1 h
      exact (hF.same h (by simp)).symm
  | cons tx txs ih =>
      obtain ⟨hfirst, hF'⟩ := hF.applyTx hnodup hspend.1
      obtain ⟨hrest, heq⟩ := ih hF' (List.nodup_cons.mp hnodup).2 hspend.2
      exact ⟨⟨hfirst, hrest⟩, heq⟩

end

/-! ## One block -/

/-- The transactions a node knows are among `known`: those of its wallets, and those its index
points to. -/
structure Knows (files : Files) (known : Uint256 → CTransaction → Prop) (s : NodeState) :
    Prop where
  wallets : ∀ w ∈ s.wallets, WalletTxs known w
  index : ∀ h txindex tx, s.txdb.data.txIndex h = some txindex →
    CTransaction.readTxPrev files s.mempool h txindex = .ok tx → known h tx

/-- The transactions of a block are known where it is connected. -/
theorem Knows.knownAs {files : Files} {known : Uint256 → CTransaction → Prop} {s : NodeState}
    (hK : Knows files known s) {env : Env} {block : CBlock}
    (hblock : ∀ tx ∈ block.vtx, known (env.getHash tx) tx) {h : Uint256} {tx : CTransaction}
    (hk : KnownAs env files s block h tx) : known h tx := by
  rcases hk with ⟨w, hw, wtx, hk, rfl⟩ | ⟨txindex, hidx, hread⟩ | ⟨htx, rfl⟩
  · exact hK.wallets w hw h wtx hk
  · exact hK.index h txindex tx hidx hread
  · exact hblock tx htx

theorem Affordable.mono {known known' : Uint256 → CTransaction → Prop} {tx : CTransaction}
    (htx : Affordable known tx) (hle : ∀ h tx, known h tx → known' h tx) : Affordable known' tx := by
  obtain ⟨value, hsum, hval⟩ := htx
  refine ⟨value, hsum, fun txin htxin => ?_⟩
  obtain ⟨hpos, txPrev, hk, hout⟩ := hval txin htxin
  exact ⟨hpos, txPrev, hle _ _ hk, hout⟩

namespace CBlock

variable {env : Env} {files : Files} {s s' t : NodeState} {block : CBlock} {pindex : CBlockIndex}
  {pprev : BlockPtr} {known : Uint256 → CTransaction → Prop}

/-- A block that was connected has transactions, and its index entry names a file. -/
theorem nFile_ne_of_stored (hstored : block.Stored files pindex)
    (hcheck : CheckedBlock env block) : pindex.nFile ≠ UINT_MAX := by
  obtain ⟨tx, txs, hvtx, -, -⟩ := hcheck.coinbase
  unfold Stored at hstored
  rw [hvtx] at hstored
  obtain ⟨-, hnull, -⟩ := Files.readTx_eq_some.mp hstored.1
  simpa [CDiskTxPos.isNull] using hnull

@[simp] theorem writePrevIndex_txIndex (s : NodeState) (hashNext : Uint256) :
    (writePrevIndex s pprev hashNext).txdb.data.txIndex = s.txdb.data.txIndex := by
  cases pprev <;> rfl

/-- What a node knows after `ConnectBlock`. -/
theorem knows_connectBlock (hK : Knows files known s)
    (hblock : ∀ tx ∈ block.vtx, known (env.getHash tx) tx) (hstored : block.Stored files pindex)
    (h : block.connectBlock env files pindex pprev s = .ok s') : Knows files known s' := by
  obtain ⟨st, nCoinbaseOut, ws, -, hst, -, hsync, rfl⟩ := connectBlock_ok h
  refine ⟨syncConnected_walletTxs hblock hK.wallets hsync, ?_⟩
  intro k txindex tx hidx hread
  have hpool : ({ block.writeConnected pindex pprev st nCoinbaseOut { s with infos := st.infos } with
      wallets := ws } : NodeState).mempool = s.mempool := by
    cases pprev <;> rfl
  have hindex : ({ block.writeConnected pindex pprev st nCoinbaseOut { s with infos := st.infos } with
      wallets := ws } : NodeState).txdb.data.txIndex = st.index s := by
    cases pprev <;> rfl
  rw [hindex] at hidx
  rw [hpool] at hread
  exact hK.knownAs hblock ((connectTxs_valueInv hstored hst).known k txindex tx hidx hread)

/-- An info-free block that was connected is disconnected from any state with the index it left,
and its hashes are forgotten. -/
theorem disconnectBlock_forgets (hno : ∀ tx ∈ block.vtx, tx.NoInfos)
    (hclean : CleanSlots s.txdb.data.txIndex) (hstored : block.Stored files pindex)
    (hK : Knows files known s) (hblock : ∀ tx ∈ block.vtx, known (env.getHash tx) tx)
    (hone : ∀ h tx tx', known h tx → known h tx' → tx = tx')
    (h : block.connectBlock env files pindex pprev s = .ok s')
    (htidx : t.txdb.data.txIndex = s'.txdb.data.txIndex) (htin : t.infos.inTransaction = true)
    (htws : ∀ w ∈ t.wallets, WalletTxs known w) :
    ∃ t', block.disconnectBlock env files pprev t = .ok t' ∧
      t'.txdb.data.txIndex = forget env block.vtx s.txdb.data.txIndex ∧
      t'.infos = t.infos ∧ ∀ w ∈ t'.wallets, WalletTxs known w := by
  obtain ⟨st, nCoinbaseOut, ws, hcheck, hst, -, -, rfl⟩ := connectBlock_ok h
  replace htidx : t.txdb.data.txIndex = st.index s := by
    rw [htidx]
    cases pprev <;> rfl
  obtain ⟨hord, hidx⟩ := connectTxs_order hcheck hst
  obtain ⟨hchecked, hover⟩ := checkConnect_ok hcheck
  have hfile := nFile_ne_of_stored hstored hchecked
  -- the loop runs through
  obtain ⟨t₁, hloop, hinfos, hws⟩ := disconnectTxs_noInfos env files htin hord
    (by rw [htidx]; exact hidx) hno
  -- and goes back to the index the block's hashes were forgotten in
  obtain ⟨happly, hspend⟩ := connectTxs_applyTo hst
  obtain ⟨hspend', heq⟩ := (forgets_forget hover).applyTxs hchecked.nodup hspend
  have hback : t₁.txdb.data.txIndex = forget env block.vtx s.txdb.data.txIndex := by
    apply disconnectTxs_index hfile hclean.forget _ hchecked.nodup hspend' _ hloop
    · intro tx htx
      exact forget_of_mem (List.mem_map_of_mem htx)
    · rw [htidx, happly]
      exact heq
  -- the wallets are told of coinstakes they can afford
  obtain ⟨ws', hws', hknown'⟩ := syncDisconnected_isOk hone htws (fun tx htx hcs =>
    ((connectTxs_valueInv hstored hst).affordable tx htx
      (CTransaction.isCoinBase_of_isCoinStake hcs)).mono fun _ _ => hK.knownAs hblock)
  refine ⟨{ writePrevIndex (t₁.updateDb fun d => { d with vConnected := d.vConnected.tail })
    pprev 0 with wallets := ws' }, ?_, ?_, ?_, hknown'⟩
  · rw [disconnectBlock, hloop]
    show syncDisconnectedTxs block _ = _
    rw [syncDisconnectedTxs, writePrevIndex_wallets]
    rw [show (t₁.updateDb fun d => { d with vConnected := d.vConnected.tail }).wallets = t.wallets
      from hws, hws']
  · show (writePrevIndex _ pprev 0).txdb.data.txIndex = _
    rw [writePrevIndex_txIndex]
    exact hback
  · show (writePrevIndex _ pprev 0).infos = _
    rw [writePrevIndex_infos]
    exact hinfos

/-! ## Several blocks -/

/-- A block with its index entry and the entry before it. -/
structure Placed where
  block : CBlock
  pindex : CBlockIndex
  pprev : BlockPtr

/-- Connect the blocks one after another. -/
def connectBlocks (env : Env) (files : Files) (blocks : List Placed) :
    Lib.Call Err NodeState := fun s =>
  blocks.foldlM (fun s b => b.block.connectBlock env files b.pindex b.pprev s) s

/-- Disconnect them in reverse order. -/
def disconnectBlocks (env : Env) (files : Files) (blocks : List Placed) :
    Lib.Call Err NodeState := fun s =>
  blocks.reverse.foldlM (fun s b => b.block.disconnectBlock env files b.pprev s) s

/-- No transaction of `b` has the hash of one of `b'`. -/
def NoneInCommon (env : Env) (b b' : Placed) : Prop :=
  ∀ tx ∈ b.block.vtx, ∀ tx' ∈ b'.block.vtx, env.getHash tx ≠ env.getHash tx'

/-- The node knows the transaction under this hash: from a wallet, from the index, or from one of
the blocks. -/
def KnownTo (env : Env) (files : Files) (s : NodeState) (blocks : List Placed) (h : Uint256)
    (tx : CTransaction) : Prop :=
  (∃ w ∈ s.wallets, ∃ wtx, w.mapWallet h = some wtx ∧ wtx.tx = tx) ∨
  (∃ txindex, s.txdb.data.txIndex h = some txindex ∧
    CTransaction.readTxPrev files s.mempool h txindex = .ok tx) ∨
  (∃ b ∈ blocks, tx ∈ b.block.vtx ∧ env.getHash tx = h)

theorem knows_knownTo (env : Env) (files : Files) (s : NodeState) (blocks : List Placed) :
    Knows files (KnownTo env files s blocks) s :=
  ⟨fun w hw _ wtx hk => .inl ⟨w, hw, wtx, hk, rfl⟩,
    fun _ txindex _ hidx hread => .inr (.inl ⟨txindex, hidx, hread⟩)⟩

/-- The run back follows the run forward from its end, block by block; only the wallets may differ
on the way. -/
theorem disconnectBlocks_follow {blocks : List Placed}
    (hno : ∀ b ∈ blocks, ∀ tx ∈ b.block.vtx, tx.NoInfos)
    (hstored : ∀ b ∈ blocks, b.block.Stored files b.pindex)
    (hblocks : ∀ b ∈ blocks, ∀ tx ∈ b.block.vtx, known (env.getHash tx) tx)
    (hone : ∀ h tx tx', known h tx → known h tx' → tx = tx')
    (hpair : blocks.Pairwise (NoneInCommon env))
    (hnew : ∀ b ∈ blocks, ∀ tx ∈ b.block.vtx, s.txdb.data.txIndex (env.getHash tx) = none)
    (hclean : CleanSlots s.txdb.data.txIndex) (hK : Knows files known s)
    (h : connectBlocks env files blocks s = .ok s')
    (htidx : t.txdb.data.txIndex = s'.txdb.data.txIndex) (htin : t.infos.inTransaction = true)
    (htws : ∀ w ∈ t.wallets, WalletTxs known w) :
    ∃ t', disconnectBlocks env files blocks t = .ok t' ∧
      t'.txdb.data.txIndex = s.txdb.data.txIndex ∧ t'.infos = t.infos ∧
      ∀ w ∈ t'.wallets, WalletTxs known w := by
  induction blocks generalizing s with
  | nil =>
      cases h
      exact ⟨t, rfl, htidx, rfl, htws⟩
  | cons b blocks ih =>
      obtain ⟨s₁, h₁, h⟩ := Lib.bind_eq_ok.mp h
      obtain ⟨hb, hpair⟩ := List.pairwise_cons.mp hpair
      have hmem : ∀ {b'}, b' ∈ blocks → b' ∈ b :: blocks := List.mem_cons_of_mem _
      -- what the first block leaves to the others
      obtain ⟨st, nCoinbaseOut, ws, hcheck, -, -, -, -⟩ := connectBlock_ok h₁
      have hidx₁ := connectBlock_txIndex h₁
      have hfile := nFile_ne_of_stored (hstored b List.mem_cons_self) (checkConnect_ok hcheck).1
      obtain ⟨t₁, ht₁, hidx, hinfos, hws⟩ := ih (fun b' hb' => hno b' (hmem hb'))
        (fun b' hb' => hstored b' (hmem hb')) (fun b' hb' => hblocks b' (hmem hb')) hpair
        (by
          intro b' hb' tx htx
          rw [hidx₁]
          apply applyTxs_eq_none (hnew b' (hmem hb') tx htx)
          intro tx' htx'
          exact hb b' hb' tx' htx' tx htx)
        (by
          rw [hidx₁]
          exact cleanSlots_applyTxs hfile hclean)
        (knows_connectBlock hK (hblocks b List.mem_cons_self) (hstored b List.mem_cons_self) h₁) h
      -- and then the first block itself
      obtain ⟨t₂, ht₂, hback, hinfos₂, hws₂⟩ := disconnectBlock_forgets
        (hno b List.mem_cons_self) hclean (hstored b List.mem_cons_self) hK
        (hblocks b List.mem_cons_self) hone h₁ hidx (by rw [hinfos]; exact htin) hws
      refine ⟨t₂, ?_, ?_, hinfos₂.trans hinfos, hws₂⟩
      · unfold disconnectBlocks at ht₁ ⊢
        rw [List.reverse_cons, List.foldlM_append, ht₁]
        show List.foldlM (fun s (b : Placed) => b.block.disconnectBlock env files b.pprev s) t₁ [b]
          = .ok t₂
        rw [List.foldlM_cons, ht₂]
        rfl
      · rw [hback]
        exact forget_eq_self (hnew b List.mem_cons_self)

/-- `ConnectBlock` leaves the infos in the transaction they are in. -/
theorem connectBlocks_inTransaction {blocks : List Placed}
    (hno : ∀ b ∈ blocks, ∀ tx ∈ b.block.vtx, tx.NoInfos) (hopen : s.infos.inTransaction = true)
    (h : connectBlocks env files blocks s = .ok s') : s'.infos.inTransaction = true := by
  have := Lib.foldlM_ok_inv
    (fun rest (s : NodeState) => (∀ b ∈ rest, ∀ tx ∈ b.block.vtx, tx.NoInfos) ∧
      s.infos.inTransaction = true)
    (fun (b : Placed) rest s s' hI hstep => by
      obtain ⟨hno, hopen⟩ := hI
      refine ⟨fun b' hb' => hno b' (List.mem_cons_of_mem _ hb'), ?_⟩
      obtain ⟨st, nCoinbaseOut, ws, -, hst, -, -, rfl⟩ := connectBlock_ok hstep
      show (writeConnected _ _ _ _ _ _).infos.inTransaction = true
      simp only [writeConnected, writePrevIndex_infos, NodeState.updateDb]
      rw [connectTxs_noInfos hopen (hno b List.mem_cons_self) hst]
      exact hopen)
    ⟨hno, hopen⟩ h
  exact this.2

/-- Blocks without infos, connected one after another on any index: if no transaction of theirs was
indexed when its block was connected, disconnecting them in reverse order succeeds and brings the
index back. A single block may also repeat transactions, as far as the BIP30 check lets it: then
the unspent outputs come back. -/
theorem disconnect_restores_index (env : Env) (files : Files) (blocks : List Placed)
    (s s' : NodeState) (hopen : s.infos.inTransaction = true)
    (hclean : CleanSlots s.txdb.data.txIndex)
    (hno : ∀ b ∈ blocks, ∀ tx ∈ b.block.vtx, ∀ txin ∈ tx.vin, txin.infos = [])
    (hstored : ∀ b ∈ blocks, b.block.Stored files b.pindex)
    (hfree : ∀ h tx tx', KnownTo env files s blocks h tx → KnownTo env files s blocks h tx' →
      tx = tx')
    (h : connectBlocks env files blocks s = .ok s') :
    (blocks.Pairwise (NoneInCommon env) →
      (∀ b ∈ blocks, ∀ tx ∈ b.block.vtx, s.txdb.data.txIndex (env.getHash tx) = none) →
      ∃ s'', disconnectBlocks env files blocks s' = .ok s'' ∧
        s''.txdb.data.txIndex = s.txdb.data.txIndex) ∧
    (blocks.length = 1 →
      ∃ s'', disconnectBlocks env files blocks s' = .ok s'' ∧
        ∀ o, Unspent s''.txdb.data.txIndex o ↔ Unspent s.txdb.data.txIndex o) := by
  have hK := knows_knownTo env files s blocks
  have hblocks : ∀ b ∈ blocks, ∀ tx ∈ b.block.vtx,
      KnownTo env files s blocks (env.getHash tx) tx :=
    fun b hb tx htx => .inr (.inr ⟨b, hb, htx, rfl⟩)
  have hin : s'.infos.inTransaction = true := connectBlocks_inTransaction hno hopen h
  constructor
  · intro hpair hnew
    have hK' : Knows files (KnownTo env files s blocks) s' := by
      refine (Lib.foldlM_ok_inv (fun rest (s₁ : NodeState) => (∀ b ∈ rest, b ∈ blocks) ∧
        Knows files (KnownTo env files s blocks) s₁) ?_ ⟨fun b hb => hb, hK⟩ h).2
      rintro b rest s₁ s₂ ⟨hrest, hK₁⟩ hstep
      have hb := hrest b List.mem_cons_self
      exact ⟨fun b' hb' => hrest b' (List.mem_cons_of_mem _ hb'),
        knows_connectBlock hK₁ (hblocks b hb) (hstored b hb) hstep⟩
    obtain ⟨s'', hs'', hidx, -, -⟩ := disconnectBlocks_follow hno hstored hblocks hfree hpair hnew
      hclean hK h rfl hin hK'.wallets
    exact ⟨s'', hs'', hidx⟩
  · intro hlen
    obtain ⟨b, rfl⟩ := List.length_eq_one_iff.mp hlen
    have hb : b ∈ [b] := List.mem_singleton_self b
    replace h : b.block.connectBlock env files b.pindex b.pprev s = .ok s' := by
      obtain ⟨s₁, h₁, h⟩ := Lib.bind_eq_ok.mp h
      cases h
      exact h₁
    obtain ⟨st, nCoinbaseOut, ws, hcheck, -⟩ := connectBlock_ok h
    obtain ⟨s'', hs'', hidx, -, -⟩ := disconnectBlock_forgets (hno b hb) hclean (hstored b hb) hK
      (hblocks b hb) hfree h rfl hin
      (knows_connectBlock hK (hblocks b hb) (hstored b hb) h).wallets
    refine ⟨s'', ?_, ?_⟩
    · unfold disconnectBlocks
      rw [List.reverse_singleton, List.foldlM_cons, hs'']
      rfl
    · intro o
      rw [hidx]
      exact unspent_forget (checkConnect_ok hcheck).2 o

/-! ### A block that repeats a spent coinbase -/

/-- The coinbase of `sampleBlock` once more, after its output was spent there. -/
def repeatBlock : CBlock := { nTime := 2, nNonce := 2, vtx := [sampleCoinbase] }

def repeatIndex : CBlockIndex :=
  { hashBlock := 3, nFile := 1, nBlockPos := 1000, nHeight := 2, nPoWHeight := 2 }

def repeatFiles : Files where
  block _ _ := none
  tx pos := if pos = ⟨1, 1000, 1081⟩ then some sampleCoinbase else sampleFiles.tx pos

/-- The node once it has connected `sampleBlock`. -/
def repeatState : NodeState :=
  Lib.final (sampleBlock.connectBlock Env.plain repeatFiles sampleIndex [sampleGenesis] sampleState)

theorem repeatState_eq : sampleBlock.connectBlock Env.plain repeatFiles sampleIndex [sampleGenesis]
    sampleState = .ok repeatState :=
  Lib.eq_ok_final (by decide)

/-- The index after `sampleBlock` has its two transactions and nothing else. -/
theorem repeatState_index : repeatState.txdb.data.txIndex
    = sampleBlock.applyTo Env.plain sampleIndex Lib.PMap.empty := by
  rw [connectBlock_txIndex repeatState_eq, show sampleState.txdb.data.txIndex = Lib.PMap.empty from rfl]

theorem repeatState_known {h : Uint256} {tx : CTransaction}
    (hk : KnownTo Env.plain repeatFiles repeatState
      [⟨repeatBlock, repeatIndex, [sampleIndex, sampleGenesis]⟩] h tx) :
    (h = 1 ∧ tx = sampleCoinbase) ∨ (h = 2 ∧ tx = samplePayment) := by
  rcases hk with ⟨w, hw, -⟩ | ⟨txindex, hidx, hread⟩ | ⟨b, hb, htx, rfl⟩
  · cases hw
  · rw [repeatState_index] at hidx
    have hh : h = 1 ∨ h = 2 := by
      by_contra hne
      rw [not_or] at hne
      rw [CBlock.applyTo, applyTxs_eq_none rfl (by
        intro tx' htx'
        simp only [sampleBlock, List.mem_cons, List.not_mem_nil, or_false] at htx'
        rcases htx' with rfl | rfl
        · exact Ne.symm hne.1
        · exact Ne.symm hne.2)] at hidx
      cases hidx
    rcases hh with rfl | rfl
    · obtain rfl : CTxIndex.mk ⟨1, 0, 81⟩ [⟨1, 0, 150⟩] = txindex :=
        Option.some.inj ((show _ = some _ by decide).symm.trans hidx)
      exact .inl ⟨rfl, (Except.ok.inj ((show _ = Except.ok sampleCoinbase by decide).symm.trans
        hread)).symm⟩
    · obtain rfl : CTxIndex.mk ⟨1, 0, 150⟩ [CDiskTxPos.null] = txindex :=
        Option.some.inj ((show _ = some _ by decide).symm.trans hidx)
      exact .inr ⟨rfl, (Except.ok.inj ((show _ = Except.ok samplePayment by decide).symm.trans
        hread)).symm⟩
  · simp only [List.mem_singleton] at hb
    subst hb
    simp only [repeatBlock, List.mem_singleton] at htx
    exact .inl ⟨by rw [htx]; rfl, htx⟩

/-- `sampleBlock` on an empty index, and the block that repeats its coinbase after it. -/
theorem disconnect_restores_index_repeatBlock :
    (∃ s', connectBlocks Env.plain repeatFiles [⟨sampleBlock, sampleIndex, [sampleGenesis]⟩]
        sampleState = .ok s' ∧
      ∃ s'', disconnectBlocks Env.plain repeatFiles [⟨sampleBlock, sampleIndex, [sampleGenesis]⟩] s'
          = .ok s'' ∧ s''.txdb.data.txIndex = Lib.PMap.empty) ∧
    ∃ s', connectBlocks Env.plain repeatFiles
        [⟨repeatBlock, repeatIndex, [sampleIndex, sampleGenesis]⟩] repeatState = .ok s' ∧
      ∃ s'', disconnectBlocks Env.plain repeatFiles
          [⟨repeatBlock, repeatIndex, [sampleIndex, sampleGenesis]⟩] s' = .ok s'' ∧
        ∀ o, Unspent s''.txdb.data.txIndex o ↔ Unspent repeatState.txdb.data.txIndex o := by
  constructor
  · have hconn := Lib.eq_ok_final (show (connectBlocks Env.plain repeatFiles
      [⟨sampleBlock, sampleIndex, [sampleGenesis]⟩] sampleState).isOk = true by decide)
    refine ⟨_, hconn, (disconnect_restores_index Env.plain repeatFiles _ sampleState _ rfl ?_ ?_ ?_ ?_
      hconn).1 (List.pairwise_singleton _ _) ?_⟩
    · intro h txindex hidx
      cases hidx
    · simp [sampleBlock, sampleCoinbase, samplePayment]
    · intro b hb
      rw [List.mem_singleton.mp hb]
      exact ⟨by decide, by decide, trivial⟩
    · intro h tx tx' htx htx'
      have hblock : ∀ {h tx}, KnownTo Env.plain repeatFiles sampleState
          [⟨sampleBlock, sampleIndex, [sampleGenesis]⟩] h tx →
          tx ∈ sampleBlock.vtx ∧ Env.plain.getHash tx = h := by
        rintro h tx (⟨w, hw, -⟩ | ⟨txindex, hx, -⟩ | ⟨b, hb, hx⟩)
        · cases hw
        · cases hx
        · rw [List.mem_singleton.mp hb] at hx
          exact hx
      obtain ⟨hmem, rfl⟩ := hblock htx
      obtain ⟨hmem', hhash⟩ := hblock htx'
      simp only [sampleBlock, List.mem_cons, List.not_mem_nil, or_false] at hmem hmem'
      rcases hmem with rfl | rfl <;> rcases hmem' with rfl | rfl <;> first
        | rfl
        | exact absurd hhash (by decide)
    · intro b hb tx htx
      rfl
  · have hconn := Lib.eq_ok_final (show (connectBlocks Env.plain repeatFiles
      [⟨repeatBlock, repeatIndex, [sampleIndex, sampleGenesis]⟩] repeatState).isOk = true by
        decide +kernel)
    refine ⟨_, hconn, (disconnect_restores_index Env.plain repeatFiles _ repeatState _ (by decide) ?_
      ?_ ?_ ?_ hconn).2 rfl⟩
    · rw [repeatState_index]
      exact cleanSlots_applyTxs (by decide) (by intro h txindex hidx; cases hidx)
    · simp [repeatBlock, sampleCoinbase]
    · intro b hb
      rw [List.mem_singleton.mp hb]
      exact ⟨by decide, trivial⟩
    · intro h tx tx' htx htx'
      rcases repeatState_known htx with ⟨rfl, rfl⟩ | ⟨rfl, rfl⟩ <;>
        rcases repeatState_known htx' with ⟨hh, rfl⟩ | ⟨hh, rfl⟩ <;> first
        | rfl
        | exact absurd hh (by decide)

end CBlock

end ShinyCoin

import ShinyCoin.Chain.Tree

/-!
# Switching the best chain

What `Reorganize` and `SetBestChain` do, call by call. A ledger invariant speaks of the connected
blocks, the transaction index and the info rows; if connecting and disconnecting one block keep it,
a switch of branch keeps it (`reorganize_ok`), and a call that fails leaves the databases as it
found them (`setBestChain_error`).
-/

namespace ShinyCoin

/-! ## The ledger -/

/-- A statement about the connected blocks, the transaction index and the rows of the store. -/
abbrev LedgerInv := List (CBlock × BlockPtr) → TxIndexMap → Lib.Table TxDbEntry → Prop

def LedgerInv.Holds (I : LedgerInv) (s : NodeState) : Prop :=
  I s.txdb.data.vConnected s.txdb.data.txIndex s.infos.db

/-- Connecting a block keeps the invariant, and so does disconnecting one that meets `OffOk`. -/
structure Kept (env : Env) (full : Files) (OffOk : CBlock → List (CBlock × BlockPtr) → Prop)
    (I : LedgerInv) : Prop where
  connect : ∀ {files : Files} {block : CBlock} {pindex : CBlockIndex} {pprev : BlockPtr}
    {s s' : NodeState}, files.PartOf full → pindex.nFile ≠ UINT_MAX →
    s.infos.inTransaction = true → I.Holds s →
    block.connectBlock env files pindex pprev s = .ok s' → I.Holds s'
  disconnect : ∀ {files : Files} {block : CBlock} {pindex : CBlockIndex} {pprev : BlockPtr}
    {rest : List (CBlock × BlockPtr)} {s s' : NodeState}, files.PartOf full →
    s.txdb.data.vConnected = (block, pindex :: pprev) :: rest → OffOk block rest → I.Holds s →
    block.disconnectBlock env files pprev s = .ok s' → I.Holds s'

/-- The connected blocks are those from the tip down to the genesis block, as they are on disk. -/
structure OnChain (full : Files) (d : TxDbData) (tip : BlockPtr) : Prop where
  path : d.vConnected.map Prod.snd = BlockPtr.above tip
  onDisk : ∀ x ∈ d.vConnected, BlockAt full x.2 x.1

theorem CBlock.connectBlock_vConnected {env : Env} {files : Files} {block : CBlock}
    {pindex : CBlockIndex} {pprev : BlockPtr} {s s' : NodeState}
    (h : block.connectBlock env files pindex pprev s = .ok s') :
    s'.txdb.data.vConnected = (block, pindex :: pprev) :: s.txdb.data.vConnected := by
  obtain ⟨st, nCoinbaseOut, ws, -, -, -, -, rfl⟩ := connectBlock_ok h
  cases pprev <;> rfl

theorem CBlock.disconnectTxs_vConnected {env : Env} {files : Files} {txs : List CTransaction}
    {s s' : NodeState} (h : txs.foldlM (disconnectTx env files) s = .ok s') :
    s'.txdb.data.vConnected = s.txdb.data.vConnected := by
  refine Lib.foldlM_ok_inv
    (fun _ s₁ => s₁.txdb.data.vConnected = s.txdb.data.vConnected) ?_ rfl h
  intro tx _ s₁ s₂ hI hstep
  obtain ⟨m, infos, -, -, rfl⟩ := disconnectTx_ok hstep
  exact hI

/-- What `DisconnectBlock` leaves: one block less, and the index and the store of its loop. -/
theorem CBlock.disconnectBlock_ledger {env : Env} {files : Files} {block : CBlock}
    {pprev : BlockPtr} {s s' : NodeState} (h : block.disconnectBlock env files pprev s = .ok s') :
    ∃ s₁, block.vtx.reverse.foldlM (disconnectTx env files) s = .ok s₁ ∧
      s'.txdb.data.vConnected = s.txdb.data.vConnected.tail ∧
      s'.txdb.data.txIndex = s₁.txdb.data.txIndex ∧ s'.infos = s₁.infos := by
  obtain ⟨s₁, ws, h₁, -, rfl⟩ := disconnectBlock_ok h
  refine ⟨s₁, h₁, ?_, ?_, ?_⟩
  · rw [← disconnectTxs_vConnected h₁]
    cases pprev <;> rfl
  · cases pprev <;> rfl
  · cases pprev <;> rfl

/-! ## The loops of Reorganize -/

section

variable {env : Env} {files full : Files} {OffOk : CBlock → List (CBlock × BlockPtr) → Prop}
  {I : LedgerInv}

/-- A state inside a switch that started from `s₀`, when `tip` is the last connected block. -/
structure Between (full : Files) (I : LedgerInv) (s₀ : NodeState) (tip : BlockPtr)
    (s : NodeState) : Prop where
  memory : SameMemory s₀ s
  chain : OnChain full s.txdb.data tip
  ledger : I.Holds s

/-- A round of the first loop takes the tip off. -/
theorem Between.reorgDisconnect (hI : Kept env full OffOk I) (hfiles : files.PartOf full)
    {s₀ : NodeState} {p : CBlockIndex} {pprev : BlockPtr} {st st' : ReorgState}
    (h : Between full I s₀ (p :: pprev) st.1) (hne : pprev ≠ [])
    (hoff : ∀ x rest, st.1.txdb.data.vConnected = x :: rest → OffOk x.1 rest)
    (hstep : ShinyCoin.reorgDisconnect env files st (p :: pprev) = .ok st') :
    Between full I s₀ pprev st'.1 ∧
      st'.1.txdb.data.vConnected = st.1.txdb.data.vConnected.tail := by
  rw [ShinyCoin.reorgDisconnect] at hstep
  split at hstep
  · cases hstep
  · next block hread =>
    split at hstep
    · cases hstep
    · next s' hdis =>
      cases hstep
      have hpath := h.chain.path
      rw [BlockPtr.above_cons hne] at hpath
      obtain ⟨x, rest, hcons, hx, hrest⟩ := List.map_eq_cons_iff.mp hpath
      obtain ⟨b, ptr⟩ := x
      have hptr : ptr = p :: pprev := hx
      subst hptr
      -- the block that was read is the one that was connected
      have hb : block = b := (hfiles.readBlock hread).1.unique
        (h.chain.onDisk (b, p :: pprev) (by rw [hcons]; exact List.mem_cons_self))
      subst hb
      obtain ⟨s₁, -, hv, -, -⟩ := CBlock.disconnectBlock_ledger hdis
      refine ⟨⟨?_, ⟨?_, ?_⟩, ?_⟩, hv⟩
      · have := CBlock.disconnectBlock_sameMemory env files block (p :: pprev).tail st.1
        rw [hdis] at this
        exact h.memory.trans this
      · rw [hv, hcons]
        exact hrest
      · intro y hy
        rw [hv] at hy
        exact h.chain.onDisk y (List.mem_of_mem_tail hy)
      · exact hI.disconnect hfiles hcons (hoff _ _ hcons) h.ledger hdis

/-- The first loop goes back to the fork. -/
theorem Between.reorgDisconnects (hI : Kept env full OffOk I) (hfiles : files.PartOf full)
    {s₀ : NodeState} {pfork tip : BlockPtr} (hsuf : pfork <:+ tip) (hfork : pfork ≠ [])
    {st st' : ReorgState} (h : Between full I s₀ tip st.1)
    (hoff : ∀ before x rest, st.1.txdb.data.vConnected = before ++ x :: rest →
      x.2 ∈ backTo pfork tip → OffOk x.1 rest)
    (hloop : (backTo pfork tip).foldlM (ShinyCoin.reorgDisconnect env files) st = .ok st') :
    Between full I s₀ pfork st'.1 := by
  induction tip generalizing st with
  | nil => exact absurd (List.suffix_nil.mp hsuf) hfork
  | cons p pprev ih =>
      rw [backTo] at hloop hoff
      split at hloop
      · next heq =>
        cases hloop
        rw [← heq]
        exact h
      · next hne =>
        obtain ⟨hsuf', hpp⟩ := suffix_pprev hfork hsuf hne
        rw [if_neg hne] at hoff
        obtain ⟨st₁, h₁, hloop⟩ := Lib.bind_eq_ok.mp hloop
        obtain ⟨hmid, hv⟩ := h.reorgDisconnect hI hfiles hpp
          (fun x rest hx => hoff [] x rest hx (by
            have hpath := h.chain.path
            rw [hx, BlockPtr.above_cons hpp, List.map_cons] at hpath
            rw [(List.cons.inj hpath).1]
            exact List.mem_cons_self)) h₁
        refine ih hsuf' hmid ?_ hloop
        intro before x rest hx hmem
        cases hcons : st.1.txdb.data.vConnected with
        | nil =>
            rw [hv, hcons] at hx
            cases before <;> cases hx
        | cons y ys =>
            rw [hv, hcons, List.tail_cons] at hx
            exact hoff (y :: before) x rest (by rw [hcons, hx]; rfl) (List.mem_cons_of_mem _ hmem)

theorem OnChain.connect {s s' : NodeState} {block : CBlock} {p : CBlockIndex} {pprev : BlockPtr}
    (h : OnChain full s.txdb.data pprev) (hne : pprev ≠ []) (hblock : BlockAt full (p :: pprev) block)
    (hconn : block.connectBlock env files p pprev s = .ok s') :
    OnChain full s'.txdb.data (p :: pprev) := by
  have hv := CBlock.connectBlock_vConnected hconn
  refine ⟨?_, ?_⟩
  · rw [hv, BlockPtr.above_cons hne, List.map_cons, h.path]
  · intro x hx
    rw [hv] at hx
    rcases List.mem_cons.mp hx with rfl | hx
    · exact hblock
    · exact h.onDisk x hx

/-- `ConnectBlock` puts a block on top. -/
theorem Between.connectBlock (hI : Kept env full OffOk I) (hfiles : files.PartOf full)
    {s₀ s s' : NodeState} {block : CBlock} {p : CBlockIndex} {pprev : BlockPtr}
    (h : Between full I s₀ pprev s) (hne : pprev ≠ []) (hin : s₀.infos.inTransaction = true)
    (hblock : BlockAt full (p :: pprev) block)
    (hconn : block.connectBlock env files p pprev s = .ok s') :
    Between full I s₀ (p :: pprev) s' := by
  have hmem := CBlock.connectBlock_sameMemory env files block p pprev s
  rw [hconn] at hmem
  have hfile : p.nFile ≠ UINT_MAX := by
    obtain ⟨p', pprev', heq, hfile, -⟩ := hblock
    cases heq
    exact hfile
  exact ⟨h.memory.trans hmem, h.chain.connect hne hblock hconn,
    hI.connect hfiles hfile (by rw [h.memory.inTransaction]; exact hin) h.ledger hconn⟩

theorem Between.reorgConnect (hI : Kept env full OffOk I) (hfiles : files.PartOf full)
    {s₀ : NodeState} {p : CBlockIndex} {pprev : BlockPtr} {st st' : ReorgState}
    (h : Between full I s₀ pprev st.1) (hne : pprev ≠ []) (hin : s₀.infos.inTransaction = true)
    (hstep : ShinyCoin.reorgConnect env files st (p :: pprev) = .ok st') :
    Between full I s₀ (p :: pprev) st'.1 := by
  rw [ShinyCoin.reorgConnect] at hstep
  split at hstep
  · cases hstep
  · next block hread =>
    split at hstep
    · cases hstep
    · next s' hconn =>
      cases hstep
      exact h.connectBlock hI hfiles hne hin (hfiles.readBlock hread).1 hconn

/-- The second loop goes up from the fork. -/
theorem Between.reorgConnects (hI : Kept env full OffOk I) (hfiles : files.PartOf full)
    {s₀ : NodeState} {pfork tip : BlockPtr} (hsuf : pfork <:+ tip) (hfork : pfork ≠ [])
    (hin : s₀.infos.inTransaction = true) (st : ReorgState) {st' : ReorgState}
    (h : Between full I s₀ pfork st.1)
    (hloop : (backTo pfork tip).reverse.foldlM (ShinyCoin.reorgConnect env files) st = .ok st') :
    Between full I s₀ tip st'.1 := by
  induction tip generalizing st' with
  | nil => exact absurd (List.suffix_nil.mp hsuf) hfork
  | cons p pprev ih =>
      rw [backTo] at hloop
      split at hloop
      · next heq =>
        cases hloop
        rw [heq]
        exact h
      · next hne =>
        obtain ⟨hsuf', hpp⟩ := suffix_pprev hfork hsuf hne
        rw [List.reverse_cons, List.foldlM_append] at hloop
        obtain ⟨st₁, h₁, hloop⟩ := Lib.bind_eq_ok.mp hloop
        obtain ⟨st₂, h₂, hloop⟩ := Lib.bind_eq_ok.mp hloop
        cases hloop
        exact (ih hsuf' h₁).reorgConnect hI hfiles hpp hin h₂

/-! ## A switch that succeeds -/

/-- The state after a switch that started from `s₀`: `tip` is connected and committed, and the
info transaction is still open. -/
structure Switched (full : Files) (I : LedgerInv) (s₀ : NodeState) (tip : BlockPtr)
    (s : NodeState) : Prop where
  mapBlockIndex : s.mapBlockIndex = s₀.mapBlockIndex
  pindexGenesisBlock : s.pindexGenesisBlock = s₀.pindexGenesisBlock
  vTxn : s.txdb.vTxn = []
  curTransaction : s.infos.curTransaction = s₀.infos.curTransaction
  chain : OnChain full s.txdb.data tip
  hashBestChain : s.txdb.data.hashBestChain = BlockPtr.hash tip
  next : NextInv s.pnext tip
  ledger : I.Holds s

/-- Where a switch may start: `tip` is connected, and a transaction is open in both databases. -/
structure Ready (full : Files) (I : LedgerInv) (tip : BlockPtr) (s : NodeState) : Prop where
  chain : OnChain full s.txdb.data tip
  next : NextInv s.pnext tip
  vTxn : ∃ d, s.txdb.vTxn = [d]
  inTransaction : s.infos.inTransaction = true
  ledger : I.Holds s

theorem Ready.between {s : NodeState} {tip : BlockPtr} (h : Ready full I tip s) :
    Between full I s tip s :=
  ⟨SameMemory.refl s, h.chain, h.ledger⟩

theorem reorganize_ok (hI : Kept env full OffOk I) (hfiles : files.PartOf full)
    {s s' : NodeState} {pindexNew : BlockPtr} (h : Ready full I s.pindexBest s)
    (hbest : InTree s.mapBlockIndex s.pindexBest) (hnew : InTree s.mapBlockIndex pindexNew)
    (hheights : Heights s.pindexBest) (hheights' : Heights pindexNew)
    (hoff : ∀ before x rest, s.txdb.data.vConnected = before ++ x :: rest →
      ¬ x.2 <:+ pindexNew → OffOk x.1 rest)
    (hre : reorganize env files pindexNew s = .ok s') : Switched full I s pindexNew s' := by
  rw [reorganize] at hre
  obtain ⟨pfork, hfork, hre⟩ := Lib.bind_eq_ok.mp hre
  rw [Lib.mapError_eq_ok] at hfork
  obtain ⟨-, hre⟩ := Lib.seq_eq_ok.mp hre
  obtain ⟨st₁, h₁, hre⟩ := Lib.bind_eq_ok.mp hre
  obtain ⟨st₂, h₂, hre⟩ := Lib.bind_eq_ok.mp hre
  obtain ⟨hne, hsuf, hsuf'⟩ := findFork_ok hfork
  have hmid₁ := Between.reorgDisconnects hI hfiles hsuf hne h.between
    (fun before x rest hx hmem => hoff before x rest hx
      (backTo_findFork hheights hheights' hfork hmem)) h₁
  have hmid₂ := Between.reorgConnects hI hfiles hsuf' hne h.inTransaction (st₁.1, []) hmid₁ h₂
  obtain ⟨d, hd⟩ := h.vTxn
  have hvTxn : st₂.1.txdb.vTxn = [d] := hmid₂.memory.vTxn.trans hd
  simp only [CTxDB.txnCommit, NodeState.writeHashBestChain, NodeState.updateDb, hvTxn] at hre
  cases hre
  refine ⟨hmid₂.memory.mapBlockIndex, hmid₂.memory.pindexGenesisBlock, rfl,
    hmid₂.memory.curTransaction, ⟨hmid₂.chain.path, hmid₂.chain.onDisk⟩, rfl, ?_, hmid₂.ledger⟩
  have hnext := (NextInv.unlinks hsuf hne h.next hbest).links hsuf' hne hnew
  rw [← hmid₂.memory.pnext] at hnext
  exact hnext

/-- A `SetBestChainInner` that returns: the block connects, the view is committed, and the block is
linked to its parent. -/
theorem CBlock.setBestChainInner_eq_ok {env : Env} {files : Files} {block : CBlock} {p : CBlockIndex}
    {pprev : BlockPtr} {s s' : NodeState} {d : TxDbData} (hd : s.txdb.vTxn = [d])
    (h : block.setBestChainInner env files p pprev s = .ok s') :
    ∃ s₁, block.connectBlock env files p pprev s = .ok s₁ ∧ SameMemory s s₁ ∧ pprev ≠ [] ∧
      s' = { s₁ with
        txdb := ⟨{ s₁.txdb.data with hashBestChain := env.getIDHash block.toCBlockHeader }, []⟩
        pnext := link s₁.pnext (p :: pprev)
        mempool := block.vtx.foldl (CTxMemPool.remove env) s₁.mempool } := by
  have hmem := connectBlock_sameMemory env files block p pprev s
  rw [setBestChainInner] at h
  split at h
  · cases h
  · next s₁ hconn =>
    rw [hconn] at hmem
    have hvTxn : s₁.txdb.vTxn = [d] := (SameMemory.vTxn hmem).trans hd
    simp only [attach, CTxDB.txnCommit, NodeState.writeHashBestChain, NodeState.updateDb, hvTxn] at h
    split at h
    · cases h
    · cases h
      exact ⟨s₁, hconn, hmem, List.cons_ne_nil _ _, rfl⟩

/-- One that fails: the block does not connect, or it has no parent. -/
theorem CBlock.setBestChainInner_eq_error {env : Env} {files : Files} {block : CBlock}
    {p : CBlockIndex} {pprev : BlockPtr} {s s' : NodeState} {e : Err} {d : TxDbData}
    (hd : s.txdb.vTxn = [d]) (h : block.setBestChainInner env files p pprev s = .error (e, s')) :
    (∃ e' s₁, block.connectBlock env files p pprev s = .error (e', s₁) ∧ SameMemory s s₁ ∧
      e = e'.logged "" ∧ s' = s₁.rejectAfter e' p) ∨ pprev = [] ∧ e.isFalse = false := by
  have hmem := connectBlock_sameMemory env files block p pprev s
  rw [setBestChainInner] at h
  split at h
  · next e' s₁ hconn =>
    cases h
    rw [hconn] at hmem
    exact .inl ⟨e', s₁, hconn, hmem, rfl, rfl⟩
  · next s₁ hconn =>
    rw [hconn] at hmem
    have hvTxn : s₁.txdb.vTxn = [d] := (SameMemory.vTxn hmem).trans hd
    simp only [attach, CTxDB.txnCommit, NodeState.writeHashBestChain, NodeState.updateDb, hvTxn] at h
    split at h
    · cases h
      exact .inr ⟨rfl, rfl⟩
    · cases h

/-- `SetBestChainInner` puts a block on top of the tip. -/
theorem setBestChainInner_ok (hI : Kept env full OffOk I) (hfiles : files.PartOf full)
    {s s' : NodeState} {block : CBlock} {p : CBlockIndex} {pprev : BlockPtr}
    (h : Ready full I pprev s) (hT : InTree s.mapBlockIndex (p :: pprev)) (hne : pprev ≠ [])
    (hblock : BlockAt full (p :: pprev) block)
    (hhash : env.getIDHash block.toCBlockHeader = p.hashBlock)
    (hinner : block.setBestChainInner env files p pprev s = .ok s') :
    Switched full I s (p :: pprev) s' := by
  obtain ⟨d, hd⟩ := h.vTxn
  obtain ⟨s₁, hconn, -, -, rfl⟩ := CBlock.setBestChainInner_eq_ok hd hinner
  have hmid := h.between.connectBlock hI hfiles hne h.inTransaction hblock hconn
  refine ⟨hmid.memory.mapBlockIndex, hmid.memory.pindexGenesisBlock, rfl,
    hmid.memory.curTransaction, ⟨hmid.chain.path, hmid.chain.onDisk⟩, hhash, ?_, hmid.ledger⟩
  have hnext := h.next.link hT hne
  rw [← hmid.memory.pnext] at hnext
  exact hnext

/-- A postponed block in a transaction of its own. -/
theorem Switched.connectPostponed (hI : Kept env full OffOk I) (hfiles : files.PartOf full)
    {s₀ s s' : NodeState} {p : CBlockIndex} {pprev : BlockPtr} (h : Switched full I s₀ pprev s)
    (hT : InTree s₀.mapBlockIndex (p :: pprev)) (hne : pprev ≠ [])
    (hin : s₀.infos.inTransaction = true)
    (hstep : ShinyCoin.connectPostponed env files s (p :: pprev) = .ok s') :
    Switched full I s₀ (p :: pprev) s' := by
  rw [ShinyCoin.connectPostponed] at hstep
  split at hstep
  · cases hstep
  · next block hread =>
    obtain ⟨hblock, hhash⟩ := hfiles.readBlock hread
    have hready : Ready full I pprev { s with txdb := s.txdb.txnBegin } := by
      refine ⟨h.chain, h.next, ⟨s.txdb.data, by simp [CTxDB.txnBegin, h.vTxn]⟩, ?_, h.ledger⟩
      rw [CTxInfoStore.inTransaction, h.curTransaction]
      exact hin
    have hsw := setBestChainInner_ok hI hfiles hready
      (by rw [show ({ s with txdb := s.txdb.txnBegin } : NodeState).mapBlockIndex
        = s₀.mapBlockIndex from h.mapBlockIndex]; exact hT) hne hblock hhash hstep
    exact ⟨hsw.mapBlockIndex.trans h.mapBlockIndex,
      hsw.pindexGenesisBlock.trans h.pindexGenesisBlock, hsw.vTxn,
      hsw.curTransaction.trans h.curTransaction, hsw.chain, hsw.hashBestChain, hsw.next, hsw.ledger⟩

/-- The postponed blocks, when none of them fails. -/
theorem Switched.connectPostponeds (hI : Kept env full OffOk I) (hfiles : files.PartOf full)
    {s₀ s s' : NodeState} {inter tip : BlockPtr} (hsuf : inter <:+ tip) (hinter : inter ≠ [])
    (h : Switched full I s₀ inter s) (hT : InTree s₀.mapBlockIndex tip)
    (hin : s₀.infos.inTransaction = true)
    (hloop : (backTo inter tip).reverse.foldlM (ShinyCoin.connectPostponed env files) s = .ok s') :
    Switched full I s₀ tip s' := by
  induction tip generalizing s' with
  | nil => exact absurd (List.suffix_nil.mp hsuf) hinter
  | cons p pprev ih =>
      rw [backTo] at hloop
      split at hloop
      · next heq =>
        cases hloop
        rw [heq]
        exact h
      · next hne =>
        obtain ⟨hsuf', hpp⟩ := suffix_pprev hinter hsuf hne
        rw [List.reverse_cons, List.foldlM_append] at hloop
        obtain ⟨s₁, h₁, hloop⟩ := Lib.bind_eq_ok.mp hloop
        obtain ⟨s₂, h₂, hloop⟩ := Lib.bind_eq_ok.mp hloop
        cases hloop
        exact (ih hsuf' (hT.suffix (List.suffix_cons p pprev)) h₁).connectPostponed hI hfiles hT hpp
          hin h₂

/-- What is postponed lies between the new tip and the block `Reorganize` goes to. -/
theorem postpone_eq_backTo (bnBestTrust : ℤ) (ptr : BlockPtr) :
    (postpone bnBestTrust ptr).1 = backTo (postpone bnBestTrust ptr).2 ptr := by
  obtain ⟨hsuf, -, hpath⟩ := postpone_suffix bnBestTrust ptr
  rw [path_eq_backTo hsuf] at hpath
  exact (List.append_cancel_right hpath).symm

/-! ## A switch that fails -/

/-- A state in which a switch from `s₀` has given up: in memory nothing has changed, and the open
transactions go back to where they began, if they have not done so yet. -/
structure Failing (s₀ : NodeState) (d₀ : TxDbData) (s : NodeState) : Prop where
  memory : SameMemory s₀ { s with txdb := s₀.txdb }
  pending : s.txdb.vTxn = [d₀] ∨
    ∃ trust, s.txdb = { data := { d₀ with bnBestInvalidTrust := trust } }

theorem SameMemory.failing {s₀ s : NodeState} {d₀ : TxDbData} (h : SameMemory s₀ s)
    (hd : s₀.txdb.vTxn = [d₀]) : Failing s₀ d₀ s :=
  ⟨⟨h.mapBlockIndex, h.pnext, h.pindexGenesisBlock, h.hashBestChain, h.pindexBest, h.mempool,
    h.hashSyncCheckpoint, h.nAdjustedTime, rfl, h.curTransaction⟩, .inl (h.vTxn.trans hd)⟩

/-- `TxnAbort` goes back, and does nothing the second time. -/
theorem Failing.txnAbort {s₀ s : NodeState} {d₀ : TxDbData} (h : Failing s₀ d₀ s) :
    ∃ trust, s.txdb.txnAbort = { data := { d₀ with bnBestInvalidTrust := trust } } := by
  rcases h.pending with hv | ⟨trust, ht⟩
  · exact ⟨d₀.bnBestInvalidTrust, by simp [CTxDB.txnAbort, hv]⟩
  · exact ⟨trust, by rw [ht]; rfl⟩

theorem Failing.abortAfter {s₀ s : NodeState} {d₀ : TxDbData} (h : Failing s₀ d₀ s) (e : Err) :
    Failing s₀ d₀ (s.abortAfter e) := by
  rw [NodeState.abortAfter]
  split
  · exact ⟨h.memory, .inr h.txnAbort⟩
  · exact h

theorem Failing.rejectAfter {s₀ s : NodeState} {d₀ : TxDbData} (h : Failing s₀ d₀ s) (e : Err)
    (pindexNew : CBlockIndex) : Failing s₀ d₀ (s.rejectAfter e pindexNew) := by
  rw [NodeState.rejectAfter]
  split
  · obtain ⟨trust, ht⟩ := h.txnAbort
    rw [invalidChainFound]
    split
    · have hm := h.memory
      exact ⟨⟨hm.mapBlockIndex, hm.pnext, hm.pindexGenesisBlock, hm.hashBestChain, hm.pindexBest,
        hm.mempool, hm.hashSyncCheckpoint, hm.nAdjustedTime, rfl, hm.curTransaction⟩,
        .inr ⟨pindexNew.bnChainTrust, by simp [NodeState.updateDb, ht]⟩⟩
    · exact ⟨h.memory, .inr ⟨trust, ht⟩⟩
  · exact h

/-- The first loop of `Reorganize` touches neither memory nor the transactions. -/
theorem reorgDisconnects_sameMemory {ptrs : List BlockPtr} {st : ReorgState} :
    (∀ st', ptrs.foldlM (reorgDisconnect env files) st = .ok st' → SameMemory st.1 st'.1) ∧
      ∀ e s', ptrs.foldlM (reorgDisconnect env files) st = .error (e, s') → SameMemory st.1 s' := by
  have hblock : ∀ (st : ReorgState) (ptr : BlockPtr) (block : CBlock),
      SameMemory st.1 (Lib.final (block.disconnectBlock env files ptr.tail st.1)) :=
    fun st ptr block => CBlock.disconnectBlock_sameMemory env files block ptr.tail st.1
  have hok : ∀ (st st' : ReorgState) (ptr : BlockPtr), reorgDisconnect env files st ptr = .ok st' →
      SameMemory st.1 st'.1 := by
    intro st st' ptr h
    rw [reorgDisconnect] at h
    split at h
    · cases h
    · next block _ =>
      split at h
      · cases h
      · next s' hdis =>
        cases h
        have := hblock st ptr block
        rw [hdis] at this
        exact this
  refine ⟨fun st' h => Lib.foldlM_ok_inv (fun _ (st' : ReorgState) => SameMemory st.1 st'.1)
    (fun ptr _ _ _ hI hstep => hI.trans (hok _ _ ptr hstep)) (SameMemory.refl _) h, ?_⟩
  intro e s' h
  obtain ⟨ptr, _, st₁, hI, hstep⟩ := Lib.foldlM_error_inv
    (fun _ (st' : ReorgState) => SameMemory st.1 st'.1)
    (fun ptr _ _ _ hI hstep => hI.trans (hok _ _ ptr hstep)) (SameMemory.refl _) h
  refine hI.trans ?_
  rw [reorgDisconnect] at hstep
  split at hstep
  · cases hstep
    exact SameMemory.refl _
  · next block _ =>
    split at hstep
    · next e' s'' hdis =>
      cases hstep
      have := hblock st₁ ptr block
      rw [hdis] at this
      exact this
    · cases hstep

/-- `ConnectBlock` through a pointer touches neither memory nor the transactions. -/
theorem connectBlockPtr_sameMemory (env : Env) (files : Files) (block : CBlock) (ptr : BlockPtr)
    (s : NodeState) : SameMemory s (Lib.final (block.connectBlockPtr env files ptr s)) := by
  cases ptr with
  | nil => exact SameMemory.refl s
  | cons p pprev => exact CBlock.connectBlock_sameMemory env files block p pprev s

theorem reorgConnect_sameMemory {st st' : ReorgState} {ptr : BlockPtr}
    (h : reorgConnect env files st ptr = .ok st') : SameMemory st.1 st'.1 := by
  rw [reorgConnect] at h
  split at h
  · cases h
  · next block _ =>
    split at h
    · cases h
    · next s' hconn =>
      cases h
      have := connectBlockPtr_sameMemory env files block ptr st.1
      rw [hconn] at this
      exact this

/-- The second loop of `Reorganize`: a block that fails aborts the transaction. -/
theorem reorgConnects_memory {ptrs : List BlockPtr} {s₀ : NodeState} {d₀ : TxDbData}
    (st : ReorgState) (hst : SameMemory s₀ st.1) (hd : s₀.txdb.vTxn = [d₀]) :
    (∀ st', ptrs.foldlM (reorgConnect env files) st = .ok st' → SameMemory s₀ st'.1) ∧
      ∀ e s', ptrs.foldlM (reorgConnect env files) st = .error (e, s') → Failing s₀ d₀ s' := by
  refine ⟨fun st' h => Lib.foldlM_ok_inv (fun _ (st' : ReorgState) => SameMemory s₀ st'.1)
    (fun _ _ _ _ hI hstep => hI.trans (reorgConnect_sameMemory hstep)) hst h, ?_⟩
  intro e s' h
  obtain ⟨ptr, _, st₁, hI, hstep⟩ := Lib.foldlM_error_inv
    (fun _ (st' : ReorgState) => SameMemory s₀ st'.1)
    (fun _ _ _ _ hI hstep => hI.trans (reorgConnect_sameMemory hstep)) hst h
  rw [reorgConnect] at hstep
  split at hstep
  · cases hstep
    exact hI.failing hd
  · next block _ =>
    split at hstep
    · next e' s'' hconn =>
      cases hstep
      have := connectBlockPtr_sameMemory env files block ptr st₁.1
      rw [hconn] at this
      exact ((hI.trans this).failing hd).abortAfter e'
    · cases hstep

theorem reorganize_error {s s' : NodeState} {d₀ : TxDbData} {pindexNew : BlockPtr} {e : Err}
    (hd : s.txdb.vTxn = [d₀]) (hre : reorganize env files pindexNew s = .error (e, s')) :
    Failing s d₀ s' := by
  rw [reorganize] at hre
  rcases Lib.bind_eq_error.mp hre with hre | ⟨pfork, -, hre⟩
  · obtain ⟨e', -, heq⟩ := Lib.mapError_eq_error.mp hre
    cases heq
    exact (SameMemory.refl s).failing hd
  rcases Lib.bind_eq_error.mp hre with hre | ⟨-, -, hre⟩
  · obtain ⟨-, heq⟩ := Lib.require_eq_error.mp hre
    cases heq
    exact (SameMemory.refl s).failing hd
  rcases Lib.bind_eq_error.mp hre with hre | ⟨st₁, h₁, hre⟩
  · exact (reorgDisconnects_sameMemory.2 e s' hre).failing hd
  have hmem₁ := reorgDisconnects_sameMemory.1 st₁ h₁
  rcases Lib.bind_eq_error.mp hre with hre | ⟨st₂, h₂, hre⟩
  · exact (reorgConnects_memory (st₁.1, []) hmem₁ hd).2 e s' hre
  have hmem₂ := (reorgConnects_memory (st₁.1, []) hmem₁ hd).1 st₂ h₂
  have hvTxn : st₂.1.txdb.vTxn = [d₀] := hmem₂.vTxn.trans hd
  simp only [CTxDB.txnCommit, NodeState.writeHashBestChain, NodeState.updateDb, hvTxn] at hre
  cases hre

theorem setBestChainInner_error {s s' : NodeState} {d₀ : TxDbData} {block : CBlock}
    {p : CBlockIndex} {pprev : BlockPtr} {e : Err} (hd : s.txdb.vTxn = [d₀])
    (hne : pprev = [] → e.isFalse = true)
    (hinner : block.setBestChainInner env files p pprev s = .error (e, s')) :
    Failing s d₀ s' := by
  rcases CBlock.setBestChainInner_eq_error hd hinner with
    ⟨e', s₁, -, hmem, -, rfl⟩ | ⟨hnil, hexc⟩
  · exact (hmem.failing hd).rejectAfter e' p
  · rw [hne hnil] at hexc
    cases hexc

end

end ShinyCoin

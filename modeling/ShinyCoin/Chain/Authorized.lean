import ShinyCoin.Chain.Consistency
import ShinyCoin.Script.Authorize
import ShinyCoin.Wallet.Sign

/-!
# Who spends the outputs of the chain

`ConnectInputs` verifies every input of a block, unless the best chain is not as high yet as the last
checkpoint. So the blocks that a node connects after that height spend only what their inputs may
spend: whatever branches it switches to, and whatever calls fail on the way. With what `Authorize`
says of scripts, an output that pays to keys is spent with signatures of these keys only.
-/

namespace ShinyCoin

/-! ## What ConnectBlock verifies -/

/-- Every input was verified against the transaction it spends from. -/
def CTransaction.Signed (env : Env) (tx : CTransaction) : Prop :=
  ∀ x ∈ tx.vin.zipIdx, ∃ txPrev, env.verifySignature txPrev tx x.2 = true

/-- The same for the transactions of a block, of which the coinbase spends nothing. -/
def CBlock.Signed (env : Env) (block : CBlock) : Prop :=
  ∀ tx ∈ block.vtx, tx.isCoinBase = false → tx.Signed env

section

variable {env : Env} {files : Files} {s s' : NodeState} {block : CBlock} {pindex : CBlockIndex}
  {pprev : BlockPtr} {tx : CTransaction}

theorem CTransaction.connectInput_signed {pos : CDiskTxPos} {fBlock fMiner : Bool}
    {st st' : MapPrevTx × TxIndexMap} {x : CTxIn × Nat}
    (h : connectInput env true pos fBlock fMiner tx st x = .ok st') :
    ∃ txPrev, env.verifySignature txPrev tx x.2 = true := by
  unfold connectInput at h
  split at h
  · cases h
  next txindex txPrev _ =>
  split at h
  · cases h
  · obtain ⟨-, h⟩ := Lib.seq_eq_ok.mp h
    obtain ⟨hverify, -⟩ := Lib.seq_eq_ok.mp h
    exact ⟨txPrev, by simpa using hverify⟩

theorem CTransaction.connectInputs_signed {nBestHeight : ℤ} {txdb q q' : TxIndexMap}
    {inputs : MapPrevTx} {pos : CDiskTxPos} {pindexBlock : BlockPtr} {fBlock fMiner : Bool}
    (hheight : env.totalBlocksEstimate ≤ nBestHeight) (hcb : tx.isCoinBase = false)
    (h : tx.connectInputs env files nBestHeight txdb inputs q pos pindexBlock fBlock fMiner = .ok q') :
    tx.Signed env := by
  rw [connectInputs, hcb, if_neg Bool.false_ne_true] at h
  obtain ⟨nValueIn, -, h⟩ := Lib.bind_eq_ok.mp h
  obtain ⟨st, hconn, -⟩ := Lib.bind_eq_ok.mp h
  rw [decide_eq_false (not_lt.mpr hheight), Bool.and_false, Bool.not_false] at hconn
  have hloop := Lib.foldlM_ok_inv
    (fun l _ => ∀ x ∈ tx.vin.zipIdx, x ∈ l ∨ ∃ txPrev, env.verifySignature txPrev tx x.2 = true)
    (fun a l _ _ hI hstep x hx => ?_) (fun x hx => .inl hx) hconn
  · exact fun x hx => (hloop x hx).resolve_left List.not_mem_nil
  · rcases hI x hx with hmem | hsigned
    · rcases List.mem_cons.mp hmem with rfl | hmem
      · exact .inr (connectInput_signed hstep)
      · exact .inl hmem
    · exact .inr hsigned

theorem CBlock.connectTx_signed {st st' : ConnectState}
    (hheight : env.totalBlocksEstimate ≤ s.nBestHeight) (hcb : tx.isCoinBase = false)
    (h : block.connectTx env files s pindex pprev st tx = .ok st') : tx.Signed env := by
  obtain ⟨mapInputs, q', -, hconn⟩ := connectTx_spends hcb h
  exact CTransaction.connectInputs_signed hheight hcb hconn

theorem CBlock.connectTxs_signed {st : ConnectState}
    (hheight : env.totalBlocksEstimate ≤ s.nBestHeight)
    (h : block.connectTxs env files s pindex pprev = .ok st) : block.Signed env := by
  rw [connectTxs] at h
  have hloop := Lib.foldlM_ok_inv
    (fun l _ => ∀ tx ∈ block.vtx, tx ∈ l ∨ (tx.isCoinBase = false → tx.Signed env))
    (fun a l _ _ hI hstep tx htx => ?_) (fun tx htx => .inl htx) h
  · exact fun tx htx => (hloop tx htx).resolve_left List.not_mem_nil
  · rcases hI tx htx with hmem | hsigned
    · rcases List.mem_cons.mp hmem with rfl | hmem
      · exact .inr fun hcb => CBlock.connectTx_signed hheight hcb hstep
      · exact .inl hmem
    · exact .inr hsigned

end

/-! ## Switching branches -/

/-- All blocks that are connected, or that an abort would bring back, meet `P`. -/
structure LedgersOf (P : CBlock × BlockPtr → Prop) (nBestHeight : ℤ) (s : NodeState) : Prop where
  height : s.nBestHeight = nBestHeight
  data : ∀ x ∈ s.txdb.data.vConnected, P x
  saved : ∀ d ∈ s.txdb.vTxn, ∀ x ∈ d.vConnected, P x

section

variable {env : Env} {files : Files} {P : CBlock × BlockPtr → Prop} {n : ℤ} {s s' : NodeState}
  {block : CBlock} {pindex : CBlockIndex} {pprev ptr : BlockPtr}

theorem LedgersOf.of_eq (h : LedgersOf P n s) (hheight : s'.nBestHeight = s.nBestHeight)
    (hdata : s'.txdb.data.vConnected = s.txdb.data.vConnected) (hsaved : s'.txdb.vTxn = s.txdb.vTxn) :
    LedgersOf P n s' := by
  refine ⟨hheight.trans h.height, ?_, ?_⟩
  · rw [hdata]
    exact h.data
  · rw [hsaved]
    exact h.saved

theorem LedgersOf.txnBegin (h : LedgersOf P n s) :
    LedgersOf P n { s with txdb := s.txdb.txnBegin } :=
  ⟨h.height, h.data, List.forall_mem_cons.mpr ⟨h.data, h.saved⟩⟩

theorem LedgersOf.txnAbort (h : LedgersOf P n s) :
    LedgersOf P n { s with txdb := s.txdb.txnAbort } := by
  obtain ⟨hheight, hdata, hsaved⟩ := h
  refine ⟨hheight, ?_, ?_⟩
  all_goals
    show ∀ x ∈ _, _
    rw [CTxDB.txnAbort]
    split
  · exact hdata
  · next d vTxn heq => exact hsaved d (by rw [heq]; exact List.mem_cons_self)
  · exact hsaved
  · next d vTxn heq => exact fun x hx => hsaved x (by rw [heq]; exact List.mem_cons_of_mem _ hx)

theorem LedgersOf.txnCommit {txdb : CTxDB} (h : LedgersOf P n s)
    (hcommit : s.txdb.txnCommit = some txdb) :
    (∀ x ∈ txdb.data.vConnected, P x) ∧ ∀ d ∈ txdb.vTxn, ∀ x ∈ d.vConnected, P x := by
  rw [CTxDB.txnCommit] at hcommit
  split at hcommit
  · cases hcommit
  · next d vTxn heq =>
      cases hcommit
      exact ⟨h.data, fun x hx => h.saved x (by rw [heq]; exact List.mem_cons_of_mem _ hx)⟩

/-- A block is connected after its transactions. -/
theorem LedgersOf.connectBlock (h : LedgersOf P n s)
    (hblock : ∀ st, block.connectTxs env files s pindex pprev = .ok st → P (block, pindex :: pprev)) :
    LedgersOf P n (Lib.final (block.connectBlock env files pindex pprev s)) := by
  have hwritten : ∀ st nCoinbaseOut ws, block.connectTxs env files s pindex pprev = .ok st →
      LedgersOf P n { block.writeConnected pindex pprev st nCoinbaseOut { s with infos := st.infos } with
        wallets := ws } := by
    intro st nCoinbaseOut ws hst
    have hmem := List.forall_mem_cons.mpr ⟨hblock st hst, h.data⟩
    cases pprev <;> exact ⟨h.height, hmem, h.saved⟩
  cases hrun : block.connectBlock env files pindex pprev s with
  | ok s' =>
      obtain ⟨st, nCoinbaseOut, ws, -, hst, -, -, rfl⟩ := CBlock.connectBlock_ok hrun
      exact hwritten st nCoinbaseOut ws hst
  | error es =>
      obtain ⟨e, s'⟩ := es
      rcases CBlock.connectBlock_error hrun with ⟨infos, rfl, -⟩ | ⟨st, nCoinbaseOut, ws, hst, -, rfl⟩
      · exact ⟨h.height, h.data, h.saved⟩
      · exact hwritten st nCoinbaseOut ws hst

theorem LedgersOf.disconnectTx (h : LedgersOf P n s) (tx : CTransaction) :
    LedgersOf P n (Lib.final (CBlock.disconnectTx env files s tx)) := by
  unfold CBlock.disconnectTx
  split
  · unfold CBlock.undoInfosOf
    split <;> exact ⟨h.height, h.data, h.saved⟩
  · exact ⟨h.height, h.data, h.saved⟩

theorem LedgersOf.disconnectBlock (h : LedgersOf P n s) :
    LedgersOf P n (Lib.final (block.disconnectBlock env files pprev s)) := by
  have hloop := Lib.final_foldlM (f := CBlock.disconnectTx env files) (LedgersOf P n)
    (fun s tx hs => hs.disconnectTx tx) block.vtx.reverse h
  have htail : ∀ s₁ ws, LedgersOf P n s₁ → LedgersOf P n { CBlock.writePrevIndex
      (s₁.updateDb fun d => { d with vConnected := d.vConnected.tail }) pprev 0 with
        wallets := ws } := by
    intro s₁ ws h₁
    have hmem : ∀ x ∈ s₁.txdb.data.vConnected.tail, P x :=
      fun x hx => h₁.data x (List.mem_of_mem_tail hx)
    cases pprev <;> exact ⟨h₁.height, hmem, h₁.saved⟩
  cases hrun : block.disconnectBlock env files pprev s with
  | ok s' =>
      obtain ⟨s₁, ws, h₁, -, rfl⟩ := CBlock.disconnectBlock_ok hrun
      rw [h₁] at hloop
      exact htail s₁ ws hloop
  | error es =>
      obtain ⟨e, s'⟩ := es
      rcases CBlock.disconnectBlock_error hrun with h₁ | ⟨s₁, ws, h₁, -, rfl⟩
      · rw [h₁] at hloop
        exact hloop
      · rw [h₁] at hloop
        exact htail s₁ ws hloop

variable {pindexNew : BlockPtr}

/-- What a block has to meet to be connected at this height of the best chain. -/
def ConnectsOnly (env : Env) (files : Files) (P : CBlock × BlockPtr → Prop) (n : ℤ) : Prop :=
  ∀ (s : NodeState) (block : CBlock) (pindex : CBlockIndex) (pprev : BlockPtr) (st : ConnectState),
    s.nBestHeight = n → block.connectTxs env files s pindex pprev = .ok st →
      P (block, pindex :: pprev)

theorem LedgersOf.reorgDisconnect {st : ReorgState} (h : LedgersOf P n st.1) :
    (∀ st', reorgDisconnect env files st ptr = .ok st' → LedgersOf P n st'.1) ∧
      ∀ e, reorgDisconnect env files st ptr = .error e → LedgersOf P n e.2 := by
  unfold ShinyCoin.reorgDisconnect
  cases hread : files.readBlock env ptr with
  | none =>
      refine ⟨fun st' h => (by cases h), fun e he => ?_⟩
      cases he
      exact h
  | some block =>
      have hrun : LedgersOf P n (Lib.final (block.disconnectBlock env files ptr.tail st.1)) :=
        LedgersOf.disconnectBlock h
      dsimp only
      cases hdis : block.disconnectBlock env files ptr.tail st.1 with
      | ok s' =>
          rw [hdis] at hrun
          refine ⟨fun st' h => ?_, fun e he => by cases he⟩
          cases h
          exact hrun
      | error es =>
          rw [hdis] at hrun
          refine ⟨fun st' h => (by cases h), fun e he => ?_⟩
          cases he
          exact hrun

theorem LedgersOf.abortAfter (h : LedgersOf P n s) (e : Err) : LedgersOf P n (s.abortAfter e) := by
  unfold NodeState.abortAfter
  split
  · exact h.txnAbort
  · exact h

theorem LedgersOf.reorgConnect (hP : ConnectsOnly env files P n) {st : ReorgState}
    (h : LedgersOf P n st.1) :
    (∀ st', reorgConnect env files st ptr = .ok st' → LedgersOf P n st'.1) ∧
      ∀ e, reorgConnect env files st ptr = .error e → LedgersOf P n e.2 := by
  unfold ShinyCoin.reorgConnect
  cases hread : files.readBlock env ptr with
  | none =>
      refine ⟨fun st' h => (by cases h), fun e he => ?_⟩
      cases he
      exact h
  | some block =>
      have hrun : LedgersOf P n (Lib.final (block.connectBlockPtr env files ptr st.1)) := by
        cases ptr with
        | nil => exact h
        | cons pindex pprev => exact h.connectBlock fun _ hst => hP _ _ _ _ _ h.height hst
      dsimp only
      cases hconn : block.connectBlockPtr env files ptr st.1 with
      | ok s' =>
          rw [hconn] at hrun
          refine ⟨fun st' h => ?_, fun e he => by cases he⟩
          cases h
          exact hrun
      | error es =>
          rw [hconn] at hrun
          refine ⟨fun st' h => (by cases h), fun e he => ?_⟩
          cases he
          exact LedgersOf.abortAfter hrun _

/-- Both loops of `Reorganize`, wherever they end -/
theorem LedgersOf.loop (f : ReorgState → BlockPtr → Except (Err × NodeState) ReorgState)
    (hf : ∀ st ptr, LedgersOf P n st.1 → (∀ st', f st ptr = .ok st' → LedgersOf P n st'.1) ∧
      ∀ e, f st ptr = .error e → LedgersOf P n e.2)
    (l : List BlockPtr) {st : ReorgState} (h : LedgersOf P n st.1) :
    (∀ st', l.foldlM f st = .ok st' → LedgersOf P n st'.1) ∧
      ∀ e, l.foldlM f st = .error e → LedgersOf P n e.2 := by
  constructor
  · intro st' hrun
    exact Lib.foldlM_ok_inv (fun _ st => LedgersOf P n st.1)
      (fun a _ st st' hI hstep => (hf st a hI).1 st' hstep) h hrun
  · intro e hrun
    obtain ⟨a, _, st', hI, hstep⟩ := Lib.foldlM_error_inv (fun _ st => LedgersOf P n st.1)
      (fun a _ st st' hI hstep => (hf st a hI).1 st' hstep) h hrun
    exact (hf st' a hI).2 e hstep

theorem LedgersOf.reorganize (hP : ConnectsOnly env files P n) (h : LedgersOf P n s) :
    LedgersOf P n (Lib.final (reorganize env files pindexNew s)) := by
  refine Lib.final_bind (P := LedgersOf P n) ?_ fun pfork _ => ?_
  · intro e he
    obtain ⟨e', -, rfl⟩ := Lib.mapError_eq_error.mp he
    exact h
  refine Lib.final_bind (P := LedgersOf P n) ?_ fun _ _ => ?_
  · intro e he
    obtain ⟨-, rfl⟩ := Lib.require_eq_error.mp he
    exact h
  have hstart : LedgersOf P n ((s, []) : ReorgState).1 := h
  have hoff := LedgersOf.loop (ShinyCoin.reorgDisconnect env files)
    (fun _ _ hI => LedgersOf.reorgDisconnect hI) (disconnectList pfork s) hstart
  refine Lib.final_bind (P := LedgersOf P n) hoff.2 fun st₁ hst₁ => ?_
  have hmiddle : LedgersOf P n ((st₁.1, []) : ReorgState).1 := hoff.1 st₁ hst₁
  have hon := LedgersOf.loop (ShinyCoin.reorgConnect env files)
    (fun _ _ hI => LedgersOf.reorgConnect hP hI) (connectList pfork pindexNew) hmiddle
  refine Lib.final_bind (P := LedgersOf P n) hon.2 fun st₂ hst₂ => ?_
  have hend : LedgersOf P n (st₂.1.writeHashBestChain (BlockPtr.hash pindexNew)) :=
    (hon.1 st₂ hst₂).of_eq rfl rfl rfl
  dsimp only
  cases hcommit : (st₂.1.writeHashBestChain (BlockPtr.hash pindexNew)).txdb.txnCommit with
  | none => exact hend
  | some txdb =>
      obtain ⟨hdata, hsaved⟩ := hend.txnCommit hcommit
      exact ⟨hend.height, hdata, hsaved⟩

theorem LedgersOf.rejectAfter (h : LedgersOf P n s) (e : Err) (pindexNew : CBlockIndex) :
    LedgersOf P n (s.rejectAfter e pindexNew) := by
  unfold NodeState.rejectAfter
  split
  · unfold invalidChainFound
    split
    · exact h.txnAbort.of_eq rfl rfl rfl
    · exact h.txnAbort
  · exact h

theorem LedgersOf.setBestChainInner (hP : ConnectsOnly env files P n) (h : LedgersOf P n s) :
    LedgersOf P n (Lib.final (block.setBestChainInner env files pindex pprev s)) := by
  have hrun : LedgersOf P n (Lib.final (block.connectBlock env files pindex pprev s)) :=
    h.connectBlock fun _ hst => hP _ _ _ _ _ h.height hst
  unfold CBlock.setBestChainInner
  cases hconn : block.connectBlock env files pindex pprev s with
  | error es =>
      rw [hconn] at hrun
      exact LedgersOf.rejectAfter hrun _ _
  | ok s' =>
      rw [hconn] at hrun
      have hend : LedgersOf P n (s'.writeHashBestChain (env.getIDHash block.toCBlockHeader)) :=
        LedgersOf.of_eq hrun rfl rfl rfl
      dsimp only
      unfold CBlock.attach
      dsimp only
      cases hcommit : (s'.writeHashBestChain (env.getIDHash block.toCBlockHeader)).txdb.txnCommit with
      | none => exact hend
      | some txdb =>
          obtain ⟨hdata, hsaved⟩ := hend.txnCommit hcommit
          cases pprev with
          | nil => exact ⟨hend.height, hdata, hsaved⟩
          | cons prev pprev => exact ⟨hend.height, hdata, hsaved⟩

theorem LedgersOf.connectSecondary (hP : ConnectsOnly env files P n) {ptrs : List BlockPtr}
    (h : LedgersOf P n s) : LedgersOf P n (Lib.final (connectSecondary env files ptrs s)) := by
  have hloop := Lib.final_foldlM (f := connectPostponed env files) (LedgersOf P n)
    (fun s ptr hs => by
      unfold connectPostponed
      cases files.readBlock env ptr with
      | none => exact hs
      | some block =>
          cases ptr with
          | nil => exact hs
          | cons pindex pprev => exact LedgersOf.setBestChainInner hP hs.txnBegin) ptrs h
  unfold ShinyCoin.connectSecondary
  cases hrun : ptrs.foldlM (connectPostponed env files) s with
  | ok s' =>
      rw [hrun] at hloop
      exact hloop
  | error es =>
      rw [hrun] at hloop
      dsimp only
      split <;> exact hloop

/-- The genesis block is not connected. -/
theorem LedgersOf.switchTo
    (hP : ConnectsOnly env files P n ∨ s.pindexGenesisBlock = [] ∧
      env.getIDHash block.toCBlockHeader = env.hashGenesisBlock) (h : LedgersOf P n s) :
    LedgersOf P n (Lib.final (block.switchTo env files pindex pprev s)) := by
  unfold CBlock.switchTo
  dsimp only
  split
  · unfold setGenesis
    dsimp only
    have hend : LedgersOf P n (s.writeHashBestChain (env.getIDHash block.toCBlockHeader)) :=
      h.of_eq rfl rfl rfl
    cases hcommit : (s.writeHashBestChain (env.getIDHash block.toCBlockHeader)).txdb.txnCommit with
    | none => exact hend
    | some txdb =>
        obtain ⟨hdata, hsaved⟩ := hend.txnCommit hcommit
        exact ⟨hend.height, hdata, hsaved⟩
  · next hgenesis =>
    have hP := hP.resolve_right hgenesis
    split
    · have hinner : LedgersOf P n (Lib.final (block.setBestChainInner env files pindex pprev s)) :=
        LedgersOf.setBestChainInner hP h
      cases hrun : block.setBestChainInner env files pindex pprev s with
      | ok s' =>
          rw [hrun] at hinner
          exact hinner
      | error es =>
          rw [hrun] at hinner
          exact hinner
    · unfold switchBranch
      cases hbest : s.pindexBest with
      | nil => exact h
      | cons best rest =>
          dsimp only
          have hreorg : LedgersOf P n (Lib.final (ShinyCoin.reorganize env files
              (postpone best.bnChainTrust (pindex :: pprev)).2 s)) :=
            LedgersOf.reorganize hP h
          cases hrun : ShinyCoin.reorganize env files (postpone best.bnChainTrust (pindex :: pprev)).2 s with
          | error es =>
              rw [hrun] at hreorg
              exact LedgersOf.rejectAfter hreorg _ _
          | ok s' =>
              rw [hrun] at hreorg
              exact LedgersOf.connectSecondary hP hreorg

/-- All of `SetBestChain`, whether it returns `true`, `false` or throws. -/
theorem LedgersOf.setBestChain
    (hP : ConnectsOnly env files P n ∨ s.pindexGenesisBlock = [] ∧
      env.getIDHash block.toCBlockHeader = env.hashGenesisBlock) (h : LedgersOf P n s) :
    (∀ x ∈ (Lib.final (block.setBestChain env files pindex pprev s)).txdb.data.vConnected, P x) ∧
      ∀ d ∈ (Lib.final (block.setBestChain env files pindex pprev s)).txdb.vTxn,
        ∀ x ∈ d.vConnected, P x := by
  unfold CBlock.setBestChain
  cases hbegin : s.infos.beginTransaction with
  | error es => exact ⟨h.data, h.saved⟩
  | ok infos =>
      dsimp only
      have hbegun : LedgersOf P n { s with txdb := s.txdb.txnBegin, infos := infos } :=
        h.txnBegin.of_eq rfl rfl rfl
      have hswitch : LedgersOf P n (Lib.final (block.switchTo env files pindex pprev
          { s with txdb := s.txdb.txnBegin, infos := infos })) := LedgersOf.switchTo hP hbegun
      have hunwind : ∀ s, LedgersOf P n s →
          (∀ x ∈ s.unwind.txdb.data.vConnected, P x) ∧
            ∀ d ∈ s.unwind.txdb.vTxn, ∀ x ∈ d.vConnected, P x := by
        intro s hs
        refine ⟨?_, fun d hd => absurd hd List.not_mem_nil⟩
        show ∀ x ∈ (s.txdb.vTxn.getLastD s.txdb.data).vConnected, P x
        cases hlast : s.txdb.vTxn with
        | nil => exact hs.data
        | cons d vTxn =>
            rw [List.getLastD_cons]
            exact hs.saved _ (by rw [hlast]; exact List.getLastD_mem_cons)
      cases hrun : block.switchTo env files pindex pprev
          { s with txdb := s.txdb.txnBegin, infos := infos } with
      | error es =>
          rw [hrun] at hswitch
          exact hunwind _ hswitch
      | ok s₁ =>
          rw [hrun] at hswitch
          have hbind : (Except.ok (ε := Err × NodeState) s₁).bind (block.newBest env pindex pprev)
              = block.newBest env pindex pprev s₁ := rfl
          rw [hbind]
          unfold CBlock.newBest
          cases hcommit : s₁.infos.commit with
          | error es => exact hunwind _ hswitch
          | ok infos =>
              have hend : LedgersOf P n s₁ := hswitch
              exact ⟨hend.data, hend.saved⟩

end

/-! ## Runs -/

/-- The states of a node from `s₀` on, as long as its best chain is not below the last checkpoint when
`SetBestChain` is called for another block than the genesis block. A call may fail, and may find
anything on disk. -/
inductive Since (env : Env) (s₀ : NodeState) : NodeState → Prop where
  | start : Since env s₀ s₀
  | other {s s' : NodeState} (hs : Since env s₀ s) (h : s'.txdb = s.txdb) : Since env s₀ s'
  | best {s : NodeState} {files : Files} {block : CBlock} {p : CBlockIndex} {pprev : BlockPtr}
      (hs : Since env s₀ s)
      (hheight : env.totalBlocksEstimate ≤ s.nBestHeight ∨
        s.pindexGenesisBlock = [] ∧ env.getIDHash block.toCBlockHeader = env.hashGenesisBlock) :
      Since env s₀ (Lib.final (block.setBestChain env files p pprev s))

theorem Since.signed {env : Env} {s₀ s : NodeState} (hidle : s₀.txdb.vTxn = [])
    (hs : Since env s₀ s) :
    (∀ x ∈ s.txdb.data.vConnected, x ∈ s₀.txdb.data.vConnected ∨ x.1.Signed env) ∧
      ∀ d ∈ s.txdb.vTxn, ∀ x ∈ d.vConnected, x ∈ s₀.txdb.data.vConnected ∨ x.1.Signed env := by
  induction hs with
  | start =>
      refine ⟨fun x hx => .inl hx, ?_⟩
      rw [hidle]
      exact fun d hd => absurd hd List.not_mem_nil
  | other _ h ih =>
      rw [h]
      exact ih
  | @best s files block p pprev _ hheight ih =>
      have hledgers : LedgersOf (fun x => x ∈ s₀.txdb.data.vConnected ∨ x.1.Signed env)
          s.nBestHeight s := ⟨rfl, ih.1, ih.2⟩
      refine hledgers.setBestChain ?_
      rcases hheight with hheight | hgenesis
      · left
        intro s' block pindex pprev st hn hst
        exact .inr (CBlock.connectTxs_signed (by rw [hn]; exact hheight) hst)
      · exact .inr hgenesis

/-! ## VerifySignature -/

/-- `VerifySignature(txFrom, txTo, nIn, nHashType)`; it is called for inputs there are. -/
def SignEnv.verifySignature (se : SignEnv) (txFrom txTo : CTransaction) (nIn : Nat) (nHashType : ℤ) :
    Bool :=
  match txTo.vin[nIn]? with
  | none => false
  | some txin =>
      match txFrom.vout[txin.prevout.n]? with
      | none => false
      | some txout =>
          if txin.prevout.hash ≠ se.env.getHash txFrom then false
          else verifyScript (se.evalEnv txTo nIn nHashType) txin.scriptSig txout.scriptPubKey

/-- A node that verifies scripts -/
def SignEnv.verifying (se : SignEnv) : Env :=
  { se.env with verifySignature := fun txFrom txTo nIn => se.verifySignature txFrom txTo nIn 0 }

theorem SignEnv.verifySignature_eq_true {se : SignEnv} {txFrom txTo : CTransaction} {nIn : Nat}
    {nHashType : ℤ} {txin : CTxIn} (hin : txTo.vin[nIn]? = some txin)
    (h : se.verifySignature txFrom txTo nIn nHashType = true) :
    ∃ txout, txFrom.vout[txin.prevout.n]? = some txout ∧ txin.prevout.hash = se.env.getHash txFrom ∧
      verifyScript (se.evalEnv txTo nIn nHashType) txin.scriptSig txout.scriptPubKey = true := by
  unfold verifySignature at h
  rw [hin] at h
  dsimp only at h
  split at h
  · cases h
  · next txout hout =>
      split at h
      · cases h
      · next hhash => exact ⟨txout, hout, not_not.mp hhash, h⟩

/-- What a node's blocks spend: every input of a block that was connected since `s₀` spends an output
of the transaction it names, and if this is a standard one it is authorized to do so. -/
theorem spends_authorized (se : SignEnv) (s₀ s : NodeState) (hidle : s₀.txdb.vTxn = [])
    (hs : Since se.verifying s₀ s) :
    ∀ x ∈ s.txdb.data.vConnected, x ∈ s₀.txdb.data.vConnected ∨
      ∀ tx ∈ x.1.vtx, tx.isCoinBase = false → ∀ nIn txin, tx.vin[nIn]? = some txin →
        ∃ txFrom txout, se.env.getHash txFrom = txin.prevout.hash ∧
          txFrom.vout[txin.prevout.n]? = some txout ∧
          verifyScript (se.evalEnv tx nIn 0) txin.scriptSig txout.scriptPubKey = true ∧
          (solver txout.scriptPubKey ≠ none →
            Authorizes (se.evalEnv tx nIn 0) txin.scriptSig txout.scriptPubKey) := by
  intro x hx
  refine ((hs.signed hidle).1 x hx).imp_right fun hsigned tx htx hcb nIn txin hin => ?_
  have hmem : (txin, nIn) ∈ tx.vin.zipIdx := List.mem_zipIdx_iff_getElem?.mpr hin
  obtain ⟨txFrom, hverify⟩ := hsigned tx htx hcb _ hmem
  obtain ⟨txout, hout, hhash, hscript⟩ := SignEnv.verifySignature_eq_true hin hverify
  exact ⟨txFrom, txout, hhash.symm, hout, hscript, fun hsolver =>
    (authorizes_iff hsolver).mpr hscript⟩

/-- Any signature is right for any key. -/
def sampleSignEnv : SignEnv where
  env := Env.plain
  ecdsa := ⟨fun _ => true, fun _ _ _ => true⟩
  ripemd160 := id
  sha1 := id
  sha256 := id
  hash160 := id
  hash256 := id
  pubkeyVersion := 63

/-- A coinbase that pays to a key -/
def keyCoinbase : CTransaction where
  nTime := 1
  vin := [{ prevout := COutPoint.null, scriptSig := [0, 0] }]
  vout := [{ nValue := COIN, scriptPubKey := pushData sampleKey ++ [OP_CHECKSIG] }]

/-- A payment of it, with a signature -/
def keyPayment : CTransaction where
  nTime := 5
  vin := [{ prevout := ⟨2, 0⟩, scriptSig := pushData [9, 9, 1] }]
  vout := [{ nValue := COIN, scriptPubKey := [2] }]

def blockK1 : CBlock := forkBlock 1 1 [keyCoinbase]
def blockK2 : CBlock := forkBlock 2 2 [forkCoinbase 2 COIN, keyPayment]

def keyFiles : Files where
  block _ _ := none
  tx pos := if pos = ⟨1, 1000, 1081⟩ then some keyCoinbase else none

def indexK1 : CBlockIndex := blockK1.newIndex Env.plain 1 1000 [indexG]
def indexK2 : CBlockIndex := blockK2.newIndex Env.plain 1 2000 [indexK1, indexG]

/-- A block becomes the best one. -/
def keyStep (block : CBlock) (p : CBlockIndex) (pprev : BlockPtr) (s : NodeState) : NodeState :=
  Lib.final (block.setBestChain sampleSignEnv.verifying keyFiles p pprev s)

def stateK0 : NodeState := keyStep forkGenesis indexG [] {}
def stateK1 : NodeState := keyStep blockK1 indexK1 [indexG] stateK0
def stateK2 : NodeState := keyStep blockK2 indexK2 [indexK1, indexG] stateK1

theorem Since.keyStep {s₀ s : NodeState} {block : CBlock} {p : CBlockIndex} {pprev : BlockPtr}
    (hs : Since sampleSignEnv.verifying s₀ s)
    (hheight : sampleSignEnv.verifying.totalBlocksEstimate ≤ s.nBestHeight ∨
      s.pindexGenesisBlock = [] ∧ sampleSignEnv.verifying.getIDHash block.toCBlockHeader
        = sampleSignEnv.verifying.hashGenesisBlock) :
    Since sampleSignEnv.verifying s₀ (ShinyCoin.keyStep block p pprev s) :=
  .best hs hheight

theorem since_stateK2 : Since sampleSignEnv.verifying {} stateK2 := by
  have hempty : ({} : NodeState).pindexGenesisBlock = [] ∧ sampleSignEnv.verifying.getIDHash
      forkGenesis.toCBlockHeader = sampleSignEnv.verifying.hashGenesisBlock := by decide
  have hK0 : sampleSignEnv.verifying.totalBlocksEstimate ≤ stateK0.nBestHeight := by decide
  have hK1 : sampleSignEnv.verifying.totalBlocksEstimate ≤ stateK1.nBestHeight := by decide
  have hgenesis : Since sampleSignEnv.verifying {} stateK0 := Since.start.keyStep (.inr hempty)
  have hfirst : Since sampleSignEnv.verifying {} stateK1 := hgenesis.keyStep (.inl hK0)
  exact hfirst.keyStep (.inl hK1)

/-- The payment's signature was verified against the coinbase's script. -/
theorem spends_authorized_stateK2 : stateK2.nBestHeight = 2 ∧
    ∀ x ∈ stateK2.txdb.data.vConnected, ∀ tx ∈ x.1.vtx, tx.isCoinBase = false →
      ∀ nIn txin, tx.vin[nIn]? = some txin → ∃ (txFrom : CTransaction) (txout : CTxOut),
        txFrom.vout[txin.prevout.n]? = some txout ∧
        verifyScript (sampleSignEnv.evalEnv tx nIn 0) txin.scriptSig txout.scriptPubKey = true := by
  refine ⟨by decide +kernel, fun x hx tx htx hcb nIn txin hin => ?_⟩
  rcases spends_authorized sampleSignEnv {} stateK2 rfl since_stateK2 x hx with hold | hsigned
  · exact absurd hold List.not_mem_nil
  · obtain ⟨txFrom, txout, -, hout, hscript, -⟩ := hsigned tx htx hcb nIn txin hin
    exact ⟨txFrom, txout, hout, hscript⟩

end ShinyCoin

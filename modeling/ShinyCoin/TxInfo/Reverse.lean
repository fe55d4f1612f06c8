import ShinyCoin.TxInfo.Invariant

/-!
# Undoing what was processed

A block's infos are processed in order when it is connected and undone in reverse order when it is
disconnected. `Process` clears the flags of a whole (address, type, key) and `Undo` elects the row
with the largest id again, so whether the flags come back depends on what the table looked like
before: with `RowsInv`, the row elected is the one that had the flag (`Lib.History.Lawful.pop_push`).

The ids handed out are not given back (`AUTOINCREMENT`), so the tables agree in their rows and not
in their sequence.
-/

namespace ShinyCoin

theorem latest_lawful : latest.Lawful := ⟨fun _ => rfl, fun _ _ _ => rfl⟩

theorem TxInfoRecord.matchesRow_toRow (env : Env) (r : TxInfoRecord) :
    r.matchesRow (r.toRow env) = true := by
  simp [matchesRow, toRow]

namespace CTxInfoStore

variable {env : Env} {st st' : CTxInfoStore} {r : TxInfoRecord}

/-- The newest row of the record's (address, type, key), flagged or not, is the record's. -/
def IsLatestRecord (env : Env) (st : CTxInfoStore) (r : TxInfoRecord) : Prop :=
  ∃ x ∈ st.db.rows, x.2.group = r.group env ∧ r.matchesRow x.2 = true ∧
    ∀ y ∈ st.db.rows, y.2.group = r.group env → y.1 ≤ x.1

/-- The row `Undo` looks for is the newest one. -/
theorem isLatestRecord_iff (ht : RowsInv st.db) :
    st.IsLatestRecord env r ↔ ∃ x ∈ st.db.rows, x.2.is_latest = true ∧ x.2.group = r.group env ∧
      r.matchesRow x.2 = true := by
  constructor
  · rintro ⟨x, hx, hg, hm, hmax⟩
    refine ⟨x, hx, ?_, hg, hm⟩
    show latest.flag x.2 = true
    rw [ht.flags x hx]
    intro y hy hgy
    exact hmax y hy (hgy.trans hg)
  · rintro ⟨x, hx, hf, hg, hm⟩
    refine ⟨x, hx, hg, hm, ?_⟩
    intro y hy hgy
    exact (ht.flags x hx).mp hf y hy (hgy.trans hg.symm)

/-! ## Inside a transaction and outside

`Process` and `Undo` run inside the transaction there is, or in one of their own. What follows is
about both. -/

section

variable {f : Lib.Call Err CTxInfoStore}

/-- A call that returns whatever transaction it is in leaves the rows it returns with. -/
theorem KeepsInv.run_ok (hf : KeepsInv f) {db : Lib.Table TxDbEntry}
    (h : ∀ s : CTxInfoStore, s.db = st.db → ∃ s', f s = .ok s' ∧ s'.db = db) :
    ∃ st', (if st.inTransaction then f st else st.withView f) = .ok st' ∧ st'.db = db ∧
      st'.curTransaction = st.curTransaction := by
  split
  · obtain ⟨s', hs', hdb⟩ := h st rfl
    exact ⟨s', hs', hdb, (hf.ok _ _ hs').1⟩
  · next hst =>
    have hnone : st.curTransaction = none := by simpa [inTransaction] using hst
    obtain ⟨s₀, hs₀, hdb⟩ := h { st with curTransaction := some st.db, byteEstimate := 0 } rfl
    rcases withView_cases (f := f) (by simpa using hst) (fun s s' hs => (hf.ok s s' hs).1)
        (fun s e s' hs => by rw [hf.error s e s' hs]) with ⟨s', hs', h'⟩ | ⟨e, s', hs', -⟩
    · rw [hs₀] at hs'
      cases hs'
      exact ⟨_, h', hdb, hnone.symm⟩
    · rw [hs₀] at hs'
      cases hs'

theorem KeepsInv.curTransaction (hf : KeepsInv f)
    (h : (if st.inTransaction then f st else st.withView f) = .ok st') :
    st'.curTransaction = st.curTransaction := by
  split at h
  · exact (hf.ok _ _ h).1
  · next hst =>
    have hnone : st.curTransaction = none := by simpa [inTransaction] using hst
    rcases withView_cases (f := f) (by simpa using hst) (fun s s' hs => (hf.ok s s' hs).1)
        (fun s e s' hs => by rw [hf.error s e s' hs]) with ⟨s', -, h'⟩ | ⟨e, s', -, h'⟩ <;>
      rw [h'] at h <;> cases h
    exact hnone.symm

/-- Outside a transaction nothing is estimated. -/
def Settled (st : CTxInfoStore) : Prop := st.curTransaction = none → st.byteEstimate = 0

/-- A call that fails whatever transaction it is in changes nothing. -/
theorem KeepsInv.run_error (hf : KeepsInv f) (hst : st.Settled) {e : Err}
    (h : ∀ s : CTxInfoStore, s.db = st.db → f s = .error (e, s)) :
    (if st.inTransaction then f st else st.withView f) = .error (e, st) := by
  split
  · exact h st rfl
  · next hnot =>
    have hnone : st.curTransaction = none := by simpa [inTransaction] using hnot
    have h₀ := h { st with curTransaction := some st.db, byteEstimate := 0 } rfl
    rcases withView_cases (f := f) (by simpa using hnot) (fun s s' hs => (hf.ok s s' hs).1)
        (fun s e s' hs => by rw [hf.error s e s' hs]) with ⟨s', hs', -⟩ | ⟨e', s', hs', h'⟩
    · rw [h₀] at hs'
      cases hs'
    · rw [h₀] at hs'
      cases hs'
      rw [h']
      obtain ⟨db, cur, est⟩ := st
      have hest : est = 0 := hst hnone
      simp only at hnone
      rw [hnone, hest]

theorem KeepsInv.settled (hf : KeepsInv f) :
    (Lib.final (if st.inTransaction then f st else st.withView f)).Settled := by
  split
  · next hin =>
    -- still inside the transaction
    have hcur : (Lib.final (f st)).curTransaction = st.curTransaction := by
      cases hx : f st with
      | ok st' => exact (hf.ok _ _ hx).1
      | error es =>
          obtain ⟨e, s'⟩ := es
          rw [Lib.final, hf.error _ _ _ hx]
    intro hnone
    rw [hcur] at hnone
    simp [inTransaction, hnone] at hin
  · next hst =>
    rcases withView_cases (f := f) (by simpa using hst) (fun s s' hs => (hf.ok s s' hs).1)
        (fun s e s' hs => by rw [hf.error s e s' hs]) with ⟨s', -, h'⟩ | ⟨e, s', -, h'⟩ <;>
      rw [h'] <;> exact fun _ => rfl

end

theorem settled_new : new.Settled := fun _ => rfl

theorem call_settled (h : st.Settled) (op : StoreOp) : (Lib.final (st.call env op)).Settled := by
  cases op with
  | process r => exact (_process_keepsInv env r).settled
  | undo r => exact (_undo_keepsInv env r).settled
  | beginTransaction =>
      show (Lib.final st.beginTransaction).Settled
      unfold beginTransaction
      split
      · exact h
      · exact fun _ => rfl
  | commit =>
      show (Lib.final st.commit).Settled
      unfold commit
      split
      · exact fun _ => rfl
      · exact h
  | rollback =>
      show (Lib.final st.rollback).Settled
      unfold rollback
      split
      · exact fun _ => rfl
      · exact h

theorem execAll_settled (h : st.Settled) (ops : List StoreOp) : (st.execAll env ops).Settled := by
  induction ops generalizing st with
  | nil => exact h
  | cons op ops ih => exact ih (call_settled h op)

/-! ## `Undo` -/

/-- A record with a flagged row is popped. -/
theorem undo_ok (h : ∃ x ∈ st.db.rows, x.2.is_latest = true ∧ x.2.group = r.group env ∧
      r.matchesRow x.2 = true) :
    ∃ st', st.undo env r = .ok st' ∧ st'.db = latest.pop st.db (r.group env) r.matchesRow ∧
      st'.curTransaction = st.curTransaction := by
  apply (_undo_keepsInv env r).run_ok
  intro s hs
  rcases _undo_cases env s r with ⟨-, h'⟩ | ⟨hn, -⟩
  · exact ⟨_, h', by rw [hs]⟩
  · rw [hs] at hn
    exact absurd h hn

/-- An `Undo` that finds no flagged row of the record returns `false` and changes nothing. -/
theorem undo_error (hst : st.Settled)
    (h : ¬ ∃ x ∈ st.db.rows, x.2.is_latest = true ∧ x.2.group = r.group env ∧
      r.matchesRow x.2 = true) :
    st.undo env r = .error (.fail "Nothing to undo", st) := by
  apply (_undo_keepsInv env r).run_error hst
  intro s hs
  rcases _undo_cases env s r with ⟨hy, -⟩ | ⟨-, h'⟩
  · rw [hs] at hy
    exact absurd hy h
  · exact h'

/-! ## One record, and a list of them -/

/-- Undoing the record that was processed last brings the rows back. The store it is undone on
need only have the rows `Process` left, because the ids handed out since are not given back. -/
theorem undo_process (ht : RowsInv st.db) (h : st.process env r = .ok st') {s : CTxInfoStore}
    (hs : s.db.rows = st'.db.rows) :
    ∃ s', s.undo env r = .ok s' ∧ s'.db.rows = st.db.rows ∧
      s'.curTransaction = s.curTransaction := by
  obtain ⟨-, hdb⟩ := process_ok h
  have hrow : (st.db.seq + 1, r.toRow env) ∈ s.db.rows := by
    rw [hs, hdb]
    exact latest.mem_push.mpr (.inr rfl)
  obtain ⟨s', hs', hpop, hcur⟩ := undo_ok (r := r)
    ⟨_, hrow, rfl, rfl, r.matchesRow_toRow env⟩
  refine ⟨s', hs', ?_, hcur⟩
  calc s'.db.rows = (latest.pop s.db (r.group env) r.matchesRow).rows := by rw [hpop]
    _ = (latest.pop st'.db (r.group env) r.matchesRow).rows := Lib.History.pop_rows_congr _ hs
    _ = (latest.pop (latest.push st.db (r.toRow env)) (latest.group (r.toRow env))
          r.matchesRow).rows := by rw [hdb]; rfl
    _ = st.db.rows := latest_lawful.pop_push ht.flags rfl (r.matchesRow_toRow env)

/-- The records of a run of `Process`, undone in reverse order: the last one first, as it is the
one whose rows are on top. -/
theorem undo_reverse (rs : List TxInfoRecord) (ht : RowsInv st.db)
    (h : rs.foldlM (process env) st = .ok st') :
    ∃ s, rs.reverse.foldlM (undo env) st' = .ok s ∧ s.db.rows = st.db.rows ∧
      s.curTransaction = st.curTransaction := by
  induction rs generalizing st with
  | nil =>
      cases h
      exact ⟨_, rfl, rfl, rfl⟩
  | cons r rs ih =>
      rw [List.foldlM_cons, Lib.bind_eq_ok] at h
      obtain ⟨st₁, h₁, h⟩ := h
      obtain ⟨hv, hdb⟩ := process_ok h₁
      have ht₁ : RowsInv st₁.db := by
        rw [hdb]
        exact rowsInv_push ht hv
      obtain ⟨s, hs, hrows, hcur⟩ := ih ht₁ h
      obtain ⟨s', hs', hrows', hcur'⟩ := undo_process ht h₁ hrows
      refine ⟨s', ?_, hrows', ?_⟩
      · rw [List.reverse_cons, List.foldlM_append, hs]
        show (List.foldlM (undo env) s [r]) = _
        rw [List.foldlM_cons, hs']
        rfl
      · rw [hcur', hcur, (_process_keepsInv env r).curTransaction h₁]

/-- On every store a run of operations can reach: records that `Process` accepts one after another
are undone in reverse order without a failure, and the rows, flags and ids are what they were; and
an `Undo` of a record that is not the latest of its (address, type, key) returns `false` and leaves
the store as it is. -/
theorem undo_reverses_process (env : Env) (ops : List StoreOp) :
    let st := new.execAll env ops
    (∀ (rs : List TxInfoRecord) (st' : CTxInfoStore), rs.foldlM (process env) st = .ok st' →
      ∃ s : CTxInfoStore, rs.reverse.foldlM (undo env) st' = .ok s ∧ s.db.rows = st.db.rows ∧
        s.curTransaction = st.curTransaction) ∧
    ∀ r, ¬ st.IsLatestRecord env r →
      st.undo env r = .error (.fail "Nothing to undo", st) := by
  intro st
  have hinv : Inv st := execAll_inv inv_new ops
  refine ⟨fun rs st' h => undo_reverse rs hinv.rows h, ?_⟩
  intro r hr
  rw [isLatestRecord_iff hinv.rows] at hr
  exact undo_error (execAll_settled settled_new ops) hr

/-- One address says `v` under an overwritable key, at position `i` of a transaction. -/
def greeting (v : UInt8) (i : ℤ) : TxInfoRecord :=
  { addr := ⟨63, [1]⟩, info := ⟨⟨INFO_NORMAL, [97]⟩, [v]⟩, indexInfo := i }

/-- The same value twice with another one in between, and an `Undo` of a record that was never
processed. -/
theorem undo_reverses_process_greeting :
    let st := new.execAll Env.plain [.process (greeting 98 0)]
    (∃ st' s : CTxInfoStore,
      [greeting 99 1, greeting 98 2].foldlM (process Env.plain) st = .ok st' ∧
      [greeting 98 2, greeting 99 1].foldlM (undo Env.plain) st' = .ok s ∧
      s.db.rows = st.db.rows) ∧
    st.undo Env.plain (greeting 99 1) = .error (.fail "Nothing to undo", st) := by
  intro st
  obtain ⟨hundo, hfail⟩ := undo_reverses_process Env.plain [.process (greeting 98 0)]
  have hok : ([greeting 99 1, greeting 98 2].foldlM (process Env.plain) st).isOk = true := by
    decide +kernel
  obtain ⟨st', h⟩ := Lib.exists_of_isOk hok
  obtain ⟨s, hs, hrows, -⟩ := hundo _ st' h
  refine ⟨⟨st', s, h, hs, hrows⟩, hfail _ ?_⟩
  rintro ⟨x, hx, -, hm, -⟩
  have hnone : ∀ x ∈ st.db.rows, (greeting 99 1).matchesRow x.2 = false := by decide +kernel
  have := hnone x hx
  rw [hm] at this
  exact Bool.noConfusion this

end CTxInfoStore

end ShinyCoin

import ShinyCoin.TxInfo.Store

/-!
# The representation invariant of the info store

Nothing in the schema keeps the rows of `TxDbEntry` in order: the flags are maintained by two
`UPDATE`s, and uniqueness is a check that reads those flags. `RowsInv` is what holds of the rows
nevertheless:

* the flagged rows are the newest of their (address, type, key);
* an (address, key) of a set-once type has one row;
* a value of a unique key belongs to one address.

The first is the library's `FlagsLatest`; the other two need it, because the checks see flagged
rows only. A transaction keeps the invariant of the table it would go back to, so rollbacks are
covered, and so is every `Undo`, whether or not it names the latest record.
-/

namespace ShinyCoin

def TxDbEntry.infoKey (e : TxDbEntry) : TxInfoKey := ⟨e.key_type, e.key⟩

/-- Equal up to the flag. -/
def SameRow (r r' : Nat × TxDbEntry) : Prop :=
  r.1 = r'.1 ∧ ∃ b, r'.2 = { r.2 with is_latest := b }

theorem SameRow.refl (r : Nat × TxDbEntry) : SameRow r r := ⟨rfl, r.2.is_latest, rfl⟩

theorem SameRow.group {r r' : Nat × TxDbEntry} (h : SameRow r r') : r'.2.group = r.2.group := by
  obtain ⟨-, b, h⟩ := h
  rw [h]; rfl

theorem SameRow.infoKey {r r' : Nat × TxDbEntry} (h : SameRow r r') :
    r'.2.infoKey = r.2.infoKey := by
  obtain ⟨-, b, h⟩ := h
  rw [h]; rfl

theorem SameRow.value {r r' : Nat × TxDbEntry} (h : SameRow r r') : r'.2.value = r.2.value := by
  obtain ⟨-, b, h⟩ := h
  rw [h]

theorem SameRow.address {r r' : Nat × TxDbEntry} (h : SameRow r r') :
    r'.2.address = r.2.address := by
  obtain ⟨-, b, h⟩ := h
  rw [h]

section

variable {t : Lib.Table TxDbEntry}

theorem sameRow_of_mem_push {e : TxDbEntry} {r : Nat × TxDbEntry}
    (hr : r ∈ (latest.push t e).rows) :
    (∃ r₀ ∈ t.rows, SameRow r₀ r) ∨ r = (t.seq + 1, e) := by
  rcases latest.mem_push.mp hr with ⟨r₀, hr₀, rfl⟩ | rfl
  · left
    refine ⟨r₀, hr₀, ?_⟩
    split
    · exact ⟨rfl, false, rfl⟩
    · exact SameRow.refl r₀
  · exact .inr rfl

theorem sameRow_of_mem_pop {g : Bytes × UInt8 × Bytes} {p : TxDbEntry → Bool}
    {r : Nat × TxDbEntry} (hr : r ∈ (latest.pop t g p).rows) : ∃ r₀ ∈ t.rows, SameRow r₀ r := by
  obtain ⟨r₀, hr₀, -, rfl⟩ := latest.mem_pop.mp hr
  refine ⟨r₀, hr₀, ?_⟩
  split
  · exact ⟨rfl, true, rfl⟩
  · exact SameRow.refl r₀

/-- What holds of the rows after every run of operations. -/
structure RowsInv (t : Lib.Table TxDbEntry) : Prop where
  flags : latest.FlagsLatest t
  setOnce : ∀ r ∈ t.rows, ∀ r' ∈ t.rows, r.2.group = r'.2.group →
    r.2.infoKey.isSetOnceType = true → r = r'
  unique : ∀ r ∈ t.rows, ∀ r' ∈ t.rows, r.2.infoKey = r'.2.infoKey → r.2.value = r'.2.value →
    r.2.infoKey.isUniqueType = true → r.2.address = r'.2.address

theorem rowsInv_empty : RowsInv Lib.Table.empty where
  flags := latest.flagsLatest_empty
  setOnce := by intro r hr; simp at hr
  unique := by intro r hr; simp at hr

/-- The only row of a set-once key is flagged. -/
theorem RowsInv.is_latest (ht : RowsInv t) {r : Nat × TxDbEntry} (hr : r ∈ t.rows)
    (hs : r.2.infoKey.isSetOnceType = true) : r.2.is_latest = true := by
  rw [show r.2.is_latest = latest.flag r.2 from rfl, ht.flags r hr]
  intro r' hr' hg
  rw [ht.setOnce r hr r' hr' hg.symm hs]

theorem infoKey_of_group_eq {e e' : TxDbEntry} (h : e.group = e'.group) :
    e.infoKey = e'.infoKey := by
  simp only [TxDbEntry.group, Prod.mk.injEq] at h
  rw [TxDbEntry.infoKey, TxDbEntry.infoKey, h.2.1, h.2.2]

theorem RowsInv.pop (ht : RowsInv t) (g : Bytes × UInt8 × Bytes) (p : TxDbEntry → Bool) :
    RowsInv (latest.pop t g p) where
  flags := ht.flags.pop g p
  setOnce := by
    intro r hr r' hr' hg hs
    obtain ⟨r₀, hr₀, h⟩ := sameRow_of_mem_pop hr
    obtain ⟨r₁, hr₁, h'⟩ := sameRow_of_mem_pop hr'
    apply (latest.pop t g p).eq_of_id_eq hr hr'
    rw [← h.1, ← h'.1, ht.setOnce r₀ hr₀ r₁ hr₁ (by rw [← h.group, hg, h'.group])
      (by rw [← h.infoKey]; exact hs)]
  unique := by
    intro r hr r' hr' hk hv hu
    obtain ⟨r₀, hr₀, h⟩ := sameRow_of_mem_pop hr
    obtain ⟨r₁, hr₁, h'⟩ := sameRow_of_mem_pop hr'
    rw [h.address, h'.address]
    exact ht.unique r₀ hr₀ r₁ hr₁ (by rw [← h.infoKey, hk, h'.infoKey])
      (by rw [← h.value, hv, h'.value]) (by rw [← h.infoKey]; exact hu)

end

theorem TxInfoKey.isSetOnceType_of_isUniqueType {key : TxInfoKey} (h : key.isUniqueType = true) :
    key.isSetOnceType = true := by
  simp [isSetOnceType, h]

namespace CTxInfoStore

theorem addressesWithValue_eq_nil {env : Env} {st : CTxInfoStore} {key : TxInfoKey}
    {value : Bytes} :
    st.addressesWithValue env key value = [] ↔
      ∀ r ∈ st.db.rows, r.2.infoKey = key → r.2.value = value → r.2.is_latest = false := by
  cases key with
  | mk type keyString =>
      simp only [addressesWithValue, List.map_eq_nil_iff, List.filter_eq_nil_iff, TxDbEntry.infoKey,
        TxInfoKey.mk.injEq, Bool.and_eq_true, beq_iff_eq, not_and, Bool.not_eq_true, and_imp]

/-- An accepted record keeps the invariant: a unique value has no holder, because a holder's row
would be flagged and the check would have seen it. -/
theorem rowsInv_push {env : Env} {st : CTxInfoStore} {r : TxInfoRecord} (ht : RowsInv st.db)
    (hv : st.isValid env r = .ok ()) : RowsInv (latest.push st.db (r.toRow env)) := by
  obtain ⟨-, hunique, honce⟩ := isValid_eq_ok.mp hv
  have hkey : (r.toRow env).infoKey = r.info.key := rfl
  have hgroup : (r.toRow env).group = r.group env := rfl
  refine ⟨ht.flags.push rfl, ?_, ?_⟩
  · intro x hx y hy hg hs
    rcases sameRow_of_mem_push hx with ⟨x₀, hx₀, h⟩ | rfl <;>
      rcases sameRow_of_mem_push hy with ⟨y₀, hy₀, h'⟩ | rfl
    · apply (latest.push st.db (r.toRow env)).eq_of_id_eq hx hy
      rw [← h.1, ← h'.1, ht.setOnce x₀ hx₀ y₀ hy₀ (by rw [← h.group, hg, h'.group])
        (by rw [← h.infoKey]; exact hs)]
    · have hs' : r.info.key.isSetOnceType = true := by
        rw [← hkey, ← infoKey_of_group_eq hg]; exact hs
      exact absurd (by rw [← h.group, hg, hgroup]) (honce hs' x₀ hx₀)
    · exact absurd (by rw [← h'.group, ← hg, hgroup]) (honce hs y₀ hy₀)
    · rfl
  · -- a row with the new row's key and value contradicts the check
    have hfree : ∀ x₀ ∈ st.db.rows, x₀.2.infoKey = r.info.key → x₀.2.value = r.info.value →
        r.info.key.isUniqueType = true → False := by
      intro x₀ hx₀ hk hval hu
      have hf := addressesWithValue_eq_nil.mp (hunique hu) x₀ hx₀ hk hval
      rw [ht.is_latest hx₀ (by rw [hk]; exact TxInfoKey.isSetOnceType_of_isUniqueType hu)] at hf
      exact Bool.noConfusion hf
    intro x hx y hy hk hval hu
    rcases sameRow_of_mem_push hx with ⟨x₀, hx₀, h⟩ | rfl <;>
      rcases sameRow_of_mem_push hy with ⟨y₀, hy₀, h'⟩ | rfl
    · rw [h.address, h'.address]
      exact ht.unique x₀ hx₀ y₀ hy₀ (by rw [← h.infoKey, hk, h'.infoKey])
        (by rw [← h.value, hval, h'.value]) (by rw [← h.infoKey]; exact hu)
    · exact (hfree x₀ hx₀ (by rw [← h.infoKey, hk, hkey]) (by rw [← h.value, hval]; rfl)
        (by rw [← hkey, ← hk]; exact hu)).elim
    · exact (hfree y₀ hy₀ (by rw [← h'.infoKey, ← hk, hkey]) (by rw [← h'.value, ← hval]; rfl)
        hu).elim
    · rfl

/-- The invariant of a store: of its rows, and of the rows a rollback would bring back. -/
structure Inv (st : CTxInfoStore) : Prop where
  rows : RowsInv st.db
  saved : ∀ t, st.curTransaction = some t → RowsInv t

theorem inv_new : Inv new := ⟨rowsInv_empty, by intro t h; simp [new] at h⟩

/-! ## No exception -/

theorem uniqueAddressWithValue_ok {env : Env} {st : CTxInfoStore} (ht : RowsInv st.db)
    {key : TxInfoKey} (hu : key.isUniqueType = true) (value : Bytes) :
    ∃ holder, st.uniqueAddressWithValue env key value = .ok holder := by
  rw [uniqueAddressWithValue, if_pos hu]
  rcases hl : st.addressesWithValue env key value with _ | ⟨a, _ | ⟨b, rest⟩⟩
  · exact ⟨_, rfl⟩
  · exact ⟨_, rfl⟩
  · -- two hits would be two rows of one set-once group
    exfalso
    obtain ⟨type, keyString⟩ := key
    rw [addressesWithValue] at hl
    obtain ⟨x, l, hf, -, hl'⟩ := List.map_eq_cons_iff.mp hl
    obtain ⟨y, l', rfl, -, -⟩ := List.map_eq_cons_iff.mp hl'
    have hsub : [x, y].Sublist st.db.rows := by
      have hxy : [x, y].Sublist (x :: y :: l') := by simp
      exact hxy.trans (hf ▸ List.filter_sublist)
    have hmem : ∀ z ∈ [x, y], z ∈ st.db.rows ∧ z.2.infoKey = ⟨type, keyString⟩ ∧
        z.2.value = value := by
      intro z hz
      have hz' : z ∈ x :: y :: l' := by
        simp only [List.mem_cons, List.not_mem_nil, or_false] at hz ⊢
        tauto
      rw [← hf, List.mem_filter] at hz'
      simp only [Bool.and_eq_true, beq_iff_eq] at hz'
      obtain ⟨hz', ⟨⟨h1, h2⟩, h3⟩, -⟩ := hz'
      refine ⟨hz', ?_, h3⟩
      rw [TxDbEntry.infoKey, h1, h2]
    obtain ⟨hx, hkx, hvx⟩ := hmem x (by simp)
    obtain ⟨hy, hky, hvy⟩ := hmem y (by simp)
    have haddr := ht.unique x hx y hy (hkx.trans hky.symm) (hvx.trans hvy.symm)
      (by rw [hkx]; exact hu)
    have hkey : x.2.infoKey = y.2.infoKey := hkx.trans hky.symm
    simp only [TxDbEntry.infoKey, TxInfoKey.mk.injEq] at hkey
    have hxy : x = y := ht.setOnce x hx y hy
      (by rw [TxDbEntry.group, TxDbEntry.group, haddr, hkey.1, hkey.2])
      (by rw [hkx]; exact TxInfoKey.isSetOnceType_of_isUniqueType hu)
    have hlt : x.1 < y.1 := by
      have := List.Pairwise.sublist hsub st.db.sorted
      simpa using this
    rw [hxy] at hlt
    exact lt_irrefl _ hlt

theorem require_ne_exc {c : Bool} {msg what : String} :
    Lib.require c (Err.fail msg) ≠ .error (Err.exc what) := by
  simp

theorem info_isValid_ne_exc (info : CTxInfo) (what : String) :
    info.isValid ≠ .error (Err.exc what) := by
  simp only [CTxInfo.isValid, TxInfoKey.isValid, ne_eq, Lib.bind_eq_error, Lib.require_eq_error]
  simp

/-- With the invariant, checking a record never throws. -/
theorem isValid_ne_exc {env : Env} {st : CTxInfoStore} (ht : RowsInv st.db) (r : TxInfoRecord)
    (what : String) : st.isValid env r ≠ .error (Err.exc what) := by
  have h₁ := info_isValid_ne_exc r.info what
  have h₂ : st.checkUniqueValue env r ≠ .error (Err.exc what) := by
    rw [checkUniqueValue]
    split
    · next hu =>
      obtain ⟨holder, h⟩ : ∃ holder, st.uniqueAddressWithValue env r.info.key r.info.value
          = .ok holder := uniqueAddressWithValue_ok ht hu r.info.value
      rw [h]
      exact require_ne_exc
    · simp
  have h₃ : st.checkNotSet env r ≠ .error (Err.exc what) := by
    rw [checkNotSet]
    split
    · exact require_ne_exc
    · simp
  rw [isValid]
  simp only [ne_eq, Lib.bind_eq_error, not_or, not_exists, not_and]
  exact ⟨h₁, fun _ _ => ⟨h₂, fun _ _ => h₃⟩⟩

/-! ## What a call leaves -/

/-- A call on a store that keeps the invariant of the rows, leaves the transaction alone, and
changes nothing when it fails. -/
structure KeepsInv (f : Lib.Call Err CTxInfoStore) : Prop where
  ok : ∀ s s', f s = .ok s' →
    s'.curTransaction = s.curTransaction ∧ (RowsInv s.db → RowsInv s'.db)
  error : ∀ s e s', f s = .error (e, s') → s' = s

theorem _process_keepsInv (env : Env) (r : TxInfoRecord) : KeepsInv (_process env · r) where
  ok := by
    intro s s' h
    rcases _process_cases env s r with ⟨hv, n, h'⟩ | ⟨e, -, h'⟩ <;> rw [h'] at h <;> cases h
    exact ⟨rfl, fun hs => rowsInv_push hs hv⟩
  error := by
    intro s e s' h
    rcases _process_cases env s r with ⟨hv, n, h'⟩ | ⟨e, -, h'⟩ <;> rw [h'] at h <;> cases h
    rfl

theorem _undo_keepsInv (env : Env) (r : TxInfoRecord) : KeepsInv (_undo env · r) where
  ok := by
    intro s s' h
    rcases _undo_cases env s r with ⟨-, h'⟩ | ⟨-, h'⟩ <;> rw [h'] at h <;> cases h
    exact ⟨rfl, fun hs => hs.pop _ _⟩
  error := by
    intro s e s' h
    rcases _undo_cases env s r with ⟨-, h'⟩ | ⟨-, h'⟩ <;> rw [h'] at h <;> cases h
    rfl

/-- Such a call keeps the invariant inside a transaction, and in one of its own outside. -/
theorem KeepsInv.inv {f : Lib.Call Err CTxInfoStore} (hf : KeepsInv f) {st : CTxInfoStore}
    (h : Inv st) : Inv (Lib.final (if st.inTransaction then f st else st.withView f)) := by
  by_cases ht : st.inTransaction = true
  · rw [if_pos ht]
    match hx : f st with
    | .ok st' =>
        obtain ⟨hcur, hrows⟩ := hf.ok _ _ hx
        exact ⟨hrows h.rows, by rw [Lib.final, hcur]; exact h.saved⟩
    | .error (e, st') =>
        rw [Lib.final, hf.error _ _ _ hx]
        exact h
  · rw [if_neg ht]
    rcases withView_cases (f := f) (by simpa using ht) (fun s s' hs => (hf.ok s s' hs).1)
        (fun s e s' hs => by rw [hf.error s e s' hs]) with ⟨s', hs', h'⟩ | ⟨e, s', -, h'⟩ <;>
      rw [h']
    · exact ⟨(hf.ok _ _ hs').2 h.rows, by intro t ht'; simp [Lib.final] at ht'⟩
    · exact ⟨h.rows, by intro t ht'; simp [Lib.final] at ht'⟩

/-- With the invariant, processing a record never throws, inside a transaction or in one of its
own. -/
theorem process_ne_exc {env : Env} {st : CTxInfoStore} (ht : RowsInv st.db) (r : TxInfoRecord)
    (what : String) (st' : CTxInfoStore) : st.process env r ≠ .error (Err.exc what, st') := by
  intro hx
  have hk := _process_keepsInv env r
  rw [process] at hx
  split at hx
  · rcases _process_cases env st r with ⟨-, n, h'⟩ | ⟨e, he, h'⟩ <;> rw [h'] at hx <;> cases hx
    exact isValid_ne_exc ht r what he
  · next hin =>
    rcases withView_cases (f := (_process env · r)) (by simpa using hin)
        (fun s s' hs => (hk.ok s s' hs).1) (fun s e s' hs => by rw [hk.error s e s' hs])
      with ⟨s', -, h'⟩ | ⟨e, s', hs', h'⟩ <;> rw [h'] at hx <;> cases hx
    rcases _process_cases env { st with curTransaction := some st.db, byteEstimate := 0 } r
      with ⟨-, n, h''⟩ | ⟨e, he, h''⟩ <;> rw [h''] at hs' <;> cases hs'
    have ht' : RowsInv ({ st with curTransaction := some st.db, byteEstimate := 0 } :
        CTxInfoStore).db := ht
    exact isValid_ne_exc ht' r what he

/-! ## Runs -/

/-- The operations on a store. -/
inductive StoreOp where
  | process (r : TxInfoRecord)
  | undo (r : TxInfoRecord)
  | beginTransaction
  | commit
  | rollback

def call (env : Env) (st : CTxInfoStore) : StoreOp → Except (Err × CTxInfoStore) CTxInfoStore
  | .process r => st.process env r
  | .undo r => st.undo env r
  | .beginTransaction => st.beginTransaction
  | .commit => st.commit
  | .rollback => st.rollback

/-- The store after a run, in which any operation may have failed. -/
def execAll (env : Env) (st : CTxInfoStore) (ops : List StoreOp) : CTxInfoStore :=
  ops.foldl (fun st op => Lib.final (st.call env op)) st

theorem call_inv {env : Env} {st : CTxInfoStore} (h : Inv st) (op : StoreOp) :
    Inv (Lib.final (st.call env op)) := by
  cases op with
  | process r => exact (_process_keepsInv env r).inv h
  | undo r => exact (_undo_keepsInv env r).inv h
  | beginTransaction =>
      rw [call, beginTransaction]
      split
      · exact h
      · refine ⟨h.rows, ?_⟩
        intro t ht
        rw [← Option.some.inj ht]
        exact h.rows
  | commit =>
      rw [call, commit]
      split
      · exact ⟨h.rows, by intro t ht; simp [Lib.final] at ht⟩
      · exact h
  | rollback =>
      rw [call, rollback]
      split
      · next t ht => exact ⟨h.saved t ht, by intro t' ht'; simp [Lib.final] at ht'⟩
      · exact h

theorem execAll_inv {env : Env} {st : CTxInfoStore} (h : Inv st) (ops : List StoreOp) :
    Inv (st.execAll env ops) := by
  induction ops generalizing st with
  | nil => exact h
  | cons op ops ih => exact ih (call_inv h op)

/-- The rows after any run on an empty store: one flagged row in each group, the newest; one row
for a set-once key; one holder for a unique value. So no lookup of a holder, no check and no
`Process` after the run throws. -/
theorem store_representation (env : Env) (ops : List StoreOp) :
    let st := new.execAll env ops
    (∀ r ∈ st.db.rows, ∃ m ∈ st.db.rows, m.2.group = r.2.group ∧ m.2.is_latest = true ∧
      ∀ r' ∈ st.db.rows, r'.2.group = r.2.group → r'.1 ≤ m.1 ∧ (r'.2.is_latest = true → r' = m)) ∧
    (∀ r ∈ st.db.rows, ∀ r' ∈ st.db.rows, r.2.group = r'.2.group →
      r.2.infoKey.isSetOnceType = true → r = r') ∧
    (∀ r ∈ st.db.rows, ∀ r' ∈ st.db.rows, r.2.infoKey = r'.2.infoKey → r.2.value = r'.2.value →
      r.2.infoKey.isUniqueType = true → r.2.address = r'.2.address) ∧
    (∀ key value, key.isUniqueType = true →
      ∃ holder, st.uniqueAddressWithValue env key value = .ok holder) ∧
    (∀ record what, st.isValid env record ≠ .error (.exc what)) ∧
    (∀ record what st', st.process env record ≠ .error (.exc what, st')) := by
  intro st
  have h : Inv st := execAll_inv inv_new ops
  refine ⟨?_, h.rows.setOnce, h.rows.unique,
    fun key value hu => uniqueAddressWithValue_ok h.rows hu value,
    fun record what => isValid_ne_exc h.rows record what, ?_⟩
  · intro r hr
    obtain ⟨m, ⟨hm, hg, hf⟩, huniq⟩ := h.rows.flags.existsUnique hr
    refine ⟨m, hm, hg, hf, fun r' hr' hg' => ⟨?_, fun hf' => huniq r' ⟨hr', hg', hf'⟩⟩⟩
    exact (h.rows.flags m hm).mp hf r' hr' (hg'.trans hg.symm)
  · intro record what st' hx
    exact process_ne_exc h.rows record what st' hx

end CTxInfoStore

end ShinyCoin

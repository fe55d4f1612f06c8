import ShinyCoin.Core.Base58
import ShinyCoin.Lib.Table

/-!
# The info store

`CTxInfoStore`: the infos of the transactions of the main chain, one row of an SQLite table for
each. `Process` supersedes the latest row of an (address, type, key), `Undo` takes the latest row
away again, and both are checked or looked up through queries on the same table. A transaction
keeps the rows it started from, for `Rollback`.

Strings are bound with their full length but read back through `getText`, a `const char*`.
-/

namespace ShinyCoin

/-! ## Keys, infos and records -/

namespace TxInfoKey

/-- The letters `a` to `z`, the digits and the dash. -/
def isValidIDCharacter (c : UInt8) : Bool := (97 ≤ c && c ≤ 122) || (48 ≤ c && c ≤ 57) || c == 45

def isValid (key : TxInfoKey) : Except Err Unit := do
  Lib.require (key.type ≤ TX_INFO_MAX_VALID_TYPE) (Err.fail "Invalid key type")
  Lib.require (!key.keyString.isEmpty) (Err.fail "Key string is empty")
  Lib.require (key.keyString.all isValidIDCharacter) (Err.fail "Invalid ID character in key")

/-- The types whose values may be held by one address only. -/
def isUniqueType (key : TxInfoKey) : Bool := key.type == INFO_UNIQUE || key.type == INFO_ID

/-- The types an address may set only once. -/
def isSetOnceType (key : TxInfoKey) : Bool := key.isUniqueType || key.type == INFO_WRITE_ONCE

end TxInfoKey

def CTxInfo.isValid (info : CTxInfo) : Except Err Unit := do
  info.key.isValid
  Lib.require (!info.value.isEmpty) (Err.fail "Invalid value")
  Lib.require (info.key.type != INFO_ID || info.value.all TxInfoKey.isValidIDCharacter)
    (Err.fail "Invalid ID character in value")

structure TxInfoRecord where
  addr : CBitcoinAddress
  info : CTxInfo
  blockHash : Uint256 := 0
  indexTx : ℤ := -1
  indexTxIn : ℤ := -1
  indexInfo : ℤ := -1
  deriving DecidableEq, Repr

/-- `uint256::GetHex(64)`: 64 hexadecimal digits, most significant first. -/
def getHex (hash : Uint256) : Bytes :=
  (List.range 64).map fun i =>
    let d := hash / 16 ^ (63 - i) % 16
    UInt8.ofNat (if d < 10 then 48 + d else 87 + d)

/-! ## The table -/

/-- The columns of `TxDbEntry`, besides its id. -/
structure TxDbEntry where
  is_latest : Bool
  address : Bytes
  key_type : UInt8
  key : Bytes
  value : Bytes
  block_hash : Bytes
  index_tx : ℤ
  index_txin : ℤ
  index_info : ℤ
  deriving DecidableEq, Repr

/-- The columns `WHERE address=? AND key_type=? AND key=?` selects by. -/
def TxDbEntry.group (e : TxDbEntry) : Bytes × UInt8 × Bytes := (e.address, e.key_type, e.key)

/-- Rows of one (address, type, key) are a history, `is_latest` flags its newest row. -/
def latest : Lib.History TxDbEntry (Bytes × UInt8 × Bytes) where
  group := TxDbEntry.group
  flag := TxDbEntry.is_latest
  setFlag b e := { e with is_latest := b }
  group_setFlag _ _ := rfl
  flag_setFlag _ _ := rfl

namespace TxInfoRecord

/-- The row `_Process` inserts. -/
def toRow (env : Env) (r : TxInfoRecord) : TxDbEntry where
  is_latest := true
  address := r.addr.toString env
  key_type := r.info.key.type
  key := r.info.key.keyString
  value := r.info.value
  block_hash := getHex r.blockHash
  index_tx := r.indexTx
  index_txin := r.indexTxIn
  index_info := r.indexInfo

def group (env : Env) (r : TxInfoRecord) : Bytes × UInt8 × Bytes :=
  (r.addr.toString env, r.info.key.type, r.info.key.keyString)

/-- The columns of the `DELETE` of `_Undo` besides the group and the flag. -/
def matchesRow (r : TxInfoRecord) (e : TxDbEntry) : Bool :=
  e.value == r.info.value && e.block_hash == getHex r.blockHash && e.index_tx == r.indexTx
    && e.index_txin == r.indexTxIn && e.index_info == r.indexInfo

end TxInfoRecord

/-! ## The store -/

/-- `curTransaction` is the table `ROLLBACK` goes back to, `none` outside a transaction. -/
structure CTxInfoStore where
  db : Lib.Table TxDbEntry
  curTransaction : Option (Lib.Table TxDbEntry) := none
  byteEstimate : Nat := 0

namespace CTxInfoStore

/-- A store on a file without rows. -/
def new : CTxInfoStore := { db := Lib.Table.empty }

def inTransaction (st : CTxInfoStore) : Bool := st.curTransaction.isSome

def beginTransaction (st : CTxInfoStore) : Except (Err × CTxInfoStore) CTxInfoStore :=
  if st.inTransaction then .error (.exc "Database view already has a transaction", st)
  else .ok { st with curTransaction := some st.db, byteEstimate := 0 }

def commit (st : CTxInfoStore) : Except (Err × CTxInfoStore) CTxInfoStore :=
  if st.inTransaction then .ok { st with curTransaction := none, byteEstimate := 0 }
  else .error (.exc "Can't Commit() without a transaction", st)

def rollback (st : CTxInfoStore) : Except (Err × CTxInfoStore) CTxInfoStore :=
  match st.curTransaction with
  | some db => .ok { db := db, curTransaction := none, byteEstimate := 0 }
  | none => .error (.exc "Can't Rollback() without a transaction", st)

/-! ### Queries -/

def get (env : Env) (st : CTxInfoStore) (addr : CBitcoinAddress) (key : TxInfoKey) :
    Option Bytes :=
  let maxId := st.db.maxId fun e => e.group = (addr.toString env, key.type, key.keyString)
  (st.db.rows.find? fun r => some r.1 = maxId).map fun r => cstr r.2.value

def addressesWithValue (env : Env) (st : CTxInfoStore) (key : TxInfoKey) (value : Bytes) :
    List CBitcoinAddress :=
  (st.db.rows.filter fun r =>
    r.2.key_type == key.type && r.2.key == key.keyString && r.2.value == value && r.2.is_latest).map
    fun r => CBitcoinAddress.ofString env (cstr r.2.address)

def uniqueAddressWithValue (env : Env) (st : CTxInfoStore) (key : TxInfoKey) (value : Bytes) :
    Except Err (Option CBitcoinAddress) :=
  if key.isUniqueType then
    match st.addressesWithValue env key value with
    | [] => .ok none
    | [addr] => .ok (some addr)
    | _ => .error (.exc "Unique key has multiple addresses for one value!")
  else .error (.exc "Only unique-type keys can have a unique address for a given value")

/-- The second check of `IsValid`: nobody holds the value of a unique key yet. -/
def checkUniqueValue (env : Env) (st : CTxInfoStore) (record : TxInfoRecord) : Except Err Unit :=
  if record.info.key.isUniqueType then do
    let holder ← st.uniqueAddressWithValue env record.info.key record.info.value
    Lib.require holder.isNone (Err.fail "Unique value is already set")
  else .ok ()

/-- The third check of `IsValid`: the address has not set a set-once key yet. -/
def checkNotSet (env : Env) (st : CTxInfoStore) (record : TxInfoRecord) : Except Err Unit :=
  if record.info.key.isSetOnceType then
    Lib.require (st.db.count (fun e => e.group = record.group env) == 0)
      (Err.fail "A non-overwritable value has already been set")
  else .ok ()

def isValid (env : Env) (st : CTxInfoStore) (record : TxInfoRecord) : Except Err Unit := do
  record.info.isValid
  st.checkUniqueValue env record
  st.checkNotSet env record

/-! ### Updates -/

/-- What a record adds to `byteEstimate`. -/
def byteEstimateOf (env : Env) (r : TxInfoRecord) : Nat :=
  4 + 1 + (r.addr.toString env).length + 1 + r.info.key.keyString.length + r.info.value.length
    + (getHex r.blockHash).length + 12

def _process (env : Env) (st : CTxInfoStore) (r : TxInfoRecord) :
    Except (Err × CTxInfoStore) CTxInfoStore :=
  match st.isValid env r with
  | .error e => .error (e, st)
  | .ok () => .ok { st with
      db := latest.push st.db (r.toRow env)
      byteEstimate := (st.byteEstimate + byteEstimateOf env r) % 2 ^ 32 }

def _undo (env : Env) (st : CTxInfoStore) (r : TxInfoRecord) :
    Except (Err × CTxInfoStore) CTxInfoStore :=
  if st.db.count (fun e => e.is_latest && e.group = r.group env && r.matchesRow e) == 0 then
    .error (.fail "Nothing to undo", st)
  else .ok { st with db := latest.pop st.db (r.group env) r.matchesRow }

/-- A `CTxInfoView` around a call: what the call did is committed when it returns `true` and
rolled back otherwise. -/
def withView (st : CTxInfoStore) (f : Lib.Call Err CTxInfoStore) :
    Except (Err × CTxInfoStore) CTxInfoStore := do
  let st ← st.beginTransaction
  match f st with
  | .ok st' => st'.commit
  | .error (e, st') =>
      match st'.rollback with
      | .ok st'' => .error (e, st'')
      | .error (_, st'') => .error (e, st'')

def process (env : Env) (st : CTxInfoStore) (r : TxInfoRecord) :
    Except (Err × CTxInfoStore) CTxInfoStore :=
  if st.inTransaction then st._process env r else st.withView (_process env · r)

def undo (env : Env) (st : CTxInfoStore) (r : TxInfoRecord) :
    Except (Err × CTxInfoStore) CTxInfoStore :=
  if st.inTransaction then st._undo env r else st.withView (_undo env · r)

/-! ## What a call can do -/

@[simp] theorem inTransaction_new : new.inTransaction = false := rfl

theorem checkUniqueValue_eq_ok {env : Env} {st : CTxInfoStore} {r : TxInfoRecord} :
    st.checkUniqueValue env r = .ok () ↔ (r.info.key.isUniqueType = true →
      st.addressesWithValue env r.info.key r.info.value = []) := by
  rw [checkUniqueValue]
  split
  · next hu =>
    simp only [Lib.bind_eq_ok, Lib.require_eq_ok, Option.isNone_iff_eq_none, hu, forall_true_left,
      uniqueAddressWithValue, if_true]
    split <;> simp_all
  · next hu => simp [hu]

theorem checkNotSet_eq_ok {env : Env} {st : CTxInfoStore} {r : TxInfoRecord} :
    st.checkNotSet env r = .ok () ↔ (r.info.key.isSetOnceType = true →
      ∀ x ∈ st.db.rows, x.2.group ≠ r.group env) := by
  rw [checkNotSet]
  split
  · next hs =>
    rw [Lib.require_eq_ok, beq_iff_eq, ← Nat.le_zero, ← not_lt, Lib.Table.count_pos]
    simp [hs]
  · next hs => simp [hs]

theorem isValid_eq_ok {env : Env} {st : CTxInfoStore} {r : TxInfoRecord} :
    st.isValid env r = .ok () ↔
      r.info.isValid = .ok () ∧
      (r.info.key.isUniqueType = true →
        st.addressesWithValue env r.info.key r.info.value = []) ∧
      (r.info.key.isSetOnceType = true → ∀ x ∈ st.db.rows, x.2.group ≠ r.group env) := by
  rw [isValid, Lib.seq_eq_ok, Lib.seq_eq_ok, checkUniqueValue_eq_ok, checkNotSet_eq_ok]

/-- A successful `_Process` inserts the record's row, and nothing else can happen. -/
theorem _process_cases (env : Env) (st : CTxInfoStore) (r : TxInfoRecord) :
    (st.isValid env r = .ok () ∧ ∃ n, st._process env r = .ok
        { st with db := latest.push st.db (r.toRow env), byteEstimate := n }) ∨
      ∃ e, st.isValid env r = .error e ∧ st._process env r = .error (e, st) := by
  cases h : st.isValid env r with
  | error e => exact .inr ⟨e, rfl, by simp [_process, h]⟩
  | ok u => exact .inl ⟨rfl, (st.byteEstimate + byteEstimateOf env r) % 2 ^ 32, by
      simp only [_process, h]⟩

theorem _undo_cases (env : Env) (st : CTxInfoStore) (r : TxInfoRecord) :
    (∃ x ∈ st.db.rows, x.2.is_latest = true ∧ x.2.group = r.group env ∧ r.matchesRow x.2 = true) ∧
        st._undo env r = .ok { st with db := latest.pop st.db (r.group env) r.matchesRow } ∨
      (¬ ∃ x ∈ st.db.rows, x.2.is_latest = true ∧ x.2.group = r.group env ∧
          r.matchesRow x.2 = true) ∧
        st._undo env r = .error (.fail "Nothing to undo", st) := by
  have hpos : 0 < st.db.count (fun e => e.is_latest && decide (e.group = r.group env)
      && r.matchesRow e) ↔ ∃ x ∈ st.db.rows, x.2.is_latest = true ∧ x.2.group = r.group env ∧
        r.matchesRow x.2 = true := by
    rw [Lib.Table.count_pos]
    simp [and_assoc]
  by_cases h : 0 < st.db.count (fun e => e.is_latest && decide (e.group = r.group env)
      && r.matchesRow e)
  · left
    refine ⟨hpos.mp h, ?_⟩
    rw [_undo, if_neg]
    simpa using Nat.ne_of_gt h
  · right
    refine ⟨fun h' => h (hpos.mpr h'), ?_⟩
    rw [_undo, if_pos]
    simpa using h

/-- Outside a transaction a call runs in one of its own: its rows stay when it returns `true`,
and no trace of it stays otherwise. -/
theorem withView_cases {st : CTxInfoStore} {f : Lib.Call Err CTxInfoStore}
    (hst : st.inTransaction = false)
    (hf : ∀ s s', f s = .ok s' → s'.curTransaction = s.curTransaction)
    (hf' : ∀ s e s', f s = .error (e, s') → s'.curTransaction = s.curTransaction) :
    (∃ s', f { st with curTransaction := some st.db, byteEstimate := 0 } = .ok s' ∧
        st.withView f = .ok { s' with curTransaction := none, byteEstimate := 0 }) ∨
      ∃ e s', f { st with curTransaction := some st.db, byteEstimate := 0 } = .error (e, s') ∧
        st.withView f = .error (e, { db := st.db, curTransaction := none, byteEstimate := 0 }) := by
  have hb : st.beginTransaction = .ok { st with curTransaction := some st.db, byteEstimate := 0 } := by
    simp [beginTransaction, hst]
  cases h : f { st with curTransaction := some st.db, byteEstimate := 0 } with
  | ok s' =>
      left
      refine ⟨s', rfl, ?_⟩
      have hc := hf _ _ h
      simp [withView, hb, bind, Except.bind, h, commit, inTransaction, hc]
  | error es =>
      obtain ⟨e, s'⟩ := es
      right
      refine ⟨e, s', rfl, ?_⟩
      have hc := hf' _ _ _ h
      simp [withView, hb, bind, Except.bind, h, rollback, hc]

/-- A record that was processed had passed its checks and is now a row. -/
theorem process_ok {env : Env} {st st' : CTxInfoStore} {r : TxInfoRecord}
    (h : st.process env r = .ok st') :
    st.isValid env r = .ok () ∧ st'.db = latest.push st.db (r.toRow env) := by
  have hin : ∀ s s' : CTxInfoStore, s._process env r = .ok s' →
      s.isValid env r = .ok () ∧ s'.db = latest.push s.db (r.toRow env) ∧
        s'.curTransaction = s.curTransaction := by
    intro s s' h
    rcases _process_cases env s r with ⟨hv, n, h'⟩ | ⟨e, -, h'⟩ <;> rw [h'] at h <;> cases h
    exact ⟨hv, rfl, rfl⟩
  rw [process] at h
  split at h
  · obtain ⟨hv, hdb, -⟩ := hin _ _ h
    exact ⟨hv, hdb⟩
  · next hst =>
    rcases withView_cases (f := (_process env · r)) (by simpa using hst)
        (fun s s' hs => (hin s s' hs).2.2)
        (fun s e s' hs => by
          rcases _process_cases env s r with ⟨-, n, h'⟩ | ⟨e', -, h'⟩ <;> rw [h'] at hs <;>
            cases hs; rfl) with ⟨s', hs', h'⟩ | ⟨e, s', -, h'⟩ <;> rw [h'] at h <;> cases h
    obtain ⟨hv, hdb, -⟩ := hin _ _ hs'
    exact ⟨hv, hdb⟩

end CTxInfoStore

end ShinyCoin

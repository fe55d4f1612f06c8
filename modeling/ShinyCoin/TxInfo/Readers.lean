import ShinyCoin.TxInfo.Invariant

/-!
# What readers of the info store see

`Get` looks for the greatest id, `AddressesWithValue` for the flag and the full value, and both
read text back as C strings. Here the rows are compared with the records that were processed: `Get`
gives the last record's value as far as its first NUL, `AddressesWithValue` finds an address exactly
when the last record's value is the one asked for, byte for byte. The two agree, and agree with the
records, when no last value has a NUL in it.
-/

namespace ShinyCoin

namespace CTxInfoStore

/-- `Process` of one record after the other, all of them successful. -/
def processAll (env : Env) (st : CTxInfoStore) (rs : List TxInfoRecord) :
    Except (Err × CTxInfoStore) CTxInfoStore :=
  rs.foldlM (fun st r => st.process env r) st

/-- The record of the address and key that was processed last. -/
def lastRecord (rs : List TxInfoRecord) (addr : CBitcoinAddress) (key : TxInfoKey) :
    Option TxInfoRecord :=
  rs.reverse.find? fun r => r.addr = addr && r.info.key = key

/-! ## Rows and records -/

/-- A row but for its flag. -/
def unflagged (e : TxDbEntry) : TxDbEntry := { e with is_latest := false }

/-- The rows are the records `rs`, in order. -/
def RowsOf (env : Env) (rs : List TxInfoRecord) (t : Lib.Table TxDbEntry) : Prop :=
  t.rows.map (fun r => unflagged r.2) = rs.map fun r => unflagged (r.toRow env)

theorem RowsOf.push {env : Env} {rs : List TxInfoRecord} {t : Lib.Table TxDbEntry}
    (h : RowsOf env rs t) (r : TxInfoRecord) :
    RowsOf env (rs ++ [r]) (latest.push t (r.toRow env)) := by
  have hflag : ∀ x : Nat × TxDbEntry, unflagged
      (if latest.group x.2 = latest.group (r.toRow env) then (x.1, latest.setFlag false x.2)
        else x).2 = unflagged x.2 := by
    intro x
    split <;> rfl
  rw [RowsOf, List.map_append, ← h]
  simp only [Lib.History.push, Lib.Table.insert, Lib.Table.update, List.map_append, List.map_map,
    decide_eq_true_eq, Function.comp_def, hflag, List.map_cons, List.map_nil]

/-- What a sequence of successful calls leaves: the records as rows, and the invariant. -/
theorem processAll_ok {env : Env} {st st' : CTxInfoStore} {rs₀ rs : List TxInfoRecord}
    (h : st.processAll env rs = .ok st') (hrows : RowsOf env rs₀ st.db) (hinv : RowsInv st.db) :
    RowsOf env (rs₀ ++ rs) st'.db ∧ RowsInv st'.db := by
  induction rs generalizing st rs₀ with
  | nil =>
      cases h
      exact ⟨by simpa using hrows, hinv⟩
  | cons r rs ih =>
      rw [processAll, List.foldlM_cons, Lib.bind_eq_ok] at h
      obtain ⟨st₁, h₁, h⟩ := h
      obtain ⟨hv, hdb⟩ := process_ok h₁
      have hrows₁ : RowsOf env (rs₀ ++ [r]) st₁.db := by
        rw [hdb]
        exact hrows.push r
      have := ih h hrows₁ (by rw [hdb]; exact rowsInv_push hinv hv)
      simpa using this

theorem group_eq_iff {env : Env} {addr addr' : CBitcoinAddress} {key key' : TxInfoKey} :
    (addr.toString env, key.type, key.keyString) = (addr'.toString env, key'.type, key'.keyString)
      ↔ addr = addr' ∧ key = key' := by
  cases key
  cases key'
  simp only [Prod.mk.injEq, TxInfoKey.mk.injEq, and_congr_left_iff]
  intro _
  exact ⟨CBitcoinAddress.toString_inj, fun h => by rw [h]⟩

/-- The newest row of an (address, key) is the last record's. -/
theorem find_latest_row {env : Env} {rs : List TxInfoRecord} {t : Lib.Table TxDbEntry}
    (h : RowsOf env rs t) (addr : CBitcoinAddress) (key : TxInfoKey) :
    (t.rows.find? fun r => some r.1 = t.maxId fun e =>
        e.group = (addr.toString env, key.type, key.keyString)).map (fun r => unflagged r.2)
      = (lastRecord rs addr key).map fun r => unflagged (r.toRow env) := by
  let p : TxDbEntry → Bool := fun e => e.group = (addr.toString env, key.type, key.keyString)
  have hrow : (fun r : Nat × TxDbEntry => p r.2)
      = p ∘ fun r : Nat × TxDbEntry => unflagged r.2 := rfl
  have hrec : (fun r : TxInfoRecord => decide (r.addr = addr) && decide (r.info.key = key))
      = p ∘ fun r : TxInfoRecord => unflagged (r.toRow env) := by
    funext r
    show _ = decide ((r.addr.toString env, r.info.key.type, r.info.key.keyString)
      = (addr.toString env, key.type, key.keyString))
    rw [decide_eq_decide.mpr group_eq_iff, Bool.decide_and]
  rw [Lib.Table.find?_maxId, show (fun r : Nat × TxDbEntry =>
      decide (r.2.group = (addr.toString env, key.type, key.keyString))) = _ from hrow,
    ← List.find?_map, List.map_reverse, h, ← List.map_reverse, List.find?_map, lastRecord, hrec]

/-! ## The two queries -/

/-- `Get` reads the last value up to its first NUL. -/
theorem get_eq {env : Env} {st : CTxInfoStore} {rs : List TxInfoRecord}
    (h : RowsOf env rs st.db) (addr : CBitcoinAddress) (key : TxInfoKey) :
    st.get env addr key = (lastRecord rs addr key).map fun r => cstr r.info.value := by
  have := congrArg (Option.map fun e : TxDbEntry => cstr e.value) (find_latest_row h addr key)
  rw [Option.map_map, Option.map_map] at this
  exact this

/-- `AddressesWithValue` compares last values as they were written. -/
theorem mem_addressesWithValue {env : Env} {st : CTxInfoStore} {rs : List TxInfoRecord}
    (h : RowsOf env rs st.db) (hinv : RowsInv st.db) {addr : CBitcoinAddress} {key : TxInfoKey}
    {value : Bytes} :
    addr ∈ st.addressesWithValue env key value ↔
      ∃ r, lastRecord rs addr key = some r ∧ r.info.value = value := by
  have hfind := find_latest_row h addr key
  simp only [addressesWithValue, List.mem_map, List.mem_filter, Bool.and_eq_true, beq_iff_eq]
  constructor
  · rintro ⟨x, ⟨hx, ⟨⟨htype, hkey⟩, hval⟩, hlatest⟩, haddr⟩
    -- the row is some record's, so its text is an address and the address is `addr`
    have hxr : unflagged x.2 ∈ rs.map fun r => unflagged (r.toRow env) := by
      rw [← h]
      exact List.mem_map_of_mem hx
    obtain ⟨r, -, hr⟩ := List.mem_map.mp hxr
    have hra : x.2.address = r.addr.toString env := (congrArg TxDbEntry.address hr).symm
    rw [hra, CBitcoinAddress.cstr_toString, CBitcoinAddress.ofString_toString] at haddr
    have hgroup : x.2.group = (addr.toString env, key.type, key.keyString) := by
      rw [TxDbEntry.group, hra, haddr, htype, hkey]
    have hmax : st.db.maxId (fun e =>
        decide (e.group = (addr.toString env, key.type, key.keyString))) = some x.1 := by
      rw [Lib.Table.maxId_eq_some]
      refine ⟨⟨x, hx, by simpa using hgroup, rfl⟩, ?_⟩
      intro x' hx' hg'
      exact (hinv.flags x hx).mp hlatest x' hx' ((of_decide_eq_true hg').trans hgroup.symm)
    rw [hmax] at hfind
    cases hl : st.db.rows.find? (fun r => decide (some r.1 = some x.1)) with
    | none =>
        rw [List.find?_eq_none] at hl
        exact absurd (by simp) (hl x hx)
    | some x' =>
        have hx' : x' = x := st.db.eq_of_id_eq (List.mem_of_find?_eq_some hl) hx
          (by simpa using List.find?_some hl)
        rw [hl, hx', Option.map_some] at hfind
        obtain ⟨r', hr', hrow⟩ := Option.map_eq_some_iff.mp hfind.symm
        exact ⟨r', hr', (congrArg TxDbEntry.value hrow).trans hval⟩
  · rintro ⟨r, hr, hval⟩
    rw [hr, Option.map_some] at hfind
    obtain ⟨x, hx, hrow⟩ := Option.map_eq_some_iff.mp hfind
    have hmem := List.mem_of_find?_eq_some hx
    have hmax : some x.1 = st.db.maxId fun e =>
        decide (e.group = (addr.toString env, key.type, key.keyString)) := by
      simpa using List.find?_some hx
    obtain ⟨⟨x', hx', hg', hid⟩, hle⟩ := Lib.Table.maxId_eq_some.mp hmax.symm
    rw [st.db.eq_of_id_eq hx' hmem hid] at hg'
    have hgroup : x.2.group = (addr.toString env, key.type, key.keyString) := of_decide_eq_true hg'
    have hgroup' := hgroup
    simp only [TxDbEntry.group, Prod.mk.injEq] at hgroup'
    refine ⟨x, ⟨hmem, ⟨⟨hgroup'.2.1, hgroup'.2.2⟩, ?_⟩, ?_⟩, ?_⟩
    · exact (congrArg TxDbEntry.value hrow).trans hval
    · apply (hinv.flags x hmem).mpr
      intro y hy hg
      exact hle y hy (decide_eq_true (hg.trans hgroup))
    · rw [hgroup'.1, CBitcoinAddress.cstr_toString, CBitcoinAddress.ofString_toString]

/-! ## Readers agree -/

/-- What readers are promised after the records `rs`: the last value, the same answer from both
queries, and one address for a value of a unique key. -/
def ReadersAgree (env : Env) (st : CTxInfoStore) (rs : List TxInfoRecord) : Prop :=
  (∀ addr key, st.get env addr key = (lastRecord rs addr key).map fun r => r.info.value) ∧
  (∀ addr key v, st.get env addr key = some v ↔ addr ∈ st.addressesWithValue env key v) ∧
  (∀ addr addr' key v, key.isUniqueType = true → st.get env addr key = some v →
    st.get env addr' key = some v → addr = addr')

/-- Two addresses found under a value of a unique key are one. -/
theorem addressesWithValue_unique {env : Env} {st : CTxInfoStore} (hinv : RowsInv st.db)
    {addr addr' : CBitcoinAddress} {key : TxInfoKey} {value : Bytes} (hu : key.isUniqueType = true)
    (ha : addr ∈ st.addressesWithValue env key value)
    (ha' : addr' ∈ st.addressesWithValue env key value) : addr = addr' := by
  simp only [addressesWithValue, List.mem_map, List.mem_filter, Bool.and_eq_true, beq_iff_eq] at ha ha'
  obtain ⟨x, ⟨hx, ⟨⟨htype, hkey⟩, hval⟩, -⟩, rfl⟩ := ha
  obtain ⟨y, ⟨hy, ⟨⟨htype', hkey'⟩, hval'⟩, -⟩, rfl⟩ := ha'
  have hxk : x.2.infoKey = key := by rw [TxDbEntry.infoKey, htype, hkey]
  have hyk : y.2.infoKey = key := by rw [TxDbEntry.infoKey, htype', hkey']
  rw [hinv.unique x hx y hy (hxk.trans hyk.symm) (hval.trans hval'.symm) (by rw [hxk]; exact hu)]

/-- Readers agree after a sequence of successful calls exactly when no last value holds a NUL. -/
theorem readersAgree_iff (env : Env) (st st' : CTxInfoStore) (rs : List TxInfoRecord)
    (hst : st.db.rows = []) (h : st.processAll env rs = .ok st') :
    ReadersAgree env st' rs ↔
      ∀ addr key r, lastRecord rs addr key = some r → (0 : UInt8) ∉ r.info.value := by
  have hempty : RowsInv st.db := by
    refine ⟨?_, ?_, ?_⟩
    · intro r hr; simp [hst] at hr
    · intro r hr; simp [hst] at hr
    · intro r hr; simp [hst] at hr
  obtain ⟨hrows, hinv⟩ := processAll_ok h (show RowsOf env [] st.db by simp [RowsOf, hst])
    hempty
  rw [List.nil_append] at hrows
  constructor
  · rintro ⟨hget, -, -⟩ addr key r hr
    have := hget addr key
    rw [get_eq hrows, hr, Option.map_some, Option.map_some, Option.some.injEq] at this
    exact cstr_eq_self.mp this
  · intro hnul
    have hget : ∀ addr key, st'.get env addr key
        = (lastRecord rs addr key).map fun r => r.info.value := by
      intro addr key
      rw [get_eq hrows]
      cases hr : lastRecord rs addr key with
      | none => rfl
      | some r => rw [Option.map_some, Option.map_some, cstr_eq_self.mpr (hnul addr key r hr)]
    have hiff : ∀ addr key v, st'.get env addr key = some v ↔
        addr ∈ st'.addressesWithValue env key v := by
      intro addr key v
      rw [hget, mem_addressesWithValue hrows hinv, Option.map_eq_some_iff]
    refine ⟨hget, hiff, ?_⟩
    intro addr addr' key v hu h₁ h₂
    exact addressesWithValue_unique hinv hu ((hiff addr key v).mp h₁)
      ((hiff addr' key v).mp h₂)

/-- One address takes the name `b`, another one `b` with a tail behind a NUL. -/
def nameRecord : TxInfoRecord := { addr := ⟨63, [1]⟩, info := ⟨⟨INFO_UNIQUE, [97]⟩, [98]⟩ }

@[inherit_doc nameRecord]
def shadowRecord : TxInfoRecord :=
  { addr := ⟨63, [2]⟩, info := ⟨⟨INFO_UNIQUE, [97]⟩, [98, 0, 99]⟩ }

/-- Two addresses with names of their own and the same text, which the first one then changes -/
def textRecords : List TxInfoRecord :=
  [nameRecord, { addr := ⟨63, [2]⟩, info := ⟨⟨INFO_UNIQUE, [97]⟩, [99]⟩ },
    { addr := ⟨63, [1]⟩, info := ⟨⟨INFO_NORMAL, [97]⟩, [98]⟩ },
    { addr := ⟨63, [2]⟩, info := ⟨⟨INFO_NORMAL, [97]⟩, [98]⟩ },
    { addr := ⟨63, [1]⟩, info := ⟨⟨INFO_NORMAL, [97]⟩, [100]⟩ }]

theorem readersAgree_textRecords :
    ∃ st', new.processAll Env.plain textRecords = .ok st' ∧
      ReadersAgree Env.plain st' textRecords := by
  have hok : (new.processAll Env.plain textRecords).isOk = true := by decide
  have hnul : ∀ r ∈ textRecords, (0 : UInt8) ∉ r.info.value := by decide
  obtain ⟨st', hst'⟩ := Lib.exists_of_isOk hok
  refine ⟨st', hst', (readersAgree_iff _ _ _ _ rfl hst').mpr ?_⟩
  intro addr key r hr
  exact hnul r (List.mem_reverse.mp (List.mem_of_find?_eq_some hr))

/-- Both records are accepted, and both addresses then read as the holder of the unique `b`. -/
theorem not_readersAgree_shadowRecord :
    ∃ st', new.processAll Env.plain [nameRecord, shadowRecord] = .ok st' ∧
      ¬ ReadersAgree Env.plain st' [nameRecord, shadowRecord] := by
  have hget : (new.processAll Env.plain [nameRecord, shadowRecord]).toOption.map (fun st' =>
      (st'.get Env.plain nameRecord.addr nameRecord.info.key,
        st'.get Env.plain shadowRecord.addr nameRecord.info.key)) = some (some [98], some [98]) := by
    decide
  obtain ⟨st', hst', hget⟩ := Option.map_eq_some_iff.mp hget
  rw [Prod.mk.injEq] at hget
  cases h : new.processAll Env.plain [nameRecord, shadowRecord] with
  | error e => rw [h] at hst'; cases hst'
  | ok st₁ =>
      rw [h] at hst'
      cases hst'
      refine ⟨st', rfl, ?_⟩
      rintro ⟨-, -, huniq⟩
      have := huniq nameRecord.addr shadowRecord.addr nameRecord.info.key [98] rfl hget.1 hget.2
      exact absurd this (by decide)

end CTxInfoStore

end ShinyCoin

import Mathlib.Data.List.Basic
import Mathlib.Data.List.Nodup
import Mathlib.Data.List.MinMax
import Mathlib.Order.Basic
import Mathlib.Tactic.Cases

/-!
# Tables with an auto-increment key

The part of SQL a small record store needs: a table whose rows carry an id, `INSERT` handing out
ids larger than any handed out before, `UPDATE … WHERE`, `DELETE … WHERE`, `COUNT` and `MAX(id)`.
The structure carries the order of the ids, so that no operation has to re-establish it.

On top of it, `History`: a table in which rows are grouped and each group marks its newest row with
a flag. `push` supersedes the newest row of a group, `pop` removes it and re-elects the one before.
`FlagsLatest` (the flagged rows are exactly the newest of their groups) is kept by both.
-/

namespace Lib

/-- Rows with their ids, in id order, and the largest id handed out so far. -/
structure Table (α : Type) where
  rows : List (Nat × α)
  seq : Nat
  sorted : rows.Pairwise (fun r r' => r.1 < r'.1)
  le_seq : ∀ r ∈ rows, r.1 ≤ seq

namespace Table

variable {α : Type}

/-- The table as created. -/
def empty : Table α := ⟨[], 0, List.Pairwise.nil, by simp⟩

/-- `INSERT`: the row gets the next id. -/
def insert (t : Table α) (a : α) : Table α where
  rows := t.rows ++ [(t.seq + 1, a)]
  seq := t.seq + 1
  sorted := by
    rw [List.pairwise_append]
    refine ⟨t.sorted, List.pairwise_singleton _ _, ?_⟩
    intro r hr r' hr'
    rw [List.mem_singleton.mp hr']
    exact Nat.lt_succ_of_le (t.le_seq r hr)
  le_seq := by
    intro r hr
    rcases List.mem_append.mp hr with hr | hr
    · exact Nat.le_succ_of_le (t.le_seq r hr)
    · rw [List.mem_singleton.mp hr]

/-- `UPDATE … WHERE p`: the ids stay. -/
def update (t : Table α) (p : Nat × α → Bool) (f : α → α) : Table α where
  rows := t.rows.map fun r => if p r then (r.1, f r.2) else r
  seq := t.seq
  sorted := by
    rw [List.pairwise_map]
    refine t.sorted.imp ?_
    intro r r' h
    split <;> split <;> exact h
  le_seq := by
    intro r hr
    obtain ⟨r₀, hr₀, rfl⟩ := List.mem_map.mp hr
    split <;> exact t.le_seq r₀ hr₀

/-- `DELETE … WHERE p`. -/
def delete (t : Table α) (p : Nat × α → Bool) : Table α where
  rows := t.rows.filter fun r => !p r
  seq := t.seq
  sorted := t.sorted.filter _
  le_seq := fun r hr => t.le_seq r (List.mem_of_mem_filter hr)

/-- `SELECT COUNT(*) … WHERE p`. -/
def count (t : Table α) (p : α → Bool) : Nat := t.rows.countP fun r => p r.2

/-- `SELECT MAX(id) … WHERE p`, `none` being `NULL`. -/
def maxId (t : Table α) (p : α → Bool) : Option Nat :=
  ((t.rows.filter fun r => p r.2).map Prod.fst).max?

/-! ## Membership -/

@[simp] theorem rows_empty : (empty : Table α).rows = [] := rfl

theorem mem_insert {t : Table α} {a : α} {r : Nat × α} :
    r ∈ (t.insert a).rows ↔ r ∈ t.rows ∨ r = (t.seq + 1, a) := by
  simp [insert]

theorem mem_update {t : Table α} {p : Nat × α → Bool} {f : α → α} {r : Nat × α} :
    r ∈ (t.update p f).rows ↔
      ∃ r₀ ∈ t.rows, r = if p r₀ then (r₀.1, f r₀.2) else r₀ := by
  rw [update, List.mem_map]
  constructor
  · rintro ⟨r₀, hr₀, rfl⟩; exact ⟨r₀, hr₀, rfl⟩
  · rintro ⟨r₀, hr₀, rfl⟩; exact ⟨r₀, hr₀, rfl⟩

theorem mem_delete {t : Table α} {p : Nat × α → Bool} {r : Nat × α} :
    r ∈ (t.delete p).rows ↔ r ∈ t.rows ∧ p r = false := by
  simp [delete]

/-- An id belongs to one row. -/
theorem eq_of_id_eq (t : Table α) {r r' : Nat × α} (hr : r ∈ t.rows) (hr' : r' ∈ t.rows)
    (h : r.1 = r'.1) : r = r' := by
  have hs : (t.rows.map Prod.fst).Nodup := by
    rw [List.Nodup, List.pairwise_map]
    exact t.sorted.imp Nat.ne_of_lt
  exact List.inj_on_of_nodup_map hs hr hr' h

theorem count_pos {t : Table α} {p : α → Bool} :
    0 < t.count p ↔ ∃ r ∈ t.rows, p r.2 = true :=
  List.countP_pos_iff

theorem count_insert {c : α → Bool} {t : Table α} {a : α} :
    (t.insert a).count c = t.count c + if c a then 1 else 0 := by
  simp [insert, count, List.countP_append, List.countP_singleton]

theorem count_update {c : α → Bool} {f : α → α} (hc : ∀ a, c (f a) = c a) {t : Table α}
    {p : Nat × α → Bool} : (t.update p f).count c = t.count c := by
  rw [count, count, update, List.countP_map]
  apply List.countP_congr
  intro r _
  simp only [Function.comp_apply]
  split
  · rw [hc]
  · rfl

theorem count_delete {c : α → Bool} {t : Table α} {p : Nat × α → Bool}
    (hp : ∀ r, p r = true → c r.2 = false) : (t.delete p).count c = t.count c := by
  rw [count, count, delete, List.countP_filter]
  apply List.countP_congr
  intro r _
  cases hr : p r with
  | false => simp
  | true => simp [hp r hr]

theorem maxId_eq_some {t : Table α} {p : α → Bool} {i : Nat} :
    t.maxId p = some i ↔
      (∃ r ∈ t.rows, p r.2 = true ∧ r.1 = i) ∧ ∀ r ∈ t.rows, p r.2 = true → r.1 ≤ i := by
  simp only [maxId, List.max?_eq_some_iff, List.mem_map, List.mem_filter]
  constructor
  · rintro ⟨⟨r, ⟨hr, hp⟩, rfl⟩, hmax⟩
    exact ⟨⟨r, hr, hp, rfl⟩, fun r' hr' hp' => hmax r'.1 ⟨r', ⟨hr', hp'⟩, rfl⟩⟩
  · rintro ⟨⟨r, hr, hp, rfl⟩, hmax⟩
    refine ⟨⟨r, ⟨hr, hp⟩, rfl⟩, ?_⟩
    rintro _ ⟨r', ⟨hr', hp'⟩, rfl⟩
    exact hmax r' hr' hp'

theorem maxId_eq_none {t : Table α} {p : α → Bool} :
    t.maxId p = none ↔ ∀ r ∈ t.rows, p r.2 = false := by
  simp [maxId, List.max?_eq_none_iff]

/-- A group with a row has a newest row. -/
theorem exists_maxId {t : Table α} {p : α → Bool} {r : Nat × α} (hr : r ∈ t.rows)
    (hp : p r.2 = true) :
    ∃ r' ∈ t.rows, p r'.2 = true ∧ t.maxId p = some r'.1 := by
  cases h : t.maxId p with
  | none => simp [maxId_eq_none.mp h r hr] at hp
  | some i =>
      obtain ⟨⟨r', hr', hp', rfl⟩, -⟩ := maxId_eq_some.mp h
      exact ⟨r', hr', hp', rfl⟩

/-- Looking a row up by `MAX(id)` finds the last row that qualifies. -/
theorem find?_maxId (t : Table α) (p : α → Bool) :
    t.rows.find? (fun r => some r.1 = t.maxId p) = t.rows.reverse.find? (fun r => p r.2) := by
  cases h : t.rows.reverse.find? (fun r => p r.2) with
  | none =>
      rw [List.find?_eq_none] at h ⊢
      have hnone : t.maxId p = none := by
        rw [maxId_eq_none]
        intro r hr
        simpa using h r (by simpa using hr)
      simp [hnone]
  | some r =>
      obtain ⟨hp, as, bs, hrev, hlast⟩ := List.find?_eq_some_iff_append.mp h
      have hrows : t.rows = bs.reverse ++ r :: as.reverse := by
        rw [← List.reverse_reverse t.rows, hrev]
        simp
      have hr : r ∈ t.rows := by rw [hrows]; simp
      -- rows before `r` have smaller ids, rows after it do not qualify
      have hmax : t.maxId p = some r.1 := by
        rw [maxId_eq_some]
        refine ⟨⟨r, hr, hp, rfl⟩, ?_⟩
        intro r' hr' hp'
        have hsorted := t.sorted
        rw [hrows, List.pairwise_append] at hsorted
        rw [hrows] at hr'
        simp only [List.mem_append, List.mem_cons] at hr'
        rcases hr' with hr' | rfl | hr'
        · exact le_of_lt (hsorted.2.2 r' hr' r (by simp))
        · exact le_rfl
        · have := hlast r' (by simpa using hr')
          simp [hp'] at this
      cases hf : t.rows.find? (fun r => some r.1 = t.maxId p) with
      | none =>
          rw [List.find?_eq_none] at hf
          exact absurd (by simp [hmax]) (hf r hr)
      | some r' =>
          have hr' := List.mem_of_find?_eq_some hf
          have hid := List.find?_some hf
          rw [hmax] at hid
          rw [t.eq_of_id_eq hr' hr (by simpa using hid)]

end Table

/-! ## Histories -/

/-- How rows are grouped and flagged. -/
structure History (α G : Type) where
  group : α → G
  flag : α → Bool
  setFlag : Bool → α → α
  group_setFlag : ∀ b a, group (setFlag b a) = group a
  flag_setFlag : ∀ b a, flag (setFlag b a) = b

namespace History

attribute [simp] group_setFlag flag_setFlag

variable {α G : Type} [DecidableEq G] (h : History α G)

/-- The flagged rows are the newest of their groups. -/
def FlagsLatest (t : Table α) : Prop :=
  ∀ r ∈ t.rows, h.flag r.2 = true ↔
    ∀ r' ∈ t.rows, h.group r'.2 = h.group r.2 → r'.1 ≤ r.1

/-- Supersede the newest row of a group: clear the group's flags and insert a flagged row. -/
def push (t : Table α) (a : α) : Table α :=
  (t.update (fun r => h.group r.2 = h.group a) (h.setFlag false)).insert a

/-- Delete the flagged rows of the group `g` that satisfy `p` and flag the newest row left. -/
def pop (t : Table α) (g : G) (p : α → Bool) : Table α :=
  let t' := t.delete fun r => h.flag r.2 && decide (h.group r.2 = g) && p r.2
  t'.update (fun r => some r.1 = t'.maxId fun a => h.group a = g) (h.setFlag true)

omit [DecidableEq G] in
theorem flagsLatest_empty : h.FlagsLatest Table.empty := by
  intro r hr; simp at hr

omit [DecidableEq G] in
/-- A group that has a row has exactly one flagged row. -/
theorem FlagsLatest.existsUnique {h : History α G} {t : Table α} (ht : h.FlagsLatest t)
    {r : Nat × α} (hr : r ∈ t.rows) :
    ∃! r', r' ∈ t.rows ∧ h.group r'.2 = h.group r.2 ∧ h.flag r'.2 = true := by
  classical
  obtain ⟨m, hm, hgm, hmax⟩ := Table.exists_maxId
    (p := fun a => decide (h.group a = h.group r.2)) hr (by simp)
  have hgm' : h.group m.2 = h.group r.2 := by simpa using hgm
  have hle : ∀ r' ∈ t.rows, h.group r'.2 = h.group r.2 → r'.1 ≤ m.1 := by
    intro r' hr' hg'
    exact (Table.maxId_eq_some.mp hmax).2 r' hr' (by simpa using hg')
  refine ⟨m, ⟨hm, hgm', ?_⟩, ?_⟩
  · rw [ht m hm]
    intro r' hr' hg'
    exact hle r' hr' (hg'.trans hgm')
  · rintro r' ⟨hr', hg', hf'⟩
    apply t.eq_of_id_eq hr' hm
    apply le_antisymm (hle r' hr' hg')
    exact (ht r' hr').mp hf' m hm (hgm'.trans hg'.symm)

theorem mem_push {t : Table α} {a : α} {r : Nat × α} :
    r ∈ (h.push t a).rows ↔
      (∃ r₀ ∈ t.rows, r = if h.group r₀.2 = h.group a then (r₀.1, h.setFlag false r₀.2) else r₀) ∨
      r = (t.seq + 1, a) := by
  rw [push, Table.mem_insert, Table.mem_update]
  simp only [decide_eq_true_eq]
  rfl

/-- `push` adds one row, as far as a property that ignores the flag can tell. -/
theorem count_push {c : α → Bool} (hc : ∀ b a, c (h.setFlag b a) = c a) (t : Table α) (a : α) :
    (h.push t a).count c = t.count c + if c a then 1 else 0 := by
  rw [push, Table.count_insert, Table.count_update (hc false)]

/-- `pop` takes away no row that satisfies `c`, unless `p` selects such rows. -/
theorem count_pop {c p : α → Bool} (hc : ∀ b a, c (h.setFlag b a) = c a)
    (hp : ∀ a, p a = true → c a = false) (t : Table α) (g : G) :
    (h.pop t g p).count c = t.count c := by
  rw [pop, Table.count_update (hc true), Table.count_delete]
  intro r hr
  rw [Bool.and_eq_true] at hr
  exact hp r.2 hr.2

/-- A row after `push` is the new one, or an old row with its group and id. -/
theorem mem_push_cases {t : Table α} {a : α} {r : Nat × α} (hr : r ∈ (h.push t a).rows) :
    r = (t.seq + 1, a) ∨
      ∃ r₀ ∈ t.rows, r₀.1 = r.1 ∧ h.group r₀.2 = h.group r.2 := by
  rcases h.mem_push.mp hr with ⟨r₀, hr₀, rfl⟩ | rfl
  · right
    refine ⟨r₀, hr₀, ?_, ?_⟩ <;> split <;> simp
  · exact .inl rfl

theorem FlagsLatest.push {h : History α G} {t : Table α} (ht : h.FlagsLatest t) {a : α}
    (ha : h.flag a = true) : h.FlagsLatest (h.push t a) := by
  intro r hr
  rcases h.mem_push.mp hr with ⟨r₀, hr₀, rfl⟩ | rfl
  · by_cases hg : h.group r₀.2 = h.group a
    · -- an old row of the group: it lost its flag and the new row is newer
      rw [if_pos hg]
      simp only [flag_setFlag, group_setFlag, Bool.false_eq_true, false_iff, not_forall]
      refine ⟨(t.seq + 1, a), h.mem_push.mpr (.inr rfl), hg.symm, ?_⟩
      have := t.le_seq r₀ hr₀
      simp only [not_le]
      omega
    · rw [if_neg hg, ht r₀ hr₀]
      constructor
      · intro hmax r' hr' hg'
        rcases h.mem_push_cases hr' with rfl | ⟨r₁, hr₁, hid, hg₁⟩
        · exact absurd hg'.symm hg
        · rw [← hid]
          exact hmax r₁ hr₁ (hg₁.trans hg')
      · intro hmax r' hr' hg'
        refine hmax r' (h.mem_push.mpr (.inl ⟨r', hr', ?_⟩)) hg'
        rw [if_neg (fun h' => hg (hg'.symm.trans h'))]
  · -- the new row is the newest of all
    simp only [ha, true_iff]
    intro r' hr' _
    rcases h.mem_push_cases hr' with rfl | ⟨r₁, hr₁, hid, _⟩
    · exact le_rfl
    · have hle := t.le_seq r₁ hr₁
      rw [← hid]
      exact Nat.le_succ_of_le hle

/-- A row after `pop` is an old row that was not deleted, with its group, id and, unless it is the
newest of its group, its flag. -/
theorem mem_pop {t : Table α} {g : G} {p : α → Bool} {r : Nat × α} :
    r ∈ (h.pop t g p).rows ↔
      ∃ r₀ ∈ t.rows, ¬ (h.flag r₀.2 = true ∧ h.group r₀.2 = g ∧ p r₀.2 = true) ∧
        r = if some r₀.1 = (t.delete fun r => h.flag r.2 && decide (h.group r.2 = g) && p r.2).maxId
              (fun a => h.group a = g)
            then (r₀.1, h.setFlag true r₀.2) else r₀ := by
  simp only [pop, Table.mem_update, Table.mem_delete, decide_eq_true_eq, and_assoc]
  simp only [Bool.and_eq_false_imp, Bool.and_eq_true, decide_eq_true_eq, and_imp, not_and,
    Bool.not_eq_true]

/-- `pop` keeps the flags right: with at most one flagged row in a group, either nothing is
deleted, or the newest row is and the next newest takes over. -/
theorem FlagsLatest.pop {h : History α G} {t : Table α} (ht : h.FlagsLatest t) (g : G)
    (p : α → Bool) : h.FlagsLatest (h.pop t g p) := by
  intro r hr
  obtain ⟨r₀, hr₀, hkeep, hreq⟩ := h.mem_pop.mp hr
  set t' := t.delete fun r => h.flag r.2 && decide (h.group r.2 = g) && p r.2 with ht'
  have hmem' : ∀ r', r' ∈ t'.rows ↔
      r' ∈ t.rows ∧ ¬ (h.flag r'.2 = true ∧ h.group r'.2 = g ∧ p r'.2 = true) := by
    intro r'
    rw [ht', Table.mem_delete]
    simp only [Bool.and_eq_false_imp, Bool.and_eq_true, decide_eq_true_eq, and_imp, not_and,
      Bool.not_eq_true]
  have hid : r.1 = r₀.1 := by rw [hreq]; split <;> rfl
  have hgr : h.group r.2 = h.group r₀.2 := by rw [hreq]; split <;> simp
  -- the newest row of a group after `pop`, in terms of the rows that were left
  have hmax : (∀ r' ∈ (h.pop t g p).rows, h.group r'.2 = h.group r.2 → r'.1 ≤ r.1) ↔
      ∀ r' ∈ t'.rows, h.group r'.2 = h.group r₀.2 → r'.1 ≤ r₀.1 := by
    rw [hid, hgr]
    constructor
    · intro hm r' hr' hg'
      obtain ⟨hr't, hk'⟩ := (hmem' r').mp hr'
      have := hm _ (h.mem_pop.mpr ⟨r', hr't, hk', rfl⟩) (by split <;> simpa using hg')
      revert this
      split <;> exact id
    · intro hm r' hr' hg'
      obtain ⟨r₁, hr₁, hk₁, rfl⟩ := h.mem_pop.mp hr'
      have := hm r₁ ((hmem' r₁).mpr ⟨hr₁, hk₁⟩) (by revert hg'; split <;> simp)
      split <;> exact this
  rw [hmax]
  have hr₀' : r₀ ∈ t'.rows := (hmem' r₀).mpr ⟨hr₀, hkeep⟩
  by_cases hg : h.group r₀.2 = g
  · by_cases hid₀ : some r₀.1 = t'.maxId fun a => h.group a = g
    · -- the re-elected row
      rw [hreq, if_pos hid₀]
      simp only [flag_setFlag, true_iff]
      intro r' hr' hg'
      exact (Table.maxId_eq_some.mp hid₀.symm).2 r' hr' (by simp [hg', hg])
    · -- another row of the group: it was not flagged and is not the newest
      rw [hreq, if_neg hid₀]
      obtain ⟨m, hm, hgm, hmaxm⟩ := Table.exists_maxId (p := fun a => decide (h.group a = g))
        hr₀' (by simpa using hg)
      have hgm' : h.group m.2 = g := by simpa using hgm
      have hlt : ¬ m.1 ≤ r₀.1 := by
        intro hle
        apply hid₀
        rw [hmaxm]
        have := (Table.maxId_eq_some.mp hmaxm).2 r₀ hr₀' (by simpa using hg)
        rw [le_antisymm hle this]
      constructor
      · intro hf
        exact absurd ((ht r₀ hr₀).mp hf m ((hmem' m).mp hm).1 (hgm'.trans hg.symm)) hlt
      · intro hall
        exact absurd (hall m hm (hgm'.trans hg.symm)) hlt
  · -- a row of another group: nothing of its group was touched
    have hno : ¬ some r₀.1 = t'.maxId fun a => h.group a = g := by
      intro heq
      obtain ⟨⟨m, hm, hgm, hidm⟩, -⟩ := Table.maxId_eq_some.mp heq.symm
      have : m = r₀ := t'.eq_of_id_eq hm hr₀' hidm
      exact hg (by simpa [this] using hgm)
    rw [hreq, if_neg hno, ht r₀ hr₀]
    constructor
    · intro hall r' hr' hg'
      exact hall r' ((hmem' r').mp hr').1 hg'
    · intro hall r' hr' hg'
      refine hall r' ((hmem' r').mpr ⟨hr', ?_⟩) hg'
      rintro ⟨-, hg'', -⟩
      exact hg (hg'.symm.trans hg'')

/-! ## Taking a push back -/

/-- Setting the flag reads back and overwrites, as the fields of a record do. -/
structure Lawful (h : History α G) : Prop where
  setFlag_flag : ∀ a, h.setFlag (h.flag a) a = a
  setFlag_setFlag : ∀ b c a, h.setFlag b (h.setFlag c a) = h.setFlag b a

/-- Deleting the flagged row of a group that was just pushed leaves the rows before, with the
flags of the group cleared. -/
theorem delete_push_rows (t : Table α) {a : α} (ha : h.flag a = true) {p : α → Bool}
    (hp : p a = true) :
    ((h.push t a).delete fun r => h.flag r.2 && decide (h.group r.2 = h.group a) && p r.2).rows =
      (t.update (fun r => h.group r.2 = h.group a) (h.setFlag false)).rows := by
  show List.filter _ ((t.update _ _).rows ++ [(t.seq + 1, a)]) = _
  rw [List.filter_append]
  -- the old rows of the group have no flag any more, the new row has one and is deleted
  have hold : (t.update (fun r => h.group r.2 = h.group a) (h.setFlag false)).rows.filter
      (fun r => !(h.flag r.2 && decide (h.group r.2 = h.group a) && p r.2)) =
      (t.update (fun r => h.group r.2 = h.group a) (h.setFlag false)).rows := by
    rw [List.filter_eq_self]
    intro r hr
    obtain ⟨r₀, -, rfl⟩ := Table.mem_update.mp hr
    by_cases hg : h.group r₀.2 = h.group a <;> simp [hg]
  rw [hold]
  simp [ha, hp]

/-- `pop` takes back what `push` did: the newest row of the group is the one that was flagged
before, and no other row of the group was. -/
theorem Lawful.pop_push {h : History α G} (hl : h.Lawful) {t : Table α} (ht : h.FlagsLatest t)
    {a : α} (ha : h.flag a = true) {p : α → Bool} (hp : p a = true) :
    (h.pop (h.push t a) (h.group a) p).rows = t.rows := by
  have hdel := h.delete_push_rows t ha hp
  set t' := (h.push t a).delete fun r => h.flag r.2 && decide (h.group r.2 = h.group a) && p r.2
  show t'.rows.map (fun r => if decide (some r.1 = t'.maxId fun a' => h.group a' = h.group a)
    then (r.1, h.setFlag true r.2) else r) = t.rows
  rw [hdel]
  show (t.rows.map _).map _ = t.rows
  rw [List.map_map]
  -- the rows left have the ids and the groups they had
  have hmem' : ∀ r' ∈ t'.rows, ∃ r₀ ∈ t.rows, r'.1 = r₀.1 ∧ h.group r'.2 = h.group r₀.2 := by
    intro r' hr'
    rw [hdel] at hr'
    obtain ⟨r₀, hr₀, rfl⟩ := Table.mem_update.mp hr'
    refine ⟨r₀, hr₀, ?_, ?_⟩ <;> split <;> simp
  have hmem : ∀ r₀ ∈ t.rows, ∃ r' ∈ t'.rows, r'.1 = r₀.1 ∧ h.group r'.2 = h.group r₀.2 := by
    intro r₀ hr₀
    rw [hdel]
    refine ⟨_, Table.mem_update.mpr ⟨r₀, hr₀, rfl⟩, ?_, ?_⟩ <;> split <;> simp
  have hmax : ∀ r ∈ t.rows, some r.1 = t'.maxId (fun a' => h.group a' = h.group a) ↔
      h.group r.2 = h.group a ∧ h.flag r.2 = true := by
    intro r hr
    rw [eq_comm, Table.maxId_eq_some, ht r hr]
    constructor
    · rintro ⟨⟨m, hm, hgm, hid⟩, hle⟩
      obtain ⟨m₀, hm₀, hid₀, hg₀⟩ := hmem' m hm
      have hmr : m₀ = r := t.eq_of_id_eq hm₀ hr (hid₀.symm.trans hid)
      have hgr : h.group r.2 = h.group a := by
        rw [← hmr, ← hg₀]
        simpa using hgm
      refine ⟨hgr, ?_⟩
      intro r' hr' hg'
      obtain ⟨x, hx, hidx, hgx⟩ := hmem r' hr'
      rw [← hidx]
      exact hle x hx (by simpa using (hgx.trans hg').trans hgr)
    · rintro ⟨hgr, hle⟩
      obtain ⟨x, hx, hidx, hgx⟩ := hmem r hr
      refine ⟨⟨x, hx, by simpa using hgx.trans hgr, hidx⟩, ?_⟩
      intro r' hr' hg'
      obtain ⟨r₀, hr₀, hid₀, hg₀⟩ := hmem' r' hr'
      rw [hid₀]
      refine hle r₀ hr₀ ?_
      rw [← hg₀, hgr]
      simpa using hg'
  conv_rhs => rw [← List.map_id t.rows]
  apply List.map_congr_left
  intro r hr
  by_cases hg : h.group r.2 = h.group a
  · by_cases hf : h.flag r.2 = true
    · -- it was the flagged row: cleared and flagged again
      have := (hmax r hr).mpr ⟨hg, hf⟩
      have hid := hl.setFlag_flag r.2
      rw [hf] at hid
      simp [hg, this, hl.setFlag_setFlag, hid]
    · -- it had no flag and is not re-elected
      have hne : ¬ some r.1 = t'.maxId (fun a' => h.group a' = h.group a) :=
        fun h' => hf ((hmax r hr).mp h').2
      have hid := hl.setFlag_flag r.2
      rw [Bool.not_eq_true] at hf
      rw [hf] at hid
      simp [hg, hne, hid]
  · have hne : ¬ some r.1 = t'.maxId (fun a' => h.group a' = h.group a) :=
      fun h' => hg ((hmax r hr).mp h').1
    simp [hg, hne]

/-- What `pop` leaves depends on the rows only, not on the ids handed out. -/
theorem pop_rows_congr {t t' : Table α} {g : G} {p : α → Bool} (hrows : t.rows = t'.rows) :
    (h.pop t g p).rows = (h.pop t' g p).rows := by
  obtain ⟨rows, seq, _, _⟩ := t
  obtain ⟨rows', seq', _, _⟩ := t'
  subst hrows
  rfl

end History

end Lib

import ShinyCoin.Lib.TreeMap
import Mathlib.Data.Set.List

/-!
# A map and the file it is made of

A file has a record for each entry of a map. The record stands under a name, the entry under a digest
of the name. Different names may have the same digest, but not in one map.
-/

namespace Lib

open Std

section
variable {K V : Type} {cmp : K → K → Ordering} [TransCmp cmp] [LawfulEqCmp cmp] [DecidableEq K]

theorem insert_insert (m : ExtTreeMap K V cmp) (k : K) (v v' : V) :
    (m.insert k v).insert k v' = m.insert k v' := by
  apply ExtTreeMap.ext_getElem?
  intro a
  rw [getElem?_insert, getElem?_insert, getElem?_insert]
  split
  · rfl
  · rfl

/-- Inserting only where there is nothing, when what may be there is the same -/
theorem getElem?_insert_of_same {m : ExtTreeMap K V cmp} {k : K} {v : V}
    (hsame : ∀ v', m[k]? = some v' → v' = v) (a : K) :
    (if m.contains k then m else m.insert k v)[a]? = if a = k then some v else m[a]? := by
  split
  next hmem =>
    split
    next heq =>
      subst heq
      rw [ExtTreeMap.contains_eq_isSome_getElem?, Option.isSome_iff_exists] at hmem
      obtain ⟨v', hv'⟩ := hmem
      rw [hv', hsame v' hv']
    next => rfl
  next => exact getElem?_insert m k a v

end

variable {P V A E : Type} {cmpP : P → P → Ordering} {cmpA : A → A → Ordering}
  [TransCmp cmpP] [LawfulEqCmp cmpP] [DecidableEq P]
  [TransCmp cmpA] [LawfulEqCmp cmpA] [DecidableEq A]
  {digest : P → A} {record : E → P × V}
  {file file' : ExtTreeMap P V cmpP} {m : ExtTreeMap A E cmpA}

/-- The records of the file are those of the map's entries. -/
def Recorded (digest : P → A) (record : E → P × V) (file : ExtTreeMap P V cmpP)
    (m : ExtTreeMap A E cmpA) : Prop :=
  ∀ r : P × V, file[r.1]? = some r.2 ↔ ∃ e, m[digest r.1]? = some e ∧ record e = r

/-- Each entry stands under the digest of its name. -/
def Filed (digest : P → A) (record : E → P × V) (m : ExtTreeMap A E cmpA) : Prop :=
  ∀ a e, m[a]? = some e → a = digest (record e).1

namespace Recorded

omit [LawfulEqCmp cmpP] [LawfulEqCmp cmpA] [DecidableEq P] [DecidableEq A] in
theorem empty : Recorded digest record (∅ : ExtTreeMap P V cmpP) (∅ : ExtTreeMap A E cmpA) := by
  intro r
  simp

omit [LawfulEqCmp cmpP] in
/-- An entry is added and its record written. -/
theorem insert (h : Recorded digest record file m) {e : E}
    (hsame : ∀ e', m[digest (record e).1]? = some e' → e' = e)
    (hfile : ∀ p : P, file'[p]? = if p = (record e).1 then some (record e).2 else file[p]?) :
    Recorded digest record file' (m.insert (digest (record e).1) e) := by
  intro r
  rw [hfile, getElem?_insert]
  by_cases hname : r.1 = (record e).1
  · rw [if_pos hname, if_pos (congrArg digest hname)]
    constructor
    · intro hvalue
      exact ⟨e, rfl, Prod.ext hname.symm (Option.some.inj hvalue)⟩
    · rintro ⟨e', he', rfl⟩
      rw [Option.some.inj he']
  · rw [if_neg hname, h r]
    by_cases hdigest : digest r.1 = digest (record e).1
    · -- neither map has an entry of that name
      rw [if_pos hdigest, hdigest]
      constructor
      · rintro ⟨e', he', rfl⟩
        exact absurd (congrArg (fun x => (record x).1) (hsame e' he')) hname
      · rintro ⟨e', he', rfl⟩
        exact absurd (congrArg (fun x => (record x).1) (Option.some.inj he').symm) hname
    · rw [if_neg hdigest]

/-! ## Making the map of the file -/

omit [DecidableEq P] [DecidableEq A] [LawfulEqCmp cmpA] in
/-- The entries the records are of, in the order of the file -/
theorem exists_entries (h : Recorded digest record file m) :
    ∃ entries : List E, entries.map record = file.toList := by
  rw [← Set.mem_range, Set.range_list_map]
  intro r hr
  obtain ⟨e, -, he⟩ := (h r).mp (ExtTreeMap.mem_toList_iff_getElem?_eq_some.mp hr)
  exact ⟨e, he⟩

variable {entries : List E}

omit [DecidableEq P] [DecidableEq A] [LawfulEqCmp cmpA] in
theorem getElem?_of_mem (h : Recorded digest record file m) (hinj : record.Injective)
    (hentries : entries.map record = file.toList) {e : E} (he : e ∈ entries) :
    m[digest (record e).1]? = some e := by
  have hmem : record e ∈ file.toList := by
    rw [← hentries]
    exact List.mem_map_of_mem he
  obtain ⟨e', hget, heq⟩ := (h (record e)).mp
    (ExtTreeMap.mem_toList_iff_getElem?_eq_some.mp hmem)
  rw [hget, hinj heq]

omit [DecidableEq P] in
theorem foldl_insert (h : Recorded digest record file m) (hinj : record.Injective)
    (hfiled : Filed digest record m) (hentries : entries.map record = file.toList) :
    entries.foldl (fun m e => m.insert (digest (record e).1) e) ∅ = m := by
  have hnames : entries.Pairwise fun x y => (record x).1 ≠ (record y).1 := by
    have hdistinct : (entries.map record).Pairwise fun x y => x.1 ≠ y.1 := by
      rw [hentries]
      exact ExtTreeMap.distinct_keys_toList.imp fun hne heq =>
        hne (LawfulEqCmp.compare_eq_iff_eq.mpr heq)
    rw [List.pairwise_map] at hdistinct
    exact hdistinct
  have hdigests : entries.Pairwise fun x y => digest (record x).1 ≠ digest (record y).1 := by
    refine hnames.imp_of_mem ?_
    intro x y hx hy hne heq
    have hgetx := h.getElem?_of_mem hinj hentries hx
    rw [heq, h.getElem?_of_mem hinj hentries hy] at hgetx
    cases hgetx
    exact hne rfl
  apply ExtTreeMap.ext_getElem?
  intro a
  apply Option.ext
  intro e
  rw [getElem?_foldl_insert (fun e => digest (record e).1) (fun e => e) hdigests]
  constructor
  · rintro (⟨x, hx, rfl, rfl⟩ | ⟨hnone, -⟩)
    · exact h.getElem?_of_mem hinj hentries hx
    · simp at hnone
  · intro hget
    have ha := hfiled a e hget
    have hmem : record e ∈ entries.map record := by
      rw [hentries, ExtTreeMap.mem_toList_iff_getElem?_eq_some]
      exact (h (record e)).mpr ⟨e, ha ▸ hget, rfl⟩
    obtain ⟨x, hx, heq⟩ := List.mem_map.mp hmem
    exact .inl ⟨x, hx, (congrArg (fun r => digest r.1) heq).trans ha.symm, hinj heq⟩

end Recorded

end Lib

import Mathlib.Data.List.Nodup
import Mathlib.Logic.Function.Iterate

/-!
# Hash trees over a list

A level is paired up to give the next one, the last node of an odd level with itself, until one node
is left. `tree` is all the levels one after the other, `root` the node at the top.

Pairing a level up loses the parity of its length: `[a, b, b]` and `[a, b]` have roots that agree.
For an injective `f` that is all it loses. It keeps a list without repetitions one, and a list without
repetitions is told by its root (`root_injOn`).
-/

namespace Lib.Merkle

variable {α : Type} (f : α → α → α)

def pairUp : List α → List α
  | [] => []
  | [a] => [f a a]
  | a :: b :: l => f a b :: pairUp l

theorem length_pairUp (l : List α) : (pairUp f l).length = (l.length + 1) / 2 := by
  fun_induction pairUp f l with
  | case1 => simp
  | case2 a => simp
  | case3 a b l ih =>
      rw [List.length_cons, ih, List.length_cons, List.length_cons]
      omega

theorem getElem?_pairUp (l : List α) (k : Nat) :
    (pairUp f l)[k]? = l[2 * k]?.map fun a => f a (l[2 * k + 1]?.getD a) := by
  fun_induction pairUp f l generalizing k with
  | case1 => simp
  | case2 a =>
      cases k with
      | zero => rfl
      | succ k => simp [Nat.mul_add]
  | case3 a b l ih =>
      cases k with
      | zero => rfl
      | succ k =>
          rw [List.getElem?_cons_succ, ih k]
          rfl

/-- All levels, the lowest one first. -/
def tree (l : List α) : List α :=
  if 1 < l.length then l ++ tree (pairUp f l) else l
termination_by l.length
decreasing_by
  rw [length_pairUp]
  omega

/-- The level at the top: one node, or none for the empty list. -/
def top (l : List α) : List α :=
  if 1 < l.length then top (pairUp f l) else l
termination_by l.length
decreasing_by
  rw [length_pairUp]
  omega

def root (l : List α) : Option α := (top f l).head?

variable {f}

theorem tree_of_lt {l : List α} (h : 1 < l.length) : tree f l = l ++ tree f (pairUp f l) := by
  rw [tree, if_pos h]

theorem tree_of_le {l : List α} (h : l.length ≤ 1) : tree f l = l := by
  rw [tree, if_neg (Nat.not_lt.mpr h)]

theorem root_of_lt {l : List α} (h : 1 < l.length) : root f l = root f (pairUp f l) := by
  rw [root, top, if_pos h]
  rfl

theorem root_of_le {l : List α} (h : l.length ≤ 1) : root f l = l.head? := by
  rw [root, top, if_neg (Nat.not_lt.mpr h)]

theorem pairUp_ne_nil {l : List α} (h : l ≠ []) : pairUp f l ≠ [] := by
  intro hnil
  have hlen := length_pairUp f l
  rw [hnil] at hlen
  have hpos := List.length_pos_iff.mpr h
  simp only [List.length_nil] at hlen
  omega

/-- The root is the last node of the tree. -/
theorem getLast?_tree (l : List α) : (tree f l).getLast? = root f l := by
  induction l using tree.induct f with
  | case1 l hlen ih =>
      rw [tree_of_lt hlen, root_of_lt hlen, ← ih]
      refine List.getLast?_append_of_ne_nil _ ?_
      intro hnil
      have hne : l ≠ [] := List.ne_nil_of_length_pos (by omega)
      apply pairUp_ne_nil hne
      by_cases h : 1 < (pairUp f l).length
      · rw [tree_of_lt h] at hnil
        exact (List.append_eq_nil_iff.mp hnil).1
      · rwa [tree_of_le (Nat.not_lt.mp h)] at hnil
  | case2 l hlen =>
      rw [tree_of_le (Nat.not_lt.mp hlen), root_of_le (Nat.not_lt.mp hlen)]
      match l with
      | [] => rfl
      | [a] => rfl
      | a :: b :: l => exact absurd (by simp) hlen

/-! ## Lists without repetitions -/

theorem mem_pairUp {l : List α} {x : α} (h : x ∈ pairUp f l) : ∃ a ∈ l, ∃ b ∈ l, x = f a b := by
  fun_induction pairUp f l with
  | case1 => cases h
  | case2 a =>
      rw [List.mem_singleton.mp h]
      exact ⟨a, List.mem_singleton_self a, a, List.mem_singleton_self a, rfl⟩
  | case3 a b l ih =>
      rcases List.mem_cons.mp h with rfl | h
      · exact ⟨a, by simp, b, by simp, rfl⟩
      · obtain ⟨c, hc, d, hd, rfl⟩ := ih h
        exact ⟨c, by simp [hc], d, by simp [hd], rfl⟩

/-- Every pair has one result. -/
def Injective2 (f : α → α → α) : Prop :=
  ∀ a b c d, f a b = f c d → a = c ∧ b = d

theorem nodup_pairUp (hf : Injective2 f) {l : List α} (h : l.Nodup) : (pairUp f l).Nodup := by
  fun_induction pairUp f l with
  | case1 => exact List.nodup_nil
  | case2 a => exact List.nodup_singleton _
  | case3 a b l ih =>
      obtain ⟨ha, hbl⟩ := List.nodup_cons.mp h
      obtain ⟨hb, hl⟩ := List.nodup_cons.mp hbl
      refine List.nodup_cons.mpr ⟨?_, ih hl⟩
      intro hmem
      obtain ⟨c, hc, d, -, heq⟩ := mem_pairUp hmem
      obtain ⟨rfl, -⟩ := hf _ _ _ _ heq
      exact ha (List.mem_cons_of_mem b hc)

/-- Only a repetition at the end could be lost. -/
theorem pairUp_injOn (hf : Injective2 f) {l l' : List α} (h : l.Nodup) (h' : l'.Nodup)
    (heq : pairUp f l = pairUp f l') : l = l' := by
  fun_induction pairUp f l generalizing l' with
  | case1 =>
      by_contra hne
      exact pairUp_ne_nil (Ne.symm hne) heq.symm
  | case2 a =>
      match l', h' with
      | [], _ => cases heq
      | [b], _ =>
          obtain ⟨rfl, -⟩ := hf _ _ _ _ (List.cons.inj heq).1
          rfl
      | b :: c :: l', h' =>
          obtain ⟨rfl, rfl⟩ := hf _ _ _ _ (List.cons.inj heq).1
          exact absurd List.mem_cons_self (List.nodup_cons.mp h').1
  | case3 a b l ih =>
      match l', h' with
      | [], _ => cases heq
      | [c], _ =>
          obtain ⟨rfl, rfl⟩ := hf _ _ _ _ (List.cons.inj heq).1
          exact absurd List.mem_cons_self (List.nodup_cons.mp h).1
      | c :: d :: l', h' =>
          obtain ⟨hhead, htail⟩ := List.cons.inj heq
          obtain ⟨rfl, rfl⟩ := hf _ _ _ _ hhead
          have hl := (List.nodup_cons.mp (List.nodup_cons.mp h).2).2
          have hl' := (List.nodup_cons.mp (List.nodup_cons.mp h').2).2
          rw [ih hl hl' htail]

theorem nodup_iterate (hf : Injective2 f) {l : List α} (h : l.Nodup) (k : Nat) :
    ((pairUp f)^[k] l).Nodup := by
  induction k with
  | zero => exact h
  | succ k ih =>
      rw [Function.iterate_succ_apply']
      exact nodup_pairUp hf ih

theorem top_eq_iterate (l : List α) : ∃ k, top f l = (pairUp f)^[k] l := by
  induction l using top.induct f with
  | case1 l hlen ih =>
      obtain ⟨k, hk⟩ := ih
      refine ⟨k + 1, ?_⟩
      rw [top, if_pos hlen, hk, Function.iterate_succ_apply]
  | case2 l hlen =>
      refine ⟨0, ?_⟩
      rw [top, if_neg hlen]
      rfl

theorem top_eq_of_root {l : List α} {a : α} (h : root f l = some a) : top f l = [a] := by
  have hlen : (top f l).length ≤ 1 := by
    clear h
    induction l using top.induct f with
    | case1 l hlen ih =>
        rw [top, if_pos hlen]
        exact ih
    | case2 l hlen =>
        rw [top, if_neg hlen]
        exact Nat.not_lt.mp hlen
  rw [root] at h
  generalize top f l = t at h hlen
  match t, h, hlen with
  | [b], h, _ => rw [List.head?_cons, Option.some_inj] at h; rw [h]

theorem root_isSome {l : List α} (h : l ≠ []) : ∃ a, root f l = some a := by
  induction l using top.induct f with
  | case1 l hlen ih =>
      rw [root_of_lt hlen]
      exact ih (pairUp_ne_nil h)
  | case2 l hlen =>
      rw [root_of_le (Nat.not_lt.mp hlen)]
      obtain ⟨a, l, rfl⟩ := List.exists_cons_of_ne_nil h
      exact ⟨a, rfl⟩

/-- Lists with one root are levels of one tree. -/
theorem level_of_root_eq (hf : Injective2 f) {l l' : List α} (h : l.Nodup) (h' : l'.Nodup)
    (hne : l ≠ []) (hne' : l' ≠ []) (heq : root f l = root f l') :
    ∃ k, l = (pairUp f)^[k] l' ∨ l' = (pairUp f)^[k] l := by
  -- a list of one node is the top level of the other tree
  have hsingle : ∀ l l' : List α, l ≠ [] → l.length ≤ 1 → root f l = root f l' →
      ∃ k, l = (pairUp f)^[k] l' := by
    intro l l' hne hlen heq
    obtain ⟨a, ha⟩ := root_isSome hne
    obtain ⟨k, hk⟩ := top_eq_iterate l'
    refine ⟨k, ?_⟩
    rw [← hk, top_eq_of_root (heq.symm.trans ha), ← top_eq_of_root ha, top,
      if_neg (Nat.not_lt.mpr hlen)]
  induction l using top.induct f generalizing l' with
  | case1 l hlen ih =>
      by_cases hlen' : 1 < l'.length
      · rw [root_of_lt hlen, root_of_lt hlen'] at heq
        obtain ⟨k, hk⟩ := ih (nodup_pairUp hf h) (nodup_pairUp hf h') (pairUp_ne_nil hne)
          (pairUp_ne_nil hne') heq
        refine ⟨k, hk.imp ?_ ?_⟩
        · intro hup
          rw [← Function.iterate_succ_apply, Function.iterate_succ_apply'] at hup
          exact pairUp_injOn hf h (nodup_iterate hf h' k) hup
        · intro hup
          rw [← Function.iterate_succ_apply, Function.iterate_succ_apply'] at hup
          exact pairUp_injOn hf h' (nodup_iterate hf h k) hup
      · obtain ⟨k, hk⟩ := hsingle l' l hne' (Nat.not_lt.mp hlen') heq.symm
        exact ⟨k, .inr hk⟩
  | case2 l hlen =>
      obtain ⟨k, hk⟩ := hsingle l l' hne (Nat.not_lt.mp hlen) heq
      exact ⟨k, .inl hk⟩

/-- A list without repetitions is told by its root, as long as no element is a result of `f`. -/
theorem root_injOn (hf : Injective2 f) {l l' : List α} (h : l.Nodup) (h' : l'.Nodup)
    (hne : l ≠ []) (hne' : l' ≠ []) (hleaf : ∀ a b, f a b ∉ l) (hleaf' : ∀ a b, f a b ∉ l')
    (heq : root f l = root f l') : l = l' := by
  -- the elements of a level above the lowest are results
  have hzero : ∀ (k : Nat) (l l' : List α), l ≠ [] → (∀ a b, f a b ∉ l) →
      l = (pairUp f)^[k] l' → l = l' := by
    intro k l l' hne hleaf hup
    cases k with
    | zero => exact hup
    | succ k =>
        rw [Function.iterate_succ_apply'] at hup
        obtain ⟨x, xs, rfl⟩ := List.exists_cons_of_ne_nil hne
        have hmem : x ∈ pairUp f ((pairUp f)^[k] l') := by
          rw [← hup]
          exact List.mem_cons_self
        obtain ⟨a, -, b, -, rfl⟩ := mem_pairUp hmem
        exact absurd List.mem_cons_self (hleaf a b)
  obtain ⟨k, hk | hk⟩ := level_of_root_eq hf h h' hne hne' heq
  · exact hzero k l l' hne hleaf hk
  · exact (hzero k l' l hne' hleaf' hk).symm

end Lib.Merkle

import Mathlib.Data.List.Sort
import Mathlib.Order.Defs.LinearOrder

/-!
# Priority queues

A `multimap` used as a queue: its elements stand in the order of their keys, those with the same key
in the order they came. Leaving elements out before or after filling such a queue makes no
difference (`filter_enqueueAll`), which is what a run on fewer elements is compared by.
-/

namespace Lib

section

variable {α κ : Type} [LinearOrder κ] {key : α → κ}

/-- `multimap::insert`: behind every element whose key is not greater. -/
def enqueue (key : α → κ) (q : List α) (a : α) : List α :=
  q.orderedInsert (fun x y => key x < key y) a

def enqueueAll (key : α → κ) (q l : List α) : List α := l.foldl (enqueue key) q

/-- In the order of the keys. -/
def ByKey (key : α → κ) (q : List α) : Prop := q.Pairwise fun x y => key x ≤ key y

theorem enqueue_cons (q : List α) (a b : α) :
    enqueue key (b :: q) a = if key a < key b then a :: b :: q else b :: enqueue key q a :=
  List.orderedInsert_cons _ a b q

theorem perm_enqueue (q : List α) (a : α) : (enqueue key q a).Perm (a :: q) :=
  List.perm_orderedInsert _ a q

theorem perm_enqueueAll (q l : List α) : (enqueueAll key q l).Perm (q ++ l) := by
  induction l generalizing q with
  | nil => simp [enqueueAll]
  | cons a l ih =>
      refine (ih (enqueue key q a)).trans ?_
      calc (enqueue key q a ++ l).Perm ((a :: q) ++ l) := (perm_enqueue q a).append_right l
        _ = a :: (q ++ l) := rfl
        (a :: (q ++ l)).Perm (q ++ a :: l) := List.perm_middle.symm

theorem ByKey.enqueue {q : List α} (h : ByKey key q) (a : α) : ByKey key (enqueue key q a) := by
  induction q with
  | nil => exact List.pairwise_singleton _ _
  | cons b q ih =>
      obtain ⟨hb, hq⟩ := List.pairwise_cons.mp h
      rw [enqueue_cons]
      split
      · next hlt =>
        refine List.pairwise_cons.mpr ⟨?_, h⟩
        intro x hx
        rcases List.mem_cons.mp hx with rfl | hx
        · exact hlt.le
        · exact hlt.le.trans (hb x hx)
      · next hlt =>
        refine List.pairwise_cons.mpr ⟨?_, ih hq⟩
        intro x hx
        rcases List.mem_cons.mp ((perm_enqueue q a).mem_iff.mp hx) with rfl | hx
        · exact not_lt.mp hlt
        · exact hb x hx

theorem ByKey.enqueueAll {q : List α} (h : ByKey key q) (l : List α) :
    ByKey key (enqueueAll key q l) := by
  induction l generalizing q with
  | nil => exact h
  | cons a l ih => exact ih (h.enqueue a)

/-- An element that comes before all others goes to the front. -/
theorem enqueue_of_lt {q : List α} {a : α} (h : ∀ b ∈ q, key a < key b) :
    enqueue key q a = a :: q := by
  cases q with
  | nil => rfl
  | cons b q => rw [enqueue_cons, if_pos (h b List.mem_cons_self)]

theorem filter_enqueue (p : α → Bool) {q : List α} (h : ByKey key q) (a : α) :
    (enqueue key q a).filter p = if p a then enqueue key (q.filter p) a else q.filter p := by
  induction q with
  | nil => cases hp : p a <;> simp [enqueue, hp]
  | cons b q ih =>
      obtain ⟨hb, hq⟩ := List.pairwise_cons.mp h
      rw [enqueue_cons]
      split
      · next hlt =>
        rw [List.filter_cons]
        split
        · refine (enqueue_of_lt fun x hx => ?_).symm
          rcases List.mem_cons.mp (List.mem_of_mem_filter hx) with rfl | hx
          · exact hlt
          · exact hlt.trans_le (hb x hx)
        · rfl
      · next hlt =>
        rw [List.filter_cons, List.filter_cons, ih hq]
        cases hpb : p b <;> cases hpa : p a <;> simp [enqueue_cons, hlt]

theorem filter_enqueueAll (p : α → Bool) {q : List α} (h : ByKey key q) (l : List α) :
    (enqueueAll key q l).filter p = enqueueAll key (q.filter p) (l.filter p) := by
  induction l generalizing q with
  | nil => rfl
  | cons a l ih =>
      rw [show enqueueAll key q (a :: l) = enqueueAll key (enqueue key q a) l from rfl,
        ih (h.enqueue a), filter_enqueue p h, List.filter_cons]
      cases p a <;> rfl

end

end Lib

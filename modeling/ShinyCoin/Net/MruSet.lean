import ShinyCoin.Lib.Simulate
import ShinyCoin.Lib.Window

/-!
# The set of the most recent elements

`mruset` keeps a set and a queue of the same elements. An insertion evicts the oldest element of a full
set, so that as many stay as fit; `max_size(s)` evicts before the set has shrunk to the new size, and
leaves one element fewer than fits.
-/

namespace ShinyCoin

open Std (ExtTreeSet TransCmp)

/-- `mruset` (`mruset.h`); the front of the queue is the head of the list. -/
structure Mruset (T : Type) (cmp : T → T → Ordering) where
  set : ExtTreeSet T cmp
  queue : List T
  nMaxSize : Nat

/-- The calls that change an `mruset` -/
inductive MrusetOp (T : Type) where
  | insert (x : T)
  | maxSize (s : Nat)
deriving DecidableEq

/-- What the calls return: the element under the iterator and whether it is new, the new size -/
inductive MrusetReply (T : Type) where
  | inserted (x : T) (fresh : Bool)
  | maxSize (s : Nat)
deriving DecidableEq

/-- The element that came in with the call, if one did -/
def MrusetReply.fresh {T : Type} : MrusetReply T → List T
  | .inserted x true => [x]
  | .inserted _ false | .maxSize _ => []

namespace Mruset

variable {T : Type} {cmp : T → T → Ordering} [TransCmp cmp]

/-- The constructor; `mruset()` is `ofMaxSize 0`. -/
def ofMaxSize (cmp : T → T → Ordering) (nMaxSizeIn : Nat) : Mruset T cmp :=
  { set := ∅, queue := [], nMaxSize := nMaxSizeIn }

def size (m : Mruset T cmp) : Nat := m.set.size

def count (m : Mruset T cmp) (k : T) : Nat := if m.set.contains k then 1 else 0

/-- `nMaxSize && queue.size() == nMaxSize` -/
def Full (m : Mruset T cmp) : Prop := m.nMaxSize ≠ 0 ∧ m.queue.length = m.nMaxSize

instance (m : Mruset T cmp) : Decidable m.Full := inferInstanceAs (Decidable (_ ∧ _))

/-- `set.erase(queue.front()); queue.pop_front();` on a queue that is not empty -/
def evict (m : Mruset T cmp) : Mruset T cmp :=
  match m.queue with
  | [] => m
  | front :: queue => { m with set := m.set.erase front, queue }

def insert (m : Mruset T cmp) (x : T) : Mruset T cmp × MrusetReply T :=
  match m.set.get? x with
  | some y => (m, .inserted y false)
  | none =>
      let m := { m with set := m.set.insert x }
      let m := if m.Full then m.evict else m
      ({ m with queue := m.queue ++ [x] }, .inserted x true)

/-- The loop of `max_size`; a turn evicts one element, and `fuel` bounds the turns. -/
def evictWhile (s : Nat) : Nat → Mruset T cmp → Mruset T cmp
  | 0, m => m
  | fuel + 1, m => if s ≤ m.queue.length then evictWhile s fuel m.evict else m

/-- `max_size(s)` -/
def maxSize (m : Mruset T cmp) (s : Nat) : Mruset T cmp × MrusetReply T :=
  let m := if s ≠ 0 then m.evictWhile s m.queue.length else m
  ({ m with nMaxSize := s }, .maxSize s)

def exec (m : Mruset T cmp) : MrusetOp T → Mruset T cmp × MrusetReply T
  | .insert x => m.insert x
  | .maxSize s => m.maxSize s

/-- Calls on a new `mruset`, and what they return -/
def run (cmp : T → T → Ordering) [TransCmp cmp] (nMaxSizeIn : Nat) (ops : List (MrusetOp T)) :
    Mruset T cmp × List (MrusetReply T) :=
  Lib.runOps exec (ofMaxSize cmp nMaxSizeIn) ops

/-! ## The two containers are in step -/

/-- The set holds the elements of the queue, the queue each of them once and no more than fit. -/
structure InStep (m : Mruset T cmp) : Prop where
  mirrors : Lib.Mirrors m.set m.queue
  bounded : m.nMaxSize ≠ 0 → m.queue.length ≤ m.nMaxSize

variable {m : Mruset T cmp} {x y : T} {s : Nat}

theorem inStep_ofMaxSize (nMaxSizeIn : Nat) : (ofMaxSize cmp nMaxSizeIn).InStep where
  mirrors := .empty
  bounded _ := Nat.zero_le _

theorem queue_evict (m : Mruset T cmp) : m.evict.queue = m.queue.tail := by
  unfold evict
  split
  · next h => rw [h, List.tail_nil]
  · next h => rw [h, List.tail_cons]

theorem mirrors_evict (h : Lib.Mirrors m.set m.queue) :
    Lib.Mirrors m.evict.set m.evict.queue := by
  unfold evict
  split
  · exact h
  · next hq =>
    rw [hq] at h
    exact h.erase

/-! ### Insertion -/

theorem insert_of_get? (h : m.set.get? x = some y) : m.insert x = (m, .inserted y false) := by
  rw [insert, h]

theorem exists_get?_of_mem (h : x ∈ m.set) : ∃ y, m.set.get? x = some y := by
  rw [ExtTreeSet.mem_iff_isSome_get?] at h
  exact Option.isSome_iff_exists.mp h

theorem get?_of_not_mem (h : x ∉ m.set) : m.set.get? x = none := by
  rw [ExtTreeSet.mem_iff_isSome_get?] at h
  exact Option.not_isSome_iff_eq_none.mp h

theorem insert_of_not_full (hx : x ∉ m.set) (h : ¬ m.Full) :
    m.insert x = ({ m with set := m.set.insert x, queue := m.queue ++ [x] }, .inserted x true) := by
  rw [insert, get?_of_not_mem hx]
  exact congrArg (fun m' : Mruset T cmp => ({ m' with queue := m'.queue ++ [x] }, _)) (if_neg h)

/-- A new element in a full set drives out the oldest. -/
theorem insert_of_full (hx : x ∉ m.set) (h : m.Full) {oldest : T} {rest : List T}
    (hq : m.queue = oldest :: rest) :
    m.insert x = ({ m with set := (m.set.insert x).erase oldest, queue := rest ++ [x] },
      .inserted x true) := by
  have hevict : ({ m with set := m.set.insert x } : Mruset T cmp).evict
      = { m with set := (m.set.insert x).erase oldest, queue := rest } := by
    simp only [evict, hq]
  have hfull : ({ m with set := m.set.insert x } : Mruset T cmp).Full := h
  simp only [insert, get?_of_not_mem hx, if_pos hfull, hevict]

omit [TransCmp cmp] in
theorem Full.queue_ne_nil (h : m.Full) : ∃ oldest rest, m.queue = oldest :: rest := by
  refine List.exists_cons_of_length_pos ?_
  rw [h.2]
  exact Nat.pos_of_ne_zero h.1

theorem insert_cases (m : Mruset T cmp) (x : T) :
    (∃ y, m.set.get? x = some y ∧ m.insert x = (m, .inserted y false)) ∨
    (x ∉ m.set ∧ m.Full ∧ ∃ oldest rest, m.queue = oldest :: rest ∧
      m.insert x = ({ m with set := (m.set.insert x).erase oldest, queue := rest ++ [x] },
        .inserted x true)) ∨
    (x ∉ m.set ∧ ¬ m.Full ∧
      m.insert x = ({ m with set := m.set.insert x, queue := m.queue ++ [x] },
        .inserted x true)) := by
  by_cases hx : x ∈ m.set
  · obtain ⟨y, hget⟩ := exists_get?_of_mem hx
    exact .inl ⟨y, hget, insert_of_get? hget⟩
  · by_cases hfull : m.Full
    · obtain ⟨oldest, rest, hq⟩ := hfull.queue_ne_nil
      exact .inr (.inl ⟨hx, hfull, oldest, rest, hq, insert_of_full hx hfull hq⟩)
    · exact .inr (.inr ⟨hx, hfull, insert_of_not_full hx hfull⟩)

theorem reply_insert (hx : x ∉ m.set) : (m.insert x).2 = .inserted x true := by
  rw [insert, get?_of_not_mem hx]

theorem nMaxSize_insert (m : Mruset T cmp) (x : T) : (m.insert x).1.nMaxSize = m.nMaxSize := by
  rcases m.insert_cases x with ⟨y, -, heq⟩ | ⟨-, -, oldest, rest, -, heq⟩ | ⟨-, -, heq⟩
  all_goals rw [heq]

theorem InStep.mirrors_insert (h : m.InStep) (x : T) :
    Lib.Mirrors (m.insert x).1.set (m.insert x).1.queue := by
  rcases m.insert_cases x with ⟨y, -, heq⟩ | ⟨hx, -, oldest, rest, hq, heq⟩ | ⟨hx, -, heq⟩
  · rw [heq]
    exact h.mirrors
  · have hmirrors := h.mirrors.insert hx
    rw [hq, List.cons_append] at hmirrors
    rw [heq]
    exact hmirrors.erase
  · rw [heq]
    exact h.mirrors.insert hx

/-- After an insertion the queue has the latest of its elements and the new one. -/
theorem InStep.queue_insert (h : m.InStep) (x : T) :
    (m.insert x).1.queue = Lib.latest m.nMaxSize (m.queue ++ (m.insert x).2.fresh) := by
  rcases m.insert_cases x with ⟨y, -, heq⟩ | ⟨-, hfull, oldest, rest, hq, heq⟩ | ⟨-, hfull, heq⟩
  · rw [heq]
    show m.queue = Lib.latest m.nMaxSize (m.queue ++ [])
    rw [List.append_nil, Lib.latest_of_length_le h.bounded]
  · rw [heq]
    show rest ++ [x] = Lib.latest m.nMaxSize (m.queue ++ [x])
    rw [Lib.latest_concat_of_full hfull.1 hfull.2, hq, List.tail_cons]
  · rw [heq]
    refine (Lib.latest_concat_of_not_full ?_ x).symm
    intro hn
    exact Nat.lt_of_le_of_ne (h.bounded hn) fun hlen => hfull ⟨hn, hlen⟩

theorem InStep.insert (h : m.InStep) (x : T) : (m.insert x).1.InStep where
  mirrors := h.mirrors_insert x
  bounded hn := by
    rw [nMaxSize_insert] at hn ⊢
    rw [h.queue_insert]
    exact Lib.length_latest_le hn _

/-! ### A new size -/

/-- The loop stops one element below the size. -/
theorem queue_evictWhile (hs : s ≠ 0) {fuel : Nat} (h : m.queue.length ≤ fuel) :
    (evictWhile s fuel m).queue = m.queue.rtake (s - 1) := by
  induction fuel generalizing m with
  | zero =>
      rw [evictWhile, List.eq_nil_of_length_eq_zero (Nat.le_zero.mp h), List.rtake_nil]
  | succ fuel ih =>
      rw [evictWhile]
      split
      · next hle =>
        have hlt : s - 1 < m.queue.length := by omega
        have hfuel : m.evict.queue.length ≤ fuel := by
          rw [queue_evict, List.length_tail]
          omega
        rw [ih hfuel, queue_evict, Lib.rtake_tail hlt]
      · next hlt =>
        rw [Lib.rtake_of_length_le]
        omega

theorem mirrors_evictWhile (fuel : Nat) (h : Lib.Mirrors m.set m.queue) :
    Lib.Mirrors (evictWhile s fuel m).set (evictWhile s fuel m).queue := by
  induction fuel generalizing m with
  | zero => exact h
  | succ fuel ih =>
      rw [evictWhile]
      split
      · exact ih (mirrors_evict h)
      · exact h

theorem queue_maxSize (hs : s ≠ 0) (m : Mruset T cmp) :
    (m.maxSize s).1.queue = m.queue.rtake (s - 1) := by
  rw [maxSize, if_pos hs]
  exact queue_evictWhile hs le_rfl

theorem InStep.maxSize (h : m.InStep) (s : Nat) : (m.maxSize s).1.InStep where
  mirrors := by
    rw [Mruset.maxSize]
    split
    · exact mirrors_evictWhile _ h.mirrors
    · exact h.mirrors
  bounded hs := by
    have hs0 : s ≠ 0 := hs
    show (m.maxSize s).1.queue.length ≤ s
    rw [queue_maxSize hs0, Lib.length_rtake]
    exact (Nat.min_le_right _ _).trans (Nat.sub_le s 1)

theorem InStep.step (h : m.InStep) (op : MrusetOp T) : (m.exec op).1.InStep := by
  cases op with
  | insert x => exact h.insert x
  | maxSize s => exact h.maxSize s

/-- Whatever is called, the containers stay in step. -/
theorem inStep_runOps (ops : List (MrusetOp T)) (h : m.InStep) :
    (Lib.runOps exec m ops).1.InStep :=
  Lib.runOps_keeps (fun _ op h => h.step op) ops h

/-! ## The most recent elements -/

/-- The elements that came in, in their order -/
def accepted (replies : List (MrusetReply T)) : List T := replies.flatMap MrusetReply.fresh

theorem InStep.queue_exec_suffix (h : m.InStep) (op : MrusetOp T) :
    (m.exec op).1.queue <:+ m.queue ++ (m.exec op).2.fresh := by
  cases op with
  | insert x =>
      show (m.insert x).1.queue <:+ m.queue ++ (m.insert x).2.fresh
      rw [h.queue_insert]
      exact Lib.latest_suffix _ _
  | maxSize s =>
      show (m.maxSize s).1.queue <:+ m.queue ++ []
      rw [List.append_nil]
      by_cases hs : s = 0
      · rw [hs]
        exact List.suffix_rfl
      · rw [queue_maxSize hs]
        exact Lib.rtake_suffix _ _

/-- The queue is the end of all that came in. -/
theorem queue_runOps_suffix (ops : List (MrusetOp T)) (h : m.InStep) :
    (Lib.runOps exec m ops).1.queue <:+ m.queue ++ accepted (Lib.runOps exec m ops).2 := by
  induction ops generalizing m with
  | nil =>
      show m.queue <:+ m.queue ++ []
      simp
  | cons op ops ih =>
      have hstep := h.queue_exec_suffix op
      refine (ih (h.step op)).trans ?_
      show (m.exec op).1.queue ++ accepted (Lib.runOps exec (m.exec op).1 ops).2
        <:+ m.queue ++ ((m.exec op).2.fresh ++ accepted (Lib.runOps exec (m.exec op).1 ops).2)
      rw [← List.append_assoc]
      exact List.suffix_append_self_iff.mpr hstep

/-- An element that the set has changes nothing; a new one drives out the oldest of a full set, and no
other. -/
def InsertsRecent (m : Mruset T cmp) (x : T) : Prop :=
  (x ∈ m.set → (m.insert x).1 = m) ∧
  (x ∉ m.set → m.Full → ∃ oldest rest,
    m.queue = oldest :: rest ∧ (m.insert x).1.queue = rest ++ [x]) ∧
  (x ∉ m.set → ¬ m.Full → (m.insert x).1.queue = m.queue ++ [x])

/-- What is kept under a call are the most recent elements, as many as fit. -/
def KeepsRecent (m : Mruset T cmp) : MrusetOp T → Prop
  | .insert x => m.InsertsRecent x
  | .maxSize s => s ≠ 0 → (m.maxSize s).1.queue = m.queue.rtake (min m.size s)

/-- A new size is greater than the number of the elements. -/
def Fits (m : Mruset T cmp) : MrusetOp T → Prop
  | .insert _ => True
  | .maxSize s => s ≠ 0 → m.size < s

theorem insertsRecent (m : Mruset T cmp) (x : T) : m.InsertsRecent x := by
  refine ⟨?_, ?_, ?_⟩
  · intro hx
    obtain ⟨y, hget⟩ := exists_get?_of_mem hx
    rw [insert_of_get? hget]
  · intro hx hfull
    obtain ⟨oldest, rest, hq⟩ := hfull.queue_ne_nil
    refine ⟨oldest, rest, hq, ?_⟩
    rw [insert_of_full hx hfull hq]
  · intro hx hfull
    rw [insert_of_not_full hx hfull]

/-- `max_size(s)` keeps what it should exactly when it has nothing to evict. -/
theorem InStep.maxSize_keeps_iff (h : m.InStep) (hs : s ≠ 0) :
    (m.maxSize s).1.queue = m.queue.rtake (min m.size s) ↔ m.size < s := by
  rw [queue_maxSize hs, size, h.mirrors.size]
  constructor
  · intro heq
    have hlen := congrArg List.length heq
    rw [Lib.length_rtake, Lib.length_rtake] at hlen
    omega
  · intro hlt
    rw [Lib.rtake_of_length_le (n := s - 1) (by omega), Lib.rtake_of_length_le]
    omega

theorem InStep.keepsRecent_iff (h : m.InStep) (op : MrusetOp T) : m.KeepsRecent op ↔ m.Fits op := by
  cases op with
  | insert x => exact iff_of_true (m.insertsRecent x) trivial
  | maxSize s => exact forall_congr' fun hs => h.maxSize_keeps_iff hs

/-- After any calls the two containers are in step, the queue is the end of all that came in, and an
insertion drives out the oldest element alone. The most recent elements are kept throughout a run
exactly when each of its `max_size(s)` finds fewer than `s`. -/
theorem keeps_most_recent (nMaxSizeIn : Nat) (ops : List (MrusetOp T)) :
    ((run cmp nMaxSizeIn ops).1.InStep ∧
      (run cmp nMaxSizeIn ops).1.queue <:+ accepted (run cmp nMaxSizeIn ops).2 ∧
      ∀ x, (run cmp nMaxSizeIn ops).1.InsertsRecent x) ∧
    (Lib.Throughout exec KeepsRecent (ofMaxSize cmp nMaxSizeIn) ops ↔
      Lib.Throughout exec Fits (ofMaxSize cmp nMaxSizeIn) ops) := by
  have hinit : (ofMaxSize cmp nMaxSizeIn).InStep := inStep_ofMaxSize nMaxSizeIn
  refine ⟨⟨inStep_runOps ops hinit, queue_runOps_suffix ops hinit, insertsRecent _⟩, ?_⟩
  exact Lib.throughout_congr (fun _ op h => h.step op) (fun _ op h => h.keepsRecent_iff op) ops hinit

/-- A set of two takes three elements, one of them twice, and grows. -/
theorem keeps_most_recent_grown :
    Lib.Throughout exec KeepsRecent (ofMaxSize (compare : Nat → Nat → Ordering) 2)
      [.insert 5, .insert 7, .insert 5, .insert 1, .maxSize 3, .insert 5] :=
  (keeps_most_recent 2 [.insert 5, .insert 7, .insert 5, .insert 1, .maxSize 3, .insert 5]).2.mpr
    ⟨trivial, trivial, trivial, trivial, fun _ => by decide, trivial, trivial⟩

/-- Two elements and `max_size(2)`: one is left. -/
theorem not_keeps_most_recent :
    ¬ ∀ ops : List (MrusetOp Nat),
      Lib.Throughout exec KeepsRecent (ofMaxSize (compare : Nat → Nat → Ordering) 0) ops := by
  intro h
  obtain ⟨-, -, hkeeps, -⟩ := h [.insert 1, .insert 2, .maxSize 2]
  exact absurd (hkeeps (by decide)) (by decide)

/-! ## The window -/

/-- What the calls should do to the latest elements: an insertion of an element that is not among them
pushes it, a new size resizes. -/
def recent (cmp : T → T → Ordering) (w : Lib.Window T) : MrusetOp T → Lib.Window T × MrusetReply T
  | .insert x =>
      match w.entries.find? fun y => cmp x y == .eq with
      | some y => (w, .inserted y false)
      | none => (w.push x, .inserted x true)
  | .maxSize s => (w.resize s, .maxSize s)

/-- The containers are in step and the queue is the window. -/
structure Shows (m : Mruset T cmp) (w : Lib.Window T) : Prop where
  mirrors : Lib.Mirrors m.set m.queue
  entries : w.entries = m.queue
  limit : w.limit = m.nMaxSize

theorem Shows.inStep {w : Lib.Window T} (h : m.Shows w) : m.InStep where
  mirrors := h.mirrors
  bounded := by
    rw [← h.entries, ← h.limit]
    exact w.within

theorem Shows.insert {w : Lib.Window T} (h : m.Shows w) (x : T) :
    (m.insert x).1.Shows (recent cmp w (.insert x)).1 ∧
      (recent cmp w (.insert x)).2 = (m.insert x).2 := by
  have hqueue := h.inStep.queue_insert x
  have hlimit := m.nMaxSize_insert x
  have hfind : w.entries.find? (fun y => cmp x y == .eq) = m.set.get? x := by
    rw [h.entries, h.mirrors.get?_eq_find? x]
  by_cases hx : x ∈ m.set
  · obtain ⟨y, hget⟩ := exists_get?_of_mem hx
    rw [recent, hfind, hget, insert_of_get? hget]
    exact ⟨h, rfl⟩
  · rw [reply_insert hx] at hqueue ⊢
    rw [recent, hfind, get?_of_not_mem hx]
    refine ⟨⟨h.inStep.mirrors_insert x, ?_, h.limit.trans hlimit.symm⟩, rfl⟩
    show Lib.latest w.limit (w.entries ++ [x]) = (m.insert x).1.queue
    rw [h.limit, h.entries, hqueue]
    rfl

theorem Shows.maxSize {w : Lib.Window T} (h : m.Shows w) (hfit : s ≠ 0 → m.size < s) :
    (m.maxSize s).1.Shows (w.resize s) where
  mirrors := (h.inStep.maxSize s).mirrors
  limit := rfl
  entries := by
    show Lib.latest s w.entries = (m.maxSize s).1.queue
    rw [h.entries]
    by_cases hs : s = 0
    · rw [hs]
      rfl
    · have hlt := hfit hs
      rw [size, h.mirrors.size] at hlt
      rw [queue_maxSize hs, Lib.latest_of_length_le fun _ => hlt.le, Lib.rtake_of_length_le]
      omega

/-- A run whose calls fit goes as the window does. -/
theorem Shows.runOps {w : Lib.Window T} (h : m.Shows w) {ops : List (MrusetOp T)}
    (hfit : Lib.Throughout exec Fits m ops) :
    (Lib.runOps exec m ops).1.Shows (Lib.runOps (recent cmp) w ops).1 ∧
      (Lib.runOps (recent cmp) w ops).2 = (Lib.runOps exec m ops).2 := by
  refine Lib.runOps_simulates_of_rel ?_ hfit h
  intro m w op hfit h
  cases op with
  | insert x => exact h.insert x
  | maxSize s => exact ⟨h.maxSize hfit, rfl⟩

end Mruset

end ShinyCoin

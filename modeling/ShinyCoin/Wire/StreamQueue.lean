import ShinyCoin.Wire.DataStream
import ShinyCoin.Lib.Simulate
import Mathlib.Logic.Function.Basic

/-!
# CDataStream as a byte queue

The whole class: `nReadPos` is an `unsigned int` and sizes are `int`, and a read past the end sets the
state and throws. What can be seen of a stream, from `begin()` to `end()`, is a list of bytes on which
the operations are those of lists. The prefix that was consumed is not seen, except by `<<` of one
stream to another, which writes the whole buffer.
-/

namespace ShinyCoin.Wire

/-- A `CDataStream` with its machine words; of `state` the operations only ever set `failbit`. -/
structure Buffer extends CDataStream where
  failbit : Bool
  nReadPos_lt : nReadPos < 2 ^ 32

namespace Buffer

variable {s a : Buffer} {n : Nat} {pch : Bytes}

/-- After `Init` -/
def empty : Buffer := { CDataStream.clear with failbit := false, nReadPos_lt := by decide }

/-- The buffer is emptied, as it is whenever the read position gets to the end. -/
def cleared (s : Buffer) : Buffer :=
  { CDataStream.clear with failbit := s.failbit, nReadPos_lt := Nat.two_pow_pos 32 }

/-- The read position is set. -/
def seek (s : Buffer) (nReadPos : Nat) (h : nReadPos ≤ s.vch.length) (h' : nReadPos < 2 ^ 32) :
    Buffer where
  vch := s.vch
  nReadPos := nReadPos
  nReadPos_le := h
  failbit := s.failbit
  nReadPos_lt := h'

def write (s : Buffer) (pch : Bytes) : Buffer :=
  { s.append pch with failbit := s.failbit, nReadPos_lt := s.nReadPos_lt }

/-- `operator+=` -/
def addAssign (s b : Buffer) : Buffer := s.write b.unread

/-- `insert(begin(), first, last)` -/
def insert (s : Buffer) (pch : Bytes) : Buffer :=
  { s.insertFront pch with
    failbit := s.failbit
    nReadPos_lt := by
      have := s.nReadPos_lt
      simp only [CDataStream.insertFront]
      split
      · exact Nat.lt_of_le_of_lt (Nat.sub_le _ _) this
      · exact this }

/-- `insert(begin(), n, x)`, and `insert(begin(), x)` for an `n` of one: never over what was consumed -/
def insertFill (s : Buffer) (n : Nat) (x : UInt8) : Buffer where
  vch := s.vch.take s.nReadPos ++ List.replicate n x ++ s.vch.drop s.nReadPos
  nReadPos := s.nReadPos
  nReadPos_le := by
    have := s.nReadPos_le
    simp only [List.length_append, List.length_take]
    omega
  failbit := s.failbit
  nReadPos_lt := s.nReadPos_lt

/-- `erase(begin())` -/
def erase (s : Buffer) : Buffer :=
  let nReadPos := (s.nReadPos + 1) % 2 ^ 32
  if h : nReadPos < s.vch.length then s.seek nReadPos h.le (Nat.mod_lt _ (Nat.two_pow_pos 32))
  else s.cleared

/-- `erase(begin(), begin() + n)`; what goes past the end is no range of the buffer. -/
def eraseRange (s : Buffer) (n : Nat) : Buffer :=
  if h : s.nReadPos + n < s.vch.length then
    s.seek ((s.nReadPos + n) % 2 ^ 32) ((Nat.mod_le _ _).trans h.le) (Nat.mod_lt _ (Nat.two_pow_pos 32))
  else s.cleared

def compact (s : Buffer) : Buffer :=
  { s.toCDataStream.compact with failbit := s.failbit, nReadPos_lt := Nat.two_pow_pos 32 }

/-- `read`: the bytes, or nothing where it throws -/
def read (s : Buffer) (nSize : Nat) : Buffer × Option Bytes :=
  let nReadPosNext := (s.nReadPos + nSize) % 2 ^ 32
  if h : nReadPosNext < s.vch.length then
    (s.seek nReadPosNext h.le (Nat.mod_lt _ (Nat.two_pow_pos 32)), some (s.unread.take nSize))
  else if nReadPosNext > s.vch.length then
    ({ s with failbit := true }, none) -- CDataStream::read() : end of data
  else (s.cleared, some (s.unread.take nSize))

/-- `ignore`, and whether it returns -/
def ignore (s : Buffer) (nSize : Nat) : Buffer × Bool :=
  let nReadPosNext := (s.nReadPos + nSize) % 2 ^ 32
  if h : nReadPosNext < s.vch.length then
    (s.seek nReadPosNext h.le (Nat.mod_lt _ (Nat.two_pow_pos 32)), true)
  else if nReadPosNext > s.vch.length then
    ({ s with failbit := true }, false) -- CDataStream::ignore() : end of data
  else (s.cleared, true)

/-- `s << a`, that is `a.Serialize(s)`: all of the buffer is written, its size as an `int`; `none`
where the assertion of `write` fails. -/
def shiftLeft (s a : Buffer) : Option Buffer :=
  if a.vch.isEmpty then some s
  else
    let nSize := (a.vch.length : ℤ).bmod (2 ^ 32)
    if nSize < 0 then none else some (s.write (a.vch.take nSize.toNat))

/-! ## What is seen of a stream -/

theorem unread_seek {m : Nat} (h : m ≤ s.vch.length) (h' : m < 2 ^ 32) (hm : m = s.nReadPos + n) :
    (s.seek m h h').unread = s.unread.drop n := by
  subst hm
  exact List.drop_drop.symm

theorem unread_write (s : Buffer) (pch : Bytes) : (s.write pch).unread = s.unread ++ pch :=
  CDataStream.unread_append s.toCDataStream pch

theorem unread_addAssign (s a : Buffer) : (s.addAssign a).unread = s.unread ++ a.unread :=
  unread_write s a.unread

theorem unread_insert (s : Buffer) (pch : Bytes) : (s.insert pch).unread = pch ++ s.unread :=
  CDataStream.unread_insertFront s.toCDataStream pch

theorem unread_insertFill (s : Buffer) (n : Nat) (x : UInt8) :
    (s.insertFill n x).unread = List.replicate n x ++ s.unread := by
  have hlen : (s.vch.take s.nReadPos).length = s.nReadPos := List.length_take_of_le s.nReadPos_le
  have hdrop : (s.vch.take s.nReadPos ++ (List.replicate n x ++ s.unread)).drop s.nReadPos
      = List.replicate n x ++ s.unread := List.drop_left' hlen
  rw [← List.append_assoc] at hdrop
  exact hdrop

theorem unread_compact (s : Buffer) : s.compact.unread = s.unread := rfl

theorem length_unread_eq (s : Buffer) : s.unread.length = s.vch.length - s.nReadPos :=
  List.length_drop

/-- Nothing is left of the bytes when the position gets to the end. -/
theorem drop_unread_eq_nil (h : ¬ s.nReadPos + n < s.vch.length) : s.unread.drop n = [] := by
  apply List.drop_eq_nil_of_le
  rw [length_unread_eq]
  omega

theorem unread_erase (h : s.nReadPos + 1 < 2 ^ 32) : s.erase.unread = s.unread.drop 1 := by
  have hpos : (s.nReadPos + 1) % 2 ^ 32 = s.nReadPos + 1 := Nat.mod_eq_of_lt h
  unfold erase
  dsimp only
  split
  · exact unread_seek _ _ hpos
  · next hend =>
    rw [drop_unread_eq_nil (by rwa [hpos] at hend)]
    rfl

theorem unread_eraseRange (h : s.nReadPos + n < 2 ^ 32) :
    (s.eraseRange n).unread = s.unread.drop n := by
  unfold eraseRange
  split
  · exact unread_seek _ _ (Nat.mod_eq_of_lt h)
  · next hend =>
    rw [drop_unread_eq_nil hend]
    rfl

/-- A read that is not too long gives the first bytes and takes them off. -/
theorem read_of_le (h : s.nReadPos + n < 2 ^ 32) (hn : n ≤ s.unread.length) :
    (s.read n).2 = some (s.unread.take n) ∧ (s.read n).1.unread = s.unread.drop n := by
  have hpos : (s.nReadPos + n) % 2 ^ 32 = s.nReadPos + n := Nat.mod_eq_of_lt h
  have hle := s.nReadPos_le
  rw [length_unread_eq] at hn
  unfold read
  dsimp only
  split
  · exact ⟨rfl, unread_seek _ _ hpos⟩
  · next hend =>
    rw [hpos] at hend
    rw [if_neg (by omega)]
    exact ⟨rfl, (drop_unread_eq_nil hend).symm⟩

/-- A read past the end throws, and nothing is taken. -/
theorem read_of_lt (h : s.nReadPos + n < 2 ^ 32) (hn : s.unread.length < n) :
    (s.read n).2 = none ∧ (s.read n).1.unread = s.unread := by
  have hpos : (s.nReadPos + n) % 2 ^ 32 = s.nReadPos + n := Nat.mod_eq_of_lt h
  have hle := s.nReadPos_le
  rw [length_unread_eq] at hn
  unfold read
  dsimp only
  rw [dif_neg (by omega), if_pos (by omega)]
  exact ⟨rfl, rfl⟩

theorem ignore_of_le (h : s.nReadPos + n < 2 ^ 32) (hn : n ≤ s.unread.length) :
    (s.ignore n).2 = true ∧ (s.ignore n).1.unread = s.unread.drop n := by
  have hpos : (s.nReadPos + n) % 2 ^ 32 = s.nReadPos + n := Nat.mod_eq_of_lt h
  have hle := s.nReadPos_le
  rw [length_unread_eq] at hn
  unfold ignore
  dsimp only
  split
  · exact ⟨rfl, unread_seek _ _ hpos⟩
  · next hend =>
    rw [hpos] at hend
    rw [if_neg (by omega)]
    exact ⟨rfl, (drop_unread_eq_nil hend).symm⟩

theorem ignore_of_lt (h : s.nReadPos + n < 2 ^ 32) (hn : s.unread.length < n) :
    (s.ignore n).2 = false ∧ (s.ignore n).1.unread = s.unread := by
  have hpos : (s.nReadPos + n) % 2 ^ 32 = s.nReadPos + n := Nat.mod_eq_of_lt h
  have hle := s.nReadPos_le
  rw [length_unread_eq] at hn
  unfold ignore
  dsimp only
  rw [dif_neg (by omega), if_pos (by omega)]
  exact ⟨rfl, rfl⟩

/-! ## `<<` of a stream -/

/-- What `<<` appends is what `+=` appends exactly when nothing of the stream was consumed and its size
is an `int`. -/
theorem shiftLeft_eq_iff (s a : Buffer) :
    (s.shiftLeft a).map (fun s => s.unread) = some (s.addAssign a).unread ↔
      a.nReadPos = 0 ∧ a.vch.length < 2 ^ 31 := by
  have hpos := a.nReadPos_lt
  have hle := a.nReadPos_le
  rw [unread_addAssign, shiftLeft]
  by_cases hempty : a.vch = []
  · have h0 : a.vch.length = 0 := by rw [hempty]; rfl
    refine iff_of_true ?_ ⟨by omega, by omega⟩
    rw [if_pos (by rw [hempty]; rfl), Option.map_some, CDataStream.unread, CDataStream.unread, hempty,
      List.drop_nil, List.append_nil]
  rw [if_neg (by rwa [List.isEmpty_iff])]
  dsimp only
  split
  · next hneg =>
    refine iff_of_false (by simp) fun h => ?_
    have hsize : ((a.vch.length : ℤ).bmod (2 ^ 32)) = a.vch.length := by
      apply Int.bmod_eq_of_le <;> omega
    omega
  · next hnonneg =>
    -- as an `int` the size is the same modulo `2 ^ 32`
    have hmod : (a.vch.length : ℤ).bmod (2 ^ 32) % 2 ^ 32 = a.vch.length % 2 ^ 32 := Int.bmod_emod
    have hlt : (a.vch.length : ℤ).bmod (2 ^ 32) < 2 ^ 31 := Int.bmod_lt (by decide)
    rw [Option.map_some, Option.some.injEq, unread_write, List.append_cancel_left_eq]
    constructor
    · intro h
      have hlen := congrArg List.length h
      rw [List.length_take, length_unread_eq] at hlen
      omega
    · rintro ⟨h0, hsize⟩
      have hall : ((a.vch.length : ℤ).bmod (2 ^ 32)).toNat = a.vch.length := by omega
      rw [hall, List.take_length, CDataStream.unread, h0, List.drop_zero]

end Buffer

/-! ## Runs -/

/-- An operation on one of many streams -/
inductive StreamOp where
  | write (i : Nat) (pch : Bytes)
  | read (i nSize : Nat)
  | ignore (i nSize : Nat)
  | insert (i : Nat) (pch : Bytes)
  | insertFill (i n : Nat) (x : UInt8)
  | erase (i : Nat)
  | eraseRange (i n : Nat)
  | compact (i : Nat)
  | addAssign (i j : Nat)
  | shiftLeft (i j : Nat)

/-- What an operation gives: nothing, the bytes that it reads, an exception, or a failed assertion -/
inductive StreamResult where
  | done
  | bytes (pch : Bytes)
  | threw
  | aborted
deriving DecidableEq, Repr

open Function

namespace StreamOp

/-- What the code does with the streams -/
def exec (b : Nat → Buffer) : StreamOp → (Nat → Buffer) × StreamResult
  | write i pch => (update b i ((b i).write pch), .done)
  | read i nSize =>
      match (b i).read nSize with
      | (s, some pch) => (update b i s, .bytes pch)
      | (s, none) => (update b i s, .threw)
  | ignore i nSize =>
      match (b i).ignore nSize with
      | (s, true) => (update b i s, .done)
      | (s, false) => (update b i s, .threw)
  | insert i pch => (update b i ((b i).insert pch), .done)
  | insertFill i n x => (update b i ((b i).insertFill n x), .done)
  | erase i => (update b i (b i).erase, .done)
  | eraseRange i n => (update b i ((b i).eraseRange n), .done)
  | compact i => (update b i (b i).compact, .done)
  | addAssign i j => (update b i ((b i).addAssign (b j)), .done)
  | shiftLeft i j =>
      match (b i).shiftLeft (b j) with
      | some s => (update b i s, .done)
      | none => (b, .aborted)

/-- The same on plain lists of bytes -/
def spec (q : Nat → Bytes) : StreamOp → (Nat → Bytes) × StreamResult
  | write i pch => (update q i (q i ++ pch), .done)
  | read i nSize =>
      if nSize ≤ (q i).length then (update q i ((q i).drop nSize), .bytes ((q i).take nSize))
      else (q, .threw)
  | ignore i nSize =>
      if nSize ≤ (q i).length then (update q i ((q i).drop nSize), .done) else (q, .threw)
  | insert i pch => (update q i (pch ++ q i), .done)
  | insertFill i n x => (update q i (List.replicate n x ++ q i), .done)
  | erase i => (update q i ((q i).drop 1), .done)
  | eraseRange i n => (update q i ((q i).drop n), .done)
  | compact _ => (q, .done)
  | addAssign i j => (update q i (q i ++ q j), .done)
  | shiftLeft i j => (update q i (q i ++ q j), .done)

/-- The read position stays an `unsigned int`, and `<<` has a stream from which nothing was consumed
and whose size is an `int`. -/
def Fits (b : Nat → Buffer) : StreamOp → Prop
  | read i n | ignore i n | eraseRange i n => (b i).nReadPos + n < 2 ^ 32
  | erase i => (b i).nReadPos + 1 < 2 ^ 32
  | shiftLeft _ j => (b j).nReadPos = 0 ∧ (b j).vch.length < 2 ^ 31
  | _ => True

instance (b : Nat → Buffer) : ∀ op, Decidable (Fits b op)
  | read i n | ignore i n | eraseRange i n =>
      inferInstanceAs (Decidable ((b i).nReadPos + n < 2 ^ 32))
  | erase i => inferInstanceAs (Decidable ((b i).nReadPos + 1 < 2 ^ 32))
  | shiftLeft _ j => inferInstanceAs (Decidable ((b j).nReadPos = 0 ∧ (b j).vch.length < 2 ^ 31))
  | write _ _ | insert _ _ | insertFill _ _ _ | compact _ | addAssign _ _ => inferInstanceAs (Decidable True)

/-- The lists that the streams show -/
def shown (b : Nat → Buffer) (i : Nat) : Bytes := (b i).unread

theorem shown_update (b : Nat → Buffer) (i : Nat) (s : Buffer) :
    shown (update b i s) = update (shown b) i s.unread := by
  funext k
  unfold shown
  by_cases hk : k = i
  · rw [hk, update_self, update_self]
  · rw [update_of_ne hk, update_of_ne hk]

theorem update_shown (b : Nat → Buffer) (i : Nat) : update (shown b) i (b i).unread = shown b :=
  update_eq_self i (shown b)

theorem exec_read {b : Nat → Buffer} {i n : Nat} (h : (b i).nReadPos + n < 2 ^ 32) :
    spec (shown b) (read i n) = (shown (exec b (read i n)).1, (exec b (read i n)).2) := by
  rw [exec, spec]
  by_cases hn : n ≤ (shown b i).length
  · obtain ⟨hbytes, hunread⟩ := Buffer.read_of_le h hn
    rw [← Prod.mk.eta (p := (b i).read n), hbytes, if_pos hn]
    dsimp only
    rw [shown_update, hunread]
    rfl
  · obtain ⟨hthrew, hunread⟩ := Buffer.read_of_lt h (Nat.lt_of_not_le hn)
    rw [← Prod.mk.eta (p := (b i).read n), hthrew, if_neg hn]
    dsimp only
    rw [shown_update, hunread, update_shown]

theorem exec_ignore {b : Nat → Buffer} {i n : Nat} (h : (b i).nReadPos + n < 2 ^ 32) :
    spec (shown b) (ignore i n) = (shown (exec b (ignore i n)).1, (exec b (ignore i n)).2) := by
  rw [exec, spec]
  by_cases hn : n ≤ (shown b i).length
  · obtain ⟨hdone, hunread⟩ := Buffer.ignore_of_le h hn
    rw [← Prod.mk.eta (p := (b i).ignore n), hdone, if_pos hn]
    dsimp only
    rw [shown_update, hunread]
    rfl
  · obtain ⟨hthrew, hunread⟩ := Buffer.ignore_of_lt h (Nat.lt_of_not_le hn)
    rw [← Prod.mk.eta (p := (b i).ignore n), hthrew, if_neg hn]
    dsimp only
    rw [shown_update, hunread, update_shown]

theorem exec_shiftLeft {b : Nat → Buffer} {i j : Nat} (h : Fits b (shiftLeft i j)) :
    spec (shown b) (shiftLeft i j)
      = (shown (exec b (shiftLeft i j)).1, (exec b (shiftLeft i j)).2) := by
  obtain ⟨s, hs, hunread⟩ := Option.map_eq_some_iff.mp ((Buffer.shiftLeft_eq_iff (b i) (b j)).mpr h)
  rw [exec, spec, hs]
  dsimp only
  rw [shown_update, hunread, Buffer.unread_addAssign]
  rfl

/-- One operation is one on the lists. -/
theorem exec_simulates (b : Nat → Buffer) (op : StreamOp) (h : Fits b op) :
    spec (shown b) op = (shown (exec b op).1, (exec b op).2) := by
  cases op with
  | write i pch => rw [exec, spec, shown_update, Buffer.unread_write]; rfl
  | read i n => exact exec_read h
  | ignore i n => exact exec_ignore h
  | insert i pch => rw [exec, spec, shown_update, Buffer.unread_insert]; rfl
  | insertFill i n x => rw [exec, spec, shown_update, Buffer.unread_insertFill]; rfl
  | erase i => rw [exec, spec, shown_update, Buffer.unread_erase h]; rfl
  | eraseRange i n => rw [exec, spec, shown_update, Buffer.unread_eraseRange h]; rfl
  | compact i => rw [exec, spec, shown_update, Buffer.unread_compact, update_shown]
  | addAssign i j => rw [exec, spec, shown_update, Buffer.unread_addAssign]; rfl
  | shiftLeft i j => exact exec_shiftLeft h

end StreamOp

/-- `<<` of a stream does what `+=` does exactly when it fits. -/
theorem StreamOp.fits_shiftLeft_iff (b : Nat → Buffer) (i j : Nat) :
    Fits b (shiftLeft i j) ↔ (exec b (shiftLeft i j)).2 = .done ∧
      shown (exec b (shiftLeft i j)).1 = shown (exec b (addAssign i j)).1 := by
  rw [show Fits b (shiftLeft i j) ↔ (b j).nReadPos = 0 ∧ (b j).vch.length < 2 ^ 31 from Iff.rfl,
    ← Buffer.shiftLeft_eq_iff (b i), exec, exec]
  cases hs : (b i).shiftLeft (b j) with
  | none => exact iff_of_false (by simp) (by simp)
  | some s =>
      dsimp only
      rw [Option.map_some, Option.some.injEq, shown_update, shown_update]
      constructor
      · intro h
        exact ⟨rfl, by rw [h]⟩
      · rintro ⟨-, h⟩
        have hi := congrFun h i
        rwa [update_self, update_self] at hi

/-- Every run whose operations fit shows the lists, and gives the results, of the same run on lists of
bytes; and appending a stream by `<<` fits exactly when it appends what `+=` does. -/
theorem streams_are_queues (b : Nat → Buffer) :
    (∀ ops : List StreamOp, Lib.Throughout StreamOp.exec StreamOp.Fits b ops →
      Lib.runOps StreamOp.spec (StreamOp.shown b) ops
        = (StreamOp.shown (Lib.runOps StreamOp.exec b ops).1, (Lib.runOps StreamOp.exec b ops).2)) ∧
    ∀ i j : Nat, StreamOp.Fits b (.shiftLeft i j) ↔
      (StreamOp.exec b (.shiftLeft i j)).2 = .done ∧
        StreamOp.shown (StreamOp.exec b (.shiftLeft i j)).1
          = StreamOp.shown (StreamOp.exec b (.addAssign i j)).1 :=
  ⟨fun _ h => Lib.runOps_simulates StreamOp.exec_simulates h, StreamOp.fits_shiftLeft_iff b⟩

/-- A stream is written, read in part, appended to another with `+=` and read past its end. -/
theorem streams_are_queues_partly_read :
    Lib.runOps StreamOp.spec (fun _ => [])
        [.write 1 [1, 2, 3], .read 1 1, .addAssign 0 1, .insert 1 [7], .read 1 4]
      = (StreamOp.shown (Lib.runOps StreamOp.exec (fun _ => Buffer.empty)
          [.write 1 [1, 2, 3], .read 1 1, .addAssign 0 1, .insert 1 [7], .read 1 4]).1,
        [.done, .bytes [1], .done, .done, .threw]) :=
  (streams_are_queues fun _ => Buffer.empty).1
    [.write 1 [1, 2, 3], .read 1 1, .addAssign 0 1, .insert 1 [7], .read 1 4]
    ⟨trivial, by decide, trivial, trivial, by decide, trivial⟩

/-- A stream of two bytes of which one was read: `<<` appends both. -/
theorem not_streams_are_queues :
    ¬ ∀ ops : List StreamOp,
      StreamOp.shown (Lib.runOps StreamOp.exec (fun _ => Buffer.empty) ops).1
        = (Lib.runOps StreamOp.spec (fun _ => []) ops).1 := by
  intro h
  have h0 := congrFun (h [.write 1 [1, 2], .read 1 1, .shiftLeft 0 1]) 0
  revert h0
  decide

end ShinyCoin.Wire

import ShinyCoin.Core.Types
import Mathlib.Data.List.Basic

/-!
# CDataStream

A buffer with a read position: what stands before it was read already and may be overwritten or
dropped. The operations are what `ProcessMessages` does with `vRecv`, and each has its meaning for
the unread bytes. Positions are plain numbers, as the socket thread closes a connection long before
they need 31 bits.
-/

namespace ShinyCoin.Wire

structure CDataStream where
  vch : Bytes
  nReadPos : Nat
  nReadPos_le : nReadPos ≤ vch.length

namespace CDataStream

variable {s : CDataStream} {n : Nat}

/-- What lies between `begin()` and `end()` -/
def unread (s : CDataStream) : Bytes := s.vch.drop s.nReadPos

def size (s : CDataStream) : Nat := s.vch.length - s.nReadPos

def clear : CDataStream := ⟨[], 0, le_rfl⟩

/-- `resize` and `memcpy` at the end -/
def append (s : CDataStream) (pch : Bytes) : CDataStream where
  vch := s.vch ++ pch
  nReadPos := s.nReadPos
  nReadPos_le := by
    have := s.nReadPos_le
    rw [List.length_append]
    omega

/-- Move the read position, or empty the buffer when it gets to the end. -/
def advance (s : CDataStream) (n : Nat) : CDataStream :=
  if h : s.nReadPos + n < s.vch.length then ⟨s.vch, s.nReadPos + n, h.le⟩ else clear

/-- `erase(begin(), begin() + n)` -/
def eraseFront (s : CDataStream) (n : Nat) : CDataStream := s.advance n

/-- `insert(begin(), pch)`: over what was read already, if there is room -/
def insertFront (s : CDataStream) (pch : Bytes) : CDataStream :=
  if h : pch.length ≤ s.nReadPos then
    { vch := s.vch.take (s.nReadPos - pch.length) ++ pch ++ s.vch.drop s.nReadPos
      nReadPos := s.nReadPos - pch.length
      nReadPos_le := by
        have := s.nReadPos_le
        simp only [List.length_append, List.length_take]
        omega }
  else
    { vch := s.vch.take s.nReadPos ++ pch ++ s.vch.drop s.nReadPos
      nReadPos := s.nReadPos
      nReadPos_le := by
        have := s.nReadPos_le
        simp only [List.length_append, List.length_take]
        omega }

/-- `read(pch, n)`; `none` for the exception `end of data`. -/
def read (s : CDataStream) (n : Nat) : Option (Bytes × CDataStream) :=
  if s.vch.length < s.nReadPos + n then none
  else some ((s.vch.drop s.nReadPos).take n, s.advance n)

/-- `ignore(n)` -/
def ignore (s : CDataStream) (n : Nat) : Option CDataStream :=
  if s.vch.length < s.nReadPos + n then none else some (s.advance n)

def compact (s : CDataStream) : CDataStream := ⟨s.vch.drop s.nReadPos, 0, Nat.zero_le _⟩

/-! ## What they mean for the unread bytes -/

@[simp] theorem length_unread (s : CDataStream) : s.unread.length = s.size := List.length_drop

@[simp] theorem unread_clear : clear.unread = [] := rfl

@[simp] theorem unread_append (s : CDataStream) (pch : Bytes) :
    (s.append pch).unread = s.unread ++ pch :=
  List.drop_append_of_le_length s.nReadPos_le

@[simp] theorem unread_advance (s : CDataStream) (n : Nat) :
    (s.advance n).unread = s.unread.drop n := by
  unfold advance
  split
  · exact List.drop_drop.symm
  · next h =>
    have hle : s.unread.length ≤ n := by
      rw [length_unread, size]
      omega
    rw [List.drop_eq_nil_of_le hle, unread_clear]

@[simp] theorem unread_eraseFront (s : CDataStream) (n : Nat) :
    (s.eraseFront n).unread = s.unread.drop n := unread_advance s n

@[simp] theorem unread_insertFront (s : CDataStream) (pch : Bytes) :
    (s.insertFront pch).unread = pch ++ s.unread := by
  have hpos := s.nReadPos_le
  have hdrop : ∀ m ≤ s.nReadPos,
      (s.vch.take m ++ pch ++ s.vch.drop s.nReadPos).drop m = pch ++ s.unread := by
    intro m hm
    rw [List.append_assoc, List.drop_left']
    · rfl
    · rw [List.length_take]
      omega
  unfold insertFront
  split
  · exact hdrop _ (Nat.sub_le _ _)
  · exact hdrop _ le_rfl

@[simp] theorem unread_compact (s : CDataStream) : s.compact.unread = s.unread := rfl

theorem read_eq (h : n ≤ s.size) : s.read n = some (s.unread.take n, s.advance n) := by
  have hpos := s.nReadPos_le
  unfold size at h
  unfold read
  rw [if_neg (by omega)]
  rfl

theorem ignore_eq (h : n ≤ s.size) : s.ignore n = some (s.advance n) := by
  have hpos := s.nReadPos_le
  unfold size at h
  unfold ignore
  rw [if_neg (by omega)]

@[simp] theorem size_advance (s : CDataStream) (n : Nat) : (s.advance n).size = s.size - n := by
  rw [← length_unread, unread_advance, List.length_drop, length_unread]

end CDataStream

end ShinyCoin.Wire

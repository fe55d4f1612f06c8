import ShinyCoin.Lib.Reader

/-!
# Prefix codes

What is written for a value does not go on into what is written for another one. So a byte string
tells which value it begins with, and what stands behind it, without a reader: lengths need not be
bounded by what a reader accepts. The rules put the code of a vector together from those of its size
and its items; a record's is peeled off field by field.
-/

namespace Lib

/-- Equal byte strings begin with the same value, and go on in the same way. `P` says which values
are written. -/
def PrefixCode {α : Type} (write : α → List UInt8) (P : α → Prop) : Prop :=
  ∀ ⦃a b : α⦄ ⦃s t : List UInt8⦄, P a → P b → write a ++ s = write b ++ t → a = b ∧ s = t

variable {α : Type} {write : α → List UInt8} {P : α → Prop}

/-- Values of one width -/
theorem PrefixCode.of_length {w : Nat} (hlen : ∀ a, (write a).length = w)
    (hinj : ∀ a b, P a → P b → write a = write b → a = b) : PrefixCode write P := by
  intro a b s t ha hb h
  obtain ⟨hwrite, hrest⟩ := List.append_inj h ((hlen a).trans (hlen b).symm)
  exact ⟨hinj a b ha hb hwrite, hrest⟩

theorem prefixCode_toLE (w : Nat) : PrefixCode (toLE w) (· < 256 ^ w) :=
  .of_length (length_toLE w) fun _ _ ha hb h => toLE_inj ha hb h

theorem prefixCode_toLEInt (w : Nat) :
    PrefixCode (toLEInt w) fun z => -(256 ^ w : Nat) ≤ 2 * z ∧ 2 * z < (256 ^ w : Nat) := by
  refine .of_length (length_toLEInt w) fun a b ha hb h => ?_
  rw [← ofLEInt_toLEInt ha.1 ha.2, ← ofLEInt_toLEInt hb.1 hb.2, h]

/-- One item after the other, as many on both sides -/
theorem PrefixCode.flatMap (h : PrefixCode write P) {l l' : List α} {s t : List UInt8}
    (hlen : l.length = l'.length) (hl : ∀ a ∈ l, P a) (hl' : ∀ a ∈ l', P a)
    (heq : l.flatMap write ++ s = l'.flatMap write ++ t) : l = l' ∧ s = t := by
  induction l generalizing l' with
  | nil =>
      cases l' with
      | nil => exact ⟨rfl, heq⟩
      | cons b l' => cases hlen
  | cons a l ih =>
      cases l' with
      | nil => cases hlen
      | cons b l' =>
          rw [List.flatMap_cons, List.flatMap_cons, List.append_assoc, List.append_assoc] at heq
          obtain ⟨rfl, hrest⟩ := h (hl a List.mem_cons_self) (hl' b List.mem_cons_self) heq
          obtain ⟨rfl, rfl⟩ := ih (Nat.succ.inj hlen)
            (fun c hc => hl c (List.mem_cons_of_mem _ hc))
            (fun c hc => hl' c (List.mem_cons_of_mem _ hc)) hrest
          exact ⟨rfl, rfl⟩

section

variable {count : Nat → List UInt8} {Q : Nat → Prop}

/-- The items behind their number -/
theorem PrefixCode.vector (hcount : PrefixCode count Q) (h : PrefixCode write P) :
    PrefixCode (fun l : List α => count l.length ++ l.flatMap write)
      fun l => Q l.length ∧ ∀ a ∈ l, P a := by
  intro l l' s t hl hl' heq
  dsimp only at heq
  rw [List.append_assoc, List.append_assoc] at heq
  obtain ⟨hlen, heq⟩ := hcount hl.1 hl'.1 heq
  exact h.flatMap hlen hl.2 hl'.2 heq

/-- Bytes behind their number -/
theorem PrefixCode.bytes (hcount : PrefixCode count Q) :
    PrefixCode (fun b : List UInt8 => count b.length ++ b) fun b => Q b.length := by
  intro b b' s t hb hb' heq
  dsimp only at heq
  rw [List.append_assoc, List.append_assoc] at heq
  obtain ⟨hlen, heq⟩ := hcount hb hb' heq
  exact List.append_inj heq hlen

end

end Lib

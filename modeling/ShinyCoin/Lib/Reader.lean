import Mathlib.Data.List.Basic
import Mathlib.Tactic.Positivity
import Mathlib.Tactic.Ring

/-!
# Reading back what was written

Little-endian numbers, and readers that consume bytes from the front. `Yields m bs a` says that the
reader `m` takes exactly the bytes `bs` wherever they stand in front, and gives `a` for them: the
rules put a record's round trip together from its fields'.
-/

namespace Lib

/-! ## Little-endian numbers -/

/-- The `w` low bytes of a number, the lowest one first. -/
def toLE : Nat → Nat → List UInt8
  | 0, _ => []
  | w + 1, n => UInt8.ofNat n :: toLE w (n / 256)

def ofLE : List UInt8 → Nat
  | [] => 0
  | b :: bs => b.toNat + 256 * ofLE bs

@[simp] theorem length_toLE (w n : Nat) : (toLE w n).length = w := by
  induction w generalizing n with
  | zero => rfl
  | succ w ih => simp [toLE, ih]

theorem ofLE_lt (bs : List UInt8) : ofLE bs < 256 ^ bs.length := by
  induction bs with
  | nil => decide
  | cons b bs ih =>
      have hb := b.toNat_lt
      simp only [ofLE, List.length_cons, pow_succ]
      omega

theorem ofLE_append (bs cs : List UInt8) : ofLE (bs ++ cs) = ofLE bs + 256 ^ bs.length * ofLE cs := by
  induction bs with
  | nil => simp [ofLE]
  | cons b bs ih =>
      simp only [List.cons_append, ofLE, ih, List.length_cons, pow_succ]
      ring

@[simp] theorem ofLE_replicate_zero (k : Nat) : ofLE (List.replicate k 0) = 0 := by
  induction k with
  | zero => rfl
  | succ k ih => simp [List.replicate_succ, ofLE, ih]

theorem ofLE_toLE {w n : Nat} (h : n < 256 ^ w) : ofLE (toLE w n) = n := by
  induction w generalizing n with
  | zero =>
      rw [pow_zero] at h
      simp only [toLE, ofLE]
      omega
  | succ w ih =>
      have hdiv : n / 256 < 256 ^ w := by
        rw [pow_succ] at h
        omega
      have hlow : (UInt8.ofNat n).toNat = n % 256 := by simp
      simp only [toLE, ofLE, ih hdiv, hlow]
      omega

/-- Only the low bytes are written. -/
theorem toLE_mod (w n : Nat) : toLE w (n % 256 ^ w) = toLE w n := by
  induction w generalizing n with
  | zero => rfl
  | succ w ih =>
      have hlow : n % 256 ^ (w + 1) % 256 = n % 256 := by
        rw [pow_succ, Nat.mul_comm, Nat.mod_mul_right_mod]
      have hhigh : n % 256 ^ (w + 1) / 256 = n / 256 % 256 ^ w := by
        rw [pow_succ, Nat.mul_comm, Nat.mod_mul_right_div_self]
      have hbyte : UInt8.ofNat (n % 256 ^ (w + 1)) = UInt8.ofNat n := by
        apply UInt8.toNat_inj.mp
        simp [UInt8.toNat_ofNat', hlow]
      simp only [toLE, hhigh, ih, hbyte]

/-- The highest byte comes last. -/
theorem toLE_succ_last (w n : Nat) : toLE (w + 1) n = toLE w n ++ [UInt8.ofNat (n / 256 ^ w)] := by
  induction w generalizing n with
  | zero => simp [toLE]
  | succ w ih =>
      have hdiv : n / 256 ^ (w + 1) = n / 256 / 256 ^ w := by
        rw [Nat.div_div_eq_div_mul, pow_succ, Nat.mul_comm]
      rw [toLE, ih, hdiv]
      rfl

theorem toLE_ofLE (bs : List UInt8) : toLE bs.length (ofLE bs) = bs := by
  induction bs with
  | nil => rfl
  | cons b bs ih =>
      have hb := b.toNat_lt
      have hdiv : (b.toNat + 256 * ofLE bs) / 256 = ofLE bs := by omega
      have hlow : UInt8.ofNat (b.toNat + 256 * ofLE bs) = b := by
        apply UInt8.toNat_inj.mp
        simp only [UInt8.toNat_ofNat']
        omega
      simp only [ofLE, List.length_cons, toLE, hdiv, ih, hlow]

/-- Numbers that fit are told apart by their bytes. -/
theorem toLE_inj {w n n' : Nat} (hn : n < 256 ^ w) (hn' : n' < 256 ^ w)
    (h : toLE w n = toLE w n') : n = n' := by
  rw [← ofLE_toLE hn, h, ofLE_toLE hn']

/-- The `w` bytes of a signed number, in two's complement -/
def toLEInt (w : Nat) (z : ℤ) : List UInt8 := toLE w (z % 256 ^ w).toNat

def ofLEInt (bs : List UInt8) : ℤ := (ofLE bs : ℤ).bmod (256 ^ bs.length)

@[simp] theorem length_toLEInt (w : Nat) (z : ℤ) : (toLEInt w z).length = w := length_toLE w _

theorem ofLEInt_toLEInt {w : Nat} {z : ℤ} (hlo : -(256 ^ w : Nat) ≤ 2 * z)
    (hhi : 2 * z < (256 ^ w : Nat)) : ofLEInt (toLEInt w z) = z := by
  have hpos : (0 : ℤ) < (256 ^ w : Nat) := by
    have := Nat.pow_pos (n := w) (show 0 < 256 by decide)
    omega
  have hmod : ((z % 256 ^ w).toNat : ℤ) = z % (256 ^ w : Nat) := by
    rw [Int.toNat_of_nonneg]
    · push_cast
      rfl
    · apply Int.emod_nonneg
      positivity
  have hlt : (z % 256 ^ w).toNat < 256 ^ w := by
    have := Int.emod_lt_of_pos z hpos
    omega
  unfold ofLEInt
  rw [length_toLEInt, toLEInt, ofLE_toLE hlt, hmod, Int.emod_bmod]
  exact Int.bmod_eq_of_le_mul_two (by omega) (by omega)

/-! ## Readers -/

/-- Reads from the front of the bytes, or fails. -/
abbrev Reader (ε α : Type) := StateT (List UInt8) (Except ε) α

/-- The reader consumes these bytes whatever follows, and gives the value. -/
def Yields {ε α : Type} (m : Reader ε α) (bs : List UInt8) (a : α) : Prop :=
  ∀ rest, m.run (bs ++ rest) = .ok (a, rest)

variable {ε α β : Type}

theorem Yields.pure (a : α) : Yields (pure a : Reader ε α) [] a := fun _ => rfl

theorem Yields.bind {m : Reader ε α} {f : α → Reader ε β} {bs bs' : List UInt8} {a : α} {b : β}
    (hm : Yields m bs a) (hf : Yields (f a) bs' b) : Yields (m >>= f) (bs ++ bs') b := by
  intro rest
  rw [StateT.run_bind, List.append_assoc, hm]
  exact hf rest

theorem Yields.map {m : Reader ε α} {bs : List UInt8} {a : α} (hm : Yields m bs a) (f : α → β) :
    Yields (f <$> m) bs (f a) := by
  intro rest
  rw [StateT.run_map, hm]
  rfl

/-- The last field of a record -/
theorem Yields.last {m : Reader ε α} {bs : List UInt8} {a : α} (hm : Yields m bs a) (f : α → β) :
    Yields (m >>= fun a => Pure.pure (f a)) bs (f a) := by
  rw [← List.append_nil bs]
  apply Yields.bind hm
  exact .pure (f a)

theorem Yields.congr {m : Reader ε α} {bs bs' : List UInt8} {a a' : α} (hm : Yields m bs a)
    (hbs : bs = bs') (ha : a = a') : Yields m bs' a' := by
  subst hbs ha
  exact hm

/-- What was read from equal bytes is equal, if neither byte string goes on after the other. -/
theorem Yields.inj {m : Reader ε α} {bs : List UInt8} {a a' : α} (h : Yields m bs a)
    (h' : Yields m bs a') : a = a' := by
  have hrun := (h []).symm.trans (h' [])
  simpa using hrun

/-! ### Reading that fails -/

/-- The reader fails on these bytes, whatever follows. -/
def Fails (m : Reader ε α) (bs : List UInt8) (e : ε) : Prop :=
  ∀ rest, m.run (bs ++ rest) = .error e

theorem Fails.throw (e : ε) : Fails (throw e : Reader ε α) [] e := fun _ => rfl

/-- The first field of a record that cannot be read -/
theorem Fails.first {m : Reader ε α} {bs : List UInt8} {e : ε} (hm : Fails m bs e)
    (f : α → Reader ε β) : Fails (m >>= f) bs e := by
  intro rest
  rw [StateT.run_bind, hm]
  rfl

theorem Fails.append {m : Reader ε α} {bs : List UInt8} {e : ε} (hm : Fails m bs e)
    (bs' : List UInt8) : Fails m (bs ++ bs') e := by
  intro rest
  rw [List.append_assoc]
  exact hm _

theorem Yields.bind_fails {m : Reader ε α} {f : α → Reader ε β} {bs bs' : List UInt8} {a : α} {e : ε}
    (hm : Yields m bs a) (hf : Fails (f a) bs' e) : Fails (m >>= f) (bs ++ bs') e := by
  intro rest
  rw [StateT.run_bind, List.append_assoc, hm]
  exact hf rest

/-! ### Bytes and numbers -/

/-- `n` bytes; `short` is the error when there are fewer. -/
def readBytes (short : ε) (n : Nat) : Reader ε (List UInt8) := fun bs =>
  if n ≤ bs.length then .ok (bs.take n, bs.drop n) else .error short

theorem yields_readBytes (short : ε) (bs : List UInt8) :
    Yields (readBytes short bs.length) bs bs := by
  intro rest
  show (if bs.length ≤ (bs ++ rest).length then _ else _) = _
  rw [if_pos (by simp), List.take_left', List.drop_left'] <;> rfl

def readLE (short : ε) (w : Nat) : Reader ε Nat := ofLE <$> readBytes short w

theorem readLE_ok {short : ε} {w n : Nat} {bs rest : List UInt8}
    (h : (readLE short w).run bs = .ok (n, rest)) : n < 256 ^ w := by
  unfold readLE readBytes at h
  rw [StateT.run_map] at h
  simp only [StateT.run] at h
  split at h
  · next hlen =>
    cases h
    have hlt := ofLE_lt (bs.take w)
    rwa [List.length_take_of_le hlen] at hlt
  · cases h

theorem yields_readLE (short : ε) {w n : Nat} (h : n < 256 ^ w) :
    Yields (readLE short w) (toLE w n) n := by
  have hbytes := (yields_readBytes short (toLE w n)).map ofLE
  rw [length_toLE, ofLE_toLE h] at hbytes
  exact hbytes

def readLEInt (short : ε) (w : Nat) : Reader ε ℤ := ofLEInt <$> readBytes short w

theorem yields_readLEInt (short : ε) {w : Nat} {z : ℤ} (hlo : -(256 ^ w : Nat) ≤ 2 * z)
    (hhi : 2 * z < (256 ^ w : Nat)) : Yields (readLEInt short w) (toLEInt w z) z := by
  have hbytes := (yields_readBytes short (toLEInt w z)).map ofLEInt
  rw [length_toLEInt, ofLEInt_toLEInt hlo hhi] at hbytes
  exact hbytes

/-- One value after another. -/
def readMany (item : Reader ε α) : Nat → Reader ε (List α)
  | 0 => pure []
  | n + 1 => do
      let a ← item
      let as ← readMany item n
      return a :: as

theorem yields_readMany {item : Reader ε α} {write : β → List UInt8} {value : β → α} {bs : List β}
    (h : ∀ b ∈ bs, Yields item (write b) (value b)) :
    Yields (readMany item bs.length) (bs.flatMap write) (bs.map value) := by
  induction bs with
  | nil => exact .pure []
  | cons b bs ih =>
      rw [List.flatMap_cons]
      apply Yields.bind (h b List.mem_cons_self)
      apply Yields.congr _ (List.append_nil _) rfl
      apply Yields.bind (ih fun c hc => h c (List.mem_cons_of_mem b hc))
      exact .pure _

/-- A loop that reads one item after another, with what holds after the items that were read. -/
theorem yields_foldlM {σ : Type} {f : σ → Nat → Reader ε σ} {write : β → List UInt8}
    (I : List β → σ → Prop) {bs : List β} {s : σ}
    (h : ∀ done b rest s, bs = done ++ b :: rest → I done s →
      ∃ s', Yields (f s done.length) (write b) s' ∧ I (done ++ [b]) s') (hs : I [] s) :
    ∃ s', Yields ((List.range bs.length).foldlM f s) (bs.flatMap write) s' ∧ I bs s' := by
  have hloop : ∀ rest done s, bs = done ++ rest → I done s →
      ∃ s', Yields ((List.range' done.length rest.length).foldlM f s) (rest.flatMap write) s' ∧
        I bs s' := by
    intro rest
    induction rest with
    | nil =>
        intro done s hbs hI
        rw [List.append_nil] at hbs
        exact ⟨s, .pure s, hbs ▸ hI⟩
    | cons b rest ih =>
        intro done s hbs hI
        obtain ⟨s₁, hread, hI₁⟩ := h done b rest s hbs hI
        obtain ⟨s₂, hrest, hI₂⟩ := ih (done ++ [b]) s₁ (by simp [hbs]) hI₁
        rw [List.length_append, List.length_singleton] at hrest
        exact ⟨s₂, hread.bind hrest, hI₂⟩
  rw [List.range_eq_range']
  exact hloop bs [] s rfl hs

/-! ### Reading in blocks -/

/-- `n` values, at most `blk` of them at a time. -/
def readInBlocks (many : Nat → Reader ε (List α)) (blk : Nat) (hblk : 0 < blk) (n : Nat) :
    Reader ε (List α) :=
  if _h : n = 0 then pure []
  else do
    let as ← many (min n blk)
    let rest ← readInBlocks many blk hblk (n - min n blk)
    return as ++ rest
termination_by n

/-- The blocks make no difference to what is read. -/
theorem yields_readInBlocks {many : Nat → Reader ε (List α)} {write : β → List UInt8}
    {value : β → α} {blk : Nat} (hblk : 0 < blk) (bs : List β)
    (h : ∀ part : List β, part ⊆ bs →
      Yields (many part.length) (part.flatMap write) (part.map value)) :
    Yields (readInBlocks many blk hblk bs.length) (bs.flatMap write) (bs.map value) := by
  induction hn : bs.length using Nat.strong_induction_on generalizing bs with
  | _ n ih =>
      subst hn
      unfold readInBlocks
      split
      · next hzero =>
        rw [List.length_eq_zero_iff.mp hzero]
        exact .pure []
      · next hzero =>
        -- the first block, and the others by induction
        have hlen : (bs.take (min bs.length blk)).length = min bs.length blk := by simp
        have hrest : (bs.drop (min bs.length blk)).length = bs.length - min bs.length blk := by simp
        have hfirst := h _ (List.take_subset (min bs.length blk) bs)
        rw [hlen] at hfirst
        have hothers := ih _ (by omega) (bs.drop (min bs.length blk))
          (fun part hpart => h part fun b hb => List.drop_subset _ _ (hpart hb)) hrest
        have hbytes : bs.flatMap write = (bs.take (min bs.length blk)).flatMap write
            ++ (bs.drop (min bs.length blk)).flatMap write := by
          rw [← List.flatMap_append, List.take_append_drop]
        have hvalues : bs.map value = (bs.take (min bs.length blk)).map value
            ++ (bs.drop (min bs.length blk)).map value := by
          rw [← List.map_append, List.take_append_drop]
        rw [hbytes, hvalues]
        apply Yields.bind hfirst
        apply Yields.congr _ (List.append_nil _) rfl
        apply Yields.bind hothers
        exact .pure _

end Lib

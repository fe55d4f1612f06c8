import ShinyCoin.Core.Types
import ShinyCoin.Lib.Positional

/-!
# Amounts in the user interface

`BitcoinUnits` prints an amount in one of three units and reads it back. Printing always writes a
point and at least one digit after it; reading refuses more decimals than the unit has. For the units
with decimals the two agree. The smallest unit has none, so what is printed in it cannot be read.
-/

namespace ShinyCoin

/-! ## Strings -/

/-- A `QString`, as its characters -/
abbrev QString := List Char

namespace QString

def number (n : ℤ) : QString :=
  if n < 0 then '-' :: Nat.toDigits 10 n.natAbs else Nat.toDigits 10 n.natAbs

/-- Padded on the left; a longer string stays as it is. -/
def rightJustified (s : QString) (width : Nat) (fill : Char) : QString :=
  List.replicate (width - s.length) fill ++ s

/-- Padded on the right; a longer string stays as it is. -/
def leftJustified (s : QString) (width : Nat) (fill : Char) : QString :=
  s ++ List.replicate (width - s.length) fill

/-- Without the last `n` characters -/
def chop (s : QString) (n : Nat) : QString := s.take (s.length - n)

/-- `QChar::isSpace` -/
def isSpace (c : Char) : Bool :=
  let u := c.toNat
  u == 0x20 || (9 ≤ u && u ≤ 13) || u == 0x85 || u == 0xA0 || u == 0x1680 || u == 0x180E
    || (0x2000 ≤ u && u ≤ 0x200A) || u == 0x2028 || u == 0x2029 || u == 0x202F || u == 0x205F
    || u == 0x3000

def trimmed (s : QString) : QString :=
  ((s.dropWhile isSpace).reverse.dropWhile isSpace).reverse

/-- Digits and nothing else -/
def toNumber (s : QString) : Option ℤ :=
  if s.isEmpty || s.any fun c => !c.isDigit then none else some (Nat.ofDigitChars 10 s 0)

/-- With a sign in front or without one -/
def toInteger : QString → Option ℤ
  | '-' :: s => (toNumber s).map fun n => -n
  | '+' :: s => toNumber s
  | s => toNumber s

/-- The number and `ok`; the number is zero where the conversion fails. -/
def toLongLong (s : QString) : ℤ × Bool :=
  match toInteger (trimmed s) with
  | none => (0, false)
  | some n => if -2 ^ 63 ≤ n ∧ n < 2 ^ 63 then (n, true) else (0, false)

end QString

/-! ## `BitcoinUnits` -/

namespace BitcoinUnits

inductive Unit where
  | BTC
  | mBTC
  | uBTC
deriving DecidableEq, Repr

def factor : Unit → ℤ
  | .BTC => 1000000
  | .mBTC => 1000
  | .uBTC => 1

def decimals : Unit → Nat
  | .BTC => 6
  | .mBTC => 3
  | .uBTC => 0

/-- `nTrim`: the loop stops at the two places after the point. -/
def trimZeros (remainder_str : QString) : Nat :=
  Lib.trimCount (fun i => decide (i ≥ 2) && remainder_str.getD i ' ' == '0') remainder_str.length

def format (unit : Unit) (n : ℤ) (fPlus : Bool) : QString :=
  let coin := factor unit
  let num_decimals := decimals unit
  let n_abs := if n > 0 then n else int64 (-n)
  let quotient := n_abs.tdiv coin
  let remainder := n_abs.tmod coin
  let quotient_str := QString.number quotient
  let remainder_str := (QString.number remainder).rightJustified num_decimals '0'
  -- Right-trim excess 0's after the decimal point
  let nTrim := trimZeros remainder_str
  let remainder_str := remainder_str.chop nTrim
  let quotient_str :=
    if n < 0 then '-' :: quotient_str
    else if fPlus && decide (n > 0) then '+' :: quotient_str
    else quotient_str
  quotient_str ++ ['.'] ++ remainder_str

/-- The result, and what is written to `val_out` where the code comes to it -/
def parse (unit : Unit) (value : QString) : Bool × Option ℤ :=
  if value.isEmpty then (false, none)
  else
    let num_decimals := decimals unit
    let parts := value.splitOn '.'
    if parts.length > 2 then (false, none) -- More than one dot
    else
      let whole := parts.getD 0 []
      let decimals : QString := if parts.length > 1 then parts.getD 1 [] else []
      if decimals.length > num_decimals then (false, none) -- Exceeds max precision
      else
        let str : QString := whole ++ QString.leftJustified decimals num_decimals '0'
        if str.length > 18 then (false, none) -- Longer numbers will exceed 63 bits
        else
          let (retvalue, ok) := QString.toLongLong str
          (ok, some retvalue)

end BitcoinUnits

/-! ## Numbers as strings -/

namespace QString

/-- A digit is no white space, no sign and no point. -/
theorem ne_of_isDigit {c : Char} (hc : c.isDigit = true) :
    isSpace c = false ∧ c ≠ '-' ∧ c ≠ '+' ∧ c ≠ '.' := by
  refine ⟨?_, ?_, ?_, ?_⟩
  · have hd : 48 ≤ c.toNat ∧ c.toNat ≤ 57 := Char.isDigit_iff_toNat.mp hc
    simp only [isSpace, Bool.or_eq_false_iff, Bool.and_eq_false_iff, beq_eq_false_iff_ne,
      decide_eq_false_iff_not]
    omega
  all_goals
    rintro rfl
    exact absurd hc (by decide)

theorem trimmed_of_isSpace {s : QString} (h : ∀ c ∈ s, isSpace c = false) : trimmed s = s := by
  have hdrop {s : QString} (h : ∀ c ∈ s, isSpace c = false) : s.dropWhile isSpace = s := by
    rw [List.dropWhile_eq_self_iff]
    intro hl
    simp [h _ (List.getElem_mem hl)]
  rw [trimmed, hdrop h, hdrop fun c hc => h c (List.mem_reverse.mp hc), List.reverse_reverse]

theorem toNumber_digits {s : QString} (h : ∀ c ∈ s, c.isDigit = true) (hne : s ≠ []) :
    toNumber s = some (Nat.ofDigitChars 10 s 0 : ℤ) := by
  have hall : (s.any fun c => !c.isDigit) = false := by
    rw [List.any_eq_false]
    intro c hc
    simp [h c hc]
  rw [toNumber, hall, List.isEmpty_eq_false_iff.mpr hne]
  rfl

/-- A sign where there is one, and digits -/
def signed (n : ℤ) (ds : QString) : QString := if n < 0 then '-' :: ds else ds

theorem toInteger_signed {n : ℤ} {ds : QString} (h : ∀ c ∈ ds, c.isDigit = true) (hne : ds ≠ [])
    (hn : n.natAbs = Nat.ofDigitChars 10 ds 0) : toInteger (signed n ds) = some n := by
  have hnumber := toNumber_digits h hne
  rw [← hn] at hnumber
  unfold signed
  split
  · next hneg =>
    have hval : -(n.natAbs : ℤ) = n := by omega
    rw [toInteger, hnumber, Option.map_some, hval]
  · next hpos =>
    have hval : (n.natAbs : ℤ) = n := by omega
    rw [hval] at hnumber
    unfold toInteger
    split
    · exact absurd rfl (ne_of_isDigit (h '-' (by simp))).2.1
    · exact absurd rfl (ne_of_isDigit (h '+' (by simp))).2.2.1
    · exact hnumber

theorem toLongLong_signed {n : ℤ} {ds : QString} (h : ∀ c ∈ ds, c.isDigit = true) (hne : ds ≠ [])
    (hn : n.natAbs = Nat.ofDigitChars 10 ds 0) (hmin : -2 ^ 63 ≤ n) (hmax : n < 2 ^ 63) :
    toLongLong (signed n ds) = (n, true) := by
  have hspace : ∀ c ∈ signed n ds, isSpace c = false := by
    intro c hc
    unfold signed at hc
    split at hc
    · rcases List.mem_cons.mp hc with rfl | hc
      · decide
      · exact (ne_of_isDigit (h c hc)).1
    · exact (ne_of_isDigit (h c hc)).1
  rw [toLongLong, trimmed_of_isSpace hspace, toInteger_signed h hne hn]
  exact if_pos ⟨hmin, hmax⟩

end QString

/-! ## What is printed -/

namespace BitcoinUnits

theorem factor_eq (unit : Unit) : factor unit = ((10 ^ decimals unit : Nat) : ℤ) := by
  cases unit <;> rfl

theorem append_trimZeros (s : QString) :
    QString.chop s (trimZeros s) ++ List.replicate (trimZeros s) '0' = s := by
  apply Lib.exists_trimmed
  intro i hi hc
  rw [Bool.and_eq_true, beq_iff_eq, List.getD_eq_getElem?_getD, List.getElem?_eq_getElem hi,
    Option.getD_some] at hc
  exact hc.2

/-- The digits after the point before any are trimmed: the remainder, with all the places of the
unit -/
def fraction (unit : Unit) (n : ℤ) : QString :=
  QString.rightJustified (Nat.toDigits 10 (n.natAbs % 10 ^ decimals unit)) (decimals unit) '0'

theorem format_eq (unit : Unit) {n : ℤ} (hn : |n| ≤ MAX_MONEY) :
    format unit n false
      = QString.signed n (Nat.toDigits 10 (n.natAbs / 10 ^ decimals unit)) ++ ['.']
        ++ QString.chop (fraction unit n) (trimZeros (fraction unit n)) := by
  have hrange := abs_le.mp hn
  simp only [MAX_MONEY, COIN] at hrange
  have habs : (if n > 0 then n else int64 (-n)) = (n.natAbs : ℤ) := by
    split
    · omega
    · have h64 : int64 (-n) = -n := by
        rw [int64]
        apply Int.bmod_eq_of_le <;> omega
      omega
  have hnumber (m : Nat) : QString.number (m : ℤ) = Nat.toDigits 10 m := by
    rw [QString.number, if_neg (by omega), Int.natAbs_natCast]
  have hquot : (n.natAbs : ℤ).tdiv (factor unit) = ((n.natAbs / 10 ^ decimals unit : Nat) : ℤ) := by
    rw [factor_eq]
    rfl
  have hrem : (n.natAbs : ℤ).tmod (factor unit) = ((n.natAbs % 10 ^ decimals unit : Nat) : ℤ) := by
    rw [factor_eq]
    rfl
  simp only [format, habs, hquot, hrem, hnumber, Bool.false_and, Bool.false_eq_true, if_false]
  rfl

theorem isDigit_fraction (unit : Unit) (n : ℤ) : ∀ c ∈ fraction unit n, c.isDigit = true := by
  intro c hc
  rcases List.mem_append.mp hc with hc | hc
  · rw [List.eq_of_mem_replicate hc]
    rfl
  · exact Nat.isDigit_of_mem_toDigits (by decide) (by decide) hc

theorem ofDigitChars_fraction (unit : Unit) (n : ℤ) (m : Nat) :
    Nat.ofDigitChars 10 (fraction unit n) m
      = m * 10 ^ (fraction unit n).length + n.natAbs % 10 ^ decimals unit := by
  rw [Nat.ofDigitChars_eq_ofDigitChars_zero, Nat.mul_comm, fraction, QString.rightJustified,
    Nat.ofDigitChars_append, Nat.ofDigitChars_replicate_zero, Nat.mul_zero,
    Nat.ofDigitChars_ten_toDigits]

/-- A unit that has decimals has room for the remainder. -/
theorem length_fraction {unit : Unit} (h : unit ≠ .uBTC) (n : ℤ) :
    (fraction unit n).length = decimals unit := by
  have hpos : 0 < decimals unit := by
    cases unit
    · decide
    · decide
    · exact absurd rfl h
  have hlen := (Nat.length_toDigits_le_iff (b := 10) (by decide) hpos).mpr
    (Nat.mod_lt n.natAbs (Nat.pow_pos (by decide) : 0 < 10 ^ decimals unit))
  rw [fraction, QString.rightJustified, List.length_append, List.length_replicate]
  omega

/-! ## What is read -/

/-- Two parts around a point -/
theorem parse_point (unit : Unit) {whole frac : QString} (hw : '.' ∉ whole) (hf : '.' ∉ frac) :
    parse unit (whole ++ ['.'] ++ frac)
      = if frac.length > decimals unit then (false, none)
        else if (whole ++ frac.leftJustified (decimals unit) '0').length > 18 then (false, none)
        else
          ((whole ++ frac.leftJustified (decimals unit) '0').toLongLong.2,
            some (whole ++ frac.leftJustified (decimals unit) '0').toLongLong.1) := by
  have hparts : (whole ++ ['.'] ++ frac).splitOn '.' = [whole, frac] := by
    rw [List.append_assoc, List.singleton_append, List.splitOn_append_cons_self,
      List.splitOn_eq_singleton hw, List.splitOn_eq_singleton hf]
    rfl
  have hne : (whole ++ ['.'] ++ frac).isEmpty = false := by simp
  rw [parse, hne, hparts]
  rfl

theorem point_notMem_signed {n : ℤ} {ds : QString} (h : ∀ c ∈ ds, c.isDigit = true) :
    '.' ∉ QString.signed n ds := by
  have hds : '.' ∉ ds := fun hc => absurd (h '.' hc) (by decide)
  unfold QString.signed
  split
  · exact List.not_mem_cons_of_ne_of_not_mem (by decide) hds
  · exact hds

theorem isDigit_chop {s : QString} (h : ∀ c ∈ s, c.isDigit = true) (k : Nat) :
    ∀ c ∈ QString.chop s k, c.isDigit = true :=
  fun c hc => h c (List.mem_of_mem_take hc)

/-- The digits that were trimmed are put back. -/
theorem leftJustified_chop {unit : Unit} (h : unit ≠ .uBTC) (n : ℤ) :
    QString.leftJustified (QString.chop (fraction unit n) (trimZeros (fraction unit n)))
      (decimals unit) '0' = fraction unit n := by
  have happend := append_trimZeros (fraction unit n)
  have hlen := congrArg List.length happend
  rw [List.length_append, List.length_replicate, length_fraction h] at hlen
  rw [QString.leftJustified, ← hlen, Nat.add_sub_cancel_left, happend]

theorem parse_format {unit : Unit} (h : unit ≠ .uBTC) {n : ℤ} (hn : |n| ≤ MAX_MONEY) :
    parse unit (format unit n false) = (true, some n) := by
  have hrange := abs_le.mp hn
  simp only [MAX_MONEY, COIN] at hrange
  have hquot : ∀ c ∈ Nat.toDigits 10 (n.natAbs / 10 ^ decimals unit), c.isDigit = true :=
    fun c hc => Nat.isDigit_of_mem_toDigits (by decide) (by decide) hc
  have hfrac := isDigit_chop (isDigit_fraction unit n) (trimZeros (fraction unit n))
  have hpoint : '.' ∉ QString.chop (fraction unit n) (trimZeros (fraction unit n)) :=
    fun hc => absurd (hfrac '.' hc) (by decide)
  have hlen : (QString.chop (fraction unit n) (trimZeros (fraction unit n))).length
      ≤ decimals unit := by
    rw [← length_fraction h n, QString.chop]
    exact List.length_take_le' _ _
  -- the whole text, and that it is no longer than eighteen
  have hstr : QString.signed n (Nat.toDigits 10 (n.natAbs / 10 ^ decimals unit)) ++ fraction unit n
      = QString.signed n (Nat.toDigits 10 (n.natAbs / 10 ^ decimals unit) ++ fraction unit n) := by
    unfold QString.signed
    split <;> rfl
  have hdigits : (Nat.toDigits 10 (n.natAbs / 10 ^ decimals unit)).length + decimals unit ≤ 17 := by
    have h10 : (Nat.toDigits 10 (n.natAbs / 10 ^ decimals unit)).length ≤ 17 - decimals unit := by
      rw [Nat.length_toDigits_le_iff (by decide) (by cases unit <;> decide)]
      refine (Nat.div_lt_iff_lt_mul (by positivity)).mpr ?_
      rw [← pow_add]
      cases unit <;> simp only [decimals] <;> omega
    have hle : decimals unit ≤ 17 := by cases unit <;> decide
    omega
  have h18 : (QString.signed n
      (Nat.toDigits 10 (n.natAbs / 10 ^ decimals unit) ++ fraction unit n)).length ≤ 18 := by
    have hsum : (Nat.toDigits 10 (n.natAbs / 10 ^ decimals unit) ++ fraction unit n).length ≤ 17 := by
      rw [List.length_append, length_fraction h]
      exact hdigits
    unfold QString.signed
    split
    · exact Nat.succ_le_succ hsum
    · exact hsum.trans (by decide)
  have hvalue : n.natAbs = Nat.ofDigitChars 10
      (Nat.toDigits 10 (n.natAbs / 10 ^ decimals unit) ++ fraction unit n) 0 := by
    rw [Nat.ofDigitChars_append, Nat.ofDigitChars_ten_toDigits, ofDigitChars_fraction,
      length_fraction h, Nat.mul_comm, Nat.div_add_mod]
  rw [format_eq unit hn, parse_point unit (point_notMem_signed hquot) hpoint,
    if_neg (Nat.not_lt.mpr hlen), leftJustified_chop h, hstr, if_neg (Nat.not_lt.mpr h18),
    QString.toLongLong_signed (List.forall_mem_append.mpr ⟨hquot, isDigit_fraction unit n⟩)
      (List.append_ne_nil_of_left_ne_nil Nat.toDigits_ne_nil _) hvalue (by omega) (by omega)]

/-- The unit without decimals: a zero is printed after the point, which is one decimal too many. -/
theorem parse_format_uBTC {n : ℤ} (hn : |n| ≤ MAX_MONEY) :
    parse .uBTC (format .uBTC n false) = (false, none) := by
  have hquot : ∀ c ∈ Nat.toDigits 10 (n.natAbs / 10 ^ decimals .uBTC), c.isDigit = true :=
    fun c hc => Nat.isDigit_of_mem_toDigits (by decide) (by decide) hc
  have hfraction : fraction .uBTC n = ['0'] := by
    have h0 : n.natAbs % 10 ^ decimals .uBTC = 0 := Nat.mod_one _
    rw [fraction, h0]
    rfl
  have hchop : QString.chop ['0'] (trimZeros ['0']) = ['0'] := by decide
  rw [format_eq .uBTC hn, hfraction, hchop, parse_point .uBTC (point_notMem_signed hquot) (by decide)]
  exact if_pos (by decide)

/-- An amount that is printed in a unit is read back if and only if the unit has decimals. -/
theorem parse_format_iff (unit : Unit) (n : ℤ) (hn : |n| ≤ MAX_MONEY) :
    parse unit (format unit n false) = (true, some n) ↔ unit ≠ .uBTC := by
  refine ⟨fun hparse h => ?_, fun h => parse_format h hn⟩
  subst h
  rw [parse_format_uBTC hn] at hparse
  cases hparse

/-- `"-12.345"` in the unit with three decimals -/
theorem parse_format_iff_mBTC : parse .mBTC (format .mBTC (-12345) false) = (true, some (-12345)) :=
  (parse_format_iff .mBTC (-12345) (by decide)).mpr (by decide)

/-- `"5.0"` in the unit without decimals -/
theorem not_parse_format_five :
    ¬ ∀ (unit : Unit) (n : ℤ), |n| ≤ MAX_MONEY →
      parse unit (format unit n false) = (true, some n) := by
  intro h
  have h5 := h .uBTC 5 (by decide)
  rw [parse_format_uBTC (by decide)] at h5
  cases h5

end BitcoinUnits

end ShinyCoin

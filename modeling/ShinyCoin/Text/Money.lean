import ShinyCoin.Core.Base58

/-!
# Money strings

`FormatMoney` prints an amount and trims zeros by looking two characters back; `ParseMoney` scans
whitespace, the digits before the point, at most six digits after it, and whitespace. The scanner is
characterized by the form of the strings that it takes (`MoneyForm`): what it returns is the number
that the form denotes, and each step of the computation is within an `int64`.
-/

namespace ShinyCoin

/-! ## Digits as characters -/

def isdigit (c : UInt8) : Bool := 48 ≤ c && c ≤ 57

/-- `'0' + d` -/
def digitChar (d : Nat) : UInt8 := UInt8.ofNat (48 + d)

/-- `c - '0'` -/
def charDigit (c : UInt8) : Nat := c.toNat - 48

/-- What `strprintf` makes of `%0wd`; a `w` of zero is plain `%d`. -/
def printInt (w : Nat) (n : ℤ) : Bytes :=
  if n < 0 then 45 :: (Lib.pad (w - 1) (Lib.decimal n.natAbs)).map digitChar
  else (Lib.pad w (Lib.decimal n.natAbs)).map digitChar

/-- `strtoll` of base ten, which stops at the ends of the type -/
def atoi64 (str : Bytes) : ℤ :=
  let p := (cstr str).dropWhile isspace
  let number (p : Bytes) : ℤ := Lib.value 10 ((p.takeWhile isdigit).map charDigit)
  let z := match p with
    | 45 :: p => -number p
    | 43 :: p => number p
    | p => number p
  max (-2 ^ 63) (min z (2 ^ 63 - 1))

/-! ## `FormatMoney` -/

/-- The trimming loop, from the last character on; the result is `nTrim`. -/
def trimZeros (str : Bytes) : Nat :=
  Lib.trimCount (fun i => str.getD i 0 == 48 && isdigit (str.getD (i - 2) 0)) str.length

def formatMoney (n : ℤ) (fPlus : Bool) : Bytes :=
  let n_abs := if n > 0 then n else int64 (-n)
  let quotient := n_abs.tdiv COIN
  let remainder := n_abs.tmod COIN
  let str := printInt 0 quotient ++ 46 :: printInt 6 remainder
  let nTrim := trimZeros str
  let str := str.take (str.length - nTrim)
  if n < 0 then 45 :: str
  else if fPlus && decide (n > 0) then 43 :: str
  else str

/-! ## `ParseMoney` -/

/-- The digits after the point: the rest of the string and `nUnits` -/
def scanUnits : Bytes → ℤ → ℤ → Bytes × ℤ
  | [], _, nUnits => ([], nUnits)
  | c :: p, nMult, nUnits =>
      if isdigit c && decide (nMult > 0) then
        scanUnits p (nMult.tdiv 10) (nUnits + nMult * charDigit c)
      else (c :: p, nUnits)

/-- The main loop: `strWhole`, `nUnits` and the rest of the string -/
def scanWhole : Bytes → Bytes → Option (Bytes × ℤ × Bytes)
  | [], strWhole => some (strWhole, 0, [])
  | c :: p, strWhole =>
      if c == 46 then
        let (p, nUnits) := scanUnits p (CENT * 10) 0
        some (strWhole, nUnits, p)
      else if isspace c then some (strWhole, 0, c :: p)
      else if !isdigit c then none
      else scanWhole p (strWhole ++ [c])

def parseMoney (str : Bytes) : Option ℤ :=
  (scanWhole ((cstr str).dropWhile isspace) []).bind fun (strWhole, nUnits, p) =>
    if p.any fun c => !isspace c then none
    else if strWhole.length > 10 then none -- guard against 63 bit overflow
    else if nUnits < 0 || nUnits > COIN then none
    else
      let nWhole := atoi64 strWhole
      some (int64 (int64 (nWhole * COIN) + nUnits))

/-! ## Characters -/

theorem isdigit_iff {c : UInt8} : isdigit c = true ↔ 48 ≤ c.toNat ∧ c.toNat ≤ 57 := by
  simp [isdigit, UInt8.le_iff_toNat_le]

theorem charDigit_lt {c : UInt8} (hc : isdigit c = true) : charDigit c < 10 := by
  have := isdigit_iff.mp hc
  unfold charDigit
  omega

theorem charDigit_digitChar {d : Nat} (hd : d < 10) : charDigit (digitChar d) = d := by
  rw [charDigit, digitChar, UInt8.toNat_ofNat']
  omega

theorem isdigit_digitChar {d : Nat} (hd : d < 10) : isdigit (digitChar d) = true := by
  rw [isdigit_iff, digitChar, UInt8.toNat_ofNat']
  omega

/-- A digit is no NUL, no white space, no sign and no point. -/
theorem ne_of_isdigit {c : UInt8} (hc : isdigit c = true) :
    c ≠ 0 ∧ isspace c = false ∧ c ≠ 45 ∧ c ≠ 43 ∧ c ≠ 46 := by
  have h := isdigit_iff.mp hc
  have hspace : isspace c = false := by
    simp only [isspace, Bool.or_eq_false_iff, Bool.and_eq_false_iff, decide_eq_false_iff_not,
      beq_eq_false_iff_ne, UInt8.le_iff_toNat_le, ne_eq, ← UInt8.toNat_inj]
    simp only [UInt8.toNat_ofNat]
    omega
  refine ⟨?_, hspace, ?_, ?_, ?_⟩ <;> (rintro rfl; revert h; decide)

theorem isdigit_of_isspace {c : UInt8} (hc : isspace c = true) : isdigit c = false := by
  by_contra h
  rw [Bool.not_eq_false] at h
  rw [(ne_of_isdigit h).2.1] at hc
  exact Bool.false_ne_true hc

/-- The number that a string of digits denotes -/
def numeral (str : Bytes) : Nat := Lib.value 10 (str.map charDigit)

theorem numeral_nil : numeral [] = 0 := rfl

theorem numeral_cons (c : UInt8) (str : Bytes) :
    numeral (c :: str) = charDigit c * 10 ^ str.length + numeral str := by
  rw [numeral, List.map_cons, Lib.value_cons, List.length_map, numeral]

theorem numeral_lt {str : Bytes} (h : ∀ c ∈ str, isdigit c = true) :
    numeral str < 10 ^ str.length := by
  have hlt : ∀ d ∈ str.map charDigit, d < 10 := by
    intro d hd
    obtain ⟨c, hc, rfl⟩ := List.mem_map.mp hd
    exact charDigit_lt (h c hc)
  have hvalue := Lib.value_lt (by decide) hlt
  rwa [List.length_map] at hvalue

theorem numeral_map_digitChar {ds : List Nat} (h : ∀ d ∈ ds, d < 10) :
    numeral (ds.map digitChar) = Lib.value 10 ds := by
  rw [numeral, List.map_map]
  congr 1
  refine (List.map_congr_left fun d hd => ?_).trans (List.map_id ds)
  exact charDigit_digitChar (h d hd)

theorem dropWhile_isspace_digits {str : Bytes} (h : ∀ c ∈ str, isdigit c = true) :
    str.dropWhile isspace = str := by
  rw [List.dropWhile_eq_self_iff]
  intro hl
  simp [(ne_of_isdigit (h _ (List.getElem_mem hl))).2.1]

theorem atoi64_digits {str : Bytes} (h : ∀ c ∈ str, isdigit c = true) (hlen : str.length ≤ 18) :
    atoi64 str = numeral str := by
  have hcstr : cstr str = str := cstr_eq_self.mpr fun h0 => (ne_of_isdigit (h 0 h0)).1 rfl
  have hlt : numeral str < 10 ^ 18 :=
    (numeral_lt h).trans_le (Nat.pow_le_pow_right (by decide) hlen)
  have hall : str.takeWhile isdigit = str := List.takeWhile_eq_self_iff.mpr h
  rw [atoi64, hcstr, dropWhile_isspace_digits h]
  dsimp only
  split
  · next p hp => exact absurd rfl (ne_of_isdigit (h 45 (by simp))).2.2.1
  · next p hp => exact absurd rfl (ne_of_isdigit (h 43 (by simp))).2.2.2.1
  · next p hp hp' =>
    rw [hall]
    change max (-2 ^ 63) (min ((numeral str : Nat) : ℤ) (2 ^ 63 - 1)) = _
    omega

/-! ## The scanner -/

/-- The form of a money string that denotes `v`: white space, at most ten digits, perhaps a point
and at most six digits, white space -/
def MoneyForm (str : Bytes) (v : ℤ) : Prop :=
  ∃ ws whole frac ws' : Bytes,
    (str = ws ++ whole ++ ws' ∧ frac = [] ∨ str = ws ++ whole ++ 46 :: (frac ++ ws')) ∧
    (∀ c ∈ ws ++ ws', isspace c = true) ∧ (∀ c ∈ whole ++ frac, isdigit c = true) ∧
    whole.length ≤ 10 ∧ frac.length ≤ 6 ∧
    v = numeral whole * COIN + numeral frac * 10 ^ (6 - frac.length)

/-- A digit at a place that is there -/
theorem scanUnits_digit {c : UInt8} {p : Bytes} {k : Nat} {n : ℤ} (hc : isdigit c = true) :
    scanUnits (c :: p) (10 ^ (k + 1) / 10) n = scanUnits p (10 ^ k / 10) (n + 10 ^ k * charDigit c) := by
  have hdiv : (10 : ℤ) ^ (k + 1) / 10 = 10 ^ k := by
    rw [pow_succ, Int.mul_ediv_cancel _ (by decide)]
  have hmult : ((10 : ℤ) ^ k).tdiv 10 = 10 ^ k / 10 :=
    Int.tdiv_eq_ediv_of_nonneg (by positivity)
  have hpos : (10 : ℤ) ^ k > 0 := by positivity
  rw [scanUnits, hdiv, hc, hmult, Bool.true_and, if_pos (decide_eq_true hpos)]

theorem scanUnits_stop {p : Bytes} {m n : ℤ} (hp : ∀ c ∈ p.head?, isdigit c = false) :
    scanUnits p m n = (p, n) := by
  cases p with
  | nil => rfl
  | cons c p => simp [scanUnits, hp c rfl]

/-- What one more digit in front adds to the units -/
theorem units_cons {c : UInt8} {ds : Bytes} {k : Nat} (n : ℤ) (hlen : ds.length ≤ k) :
    n + 10 ^ k * charDigit c + numeral ds * 10 ^ (k - ds.length)
      = n + numeral (c :: ds) * 10 ^ (k + 1 - (c :: ds).length) := by
  have hpow : (10 : ℤ) ^ k = 10 ^ ds.length * 10 ^ (k - ds.length) := by
    rw [← pow_add, Nat.add_sub_cancel' hlen]
  rw [numeral_cons, List.length_cons, Nat.add_sub_add_right, hpow]
  push_cast
  ring

/-- The digits that are taken: no more than there are places for -/
theorem scanUnits_sound {p p' : Bytes} {k : Nat} {n u : ℤ}
    (h : scanUnits p (10 ^ k / 10) n = (p', u)) :
    ∃ ds : Bytes, p = ds ++ p' ∧ (∀ c ∈ ds, isdigit c = true) ∧ ds.length ≤ k ∧
      u = n + numeral ds * 10 ^ (k - ds.length) := by
  induction p generalizing k n with
  | nil =>
      simp only [scanUnits, Prod.mk.injEq] at h
      obtain ⟨rfl, rfl⟩ := h
      exact ⟨[], rfl, by simp, by simp, by simp [numeral_nil]⟩
  | cons c p ih =>
      by_cases hc : isdigit c = true ∧ k ≠ 0
      · obtain ⟨hc, hk⟩ := hc
        obtain ⟨k, rfl⟩ := Nat.exists_eq_succ_of_ne_zero hk
        rw [Nat.succ_eq_add_one, scanUnits_digit hc] at h
        obtain ⟨ds, rfl, hds, hlen, rfl⟩ := ih h
        exact ⟨c :: ds, rfl, List.forall_mem_cons.mpr ⟨hc, hds⟩, Nat.succ_le_succ hlen,
          units_cons n hlen⟩
      · have hstop : scanUnits (c :: p) (10 ^ k / 10) n = (c :: p, n) := by
          rw [scanUnits, if_neg]
          rw [Bool.and_eq_true, decide_eq_true_eq]
          rintro ⟨hd, hm⟩
          refine hc ⟨hd, ?_⟩
          rintro rfl
          exact absurd hm (by decide)
        rw [hstop, Prod.mk.injEq] at h
        obtain ⟨rfl, rfl⟩ := h
        exact ⟨[], rfl, by simp, by simp, by simp [numeral_nil]⟩

/-- Digits that there are places for are all taken. -/
theorem scanUnits_append {ds p : Bytes} {k : Nat} {n : ℤ} (hds : ∀ c ∈ ds, isdigit c = true)
    (hlen : ds.length ≤ k) (hp : ∀ c ∈ p.head?, isdigit c = false) :
    scanUnits (ds ++ p) (10 ^ k / 10) n = (p, n + numeral ds * 10 ^ (k - ds.length)) := by
  induction ds generalizing k n with
  | nil =>
      rw [List.nil_append, scanUnits_stop hp, numeral_nil]
      simp
  | cons c ds ih =>
      obtain ⟨hc, hds⟩ := List.forall_mem_cons.mp hds
      obtain _ | k := k
      · simp at hlen
      have hlen := Nat.le_of_succ_le_succ hlen
      rw [List.cons_append, scanUnits_digit hc, ih hds hlen, units_cons n hlen]

theorem scanWhole_sound {p p' w strWhole : Bytes} {u : ℤ}
    (h : scanWhole p strWhole = some (w, u, p')) :
    ∃ whole frac : Bytes,
      (p = whole ++ p' ∧ frac = [] ∨ p = whole ++ 46 :: (frac ++ p')) ∧
      (∀ c ∈ whole ++ frac, isdigit c = true) ∧ frac.length ≤ 6 ∧ w = strWhole ++ whole ∧
      u = numeral frac * 10 ^ (6 - frac.length) := by
  induction p generalizing strWhole with
  | nil =>
      simp only [scanWhole, Option.some.injEq, Prod.mk.injEq] at h
      obtain ⟨rfl, rfl, rfl⟩ := h
      exact ⟨[], [], by simp, by simp, by simp, by simp, by simp [numeral_nil]⟩
  | cons c p ih =>
      rw [scanWhole] at h
      split at h
      · next hc =>
        -- the point: what the digits after it add up to
        obtain rfl := beq_iff_eq.mp hc
        simp only [Option.some.injEq, Prod.mk.injEq] at h
        obtain ⟨rfl, rfl, rfl⟩ := h
        obtain ⟨ds, hp, hds, hlen, hu⟩ := scanUnits_sound (p := p) (k := 6) (n := 0) rfl
        refine ⟨[], ds, .inr ?_, hds, hlen, by simp, ?_⟩
        · exact congrArg (46 :: ·) hp
        · rw [zero_add] at hu
          exact hu
      split at h
      · simp only [Option.some.injEq, Prod.mk.injEq] at h
        obtain ⟨rfl, rfl, rfl⟩ := h
        exact ⟨[], [], by simp, by simp, by simp, by simp, by simp [numeral_nil]⟩
      split at h
      · cases h
      · next hc =>
        rw [Bool.not_eq_true, Bool.not_eq_false'] at hc
        obtain ⟨whole, frac, hp, hds, hlen, rfl, hu⟩ := ih h
        refine ⟨c :: whole, frac, ?_, List.forall_mem_cons.mpr ⟨hc, hds⟩, hlen, by simp, hu⟩
        exact hp.imp (And.imp_left (congrArg (c :: ·))) (congrArg (c :: ·))

/-- Digits are taken until something else comes. -/
theorem scanWhole_append {whole p strWhole : Bytes} (h : ∀ c ∈ whole, isdigit c = true) :
    scanWhole (whole ++ p) strWhole = scanWhole p (strWhole ++ whole) := by
  induction whole generalizing strWhole with
  | nil => simp
  | cons c whole ih =>
      obtain ⟨hc, h⟩ := List.forall_mem_cons.mp h
      obtain ⟨-, hspace, -, -, hpoint⟩ := ne_of_isdigit hc
      rw [List.cons_append, scanWhole, if_neg (by simpa using hpoint), hspace, hc]
      simp only [Bool.not_true, Bool.false_eq_true, if_false]
      rw [ih h, List.append_assoc, List.singleton_append]

/-- White space ends the number before the point. -/
theorem scanWhole_spaces {p strWhole : Bytes} (h : ∀ c ∈ p, isspace c = true) :
    scanWhole p strWhole = some (strWhole, 0, p) := by
  cases p with
  | nil => rfl
  | cons c p =>
      have hc := h c (by simp)
      have hpoint : (c == 46) = false := by
        rw [beq_eq_false_iff_ne]
        rintro rfl
        exact absurd hc (by decide)
      simp [scanWhole, hpoint, hc]

theorem scanWhole_point {frac p strWhole : Bytes} (h : ∀ c ∈ frac, isdigit c = true)
    (hlen : frac.length ≤ 6) (hp : ∀ c ∈ p.head?, isdigit c = false) :
    scanWhole (46 :: (frac ++ p)) strWhole
      = some (strWhole, (numeral frac * 10 ^ (6 - frac.length) : ℤ), p) := by
  have hunits := scanUnits_append (n := 0) h hlen hp
  rw [zero_add] at hunits
  change some (strWhole, (scanUnits (frac ++ p) (10 ^ 6 / 10) 0).2,
    (scanUnits (frac ++ p) (10 ^ 6 / 10) 0).1) = _
  rw [hunits]

/-! ## What is parsed -/

theorem isdigit_head_spaces {p : Bytes} (h : ∀ c ∈ p, isspace c = true) :
    ∀ c ∈ p.head?, isdigit c = false := by
  intro c hc
  exact isdigit_of_isspace (h c (List.mem_of_mem_head? hc))

theorem numeral_mul_le {frac : Bytes} (h : ∀ c ∈ frac, isdigit c = true) (hlen : frac.length ≤ 6) :
    numeral frac * 10 ^ (6 - frac.length) < 10 ^ 6 := by
  calc numeral frac * 10 ^ (6 - frac.length)
      < 10 ^ frac.length * 10 ^ (6 - frac.length) :=
        Nat.mul_lt_mul_of_pos_right (numeral_lt h) (by positivity)
    _ = 10 ^ 6 := by rw [← pow_add, Nat.add_sub_cancel' hlen]

/-- Ten digits before the point and six after it fit. -/
theorem int64_money {q u : ℤ} (hq : 0 ≤ q) (hq' : q < 10 ^ 10) (hu : 0 ≤ u) (hu' : u < 10 ^ 6) :
    int64 (int64 (q * COIN) + u) = q * COIN + u ∧ 0 ≤ q * COIN + u ∧ q * COIN + u < 2 ^ 63 := by
  have hmul : int64 (q * COIN) = q * COIN := by
    rw [int64]
    apply Int.bmod_eq_of_le <;> simp only [COIN] <;> omega
  have hadd : int64 (q * COIN + u) = q * COIN + u := by
    rw [int64]
    apply Int.bmod_eq_of_le <;> simp only [COIN] <;> omega
  refine ⟨by rw [hmul, hadd], ?_, ?_⟩ <;> simp only [COIN] <;> omega

/-- What the parts of a money string denote, as the code adds it up -/
theorem int64_parts {whole frac : Bytes} (h : ∀ c ∈ whole ++ frac, isdigit c = true)
    (hwhole : whole.length ≤ 10) (hfrac : frac.length ≤ 6) :
    int64 (int64 (atoi64 whole * COIN) + numeral frac * 10 ^ (6 - frac.length))
        = numeral whole * COIN + numeral frac * 10 ^ (6 - frac.length) ∧
      (0 : ℤ) ≤ numeral frac * 10 ^ (6 - frac.length) ∧
      (numeral frac * 10 ^ (6 - frac.length) : ℤ) < COIN ∧
      (0 : ℤ) ≤ numeral whole * COIN + numeral frac * 10 ^ (6 - frac.length) ∧
      (numeral whole * COIN + numeral frac * 10 ^ (6 - frac.length) : ℤ) < 2 ^ 63 := by
  obtain ⟨hw, hf⟩ := List.forall_mem_append.mp h
  have hlt : numeral whole < 10 ^ 10 :=
    (numeral_lt hw).trans_le (Nat.pow_le_pow_right (by decide) hwhole)
  have hunits : (numeral frac * 10 ^ (6 - frac.length) : ℤ) < 10 ^ 6 := by
    exact_mod_cast numeral_mul_le hf hfrac
  have h0 : (0 : ℤ) ≤ numeral frac * 10 ^ (6 - frac.length) := by positivity
  rw [atoi64_digits hw (by omega)]
  obtain ⟨heq, hnonneg, hmax⟩ := int64_money (Nat.cast_nonneg (numeral whole)) (by exact_mod_cast hlt)
    h0 hunits
  exact ⟨heq, h0, hunits, hnonneg, hmax⟩

theorem MoneyForm.lt {str : Bytes} {v : ℤ} (h : MoneyForm str v) : 0 ≤ v ∧ v < 2 ^ 63 := by
  obtain ⟨ws, whole, frac, ws', -, -, hdigits, hwhole, hfrac, rfl⟩ := h
  exact (int64_parts hdigits hwhole hfrac).2.2.2

/-- The end of the string is where the scanner stopped. -/
theorem moneyForm_of_parseMoney {str : Bytes} {v : ℤ} (h0 : 0 ∉ str)
    (h : parseMoney str = some v) : MoneyForm str v := by
  rw [parseMoney, cstr_eq_self.mpr h0, Option.bind_eq_some_iff] at h
  obtain ⟨⟨whole, u, p⟩, hscan, h⟩ := h
  obtain ⟨_, frac, hp, hdigits, hfrac, rfl, rfl⟩ := scanWhole_sound hscan
  dsimp only at h
  split at h
  · cases h
  next hspaces =>
  split at h
  · cases h
  next hwhole =>
  have hwhole : whole.length ≤ 10 := Nat.le_of_not_lt hwhole
  obtain ⟨heq, -⟩ := int64_parts hdigits hwhole hfrac
  split at h
  · cases h
  rw [Option.some.injEq] at h
  have hstr : str = str.takeWhile isspace ++ str.dropWhile isspace :=
    List.takeWhile_append_dropWhile.symm
  refine ⟨str.takeWhile isspace, whole, frac, p, ?_, ?_, hdigits, hwhole, hfrac, h.symm.trans heq⟩
  · refine hp.imp (fun ⟨hp, hnil⟩ => ⟨?_, hnil⟩) fun hp => ?_
    · rw [List.append_assoc, ← hp]
      exact hstr
    · rw [List.append_assoc, ← hp]
      exact hstr
  · refine List.forall_mem_append.mpr ⟨fun c hc => List.mem_takeWhile_imp hc, fun c hc => ?_⟩
    by_contra hno
    exact hspaces (List.any_eq_true.mpr ⟨c, hc, by simpa using hno⟩)

/-- White space before the number is skipped; the digits are not. -/
theorem dropWhile_digits_spaces {whole ws : Bytes} (h : ∀ c ∈ whole, isdigit c = true)
    (hws : ∀ c ∈ ws, isspace c = true) :
    ∃ p : Bytes, (∀ c ∈ p, isspace c = true) ∧ (whole ++ ws).dropWhile isspace = whole ++ p := by
  cases whole with
  | nil => exact ⟨[], by simp, by simpa using hws⟩
  | cons c whole =>
      have hc := (ne_of_isdigit (h c (by simp))).2.1
      exact ⟨ws, hws, List.dropWhile_cons_of_neg (by simp [hc])⟩

theorem dropWhile_digits_point {whole p : Bytes} (h : ∀ c ∈ whole, isdigit c = true) :
    (whole ++ 46 :: p).dropWhile isspace = whole ++ 46 :: p := by
  cases whole with
  | nil => rfl
  | cons c whole =>
      have hc := (ne_of_isdigit (h c (by simp))).2.1
      exact List.dropWhile_cons_of_neg (by simp [hc])

/-- Every string of the form is taken. -/
theorem parseMoney_of_moneyForm {str : Bytes} {v : ℤ} (h0 : 0 ∉ str) (h : MoneyForm str v) :
    parseMoney str = some v := by
  obtain ⟨ws, whole, frac, ws', hstr, hspaces, hdigits, hwhole, hfrac, rfl⟩ := h
  obtain ⟨hws, hws'⟩ := List.forall_mem_append.mp hspaces
  obtain ⟨hw, hf⟩ := List.forall_mem_append.mp hdigits
  obtain ⟨p, hp, hscan⟩ : ∃ p : Bytes, (∀ c ∈ p, isspace c = true) ∧
      scanWhole (str.dropWhile isspace) []
        = some (whole, (numeral frac * 10 ^ (6 - frac.length) : ℤ), p) := by
    rcases hstr with ⟨rfl, rfl⟩ | rfl
    · obtain ⟨p, hp, hdrop⟩ := dropWhile_digits_spaces hw hws'
      refine ⟨p, hp, ?_⟩
      rw [List.append_assoc, List.dropWhile_append_of_pos hws, hdrop, scanWhole_append hw,
        scanWhole_spaces hp]
      simp [numeral_nil]
    · refine ⟨ws', hws', ?_⟩
      rw [List.append_assoc, List.dropWhile_append_of_pos hws, dropWhile_digits_point hw,
        scanWhole_append hw, scanWhole_point hf hfrac (isdigit_head_spaces hws'), List.nil_append]
  obtain ⟨heq, hu, hu', -⟩ := int64_parts hdigits hwhole hfrac
  have hall : ¬ (p.any fun c => !isspace c) = true := by
    rw [List.any_eq_true]
    rintro ⟨c, hc, hno⟩
    simp [hp c hc] at hno
  have hrange : ¬ (decide ((numeral frac * 10 ^ (6 - frac.length) : ℤ) < 0)
      || decide ((numeral frac * 10 ^ (6 - frac.length) : ℤ) > COIN)) = true := by
    rw [Bool.or_eq_true, decide_eq_true_eq, decide_eq_true_eq]
    omega
  rw [parseMoney, cstr_eq_self.mpr h0, hscan, Option.bind_some]
  dsimp only
  rw [if_neg hall, if_neg (Nat.not_lt.mpr hwhole), if_neg hrange, heq]

/-! ## What is formatted -/

/-- What the loop trims is zeros. -/
theorem append_trimZeros (str : Bytes) :
    str.take (str.length - trimZeros str) ++ List.replicate (trimZeros str) 48 = str := by
  apply Lib.exists_trimmed
  intro i hi hc
  rw [Bool.and_eq_true, beq_iff_eq, List.getD_eq_getElem?_getD, List.getElem?_eq_getElem hi,
    Option.getD_some] at hc
  exact hc.1

/-- The point stops the loop: only zeros of the fraction are trimmed. -/
theorem take_trimZeros (whole frac : Bytes) :
    ∃ (frac' : Bytes) (k : Nat), frac = frac' ++ List.replicate k 48 ∧
      (whole ++ 46 :: frac).take ((whole ++ 46 :: frac).length - trimZeros (whole ++ 46 :: frac))
        = whole ++ 46 :: frac' := by
  have happend := append_trimZeros (whole ++ 46 :: frac)
  generalize trimZeros (whole ++ 46 :: frac) = k at happend ⊢
  generalize (whole ++ 46 :: frac).take ((whole ++ 46 :: frac).length - k) = t at happend ⊢
  have hpoint : (46 : UInt8) ∉ List.replicate k 48 := by
    intro h46
    exact absurd (List.eq_of_mem_replicate h46) (by decide)
  rcases List.append_eq_append_iff.mp happend.symm with ⟨c, rfl, hc⟩ | ⟨c, rfl, hc⟩
  · cases c with
    | nil =>
        rw [List.nil_append] at hc
        exact absurd (hc ▸ List.mem_cons_self) hpoint
    | cons x c =>
        obtain ⟨rfl, rfl⟩ := List.cons.inj hc
        exact ⟨c, k, rfl, rfl⟩
  · exact absurd (hc ▸ List.mem_append_right c List.mem_cons_self) hpoint

theorem numeral_append_zeros (ds : Bytes) (k : Nat) :
    numeral (ds ++ List.replicate k 48) = numeral ds * 10 ^ k := by
  rw [numeral, List.map_append, List.map_replicate]
  exact Lib.value_append_replicate _ k

/-- A number that is not negative is printed in digits only, which denote it. -/
theorem printInt_natCast (w n : Nat) :
    (∀ c ∈ printInt w n, isdigit c = true) ∧ numeral (printInt w n) = n := by
  have hlt : ∀ d ∈ Lib.pad w (Lib.decimal n), d < 10 :=
    Lib.pad_lt (by decide) (Lib.decimal_lt n)
  rw [printInt, if_neg (by omega), Int.natAbs_natCast]
  constructor
  · intro c hc
    obtain ⟨d, hd, rfl⟩ := List.mem_map.mp hc
    exact isdigit_digitChar (hlt d hd)
  · rw [numeral_map_digitChar hlt, Lib.value_pad, Lib.value_decimal]

theorem length_printInt {w n k : Nat} (hw : w ≤ k) (hk : 0 < k) (h : n < 10 ^ k) :
    (printInt w n).length ≤ k := by
  have hlen : (Lib.decimal n).length ≤ k := Lib.length_decimal_le hk h
  rw [printInt, if_neg (by omega), Int.natAbs_natCast, List.length_map, Lib.pad, List.length_append,
    List.length_replicate]
  omega

theorem length_printInt_pad {w n : Nat} (hw : 0 < w) (h : n < 10 ^ w) :
    (printInt w n).length = w := by
  rw [printInt, if_neg (by omega), Int.natAbs_natCast, List.length_map,
    Lib.length_pad (Lib.length_decimal_le hw h)]

theorem formatMoney_natCast (n : Nat) :
    ∃ (frac : Bytes) (k : Nat),
      printInt 6 ((n % 1000000 : Nat) : ℤ) = frac ++ List.replicate k 48 ∧
      formatMoney n false = printInt 0 ((n / 1000000 : Nat) : ℤ) ++ 46 :: frac := by
  have habs : (if (n : ℤ) > 0 then (n : ℤ) else int64 (-n)) = n := by
    split
    · rfl
    · next h =>
      obtain rfl : n = 0 := by omega
      rfl
  obtain ⟨frac, k, hfrac, htake⟩ := take_trimZeros (printInt 0 ((n / 1000000 : Nat) : ℤ))
    (printInt 6 ((n % 1000000 : Nat) : ℤ))
  refine ⟨frac, k, hfrac, ?_⟩
  have hquot : (n : ℤ).tdiv COIN = ((n / 1000000 : Nat) : ℤ) := rfl
  have hrem : (n : ℤ).tmod COIN = ((n % 1000000 : Nat) : ℤ) := rfl
  simp only [formatMoney, habs, hquot, hrem, htake, Bool.false_and, Bool.false_eq_true, if_false]
  rw [if_neg (by omega)]

/-- What is formatted has the form of the amount. -/
theorem moneyForm_formatMoney {n : ℤ} (h : 0 ≤ n) (h' : n < 10 ^ 16) :
    MoneyForm (formatMoney n false) n := by
  obtain ⟨n, rfl⟩ := Int.eq_ofNat_of_zero_le h
  have hn : n < 10 ^ 16 := by exact_mod_cast h'
  obtain ⟨frac, k, hfrac, hformat⟩ := formatMoney_natCast n
  have hlen : (printInt 6 ((n % 1000000 : Nat) : ℤ)).length = 6 :=
    length_printInt_pad (by decide) (Nat.mod_lt n (by decide))
  obtain ⟨hquot, hq⟩ := printInt_natCast 0 (n / 1000000)
  obtain ⟨hrem, hr⟩ := printInt_natCast 6 (n % 1000000)
  rw [hfrac] at hlen hrem hr
  rw [List.length_append, List.length_replicate] at hlen
  rw [numeral_append_zeros] at hr
  refine ⟨[], printInt 0 ((n / 1000000 : Nat) : ℤ), frac, [], .inr ?_, by simp, ?_, ?_, by omega, ?_⟩
  · simpa using hformat
  · exact List.forall_mem_append.mpr ⟨hquot, (List.forall_mem_append.mp hrem).1⟩
  · exact length_printInt (by decide) (by decide) (by omega)
  · obtain rfl : k = 6 - frac.length := by omega
    have hadd : n = n / 1000000 * 1000000 + numeral frac * 10 ^ (6 - frac.length) := by
      rw [hr]
      omega
    rw [hq, COIN]
    exact_mod_cast hadd

theorem zero_notMem_of_moneyForm {str : Bytes} {v : ℤ} (h : MoneyForm str v) : 0 ∉ str := by
  obtain ⟨ws, whole, frac, ws', hstr, hspaces, hdigits, -⟩ := h
  obtain ⟨hws, hws'⟩ := List.forall_mem_append.mp hspaces
  obtain ⟨hw, hf⟩ := List.forall_mem_append.mp hdigits
  have hdigit (hd : isdigit 0 = true) : False := absurd hd (by decide)
  have hspace (hs : isspace 0 = true) : False := absurd hs (by decide)
  intro h0
  rcases hstr with ⟨rfl, -⟩ | rfl
  · simp only [List.mem_append] at h0
    grind
  · simp only [List.mem_append, List.mem_cons] at h0
    grind

/-- An amount of up to ten digits before the point survives being printed and read. A string is read
if and only if it is white space around at most ten digits and, after a point, at most six; the amount
is then exactly what these denote, and it fits. -/
theorem parseMoney_spec :
    (∀ n : ℤ, 0 ≤ n → n < 10 ^ 16 → parseMoney (formatMoney n false) = some n) ∧
    ∀ str : Bytes, 0 ∉ str →
      ∀ v : ℤ, (parseMoney str = some v ↔ MoneyForm str v) ∧
        (parseMoney str = some v → 0 ≤ v ∧ v < 2 ^ 63) := by
  refine ⟨fun n h h' => ?_, fun str h0 v => ⟨⟨?_, ?_⟩, fun h => ?_⟩⟩
  · have hform := moneyForm_formatMoney h h'
    exact parseMoney_of_moneyForm (zero_notMem_of_moneyForm hform) hform
  · exact moneyForm_of_parseMoney h0
  · exact parseMoney_of_moneyForm h0
  · exact (moneyForm_of_parseMoney h0 h).lt

/-- `" 12.5 "`, and the amount printed -/
theorem parseMoney_spec_price :
    parseMoney (formatMoney 12500000 false) = some 12500000 ∧
      MoneyForm [32, 49, 50, 46, 53, 32] 12500000 :=
  ⟨parseMoney_spec.1 12500000 (by decide) (by decide),
    ((parseMoney_spec.2 [32, 49, 50, 46, 53, 32] (by decide) 12500000).1).mp (by decide)⟩

end ShinyCoin

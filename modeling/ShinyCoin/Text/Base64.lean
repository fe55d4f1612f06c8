import ShinyCoin.Core.Base58
import ShinyCoin.Lib.Regroup

/-!
# Base64

The encoder and the decoder are state machines that carry bits from one character to the next. Both
regroup: the encoder bytes into digits of six bits, the decoder back. The switch at the end of the
decoder asks for the padding and for no carried bits, but not for the end of the string: what follows
may be anything that does not begin with a letter of the alphabet.
-/

namespace ShinyCoin

/-! ## `EncodeBase64` -/

/-- `pbase64`: capital letters, small ones, digits, `+` and `/` -/
def pbase64 : Bytes :=
  (List.range' 65 26 ++ List.range' 97 26 ++ List.range' 48 10 ++ [43, 47]).map UInt8.ofNat

structure Base64Encoder where
  strRet : Bytes
  mode : Nat
  left : Nat

/-- One round of the loop -/
def Base64Encoder.step (s : Base64Encoder) (c : UInt8) : Base64Encoder :=
  let enc := c.toNat
  match s.mode with
  | 0 => -- we have no bits
      ⟨s.strRet ++ [pbase64.getD (enc >>> 2) 0], 1, (enc &&& 3) <<< 4⟩
  | 1 => -- we have two bits
      ⟨s.strRet ++ [pbase64.getD (s.left ||| enc >>> 4) 0], 2, (enc &&& 15) <<< 2⟩
  | 2 => -- we have four bits
      ⟨s.strRet ++ [pbase64.getD (s.left ||| enc >>> 6) 0, pbase64.getD (enc &&& 63) 0], 0, s.left⟩
  | _ => s

def encodeBase64 (pch : Bytes) : Bytes :=
  let s := pch.foldl Base64Encoder.step ⟨[], 0, 0⟩
  if s.mode ≠ 0 then
    s.strRet ++ [pbase64.getD s.left 0, 61] ++ if s.mode = 1 then [61] else []
  else s.strRet

/-! ## `DecodeBase64` -/

def decode64_table : List ℤ :=
  List.replicate 43 (-1) ++ [62] ++ List.replicate 3 (-1) ++ [63]
    ++ (List.range' 52 10).map (↑) ++ List.replicate 7 (-1)
    ++ (List.range' 0 26).map (↑) ++ List.replicate 6 (-1)
    ++ (List.range' 26 26).map (↑) ++ List.replicate 133 (-1)

structure Base64Decoder where
  vchRet : Bytes
  mode : Nat
  left : Nat

/-- The `switch` of the loop, for a letter that stands for `dec` -/
def Base64Decoder.step (s : Base64Decoder) (dec : Nat) : Base64Decoder :=
  match s.mode with
  | 0 => -- we have no bits and get 6
      ⟨s.vchRet, 1, dec⟩
  | 1 => -- we have 6 bits and keep 4
      ⟨s.vchRet ++ [UInt8.ofNat (s.left <<< 2 ||| dec >>> 4)], 2, dec &&& 15⟩
  | 2 => -- we have 4 bits and get 6, we keep 2
      ⟨s.vchRet ++ [UInt8.ofNat (s.left <<< 4 ||| dec >>> 2)], 3, dec &&& 3⟩
  | 3 => -- we have 2 bits and get 6
      ⟨s.vchRet ++ [UInt8.ofNat (s.left <<< 6 ||| dec)], 0, s.left⟩
  | _ => s

/-- What the table has for a character -/
def decode64 (c : UInt8) : ℤ := decode64_table.getD c.toNat (-1)

/-- The loop, and the string where it stops; the end of the list is the terminating NUL. -/
def decodeBase64Loop : Bytes → Base64Decoder → Bytes × Base64Decoder
  | [], s => ([], s)
  | c :: p, s =>
      if decode64 c = -1 then (c :: p, s) else decodeBase64Loop p (s.step (decode64 c).toNat)

/-- `*pfInvalid`, as the `switch` at the end sets it -/
def Base64Decoder.invalid (s : Base64Decoder) (p : Bytes) : Bool :=
  match s.mode with
  | 0 => -- 4n base64 characters processed: ok
      false
  | 1 => -- 4n+1 base64 character processed: impossible
      true
  | 2 => -- 4n+2 base64 characters processed: require '=='
      s.left != 0 || p.getD 0 0 != 61 || p.getD 1 0 != 61 || decode64 (p.getD 2 0) != -1
  | 3 => -- 4n+3 base64 characters processed: require '='
      s.left != 0 || p.getD 0 0 != 61 || decode64 (p.getD 1 0) != -1
  | _ => false

/-- The bytes and `*pfInvalid` -/
def decodeBase64 (str : Bytes) : Bytes × Bool :=
  let (p, s) := decodeBase64Loop (cstr str) ⟨[], 0, 0⟩
  (s.vchRet, s.invalid p)

/-! ## The alphabet -/

/-- Each letter stands for its place. -/
theorem decode64_letter : ∀ d < 64, decode64 (pbase64.getD d 0) = d := by decide +kernel

theorem decode64_table_entries : ∀ p ∈ decode64_table.zipIdx, p.1 = -1 ∨
    p.1.toNat < 64 ∧ (p.1.toNat : ℤ) = p.1 ∧ (pbase64.getD p.1.toNat 0).toNat = p.2 := by
  decide +kernel

theorem decode64_table_spec (n : Nat) : decode64_table.getD n (-1) = -1 ∨
    (decode64_table.getD n (-1)).toNat < 64 ∧
      ((decode64_table.getD n (-1)).toNat : ℤ) = decode64_table.getD n (-1) ∧
      (pbase64.getD (decode64_table.getD n (-1)).toNat 0).toNat = n := by
  rw [List.getD_eq_getElem?_getD]
  cases hget : decode64_table[n]? with
  | none => exact .inl rfl
  | some z => exact decode64_table_entries (z, n) (List.mk_mem_zipIdx_iff_getElem?.mpr hget)

/-- A character that the table knows is the letter of its place. -/
theorem letter_decode64 {c : UInt8} (hc : decode64 c ≠ -1) :
    ∃ d < 64, decode64 c = (d : Nat) ∧ pbase64.getD d 0 = c := by
  obtain hno | ⟨hlt, hcast, hletter⟩ := decode64_table_spec c.toNat
  · exact absurd hno hc
  · exact ⟨_, hlt, hcast.symm, UInt8.toNat_inj.mp hletter⟩

/-- What six bits stand for -/
def letter (d : Nat) : UInt8 := pbase64.getD d 0

/-! ## The encoder -/

theorem shiftLeft_or {a b i : Nat} (hb : b < 2 ^ i) : a <<< i ||| b = a * 2 ^ i + b := by
  rw [← Nat.shiftLeft_add_eq_or_of_lt hb, Nat.shiftLeft_eq]

/-- The bytes read so far have been written as letters, and the carried bits are the upper ones of
`left`. -/
structure Base64Encoder.Encodes (s : Base64Encoder) (b : Bytes) (es : List Nat) (l : Nat) : Prop where
  regrouped : Lib.Regrouped 8 6 (b.map UInt8.toNat) es (2 * s.mode) l
  digits_lt : ∀ e ∈ es, e < 2 ^ 6
  strRet_eq : s.strRet = es.map letter
  mode_le : s.mode ≤ 2
  left_eq : s.mode ≠ 0 → s.left = l <<< (6 - 2 * s.mode)

theorem and_low (n i : Nat) : n &&& (2 ^ i - 1) = n % 2 ^ i := Nat.and_two_pow_sub_one_eq_mod n i

theorem Base64Encoder.Encodes.nil : (⟨[], 0, 0⟩ : Base64Encoder).Encodes [] [] 0 :=
  ⟨.nil, by simp, rfl, by decide, fun h => absurd rfl h⟩

/-- One more byte: six bits are written, and six more when as many are left. -/
theorem Base64Encoder.Encodes.step {s : Base64Encoder} {b : Bytes} {es : List Nat} {l : Nat}
    (h : s.Encodes b es l) (c : UInt8) : ∃ es' l', (s.step c).Encodes (b ++ [c]) es' l' := by
  have hc : c.toNat < 2 ^ 8 := c.toNat_lt
  have hread := h.regrouped.read hc
  rw [← List.map_singleton, ← List.map_append] at hread
  have hmode := h.mode_le
  have hlt := h.regrouped.carry_lt
  have hleft := h.left_eq
  have hret := h.strRet_eq
  obtain ⟨strRet, mode, left⟩ := s
  dsimp only at hread hmode hlt hleft hret
  obtain rfl | rfl | rfl : mode = 0 ∨ mode = 1 ∨ mode = 2 := by omega
  · have hread : Lib.Regrouped 8 6 ((b ++ [c]).map UInt8.toNat) es (6 + 2) _ := hread
    have hl : l = 0 := Nat.lt_one_iff.mp hlt
    refine ⟨_, _, hread.write, List.forall_mem_append.mpr ⟨h.digits_lt, ?_⟩, ?_, (by decide : 1 ≤ 2), ?_⟩
    · exact List.forall_mem_singleton.mpr hread.write_lt
    · have hdigit : c.toNat >>> 2 = (l * 2 ^ 8 + c.toNat) / 2 ^ 2 := by
        rw [hl, Nat.zero_mul, Nat.zero_add, Nat.shiftRight_eq_div_pow]
      rw [List.map_append, ← hret, List.map_singleton, ← hdigit]
      rfl
    · intro _
      have hcarry : c.toNat &&& 3 = (l * 2 ^ 8 + c.toNat) % 2 ^ 2 := by
        rw [hl, Nat.zero_mul, Nat.zero_add]
        exact and_low c.toNat 2
      rw [← hcarry]
      rfl
  · have hread : Lib.Regrouped 8 6 ((b ++ [c]).map UInt8.toNat) es (6 + 4) _ := hread
    refine ⟨_, _, hread.write, List.forall_mem_append.mpr ⟨h.digits_lt, ?_⟩, ?_, (by decide : 2 ≤ 2), ?_⟩
    · exact List.forall_mem_singleton.mpr hread.write_lt
    · have hdigit : left ||| c.toNat >>> 4 = (l * 2 ^ 8 + c.toNat) / 2 ^ 4 := by
        rw [hleft (by decide), Nat.shiftRight_eq_div_pow, shiftLeft_or (by omega)]
        omega
      rw [List.map_append, ← hret, List.map_singleton, ← hdigit]
      rfl
    · intro _
      have hcarry : c.toNat &&& 15 = (l * 2 ^ 8 + c.toNat) % 2 ^ 4 := by
        rw [show c.toNat &&& 15 = c.toNat % 2 ^ 4 from and_low c.toNat 4]
        omega
      rw [← hcarry]
      rfl
  · have hread : Lib.Regrouped 8 6 ((b ++ [c]).map UInt8.toNat) es (6 + 6) _ := hread
    have hwrite : Lib.Regrouped 8 6 _ _ (6 + 0) _ := hread.write
    refine ⟨_, _, hwrite.write, List.forall_mem_append.mpr ⟨List.forall_mem_append.mpr
      ⟨h.digits_lt, ?_⟩, ?_⟩, ?_, (by decide : 0 ≤ 2), fun h => absurd rfl h⟩
    · exact List.forall_mem_singleton.mpr hread.write_lt
    · exact List.forall_mem_singleton.mpr hwrite.write_lt
    · have hdigit : left ||| c.toNat >>> 6 = (l * 2 ^ 8 + c.toNat) / 2 ^ 6 := by
        rw [hleft (by decide), Nat.shiftRight_eq_div_pow, shiftLeft_or (by omega)]
        omega
      have hdigit' : c.toNat &&& 63 = (l * 2 ^ 8 + c.toNat) % 2 ^ 6 / 2 ^ 0 := by
        rw [show c.toNat &&& 63 = c.toNat % 2 ^ 6 from and_low c.toNat 6]
        omega
      rw [List.map_append, List.map_append, ← hret, List.map_singleton, List.map_singleton, ← hdigit,
        ← hdigit', List.append_assoc]
      rfl

/-- The whole loop -/
theorem encodes_foldl (b : Bytes) :
    ∃ es l, (b.foldl Base64Encoder.step ⟨[], 0, 0⟩).Encodes b es l := by
  induction b using List.reverseRecOn with
  | nil => exact ⟨[], 0, .nil⟩
  | append_singleton b c ih =>
      obtain ⟨es, l, h⟩ := ih
      rw [List.foldl_append]
      exact h.step c

/-- What comes after the letters, by the bits that filled up the last one -/
def padding : Nat → Bytes
  | 4 => [61, 61]
  | 2 => [61]
  | _ => []

/-- The encoder writes digits that regroup to the bytes, with zeros carried, and the padding. -/
theorem encodeBase64_spec (b : Bytes) : ∃ es k,
    encodeBase64 b = es.map letter ++ padding k ∧ (∀ e ∈ es, e < 2 ^ 6) ∧ (k = 0 ∨ k = 2 ∨ k = 4) ∧
      Lib.Regrouped 6 8 es (b.map UInt8.toNat) k 0 := by
  obtain ⟨es, l, h⟩ := encodes_foldl b
  have hmode := h.mode_le
  have hleft := h.left_eq
  have hret := h.strRet_eq
  have hlt := h.regrouped.carry_lt
  have hgroup := h.regrouped
  rw [encodeBase64]
  generalize b.foldl Base64Encoder.step ⟨[], 0, 0⟩ = s at *
  obtain ⟨strRet, mode, left⟩ := s
  dsimp only at hmode hlt hleft hret hgroup ⊢
  obtain rfl | rfl | rfl : mode = 0 ∨ mode = 1 ∨ mode = 2 := by omega
  · refine ⟨es, 0, ?_, h.digits_lt, .inl rfl, hgroup.symm⟩
    rw [if_neg (by decide), hret, padding, List.append_nil]
    all_goals simp
  · refine ⟨_, 4, ?_, List.forall_mem_append.mpr ⟨h.digits_lt, ?_⟩, .inr (.inr rfl),
      hgroup.fill (k := 4) rfl⟩
    · rw [if_pos (by decide), if_pos rfl, hleft (by decide), hret, List.map_append,
        List.map_singleton, Nat.shiftLeft_eq, letter, padding]
      simp
    · rw [List.forall_mem_singleton]
      omega
  · refine ⟨_, 2, ?_, List.forall_mem_append.mpr ⟨h.digits_lt, ?_⟩, .inr (.inl rfl),
      hgroup.fill (k := 2) rfl⟩
    · rw [if_pos (by decide), if_neg (by decide), hleft (by decide), hret, List.map_append,
        List.map_singleton, Nat.shiftLeft_eq, letter, padding]
      simp
    · rw [List.forall_mem_singleton]
      omega

/-! ## The decoder -/

/-- How many bits the decoder has that make up no byte yet -/
def Base64Decoder.carried (s : Base64Decoder) : Nat := if s.mode = 0 then 0 else 8 - 2 * s.mode

/-- The letters read so far stand for `ds`, whose bits have been written as bytes but for those in
`left`. -/
structure Base64Decoder.Decodes (s : Base64Decoder) (ds : List Nat) (l : Nat) : Prop where
  regrouped : Lib.Regrouped 6 8 ds (s.vchRet.map UInt8.toNat) s.carried l
  mode_le : s.mode ≤ 3
  left_eq : s.mode ≠ 0 → s.left = l

theorem Base64Decoder.Decodes.nil : (⟨[], 0, 0⟩ : Base64Decoder).Decodes [] 0 :=
  ⟨.nil, (by decide : 0 ≤ 3), fun h => absurd rfl h⟩

theorem map_toNat_append {v : Bytes} {x y : Nat} (hx : x < 2 ^ 8) (hxy : x = y) :
    (v ++ [UInt8.ofNat x]).map UInt8.toNat = v.map UInt8.toNat ++ [y] := by
  rw [List.map_append, List.map_singleton, UInt8.toNat_ofNat', Nat.mod_eq_of_lt hx, hxy]

/-- One more letter: a byte is written when there are eight bits. -/
theorem Base64Decoder.Decodes.step {s : Base64Decoder} {ds : List Nat} {l : Nat}
    (h : s.Decodes ds l) {d : Nat} (hd : d < 2 ^ 6) : ∃ l', (s.step d).Decodes (ds ++ [d]) l' := by
  have hread := h.regrouped.read hd
  have hmode := h.mode_le
  have hlt := h.regrouped.carry_lt
  have hleft := h.left_eq
  obtain ⟨vchRet, mode, left⟩ := s
  dsimp only at hread hmode hlt hleft
  obtain rfl | rfl | rfl | rfl : mode = 0 ∨ mode = 1 ∨ mode = 2 ∨ mode = 3 := by omega
  · have hl : l = 0 := Nat.lt_one_iff.mp hlt
    refine ⟨d, ?_, (by decide : 1 ≤ 3), fun _ => rfl⟩
    rw [hl, Nat.zero_mul, Nat.zero_add] at hread
    exact hread
  · have hread : Lib.Regrouped 6 8 (ds ++ [d]) (vchRet.map UInt8.toNat) (8 + 4) _ := hread
    have hwrite := hread.write
    have hbyte : left <<< 2 ||| d >>> 4 = (l * 2 ^ 6 + d) / 2 ^ 4 := by
      rw [hleft (by decide), Nat.shiftRight_eq_div_pow, shiftLeft_or (by omega)]
      omega
    rw [← map_toNat_append (hbyte ▸ hread.write_lt) hbyte] at hwrite
    refine ⟨_, hwrite, (by decide : 2 ≤ 3), fun _ => ?_⟩
    calc d &&& 15 = d % 2 ^ 4 := and_low d 4
      _ = (l * 2 ^ 6 + d) % 2 ^ 4 := by omega
  · have hread : Lib.Regrouped 6 8 (ds ++ [d]) (vchRet.map UInt8.toNat) (8 + 2) _ := hread
    have hwrite := hread.write
    have hbyte : left <<< 4 ||| d >>> 2 = (l * 2 ^ 6 + d) / 2 ^ 2 := by
      rw [hleft (by decide), Nat.shiftRight_eq_div_pow, shiftLeft_or (by omega)]
      omega
    rw [← map_toNat_append (hbyte ▸ hread.write_lt) hbyte] at hwrite
    refine ⟨_, hwrite, (by decide : 3 ≤ 3), fun _ => ?_⟩
    calc d &&& 3 = d % 2 ^ 2 := and_low d 2
      _ = (l * 2 ^ 6 + d) % 2 ^ 2 := by omega
  · have hread : Lib.Regrouped 6 8 (ds ++ [d]) (vchRet.map UInt8.toNat) (8 + 0) _ := hread
    have hwrite := hread.write
    have hbyte : left <<< 6 ||| d = (l * 2 ^ 6 + d) / 2 ^ 0 := by
      rw [hleft (by decide), shiftLeft_or hd]
      omega
    rw [← map_toNat_append (hbyte ▸ hread.write_lt) hbyte] at hwrite
    exact ⟨_, hwrite, (by decide : 0 ≤ 3), fun h => absurd rfl h⟩

theorem decodes_foldl {ds : List Nat} (hds : ∀ d ∈ ds, d < 2 ^ 6) :
    ∃ l, (ds.foldl Base64Decoder.step ⟨[], 0, 0⟩).Decodes ds l := by
  induction ds using List.reverseRecOn with
  | nil => exact ⟨0, .nil⟩
  | append_singleton ds d ih =>
      obtain ⟨hds, hd⟩ := List.forall_mem_append.mp hds
      obtain ⟨l, h⟩ := ih hds
      rw [List.foldl_append]
      exact h.step (hd d (by simp))

/-- The loop takes letters until something else comes. -/
theorem decodeBase64Loop_append {ds : List Nat} {p : Bytes} (hds : ∀ d ∈ ds, d < 2 ^ 6)
    (hp : ∀ c ∈ p.head?, decode64 c = -1) (s : Base64Decoder) :
    decodeBase64Loop (ds.map letter ++ p) s = (p, ds.foldl Base64Decoder.step s) := by
  induction ds generalizing s with
  | nil =>
      cases p with
      | nil => rfl
      | cons c p => exact if_pos (hp c rfl)
  | cons d ds ih =>
      obtain ⟨hd, hds⟩ := List.forall_mem_cons.mp hds
      have hletter : decode64 (letter d) = d := decode64_letter d hd
      rw [List.map_cons, List.cons_append, decodeBase64Loop, hletter, if_neg (by omega),
        Int.toNat_natCast, ih hds, List.foldl_cons]

/-- Every string is letters and then something else. -/
theorem exists_letters (str : Bytes) : ∃ (ds : List Nat) (p : Bytes), str = ds.map letter ++ p ∧
    (∀ d ∈ ds, d < 2 ^ 6) ∧ ∀ c ∈ p.head?, decode64 c = -1 := by
  induction str with
  | nil => exact ⟨[], [], rfl, by simp, by simp⟩
  | cons c str ih =>
      by_cases hc : decode64 c = -1
      · exact ⟨[], c :: str, rfl, by simp, by simpa using hc⟩
      · obtain ⟨d, hd, -, rfl⟩ := letter_decode64 hc
        obtain ⟨ds, p, rfl, hds, hp⟩ := ih
        exact ⟨d :: ds, p, rfl, List.forall_mem_cons.mpr ⟨hd, hds⟩, hp⟩

/-! ## The validity switch -/

theorem decode64_eq_iff {c : UInt8} : decode64 c = -1 ↔ c ∉ pbase64 := by
  constructor
  · intro hc hmem
    obtain ⟨d, hd, rfl⟩ := List.getElem_of_mem hmem
    have hletter := decode64_letter d hd
    rw [List.getD_eq_getElem?_getD, List.getElem?_eq_getElem hd, Option.getD_some, hc] at hletter
    omega
  · intro hc
    by_contra hno
    obtain ⟨d, hd, -, rfl⟩ := letter_decode64 hno
    apply hc
    rw [List.getD_eq_getElem?_getD, List.getElem?_eq_getElem hd, Option.getD_some]
    exact List.getElem_mem _

/-- The NUL at the end is no letter. -/
theorem decode64_head {p : Bytes} :
    decode64 (p.getD 0 0) = -1 ↔ ∀ c ∈ p.head?, decode64 c = -1 := by
  cases p with
  | nil => exact iff_of_true (by decide) (by simp)
  | cons c p => simp

theorem getD_zero_eq_iff {p : Bytes} {c : UInt8} (hc : c ≠ 0) :
    p.getD 0 0 = c ↔ ∃ t, p = c :: t := by
  cases p with
  | nil => simpa using hc.symm
  | cons b p => simp

/-- What the switch lets through: no bits left over, the padding, and then no letter -/
theorem invalid_eq_false_iff {s : Base64Decoder} {ds : List Nat} {l : Nat} (h : s.Decodes ds l)
    {p : Bytes} (hp : ∀ c ∈ p.head?, decode64 c = -1) :
    s.invalid p = false ↔
      s.mode ≠ 1 ∧ l = 0 ∧ ∃ t, p = padding s.carried ++ t ∧ ∀ c ∈ t.head?, decode64 c = -1 := by
  have hmode := h.mode_le
  have hlt := h.regrouped.carry_lt
  have hleft := h.left_eq
  obtain ⟨vchRet, mode, left⟩ := s
  dsimp only at hmode hlt hleft ⊢
  obtain rfl | rfl | rfl | rfl : mode = 0 ∨ mode = 1 ∨ mode = 2 ∨ mode = 3 := by omega
  · have hl : l = 0 := Nat.lt_one_iff.mp hlt
    exact iff_of_true rfl ⟨by decide, hl, p, rfl, hp⟩
  · exact iff_of_false (by simp [Base64Decoder.invalid]) fun h => h.1 rfl
  · obtain rfl := hleft (by decide)
    have hpad : padding (Base64Decoder.carried ⟨vchRet, 2, left⟩) = [61, 61] := rfl
    rw [hpad]
    simp only [Base64Decoder.invalid, Bool.or_eq_false_iff, bne_eq_false_iff_eq]
    constructor
    · rintro ⟨⟨⟨hl, h0⟩, h1⟩, h2⟩
      obtain ⟨p, rfl⟩ := (getD_zero_eq_iff (by decide)).mp h0
      obtain ⟨p, rfl⟩ := (getD_zero_eq_iff (by decide)).mp h1
      exact ⟨by decide, hl, p, rfl, decode64_head.mp h2⟩
    · rintro ⟨-, hl, t, rfl, ht⟩
      exact ⟨⟨⟨hl, rfl⟩, rfl⟩, decode64_head.mpr ht⟩
  · obtain rfl := hleft (by decide)
    have hpad : padding (Base64Decoder.carried ⟨vchRet, 3, left⟩) = [61] := rfl
    rw [hpad]
    simp only [Base64Decoder.invalid, Bool.or_eq_false_iff, bne_eq_false_iff_eq]
    constructor
    · rintro ⟨⟨hl, h0⟩, h1⟩
      obtain ⟨p, rfl⟩ := (getD_zero_eq_iff (by decide)).mp h0
      exact ⟨by decide, hl, p, rfl, decode64_head.mp h1⟩
    · rintro ⟨-, hl, t, rfl, ht⟩
      exact ⟨⟨hl, rfl⟩, decode64_head.mpr ht⟩

theorem carried_lt (s : Base64Decoder) : s.carried < 8 := by
  unfold Base64Decoder.carried
  split <;> omega

theorem map_toNat_inj {b b' : Bytes} (h : b.map UInt8.toNat = b'.map UInt8.toNat) : b = b' :=
  List.map_injective_iff.mpr (fun _ _ => UInt8.toNat_inj.mp) h

theorem toNat_map_lt (b : Bytes) : ∀ d ∈ b.map UInt8.toNat, d < 2 ^ 8 := by
  intro d hd
  obtain ⟨c, -, rfl⟩ := List.mem_map.mp hd
  exact c.toNat_lt

/-- What follows an encoding is not looked at, as long as it does not go on with a letter. -/
theorem decodeBase64_append {b t str : Bytes} (hstr : str = encodeBase64 b ++ t) (h0 : 0 ∉ str)
    (ht : ∀ c ∈ t.head?, decode64 c = -1) : decodeBase64 str = (b, false) := by
  obtain ⟨es, k, henc, hes, hk, hgroup⟩ := encodeBase64_spec b
  obtain ⟨l, hdec⟩ := decodes_foldl hes
  have hp : ∀ c ∈ (padding k ++ t).head?, decode64 c = -1 := by
    obtain rfl | rfl | rfl := hk
    · exact ht
    · simp only [padding, List.cons_append, List.head?_cons, Option.mem_some_iff, forall_eq']
      decide
    · simp only [padding, List.cons_append, List.head?_cons, Option.mem_some_iff, forall_eq']
      decide
  have hk8 : k < 8 := by omega
  obtain ⟨hbytes, hcarried, rfl⟩ := hdec.regrouped.unique hgroup (carried_lt _) hk8 (by decide)
    (toNat_map_lt _) (toNat_map_lt b)
  have hmode : (es.foldl Base64Decoder.step ⟨[], 0, 0⟩).mode ≠ 1 := by
    intro h1
    rw [Base64Decoder.carried, h1] at hcarried
    rw [← hcarried] at hk
    revert hk
    decide
  rw [decodeBase64, cstr_eq_self.mpr h0, hstr, henc, List.append_assoc,
    decodeBase64Loop_append hes hp]
  refine Prod.ext (map_toNat_inj hbytes) ?_
  exact (invalid_eq_false_iff hdec hp).mpr ⟨hmode, rfl, t, by rw [hcarried], ht⟩

theorem zero_notMem_encodeBase64 (b : Bytes) : 0 ∉ encodeBase64 b := by
  obtain ⟨es, k, henc, hes, hk, -⟩ := encodeBase64_spec b
  rw [henc]
  intro h0
  rcases List.mem_append.mp h0 with h0 | h0
  · obtain ⟨e, he, h0⟩ := List.mem_map.mp h0
    have hletter := decode64_letter e (hes e he)
    rw [show pbase64.getD e 0 = 0 from h0, decode64_eq_iff.mpr (by decide)] at hletter
    omega
  · obtain rfl | rfl | rfl := hk
    all_goals
      revert h0
      decide

/-- Only an encoding and what does not go on with a letter is let through. -/
theorem exists_append_of_decodeBase64 {b str : Bytes} (h0 : 0 ∉ str)
    (h : decodeBase64 str = (b, false)) :
    ∃ t, str = encodeBase64 b ++ t ∧ ∀ c ∈ t.head?, decode64 c = -1 := by
  obtain ⟨ds, p, rfl, hds, hp⟩ := exists_letters str
  obtain ⟨l, hdec⟩ := decodes_foldl hds
  rw [decodeBase64, cstr_eq_self.mpr h0, decodeBase64Loop_append hds hp, Prod.mk.injEq] at h
  obtain ⟨rfl, hvalid⟩ := h
  obtain ⟨hmode, rfl, t, rfl, ht⟩ := (invalid_eq_false_iff hdec hp).mp hvalid
  obtain ⟨es, k, henc, hes, hk, hgroup⟩ := encodeBase64_spec
    (ds.foldl Base64Decoder.step ⟨[], 0, 0⟩).vchRet
  have hcarried : (ds.foldl Base64Decoder.step ⟨[], 0, 0⟩).carried < 6 := by
    unfold Base64Decoder.carried
    split <;> omega
  obtain rfl := hdec.regrouped.source_unique hgroup hcarried (by omega) hds hes
  have hpad := Nat.add_left_cancel (hdec.regrouped.length_eq.symm.trans hgroup.length_eq)
  refine ⟨t, ?_, ht⟩
  rw [henc, hpad, List.append_assoc]

/-- What is encoded is decoded and found valid. A string is found valid if and only if it is the
encoding of what it is decoded to, followed by nothing or by something that does not begin with a
letter of the alphabet. -/
theorem decodeBase64_spec :
    (∀ b : Bytes, decodeBase64 (encodeBase64 b) = (b, false)) ∧
    ∀ str : Bytes, 0 ∉ str → ∀ b : Bytes,
      decodeBase64 str = (b, false) ↔
        ∃ t, str = encodeBase64 b ++ t ∧ ∀ c ∈ t.head?, c ∉ pbase64 := by
  refine ⟨fun b => ?_, fun str h0 b => ⟨fun h => ?_, ?_⟩⟩
  · exact decodeBase64_append (List.append_nil _).symm (zero_notMem_encodeBase64 b) (by simp)
  · obtain ⟨t, hstr, ht⟩ := exists_append_of_decodeBase64 h0 h
    exact ⟨t, hstr, fun c hc => decode64_eq_iff.mp (ht c hc)⟩
  · rintro ⟨t, hstr, ht⟩
    exact decodeBase64_append hstr h0 fun c hc => decode64_eq_iff.mpr (ht c hc)

/-- `"TQ==!"` is found valid -/
theorem decodeBase64_spec_trailing :
    decodeBase64 (encodeBase64 [77]) = ([77], false) ∧
      ∃ t, [84, 81, 61, 61, 33] = encodeBase64 [77] ++ t ∧ ∀ c ∈ t.head?, c ∉ pbase64 :=
  ⟨decodeBase64_spec.1 [77],
    (decodeBase64_spec.2 [84, 81, 61, 61, 33] (by decide) [77]).mp (by decide)⟩

/-- `"TQ==!"` is found valid, but is not what its bytes are encoded to. -/
theorem not_encodeBase64_decodeBase64 :
    ¬ ((∀ b : Bytes, decodeBase64 (encodeBase64 b) = (b, false)) ∧
      ∀ str : Bytes, 0 ∉ str → (decodeBase64 str).2 = false →
        encodeBase64 (decodeBase64 str).1 = str) := by
  rintro ⟨-, h⟩
  have htrailing := h [84, 81, 61, 61, 33] (by decide) (by decide)
  revert htrailing
  decide

end ShinyCoin

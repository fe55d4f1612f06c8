import ShinyCoin.Core.Base58
import ShinyCoin.Script.NumberFormat

/-!
# Base58 both ways

Byte vectors and strings of the 58 letters are both digits, the highest first. Each is the zeros in
front, which are counted, and the digits of a number, which goes through a signed big number with a
byte for the sign. So encoding and decoding are inverse to each other, and what else is accepted is
white space around the letters.
-/

namespace ShinyCoin

/-! ## The big number -/

theorem bigEndian_eq_value (vch : Bytes) : bigEndian vch = Lib.value 256 (vch.map UInt8.toNat) := by
  rw [bigEndian, Lib.value_eq_ofDigits, List.map_reverse]

/-- `Extra zero at the end make sure bignum will interpret as a positive number`: the number that the
encoder starts from. -/
theorem setvch_vchTmp (vch : Bytes) : CBigNum.setvch (vch.reverse ++ [0]) = bigEndian vch := by
  have hset := CBigNum.setvch_reverse_cons 0 vch
  have hofLE (l : Bytes) : Lib.ofLE l = Nat.ofDigits 256 (l.map UInt8.toNat) := by
    induction l with
    | nil => rfl
    | cons b l ih => rw [Lib.ofLE, ih, List.map_cons, Nat.ofDigits_cons]
  rw [List.reverse_cons] at hset
  rw [hset, bigEndian, hofLE]
  simp

/-- The bytes that the decoder takes from the big number -/
theorem getvch_natCast (bn : Nat) : CBigNum.getvch bn = getvch bn := by
  unfold CBigNum.getvch getvch
  rw [Int.natAbs_natCast, if_neg (by omega)]
  generalize (Nat.digits 256 bn).map UInt8.ofNat = vch
  obtain rfl | ⟨low, top, rfl⟩ := List.eq_nil_or_concat' vch
  · rfl
  · simp only [List.reverse_append, List.reverse_singleton, List.singleton_append,
      List.getLast?_append, List.getLast?_singleton, Option.some_or, Option.getD_some,
      List.reverse_reverse, UInt8.or_zero]

/-! ## The letters -/

/-- The letter of a digit -/
def base58Letter (c : Nat) : UInt8 := pszBase58.getD c 0

theorem exists_digit {p : UInt8} (h : p ∈ pszBase58) : ∃ c < 58, base58Letter c = p := by
  obtain ⟨c, hc, rfl⟩ := List.getElem_of_mem h
  refine ⟨c, hc, ?_⟩
  rw [base58Letter, List.getD_eq_getElem?_getD, List.getElem?_eq_getElem hc, Option.getD_some]

theorem exists_digits {s : Bytes} (h : ∀ p ∈ s, p ∈ pszBase58) :
    ∃ cs : List Nat, s = cs.map base58Letter ∧ ∀ c ∈ cs, c < 58 := by
  induction s with
  | nil => exact ⟨[], rfl, by simp⟩
  | cons p s ih =>
      obtain ⟨hp, hs⟩ := List.forall_mem_cons.mp h
      obtain ⟨c, hc, rfl⟩ := exists_digit hp
      obtain ⟨cs, rfl, hcs⟩ := ih hs
      exact ⟨c :: cs, rfl, List.forall_mem_cons.mpr ⟨hc, hcs⟩⟩

/-- A zero is written as the first letter, and nothing else is. -/
theorem takeWhile_letters {cs : List Nat} {p : Bytes} (hcs : ∀ c ∈ cs, c < 58)
    (hp : ∀ c ∈ p, isspace c = true) :
    ((cs.map base58Letter ++ p).takeWhile (· == pszBase58.getD 0 0)).length
      = (cs.takeWhile (· == 0)).length := by
  rw [pszBase58_zero]
  induction cs with
  | nil =>
      have hnil : p.takeWhile (· == 49) = [] := by
        rw [List.takeWhile_eq_nil_iff]
        intro hl h49
        have hspace := hp _ (List.getElem_mem hl)
        rw [show p[0] = 49 from beq_iff_eq.mp h49] at hspace
        exact absurd hspace (by decide)
      simp [hnil]
  | cons c cs ih =>
      obtain ⟨hc, hcs'⟩ := List.forall_mem_cons.mp hcs
      by_cases h0 : c = 0
      · subst h0
        have hfirst : base58Letter 0 = 49 := pszBase58_zero
        simp [hfirst, ih hcs']
      · have hletter : base58Letter c ≠ 49 := fun h => h0 ((pszBase58_spec c hc).2.2.2 h)
        rw [List.map_cons, List.cons_append, List.takeWhile_cons_of_neg (by simpa using hletter),
          List.takeWhile_cons_of_neg (by simpa using h0)]
        rfl

/-! ## Decoding letters with white space around them -/

/-- The bytes for digits: the zeros in front, and the number in bytes -/
def base58Bytes (cs : List Nat) : Bytes :=
  (List.replicate (cs.takeWhile (· == 0)).length 0 ++ Lib.digits 256 (Lib.value 58 cs)).map UInt8.ofNat

/-- White space is no letter: the loop stops there. -/
theorem decodeBase58Digits_spaces {ws : Bytes} (hws : ∀ c ∈ ws, isspace c = true) (bn : Nat) :
    decodeBase58Digits ws bn = some bn := by
  cases ws with
  | nil => rfl
  | cons c ws =>
      have hno : pszBase58.idxOf? c = none := by
        rw [List.idxOf?_eq_none_iff]
        intro hmem
        obtain ⟨d, hd, rfl⟩ := exists_digit hmem
        have hspace := hws (base58Letter d) (by simp)
        rw [base58Letter, (pszBase58_spec d hd).2.2.1] at hspace
        exact Bool.false_ne_true hspace
      have hdrop : (c :: ws).dropWhile isspace = [] := List.dropWhile_eq_nil_iff.mpr hws
      rw [decodeBase58Digits, hno]
      dsimp only
      rw [hdrop]
      rfl

/-- The loop over letters, and white space at the end -/
theorem decodeBase58Digits_letters {cs : List Nat} {ws : Bytes} (hcs : ∀ c ∈ cs, c < 58)
    (hws : ∀ c ∈ ws, isspace c = true) (bn : Nat) :
    decodeBase58Digits (cs.map base58Letter ++ ws) bn
      = some (bn * 58 ^ cs.length + Lib.value 58 cs) := by
  rw [← Lib.foldl_value]
  induction cs generalizing bn with
  | nil => exact decodeBase58Digits_spaces hws bn
  | cons c cs ih =>
      obtain ⟨hc, hcs⟩ := List.forall_mem_cons.mp hcs
      rw [List.map_cons, List.cons_append, decodeBase58Digits, base58Letter, (pszBase58_spec c hc).1]
      exact ih hcs _

/-- White space in front is skipped. Where there are no letters, what is left is none or all of it. -/
theorem dropWhile_letters {ws ws' : Bytes} {cs : List Nat} (hws : ∀ c ∈ ws, isspace c = true)
    (hcs : ∀ c ∈ cs, c < 58) (hws' : ∀ c ∈ ws', isspace c = true) :
    ∃ p : Bytes, (∀ c ∈ p, isspace c = true) ∧
      (ws ++ cs.map base58Letter ++ ws').dropWhile isspace = cs.map base58Letter ++ p := by
  rw [List.append_assoc, List.dropWhile_append_of_pos hws]
  cases cs with
  | nil => exact ⟨[], by simp, List.dropWhile_eq_nil_iff.mpr hws'⟩
  | cons c cs =>
      have hspace : isspace (base58Letter c) = false := (pszBase58_spec c (hcs c (by simp))).2.2.1
      exact ⟨ws', hws', List.dropWhile_cons_of_neg (by simp [hspace])⟩

theorem zero_notMem_letters {ws ws' : Bytes} {cs : List Nat} (hws : ∀ c ∈ ws, isspace c = true)
    (hcs : ∀ c ∈ cs, c < 58) (hws' : ∀ c ∈ ws', isspace c = true) :
    0 ∉ ws ++ cs.map base58Letter ++ ws' := by
  have hspace {ws : Bytes} (hws : ∀ c ∈ ws, isspace c = true) : 0 ∉ ws :=
    fun h => absurd (hws 0 h) (by decide)
  intro h0
  rcases List.mem_append.mp h0 with h0 | h0
  · rcases List.mem_append.mp h0 with h0 | h0
    · exact hspace hws h0
    · obtain ⟨c, hc, h0⟩ := List.mem_map.mp h0
      exact (pszBase58_spec c (hcs c hc)).2.1 h0
  · exact hspace hws' h0

theorem decodeBase58_letters {ws ws' : Bytes} {cs : List Nat} (hws : ∀ c ∈ ws, isspace c = true)
    (hcs : ∀ c ∈ cs, c < 58) (hws' : ∀ c ∈ ws', isspace c = true) :
    decodeBase58 (ws ++ cs.map base58Letter ++ ws') = some (base58Bytes cs) := by
  obtain ⟨p, hp, hdrop⟩ := dropWhile_letters hws hcs hws'
  simp only [decodeBase58]
  rw [cstr_eq_self.mpr (zero_notMem_letters hws hcs hws'), hdrop, decodeBase58Digits_letters hcs hp,
    takeWhile_letters hcs hp, Option.map_some, Nat.zero_mul, Nat.zero_add,
    trimSignByte_getvch, base58Bytes, List.map_append, List.map_replicate, Lib.digits,
    List.map_reverse]
  rfl

/-- Whatever is decoded is letters with white space around them. -/
theorem exists_letters_of_digits {p : Bytes} {bn n : Nat} (h : decodeBase58Digits p bn = some n) :
    ∃ (cs : List Nat) (ws : Bytes), p = cs.map base58Letter ++ ws ∧ (∀ c ∈ cs, c < 58) ∧
      ∀ c ∈ ws, isspace c = true := by
  induction p generalizing bn with
  | nil => exact ⟨[], [], rfl, by simp, by simp⟩
  | cons c p ih =>
      rw [decodeBase58Digits] at h
      split at h
      · split at h
        · next hspaces =>
          rw [List.isEmpty_iff, List.dropWhile_eq_nil_iff] at hspaces
          exact ⟨[], c :: p, rfl, by simp, hspaces⟩
        · cases h
      · next d hd =>
        obtain ⟨cs, ws, rfl, hcs, hws⟩ := ih h
        obtain ⟨hlt, hget, -⟩ := List.idxOf?_eq_some_iff.mp hd
        refine ⟨d :: cs, ws, ?_, List.forall_mem_cons.mpr ⟨hlt, hcs⟩, hws⟩
        rw [List.map_cons, base58Letter, List.getD_eq_getElem?_getD, List.getElem?_eq_getElem hlt,
          Option.getD_some, hget, List.cons_append]

theorem exists_letters_of_decodeBase58 {str b : Bytes} (h0 : 0 ∉ str)
    (h : decodeBase58 str = some b) :
    ∃ (ws : Bytes) (cs : List Nat) (ws' : Bytes), str = ws ++ cs.map base58Letter ++ ws' ∧
      (∀ c ∈ ws, isspace c = true) ∧ (∀ c ∈ cs, c < 58) ∧ ∀ c ∈ ws', isspace c = true := by
  simp only [decodeBase58] at h
  rw [cstr_eq_self.mpr h0, Option.map_eq_some_iff] at h
  obtain ⟨bn, hdigits, -⟩ := h
  obtain ⟨cs, ws', hp, hcs, hws'⟩ := exists_letters_of_digits hdigits
  refine ⟨str.takeWhile isspace, cs, ws', ?_, fun c hc => List.mem_takeWhile_imp hc, hcs, hws'⟩
  rw [List.append_assoc, ← hp, List.takeWhile_append_dropWhile]

/-! ## Encoding what was decoded -/

theorem map_toNat_ofNat {ds : List Nat} (h : ∀ d ∈ ds, d < 256) :
    (ds.map UInt8.ofNat).map UInt8.toNat = ds := by
  rw [List.map_map]
  refine (List.map_congr_left fun d hd => ?_).trans (List.map_id ds)
  exact UInt8.toNat_ofNat_of_lt (h d hd)

theorem encodeBase58_base58Bytes {cs : List Nat} (hcs : ∀ c ∈ cs, c < 58) :
    encodeBase58 (base58Bytes cs) = cs.map base58Letter := by
  have hbytes : ∀ d ∈ List.replicate (cs.takeWhile (· == 0)).length 0
      ++ Lib.digits 256 (Lib.value 58 cs), d < 256 := by
    intro d hd
    rcases List.mem_append.mp hd with hd | hd
    · rw [List.eq_of_mem_replicate hd]
      decide
    · exact Lib.digits_lt (by decide) hd
  have hnumber : bigEndian (base58Bytes cs) = Lib.value 58 cs := by
    rw [bigEndian_eq_value, base58Bytes, map_toNat_ofNat hbytes, Lib.value_replicate_append,
      Lib.value_digits]
  have hzeros : ((base58Bytes cs).takeWhile (· == 0)).length = (cs.takeWhile (· == 0)).length := by
    have hzero : ((· == 0) ∘ UInt8.toNat : UInt8 → Bool) = (· == 0) := by
      funext b
      rw [Function.comp_apply, Bool.eq_iff_iff, beq_iff_eq, beq_iff_eq, ← UInt8.toNat_inj]
      rfl
    rw [← List.length_map UInt8.toNat, ← hzero, ← List.takeWhile_map, base58Bytes,
      map_toNat_ofNat hbytes, Lib.takeWhile_replicate_append_digits, List.length_replicate]
  rw [encodeBase58_eq, base58Digits, hzeros, hnumber]
  exact congrArg _ (Lib.replicate_append_digits (by decide) hcs)

/-- Letters are decoded to something that is encoded as them. -/
theorem encodeBase58_decodeBase58 {s : Bytes} (hs : ∀ c ∈ s, c ∈ pszBase58) :
    ∃ b, decodeBase58 s = some b ∧ encodeBase58 b = s := by
  obtain ⟨cs, rfl, hcs⟩ := exists_digits hs
  refine ⟨base58Bytes cs, ?_, encodeBase58_base58Bytes hcs⟩
  simpa using decodeBase58_letters (List.forall_mem_nil _) hcs (List.forall_mem_nil _)

theorem decodeBase58_spaces {ws s ws' : Bytes} (hws : ∀ c ∈ ws, isspace c = true)
    (hs : ∀ c ∈ s, c ∈ pszBase58) (hws' : ∀ c ∈ ws', isspace c = true) :
    decodeBase58 (ws ++ s ++ ws') = decodeBase58 s := by
  obtain ⟨cs, rfl, hcs⟩ := exists_digits hs
  have hbare := decodeBase58_letters (List.forall_mem_nil _) hcs (List.forall_mem_nil _)
  rw [List.nil_append, List.append_nil] at hbare
  rw [decodeBase58_letters hws hcs hws', hbare]

theorem letter_mem {c : Nat} (hc : c < 58) : base58Letter c ∈ pszBase58 := by
  rw [base58Letter, List.getD_eq_getElem?_getD, List.getElem?_eq_getElem hc, Option.getD_some]
  exact List.getElem_mem _

theorem decodeBase58_foreign {str : Bytes} (h0 : 0 ∉ str)
    (h : ¬ ∃ ws s ws' : Bytes, str = ws ++ s ++ ws' ∧ (∀ c ∈ ws ++ ws', isspace c = true) ∧
      ∀ c ∈ s, c ∈ pszBase58) : decodeBase58 str = none := by
  by_contra hsome
  obtain ⟨b, hb⟩ := Option.ne_none_iff_exists'.mp hsome
  obtain ⟨ws, cs, ws', hstr, hws, hcs, hws'⟩ := exists_letters_of_decodeBase58 h0 hb
  refine h ⟨ws, cs.map base58Letter, ws', hstr, List.forall_mem_append.mpr ⟨hws, hws'⟩, ?_⟩
  intro c hc
  obtain ⟨d, hd, rfl⟩ := List.mem_map.mp hc
  exact letter_mem (hcs d hd)

/-! ## The checksum -/

theorem decodeBase58Check_iff (env : Env) (str data : Bytes) :
    decodeBase58Check env str = some data ↔
      ∃ vch, decodeBase58 str = some vch ∧ 4 ≤ vch.length ∧ data = vch.take (vch.length - 4) ∧
        vch.drop (vch.length - 4) = checksum env data := by
  rw [decodeBase58Check, Option.bind_eq_some_iff]
  refine exists_congr fun vch => and_congr_right fun _ => ?_
  dsimp only
  split
  · next hshort => exact iff_of_false (by simp) fun h => by omega
  · next hlong =>
    split
    · next hsum =>
      rw [Option.some.injEq]
      constructor
      · rintro rfl
        exact ⟨by omega, rfl, hsum⟩
      · rintro ⟨-, rfl, -⟩
        rfl
    · next hsum =>
      refine iff_of_false (by simp) ?_
      rintro ⟨-, rfl, h⟩
      exact hsum h

/-- `SetString`: whether there is anything, and the version and the data -/
def CBitcoinAddress.setString (env : Env) (psz : Bytes) : Bool × CBitcoinAddress :=
  match (decodeBase58Check env psz).getD [] with
  | [] => (false, ⟨0, []⟩)
  | nVersion :: vchData => (true, ⟨nVersion, vchData⟩)

theorem CBitcoinAddress.setString_toString (env : Env) (addr : CBitcoinAddress) :
    CBitcoinAddress.setString env (addr.toString env) = (true, addr) := by
  rw [setString, toString, decodeBase58Check_encodeBase58Check]
  rfl

/-- Byte vectors and strings of the letters are in bijection. White space around the letters is
ignored, and nothing else is decoded. With a checksum too what is encoded is decoded, and the version
and the data of an address come back; a string has a checksum if and only if it is decoded to at least
four bytes of which the last four are the first four of the hash of the others. -/
theorem base58_bijection (env : Env) :
    (∀ b : Bytes, decodeBase58 (encodeBase58 b) = some b) ∧
    (∀ s : Bytes, (∀ c ∈ s, c ∈ pszBase58) →
      ∃ b, decodeBase58 s = some b ∧ encodeBase58 b = s) ∧
    (∀ ws s ws' : Bytes, (∀ c ∈ ws ++ ws', isspace c = true) → (∀ c ∈ s, c ∈ pszBase58) →
      decodeBase58 (ws ++ s ++ ws') = decodeBase58 s) ∧
    (∀ str : Bytes, 0 ∉ str →
      (¬ ∃ ws s ws' : Bytes, str = ws ++ s ++ ws' ∧ (∀ c ∈ ws ++ ws', isspace c = true) ∧
        ∀ c ∈ s, c ∈ pszBase58) → decodeBase58 str = none) ∧
    (∀ b : Bytes, decodeBase58Check env (encodeBase58Check env b) = some b) ∧
    (∀ addr : CBitcoinAddress, CBitcoinAddress.setString env (addr.toString env) = (true, addr)) ∧
    ∀ str data : Bytes, decodeBase58Check env str = some data ↔
      ∃ vch, decodeBase58 str = some vch ∧ 4 ≤ vch.length ∧ data = vch.take (vch.length - 4) ∧
        vch.drop (vch.length - 4) = checksum env data := by
  refine ⟨decodeBase58_encodeBase58, fun s => encodeBase58_decodeBase58, fun ws s ws' hws hs => ?_,
    fun str => decodeBase58_foreign, decodeBase58Check_encodeBase58Check env,
    CBitcoinAddress.setString_toString env, decodeBase58Check_iff env⟩
  obtain ⟨hws, hws'⟩ := List.forall_mem_append.mp hws
  exact decodeBase58_spaces hws hs hws'

/-- `"12"` with white space around it -/
theorem base58_bijection_twelve :
    (∃ b, decodeBase58 [49, 50] = some b ∧ encodeBase58 b = [49, 50]) ∧
      decodeBase58 ([32] ++ [49, 50] ++ [10]) = decodeBase58 [49, 50] :=
  have hs : ∀ c ∈ ([49, 50] : Bytes), c ∈ pszBase58 :=
    List.forall_mem_cons.mpr ⟨by decide, List.forall_mem_singleton.mpr (by decide)⟩
  ⟨(base58_bijection Env.plain).2.1 [49, 50] hs,
    (base58_bijection Env.plain).2.2.1 [32] [49, 50] [10] (by simp [isspace]) hs⟩

end ShinyCoin

import ShinyCoin.Core.Env
import ShinyCoin.Lib.Positional
import Mathlib.Data.Nat.Digits.Lemmas
import Mathlib.Data.List.TakeWhile

/-!
# Base58 addresses

`EncodeBase58` / `DecodeBase58` and the checked forms addresses are written in, with the C-string
reading of the decoder. The result the rest of the development needs is that an address survives
being written and read back (`ofString_toString`), whatever the checksum hash is.
-/

namespace ShinyCoin

/-- What a `const char*` reader sees of a buffer: the bytes before the first NUL. -/
def cstr (s : Bytes) : Bytes := s.takeWhile (· != 0)

def isspace (c : UInt8) : Bool := (9 ≤ c && c ≤ 13) || c == 32

/-- `pszBase58`: the digits and letters without `0`, `I`, `O` and `l`. -/
def pszBase58 : Bytes :=
  (List.range' 49 9 ++ List.range' 65 8 ++ List.range' 74 5 ++ List.range' 80 11
    ++ List.range' 97 11 ++ List.range' 109 14).map UInt8.ofNat

/-- The number a big-endian byte string denotes. -/
def bigEndian (vch : Bytes) : Nat := Nat.ofDigits 256 (vch.reverse.map UInt8.toNat)

def encodeBase58 (vch : Bytes) : Bytes :=
  let str := (Nat.digits 58 (bigEndian vch)).map fun c => pszBase58.getD c 0
  let str := str ++ List.replicate (vch.takeWhile (· == 0)).length (pszBase58.getD 0 0)
  str.reverse

/-- The loop of `DecodeBase58` over the characters; `none` on a foreign one. -/
def decodeBase58Digits : Bytes → Nat → Option Nat
  | [], bn => some bn
  | p :: rest, bn =>
      match pszBase58.idxOf? p with
      | none => if ((p :: rest).dropWhile isspace).isEmpty then some bn else none
      | some c => decodeBase58Digits rest (bn * 58 + c)

/-- `CBigNum::getvch` of a non-negative number: little endian, with a sign byte when the top bit of
the last byte is taken. -/
def getvch (bn : Nat) : Bytes :=
  let vch := (Nat.digits 256 bn).map UInt8.ofNat
  if (vch.getLast?.getD 0) ≥ 0x80 then vch ++ [0] else vch

/-- `Trim off sign byte if present`. -/
def trimSignByte (vch : Bytes) : Bytes :=
  match vch.reverse with
  | b :: b' :: _ => if b == 0 && b' ≥ 0x80 then vch.dropLast else vch
  | _ => vch

def decodeBase58 (str : Bytes) : Option Bytes :=
  let psz := (cstr str).dropWhile isspace
  (decodeBase58Digits psz 0).map fun bn =>
    List.replicate (psz.takeWhile (· == pszBase58.getD 0 0)).length 0
      ++ (trimSignByte (getvch bn)).reverse

/-- The first four bytes of the hash, as they lie in memory. -/
def checksum (env : Env) (vch : Bytes) : Bytes :=
  (List.range 4).map fun i => UInt8.ofNat (env.hash vch / 256 ^ i)

def encodeBase58Check (env : Env) (vchIn : Bytes) : Bytes :=
  encodeBase58 (vchIn ++ checksum env vchIn)

def decodeBase58Check (env : Env) (str : Bytes) : Option Bytes :=
  (decodeBase58 str).bind fun vch =>
    let data := vch.take (vch.length - 4)
    if vch.length < 4 then none
    else if vch.drop (vch.length - 4) = checksum env data then some data
    else none

namespace CBitcoinAddress

def toString (env : Env) (addr : CBitcoinAddress) : Bytes :=
  encodeBase58Check env (addr.nVersion :: addr.vchData)

/-- `CBitcoinAddress(strAddress)`: `SetString`, which clears the address when the text is bad. -/
def ofString (env : Env) (str : Bytes) : CBitcoinAddress :=
  match (decodeBase58Check env str).getD [] with
  | [] => ⟨0, []⟩
  | nVersion :: vchData => ⟨nVersion, vchData⟩

end CBitcoinAddress

theorem cstr_eq_self {s : Bytes} : cstr s = s ↔ (0 : UInt8) ∉ s := by
  rw [cstr, List.takeWhile_eq_self_iff]
  constructor
  · intro h h0
    simpa using h 0 h0
  · intro h b hb
    simp only [bne_iff_ne, ne_eq]
    rintro rfl
    exact h hb

/-! ## The alphabet -/

theorem pszBase58_zero : pszBase58.getD 0 0 = 49 := by decide

/-- Each letter stands for its place, is no NUL and no white space, and is `1` only for zero. -/
theorem pszBase58_spec : ∀ c < 58,
    pszBase58.idxOf? (pszBase58.getD c 0) = some c ∧ pszBase58.getD c 0 ≠ 0 ∧
      isspace (pszBase58.getD c 0) = false ∧ (pszBase58.getD c 0 = 49 → c = 0) := by
  decide

/-! ## Decoding what was encoded -/

theorem decodeBase58Digits_map {cs : List Nat} (hcs : ∀ c ∈ cs, c < 58) (bn : Nat) :
    decodeBase58Digits (cs.map fun c => pszBase58.getD c 0) bn
      = some (cs.foldl (fun bn c => bn * 58 + c) bn) := by
  induction cs generalizing bn with
  | nil => rfl
  | cons c cs ih =>
      have hc := pszBase58_spec c (hcs c (by simp))
      rw [List.map_cons, decodeBase58Digits, hc.1]
      exact ih (fun c' hc' => hcs c' (by simp [hc'])) _

/-- The letters of `encodeBase58`, as digits: the leading zeros and the number, big endian. -/
def base58Digits (vch : Bytes) : List Nat :=
  List.replicate (vch.takeWhile (· == 0)).length 0 ++ (Nat.digits 58 (bigEndian vch)).reverse

theorem encodeBase58_eq (vch : Bytes) :
    encodeBase58 vch = (base58Digits vch).map fun c => pszBase58.getD c 0 := by
  simp only [encodeBase58, base58Digits, List.reverse_append, List.reverse_replicate,
    List.map_append, List.map_replicate, List.map_reverse]

theorem base58Digits_lt (vch : Bytes) : ∀ c ∈ base58Digits vch, c < 58 := by
  intro c hc
  rcases List.mem_append.mp hc with hc | hc
  · rw [List.eq_of_mem_replicate hc]; omega
  · exact Nat.digits_lt_base (by omega) (List.mem_reverse.mp hc)

theorem foldl_base58Digits (vch : Bytes) :
    (base58Digits vch).foldl (fun bn c => bn * 58 + c) 0 = bigEndian vch := by
  have hzeros := Lib.value_replicate_append (b := 58) (vch.takeWhile (· == 0)).length
    (Lib.digits 58 (bigEndian vch))
  exact hzeros.trans (Lib.value_digits 58 _)

/-- Letters are neither NUL nor white space, so the decoder starts at the first of them. -/
theorem cstr_encodeBase58 (vch : Bytes) :
    (cstr (encodeBase58 vch)).dropWhile isspace = encodeBase58 vch := by
  have hletter : ∀ b ∈ encodeBase58 vch, b ≠ 0 ∧ isspace b = false := by
    intro b hb
    rw [encodeBase58_eq] at hb
    obtain ⟨c, hc, rfl⟩ := List.mem_map.mp hb
    have := pszBase58_spec c (base58Digits_lt vch c hc)
    exact ⟨this.2.1, this.2.2.1⟩
  have hcstr : cstr (encodeBase58 vch) = encodeBase58 vch := by
    rw [cstr, List.takeWhile_eq_self_iff]
    intro b hb
    simpa using (hletter b hb).1
  rw [hcstr, List.dropWhile_eq_self_iff]
  intro hl
  have := (hletter _ (List.getElem_mem hl)).2
  simp [this]

/-- The decoder counts exactly the zero bytes the encoder counted: the number's own first letter
is not `1`. -/
theorem takeWhile_encodeBase58 (vch : Bytes) :
    ((encodeBase58 vch).takeWhile (· == pszBase58.getD 0 0)).length
      = (vch.takeWhile (· == 0)).length := by
  have hnum : ((Nat.digits 58 (bigEndian vch)).reverse.map fun c => pszBase58.getD c 0).takeWhile
      (· == pszBase58.getD 0 0) = [] := by
    cases hd : (Nat.digits 58 (bigEndian vch)).reverse with
    | nil => rfl
    | cons c cs =>
        have hne : Nat.digits 58 (bigEndian vch) ≠ [] := by
          intro h; simp [h] at hd
        have hlast : (Nat.digits 58 (bigEndian vch)).getLast hne = c := by
          rw [← List.head_reverse (by simpa using hne)]
          simp [hd]
        have hc0 : c ≠ 0 := by
          rw [← hlast]
          apply Nat.getLast_digit_ne_zero 58
          intro h0
          exact hne (by rw [h0]; rfl)
        have hc58 : c < 58 := by
          apply Nat.digits_lt_base (b := 58) (m := bigEndian vch) (by omega)
          rw [← hlast]
          exact List.getLast_mem hne
        rw [List.map_cons, List.takeWhile_cons, if_neg]
        intro h
        apply hc0
        apply (pszBase58_spec c hc58).2.2.2
        rw [pszBase58_zero] at h
        simpa using h
  rw [encodeBase58_eq, base58Digits, List.map_append, List.map_replicate,
    List.takeWhile_append_of_pos]
  · rw [hnum]; simp
  · intro b hb
    rw [List.eq_of_mem_replicate hb]
    simp

theorem trimSignByte_getvch (bn : Nat) :
    trimSignByte (getvch bn) = (Nat.digits 256 bn).map UInt8.ofNat := by
  simp only [getvch]
  generalize hv : (Nat.digits 256 bn).map UInt8.ofNat = vch
  by_cases hsign : vch.getLast?.getD 0 ≥ 0x80
  · -- the sign byte that was put on is taken off again
    rw [if_pos hsign]
    cases hr : vch.reverse with
    | nil =>
        rw [List.reverse_eq_nil_iff.mp hr] at hsign
        exact absurd hsign (by decide)
    | cons b rest =>
        have hb : vch.getLast?.getD 0 = b := by
          rw [List.getLast?_eq_head?_reverse, hr]; rfl
        rw [hb] at hsign
        simp [trimSignByte, List.reverse_append, hr, hsign]
  · -- no sign byte: a last byte of zero would be a redundant digit
    rw [if_neg hsign]
    cases hr : vch.reverse with
    | nil => simp [trimSignByte, hr]
    | cons b rest =>
        cases rest with
        | nil => simp [trimSignByte, hr]
        | cons b' rest' =>
            have hb0 : b ≠ 0 := by
              have hne : Nat.digits 256 bn ≠ [] := by
                intro h; rw [h] at hv; rw [← hv] at hr; simp at hr
              have hbn : bn ≠ 0 := by
                rintro rfl; exact hne rfl
              have hb : b = UInt8.ofNat ((Nat.digits 256 bn).getLast hne) := by
                have h1 : vch.getLast? = some b := by rw [List.getLast?_eq_head?_reverse, hr]; rfl
                rw [← hv, List.getLast?_map, List.getLast?_eq_some_getLast hne] at h1
                simpa using h1.symm
              have hlt := Nat.digits_lt_base (b := 256) (m := bn) (by omega)
                (List.getLast_mem hne)
              have hnz := Nat.getLast_digit_ne_zero 256 hbn
              intro h0
              rw [hb] at h0
              have := congrArg UInt8.toNat h0
              simp only [UInt8.toNat_ofNat', UInt8.toNat_zero] at this
              omega
            simp [trimSignByte, hr, hb0]

/-- A byte string is its leading zeros followed by the digits of its number. -/
theorem replicate_digits_bigEndian (vch : Bytes) :
    List.replicate (vch.takeWhile (· == 0)).length 0
      ++ ((Nat.digits 256 (bigEndian vch)).map UInt8.ofNat).reverse = vch := by
  have hz : List.replicate (vch.takeWhile (· == 0)).length (0 : UInt8) = vch.takeWhile (· == 0) := by
    symm
    rw [List.eq_replicate_iff]
    refine ⟨rfl, fun b hb => ?_⟩
    simpa using List.mem_takeWhile_imp hb
  have hsplit : vch.takeWhile (· == 0) ++ vch.dropWhile (· == 0) = vch :=
    List.takeWhile_append_dropWhile
  have hnum : Nat.digits 256 (bigEndian vch)
      = (vch.dropWhile (· == 0)).reverse.map UInt8.toNat := by
    have hval : bigEndian vch = Nat.ofDigits 256 ((vch.dropWhile (· == 0)).reverse.map UInt8.toNat) := by
      conv_lhs => rw [bigEndian, ← hsplit]
      rw [← hz]
      simp [Nat.ofDigits_append, Nat.ofDigits_replicate_zero]
    rw [hval]
    apply Nat.digits_ofDigits 256 (by omega)
    · intro d hd
      obtain ⟨b, -, rfl⟩ := List.mem_map.mp hd
      exact b.toNat_lt
    · intro hne h0
      have hne' : vch.dropWhile (· == 0) ≠ [] := by
        intro h; simp [h] at hne
      rw [List.getLast_map, List.getLast_reverse] at h0
      have hhead := List.head_dropWhile_not (· == (0 : UInt8)) hne'
      apply Bool.eq_false_iff.mp hhead
      rw [beq_iff_eq]
      exact UInt8.toNat_inj.mp h0
  rw [hz, hnum, List.map_map, List.map_reverse, List.reverse_reverse]
  conv_rhs => rw [← hsplit]
  congr 1
  have hid : ∀ b : UInt8, (UInt8.ofNat ∘ UInt8.toNat) b = b := by intro b; simp
  rw [funext hid]
  exact List.map_id _

theorem decodeBase58_encodeBase58 (vch : Bytes) : decodeBase58 (encodeBase58 vch) = some vch := by
  have hdigits : decodeBase58Digits (encodeBase58 vch) 0 = some (bigEndian vch) := by
    rw [encodeBase58_eq, decodeBase58Digits_map (base58Digits_lt vch), foldl_base58Digits]
  simp only [decodeBase58]
  rw [cstr_encodeBase58, hdigits, takeWhile_encodeBase58, Option.map_some, trimSignByte_getvch,
    replicate_digits_bigEndian]

theorem decodeBase58Check_encodeBase58Check (env : Env) (vch : Bytes) :
    decodeBase58Check env (encodeBase58Check env vch) = some vch := by
  have hlen : (checksum env vch).length = 4 := by simp [checksum]
  simp [decodeBase58Check, encodeBase58Check, decodeBase58_encodeBase58, hlen]

/-- An address survives being written and read back. -/
theorem CBitcoinAddress.ofString_toString (env : Env) (addr : CBitcoinAddress) :
    CBitcoinAddress.ofString env (addr.toString env) = addr := by
  rw [ofString, toString, decodeBase58Check_encodeBase58Check]
  rfl

theorem CBitcoinAddress.toString_inj {env : Env} {addr addr' : CBitcoinAddress}
    (h : addr.toString env = addr'.toString env) : addr = addr' := by
  rw [← ofString_toString env addr, h, ofString_toString]

/-- The text of an address has no NUL in it. -/
theorem CBitcoinAddress.cstr_toString (env : Env) (addr : CBitcoinAddress) :
    cstr (addr.toString env) = addr.toString env := by
  rw [cstr, toString, encodeBase58Check, encodeBase58_eq, List.takeWhile_eq_self_iff]
  intro b hb
  obtain ⟨c, hc, rfl⟩ := List.mem_map.mp hb
  simpa using (pszBase58_spec c (base58Digits_lt _ c hc)).2.1

end ShinyCoin

import ShinyCoin.Core.Types
import ShinyCoin.Lib.Reader
import Mathlib.Logic.Function.Basic

/-!
# The ramhog hash

`ramhog` fills `N` scratchpads of `C` words each with xorshift generators, and walks over them for
`I` steps. Only the last 27 words of the walk go into the hash. `PBKDF2_SHA256`, which makes the
seeds and the hash, enters as a function.
-/

namespace ShinyCoin

/-- `PBKDF2_SHA256(passwd, salt, c, dkLen)` -/
abbrev Pbkdf2 := Bytes → Bytes → Nat → Nat → Bytes

/-- Words as they are in memory -/
def wordBytes (words : List UInt64) : Bytes := words.flatMap fun x => Lib.toLE 8 x.toNat

/-- Word `i` of the bytes -/
def wordAt (bytes : Bytes) (i : Nat) : UInt64 :=
  UInt64.ofNat (Lib.ofLE ((bytes.drop (8 * i)).take 8))

/-! ## The generator -/

/-- `xorshift_ctx`; `last` is never used. -/
structure XorshiftCtx where
  s : Vector UInt64 64
  p : Fin 64

namespace XorshiftCtx

/-- `xorshift_next` -/
def next (ctx : XorshiftCtx) : UInt64 × XorshiftCtx :=
  let s0 := ctx.s[ctx.p]
  let p := ctx.p + 1
  let s1 := ctx.s[p]
  let s1 := s1 ^^^ (s1 <<< 25)
  let s1 := s1 ^^^ (s1 >>> 3)
  let s0 := s0 ^^^ (s0 >>> 49)
  ((s0 ^^^ s1) * 8372773778140471301, { s := ctx.s.set p (s0 ^^^ s1), p := p })

/-- `fullSeed` in `xorshift_pbkdf2_seed` -/
def fullSeed (pbkdf2 : Pbkdf2) (seed salt : Bytes) : Bytes := pbkdf2 seed salt 128 (8 * 65)

/-- `xorshift_pbkdf2_seed` -/
def ofSeed (pbkdf2 : Pbkdf2) (seed salt : Bytes) : XorshiftCtx where
  s := Vector.ofFn fun i => wordAt (fullSeed pbkdf2 seed salt) i
  p := Fin.ofNat 64 ((wordAt (fullSeed pbkdf2 seed salt) 16).toNat)

end XorshiftCtx

/-! ## The scratchpads -/

/-- A scratchpad by its chunks -/
abbrev Pad := Nat → UInt64

/-- The chunk number `chunk` of a pad; from the third one on it may depend on an earlier one. -/
def genChunk (st : XorshiftCtx × Pad) (chunk : Nat) : XorshiftCtx × Pad :=
  let (x, ctx) := st.1.next
  if 2 ≤ chunk ∧ x &&& 511 = 0 then
    let (y, ctx) := ctx.next
    (ctx, Function.update st.2 chunk (x ^^^ st.2 (y.toNat % (chunk / 2) + chunk / 2)))
  else (ctx, Function.update st.2 chunk x)

/-- What `ramhog_gen_pad` starts with -/
def padSeed (pbkdf2 : Pbkdf2) (input : Bytes) (padIndex : Nat) : XorshiftCtx :=
  .ofSeed pbkdf2 input (Lib.toLE 4 padIndex)

/-- How many chunks `ramhog_gen_pad` writes: the first two in any case -/
def padChunks (C : UInt32) : Nat := max 2 C.toNat

/-- `ramhog_gen_pad`, over what was in the pad before -/
def ramhogGenPad (pbkdf2 : Pbkdf2) (input : Bytes) (C : UInt32) (padIndex : Nat) (pad : Pad) : Pad :=
  ((List.range (padChunks C)).foldl genChunk (padSeed pbkdf2 input padIndex, pad)).2

/-! ## The walk -/

/-- `finalChunks`: 32 words of each pad, from `C - 1 - 32` on -/
def finalChunks (N C : UInt32) (pads : Nat → Pad) : List UInt64 :=
  (List.range N.toNat).flatMap fun padIndex =>
    (List.range 32).map fun j => pads padIndex ((C - 1 - 32).toNat + j)

/-- The salt of the walk's seed: as many bytes from there as `sizeof(uint64_t) * N` -/
def walkSalt (N C : UInt32) (pads : Nat → Pad) : Bytes :=
  (wordBytes (finalChunks N C pads)).take (8 * N.toNat)

/-- `(X & 0xffffffff00000000L) % N` -/
def padOf (N : UInt32) (X : UInt64) : Nat := ((X &&& 0xffffffff00000000) % N.toUInt64).toNat

/-- `(X & 0x00000000ffffffffL) % C` -/
def chunkOf (C : UInt32) (X : UInt64) : Nat := ((X &&& 0x00000000ffffffff) % C.toUInt64).toNat

/-- One step of the walk -/
def walkStep (N C : UInt32) (pads : Nat → Pad) (st : XorshiftCtx × UInt64) : XorshiftCtx × UInt64 :=
  let (x, ctx) := st.1.next
  (ctx, pads (padOf N st.2) (chunkOf C st.2) ^^^ x)

/-- The steps whose `X` goes into `finalSalt` -/
def walkWords (N C : UInt32) (pads : Nat → Pad) : Nat → XorshiftCtx × UInt64 → List UInt64
  | 0, _ => []
  | n + 1, st =>
      let st := walkStep N C pads st
      st.2 :: walkWords N C pads n st

/-- Where the walk starts -/
def walkStart (pbkdf2 : Pbkdf2) (input : Bytes) (N C : UInt32) (pads : Nat → Pad) :
    XorshiftCtx × UInt64 :=
  let (X, ctx) := (XorshiftCtx.ofSeed pbkdf2 input (walkSalt N C pads)).next
  (ctx, X)

/-- `ramhog_run_iterations` -/
def ramhogRunIterations (pbkdf2 : Pbkdf2) (input : Bytes) (output_size : Nat) (N C I : UInt32)
    (pads : Nat → Pad) : Bytes :=
  let st := (walkStep N C pads)^[(I - (32 - 5)).toNat] (walkStart pbkdf2 input N C pads)
  let finalSalt := [N.toUInt64, C.toUInt64, I.toUInt64, UInt64.ofNat input.length,
    UInt64.ofNat output_size] ++ walkWords N C pads 27 st
  pbkdf2 input (wordBytes finalSalt) 1 output_size

/-- `ramhog`: the output, whatever the scratchpads held before -/
def ramhog (pbkdf2 : Pbkdf2) (input : Bytes) (output_size : Nat) (N C I : UInt32)
    (scratchpads : Nat → Pad) : Bytes :=
  ramhogRunIterations pbkdf2 input output_size N C I fun padIndex =>
    ramhogGenPad pbkdf2 input C padIndex (scratchpads padIndex)

/-! ## Which pads the walk depends on -/

def MAIN_SHINY_PADS : UInt32 := 16

/-- The two halves of `X` are masked in place: the upper one is a multiple of `2 ^ 32`. -/
theorem padOf_main (X : UInt64) : padOf MAIN_SHINY_PADS X = 0 := by
  have hlow : (X.toNat &&& 0xffffffff00000000) % 2 ^ 4 = 0 := by
    rw [← Nat.and_two_pow_sub_one_eq_mod, Nat.and_assoc]
    exact Nat.and_zero _
  have hmask : (0xffffffff00000000 : UInt64).toNat = 0xffffffff00000000 := by decide
  have hN : MAIN_SHINY_PADS.toUInt64.toNat = 2 ^ 4 := by decide
  unfold padOf
  rw [UInt64.toNat_mod, UInt64.toNat_and, hmask, hN]
  exact hlow

theorem length_wordBytes (words : List UInt64) : (wordBytes words).length = 8 * words.length := by
  simp [wordBytes, mul_comm]

/-- The salt ends within the words of the first pad. -/
theorem walkSalt_main (C : UInt32) (pads : Nat → Pad) :
    walkSalt MAIN_SHINY_PADS C pads
      = wordBytes ((List.range 16).map fun j => pads 0 ((C - 1 - 32).toNat + j)) := by
  have hN : MAIN_SHINY_PADS.toNat = 16 := rfl
  have hsplit : finalChunks MAIN_SHINY_PADS C pads
      = ((List.range 16).map fun j => pads 0 ((C - 1 - 32).toNat + j))
        ++ (((List.range 16).map fun j => pads 0 ((C - 1 - 32).toNat + (16 + j)))
          ++ (List.range 15).flatMap fun q =>
            (List.range 32).map fun j => pads (q + 1) ((C - 1 - 32).toNat + j)) := by
    unfold finalChunks
    rw [hN]
    rfl
  unfold walkSalt
  rw [hsplit, hN]
  unfold wordBytes
  rw [List.flatMap_append]
  apply List.take_left'
  exact (length_wordBytes _).trans (by rw [List.length_map, List.length_range])

/-- No two salts of the walk have one seed. -/
def Pbkdf2.Injective (pbkdf2 : Pbkdf2) (N : UInt32) : Prop :=
  ∀ passwd salt salt', salt.length = 8 * N.toNat → salt'.length = 8 * N.toNat →
    XorshiftCtx.fullSeed pbkdf2 passwd salt = XorshiftCtx.fullSeed pbkdf2 passwd salt' → salt = salt'

/-- Scratchpads that differ in one pad at most -/
def SameButFor (p : Nat) (pads pads' : Nat → Pad) : Prop := ∀ q, q ≠ p → pads q = pads' q

/-- Some state makes the walk read the pad, and the seed of the walk depends on it. -/
def UsesPad (pbkdf2 : Pbkdf2) (N C : UInt32) (p : Nat) : Prop :=
  (∃ X, padOf N X = p) ∧
    ∀ input, ∃ pads pads', SameButFor p pads pads' ∧
      XorshiftCtx.fullSeed pbkdf2 input (walkSalt N C pads)
        ≠ XorshiftCtx.fullSeed pbkdf2 input (walkSalt N C pads')

/-- The hash is the same whatever is in the pad. -/
def IgnoresPad (pbkdf2 : Pbkdf2) (N C I : UInt32) (p : Nat) : Prop :=
  ∀ input output_size pads pads', SameButFor p pads pads' →
    ramhogRunIterations pbkdf2 input output_size N C I pads
      = ramhogRunIterations pbkdf2 input output_size N C I pads'

section

variable {pbkdf2 : Pbkdf2} {C I : UInt32} {p : Nat} {pads pads' : Nat → Pad}

theorem walkStep_main (h : pads 0 = pads' 0) :
    walkStep MAIN_SHINY_PADS C pads = walkStep MAIN_SHINY_PADS C pads' := by
  funext st
  simp only [walkStep, padOf_main, h]

theorem walkWords_main (h : pads 0 = pads' 0) (n : Nat) (st : XorshiftCtx × UInt64) :
    walkWords MAIN_SHINY_PADS C pads n st = walkWords MAIN_SHINY_PADS C pads' n st := by
  induction n generalizing st with
  | zero => rfl
  | succ n ih =>
      unfold walkWords
      dsimp only
      rw [walkStep_main h, ih]

/-- The hash depends on the first pad only. -/
theorem ignoresPad_main (hp : p ≠ 0) : IgnoresPad pbkdf2 MAIN_SHINY_PADS C I p := by
  intro input output_size pads pads' hsame
  have hfirst : pads 0 = pads' 0 := hsame 0 (Ne.symm hp)
  have hstart : walkStart pbkdf2 input MAIN_SHINY_PADS C pads
      = walkStart pbkdf2 input MAIN_SHINY_PADS C pads' := by
    unfold walkStart
    rw [walkSalt_main, walkSalt_main, hfirst]
  unfold ramhogRunIterations
  dsimp only
  rw [hstart, walkStep_main hfirst, walkWords_main hfirst]

theorem length_walkSalt_main (C : UInt32) (pads : Nat → Pad) :
    (walkSalt MAIN_SHINY_PADS C pads).length = 8 * MAIN_SHINY_PADS.toNat := by
  rw [walkSalt_main, length_wordBytes, List.length_map, List.length_range]
  rfl

theorem usesPad_zero (hinj : pbkdf2.Injective MAIN_SHINY_PADS) :
    UsesPad pbkdf2 MAIN_SHINY_PADS C 0 := by
  refine ⟨⟨0, padOf_main 0⟩, fun input => ⟨fun _ _ => 0, fun q _ => if q = 0 then 1 else 0, ?_, ?_⟩⟩
  · intro q hq
    funext chunk
    exact (if_neg hq).symm
  · intro hseed
    have hsalt := hinj _ _ _ (length_walkSalt_main _ _) (length_walkSalt_main _ _) hseed
    rw [walkSalt_main, walkSalt_main] at hsalt
    exact absurd hsalt (by decide)

/-- Of the pads of the main network the walk uses the first one, and the hash ignores the others. -/
theorem usesPad_iff (hinj : pbkdf2.Injective MAIN_SHINY_PADS) :
    (UsesPad pbkdf2 MAIN_SHINY_PADS C p ↔ p = 0) ∧
      (p ≠ 0 → IgnoresPad pbkdf2 MAIN_SHINY_PADS C I p) := by
  refine ⟨⟨?_, ?_⟩, ignoresPad_main⟩
  · rintro ⟨⟨X, hX⟩, -⟩
    rw [padOf_main] at hX
    exact hX.symm
  · rintro rfl
    exact usesPad_zero hinj

end

/-- A stand-in that gives the salt, as far as there is room, and then the password -/
def Pbkdf2.keep : Pbkdf2 := fun passwd salt _ dkLen =>
  (salt ++ passwd ++ List.replicate dkLen 0).take dkLen

theorem Pbkdf2.keep_injective : Pbkdf2.keep.Injective MAIN_SHINY_PADS := by
  intro passwd salt salt' hlen hlen' h
  have htake : ∀ salt : Bytes, salt.length = 8 * MAIN_SHINY_PADS.toNat →
      (XorshiftCtx.fullSeed Pbkdf2.keep passwd salt).take (8 * MAIN_SHINY_PADS.toNat) = salt := by
    intro salt hlen
    have hroom : 8 * MAIN_SHINY_PADS.toNat ≤ 8 * 65 := by decide
    unfold XorshiftCtx.fullSeed Pbkdf2.keep
    rw [List.take_take, min_eq_left hroom, List.append_assoc]
    exact List.take_left' hlen
  rw [← htake salt hlen, h, htake salt' hlen']

theorem usesPad_iff_second :
    (UsesPad Pbkdf2.keep MAIN_SHINY_PADS 64 1 ↔ 1 = 0) ∧
      (1 ≠ 0 → IgnoresPad Pbkdf2.keep MAIN_SHINY_PADS 64 32 1) :=
  usesPad_iff Pbkdf2.keep_injective

/-- The second pad is never read. -/
theorem not_usesPad_second :
    ¬ ∀ (pbkdf2 : Pbkdf2) (C I : UInt32) (p : Nat), pbkdf2.Injective MAIN_SHINY_PADS → 64 ≤ C →
      32 ≤ I → p < MAIN_SHINY_PADS.toNat → UsesPad pbkdf2 MAIN_SHINY_PADS C p := by
  intro hall
  obtain ⟨⟨X, hX⟩, -⟩ := hall Pbkdf2.keep 64 32 1 Pbkdf2.keep_injective (by decide) (by decide)
    (by decide)
  rw [padOf_main] at hX
  cases hX

end ShinyCoin

import ShinyCoin.Script.Solver
import ShinyCoin.Script.Execution
import Mathlib.Algebra.Order.BigOperators.Group.List
import Mathlib.Algebra.Group.Nat.Defs
import Mathlib.Algebra.Group.Action.Defs

/-!
# Running the templates

What a standard script does with signatures (and the public key) on the stack: if they are right, it
leaves `true` and nothing else. The script drops its own signatures before they are checked, and
finds none, as it pushes keys and hashes only.
-/

namespace ShinyCoin

variable {senv : EvalEnv} {script : CScript} {sig key vch : Bytes} {n : Nat}
  {ops : List (OpcodeType × Bytes)}

/-- Signatures that the script does not push are not there to be dropped. -/
theorem dropSignatures_eq {sigs : List Bytes} (hparses : Parses script ops)
    (hsigs : ∀ sig ∈ sigs, sig.length < 2 ^ 32 ∧ sig ∉ ops.map Prod.snd) :
    dropSignatures sigs script = script := by
  induction sigs with
  | nil => rfl
  | cons sig sigs ih =>
      obtain ⟨hlen, hnot⟩ := hsigs sig List.mem_cons_self
      unfold dropSignatures
      rw [List.foldl_cons, hparses.findAndDelete_pushData hlen hnot]
      exact ih fun sig hmem => hsigs sig (List.mem_cons_of_mem _ hmem)

/-- `<pubkey> OP_CHECKSIG` on a signature -/
theorem evalScript_pubkey {opcode : OpcodeType}
    (hparses : Parses script [(opcode, key), (OP_CHECKSIG, [])]) (hkey : PubKeySize key)
    (hsig : sig.length < 2 ^ 32) (hne : sig ≠ key) (hnil : sig ≠ [])
    (hcheck : senv.checkSig sig key script = true) :
    evalScript senv [sig] script = some [vchTrue] := by
  have hlen := hparses.length_le
  have hdrop : dropSignatures [sig] script = script := by
    apply dropSignatures_eq hparses
    simpa [hne, hnil] using hsig
  obtain ⟨hmin, hmax⟩ := hkey
  simp only [List.map_cons, List.map_nil, List.sum_cons, List.sum_nil, List.length_nil] at hlen
  cases hparses with
  | cons hget hrest =>
      cases hrest with
      | cons hget' hrest =>
          cases hrest with
          | nil =>
              have hpush : opcode ≤ OP_PUSHDATA4 := getOp_push hget (by rintro rfl; simp at hmin)
              have hexec : execOp senv OP_CHECKSIG [] true (.plain [key, sig] 1 script)
                  = some (.plain [vchTrue] 1 script) := by
                show some (EvalState.plain [boolVch (senv.checkSig sig key
                  (dropSignatures [sig] script))] 1 script) = _
                rw [hdrop, hcheck]
                rfl
              unfold evalScript
              rw [if_neg (by omega), show ({ stack := [sig], scriptCode := script } : EvalState)
                = .plain [sig] 0 script from rfl, evalFrom_push hget hpush (by omega) (by simp),
                evalFrom_exec hget' (by decide) (by decide) (by simp) hexec (by simp), evalFrom_nil]
              rfl

/-- `OP_DUP OP_HASH160 <hash> OP_EQUALVERIFY OP_CHECKSIG` on a signature and a key -/
theorem evalScript_pubkeyhash {opcode : OpcodeType} {hash160 : Bytes}
    (hparses : Parses script [(OP_DUP, []), (OP_HASH160, []), (opcode, hash160),
      (OP_EQUALVERIFY, []), (OP_CHECKSIG, [])]) (hsize : hash160.length = 20)
    (hhash : senv.hash160 key = hash160) (hsig : sig.length < 2 ^ 32) (hne : sig ≠ hash160)
    (hnil : sig ≠ []) (hcheck : senv.checkSig sig key script = true) :
    evalScript senv [key, sig] script = some [vchTrue] := by
  have hlen := hparses.length_le
  have hdrop : dropSignatures [sig] script = script := by
    apply dropSignatures_eq hparses
    simpa [hne, hnil] using hsig
  simp only [List.map_cons, List.map_nil, List.sum_cons, List.sum_nil, List.length_nil] at hlen
  cases hparses with
  | cons hget₁ hrest =>
  cases hrest with
  | cons hget₂ hrest =>
  cases hrest with
  | cons hget₃ hrest =>
  cases hrest with
  | cons hget₄ hrest =>
  cases hrest with
  | cons hget₅ hrest =>
  cases hrest with
  | nil =>
      have hpush : opcode ≤ OP_PUSHDATA4 := getOp_push hget₃ (by rintro rfl; simp at hsize)
      have hdup : ∀ pc, execOp senv OP_DUP pc true (.plain [key, sig] 1 script)
          = some (.plain [key, key, sig] 1 script) := fun _ => rfl
      have hhash160 : ∀ pc, execOp senv OP_HASH160 pc true (.plain [key, key, sig] 2 script)
          = some (.plain [senv.hash160 key, key, sig] 2 script) := fun _ => rfl
      have hverify : ∀ pc, execOp senv OP_EQUALVERIFY pc true
          (.plain [hash160, hash160, key, sig] 3 script) = some (.plain [key, sig] 3 script) := by
        intro pc
        show (some (EvalState.plain (boolVch (hash160 == hash160) :: [key, sig]) 3 script)).bind
          execVerify = _
        rw [BEq.rfl]
        rfl
      have hexec : execOp senv OP_CHECKSIG [] true (.plain [key, sig] 4 script)
          = some (.plain [vchTrue] 4 script) := by
        show some (EvalState.plain [boolVch (senv.checkSig sig key
          (dropSignatures [sig] script))] 4 script) = _
        rw [hdrop, hcheck]
        rfl
      unfold evalScript
      rw [if_neg (by omega), show ({ stack := [key, sig], scriptCode := script } : EvalState)
        = .plain [key, sig] 0 script from rfl,
        evalFrom_exec hget₁ (by decide) (by decide) (by simp) (hdup _) (by simp),
        evalFrom_exec hget₂ (by decide) (by decide) (by simp) (hhash160 _) (by simp),
        hhash, evalFrom_push hget₃ hpush (by omega) (by simp),
        evalFrom_exec hget₄ (by decide) (by decide) (by simp) (hverify _) (by simp),
        evalFrom_exec hget₅ (by decide) (by decide) (by simp) hexec (by simp), evalFrom_nil]
      rfl

theorem smallInteger_push {opcode : OpcodeType} (hop : isSmallInteger opcode = true)
    (hpos : 0 < decodeOP_N opcode) :
    OP_PUSHDATA4 < opcode ∧ ¬ OP_16 < opcode ∧ opcode ∉ disabledOpcodes := by
  obtain ⟨hmin, hmax⟩ := smallInteger_range hop hpos
  refine ⟨UInt8.lt_of_lt_of_le (by decide) hmin, UInt8.not_lt.mpr hmax, ?_⟩
  intro hmem
  have hcontains := not_disabled_of_le hmax
  rw [List.contains_iff_mem.mpr hmem] at hcontains
  cases hcontains

/-- A small integer that is not zero is pushed as a number. -/
theorem execOp_smallInteger {opcode : OpcodeType} {pc code : CScript} {stack : List Bytes}
    (hop : isSmallInteger opcode = true) (hpos : 0 < decodeOP_N opcode) :
    execOp senv opcode pc true (.plain stack n code)
      = some (.plain (CBigNum.getvch (decodeOP_N opcode) :: stack) n code) := by
  have hrange := smallInteger_range hop hpos
  have hle : OP_1.toNat ≤ opcode.toNat := UInt8.le_iff_toNat_le.mp hrange.1
  have hnum : (opcode.toNat : ℤ) - (OP_1.toNat - 1) = (decodeOP_N opcode : ℤ) := by
    have h1 : OP_1.toNat = 81 := rfl
    have hne : opcode ≠ OP_0 := by
      rintro rfl
      exact absurd hpos (by decide)
    unfold decodeOP_N
    rw [if_neg hne]
    omega
  unfold execOp instruction
  rw [if_pos (Or.inr hrange), Option.bind_some, hnum]
  rfl

section

variable {m : Nat} {sigs keys : List Bytes}

theorem counts_getvch {k : Nat} (hpos : 0 < k) (hle : k ≤ 20) : Counts (CBigNum.getvch k) k := by
  unfold Counts
  rw [castToBigNum_small hpos (by omega), Option.map_some, CBigNum.getint_of_small (by omega)]

/-- `OP_CHECKMULTISIG` where the signatures are right for keys, in their order -/
theorem execOp_checkMultiSig {pc : CScript} (hm : 0 < sigs.length) (hle : sigs.length ≤ keys.length)
    (hmax : keys.length ≤ 16) (hdrop : dropSignatures sigs.reverse script = script)
    (hcheck : List.SublistForall₂ (fun sig key => senv.checkSig sig key script = true) sigs keys) :
    execOp senv OP_CHECKMULTISIG pc true (.plain (CBigNum.getvch keys.length :: (keys.reverse
      ++ CBigNum.getvch sigs.length :: (sigs.reverse ++ [[]]))) 1 script)
      = some (.plain [vchTrue] (1 + keys.length) script) := by
  have hmatch : Lib.greedyMatch (fun vchSig vchPubKey => senv.checkSig vchSig vchPubKey script)
      sigs.reverse keys.reverse = true := by
    rw [Lib.greedyMatch_iff, Lib.sublistForall₂_reverse]
    exact hcheck
  have hholds : HoldsMultiSig (EvalState.plain (CBigNum.getvch keys.length :: (keys.reverse
      ++ CBigNum.getvch sigs.length :: (sigs.reverse ++ [[]]))) 1 script).stack sigs keys [] :=
    ⟨⟨_, _, [], counts_getvch (by omega) (by omega), counts_getvch hm (by omega), rfl⟩, hle,
      by omega⟩
  show (execCheckMultiSig senv _).bind some = _
  rw [Option.bind_fun_some, execCheckMultiSig_eq hholds, EvalState.plain_nOpCount,
    if_neg (by omega)]
  dsimp only
  rw [EvalState.plain_scriptCode, hdrop, hmatch]
  rfl

theorem MultiSigScript.length_le (h : MultiSigScript script m keys) : script.length ≤ 10000 := by
  obtain ⟨opM, opN, pushes, hpushes, hparses, -⟩ := h.parses
  have hsum : ((keys.map fun key => key.length + 5)).sum ≤ keys.length * 125 := by
    rw [← smul_eq_mul, ← List.length_map (fun key : Bytes => key.length + 5)]
    apply List.sum_le_card_nsmul
    intro x hx
    obtain ⟨key, hkey, rfl⟩ := List.mem_map.mp hx
    have := (h.size key hkey).2
    omega
  have hmax := h.keys_le
  have hlen := hparses.length_le
  rw [← hpushes, List.map_map] at hsum
  simp only [List.map_cons, List.map_append, List.sum_cons, List.sum_append, List.length_nil,
    List.map_nil, List.sum_nil] at hlen
  have hsame : ((pushes.map ((fun key : Bytes => key.length + 5) ∘ Prod.snd))).sum
      = (pushes.map fun op => op.2.length + 5).sum := rfl
  have hcount : (List.map Prod.snd pushes).length = keys.length := by rw [hpushes]
  rw [hsame, hcount] at hsum
  omega

/-- `OP_m <keys> OP_n OP_CHECKMULTISIG` on signatures for as many of the keys, in their order -/
theorem evalScript_multisig (h : MultiSigScript script m keys) (hm : sigs.length = m)
    (hsigs : ∀ sig ∈ sigs, sig.length < 2 ^ 32 ∧ sig ∉ keys ∧ sig ≠ [])
    (hcheck : List.SublistForall₂ (fun sig key => senv.checkSig sig key script = true) sigs keys) :
    evalScript senv ([] :: sigs).reverse script = some [vchTrue] := by
  obtain ⟨opM, opN, pushes, hpushes, hparses, hopM, hM, hopN, hN⟩ := h.parses
  have hpos := h.pos
  have hle := h.le
  have hmax := h.keys_le
  have hlen := h.length_le
  obtain ⟨hltM, hM16, hdisM⟩ := smallInteger_push hopM (by omega)
  obtain ⟨hltN, hN16, hdisN⟩ := smallInteger_push hopN (by omega)
  have hops : ∀ op ∈ pushes, op.1 ≤ OP_PUSHDATA4 ∧ op.2.length ≤ 520 := by
    intro op hmem
    obtain ⟨hmin, hmax⟩ := h.size op.2 (hpushes ▸ List.mem_map_of_mem hmem)
    refine ⟨hparses.push (by simp [hmem]) ?_, hmax.trans (by decide)⟩
    intro hdata
    rw [hdata] at hmin
    exact absurd hmin (by decide)
  have hdrop : dropSignatures sigs.reverse script = script := by
    apply dropSignatures_eq hparses
    intro sig hmem
    obtain ⟨hlen, hkey, hne⟩ := hsigs sig (List.mem_reverse.mp hmem)
    refine ⟨hlen, ?_⟩
    simpa [hne, hpushes] using hkey
  have hcount : pushes.length = keys.length := by
    rw [← hpushes, List.length_map]
  subst hm
  cases hparses with
  | @cons _ rest _ _ _ hgetM hrest =>
  obtain ⟨after, hafter, hrun⟩ := evalFrom_pushes senv script hrest hops (by
    show pushes.length + (CBigNum.getvch sigs.length :: (sigs.reverse ++ [[]])).length ≤ 1000
    simp only [List.length_cons, List.length_append, List.length_reverse, List.length_nil]
    omega)
  cases hafter with
  | @cons _ rest' _ _ _ hgetN hrest =>
  cases hrest with
  | cons hget hrest =>
  cases hrest with
  | nil =>
      have hpushM : execOp senv opM rest true (.plain (sigs.reverse ++ [[]])
          (if OP_16 < opM then 0 + 1 else 0) script)
          = some (.plain (CBigNum.getvch sigs.length :: (sigs.reverse ++ [[]])) 0 script) := by
        rw [execOp_smallInteger hopM (by omega), if_neg hM16, hM]
      have hpushN : execOp senv opN rest' true (.plain (keys.reverse ++
          CBigNum.getvch sigs.length :: (sigs.reverse ++ [[]])) (if OP_16 < opN then 0 + 1 else 0) script)
          = some (.plain (CBigNum.getvch keys.length :: (keys.reverse ++
            CBigNum.getvch sigs.length :: (sigs.reverse ++ [[]]))) 0 script) := by
        rw [execOp_smallInteger hopN (by omega), if_neg hN16, hN]
      have hstack : ({ stack := ([] :: sigs).reverse, scriptCode := script } : EvalState)
          = .plain (sigs.reverse ++ [[]]) 0 script := by
        rw [List.reverse_cons]
        rfl
      unfold evalScript
      rw [if_neg (by omega), hstack,
        evalFrom_exec hgetM hltM hdisM (fun hlt => absurd hlt hM16) hpushM (by simp; omega), hrun,
        hpushes, evalFrom_exec hgetN hltN hdisN (fun hlt => absurd hlt hN16) hpushN (by simp; omega),
        evalFrom_exec hget (by decide) (by decide) (by simp)
          (execOp_checkMultiSig hpos hle hmax hdrop hcheck) (by simp), evalFrom_nil]
      rfl

end

/-! ## Pay to script hash -/

/-- `OP_HASH160 <hash> OP_EQUAL` on the script with this hash -/
theorem evalScript_scripthash (senv : EvalEnv) {subscript : CScript} (stack : List Bytes)
    (hscript : isPayToScriptHash script = true)
    (hhash : senv.hash160 subscript = (script.drop 2).take 20) (hsize : stack.length ≤ 900) :
    evalScript senv (subscript :: stack) script = some (vchTrue :: stack) := by
  obtain ⟨hash, hlen, hdata, rfl⟩ := isPayToScriptHash_eq hscript
  rw [hdata] at hhash
  obtain ⟨opcode, hop, hget⟩ := getOp_pushData (b := hash) (by omega) [OP_EQUAL]
  generalize hcode : OP_HASH160 :: (pushData hash ++ [OP_EQUAL]) = code
  have hparse : getOp code = some (OP_HASH160, [], pushData hash ++ [OP_EQUAL]) := by
    rw [← hcode]
    exact getOp_cons_of_lt (by decide)
  have hhash160 : execOp senv OP_HASH160 (pushData hash ++ [OP_EQUAL]) true
      (.plain (subscript :: stack) 1 code) = some (.plain (hash :: stack) 1 code) := by
    show some (EvalState.plain (senv.hash160 subscript :: stack) 1 code) = _
    rw [hhash]
  have hequal : execOp senv OP_EQUAL [] true (.plain (hash :: hash :: stack) 2 code)
      = some (.plain (vchTrue :: stack) 2 code) := by
    show some (EvalState.plain (boolVch (hash == hash) :: stack) 2 code) = _
    rw [BEq.rfl]
    rfl
  have hcodelen : code.length ≤ 10000 := by
    rw [← hcode]
    unfold isPayToScriptHash at hscript
    simp only [Bool.and_eq_true, beq_iff_eq] at hscript
    omega
  unfold evalScript
  rw [if_neg (by omega), show ({ stack := subscript :: stack, scriptCode := code } : EvalState)
    = .plain (subscript :: stack) 0 code from rfl,
    evalFrom_exec hparse (by decide) (by decide) (by simp) hhash160 (by simp; omega),
    evalFrom_push hget hop (by omega) (by simp; omega),
    evalFrom_exec (getOp_cons_of_lt (by decide)) (by decide) (by decide) (by simp) hequal
      (by simp; omega), evalFrom_nil]
  rfl

end ShinyCoin

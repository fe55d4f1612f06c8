import ShinyCoin.Script.Eval
import ShinyCoin.Lib.Matching

/-!
# OP_CHECKMULTISIG

The loop takes the signatures and the keys from the top of the stack down, which is from the last
one of each, and gives every signature the next key that it is right for. So it finds an assignment
in order if there is one. It reads the elements it takes off the stack and no others.
-/

namespace ShinyCoin

variable {senv : EvalEnv} {st : EvalState} {stack : List Bytes}

/-- The element is this number. -/
def Counts (vch : Bytes) (n : Nat) : Prop :=
  (castToBigNum vch).map CBigNum.getint = some (n : ℤ)

theorem countAt_of_counts {vch : Bytes} {i n : Nat} {nMax : ℤ} (htop : stacktop stack i = some vch)
    (hvch : Counts vch n) (hmax : n ≤ nMax) : countAt stack i nMax = some n := by
  obtain ⟨bn, hbn, hn⟩ := Option.map_eq_some_iff.mp hvch
  unfold countAt
  rw [htop, Option.bind_some, hbn, Option.bind_some]
  dsimp only
  rw [hn, if_neg (by omega), Int.toNat_natCast]

/-- What a stack has from a position on, it has there. -/
theorem stacktop_of_drop {l : List Bytes} {vch : Bytes} {i : Nat}
    (h : stack.drop (i - 1) = vch :: l) : stacktop stack i = some vch := by
  unfold stacktop
  rw [← Nat.add_zero (i - 1), ← List.getElem?_drop, h]
  rfl

theorem drop_succ_of_drop {l : List Bytes} {vch : Bytes} {i : Nat} (hi : 0 < i)
    (h : stack.drop (i - 1) = vch :: l) : stack.drop (i + 1 - 1) = l := by
  rw [show i + 1 - 1 = (i - 1) + 1 by omega, ← List.drop_drop, h]
  rfl

/-- The loop over signatures and keys that lie on the stack from `isig` and `ikey` on -/
theorem multiSigLoop_eq (check : Bytes → Bytes → Bool) {sigs keys sigsEnd keysEnd : List Bytes} {isig ikey : Nat}
    (hisig : 0 < isig) (hikey : 0 < ikey) (hsigs : stack.drop (isig - 1) = sigs ++ sigsEnd)
    (hkeys : stack.drop (ikey - 1) = keys ++ keysEnd) (hle : sigs.length ≤ keys.length) :
    multiSigLoop check stack isig ikey sigs.length keys.length
      = some (Lib.greedyMatch check sigs keys) := by
  induction keys generalizing sigs isig ikey with
  | nil =>
      rw [List.length_nil, Nat.le_zero, List.length_eq_zero_iff] at hle
      rw [hle]
      rfl
  | cons key keys ih =>
      cases sigs with
      | nil =>
          rw [Lib.greedyMatch_nil]
          rfl
      | cons sig sigs =>
          rw [List.length_cons, List.length_cons] at hle
          have hnext := drop_succ_of_drop hikey hkeys
          rw [List.length_cons, List.length_cons, multiSigLoop, if_neg (Nat.succ_ne_zero _),
            stacktop_of_drop hsigs, Option.bind_some, stacktop_of_drop hkeys, Option.bind_some,
            Lib.greedyMatch]
          dsimp only
          by_cases hmatch : check sig key = true
          · rw [if_pos hmatch, if_pos hmatch, if_pos hmatch, Nat.add_sub_cancel,
              if_neg (by omega)]
            exact ih (Nat.succ_pos _) (Nat.succ_pos _) (drop_succ_of_drop hisig hsigs) hnext
              (by omega)
          · rw [if_neg hmatch, if_neg hmatch, if_neg hmatch]
            by_cases hfew : keys.length < sigs.length + 1
            · rw [if_pos hfew, Lib.greedyMatch_of_length_lt hfew]
            · rw [if_neg hfew]
              exact ih hisig (Nat.succ_pos _) hsigs hnext (by rw [List.length_cons]; omega)

theorem mapM_stacktop {l rest : List Bytes} {i : Nat} (hi : 0 < i)
    (h : stack.drop (i - 1) = l ++ rest) :
    ((List.range l.length).mapM fun k => stacktop stack (i + k)) = some l := by
  induction l generalizing i with
  | nil => rfl
  | cons vch l ih =>
      have hrest := ih (Nat.succ_pos _) (drop_succ_of_drop hi h)
      have hnext : ((List.range l.length).mapM fun k => stacktop stack (i + (k + 1))) = some l := by
        rw [← hrest]
        congr 1
        funext k
        rw [show i + (k + 1) = i + 1 + k by omega]
      rw [List.length_cons, List.range_succ_eq_map, List.mapM_cons, List.mapM_map, Nat.add_zero,
        stacktop_of_drop h]
      show (some vch).bind _ = _
      rw [Option.bind_some]
      show ((List.range l.length).mapM fun k => stacktop stack (i + (k + 1))).bind _ = _
      rw [hnext]
      rfl

/-- `m` signatures and `n` keys on the stack, each under their number, with one element below. -/
structure HoldsMultiSig (stack sigs keys rest : List Bytes) : Prop where
  stack : ∃ vchKeys vchSigs dummy : Bytes, Counts vchKeys keys.length ∧
    Counts vchSigs sigs.length ∧
    stack = vchKeys :: (keys.reverse ++ vchSigs :: (sigs.reverse ++ dummy :: rest))
  sigs_le : sigs.length ≤ keys.length
  keys_le : keys.length ≤ 20

theorem execCheckMultiSig_eq {sigs keys rest : List Bytes}
    (h : HoldsMultiSig st.stack sigs keys rest) :
    execCheckMultiSig senv st =
      if 201 < st.nOpCount + keys.length then none
      else
        let scriptCode := dropSignatures sigs.reverse st.scriptCode
        some { st with
          stack := boolVch (Lib.greedyMatch
            (fun vchSig vchPubKey => senv.checkSig vchSig vchPubKey scriptCode)
            sigs.reverse keys.reverse) :: rest
          nOpCount := st.nOpCount + keys.length } := by
  obtain ⟨⟨vchKeys, vchSigs, dummy, hkeys, hsigs, hstack⟩, hle, hmax⟩ := h
  have hkeysAt : st.stack.drop (2 - 1)
      = keys.reverse ++ vchSigs :: (sigs.reverse ++ dummy :: rest) := by
    rw [hstack]
    rfl
  have hsigsAt : st.stack.drop (2 + keys.length - 1)
      = vchSigs :: (sigs.reverse ++ dummy :: rest) := by
    rw [show 2 + keys.length - 1 = (2 - 1) + keys.length by omega, ← List.drop_drop, hkeysAt]
    exact List.drop_left' List.length_reverse
  have hsigAt : st.stack.drop (2 + keys.length + 1 - 1) = sigs.reverse ++ dummy :: rest :=
    drop_succ_of_drop (by omega) hsigsAt
  have hlen : st.stack.length = 2 + keys.length + 1 + sigs.length + rest.length := by
    rw [hstack]
    simp only [List.length_cons, List.length_append, List.length_reverse]
    omega
  have hrest : st.stack.drop (2 + keys.length + 1 + sigs.length) = rest := by
    rw [show 2 + keys.length + 1 + sigs.length
      = (2 + keys.length + 1 - 1) + (sigs.length + 1) by omega, ← List.drop_drop, hsigAt,
      ← List.drop_drop, List.drop_left' List.length_reverse]
    rfl
  have hkeysCount : countAt st.stack 1 20 = some keys.length := by
    apply countAt_of_counts _ hkeys (by omega)
    rw [hstack]
    rfl
  have hsigsCount : countAt st.stack (2 + keys.length) keys.length = some sigs.length :=
    countAt_of_counts (stacktop_of_drop hsigsAt) hsigs (by omega)
  have hvchSigs := mapM_stacktop (Nat.succ_pos _) hsigAt
  rw [List.length_reverse] at hvchSigs
  have hloop := multiSigLoop_eq
    (fun vchSig vchPubKey =>
      senv.checkSig vchSig vchPubKey (dropSignatures sigs.reverse st.scriptCode))
    (Nat.succ_pos _) (Nat.succ_pos 1) hsigAt hkeysAt (by simpa using hle)
  rw [List.length_reverse, List.length_reverse] at hloop
  unfold execCheckMultiSig
  rw [if_neg (by omega), hkeysCount, Option.bind_some]
  dsimp only
  by_cases hcount : 201 < st.nOpCount + keys.length
  · rw [if_pos hcount, if_pos hcount]
  · rw [if_neg hcount, if_neg hcount, if_neg (by omega), hsigsCount, Option.bind_some,
      if_neg (by omega), hvchSigs, Option.bind_some, hloop, Option.map_some, hrest]

/-- `OP_CHECKMULTISIG` on a stack with `m` signatures and `n` keys: unless there are too many
operations, it takes `m + n + 3` elements off, whatever is below them, and puts down whether the
signatures can be assigned to keys in order. -/
theorem checkMultiSig_decides (senv : EvalEnv) (pc : CScript) (fExec : Bool) (st : EvalState)
    (sigs keys rest : List Bytes) (h : HoldsMultiSig st.stack sigs keys rest) :
    st.stack.length = sigs.length + keys.length + 3 + rest.length ∧
    ∃ fSuccess : Bool,
      execOp senv OP_CHECKMULTISIG pc fExec st =
        (if 201 < st.nOpCount + keys.length then none
        else some { st with
          stack := boolVch fSuccess :: rest
          nOpCount := st.nOpCount + keys.length }) ∧
      (fSuccess = true ↔ ∃ f : Fin sigs.length → Fin keys.length, StrictMono f ∧
        ∀ i, senv.checkSig (sigs.get i) (keys.get (f i))
          (dropSignatures sigs.reverse st.scriptCode) = true) := by
  constructor
  · obtain ⟨vchKeys, vchSigs, dummy, -, -, hstack⟩ := h.stack
    rw [hstack]
    simp only [List.length_cons, List.length_append, List.length_reverse]
    omega
  · refine ⟨Lib.greedyMatch (fun vchSig vchPubKey => senv.checkSig vchSig vchPubKey
      (dropSignatures sigs.reverse st.scriptCode)) sigs.reverse keys.reverse, ?_, ?_⟩
    · have hexec : execOp senv OP_CHECKMULTISIG pc fExec st
          = (execCheckMultiSig senv st).bind some := rfl
      rw [hexec, Option.bind_fun_some, execCheckMultiSig_eq h]
    · rw [Lib.greedyMatch_iff, Lib.sublistForall₂_reverse, Lib.sublistForall₂_iff_strictMono]

/-- A signature is right for the key it equals. -/
def equalEnv : EvalEnv where
  ripemd160 := id
  sha1 := id
  sha256 := id
  hash160 := id
  hash256 := id
  checkSig vchSig vchPubKey _ := vchSig == vchPubKey

/-- Signatures for the first and the last of three keys -/
def twoOfThree : EvalState where
  stack := [[3], [7, 3], [7, 2], [7, 1], [2], [7, 3], [7, 1], [0], [9]]
  scriptCode := []

theorem checkMultiSig_decides_twoOfThree :
    (execOp equalEnv OP_CHECKMULTISIG [] true twoOfThree).map EvalState.stack
      = some [vchTrue, [9]] := by
  obtain ⟨-, fSuccess, hexec, hiff⟩ := checkMultiSig_decides equalEnv [] true twoOfThree
    [[7, 1], [7, 3]] [[7, 1], [7, 2], [7, 3]] [[9]]
    ⟨⟨[3], [2], [0], rfl, rfl, rfl⟩, by decide, by decide⟩
  have hsuccess : fSuccess = true := by
    apply hiff.mpr
    refine ⟨fun i => if i = 0 then 0 else 2, ?_, ?_⟩
    · intro i j
      revert i j
      decide
    · decide
  rw [hexec, hsuccess]
  rfl

end ShinyCoin

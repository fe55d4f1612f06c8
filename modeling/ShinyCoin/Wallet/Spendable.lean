import ShinyCoin.Wallet.Sign
import ShinyCoin.Script.Templates

/-!
# What is the wallet's own can be spent

`IsMine` goes through the redeem scripts as far as they lead, while `SignSignature` goes one level
deep, and its solution has to pass the limits of the interpreter. A script that is the wallet's own
is signed unless it is the hash of a redeem script that is a script hash too, or too large to be
pushed.
-/

namespace ShinyCoin

namespace SigningStore

variable {se : SignEnv} {keystore : SigningStore se} {script : CScript} {hash : Uint256}
  {ks : Nat → Nat} {vchSig vchPubKey : Bytes}

/-- The key of this public key is in the store. -/
def Owns (keystore : SigningStore se) (vchPubKey : Bytes) : Prop :=
  keystore.haveKey (se.pubKeyAddress vchPubKey) = true

/-- A signature that verifies under the public key. With the type of the hash it is no public key
and not the hash of one. -/
structure SignatureFor (keystore : SigningStore se) (hash : Uint256) (vchSig vchPubKey : Bytes) :
    Prop where
  setPubKey : se.ecdsa.setPubKey vchPubKey = true
  verifies : se.ecdsa.verify vchPubKey hash vchSig = true
  length_le : vchSig.length ≤ 72
  ne_pubKey : ∀ vch, keystore.Owns vch → vchSig ++ [1] ≠ vch
  ne_hash : ∀ vch, keystore.Owns vch → vchSig ++ [1] ≠ se.hash160 vch

/-- `key.Sign` with an owned key produces a signature that verifies. -/
structure SignsValidly (keystore : SigningStore se) : Prop where
  signs : ∀ vchPubKey, keystore.Owns vchPubKey → ∀ hash k, ∃ vchSig,
    (keystore.key (se.pubKeyAddress vchPubKey)).sign hash k = some vchSig ∧
      keystore.SignatureFor hash vchSig vchPubKey
  pubKey_length : ∀ address ∈ keystore.mapKeys, (keystore.key address).pubKey.length ≤ 65

/-! ## One key -/

theorem getKey_of_owns (h : keystore.Owns vchPubKey) :
    keystore.getKey (se.pubKeyAddress vchPubKey)
      = some (keystore.key (se.pubKeyAddress vchPubKey)) := if_pos h

theorem sign1_spec (hsigns : keystore.SignsValidly) (howns : keystore.Owns vchPubKey)
    (hash : Uint256) (k : Nat) (scriptSig : CScript) :
    ∃ vchSig, keystore.SignatureFor hash vchSig vchPubKey ∧
      keystore.sign1 (se.pubKeyAddress vchPubKey) hash SIGHASH_ALL k scriptSig
        = (true, scriptSig ++ pushData (vchSig ++ [1])) := by
  obtain ⟨vchSig, hsign, hsig⟩ := hsigns.signs vchPubKey howns hash k
  refine ⟨vchSig, hsig, ?_⟩
  unfold sign1
  rw [getKey_of_owns howns, Option.bind_some, hsign]
  rfl

/-! ## Many keys -/

/-- The keys from the first one on sign, until there are enough. -/
theorem signKeys_spec (hsigns : keystore.SignsValidly) {nRequired : Nat} {keys : List Bytes}
    (howns : ∀ key ∈ keys, keystore.Owns key) (hash : Uint256) (ks : Nat → Nat) (i : Nat)
    {nSigned : Nat} (scriptSig : CScript) (hlt : nSigned < nRequired)
    (hle : nRequired ≤ nSigned + keys.length) :
    ∃ vchSigs, List.Forall₂ (keystore.SignatureFor hash) vchSigs (keys.take (nRequired - nSigned)) ∧
      keystore.signKeys hash SIGHASH_ALL ks nRequired keys i nSigned scriptSig
        = (nRequired, scriptSig ++ pushAll (vchSigs.map fun vchSig => vchSig ++ [1])) := by
  induction keys generalizing i nSigned scriptSig with
  | nil =>
      rw [List.length_nil] at hle
      omega
  | cons key keys ih =>
      obtain ⟨vchSig, hsig, hsign⟩ :=
        sign1_spec hsigns (howns key List.mem_cons_self) hash (ks i) scriptSig
      have htake : (key :: keys).take (nRequired - nSigned)
          = key :: keys.take (nRequired - (nSigned + 1)) := by
        rw [show nRequired - nSigned = (nRequired - (nSigned + 1)) + 1 by omega, List.take_succ_cons]
      rw [List.length_cons] at hle
      unfold signKeys
      rw [hsign, htake]
      by_cases hlast : nSigned + 1 = nRequired
      · refine ⟨[vchSig], ?_, ?_⟩
        · rw [hlast, Nat.sub_self, List.take_zero]
          exact .cons hsig .nil
        · simp [hlast, pushAll]
      · obtain ⟨vchSigs, hforall, hrest⟩ :=
          ih (fun key hmem => howns key (List.mem_cons_of_mem _ hmem)) (i + 1)
            (scriptSig ++ pushData (vchSig ++ [1])) (Nat.lt_of_le_of_ne hlt hlast) (by omega)
        refine ⟨vchSig :: vchSigs, .cons hsig hforall, ?_⟩
        simp [hlast, hrest, pushAll]

/-! ## Solutions -/

/-- With these on the stack the script leaves `true`. -/
structure Solves (keystore : SigningStore se) (script : CScript) (hash : Uint256)
    (args : List Bytes) : Prop where
  args_le : args.length ≤ 17
  length_le : ∀ b ∈ args, b.length ≤ 73
  script_le : script.length ≤ 10000
  eval : ∀ senv : EvalEnv, senv.hash160 = se.hash160 →
    (∀ vchSig vchPubKey, keystore.SignatureFor hash vchSig vchPubKey →
      senv.checkSig (vchSig ++ [1]) vchPubKey script = true) →
    evalScript senv args.reverse script = some [vchTrue]

theorem SignatureFor.ne_nil : vchSig ++ [1] ≠ [] := by simp

theorem SignatureFor.length_lt (h : keystore.SignatureFor hash vchSig vchPubKey) :
    (vchSig ++ [1]).length ≤ 73 := by
  have := h.length_le
  rw [List.length_append, List.length_singleton]
  omega

theorem solve_pubkey (hsigns : keystore.SignsValidly) {vSolutions : List Bytes}
    (h : solver script = some (.pubkey, vSolutions))
    (howns : keystore.Owns (vSolutions.headD [])) :
    ∃ args, keystore.solve script hash SIGHASH_ALL ks = (true, pushAll args, .pubkey) ∧
      keystore.Solves script hash args := by
  obtain ⟨-, opcode, vchPubKey, rfl, hsize, hparses⟩ := solver_pubkey h
  rw [List.headD_cons] at howns
  obtain ⟨vchSig, hsig, hsign⟩ := sign1_spec hsigns howns hash (ks 0) []
  have hlen := hsig.length_lt
  have hscript := hparses.length_le
  have hmax := hsize.2
  simp only [List.map_cons, List.map_nil, List.sum_cons, List.sum_nil, List.length_nil] at hscript
  refine ⟨[vchSig ++ [1]], ?_, ?_⟩
  · unfold solve
    rw [h]
    dsimp only
    rw [List.headD_cons, hsign]
    simp [pushAll]
  · refine ⟨by simp, by simpa using hlen, by omega, ?_⟩
    intro senv _ hcheck
    exact evalScript_pubkey hparses hsize (by omega) (hsig.ne_pubKey _ howns)
      SignatureFor.ne_nil (hcheck _ _ hsig)

theorem solve_pubkeyhash (hsigns : keystore.SignsValidly) {vSolutions : List Bytes}
    (h : solver script = some (.pubkeyhash, vSolutions))
    (hmine : keystore.haveKey ⟨se.pubkeyVersion, vSolutions.headD []⟩ = true) :
    ∃ args, keystore.solve script hash SIGHASH_ALL ks = (true, pushAll args, .pubkeyhash) ∧
      keystore.Solves script hash args := by
  obtain ⟨-, opcode, hash160, rfl, hsize, hparses⟩ := solver_pubkeyhash h
  rw [List.headD_cons] at hmine
  have hmem : (⟨se.pubkeyVersion, hash160⟩ : CBitcoinAddress) ∈ keystore.mapKeys :=
    List.contains_iff_mem.mp hmine
  have haddress := keystore.key_address _ hmem
  have hkeylen := hsigns.pubKey_length _ hmem
  set vchPubKey := (keystore.key ⟨se.pubkeyVersion, hash160⟩).pubKey with hkey
  have hhash : hash160 = se.hash160 vchPubKey := congrArg CBitcoinAddress.vchData haddress
  have howns : keystore.Owns vchPubKey := by
    unfold Owns
    rw [← haddress]
    exact hmine
  obtain ⟨vchSig, hsig, hsign⟩ := sign1_spec hsigns howns hash (ks 0) []
  rw [← haddress] at hsign
  have hget : keystore.getPubKey ⟨se.pubkeyVersion, hash160⟩ = some vchPubKey := by
    unfold getPubKey getKey
    rw [if_pos hmine]
    rfl
  have hlen := hsig.length_lt
  have hscript := hparses.length_le
  simp only [List.map_cons, List.map_nil, List.sum_cons, List.sum_nil, List.length_nil] at hscript
  refine ⟨[vchSig ++ [1], vchPubKey], ?_, ?_⟩
  · unfold solve
    rw [h]
    dsimp only
    rw [List.headD_cons, hsign, hget]
    simp [pushAll]
  · refine ⟨by simp, ?_, by omega, ?_⟩
    · intro b hb
      simp only [List.mem_cons, List.not_mem_nil, or_false] at hb
      rcases hb with rfl | rfl <;> omega
    · intro senv hsenv hcheck
      have hne : vchSig ++ [1] ≠ hash160 := hhash ▸ hsig.ne_hash _ howns
      exact evalScript_pubkeyhash hparses hsize (by rw [hsenv, hhash]) (by omega) hne
        SignatureFor.ne_nil (hcheck _ _ hsig)

theorem solve_multisig (hsigns : keystore.SignsValidly) {vSolutions : List Bytes}
    (h : solver script = some (.multisig, vSolutions))
    (howns : ∀ key ∈ vSolutions.tail.dropLast, keystore.Owns key) :
    ∃ args, keystore.solve script hash SIGHASH_ALL ks = (true, pushAll args, .multisig) ∧
      keystore.Solves script hash args := by
  obtain ⟨-, m, keys, rfl, hscript⟩ := solver_multisig h
  have hpos := hscript.pos
  have hle := hscript.le
  have hmax := hscript.keys_le
  have hdata : ([UInt8.ofNat m] :: (keys ++ [[UInt8.ofNat keys.length]])).tail.dropLast = keys :=
    List.dropLast_concat
  have hm : (UInt8.ofNat m).toNat = m :=
    UInt8.toNat_ofNat_of_lt (lt_of_le_of_lt (hle.trans hmax) (by decide))
  rw [hdata] at howns
  obtain ⟨vchSigs, hforall, hsign⟩ :=
    signKeys_spec hsigns howns hash ks 0 [OP_0] hpos (by omega)
  rw [Nat.sub_zero] at hforall
  have hcount : vchSigs.length = m := by
    rw [hforall.length_eq, List.length_take]
    omega
  have hall : ∀ vchSig ∈ vchSigs, ∃ key, keystore.SignatureFor hash vchSig key := by
    intro vchSig hmem
    obtain ⟨i, hi, rfl⟩ := List.getElem_of_mem hmem
    exact ⟨_, (List.forall₂_iff_get.mp hforall).2 i hi (hforall.length_eq ▸ hi)⟩
  refine ⟨[] :: vchSigs.map fun vchSig => vchSig ++ [1], ?_, ?_⟩
  · unfold solve signN
    rw [h]
    dsimp only
    rw [hdata, List.head?_cons, Option.bind_some, List.head?_cons, Option.getD_some, hm, hsign]
    have hdummy : ∀ vs, pushAll ([] :: vs) = [OP_0] ++ pushAll vs := fun _ => rfl
    rw [hdummy]
    simp
  · refine ⟨?_, ?_, hscript.length_le, ?_⟩
    · simp [hcount]
      omega
    · intro b hb
      rcases List.mem_cons.mp hb with rfl | hb
      · exact Nat.zero_le _
      · obtain ⟨vchSig, hmem, rfl⟩ := List.mem_map.mp hb
        obtain ⟨key, hsig⟩ := hall vchSig hmem
        exact hsig.length_lt
    · intro senv _ hcheck
      apply evalScript_multisig hscript (by rw [List.length_map, hcount])
      · intro sig hmem
        obtain ⟨vchSig, hvchSig, rfl⟩ := List.mem_map.mp hmem
        obtain ⟨key, hsig⟩ := hall vchSig hvchSig
        have := hsig.length_lt
        refine ⟨by omega, ?_, SignatureFor.ne_nil⟩
        intro hkey
        exact hsig.ne_pubKey _ (howns _ hkey) rfl
      · apply List.sublistForall₂_iff.mpr
        refine ⟨keys.take m, ?_, List.take_sublist m keys⟩
        rw [List.forall₂_map_left_iff]
        exact hforall.imp fun vchSig key hsig => hcheck vchSig key hsig

/-- What is the wallet's own and not the hash of a redeem script is solved. -/
theorem solve_spec (hsigns : keystore.SignsValidly) (hash : Uint256) (ks : Nat → Nat) {n : Nat}
    (hmine : keystore.isMineWithin se.scripts n script = true)
    (hscript : isPayToScriptHash script = false) :
    ∃ args whichType, keystore.solve script hash SIGHASH_ALL ks = (true, pushAll args, whichType) ∧
      whichType ≠ .scripthash ∧ keystore.Solves script hash args := by
  cases hsolver : solver script with
  | none =>
      unfold CKeyStore.isMineWithin at hmine
      simp [SignEnv.scripts, hsolver] at hmine
  | some solution =>
      obtain ⟨typeRet, vSolutions⟩ := solution
      unfold CKeyStore.isMineWithin at hmine
      cases typeRet with
      | nonstandard => exact absurd hsolver solver_ne_nonstandard
      | pubkey =>
          simp only [SignEnv.scripts, hsolver, Option.map_some, ScriptSolution.ofSolver] at hmine
          obtain ⟨args, hsolve, hargs⟩ := solve_pubkey hsigns hsolver hmine
          exact ⟨args, _, hsolve, by decide, hargs⟩
      | pubkeyhash =>
          simp only [SignEnv.scripts, hsolver, Option.map_some, ScriptSolution.ofSolver] at hmine
          obtain ⟨args, hsolve, hargs⟩ := solve_pubkeyhash hsigns hsolver hmine
          exact ⟨args, _, hsolve, by decide, hargs⟩
      | scripthash =>
          rw [(solver_scripthash hsolver).1] at hscript
          cases hscript
      | multisig =>
          simp only [SignEnv.scripts, hsolver, Option.map_some, ScriptSolution.ofSolver,
            List.all_eq_true] at hmine
          obtain ⟨args, hsolve, hargs⟩ := solve_multisig hsigns hsolver hmine
          exact ⟨args, _, hsolve, by decide, hargs⟩

/-! ## Verification -/

/-- The scripts of the inputs do not matter for what is signed. -/
theorem signatureHash_setScriptSig (env : Env) (scriptCode scriptSig : CScript) (tx : CTransaction)
    (nIn i : Nat) (nHashType : ℤ) :
    signatureHash env scriptCode (tx.setScriptSig i scriptSig) nIn nHashType
      = signatureHash env scriptCode tx nIn nHashType := by
  apply signatureHash_congr (f := fun j txin => if j = i then scriptSig else txin.scriptSig)
  unfold CTransaction.setScriptSig
  congr 1
  apply List.ext_getElem?
  intro j
  rw [List.getElem?_modify, List.getElem?_mapIdx]
  cases tx.vin[j]? with
  | none => rfl
  | some txin =>
      by_cases hj : i = j
      · simp [hj]
      · simp [hj, Ne.symm hj]

theorem SignatureFor.checkSig {txTo : CTransaction} {nIn : Nat}
    (h : keystore.SignatureFor (signatureHash se.env script txTo nIn SIGHASH_ALL) vchSig vchPubKey) :
    (se.evalEnv txTo nIn 0).checkSig (vchSig ++ [1]) vchPubKey script = true := by
  show se.ecdsa.checkSig se.env (vchSig ++ [1]) vchPubKey script txTo nIn 0 = true
  have htype : (CheckSigCall.mk (vchSig ++ [1]) vchPubKey script txTo nIn 0 0 fun _ => 0).hashType
      = some SIGHASH_ALL := by
    unfold CheckSigCall.hashType
    rw [List.getLast?_concat]
    rfl
  unfold Ecdsa.checkSig
  dsimp only
  rw [htype, Option.any_some]
  unfold SigOps.Verifies CheckSigCall.sigData Ecdsa.sigOps
  dsimp only
  rw [List.dropLast_concat, h.setPubKey, h.verifies]
  rfl

variable {txTo : CTransaction} {nIn : Nat} {args : List Bytes}

theorem Solves.evalScript_eq {scriptSig : CScript}
    (h : keystore.Solves script (signatureHash se.env script txTo nIn SIGHASH_ALL) args) :
    evalScript (se.evalEnv (txTo.setScriptSig nIn scriptSig) nIn 0) args.reverse script
      = some [vchTrue] := by
  apply h.eval _ rfl
  intro vchSig vchPubKey hsig
  rw [← signatureHash_setScriptSig se.env script scriptSig txTo nIn nIn] at hsig
  exact hsig.checkSig

/-- The pushes of a solution, and perhaps of a redeem script -/
theorem evalScript_args (senv : EvalEnv) {hash : Uint256} (h : keystore.Solves script hash args)
    (more : List Bytes) (hmore : ∀ b ∈ more, b.length ≤ 520) (hcount : more.length ≤ 1) :
    evalScript senv [] (pushAll (args ++ more)) = some (args ++ more).reverse := by
  have hsize : ∀ b ∈ args ++ more, b.length ≤ 520 := by
    intro b hb
    rcases List.mem_append.mp hb with hb | hb
    · exact (h.length_le b hb).trans (by decide)
    · exact hmore b hb
  have hpushes := pushAll_pushes fun b hb => lt_of_le_of_lt (hsize b hb) (by decide)
  have hargs := h.args_le
  apply evalScript_pushes hpushes hsize
  · obtain ⟨ops, hparses, hops, -⟩ := hpushes
    have hlen := hparses.length_le
    have hsum : (ops.map fun op => op.2.length + 5).sum
        ≤ (ops.map fun op => op.2.length + 5).length • 525 := by
      apply List.sum_le_card_nsmul
      intro x hx
      obtain ⟨op, hop, rfl⟩ := List.mem_map.mp hx
      have := hsize op.2 (hops ▸ List.mem_map_of_mem hop)
      omega
    have hops' : ops.length = args.length + more.length := by
      rw [← List.length_append, ← hops, List.length_map]
    rw [List.length_map, smul_eq_mul, hops'] at hsum
    omega
  · rw [List.length_append]
    omega

/-- The solution of a script that is not the hash of another one -/
theorem testSolution_plain (hscript : isPayToScriptHash script = false)
    (h : keystore.Solves script (signatureHash se.env script txTo nIn SIGHASH_ALL) args) :
    (testSolution se txTo nIn (pushAll args) script).1 = true := by
  have hpush := evalScript_args (se.evalEnv (txTo.setScriptSig nIn (pushAll args)) nIn 0) h []
    (by simp) (by simp)
  rw [List.append_nil] at hpush
  unfold testSolution verifyScript
  dsimp only
  rw [hpush]
  dsimp only
  rw [h.evalScript_eq, hscript]
  rfl

/-- The solution of a redeem script, for its hash -/
theorem testSolution_redeem {subscript : CScript} (hscript : isPayToScriptHash script = true)
    (hhash : se.hash160 subscript = (script.drop 2).take 20) (hsize : subscript.length ≤ 520)
    (h : keystore.Solves subscript (signatureHash se.env subscript txTo nIn SIGHASH_ALL) args) :
    (testSolution se txTo nIn (pushAll args ++ pushData subscript) script).1 = true := by
  have hargs := h.args_le
  have hsig : pushAll args ++ pushData subscript = pushAll (args ++ [subscript]) := by
    simp [pushAll]
  rw [hsig]
  have hpush := evalScript_args
    (se.evalEnv (txTo.setScriptSig nIn (pushAll (args ++ [subscript]))) nIn 0) h [subscript]
    (by simpa using hsize) (by simp)
  have hequal := evalScript_scripthash
    (se.evalEnv (txTo.setScriptSig nIn (pushAll (args ++ [subscript]))) nIn 0) args.reverse hscript
    hhash (by rw [List.length_reverse]; omega)
  have honly : isPushOnly (pushAll (args ++ [subscript])) = true := by
    apply (pushAll_pushes _).isPushOnly
    intro b hb
    rcases List.mem_append.mp hb with hb | hb
    · exact lt_of_le_of_lt (h.length_le b hb) (by decide)
    · rw [List.mem_singleton.mp hb]
      omega
  rw [List.reverse_append, List.reverse_singleton, List.singleton_append] at hpush
  unfold testSolution verifyScript
  dsimp only
  rw [hpush]
  dsimp only
  rw [hequal]
  dsimp only
  rw [hscript, honly]
  unfold verifyRedeemScript
  dsimp only
  rw [h.evalScript_eq]
  rfl

/-- A redeem script that is too large cannot be pushed. -/
theorem testSolution_large {subscript : CScript} {hash : Uint256} (hsize : 520 < subscript.length)
    (h : keystore.Solves subscript hash args) :
    (testSolution se txTo nIn (pushAll args ++ pushData subscript) script).1 = false := by
  have hsig : pushAll args ++ pushData subscript = pushAll (args ++ [subscript]) := by
    simp [pushAll]
  have hlen : ∀ b ∈ args ++ [subscript], b.length < 2 ^ 32 := by
    intro b hb
    rcases List.mem_append.mp hb with hb | hb
    · exact lt_of_le_of_lt (h.length_le b hb) (by decide)
    · rw [List.mem_singleton.mp hb]
      exact lt_of_le_of_lt h.script_le (by decide)
  obtain ⟨ops, hparses, hops, -⟩ := pushAll_pushes hlen
  have hmem : subscript ∈ ops.map Prod.snd := by simp [hops]
  obtain ⟨op, hop, hdata⟩ := List.mem_map.mp hmem
  have hnone : ∀ senv, evalScript senv [] (pushAll (args ++ [subscript])) = none := by
    intro senv
    unfold evalScript
    split
    · rfl
    · rw [Option.bind_eq_none_iff]
      intro st hst
      have := length_le_of_evalFrom hparses hst op hop
      rw [hdata] at this
      omega
  rw [hsig]
  unfold testSolution verifyScript
  dsimp only
  rw [hnone]

/-! ## SignSignature -/

/-- The redeem script whose hash the script is, if it is one -/
def redeemScript (keystore : SigningStore se) (scriptPubKey : CScript) : Option CScript :=
  if isPayToScriptHash scriptPubKey then keystore.getCScript ((scriptPubKey.drop 2).take 20) else none

/-- Input `nIn` spends an output of `txFrom` with this script. -/
def SpendsScript (se : SignEnv) (txFrom txTo : CTransaction) (nIn : Nat) (scriptPubKey : CScript) :
    Prop :=
  ∃ txin txout, txTo.vin[nIn]? = some txin ∧ txin.prevout.hash = se.env.getHash txFrom ∧
    txFrom.vout[txin.prevout.n]? = some txout ∧ txout.scriptPubKey = scriptPubKey

/-- `SignSignature` signs and verifies. -/
def Signs (keystore : SigningStore se) (ks : Nat → Nat) (txFrom txTo : CTransaction) (nIn : Nat) :
    Prop :=
  ∃ tx, keystore.signSignature ks txFrom txTo nIn SIGHASH_ALL = some (true, tx)

theorem hash_of_getCScript {hash : Bytes} {subscript : CScript}
    (h : keystore.getCScript hash = some subscript) : se.hash160 subscript = hash := by
  unfold CKeyStore.getCScript at h
  obtain ⟨entry, hfind, rfl⟩ := Option.map_eq_some_iff.mp h
  have hentry := keystore.script_hash entry (List.mem_of_find?_eq_some hfind)
  rw [← hentry]
  simpa using List.find?_some hfind

/-- A script hash is the wallet's own if its redeem script is. -/
theorem isMine_scripthash {n : Nat} (hscript : isPayToScriptHash script = true)
    (hmine : keystore.isMineWithin se.scripts n script = true) :
    ∃ subscript m, keystore.getCScript ((script.drop 2).take 20) = some subscript ∧
      keystore.isMineWithin se.scripts m subscript = true := by
  have hsolver : solver script = some (.scripthash, [(script.drop 2).take 20]) := if_pos hscript
  unfold CKeyStore.isMineWithin at hmine
  simp only [SignEnv.scripts, hsolver, Option.map_some, ScriptSolution.ofSolver,
    List.headD_cons] at hmine
  cases n with
  | zero => cases hmine
  | succ n =>
      cases hget : keystore.getCScript ((script.drop 2).take 20) with
      | none =>
          rw [hget] at hmine
          cases hmine
      | some subscript =>
          rw [hget] at hmine
          exact ⟨subscript, n, rfl, hmine⟩

section

variable {txFrom : CTransaction} {scriptSig subscript : CScript} {whichType subType : TxnOutType}
  {fSolved : Bool}

theorem signs_iff_of_solve (hspends : SpendsScript se txFrom txTo nIn script)
    (hsolve : keystore.solve script (signatureHash se.env script txTo nIn SIGHASH_ALL) SIGHASH_ALL ks
      = (true, scriptSig, whichType)) (htype : whichType ≠ .scripthash) :
    keystore.Signs ks txFrom txTo nIn
      ↔ (testSolution se (txTo.setScriptSig nIn scriptSig) nIn scriptSig script).1 = true := by
  obtain ⟨txin, txout, hvin, hhash, hvout, rfl⟩ := hspends
  have heq : keystore.signSignature ks txFrom txTo nIn SIGHASH_ALL = some (testSolution se
      (txTo.setScriptSig nIn scriptSig) nIn scriptSig txout.scriptPubKey) := by
    unfold signSignature
    rw [hvin, Option.bind_some, hvout, Option.bind_some, if_neg (not_not.mpr hhash)]
    dsimp only
    rw [hsolve]
    dsimp only
    rw [if_neg (by decide), if_neg htype]
  unfold Signs
  rw [heq]
  constructor
  · rintro ⟨tx, htx⟩
    rw [Option.some.inj htx]
  · intro htest
    exact ⟨_, congrArg some (Prod.ext htest rfl)⟩

theorem signs_iff_of_redeem (hspends : SpendsScript se txFrom txTo nIn script)
    (hsolve : keystore.solve script (signatureHash se.env script txTo nIn SIGHASH_ALL) SIGHASH_ALL ks
      = (true, subscript, .scripthash))
    (hsub : keystore.solve subscript (signatureHash se.env subscript txTo nIn SIGHASH_ALL) SIGHASH_ALL
      ks = (fSolved, scriptSig, subType)) :
    keystore.Signs ks txFrom txTo nIn ↔ fSolved = true ∧ subType ≠ .scripthash ∧
      (testSolution se ((txTo.setScriptSig nIn subscript).setScriptSig nIn scriptSig) nIn
        (scriptSig ++ pushData subscript) script).1 = true := by
  obtain ⟨txin, txout, hvin, hhash, hvout, rfl⟩ := hspends
  have heq : keystore.signSignature ks txFrom txTo nIn SIGHASH_ALL
      = if fSolved = false ∨ subType = .scripthash then
          some (false, (txTo.setScriptSig nIn subscript).setScriptSig nIn scriptSig)
        else some (testSolution se ((txTo.setScriptSig nIn subscript).setScriptSig nIn scriptSig) nIn
          (scriptSig ++ pushData subscript) txout.scriptPubKey) := by
    unfold signSignature
    rw [hvin, Option.bind_some, hvout, Option.bind_some, if_neg (not_not.mpr hhash)]
    dsimp only
    rw [hsolve]
    dsimp only
    rw [if_neg (by decide), if_pos rfl, signatureHash_setScriptSig, hsub]
    cases fSolved with
    | false => rfl
    | true =>
        dsimp only
        rw [if_neg (by decide)]
        by_cases htype : subType = .scripthash
        · rw [if_pos htype, if_pos (Or.inr htype)]
        · rw [if_neg htype, if_neg (by simpa using htype)]
  unfold Signs
  rw [heq]
  constructor
  · rintro ⟨tx, htx⟩
    split at htx
    · cases htx
    · next hor =>
        rw [not_or, Bool.not_eq_false] at hor
        exact ⟨hor.1, hor.2, by rw [Option.some.inj htx]⟩
  · rintro ⟨hsolved, htype, htest⟩
    rw [if_neg (by simp [hsolved, htype])]
    exact ⟨_, congrArg some (Prod.ext htest rfl)⟩

theorem solve_scripthash (hscript : isPayToScriptHash script = true)
    (hget : keystore.getCScript ((script.drop 2).take 20) = some subscript) (nHashType : ℤ) :
    keystore.solve script hash nHashType ks = (true, subscript, .scripthash) := by
  unfold solve
  rw [show solver script = some (.scripthash, [(script.drop 2).take 20]) from if_pos hscript]
  dsimp only
  rw [List.headD_cons, hget]

/-- "Solver returns the subscript that need to be evaluated", but only once. -/
theorem not_signs_of_nested (hspends : SpendsScript se txFrom txTo nIn script)
    (hscript : isPayToScriptHash script = true)
    (hget : keystore.getCScript ((script.drop 2).take 20) = some subscript)
    (hsubscript : isPayToScriptHash subscript = true) : ¬ keystore.Signs ks txFrom txTo nIn := by
  intro hsigns
  have hsolve : keystore.solve script (signatureHash se.env script txTo nIn SIGHASH_ALL) SIGHASH_ALL
      ks = (true, subscript, .scripthash) := solve_scripthash hscript hget SIGHASH_ALL
  cases hinner : keystore.getCScript ((subscript.drop 2).take 20) with
  | none =>
      have hsub : keystore.solve subscript (signatureHash se.env subscript txTo nIn SIGHASH_ALL)
          SIGHASH_ALL ks = (false, [], .scripthash) := by
        unfold solve
        rw [show solver subscript = some (.scripthash, [(subscript.drop 2).take 20])
          from if_pos hsubscript]
        dsimp only
        rw [List.headD_cons, hinner]
      obtain ⟨hsolved, -⟩ := (signs_iff_of_redeem hspends hsolve hsub).mp hsigns
      cases hsolved
  | some inner =>
      obtain ⟨-, htype, -⟩ := (signs_iff_of_redeem hspends hsolve
        (solve_scripthash hsubscript hinner SIGHASH_ALL)).mp hsigns
      exact htype rfl

/-- What the wallet counts as its own, through however many redeem scripts, it signs, unless it is
the hash of a redeem script that is too large or the hash of another one. -/
theorem signSignature_iff (hsigns : keystore.SignsValidly)
    (hmine : ∃ depth, keystore.isMineWithin se.scripts depth script = true)
    (hspends : SpendsScript se txFrom txTo nIn script) :
    keystore.Signs ks txFrom txTo nIn ↔ ∀ subscript, keystore.redeemScript script = some subscript →
      subscript.length ≤ 520 ∧ isPayToScriptHash subscript = false := by
  obtain ⟨depth, hmine⟩ := hmine
  cases hscript : isPayToScriptHash script with
  | false =>
      obtain ⟨args, whichType, hsolve, htype, hargs⟩ := solve_spec hsigns
        (signatureHash se.env script txTo nIn SIGHASH_ALL) ks hmine hscript
      rw [signs_iff_of_solve hspends hsolve htype]
      constructor
      · intro _ subscript hsub
        unfold redeemScript at hsub
        rw [hscript] at hsub
        cases hsub
      · intro _
        have hsolves : keystore.Solves script (signatureHash se.env script
            (txTo.setScriptSig nIn (pushAll args)) nIn SIGHASH_ALL) args := by
          rw [signatureHash_setScriptSig]
          exact hargs
        exact testSolution_plain hscript hsolves
  | true =>
      obtain ⟨subscript, n, hget, hsubmine⟩ := isMine_scripthash hscript hmine
      have hredeem : keystore.redeemScript script = some subscript := by
        unfold redeemScript
        rw [if_pos hscript, hget]
      simp only [hredeem, Option.some.injEq, forall_eq']
      cases hsubscript : isPayToScriptHash subscript with
      | true =>
          have hnot : ¬ keystore.Signs ks txFrom txTo nIn :=
            not_signs_of_nested hspends hscript hget hsubscript
          simp [hnot]
      | false =>
          obtain ⟨args, subType, hsub, htype, hargs⟩ := solve_spec hsigns
            (signatureHash se.env subscript txTo nIn SIGHASH_ALL) ks hsubmine hsubscript
          rw [signs_iff_of_redeem hspends (solve_scripthash hscript hget SIGHASH_ALL) hsub]
          constructor
          · rintro ⟨-, -, htest⟩
            refine ⟨?_, rfl⟩
            by_contra hlarge
            rw [testSolution_large (Nat.lt_of_not_le hlarge) hargs] at htest
            cases htest
          · rintro ⟨hsize, -⟩
            refine ⟨rfl, htype, ?_⟩
            apply testSolution_redeem hscript (hash_of_getCScript hget) hsize
            rw [signatureHash_setScriptSig, signatureHash_setScriptSig]
            exact hargs

end

end SigningStore

/-! ## A key, its script, and the hashes of both -/

/-- The public key of the secret 1 -/
def pubKeyOne : Bytes :=
  [0x02, 0x79, 0xbe, 0x66, 0x7e, 0xf9, 0xdc, 0xbb, 0xac, 0x55, 0xa0, 0x62, 0x95, 0xce, 0x87, 0x0b, 0x07,
    0x02, 0x9b, 0xfc, 0xdb, 0x2d, 0xce, 0x28, 0xd9, 0x59, 0xf2, 0x81, 0x5b, 0x16, 0xf8, 0x17, 0x98]

def keyHash : Bytes :=
  [0x75, 0x1e, 0x76, 0xe8, 0x19, 0x91, 0x96, 0xd4, 0x54, 0x94, 0x1c, 0x45, 0xd1, 0xb3, 0xa3, 0x23, 0xf1,
    0x43, 0x3b, 0xd6]

/-- Pay to the key -/
def keyScript : CScript := pushData pubKeyOne ++ [OP_CHECKSIG]

def keyScriptHash : Bytes :=
  [0x23, 0xb0, 0xad, 0x34, 0x77, 0xf2, 0x17, 0x8b, 0xc0, 0xb3, 0xee, 0xd2, 0x6e, 0x4e, 0x63, 0x16, 0xf4,
    0xe8, 0x3a, 0xa1]

/-- Pay to the hash of that script -/
def hashScript : CScript := OP_HASH160 :: pushData keyScriptHash ++ [OP_EQUAL]

def hashScriptHash : Bytes :=
  [0xd8, 0xd6, 0xc0, 0x3b, 0xa5, 0x6e, 0xca, 0xf0, 0xcd, 0x8b, 0x7b, 0xbc, 0xd5, 0x8d, 0x02, 0x13, 0xf5,
    0xb4, 0x3e, 0xba]

/-- Pay to the hash of the hash of the script -/
def nestedScript : CScript := OP_HASH160 :: pushData hashScriptHash ++ [OP_EQUAL]

/-- The shortest signature in DER -/
def shortSig : Bytes := [0x30, 0x06, 0x02, 0x01, 0x01, 0x02, 0x01, 0x01]

def oneKeyEnv : SignEnv where
  env := Env.plain
  ecdsa :=
    { setPubKey := fun vchPubKey => vchPubKey == pubKeyOne
      verify := fun _ _ vchSig => vchSig == shortSig }
  ripemd160 := id
  sha1 := id
  sha256 := id
  hash160 vch :=
    if vch = pubKeyOne then keyHash
    else if vch = keyScript then keyScriptHash
    else if vch = hashScript then hashScriptHash
    else List.replicate 20 0
  hash256 := id
  pubkeyVersion := 63

/-- The key, and both redeem scripts -/
def oneKeyStore : SigningStore oneKeyEnv where
  mapKeys := [⟨63, keyHash⟩]
  mapScripts := [(keyScriptHash, keyScript), (hashScriptHash, hashScript)]
  key _ := { pubKey := pubKeyOne, sign := fun _ _ => some shortSig }
  key_address := by decide
  script_hash := by decide

theorem oneKeyStore_owns {vchPubKey : Bytes} (h : oneKeyStore.Owns vchPubKey) :
    vchPubKey = pubKeyOne := by
  have hmem : oneKeyEnv.pubKeyAddress vchPubKey ∈ oneKeyStore.mapKeys := List.contains_iff_mem.mp h
  have hhash : oneKeyEnv.hash160 vchPubKey = keyHash :=
    congrArg CBitcoinAddress.vchData (List.mem_singleton.mp hmem)
  by_contra hne
  have hother : oneKeyEnv.hash160 vchPubKey = if vchPubKey = keyScript then keyScriptHash
      else if vchPubKey = hashScript then hashScriptHash else List.replicate 20 0 := if_neg hne
  rw [hother] at hhash
  split at hhash
  · exact absurd hhash (by decide)
  · split at hhash <;> exact absurd hhash (by decide)

theorem oneKeyStore_signsValidly : oneKeyStore.SignsValidly where
  signs vchPubKey howns hash k := by
    obtain rfl := oneKeyStore_owns howns
    refine ⟨shortSig, rfl, BEq.rfl, BEq.rfl, by decide, ?_, ?_⟩
    · intro vch hvch
      rw [oneKeyStore_owns hvch]
      decide
    · intro vch hvch
      rw [oneKeyStore_owns hvch]
      decide
  pubKey_length := by decide

def scriptsTx : CTransaction where
  nTime := 1
  vin := []
  vout := [{ nValue := 1, scriptPubKey := hashScript }, { nValue := 1, scriptPubKey := nestedScript }]

def spendTx (n : Nat) : CTransaction where
  nTime := 2
  vin := [{ prevout := ⟨Env.plain.getHash scriptsTx, n⟩ }]
  vout := [{ nValue := 1 }]

theorem spendTx_spends {n : Nat} {txout : CTxOut} (h : scriptsTx.vout[n]? = some txout) :
    SigningStore.SpendsScript oneKeyEnv scriptsTx (spendTx n) 0 txout.scriptPubKey :=
  ⟨_, txout, rfl, rfl, h, rfl⟩

theorem signSignature_iff_hashScript :
    oneKeyStore.Signs id scriptsTx (spendTx 0) 0 := by
  apply (SigningStore.signSignature_iff oneKeyStore_signsValidly ⟨1, by decide⟩
    (spendTx_spends (n := 0) rfl)).mpr
  intro subscript hsub
  have hredeem : oneKeyStore.redeemScript hashScript = some keyScript := by decide
  rw [hredeem] at hsub
  cases hsub
  decide

/-- The wallet counts the nested script as its own, and does not sign for it. -/
theorem not_signSignature_nestedScript :
    oneKeyStore.SignsValidly ∧ oneKeyStore.isMine oneKeyEnv.scripts nestedScript = true ∧
      SigningStore.SpendsScript oneKeyEnv scriptsTx (spendTx 1) 0 nestedScript ∧
      ¬ oneKeyStore.Signs id scriptsTx (spendTx 1) 0 := by
  have hget : oneKeyStore.getCScript ((nestedScript.drop 2).take 20) = some hashScript := by decide
  have hspends := spendTx_spends (n := 1) rfl
  exact ⟨oneKeyStore_signsValidly, by decide, hspends,
    SigningStore.not_signs_of_nested hspends (by decide) hget (by decide)⟩

end ShinyCoin

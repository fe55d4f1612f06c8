import ShinyCoin.Script.Standard
import ShinyCoin.Wallet.Sign

/-!
# Scripts of addresses

`SetBitcoinAddress` and `SetMultisig` write standard scripts, `ExtractAddress` and `ExtractAddresses`
read the addresses off a script that `Solver` knows. Reading gives back what was written, except where
`SetMultisig` is asked for a number of signatures that no script of its keys can require.
-/

namespace ShinyCoin

/-! ## Addresses -/

def PUBKEY_ADDRESS : UInt8 := 63
def SCRIPT_ADDRESS : UInt8 := 125
def PUBKEY_ADDRESS_TEST : UInt8 := 6
def SCRIPT_ADDRESS_TEST : UInt8 := 11

/-- What an address depends on -/
structure AddressEnv where
  fTestNet : Bool
  hash160 : Bytes → Bytes

/-- `uint160(vch)` -/
def uint160 (vch : Bytes) : Bytes := if vch.length = 20 then vch else List.replicate 20 0

namespace CBitcoinAddress

/-- `nExpectedSize` and `fExpectTestNet` of a version -/
def expected (nVersion : UInt8) : Option (Nat × Bool) :=
  if nVersion = PUBKEY_ADDRESS then some (20, false)
  else if nVersion = SCRIPT_ADDRESS then some (20, false)
  else if nVersion = PUBKEY_ADDRESS_TEST then some (20, true)
  else if nVersion = SCRIPT_ADDRESS_TEST then some (20, true)
  else none

def isValid (address : CBitcoinAddress) (fTestNet : Bool) : Bool :=
  match expected address.nVersion with
  | none => false
  | some (nExpectedSize, fExpectTestNet) =>
      fExpectTestNet == fTestNet && address.vchData.length == nExpectedSize

def isScript (address : CBitcoinAddress) (fTestNet : Bool) : Bool :=
  if !address.isValid fTestNet then false
  else if fTestNet then address.nVersion == SCRIPT_ADDRESS_TEST
  else address.nVersion == SCRIPT_ADDRESS

/-- `GetHash160`; `none` where the assertion fails. -/
def getHash160 (address : CBitcoinAddress) : Option Bytes :=
  if address.vchData.length = 20 then some address.vchData else none

end CBitcoinAddress

namespace AddressEnv

variable (ae : AddressEnv)

def setHash160 (hash160 : Bytes) : CBitcoinAddress :=
  ⟨if ae.fTestNet then PUBKEY_ADDRESS_TEST else PUBKEY_ADDRESS, hash160⟩

def setPubKey (vchPubKey : Bytes) : CBitcoinAddress := ae.setHash160 (ae.hash160 vchPubKey)

def setScriptHash160 (hash160 : Bytes) : CBitcoinAddress :=
  ⟨if ae.fTestNet then SCRIPT_ADDRESS_TEST else SCRIPT_ADDRESS, hash160⟩

/-! ## Scripts -/

/-- `SetBitcoinAddress`; the hash is pushed as 20 bytes. -/
def setBitcoinAddress (address : CBitcoinAddress) : Option CScript :=
  address.getHash160.map fun hash160 =>
    if address.isScript ae.fTestNet then OP_HASH160 :: 20 :: (hash160 ++ [OP_EQUAL])
    else OP_DUP :: OP_HASH160 :: 20 :: (hash160 ++ [OP_EQUALVERIFY, OP_CHECKSIG])

def extractAddress (scriptPubKey : CScript) : Option CBitcoinAddress :=
  match solver scriptPubKey with
  | none => none
  | some (.pubkey, vSolutions) => some (ae.setPubKey (vSolutions.headD []))
  | some (.pubkeyhash, vSolutions) => some (ae.setHash160 (uint160 (vSolutions.headD [])))
  | some (.scripthash, vSolutions) => some (ae.setScriptHash160 (uint160 (vSolutions.headD [])))
  -- "Multisig txns have more than one address..."
  | some _ => none

/-- `ExtractAddresses`, with `typeRet`, `addressRet` and `nRequiredRet` -/
def extractAddresses (scriptPubKey : CScript) :
    Option (TxnOutType × List CBitcoinAddress × Nat) :=
  match solver scriptPubKey with
  | none => none
  | some (.multisig, vSolutions) =>
      let nRequiredRet := ((vSolutions.head?.bind List.head?).getD 0).toNat
      some (.multisig, vSolutions.tail.dropLast.map ae.setPubKey, nRequiredRet)
  | some (typeRet, vSolutions) =>
      let front := vSolutions.headD []
      let address : CBitcoinAddress :=
        if typeRet = .pubkeyhash then ae.setHash160 (uint160 front)
        else if typeRet = .scripthash then ae.setScriptHash160 (uint160 front)
        else if typeRet = .pubkey then ae.setPubKey front
        else ⟨0, []⟩
      some (typeRet, [address], 1)

end AddressEnv

/-- `EncodeOP_N` of an `int`; `none` where the assertion fails. -/
def encodeOP_NInt (n : ℤ) : Option OpcodeType :=
  if 0 ≤ n ∧ n ≤ 16 then some (encodeOP_N n.toNat) else none

/-- `SetMultisig`; `keys.size()` is passed on as an `int`. -/
def setMultisig (nRequired : ℤ) (keys : List CKey) : Option CScript :=
  (encodeOP_NInt nRequired).bind fun opM =>
    (encodeOP_NInt ((keys.length : ℤ).bmod (2 ^ 32))).map fun opN =>
      opM :: ((keys.flatMap fun key => pushData key.pubKey) ++ [opN, OP_CHECKMULTISIG])

/-! ## An address and its script -/

theorem CBitcoinAddress.isValid_cases {address : CBitcoinAddress} {fTestNet : Bool}
    (h : address.isValid fTestNet = true) :
    address.vchData.length = 20 ∧
      (address.nVersion = (if fTestNet then PUBKEY_ADDRESS_TEST else PUBKEY_ADDRESS) ∨
        address.nVersion = if fTestNet then SCRIPT_ADDRESS_TEST else SCRIPT_ADDRESS) := by
  unfold isValid expected at h
  cases fTestNet <;> split_ifs at h with h₁ h₂ h₃ h₄ <;> simp_all

namespace AddressEnv

variable {ae : AddressEnv} {address : CBitcoinAddress}

/-- The script of a valid address is one of two standard scripts, and the address is the one that its
type and its hash stand for. -/
theorem setBitcoinAddress_standard (h : address.isValid ae.fTestNet = true) :
    ∃ script, ae.setBitcoinAddress address = some script ∧
      (Standard script .scripthash [address.vchData] ∧ ae.setScriptHash160 address.vchData = address ∨
        Standard script .pubkeyhash [address.vchData] ∧ ae.setHash160 address.vchData = address) := by
  obtain ⟨hlen, hversion⟩ := CBitcoinAddress.isValid_cases h
  have hhash : address.getHash160 = some address.vchData := if_pos hlen
  obtain ⟨nVersion, vchData⟩ := address
  refine ⟨_, by rw [setBitcoinAddress, hhash, Option.map_some], ?_⟩
  by_cases hscript : CBitcoinAddress.isScript ⟨nVersion, vchData⟩ ae.fTestNet = true
  · left
    rw [if_pos hscript]
    refine ⟨.scripthash hlen, ?_⟩
    unfold CBitcoinAddress.isScript at hscript
    rw [h] at hscript
    unfold setScriptHash160
    cases hnet : ae.fTestNet <;> simp_all
  · right
    rw [if_neg hscript]
    have hpush : IsPush vchData (20 :: vchData) := by
      have hdirect : IsPush vchData (UInt8.ofNat vchData.length :: vchData) :=
        .direct (by rw [hlen]; decide)
      rw [hlen] at hdirect
      exact hdirect
    refine ⟨.pubkeyhash hpush hlen, ?_⟩
    unfold CBitcoinAddress.isScript at hscript
    rw [h] at hscript
    unfold setHash160
    cases hnet : ae.fTestNet <;> simp_all

theorem extractAddress_setBitcoinAddress (h : address.isValid ae.fTestNet = true) :
    (ae.setBitcoinAddress address).bind ae.extractAddress = some address := by
  obtain ⟨hlen, -⟩ := CBitcoinAddress.isValid_cases h
  have huint : uint160 address.vchData = address.vchData := if_pos hlen
  obtain ⟨script, hset, hstandard⟩ := setBitcoinAddress_standard h
  rw [hset, Option.bind_some, extractAddress]
  rcases hstandard with ⟨hstandard, haddress⟩ | ⟨hstandard, haddress⟩
  · rw [solver_of_standard hstandard]
    show some (ae.setScriptHash160 (uint160 address.vchData)) = _
    rw [huint, haddress]
  · rw [solver_of_standard hstandard]
    show some (ae.setHash160 (uint160 address.vchData)) = _
    rw [huint, haddress]

end AddressEnv

/-! ## Keys and their script -/

section

variable {nRequired : ℤ} {keys : List CKey} {script : CScript}

theorem encodeOP_NInt_eq_some {n : ℤ} {opcode : OpcodeType} (h : encodeOP_NInt n = some opcode) :
    ∃ k : Nat, n = k ∧ k ≤ 16 ∧ opcode = encodeOP_N k := by
  unfold encodeOP_NInt at h
  split at h
  · next hrange =>
      cases h
      exact ⟨n.toNat, by omega, by omega, rfl⟩
  · cases h

/-- What `SetMultisig` writes -/
theorem setMultisig_eq_some (h : setMultisig nRequired keys = some script) :
    ∃ m n : Nat, nRequired = m ∧ m ≤ 16 ∧ (keys.length : ℤ).bmod (2 ^ 32) = n ∧ n ≤ 16 ∧
      script = encodeOP_N m :: ((keys.flatMap fun key => pushData key.pubKey)
        ++ [encodeOP_N n, OP_CHECKMULTISIG]) := by
  obtain ⟨opM, hM, h⟩ := Option.bind_eq_some_iff.mp h
  obtain ⟨opN, hN, h⟩ := Option.map_eq_some_iff.mp h
  obtain ⟨m, hm, hmle, rfl⟩ := encodeOP_NInt_eq_some hM
  obtain ⟨n, hn, hnle, rfl⟩ := encodeOP_NInt_eq_some hN
  exact ⟨m, n, hm, hmle, hn, hnle, h.symm⟩

theorem pushes_isPush (hsize : ∀ key ∈ keys, PubKeySize key.pubKey) :
    List.Forall₂ IsPush (keys.map CKey.pubKey) (keys.map fun key => pushData key.pubKey) := by
  rw [List.forall₂_map_left_iff, List.forall₂_map_right_iff, List.forall₂_same]
  intro key hkey
  have hmax := (hsize key hkey).2
  exact isPush_pushData (by omega)

theorem bmod_length (h : keys.length ≤ 16) : (keys.length : ℤ).bmod (2 ^ 32) = keys.length := by
  apply Int.bmod_eq_of_le <;> omega

theorem setMultisig_standard (hsize : ∀ key ∈ keys, PubKeySize key.pubKey) {m : Nat} (hm : 1 ≤ m)
    (hle : m ≤ keys.length) (h16 : keys.length ≤ 16) :
    ∃ script, setMultisig m keys = some script ∧ Standard script .multisig
      ([UInt8.ofNat m] :: (keys.map CKey.pubKey ++ [[UInt8.ofNat keys.length]])) := by
  have hencode : ∀ n : Nat, n ≤ 16 → encodeOP_NInt n = some (encodeOP_N n) := by
    intro n hn
    unfold encodeOP_NInt
    rw [if_pos (by omega), Int.toNat_natCast]
  refine ⟨encodeOP_N m :: ((keys.flatMap fun key => pushData key.pubKey)
    ++ [encodeOP_N keys.length, OP_CHECKMULTISIG]), ?_, ?_⟩
  · unfold setMultisig
    rw [hencode m (hle.trans h16), Option.bind_some, bmod_length h16, hencode _ h16, Option.map_some]
  · have hstandard := Standard.multisig (m := m) (pushes_isPush hsize) (by simpa using hsize) hm
      (by rwa [List.length_map]) (by rwa [List.length_map])
    rw [List.length_map, ← List.flatMap_def] at hstandard
    exact hstandard

/-- Where `Solver` knows a script of `SetMultisig`, as many signatures are required as there are keys
for. -/
theorem solver_setMultisig {typeRet : TxnOutType} {vSolutions : List Bytes}
    (hsize : ∀ key ∈ keys, PubKeySize key.pubKey) (h : setMultisig nRequired keys = some script)
    (hsolver : solver script = some (typeRet, vSolutions)) :
    1 ≤ nRequired ∧ nRequired ≤ keys.length ∧ keys.length ≤ 16 := by
  obtain ⟨m, n, rfl, hm, -, hn, hscript⟩ := setMultisig_eq_some h
  have hend : Parses [encodeOP_N n, OP_CHECKMULTISIG]
      [(encodeOP_N n, []), (OP_CHECKMULTISIG, [])] :=
    .cons (getOp_encodeOP_N hn _) (.cons_opcode (by decide) .nil)
  obtain ⟨read, hkeys, hread⟩ := parses_pushes (pushes_isPush hsize) hend
  have hparses : Parses script ((encodeOP_N m, []) :: (read
      ++ [(encodeOP_N n, []), (OP_CHECKMULTISIG, [])])) := by
    rw [hscript, List.flatMap_def]
    exact .cons (getOp_encodeOP_N hm _) hread
  obtain ⟨-, hdecode, hmax⟩ := encodeOP_N_spec hm
  have hfirst : ∀ op, OP_16 < op → encodeOP_N m ≠ op := by
    rintro op hop rfl
    exact UInt8.not_lt.mpr hmax hop
  cases typeRet with
  | nonstandard => exact absurd hsolver solver_ne_nonstandard
  | pubkey =>
      obtain ⟨-, opcode, vchPubKey, -, hkey, hops⟩ := solver_pubkey hsolver
      have hsame := hparses.unique hops
      rw [List.cons.injEq, Prod.mk.injEq] at hsame
      exact absurd hsame.1.2.symm hkey.ne_nil
  | pubkeyhash =>
      obtain ⟨-, opcode, hash160, -, -, hops⟩ := solver_pubkeyhash hsolver
      have hsame := hparses.unique hops
      rw [List.cons.injEq, Prod.mk.injEq] at hsame
      exact absurd hsame.1.1 (hfirst _ (by decide))
  | scripthash =>
      obtain ⟨hash, -, -, heq⟩ := isPayToScriptHash_eq (solver_scripthash hsolver).1
      rw [hscript, List.cons.injEq] at heq
      exact absurd heq.1 (hfirst _ (by decide))
  | multisig =>
      obtain ⟨-, m', keys', -, hmultisig⟩ := solver_multisig hsolver
      obtain ⟨opM, opN, pushes, hpushes, hops, -, hM, -, -⟩ := hmultisig.parses
      have hsame := hparses.unique hops
      rw [List.cons.injEq, Prod.mk.injEq] at hsame
      obtain ⟨⟨rfl, -⟩, htail⟩ := hsame
      obtain rfl := List.append_inj_left' htail rfl
      have hlen : keys'.length = keys.length := by
        rw [← hpushes, hkeys, List.length_map]
      have hpos := hmultisig.pos
      have hle := hmultisig.le
      have h16 := hmultisig.keys_le
      omega

theorem AddressEnv.extractAddresses_multisig (ae : AddressEnv) {m : Nat} {vchPubKeys : List Bytes}
    {last : Bytes} (hm : m ≤ 16)
    (h : solver script = some (.multisig, [UInt8.ofNat m] :: (vchPubKeys ++ [last]))) :
    ae.extractAddresses script = some (.multisig, vchPubKeys.map ae.setPubKey, m) := by
  have hbyte : (UInt8.ofNat m).toNat = m := UInt8.toNat_ofNat_of_lt (lt_of_le_of_lt hm (by decide))
  unfold extractAddresses
  rw [h]
  show some (TxnOutType.multisig, (vchPubKeys ++ [last]).dropLast.map ae.setPubKey,
    (UInt8.ofNat m).toNat) = _
  rw [List.dropLast_concat, hbyte]

/-- What `ExtractAddresses` makes of a script of `SetMultisig` -/
theorem AddressEnv.extractAddresses_setMultisig (ae : AddressEnv) (nRequired : ℤ)
    (hsize : ∀ key ∈ keys, PubKeySize key.pubKey) :
    (setMultisig nRequired keys).bind ae.extractAddresses
      = if 1 ≤ nRequired ∧ nRequired ≤ keys.length ∧ keys.length ≤ 16 then
          some (.multisig, keys.map fun key => ae.setPubKey key.pubKey, nRequired.toNat)
        else none := by
  split
  · next hcounts =>
      obtain ⟨hpos, hle, h16⟩ := hcounts
      obtain ⟨m, rfl⟩ := Int.eq_ofNat_of_zero_le (show 0 ≤ nRequired by omega)
      obtain ⟨script, hset, hstandard⟩ :=
        setMultisig_standard hsize (show 1 ≤ m by omega) (by omega) h16
      rw [hset, Option.bind_some,
        ae.extractAddresses_multisig (by omega) (solver_of_standard hstandard), List.map_map]
      rfl
  · next hcounts =>
      cases hset : setMultisig nRequired keys with
      | none => rfl
      | some script =>
          rw [Option.bind_some, extractAddresses]
          cases hsolver : solver script with
          | none => rfl
          | some solved => exact absurd (solver_setMultisig hsize hset hsolver) hcounts

end

/-! ## The grammar and the addresses -/

/-- `Solver` accepts the standard scripts, each with its type and its solutions, and nothing else. So
the address of a script of `SetBitcoinAddress` is the one that was set, and a script of `SetMultisig`
gives its keys' addresses and the required count where that many keys are there. -/
theorem solver_grammar (ae : AddressEnv) :
    (∀ script typeRet vSolutions,
      solver script = some (typeRet, vSolutions) ↔ Standard script typeRet vSolutions) ∧
    (∀ address : CBitcoinAddress, address.isValid ae.fTestNet = true →
      (ae.setBitcoinAddress address).bind ae.extractAddress = some address) ∧
    ∀ (nRequired : ℤ) (keys : List CKey), (∀ key ∈ keys, PubKeySize key.pubKey) →
      (setMultisig nRequired keys).bind ae.extractAddresses
        = if 1 ≤ nRequired ∧ nRequired ≤ keys.length ∧ keys.length ≤ 16 then
            some (.multisig, keys.map fun key => ae.setPubKey key.pubKey, nRequired.toNat)
          else none := by
  refine ⟨fun script typeRet vSolutions => ⟨solver_standard, solver_of_standard⟩, ?_, ?_⟩
  · intro address hvalid
    exact AddressEnv.extractAddress_setBitcoinAddress hvalid
  · intro nRequired keys hsize
    exact ae.extractAddresses_setMultisig nRequired hsize

/-- The main network, with a hash that keeps 20 bytes of the key -/
def mainAddresses : AddressEnv where
  fTestNet := false
  hash160 vch := vch.take 20

/-- A compressed key, by its last byte -/
def keyEndingIn (b : UInt8) : CKey where
  pubKey := 2 :: (List.replicate 31 0 ++ [b])
  sign _ _ := none

theorem solver_grammar_twoKeys :
    (setMultisig 1 [keyEndingIn 1, keyEndingIn 2]).bind mainAddresses.extractAddresses
      = some (.multisig, [mainAddresses.setPubKey (keyEndingIn 1).pubKey,
          mainAddresses.setPubKey (keyEndingIn 2).pubKey], 1) :=
  ((solver_grammar mainAddresses).2.2 1 [keyEndingIn 1, keyEndingIn 2] (by decide)).trans (by decide)

/-- `SetMultisig` also writes a script that requires no signature, which `Solver` does not know. -/
theorem setMultisig_noneRequired : ∃ script, setMultisig 0 [keyEndingIn 1] = some script ∧
    PubKeySize (keyEndingIn 1).pubKey ∧ mainAddresses.extractAddresses script = none := by
  refine ⟨OP_0 :: (pushData (keyEndingIn 1).pubKey ++ [OP_1, OP_CHECKMULTISIG]), rfl, by decide, ?_⟩
  have hnone : (setMultisig 0 [keyEndingIn 1]).bind mainAddresses.extractAddresses = _ :=
    mainAddresses.extractAddresses_setMultisig 0 (by decide)
  exact hnone

end ShinyCoin

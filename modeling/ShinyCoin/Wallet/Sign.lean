import ShinyCoin.Script.Solver
import ShinyCoin.Script.Eval
import ShinyCoin.Script.SignatureHash
import ShinyCoin.Wallet.Balance
import ShinyCoin.Wallet.Create

/-!
# Signing

`SignSignature` solves the script of an output with the keys of a key store, and for the hash of a
redeem script solves that one and adds it to what it found. In the end it verifies its own solution.
The asserts in front fail where the input does not spend an output of the other transaction.
-/

namespace ShinyCoin

/-- What a signing node works with: hash functions, ECDSA, and the version byte of an address. -/
structure SignEnv where
  env : Env
  ecdsa : Ecdsa
  ripemd160 : Bytes → Bytes
  sha1 : Bytes → Bytes
  sha256 : Bytes → Bytes
  hash160 : Bytes → Bytes
  hash256 : Bytes → Bytes
  pubkeyVersion : UInt8

/-- The solution, as far as it matters whose the script is -/
def ScriptSolution.ofSolver : TxnOutType × List Bytes → ScriptSolution
  | (.nonstandard, _) => .nonstandard
  | (.pubkey, vSolutions) => .pubkey (vSolutions.headD [])
  | (.pubkeyhash, vSolutions) => .pubkeyhash (vSolutions.headD [])
  | (.scripthash, vSolutions) => .scripthash (vSolutions.headD [])
  | (.multisig, vSolutions) => .multisig vSolutions.tail.dropLast

namespace SignEnv

/-- `SetPubKey` of an address -/
def pubKeyAddress (se : SignEnv) (vchPubKey : Bytes) : CBitcoinAddress :=
  ⟨se.pubkeyVersion, se.hash160 vchPubKey⟩

def scripts (se : SignEnv) : ScriptEnv where
  solver scriptPubKey := (solver scriptPubKey).map ScriptSolution.ofSolver
  hash160 := se.hash160
  pubkeyVersion := se.pubkeyVersion

/-- What a script is run with for an input -/
def evalEnv (se : SignEnv) (txTo : CTransaction) (nIn : Nat) (nHashType : ℤ) : EvalEnv where
  ripemd160 := se.ripemd160
  sha1 := se.sha1
  sha256 := se.sha256
  hash160 := se.hash160
  hash256 := se.hash256
  checkSig vchSig vchPubKey scriptCode :=
    se.ecdsa.checkSig se.env vchSig vchPubKey scriptCode txTo nIn nHashType

end SignEnv

/-! ## The key store -/

/-- A private key: its public key, and `Sign` of a hash with a random number. -/
structure CKey where
  pubKey : Bytes
  sign : Uint256 → Nat → Option Bytes

/-- A key store that is not locked. Keys and redeem scripts are stored under their hashes. -/
structure SigningStore (se : SignEnv) extends CKeyStore where
  key : CBitcoinAddress → CKey
  key_address : ∀ address ∈ mapKeys, address = se.pubKeyAddress (key address).pubKey
  script_hash : ∀ entry ∈ mapScripts, entry.1 = se.hash160 entry.2

namespace SigningStore

variable {se : SignEnv}

def getKey (keystore : SigningStore se) (address : CBitcoinAddress) : Option CKey :=
  if keystore.haveKey address then some (keystore.key address) else none

def getPubKey (keystore : SigningStore se) (address : CBitcoinAddress) : Option Bytes :=
  (keystore.getKey address).map CKey.pubKey

/-- `Sign1`, with `scriptSigRet` -/
def sign1 (keystore : SigningStore se) (address : CBitcoinAddress) (hash : Uint256) (nHashType : ℤ)
    (k : Nat) (scriptSig : CScript) : Bool × CScript :=
  match (keystore.getKey address).bind fun key => key.sign hash k with
  | none => (false, scriptSig)
  | some vchSig => (true, scriptSig ++ pushData (vchSig ++ [UInt8.ofNat (nHashType % 256).toNat]))

/-- The loop of `SignN` over the keys from number `i` on: `nSigned` and `scriptSigRet` in the end. -/
def signKeys (keystore : SigningStore se) (hash : Uint256) (nHashType : ℤ) (ks : Nat → Nat)
    (nRequired : Nat) : List Bytes → Nat → Nat → CScript → Nat × CScript
  | [], _, nSigned, scriptSig => (nSigned, scriptSig)
  | pubkey :: pubkeys, i, nSigned, scriptSig =>
      let (fSigned, scriptSig) :=
        keystore.sign1 (se.pubKeyAddress pubkey) hash nHashType (ks i) scriptSig
      if !fSigned then signKeys keystore hash nHashType ks nRequired pubkeys (i + 1) nSigned scriptSig
      else if nSigned + 1 = nRequired then (nSigned + 1, scriptSig)
      else signKeys keystore hash nHashType ks nRequired pubkeys (i + 1) (nSigned + 1) scriptSig

def signN (keystore : SigningStore se) (multisigdata : List Bytes) (hash : Uint256) (nHashType : ℤ)
    (ks : Nat → Nat) (scriptSig : CScript) : Bool × CScript :=
  let nRequired := ((multisigdata.head?.bind List.head?).getD 0).toNat
  let (nSigned, scriptSig) :=
    keystore.signKeys hash nHashType ks nRequired multisigdata.tail.dropLast 0 0 scriptSig
  (nSigned == nRequired, scriptSig)

/-- `Solver(keystore, scriptPubKey, …)`: whether the script was solved, `scriptSigRet` and
`whichTypeRet`. -/
def solve (keystore : SigningStore se) (scriptPubKey : CScript) (hash : Uint256) (nHashType : ℤ)
    (ks : Nat → Nat) : Bool × CScript × TxnOutType :=
  match solver scriptPubKey with
  | none => (false, [], .nonstandard)
  | some (.nonstandard, _) => (false, [], .nonstandard)
  | some (.pubkey, vSolutions) =>
      let (fSolved, scriptSig) :=
        keystore.sign1 (se.pubKeyAddress (vSolutions.headD [])) hash nHashType (ks 0) []
      (fSolved, scriptSig, .pubkey)
  | some (.pubkeyhash, vSolutions) =>
      let address : CBitcoinAddress := ⟨se.pubkeyVersion, vSolutions.headD []⟩
      let (fSolved, scriptSig) := keystore.sign1 address hash nHashType (ks 0) []
      if !fSolved then (false, scriptSig, .pubkeyhash)
      else (true, scriptSig ++ pushData ((keystore.getPubKey address).getD []), .pubkeyhash)
  | some (.scripthash, vSolutions) =>
      match keystore.getCScript (vSolutions.headD []) with
      | none => (false, [], .scripthash)
      | some subscript => (true, subscript, .scripthash)
  | some (.multisig, vSolutions) =>
      -- "workaround CHECKMULTISIG bug"
      let (fSolved, scriptSig) := keystore.signN vSolutions hash nHashType ks [OP_0]
      (fSolved, scriptSig, .multisig)

/-- "Test solution" -/
def testSolution (se : SignEnv) (txTo : CTransaction) (nIn : Nat) (scriptSig scriptPubKey : CScript) :
    Bool × CTransaction :=
  let txTo := txTo.setScriptSig nIn scriptSig
  (verifyScript (se.evalEnv txTo nIn 0) scriptSig scriptPubKey, txTo)

/-- `SignSignature`, with `txTo` as it leaves it; `none` where an assert fails. The hash type is
`SIGHASH_ALL` unless another one is given, and `ks` are the random numbers of the signatures. -/
def signSignature (keystore : SigningStore se) (ks : Nat → Nat) (txFrom txTo : CTransaction) (nIn : Nat)
    (nHashType : ℤ) : Option (Bool × CTransaction) :=
  txTo.vin[nIn]?.bind fun txin =>
    txFrom.vout[txin.prevout.n]?.bind fun txout =>
      if txin.prevout.hash ≠ se.env.getHash txFrom then none
      else
        let hash := signatureHash se.env txout.scriptPubKey txTo nIn nHashType
        let (fSolved, scriptSig, whichType) := keystore.solve txout.scriptPubKey hash nHashType ks
        let txTo := txTo.setScriptSig nIn scriptSig
        if !fSolved then some (false, txTo)
        else if whichType = .scripthash then
          -- "Solver returns the subscript that need to be evaluated"
          let subscript := scriptSig
          -- "Recompute txn hash using subscript in place of scriptPubKey"
          let hash2 := signatureHash se.env subscript txTo nIn nHashType
          let (fSolved, scriptSig, subType) := keystore.solve subscript hash2 nHashType ks
          let txTo := txTo.setScriptSig nIn scriptSig
          if !fSolved then some (false, txTo)
          else if subType = .scripthash then some (false, txTo)
          else some (testSolution se txTo nIn (scriptSig ++ pushData subscript) txout.scriptPubKey)
        else some (testSolution se txTo nIn scriptSig txout.scriptPubKey)

end SigningStore

end ShinyCoin

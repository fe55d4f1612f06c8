import ShinyCoin.Script.Script
import ShinyCoin.Script.SigCache
import ShinyCoin.Wire.Block

/-!
# What a signature is for

`SignatureHash` hashes the transaction without the scripts of its inputs, except for the script that
is signed, which stands in the signed input; the type of the hash says what else is left out.
`CheckSig` takes the type from the last byte of a signature.
-/

namespace ShinyCoin

def SIGHASH_ALL : ℤ := 1
def SIGHASH_NONE : ℤ := 2
def SIGHASH_SINGLE : ℤ := 3

/-- `nHashType & SIGHASH_ANYONECANPAY` -/
def anyoneCanPay (nHashType : ℤ) : Bool := nHashType / 0x80 % 2 == 1

/-- "Blank out other inputs' signatures" -/
def blankInputs (scriptCode : CScript) (nIn : Nat) (txTo : CTransaction) : CTransaction :=
  { txTo with
    vin := txTo.vin.mapIdx fun i txin => { txin with scriptSig := if i = nIn then scriptCode else [] } }

/-- "Let the others update at will" -/
def zeroSequences (nIn : Nat) (vin : List CTxIn) : List CTxIn :=
  vin.mapIdx fun i txin => if i = nIn then txin else { txin with nSequence := 0 }

/-- "Only lockin the txout payee at same index as txin" -/
def onlyOutput (nOut : Nat) (vout : List CTxOut) : List CTxOut :=
  (vout.take (nOut + 1)).mapIdx fun i txout => if i < nOut then { nValue := -1 } else txout

/-- The transaction that is hashed; `none` where the hash is 1 instead. -/
def signedTx (scriptCode : CScript) (txTo : CTransaction) (nIn : Nat) (nHashType : ℤ) :
    Option CTransaction :=
  if txTo.vin.length ≤ nIn then none
  else
    let scriptCode := (scriptCode.findAndDelete [OP_CODESEPARATOR]).1
    let txTmp := blankInputs scriptCode nIn txTo
    let txTmp :=
      if nHashType % 0x20 = SIGHASH_NONE then
        some { txTmp with vin := zeroSequences nIn txTmp.vin, vout := [] }
      else if nHashType % 0x20 = SIGHASH_SINGLE then
        if txTmp.vout.length ≤ nIn then none
        else some { txTmp with
          vin := zeroSequences nIn txTmp.vin, vout := onlyOutput nIn txTmp.vout }
      else some txTmp
    txTmp.map fun txTmp =>
      if anyoneCanPay nHashType then { txTmp with vin := txTmp.vin[nIn]?.toList } else txTmp

/-- What `SignatureHash` hashes: "Serialize and hash" -/
def signaturePreimage (scriptCode : CScript) (txTo : CTransaction) (nIn : Nat) (nHashType : ℤ) :
    Option Bytes :=
  (signedTx scriptCode txTo nIn nHashType).map fun txTmp =>
    txTmp.serialize ++ Lib.toLE 4 (nHashType % 2 ^ 32).toNat

def signatureHash (env : Env) (scriptCode : CScript) (txTo : CTransaction) (nIn : Nat)
    (nHashType : ℤ) : Uint256 :=
  ((signaturePreimage scriptCode txTo nIn nHashType).map env.hash).getD 1

/-- The scripts of the inputs are not hashed. -/
theorem signatureHash_congr {env : Env} {scriptCode : CScript} {tx tx' : CTransaction} {nIn : Nat}
    {nHashType : ℤ} {f : Nat → CTxIn → CScript}
    (h : tx' = { tx with vin := tx.vin.mapIdx fun i txin => { txin with scriptSig := f i txin } }) :
    signatureHash env scriptCode tx' nIn nHashType = signatureHash env scriptCode tx nIn nHashType := by
  have hblank : ∀ code, blankInputs code nIn tx' = blankInputs code nIn tx := by
    intro code
    rw [h]
    unfold blankInputs
    rw [List.mapIdx_mapIdx]
    rfl
  have hlen : tx'.vin.length = tx.vin.length := by
    rw [h]
    exact List.length_mapIdx
  have hsigned : signedTx scriptCode tx' nIn nHashType = signedTx scriptCode tx nIn nHashType := by
    unfold signedTx
    simp only [hlen, hblank]
  unfold signatureHash signaturePreimage
  rw [hsigned]

/-! ## CheckSig -/

/-- Keys and signatures as a library has them: which byte strings are public keys, and whether a
signature is one of a hash by a key. -/
structure Ecdsa where
  setPubKey : Bytes → Bool
  verify : Bytes → Uint256 → Bytes → Bool

def Ecdsa.sigOps (ecdsa : Ecdsa) (env : Env) : SigOps where
  signatureHash := signatureHash env
  setPubKey := ecdsa.setPubKey
  verify := ecdsa.verify

/-- The verdict of `CheckSig`, which does not depend on the cache. -/
def Ecdsa.checkSig (ecdsa : Ecdsa) (env : Env) (vchSig vchPubKey : Bytes) (scriptCode : CScript)
    (txTo : CTransaction) (nIn : Nat) (nHashType : ℤ) : Bool :=
  let call : CheckSigCall := ⟨vchSig, vchPubKey, scriptCode, txTo, nIn, nHashType, 0, fun _ => 0⟩
  call.hashType.any fun nHashType =>
    (ecdsa.sigOps env).Verifies (call.sigData (ecdsa.sigOps env) nHashType)

/-- It is the verdict of the code, whatever valid signatures it has cached. -/
theorem Ecdsa.checkSig_eq (ecdsa : Ecdsa) (env : Env) (c : CheckSigCall) {cache : CSignatureCache}
    (hvalid : cache.Valid (ecdsa.sigOps env)) :
    (ShinyCoin.checkSig (ecdsa.sigOps env) c cache).1
      = ecdsa.checkSig env c.vchSig c.vchPubKey c.scriptCode c.txTo c.nIn c.nHashType :=
  checkSig_fst hvalid

end ShinyCoin

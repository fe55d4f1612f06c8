import ShinyCoin.Core.Types
import ShinyCoin.Lib.Reader
import ShinyCoin.Lib.TreeMap
import Mathlib.Data.Nat.Notation

/-!
# The encrypted key store

`CCryptoKeyStore` keeps private keys under their addresses. When it is encrypted, it keeps the public
key and the secret that is encrypted with the master key, with the hash of the public key as the
initialization vector. Whether a key is compressed is not kept then; the size of its public key says
it.

The functions of OpenSSL are parameters. A function that throws gives no result.
-/

namespace ShinyCoin

/-- `CBase58Data::CompareTo` -/
instance : Ord CBitcoinAddress :=
  ⟨compareLex (compareOn CBitcoinAddress.nVersion) (compareOn CBitcoinAddress.vchData)⟩

instance : Std.TransOrd CBitcoinAddress :=
  inferInstanceAs (Std.TransCmp
    (compareLex (compareOn CBitcoinAddress.nVersion) (compareOn CBitcoinAddress.vchData)))

instance : Std.LawfulEqOrd CBitcoinAddress where
  eq_of_compare {a b} h := by
    obtain ⟨hversion, hdata⟩ := Ordering.then_eq_eq.mp h
    have hversion : a.nVersion = b.nVersion := Std.LawfulEqCmp.eq_of_compare hversion
    have hdata : a.vchData = b.vchData := Std.LawfulEqCmp.eq_of_compare hdata
    cases a
    cases b
    cases hversion
    cases hdata
    rfl

namespace Crypter

/-- "CSecret is a serialization of just the secret parameter (32 bytes)" -/
abbrev CSecret := { vchSecret : Bytes // vchSecret.length = 32 }

abbrev CKeyingMaterial := Bytes

def WALLET_CRYPTO_KEY_SIZE : Nat := 32

structure KeyEnv where
  hash : Bytes → Uint256
  hash160 : Bytes → Bytes
  pubkeyVersion : UInt8
  /-- `i2o_ECPublicKey` of the key that `EC_KEY_regenerate_key` makes of a secret, uncompressed or
  compressed -/
  pubKey : CSecret → Bool → Bytes
  /-- Whether `o2i_ECPublicKey` succeeds. -/
  isPubKey : Bytes → Bool
  /-- `EVP_aes_256_cbc()` with a key and an initialization vector -/
  encrypt : Bytes → Bytes → Bytes → Option Bytes
  decrypt : Bytes → Bytes → Bytes → Option Bytes

/-- `CBitcoinAddress(vchPubKey)` -/
def KeyEnv.address (ke : KeyEnv) (vchPubKey : Bytes) : CBitcoinAddress :=
  ⟨ke.pubkeyVersion, ke.hash160 vchPubKey⟩

/-! ## Encryption -/

structure CCrypter where
  chKey : Bytes := []
  chIV : Bytes := []
  fKeySet : Bool := false

namespace CCrypter

def setKey (crypter : CCrypter) (chNewKey : CKeyingMaterial) (chNewIV : Bytes) : Option CCrypter :=
  if chNewKey.length ≠ WALLET_CRYPTO_KEY_SIZE ∨ chNewIV.length ≠ WALLET_CRYPTO_KEY_SIZE then none
  else some { crypter with chKey := chNewKey, chIV := chNewIV, fKeySet := true }

def encrypt (ke : KeyEnv) (crypter : CCrypter) (vchPlaintext : CKeyingMaterial) : Option Bytes :=
  if !crypter.fKeySet then none else ke.encrypt crypter.chKey crypter.chIV vchPlaintext

def decrypt (ke : KeyEnv) (crypter : CCrypter) (vchCiphertext : Bytes) : Option CKeyingMaterial :=
  if !crypter.fKeySet then none else ke.decrypt crypter.chKey crypter.chIV vchCiphertext

end CCrypter

def encryptSecret (ke : KeyEnv) (vMasterKey : CKeyingMaterial) (vchPlaintext : CSecret)
    (nIV : Uint256) : Option Bytes := do
  let cKeyCrypter ← ({} : CCrypter).setKey vMasterKey (Lib.toLE WALLET_CRYPTO_KEY_SIZE nIV)
  cKeyCrypter.encrypt ke vchPlaintext

def decryptSecret (ke : KeyEnv) (vMasterKey : CKeyingMaterial) (vchCiphertext : Bytes)
    (nIV : Uint256) : Option Bytes := do
  let cKeyCrypter ← ({} : CCrypter).setKey vMasterKey (Lib.toLE WALLET_CRYPTO_KEY_SIZE nIV)
  cKeyCrypter.decrypt ke vchCiphertext

/-! ## Keys -/

/-- `CKey`: the private key of `pkey`, if it has one, and its public key. -/
structure CKey where
  vchSecret : Option CSecret := none
  vchPubKey : Bytes := []
  fSet : Bool := false
  fCompressedPubKey : Bool := false

namespace CKey

def setSecret (ke : KeyEnv) (key : CKey) (vchSecret : CSecret) (fCompressed : Bool) : CKey :=
  let fCompressed := fCompressed || key.fCompressedPubKey
  { vchSecret := some vchSecret
    vchPubKey := ke.pubKey vchSecret fCompressed
    fSet := true
    fCompressedPubKey := fCompressed }

/-- `GetSecret`, with `fCompressed` -/
def getSecret (key : CKey) : Option (CSecret × Bool) :=
  key.vchSecret.map fun vchSecret => (vchSecret, key.fCompressedPubKey)

/-- `SetPubKey`, whose result nobody looks at -/
def setPubKey (ke : KeyEnv) (key : CKey) (vchPubKey : Bytes) : CKey :=
  if ke.isPubKey vchPubKey then
    { key with
      vchPubKey := vchPubKey
      fSet := true
      fCompressedPubKey := key.fCompressedPubKey || vchPubKey.length == 33 }
  else key

def getPubKey (key : CKey) : Bytes := key.vchPubKey

/-- A key with a secret; the secret and the compression decide the public key. -/
def IsPrivate (ke : KeyEnv) (key : CKey) : Prop :=
  ∃ vchSecret, key.vchSecret = some vchSecret ∧
    key.vchPubKey = ke.pubKey vchSecret key.fCompressedPubKey

end CKey

/-! ## The store -/

structure CCryptoKeyStore where
  mapKeys : Std.ExtTreeMap CBitcoinAddress (CSecret × Bool) compare := ∅
  mapCryptedKeys : Std.ExtTreeMap CBitcoinAddress (Bytes × Bytes) compare := ∅
  vMasterKey : CKeyingMaterial := []
  fUseCrypto : Bool := false

namespace CCryptoKeyStore

def isCrypted (s : CCryptoKeyStore) : Bool := s.fUseCrypto

def isLocked (s : CCryptoKeyStore) : Bool := s.isCrypted && s.vMasterKey.isEmpty

def setCrypted (s : CCryptoKeyStore) : Bool × CCryptoKeyStore :=
  if s.fUseCrypto then (true, s)
  else if !s.mapKeys.isEmpty then (false, s)
  else (true, { s with fUseCrypto := true })

def lock (s : CCryptoKeyStore) : Bool × CCryptoKeyStore :=
  match s.setCrypted with
  | (false, s) => (false, s)
  | (true, s) => (true, { s with vMasterKey := [] })

/-- A key of `mapCryptedKeys`, with the master key, put into `key` -/
def openKey (ke : KeyEnv) (vMasterKey : CKeyingMaterial) (vchPubKey vchCryptedSecret : Bytes)
    (key : CKey) : Option CKey := do
  let vchSecret ← decryptSecret ke vMasterKey vchCryptedSecret (ke.hash vchPubKey)
  if hsize : vchSecret.length = 32 then
    return (key.setPubKey ke vchPubKey).setSecret ke ⟨vchSecret, hsize⟩ false
  else none

/-- The loop of `Unlock`, which ends at the first key. -/
def opensFirst (ke : KeyEnv) (vMasterKeyIn : CKeyingMaterial) :
    List (CBitcoinAddress × Bytes × Bytes) → Bool
  | [] => true
  | (_, vchPubKey, vchCryptedSecret) :: _ =>
      match openKey ke vMasterKeyIn vchPubKey vchCryptedSecret {} with
      | none => false
      | some key => key.getPubKey == vchPubKey

def unlock (ke : KeyEnv) (s : CCryptoKeyStore) (vMasterKeyIn : CKeyingMaterial) :
    Bool × CCryptoKeyStore :=
  match s.setCrypted with
  | (false, s) => (false, s)
  | (true, s) =>
      if opensFirst ke vMasterKeyIn s.mapCryptedKeys.toList then
        (true, { s with vMasterKey := vMasterKeyIn })
      else (false, s)

def addCryptedKey (ke : KeyEnv) (s : CCryptoKeyStore) (vchPubKey vchCryptedSecret : Bytes) :
    Bool × CCryptoKeyStore :=
  match s.setCrypted with
  | (false, s) => (false, s)
  | (true, s) => (true, { s with
      mapCryptedKeys :=
        s.mapCryptedKeys.insert (ke.address vchPubKey) (vchPubKey, vchCryptedSecret) })

/-- `AddKey`, first as that of `CBasicKeyStore` -/
def addKey (ke : KeyEnv) (s : CCryptoKeyStore) (key : CKey) : Option (Bool × CCryptoKeyStore) :=
  if !s.isCrypted then do
    let (secret, fCompressed) ← key.getSecret
    return (true, { s with
      mapKeys := s.mapKeys.insert (ke.address key.getPubKey) (secret, fCompressed) })
  else if s.isLocked then some (false, s)
  else do
    let (secret, _) ← key.getSecret
    match encryptSecret ke s.vMasterKey secret (ke.hash key.getPubKey) with
    | none => return (false, s)
    | some vchCryptedSecret => return s.addCryptedKey ke key.getPubKey vchCryptedSecret

/-- `GetKey`, with `keyOut` before and after -/
def getKey (ke : KeyEnv) (s : CCryptoKeyStore) (address : CBitcoinAddress) (keyOut : CKey) :
    Option CKey :=
  if !s.isCrypted then
    s.mapKeys[address]?.map fun (secret, fCompressed) =>
      ({} : CKey).setSecret ke secret fCompressed
  else s.mapCryptedKeys[address]?.bind fun (vchPubKey, vchCryptedSecret) =>
    openKey ke s.vMasterKey vchPubKey vchCryptedSecret keyOut

def getPubKey (ke : KeyEnv) (s : CCryptoKeyStore) (address : CBitcoinAddress) : Option Bytes :=
  if !s.isCrypted then (s.getKey ke address {}).map CKey.getPubKey
  else s.mapCryptedKeys[address]?.map Prod.fst

def haveKey (s : CCryptoKeyStore) (address : CBitcoinAddress) : Bool :=
  if !s.isCrypted then s.mapKeys.contains address else s.mapCryptedKeys.contains address

/-- `GetKeys`, in the order of the set -/
def getKeys (s : CCryptoKeyStore) : List CBitcoinAddress :=
  if !s.isCrypted then s.mapKeys.keys else s.mapCryptedKeys.keys

/-- The loop of `EncryptKeys` -/
def encryptLoop (ke : KeyEnv) (vMasterKeyIn : CKeyingMaterial) :
    List (CBitcoinAddress × CSecret × Bool) → CCryptoKeyStore → Bool × CCryptoKeyStore
  | [], s => (true, { s with mapKeys := ∅ })
  | (_, secret, fCompressed) :: mapKeys, s =>
      let vchPubKey := (({} : CKey).setSecret ke secret fCompressed).getPubKey
      match encryptSecret ke vMasterKeyIn secret (ke.hash vchPubKey) with
      | none => (false, s)
      | some vchCryptedSecret =>
          match s.addCryptedKey ke vchPubKey vchCryptedSecret with
          | (false, s) => (false, s)
          | (true, s) => encryptLoop ke vMasterKeyIn mapKeys s

def encryptKeys (ke : KeyEnv) (s : CCryptoKeyStore) (vMasterKeyIn : CKeyingMaterial) :
    Bool × CCryptoKeyStore :=
  if !s.mapCryptedKeys.isEmpty || s.isCrypted then (false, s)
  else encryptLoop ke vMasterKeyIn s.mapKeys.toList { s with fUseCrypto := true }

end CCryptoKeyStore

end Crypter

end ShinyCoin

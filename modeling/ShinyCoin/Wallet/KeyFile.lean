import ShinyCoin.Wallet.Encrypted

/-!
# The keys in `wallet.dat`

`CWallet` writes each key it adds to its file, and looks them up in the file when it starts. The keys
of an encrypted wallet are encrypted with a master key, and that with a key made of the passphrase: the
file has the master key encrypted, and no key that is not. Encrypting is one transaction of the
database; when it fails, the program exits.

Only the records of keys are modelled, and the disk does what it is told.
-/

namespace ShinyCoin

namespace Crypter

def WALLET_CRYPTO_SALT_SIZE : Nat := 8

/-- More of OpenSSL: `EVP_BytesToKey` with `EVP_sha512()`, which makes a key and an initialization
vector of the passphrase, the salt and the number of rounds; `i2d_ECPrivateKey`, and
`d2i_ECPrivateKey`, which gives a public key too. -/
structure WalletEnv extends KeyEnv where
  bytesToKey : Bytes → Bytes → Nat → Bytes × Bytes
  privKey : CSecret → Bool → Bytes
  readPrivKey : Bytes → Option (CSecret × Bytes)

def CCrypter.setKeyFromPassphrase (we : WalletEnv) (crypter : CCrypter) (strKeyData chSalt : Bytes)
    (nRounds nDerivationMethod : Nat) : Option CCrypter :=
  if nRounds < 1 ∨ chSalt.length ≠ WALLET_CRYPTO_SALT_SIZE then none
  -- no other method makes a key
  else if nDerivationMethod ≠ 0 then none
  else
    let (chKey, chIV) := we.bytesToKey strKeyData chSalt nRounds
    if chKey.length ≠ WALLET_CRYPTO_KEY_SIZE then none
    else some { crypter with chKey := chKey, chIV := chIV, fKeySet := true }

structure CMasterKey where
  vchCryptedKey : Bytes := []
  vchSalt : Bytes := []
  nDerivationMethod : Nat := 0
  nDeriveIterations : Nat := 25000

/-- The master key, with a passphrase -/
def CMasterKey.open (we : WalletEnv) (strWalletPassphrase : Bytes) (kMasterKey : CMasterKey) :
    Option CKeyingMaterial := do
  let crypter ← ({} : CCrypter).setKeyFromPassphrase we strWalletPassphrase kMasterKey.vchSalt
    kMasterKey.nDeriveIterations kMasterKey.nDerivationMethod
  crypter.decrypt we.toKeyEnv kMasterKey.vchCryptedKey

namespace CKey

/-- `SetPrivKey`, whose result nobody looks at -/
def setPrivKey (we : WalletEnv) (key : CKey) (vchPrivKey : Bytes) : CKey :=
  match we.readPrivKey vchPrivKey with
  | none => key
  | some (vchSecret, vchPubKey) => { key with vchSecret := some vchSecret, vchPubKey, fSet := true }

def isValid (ke : KeyEnv) (key : CKey) : Bool :=
  key.fSet && match key.vchSecret with
    | none => false
    | some vchSecret => key.vchPubKey == ke.pubKey vchSecret key.fCompressedPubKey

end CKey

/-! ## The file -/

/-- The records `key` and `ckey`, under public keys, and `mkey` -/
structure WalletFile where
  key : Std.ExtTreeMap Bytes Bytes compare := ∅
  ckey : Std.ExtTreeMap Bytes Bytes compare := ∅
  mkey : Std.ExtTreeMap Nat CMasterKey compare := ∅

namespace WalletFile

/-- `WriteKey`, which does not overwrite -/
def writeKey (file : WalletFile) (vchPubKey vchPrivKey : Bytes) : Bool × WalletFile :=
  if file.key.contains vchPubKey then (false, file)
  else (true, { file with key := file.key.insert vchPubKey vchPrivKey })

/-- `WriteCryptedKey`, which erases the unencrypted key -/
def writeCryptedKey (file : WalletFile) (vchPubKey vchCryptedSecret : Bytes) : Bool × WalletFile :=
  if file.ckey.contains vchPubKey then (false, file)
  else (true, { file with
    ckey := file.ckey.insert vchPubKey vchCryptedSecret
    key := file.key.erase vchPubKey })

def writeMasterKey (file : WalletFile) (nID : Nat) (kMasterKey : CMasterKey) : WalletFile :=
  { file with mkey := file.mkey.insert nID kMasterKey }

end WalletFile

/-! ## The wallet -/

/-- `CWallet`, as far as keys go, and its file -/
structure KeyWallet where
  store : CCryptoKeyStore := {}
  mapMasterKeys : Std.ExtTreeMap Nat CMasterKey compare := ∅
  nMasterKeyMaxID : Nat := 0
  file : WalletFile := {}

namespace KeyWallet

/-- `CWallet::AddCryptedKey` -/
def addCryptedKey (we : WalletEnv) (w : KeyWallet) (vchPubKey vchCryptedSecret : Bytes) :
    Bool × KeyWallet :=
  match w.store.addCryptedKey we.toKeyEnv vchPubKey vchCryptedSecret with
  | (false, s) => (false, { w with store := s })
  | (true, s) =>
      let (fOk, file) := w.file.writeCryptedKey vchPubKey vchCryptedSecret
      (fOk, { w with store := s, file })

/-- `CWallet::AddKey`. The key store calls `AddCryptedKey` of the wallet. -/
def addKey (we : WalletEnv) (w : KeyWallet) (key : CKey) : Option (Bool × KeyWallet) :=
  if !w.store.isCrypted then do
    let (_, s) ← w.store.addKey we.toKeyEnv key
    let (secret, fCompressed) ← key.getSecret
    let (fOk, file) := w.file.writeKey key.getPubKey (we.privKey secret fCompressed)
    return (fOk, { w with store := s, file })
  else if w.store.isLocked then some (false, w)
  else do
    let (secret, _) ← key.getSecret
    match encryptSecret we.toKeyEnv w.store.vMasterKey secret (we.hash key.getPubKey) with
    | none => return (false, w)
    | some vchCryptedSecret => return w.addCryptedKey we key.getPubKey vchCryptedSecret

def lock (w : KeyWallet) : KeyWallet := { w with store := w.store.lock.2 }

/-- The loop of `Unlock`; a passphrase that does not decrypt the master key ends it. -/
def unlockLoop (we : WalletEnv) (strWalletPassphrase : Bytes) :
    List (Nat × CMasterKey) → KeyWallet → Bool × KeyWallet
  | [], w => (false, w)
  | (_, kMasterKey) :: mapMasterKeys, w =>
      match kMasterKey.open we strWalletPassphrase with
      | none => (false, w)
      | some vMasterKey =>
          match w.store.unlock we.toKeyEnv vMasterKey with
          | (true, s) => (true, { w with store := s })
          | (false, s) => unlockLoop we strWalletPassphrase mapMasterKeys { w with store := s }

def unlock (we : WalletEnv) (w : KeyWallet) (strWalletPassphrase : Bytes) : Bool × KeyWallet :=
  if !w.store.isLocked then (false, w)
  else unlockLoop we strWalletPassphrase w.mapMasterKeys.toList w

/-- The loop of `ChangeWalletPassphrase`. `nMeasured` are the rounds the clock asks for. -/
def changeLoop (we : WalletEnv) (strOld strNew : Bytes) (nMeasured : Nat) (fWasLocked : Bool) :
    List (Nat × CMasterKey) → KeyWallet → Bool × KeyWallet
  | [], w => (false, w)
  | (nID, kMasterKey) :: mapMasterKeys, w =>
      match kMasterKey.open we strOld with
      | none => (false, w)
      | some vMasterKey =>
          match w.store.unlock we.toKeyEnv vMasterKey with
          | (false, s) =>
              changeLoop we strOld strNew nMeasured fWasLocked mapMasterKeys { w with store := s }
          | (true, s) =>
              let kMasterKey := { kMasterKey with nDeriveIterations := max 25000 nMeasured }
              let w := { w with
                store := s, mapMasterKeys := w.mapMasterKeys.insert nID kMasterKey }
              match ({} : CCrypter).setKeyFromPassphrase we strNew kMasterKey.vchSalt
                  kMasterKey.nDeriveIterations kMasterKey.nDerivationMethod with
              | none => (false, w)
              | some crypter =>
                  match crypter.encrypt we.toKeyEnv vMasterKey with
                  | none => (false, w)
                  | some vchCryptedKey =>
                      let kMasterKey := { kMasterKey with vchCryptedKey }
                      let w := { w with
                        mapMasterKeys := w.mapMasterKeys.insert nID kMasterKey
                        file := w.file.writeMasterKey nID kMasterKey }
                      (true, if fWasLocked then w.lock else w)

def changeWalletPassphrase (we : WalletEnv) (w : KeyWallet) (strOld strNew : Bytes)
    (nMeasured : Nat) : Bool × KeyWallet :=
  changeLoop we strOld strNew nMeasured w.store.isLocked w.mapMasterKeys.toList w.lock

/-- The loop of `EncryptKeys`, which calls `AddCryptedKey` of the wallet -/
def encryptLoop (we : WalletEnv) (vMasterKeyIn : CKeyingMaterial) :
    List (CBitcoinAddress × CSecret × Bool) → KeyWallet → Bool × KeyWallet
  | [], w => (true, { w with store := { w.store with mapKeys := ∅ } })
  | (_, secret, fCompressed) :: mapKeys, w =>
      let vchPubKey := (({} : CKey).setSecret we.toKeyEnv secret fCompressed).getPubKey
      match encryptSecret we.toKeyEnv vMasterKeyIn secret (we.hash vchPubKey) with
      | none => (false, w)
      | some vchCryptedSecret =>
          match w.addCryptedKey we vchPubKey vchCryptedSecret with
          | (false, w) => (false, w)
          | (true, w) => encryptLoop we vMasterKeyIn mapKeys w

def encryptKeys (we : WalletEnv) (w : KeyWallet) (vMasterKeyIn : CKeyingMaterial) :
    Bool × KeyWallet :=
  if !w.store.mapCryptedKeys.isEmpty || w.store.isCrypted then (false, w)
  else encryptLoop we vMasterKeyIn w.store.mapKeys.toList
    { w with store := { w.store with fUseCrypto := true } }

/-- `GenerateNewKey` for each of the new keys; it throws when a key cannot be added. -/
def generateKeys (we : WalletEnv) : List CKey → KeyWallet → Bool × KeyWallet
  | [], w => (true, w)
  | key :: keys, w =>
      match w.addKey we key with
      | some (true, w) => generateKeys we keys w
      | some (false, w) => (false, w)
      | none => (false, w)

/-- `EncryptWallet`, with the random master key, salt and new keys, and whether the transaction is
committed. Without a result the program exits, and nothing was written. -/
def encryptWallet (we : WalletEnv) (w : KeyWallet) (strWalletPassphrase : Bytes)
    (vMasterKey : CKeyingMaterial) (vchSalt : Bytes) (nMeasured : Nat) (newKeys : List CKey)
    (fCommit : Bool) : Option (Bool × KeyWallet) :=
  if w.store.isCrypted then some (false, w)
  else
    let nDeriveIterations := max 25000 nMeasured
    match ({} : CCrypter).setKeyFromPassphrase we strWalletPassphrase vchSalt nDeriveIterations 0 with
    | none => some (false, w)
    | some crypter =>
        match crypter.encrypt we.toKeyEnv vMasterKey with
        | none => some (false, w)
        | some vchCryptedKey =>
            let kMasterKey : CMasterKey := { vchCryptedKey, vchSalt, nDeriveIterations }
            let nID := w.nMasterKeyMaxID + 1
            let w := { w with
              mapMasterKeys := w.mapMasterKeys.insert nID kMasterKey
              nMasterKeyMaxID := nID
              file := w.file.writeMasterKey nID kMasterKey }
            match w.encryptKeys we vMasterKey with
            | (false, _) => none
            | (true, w) =>
                if !fCommit then none
                else
                  let w := (w.lock.unlock we strWalletPassphrase).2
                  -- `NewKeyPool` adds no keys to a locked wallet
                  if w.store.isLocked then some (true, w.lock)
                  else
                    match generateKeys we newKeys w with
                    | (false, w) => some (false, w)
                    | (true, w) => some (true, w.lock)

/-! ## Loading -/

/-- A record `key` -/
def loadKey (we : WalletEnv) (s : CCryptoKeyStore) (record : Bytes × Bytes) :
    Option CCryptoKeyStore :=
  let key := (({} : CKey).setPubKey we.toKeyEnv record.1).setPrivKey we record.2
  if key.getPubKey ≠ record.1 then none
  else if !key.isValid we.toKeyEnv then none
  else
    match s.addKey we.toKeyEnv key with
    | some (true, s) => some s
    | _ => none

/-- A record `ckey` -/
def loadCryptedKey (we : WalletEnv) (s : CCryptoKeyStore) (record : Bytes × Bytes) :
    Option CCryptoKeyStore :=
  match s.addCryptedKey we.toKeyEnv record.1 record.2 with
  | (true, s) => some s
  | (false, _) => none

/-- `LoadWallet`, in the order of the records; without a result the file is corrupt. -/
def load (we : WalletEnv) (file : WalletFile) : Option KeyWallet := do
  let s ← file.key.toList.foldlM (loadKey we) {}
  let s ← file.ckey.toList.foldlM (loadCryptedKey we) s
  return {
    store := s
    mapMasterKeys := file.mkey.toList.foldl (fun m x => m.insert x.1 x.2) ∅
    nMasterKeyMaxID := file.mkey.toList.foldl (fun n x => max n x.1) 0
    file }

end KeyWallet

end Crypter

end ShinyCoin

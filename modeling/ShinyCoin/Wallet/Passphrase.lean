import ShinyCoin.Wallet.KeyFile
import ShinyCoin.Lib.Recorded

/-!
# What a wallet keeps

A wallet is followed beside a key store that is never encrypted and to which the same keys are added.
While the wallet is not encrypted, its file has the keys. Then it has them sealed, and the master key
under the one passphrase. Whatever is called, and however often the program is started again, the file
gives all the keys back, to whom has the passphrase.
-/

namespace ShinyCoin

namespace Crypter

/-- What is relied on of OpenSSL. -/
structure WalletEnv.Sound (we : WalletEnv) : Prop extends we.toKeyEnv.Sound where
  length_bytesToKey : ∀ strKeyData chSalt nRounds,
    (we.bytesToKey strKeyData chSalt nRounds).1.length = 32
  readPrivKey_privKey : ∀ secret fCompressed,
    we.readPrivKey (we.privKey secret fCompressed) = some (secret, we.pubKey secret fCompressed)

variable {we : WalletEnv} {m : CKeyingMaterial} {strPassphrase strNew : Bytes}
  {ref ref' : CCryptoKeyStore} {key : CKey} {keys : List CKey} {fOk : Bool}

/-! ## The master key -/

namespace CMasterKey

theorem salt_of_open {kMasterKey : CMasterKey} (h : kMasterKey.open we strPassphrase = some m) :
    kMasterKey.vchSalt.length = 8 ∧ kMasterKey.nDerivationMethod = 0 := by
  obtain ⟨crypter, hset, -⟩ := Option.bind_eq_some_iff.mp h
  rw [CCrypter.setKeyFromPassphrase] at hset
  split at hset
  next => cases hset
  next hsalt =>
    split at hset
    next => cases hset
    next hmethod =>
      simp only [WALLET_CRYPTO_SALT_SIZE] at hsalt
      exact ⟨by omega, by omega⟩

/-- The master key that is encrypted with a passphrase opens with it. -/
theorem exists_encrypted (hwe : we.Sound) {vchSalt : Bytes} {nDeriveIterations : Nat}
    (hsalt : vchSalt.length = 8) (hrounds : 1 ≤ nDeriveIterations) (strPassphrase : Bytes)
    (m : CKeyingMaterial) :
    ∃ crypter vchCryptedKey,
      ({} : CCrypter).setKeyFromPassphrase we strPassphrase vchSalt nDeriveIterations 0
        = some crypter ∧
      crypter.encrypt we.toKeyEnv m = some vchCryptedKey ∧
      CMasterKey.open we strPassphrase ⟨vchCryptedKey, vchSalt, 0, nDeriveIterations⟩ = some m := by
  have hlen := hwe.length_bytesToKey strPassphrase vchSalt nDeriveIterations
  obtain ⟨vchCryptedKey, hencrypt, hdecrypt⟩ := hwe.decrypt_encrypt
    (we.bytesToKey strPassphrase vchSalt nDeriveIterations).1
    (we.bytesToKey strPassphrase vchSalt nDeriveIterations).2 m hlen
  have hset : ({} : CCrypter).setKeyFromPassphrase we strPassphrase vchSalt nDeriveIterations 0
      = some ⟨(we.bytesToKey strPassphrase vchSalt nDeriveIterations).1,
        (we.bytesToKey strPassphrase vchSalt nDeriveIterations).2, true⟩ := by
    have hguard : ¬ (nDeriveIterations < 1 ∨ vchSalt.length ≠ WALLET_CRYPTO_SALT_SIZE) := by
      simp only [WALLET_CRYPTO_SALT_SIZE]
      omega
    rw [CCrypter.setKeyFromPassphrase, if_neg hguard, if_neg (by simp)]
    simp [hlen, WALLET_CRYPTO_KEY_SIZE]
  refine ⟨_, vchCryptedKey, hset, by simpa [CCrypter.encrypt] using hencrypt, ?_⟩
  rw [CMasterKey.open, hset, Option.bind_eq_bind, Option.bind_some]
  simpa [CCrypter.decrypt] using hdecrypt

end CMasterKey

/-! ## Writing keys -/

namespace WalletFile

theorem writeKey_eq (file : WalletFile) (vchPubKey vchPrivKey : Bytes) :
    (file.writeKey vchPubKey vchPrivKey).2 = { file with
      key := if file.key.contains vchPubKey then file.key
        else file.key.insert vchPubKey vchPrivKey } := by
  rw [writeKey]
  split
  · rfl
  · rfl

theorem writeCryptedKey_eq (file : WalletFile) (vchPubKey vchCryptedSecret : Bytes) :
    (file.writeCryptedKey vchPubKey vchCryptedSecret).2 = { file with
      ckey := if file.ckey.contains vchPubKey then file.ckey
        else file.ckey.insert vchPubKey vchCryptedSecret
      key := if file.ckey.contains vchPubKey then file.key else file.key.erase vchPubKey } := by
  rw [writeCryptedKey]
  split
  · rfl
  · rfl

end WalletFile

/-- The record `key` of an entry of `mapKeys` -/
def WalletEnv.record (we : WalletEnv) : CSecret × Bool → Bytes × Bytes
  | (secret, fCompressed) => (we.pubKey secret fCompressed, we.privKey secret fCompressed)

theorem WalletEnv.Sound.record_injective (hwe : we.Sound) : we.record.Injective := by
  rintro ⟨secret, fCompressed⟩ ⟨secret', fCompressed'⟩ h
  obtain ⟨hpub, hpriv⟩ := Prod.mk.inj h
  have hread := hwe.readPrivKey_privKey secret fCompressed
  rw [hpriv, hwe.readPrivKey_privKey secret' fCompressed'] at hread
  obtain ⟨hsecret, -⟩ := Prod.mk.inj (Option.some.inj hread)
  have hlen := congrArg List.length hpub
  rw [hwe.length_pubKey, hwe.length_pubKey] at hlen
  refine Prod.ext hsecret.symm ?_
  cases fCompressed <;> cases fCompressed' <;> simp_all

/-- Under the address of the key there is no other one. -/
def CCryptoKeyStore.SameKey (ke : KeyEnv) (ref : CCryptoKeyStore) (key : CKey) : Prop :=
  ∀ k, ref.mapKeys[ke.address key.getPubKey]? = some k → key.getSecret = some k

/-- Keys that are added to a store that is not encrypted -/
inductive CCryptoKeyStore.Added (ke : KeyEnv) :
    CCryptoKeyStore → List CKey → CCryptoKeyStore → Prop
  | nil {ref : CCryptoKeyStore} : Added ke ref [] ref
  | cons {ref ref' ref'' : CCryptoKeyStore} {key : CKey} {keys : List CKey} : key.IsPrivate ke →
      ref.SameKey ke key → ref.addKey ke key = some (true, ref') → Added ke ref' keys ref'' →
      Added ke ref (key :: keys) ref''

namespace KeyWallet

variable {w w' : KeyWallet}

/-! ## A wallet that is not encrypted -/

structure Plain (we : WalletEnv) (w : KeyWallet) (ref : CCryptoKeyStore) : Prop where
  plain : ref.Plain we.toKeyEnv
  store : w.store = ref
  key : Lib.Recorded we.address we.record w.file.key ref.mapKeys
  noCryptedKeys : w.file.ckey = ∅
  noMasterKeys : w.mapMasterKeys = ∅
  noMaxID : w.nMasterKeyMaxID = 0
  noMasterKeyRecords : w.file.mkey = ∅

theorem Plain.new (we : WalletEnv) : ({} : KeyWallet).Plain we {} where
  plain := CCryptoKeyStore.Plain.empty we.toKeyEnv
  store := rfl
  key := Lib.Recorded.empty
  noCryptedKeys := rfl
  noMasterKeys := rfl
  noMaxID := rfl
  noMasterKeyRecords := rfl

theorem Plain.filed (h : w.Plain we ref) : Lib.Filed we.address we.record ref.mapKeys := by
  rintro a ⟨secret, fCompressed⟩ hget
  exact h.plain.address a secret fCompressed hget

theorem addKey_of_plain (hplain : w.store.isCrypted = false) {secret : CSecret} {fCompressed : Bool}
    (hsecret : key.getSecret = some (secret, fCompressed)) {s : CCryptoKeyStore}
    (hs : w.store.addKey we.toKeyEnv key = some (fOk, s)) :
    w.addKey we key
      = some ((w.file.writeKey key.getPubKey (we.privKey secret fCompressed)).1, { w with
          store := s
          file := (w.file.writeKey key.getPubKey (we.privKey secret fCompressed)).2 }) := by
  rw [KeyWallet.addKey, hplain, hs, hsecret]
  rfl

theorem Plain.addKey (h : w.Plain we ref) (hkey : key.IsPrivate we.toKeyEnv)
    (hsame : ref.SameKey we.toKeyEnv key) (hadd : w.addKey we key = some (fOk, w'))
    (href : ref.addKey we.toKeyEnv key = some (true, ref')) : w'.Plain we ref' := by
  obtain ⟨s, hs, hplain⟩ := h.plain.addKey hkey
  obtain ⟨secret, heq, hsecret, hpub⟩ := h.plain.addKey_eq hkey
  rw [href] at hs heq
  cases hs
  cases heq
  have hnotCrypted : w.store.isCrypted = false := by
    rw [h.store]
    exact h.plain.notCrypted
  have hgetSecret : key.getSecret = some (secret, key.fCompressedPubKey) := by
    rw [CKey.getSecret, hsecret]
    rfl
  rw [addKey_of_plain hnotCrypted hgetSecret (by rw [h.store]; exact href)] at hadd
  obtain ⟨-, rfl⟩ := Prod.mk.inj (Option.some.inj hadd)
  have hentry : ∀ k, ref.mapKeys[we.address (we.pubKey secret key.fCompressedPubKey)]? = some k →
      k = (secret, key.fCompressedPubKey) := by
    intro k hget
    have hk := hsame k (by rw [hpub]; exact hget)
    rw [hgetSecret] at hk
    exact (Option.some.inj hk).symm
  have hrecord : ∀ v, w.file.key[we.pubKey secret key.fCompressedPubKey]? = some v →
      v = we.privKey secret key.fCompressedPubKey := by
    intro v hget
    obtain ⟨k, hk, heq⟩ := (h.key (_, v)).mp hget
    rw [hentry k hk] at heq
    exact (Prod.mk.inj heq).2.symm
  refine ⟨hplain, rfl, ?_, ?_, h.noMasterKeys, h.noMaxID, ?_⟩
  · refine h.key.insert (e := (secret, key.fCompressedPubKey)) hentry ?_
    intro p
    dsimp only
    rw [WalletFile.writeKey_eq, hpub]
    exact Lib.getElem?_insert_of_same hrecord p
  · rw [WalletFile.writeKey_eq]
    exact h.noCryptedKeys
  · rw [WalletFile.writeKey_eq]
    exact h.noMasterKeyRecords

/-! ### Loading it -/

theorem loadKey_record (hwe : we.Sound) {s : CCryptoKeyStore} (hs : s.fUseCrypto = false)
    (k : CSecret × Bool) :
    loadKey we s (we.record k) = some { s with
      mapKeys := s.mapKeys.insert (we.address (we.record k).1) k } := by
  obtain ⟨secret, fCompressed⟩ := k
  have hpub := hwe.isPubKey_pubKey secret fCompressed
  have hread := hwe.readPrivKey_privKey secret fCompressed
  have hsize : ((we.pubKey secret fCompressed).length == 33) = fCompressed := by
    rw [hwe.length_pubKey]
    cases fCompressed
    · rfl
    · rfl
  simp [loadKey, WalletEnv.record, CKey.setPubKey, CKey.setPrivKey, CKey.isValid, CKey.getPubKey,
    CKey.getSecret, CCryptoKeyStore.addKey, CCryptoKeyStore.isCrypted, hs, hpub, hread, hsize]

theorem foldlM_loadKey (hwe : we.Sound) (entries : List (CSecret × Bool)) (s : CCryptoKeyStore)
    (hs : s.fUseCrypto = false) :
    (entries.map we.record).foldlM (loadKey we) s = some { s with
      mapKeys := entries.foldl (fun m k => m.insert (we.address (we.record k).1) k) s.mapKeys } := by
  induction entries generalizing s with
  | nil => rfl
  | cons k entries ih =>
      rw [List.map_cons, List.foldlM_cons, loadKey_record hwe hs, Option.bind_eq_bind,
        Option.bind_some]
      exact ih { s with mapKeys := s.mapKeys.insert (we.address (we.record k).1) k } hs

theorem Plain.load (hwe : we.Sound) (h : w.Plain we ref) :
    ∃ w', load we w.file = some w' ∧ w'.Plain we ref := by
  obtain ⟨entries, hentries⟩ := h.key.exists_entries
  have hmap := h.key.foldl_insert hwe.record_injective h.filed hentries
  have hkeys : w.file.key.toList.foldlM (loadKey we) {} = some ref := by
    rw [← hentries, foldlM_loadKey hwe entries {} rfl]
    obtain ⟨hnotCrypted, hnoMaster, hnoCrypted, -⟩ := h.plain
    cases ref
    cases hnotCrypted
    cases hnoMaster
    cases hnoCrypted
    exact congrArg (fun mapKeys => some { mapKeys := mapKeys : CCryptoKeyStore }) hmap
  refine ⟨{ store := ref, file := w.file }, ?_, h.plain, rfl, h.key, h.noCryptedKeys, rfl, rfl,
    h.noMasterKeyRecords⟩
  rw [KeyWallet.load, hkeys, h.noCryptedKeys, h.noMasterKeyRecords]
  rfl

/-! ## An encrypted wallet -/

structure Crypted (we : WalletEnv) (m : CKeyingMaterial) (strPassphrase : Bytes) (w : KeyWallet)
    (ref : CCryptoKeyStore) : Prop where
  length_eq : m.length = 32
  seals : w.store.Seals we.toKeyEnv m ref
  ckey : Lib.Recorded we.address id w.file.ckey w.store.mapCryptedKeys
  noKeys : w.file.key = ∅
  masterKey : ∃ kMasterKey : CMasterKey, kMasterKey.open we strPassphrase = some m ∧
    w.mapMasterKeys = (∅ : Std.ExtTreeMap Nat CMasterKey compare).insert 1 kMasterKey ∧
    w.file.mkey = (∅ : Std.ExtTreeMap Nat CMasterKey compare).insert 1 kMasterKey

namespace Crypted

theorem filed (h : w.Crypted we m strPassphrase ref) :
    Lib.Filed we.address id w.store.mapCryptedKeys := by
  intro a r hget
  rw [h.seals.entries] at hget
  obtain ⟨⟨secret, fCompressed⟩, hk, hseal⟩ := Option.bind_eq_some_iff.mp hget
  obtain ⟨vchCryptedSecret, -, heq⟩ := Option.map_eq_some_iff.mp hseal
  rw [← heq]
  exact h.seals.plain.address a secret fCompressed hk

theorem isCrypted (h : w.Crypted we m strPassphrase ref) : w.store.isCrypted = true :=
  h.seals.crypted

/-- The master key in memory is the only thing that locking and unlocking change. -/
theorem withMaster (h : w.Crypted we m strPassphrase ref) {vMasterKey : CKeyingMaterial}
    (hmaster : vMasterKey = [] ∨ vMasterKey = m) :
    ({ w with store := { w.store with vMasterKey } } : KeyWallet).Crypted we m strPassphrase ref where
  length_eq := h.length_eq
  seals := ⟨h.seals.crypted, h.seals.noKeys, hmaster, h.seals.plain, h.seals.entries⟩
  ckey := h.ckey
  noKeys := h.noKeys
  masterKey := h.masterKey

theorem lock_eq (h : w.Crypted we m strPassphrase ref) :
    w.lock = { w with store := { w.store with vMasterKey := [] } } := by
  rw [KeyWallet.lock, CCryptoKeyStore.lock,
    CCryptoKeyStore.setCrypted_of_crypted h.seals.crypted]

theorem lock (h : w.Crypted we m strPassphrase ref) : w.lock.Crypted we m strPassphrase ref := by
  rw [h.lock_eq]
  exact h.withMaster (.inl rfl)

theorem isLocked_lock (h : w.Crypted we m strPassphrase ref) : w.lock.store.isLocked = true := by
  rw [h.lock_eq, CCryptoKeyStore.isLocked, CCryptoKeyStore.isCrypted, h.seals.crypted]
  rfl

/-- The master key opens the store. -/
theorem store_unlock (hwe : we.Sound) (h : w.Crypted we m strPassphrase ref) :
    w.store.unlock we.toKeyEnv m = (true, { w.store with vMasterKey := m }) := by
  rw [CCryptoKeyStore.unlock, CCryptoKeyStore.setCrypted_of_crypted h.seals.crypted]
  dsimp only
  rw [h.seals.opensFirst hwe.toSound h.length_eq, if_pos rfl]

/-- The loops over the master keys meet one. -/
theorem exists_masterKey (h : w.Crypted we m strPassphrase ref) :
    ∃ kMasterKey : CMasterKey, kMasterKey.open we strPassphrase = some m ∧
      w.mapMasterKeys.toList = [(1, kMasterKey)] ∧ w.mapMasterKeys[1]? = some kMasterKey := by
  obtain ⟨kMasterKey, hopen, hmap, -⟩ := h.masterKey
  rw [hmap]
  exact ⟨kMasterKey, hopen, rfl, by rw [Lib.getElem?_insert, if_pos rfl]⟩

theorem unlock (hwe : we.Sound) (h : w.Crypted we m strPassphrase ref)
    (hlocked : w.store.isLocked = true) :
    w.unlock we strPassphrase = (true, { w with store := { w.store with vMasterKey := m } }) := by
  obtain ⟨kMasterKey, hopen, hlist, -⟩ := h.exists_masterKey
  rw [KeyWallet.unlock, hlocked, hlist, unlockLoop, hopen]
  simp only [h.store_unlock hwe]
  rfl

theorem isLocked_withMaster (h : w.Crypted we m strPassphrase ref) :
    ({ w.store with vMasterKey := m } : CCryptoKeyStore).isLocked = false := by
  have hne : m ≠ [] := by
    rintro rfl
    cases h.length_eq
  simp [CCryptoKeyStore.isLocked, hne]

end Crypted

/-- A passphrase with which nothing is found that opens a key -/
def Guess (we : WalletEnv) (w : KeyWallet) (strPassphrase : Bytes) : Prop :=
  ∀ (nID : Nat) (kMasterKey : CMasterKey) (vMasterKey : CKeyingMaterial),
    w.mapMasterKeys[nID]? = some kMasterKey →
    CMasterKey.open we strPassphrase kMasterKey = some vMasterKey →
    CCryptoKeyStore.opensFirst we.toKeyEnv vMasterKey w.store.mapCryptedKeys.toList = false

/-- What opens no key does not unlock the store. -/
theorem store_unlock_fails {s : CCryptoKeyStore} (hs : s.fUseCrypto = true)
    {vMasterKey : CKeyingMaterial}
    (hfails : CCryptoKeyStore.opensFirst we.toKeyEnv vMasterKey s.mapCryptedKeys.toList = false) :
    s.unlock we.toKeyEnv vMasterKey = (false, s) := by
  rw [CCryptoKeyStore.unlock, CCryptoKeyStore.setCrypted_of_crypted hs]
  dsimp only
  rw [hfails, if_neg Bool.false_ne_true]

namespace Crypted

theorem unlock_guess (h : w.Crypted we m strPassphrase ref) {strGuess : Bytes}
    (hguess : w.Guess we strGuess) : w.unlock we strGuess = (false, w) := by
  obtain ⟨kMasterKey, -, hlist, hget⟩ := h.exists_masterKey
  rw [KeyWallet.unlock]
  split
  next => rfl
  next =>
    rw [hlist, unlockLoop]
    cases hopen : kMasterKey.open we strGuess with
    | none => rfl
    | some vMasterKey =>
        have hfails := hguess 1 kMasterKey vMasterKey hget hopen
        simp only [store_unlock_fails h.seals.crypted hfails]
        rfl

/-! ### Another passphrase -/

theorem withMasterKey (h : w.Crypted we m strPassphrase ref) {kMasterKey : CMasterKey}
    (hopen : kMasterKey.open we strNew = some m) :
    ({ w with
        mapMasterKeys := w.mapMasterKeys.insert 1 kMasterKey
        file := w.file.writeMasterKey 1 kMasterKey } : KeyWallet).Crypted we m strNew ref := by
  obtain ⟨kOld, -, hmap, hfile⟩ := h.masterKey
  refine ⟨h.length_eq, h.seals, h.ckey, h.noKeys, kMasterKey, hopen, ?_, ?_⟩
  · dsimp only
    rw [hmap, Lib.insert_insert]
  · dsimp only [WalletFile.writeMasterKey]
    rw [hfile, Lib.insert_insert]

theorem changeWalletPassphrase (hwe : we.Sound) (h : w.Crypted we m strPassphrase ref)
    {nMeasured : Nat}
    (hchange : w.changeWalletPassphrase we strPassphrase strNew nMeasured = (fOk, w')) :
    fOk = true ∧ w'.Crypted we m strNew ref := by
  obtain ⟨kMasterKey, hopen, hlist, -⟩ := h.exists_masterKey
  obtain ⟨hsalt, hmethod⟩ := CMasterKey.salt_of_open hopen
  have hrounds : 1 ≤ max 25000 nMeasured := by omega
  obtain ⟨crypter, vchCryptedKey, hset, hencrypt, hopenNew⟩ :=
    CMasterKey.exists_encrypted hwe hsalt hrounds strNew m
  have hunlock := h.lock.store_unlock hwe
  have hunlocked := (h.lock.withMaster (.inr rfl)).withMasterKey hopenNew
  rw [KeyWallet.changeWalletPassphrase, hlist, changeLoop, hopen] at hchange
  simp only [hunlock, hmethod, hset, hencrypt, Lib.insert_insert] at hchange
  obtain ⟨rfl, rfl⟩ := Prod.mk.inj hchange
  refine ⟨rfl, ?_⟩
  split
  · exact hunlocked.lock
  · exact hunlocked

/-- A wrong passphrase locks the wallet, and nothing else changes. -/
theorem changeWalletPassphrase_guess (h : w.Crypted we m strPassphrase ref) {strGuess : Bytes}
    (hguess : w.Guess we strGuess) (nMeasured : Nat) :
    w.changeWalletPassphrase we strGuess strNew nMeasured = (false, w.lock) := by
  obtain ⟨kMasterKey, -, hlist, hget⟩ := h.exists_masterKey
  rw [KeyWallet.changeWalletPassphrase, hlist, changeLoop]
  cases hopen : kMasterKey.open we strGuess with
  | none => rfl
  | some vMasterKey =>
      have hfails : w.lock.store.unlock we.toKeyEnv vMasterKey = (false, w.lock.store) := by
        refine store_unlock_fails h.lock.seals.crypted ?_
        rw [h.lock_eq]
        exact hguess 1 kMasterKey vMasterKey hget hopen
      simp only [hfails]
      rfl

/-! ### Adding keys -/

theorem addKey_eq (hwe : we.Sound) (h : w.Crypted we m strPassphrase ref)
    (hunlocked : w.store.isLocked = false) {secret : CSecret} (hsecret : key.vchSecret = some secret)
    (hpub : key.getPubKey = we.pubKey secret key.fCompressedPubKey) :
    ∃ vchCryptedSecret s,
      we.sealed m (secret, key.fCompressedPubKey) = some (key.getPubKey, vchCryptedSecret) ∧
      s = { w.store with
        mapCryptedKeys := w.store.mapCryptedKeys.insert (we.address key.getPubKey)
          (key.getPubKey, vchCryptedSecret) } ∧
      w.store.addKey we.toKeyEnv key = some (true, s) ∧
      w.addKey we key = some ((w.file.writeCryptedKey key.getPubKey vchCryptedSecret).1, { w with
        store := s
        file := (w.file.writeCryptedKey key.getPubKey vchCryptedSecret).2 }) := by
  obtain ⟨vchCryptedSecret, hencrypt, hseal⟩ :=
    hwe.toSound.exists_sealed h.length_eq secret key.fCompressedPubKey
  rw [← hpub] at hencrypt hseal
  have hmaster := h.seals.vMasterKey_of_unlocked hunlocked
  have hstore : w.store.addCryptedKey we.toKeyEnv key.getPubKey vchCryptedSecret = _ :=
    CCryptoKeyStore.addCryptedKey_of_crypted h.seals.crypted key.getPubKey vchCryptedSecret
  refine ⟨vchCryptedSecret, _, hseal, rfl, ?_, ?_⟩
  · simp [CCryptoKeyStore.addKey, h.isCrypted, hunlocked, CKey.getSecret, hsecret, hmaster,
      hencrypt, hstore]
  · simp [KeyWallet.addKey, KeyWallet.addCryptedKey, h.isCrypted, hunlocked, CKey.getSecret,
      hsecret, hmaster, hencrypt, hstore]

theorem addKey (hwe : we.Sound) (h : w.Crypted we m strPassphrase ref)
    (hunlocked : w.store.isLocked = false) (hkey : key.IsPrivate we.toKeyEnv)
    (hsame : ref.SameKey we.toKeyEnv key) (hadd : w.addKey we key = some (fOk, w'))
    (href : ref.addKey we.toKeyEnv key = some (true, ref')) :
    w'.Crypted we m strPassphrase ref' ∧ w'.store.isLocked = false := by
  obtain ⟨secret, hsecret, hpub⟩ := hkey
  obtain ⟨vchCryptedSecret, s, hseal, hs, hstore, heq⟩ := h.addKey_eq hwe hunlocked hsecret hpub
  obtain ⟨s', ref'', hstore', href', hseals⟩ :=
    h.seals.addKey_of_unlocked hwe.toSound h.length_eq hunlocked ⟨secret, hsecret, hpub⟩
  rw [hstore] at hstore'
  rw [href] at href'
  cases hstore'
  cases href'
  rw [hadd] at heq
  obtain ⟨-, rfl⟩ := Prod.mk.inj (Option.some.inj heq)
  -- what is sealed under the address already is this key
  have hentry : ∀ r, w.store.mapCryptedKeys[we.address key.getPubKey]? = some r →
      r = (key.getPubKey, vchCryptedSecret) := by
    intro r hget
    rw [h.seals.entries] at hget
    obtain ⟨k, hk, hr⟩ := Option.bind_eq_some_iff.mp hget
    have hsameKey := hsame k hk
    rw [CKey.getSecret, hsecret] at hsameKey
    cases hsameKey
    rw [hseal] at hr
    exact (Option.some.inj hr).symm
  have hrecord : ∀ v, w.file.ckey[key.getPubKey]? = some v → v = vchCryptedSecret := by
    intro v hget
    obtain ⟨r, hr, heq⟩ := (h.ckey (_, v)).mp hget
    rw [hentry r hr] at heq
    exact (Prod.mk.inj heq).2.symm
  refine ⟨⟨h.length_eq, hseals, ?_, ?_, ?_⟩, ?_⟩
  · rw [hs]
    refine h.ckey.insert (e := (key.getPubKey, vchCryptedSecret)) hentry ?_
    intro p
    dsimp only
    rw [WalletFile.writeCryptedKey_eq]
    exact Lib.getElem?_insert_of_same hrecord p
  · dsimp only
    rw [WalletFile.writeCryptedKey_eq, h.noKeys, Std.ExtTreeMap.erase_empty, ite_self]
  · dsimp only
    rw [WalletFile.writeCryptedKey_eq]
    exact h.masterKey
  · rw [hs]
    exact hunlocked

theorem addKey_locked (h : w.Crypted we m strPassphrase ref) (hlocked : w.store.isLocked = true)
    (key : CKey) : w.addKey we key = some (false, w) := by
  simp [KeyWallet.addKey, h.isCrypted, hlocked]

theorem generateKeys (hwe : we.Sound) (h : w.Crypted we m strPassphrase ref)
    (hunlocked : w.store.isLocked = false) (hadded : ref.Added we.toKeyEnv keys ref')
    (hgenerate : KeyWallet.generateKeys we keys w = (true, w')) :
    w'.Crypted we m strPassphrase ref' := by
  induction hadded generalizing w with
  | nil =>
      cases hgenerate
      exact h
  | cons hkey hsame href _ ih =>
      rw [KeyWallet.generateKeys] at hgenerate
      split at hgenerate
      next w'' hadd =>
        obtain ⟨hcrypted, hstill⟩ := h.addKey hwe hunlocked hkey hsame hadd href
        exact ih hcrypted hstill hgenerate
      next => cases hgenerate
      next => cases hgenerate

/-! ### Loading it -/

theorem foldlM_loadCryptedKey (we : WalletEnv) (records : List (Bytes × Bytes))
    (s : CCryptoKeyStore) (hs : s.fUseCrypto = true) :
    records.foldlM (loadCryptedKey we) s = some { s with
      mapCryptedKeys := records.foldl (fun m r => m.insert (we.address r.1) r) s.mapCryptedKeys } := by
  induction records generalizing s with
  | nil => rfl
  | cons r records ih =>
      have hload : loadCryptedKey we s r = some { s with
          mapCryptedKeys := s.mapCryptedKeys.insert (we.address r.1) r } := by
        rw [loadCryptedKey, CCryptoKeyStore.addCryptedKey_of_crypted hs]
      rw [List.foldlM_cons, hload, Option.bind_eq_bind, Option.bind_some]
      exact ih { s with mapCryptedKeys := s.mapCryptedKeys.insert (we.address r.1) r } hs

/-- The file says that the wallet is encrypted by the first encrypted key in it. -/
theorem load (hwe : we.Sound) (h : w.Crypted we m strPassphrase ref) (hkeys : ref.mapKeys ≠ ∅) :
    ∃ w', KeyWallet.load we w.file = some w' ∧ w'.Crypted we m strPassphrase ref ∧
      w'.store.isLocked = true := by
  obtain ⟨kMasterKey, hopen, hmap, hfile⟩ := h.masterKey
  have hmapCrypted : w.file.ckey.toList.foldl (fun m r => m.insert (we.address r.1) r) ∅
      = w.store.mapCryptedKeys :=
    h.ckey.foldl_insert Function.injective_id h.filed (List.map_id _)
  have hne : w.file.ckey.toList ≠ [] := by
    intro hnil
    rw [hnil, List.foldl_nil] at hmapCrypted
    refine hkeys (Lib.eq_empty_iff_getElem?.mpr fun a => ?_)
    have hnone := h.seals.isSome_getElem? hwe.toSound h.length_eq a
    rw [← hmapCrypted, Std.ExtTreeMap.getElem?_empty] at hnone
    exact Option.isSome_eq_false_iff.mp hnone.symm |> Option.isNone_iff_eq_none.mp
  have hload : w.file.ckey.toList.foldlM (loadCryptedKey we) {}
      = some { mapCryptedKeys := w.store.mapCryptedKeys, fUseCrypto := true } := by
    have hstart : w.file.ckey.toList.foldlM (loadCryptedKey we) {}
        = w.file.ckey.toList.foldlM (loadCryptedKey we) { fUseCrypto := true } := by
      cases hlist : w.file.ckey.toList with
      | nil => exact absurd hlist hne
      | cons r records => rfl
    rw [hstart, foldlM_loadCryptedKey we _ _ rfl]
    exact congrArg
      (fun m => some { mapCryptedKeys := m, fUseCrypto := true : CCryptoKeyStore }) hmapCrypted
  refine ⟨⟨{ mapCryptedKeys := w.store.mapCryptedKeys, fUseCrypto := true },
    (∅ : Std.ExtTreeMap Nat CMasterKey compare).insert 1 kMasterKey, 1, w.file⟩, ?_, ?_, rfl⟩
  · have hnone : (∅ : Std.ExtTreeMap Bytes Bytes compare).toList.foldlM (loadKey we) {}
        = some {} := rfl
    rw [KeyWallet.load, h.noKeys, hnone, Option.bind_eq_bind, Option.bind_some, hload, hfile]
    rfl
  · exact ⟨h.length_eq, ⟨rfl, rfl, .inl rfl, h.seals.plain, h.seals.entries⟩, h.ckey, h.noKeys,
      kMasterKey, hopen, rfl, hfile⟩

end Crypted

/-! ## Encrypting a wallet -/

/-- The wallet's loop is that of the store, and writes what the store adds. -/
theorem encryptLoop_writes (hwe : we.Sound) (hm : m.length = 32)
    (mapKeys : List (CBitcoinAddress × CSecret × Bool)) (w : KeyWallet)
    (hcrypted : w.store.fUseCrypto = true)
    (haddress : ∀ a secret fCompressed, (a, secret, fCompressed) ∈ mapKeys →
      a = we.address (we.pubKey secret fCompressed))
    (hdistinct : mapKeys.Pairwise fun x y => x.1 ≠ y.1)
    (hckey : Lib.Recorded we.address id w.file.ckey w.store.mapCryptedKeys)
    (hnew : ∀ a k, (a, k) ∈ mapKeys → w.store.mapCryptedKeys[a]? = none) :
    ∃ s file, KeyWallet.encryptLoop we m mapKeys w = (true, { w with store := s, file }) ∧
      CCryptoKeyStore.encryptLoop we.toKeyEnv m mapKeys w.store = (true, s) ∧
      Lib.Recorded we.address id file.ckey s.mapCryptedKeys ∧ file.mkey = w.file.mkey ∧
      ∀ p v, file.key[p]? = some v →
        w.file.key[p]? = some v ∧ ∀ a k, (a, k) ∈ mapKeys → (we.record k).1 ≠ p := by
  induction mapKeys generalizing w with
  | nil =>
      exact ⟨_, w.file, rfl, rfl, hckey, rfl, fun p v hget =>
        ⟨hget, fun a k hmem => absurd hmem List.not_mem_nil⟩⟩
  | cons entry mapKeys ih =>
      obtain ⟨a, secret, fCompressed⟩ := entry
      obtain ⟨vchCryptedSecret, hencrypt, -⟩ := hwe.toSound.exists_sealed hm secret fCompressed
      have ha := haddress a secret fCompressed List.mem_cons_self
      have hnone := hnew a _ List.mem_cons_self
      obtain ⟨hhead, htail⟩ := List.pairwise_cons.mp hdistinct
      have hpub : (({} : CKey).setSecret we.toKeyEnv secret fCompressed).getPubKey
          = we.pubKey secret fCompressed := by
        simp [CKey.getPubKey, CKey.setSecret]
      have hunwritten : w.file.ckey.contains (we.pubKey secret fCompressed) = false := by
        rw [Std.ExtTreeMap.contains_eq_isSome_getElem?, Option.isSome_eq_false_iff,
          Option.isNone_iff_eq_none]
        apply Option.eq_none_iff_forall_ne_some.mpr
        intro v hget
        obtain ⟨r, hr, -⟩ := (hckey (_, v)).mp hget
        rw [← ha, hnone] at hr
        cases hr
      have hfirst : ∀ r, w.store.mapCryptedKeys[we.address (we.pubKey secret fCompressed)]? = some r →
          r = (we.pubKey secret fCompressed, vchCryptedSecret) := by
        intro r hr
        rw [← ha, hnone] at hr
        cases hr
      have hrecorded : Lib.Recorded we.address id
          (w.file.ckey.insert (we.pubKey secret fCompressed) vchCryptedSecret)
          (w.store.mapCryptedKeys.insert (we.address (we.pubKey secret fCompressed))
            (we.pubKey secret fCompressed, vchCryptedSecret)) :=
        hckey.insert (e := (we.pubKey secret fCompressed, vchCryptedSecret)) hfirst
          (Lib.getElem?_insert w.file.ckey _ · vchCryptedSecret)
      obtain ⟨s, file, hloop, hstore, hckey', hmkey, hkey⟩ := ih
        { w with
          store := { w.store with
            mapCryptedKeys := w.store.mapCryptedKeys.insert
              (we.address (we.pubKey secret fCompressed))
              (we.pubKey secret fCompressed, vchCryptedSecret) }
          file := { w.file with
            ckey := w.file.ckey.insert (we.pubKey secret fCompressed) vchCryptedSecret
            key := w.file.key.erase (we.pubKey secret fCompressed) } }
        hcrypted (fun b sec c hmem => haddress b sec c (List.mem_cons_of_mem _ hmem)) htail
        hrecorded
        (by
          intro b k hmem
          have hne : b ≠ we.address (we.pubKey secret fCompressed) :=
            fun heq => hhead (b, k) hmem (ha.trans heq.symm)
          dsimp only
          rw [Lib.getElem?_insert, if_neg hne]
          exact hnew b k (List.mem_cons_of_mem _ hmem))
      refine ⟨s, file, ?_, ?_, hckey', hmkey, ?_⟩
      · rw [KeyWallet.encryptLoop, hpub]
        simp only [hencrypt, KeyWallet.addCryptedKey,
          CCryptoKeyStore.addCryptedKey_of_crypted hcrypted, WalletFile.writeCryptedKey, hunwritten,
          Bool.false_eq_true, if_false, hloop]
      · rw [CCryptoKeyStore.encryptLoop, hpub]
        simp only [hencrypt, CCryptoKeyStore.addCryptedKey_of_crypted hcrypted, hstore]
      · intro p v hget
        obtain ⟨hold, hout⟩ := hkey p v hget
        rw [Lib.getElem?_erase] at hold
        split at hold
        next => cases hold
        next hne =>
          refine ⟨hold, ?_⟩
          intro b k hmem
          rcases List.mem_cons.mp hmem with heq | hmem
          · cases heq
            exact Ne.symm hne
          · exact hout b k hmem

theorem Plain.encryptKeys (hwe : we.Sound) (hm : m.length = 32) (h : w.Plain we ref)
    {kMasterKey : CMasterKey} (hopen : kMasterKey.open we strPassphrase = some m) :
    ∃ w', ({ w with
        mapMasterKeys := w.mapMasterKeys.insert 1 kMasterKey
        nMasterKeyMaxID := 1
        file := w.file.writeMasterKey 1 kMasterKey } : KeyWallet).encryptKeys we m = (true, w') ∧
      w'.Crypted we m strPassphrase ref := by
  have hguard : (!ref.mapCryptedKeys.isEmpty || ref.isCrypted) = false := by
    simp [h.plain.noCrypted, CCryptoKeyStore.isCrypted, h.plain.notCrypted]
  have hstart : Lib.Recorded we.address id w.file.ckey ref.mapCryptedKeys := by
    rw [h.noCryptedKeys, h.plain.noCrypted]
    exact Lib.Recorded.empty
  obtain ⟨s, file, hloop, hstore, hckey, hmkey, hkey⟩ := encryptLoop_writes hwe hm
    ref.mapKeys.toList
    { w with
      store := { ref with fUseCrypto := true }
      mapMasterKeys := w.mapMasterKeys.insert 1 kMasterKey
      nMasterKeyMaxID := 1
      file := w.file.writeMasterKey 1 kMasterKey } rfl
    (fun a secret fCompressed hmem =>
      h.plain.address a secret fCompressed (Std.ExtTreeMap.mem_toList_iff_getElem?_eq_some.mp hmem))
    (Std.ExtTreeMap.distinct_keys_toList.imp fun hne heq =>
      hne (Std.LawfulEqCmp.compare_eq_iff_eq.mpr heq))
    hstart (fun a k _ => by
      dsimp only
      rw [h.plain.noCrypted, Std.ExtTreeMap.getElem?_empty])
  obtain ⟨s', hencrypt, hseals, -⟩ := h.plain.encryptKeys hwe.toSound hm
  rw [CCryptoKeyStore.encryptKeys, hguard, if_neg Bool.false_ne_true] at hencrypt
  rw [hstore] at hencrypt
  cases hencrypt
  refine ⟨⟨s, w.mapMasterKeys.insert 1 kMasterKey, 1, file⟩, ?_,
    ⟨hm, hseals, hckey, ?_, kMasterKey, hopen, ?_, ?_⟩⟩
  · rw [KeyWallet.encryptKeys]
    dsimp only
    rw [h.store, hguard, if_neg Bool.false_ne_true]
    exact hloop
  · rw [Lib.eq_empty_iff_getElem?]
    intro p
    apply Option.eq_none_iff_forall_ne_some.mpr
    intro v hget
    obtain ⟨hold, hout⟩ := hkey p v hget
    obtain ⟨k, hk, hrecord⟩ := (h.key (p, v)).mp hold
    exact hout _ k (Std.ExtTreeMap.mem_toList_iff_getElem?_eq_some.mpr hk)
      (congrArg Prod.fst hrecord)
  · dsimp only
    rw [h.noMasterKeys]
  · dsimp only
    rw [hmkey]
    dsimp only [WalletFile.writeMasterKey]
    rw [h.noMasterKeyRecords]

theorem Plain.encryptWallet (hwe : we.Sound) (hm : m.length = 32) (h : w.Plain we ref)
    {vchSalt : Bytes} (hsalt : vchSalt.length = 8) {nMeasured : Nat} {fCommit : Bool}
    (hadded : ref.Added we.toKeyEnv keys ref')
    (hencrypt : w.encryptWallet we strPassphrase m vchSalt nMeasured keys fCommit
      = some (true, w')) :
    w'.Crypted we m strPassphrase ref' := by
  have hnotCrypted : w.store.isCrypted = false := by
    rw [h.store]
    exact h.plain.notCrypted
  have hrounds : 1 ≤ max 25000 nMeasured := by omega
  obtain ⟨crypter, vchCryptedKey, hset, hsealed, hopen⟩ :=
    CMasterKey.exists_encrypted hwe hsalt hrounds strPassphrase m
  obtain ⟨w₁, hkeys, hcrypted⟩ := h.encryptKeys hwe hm hopen
  have hunlock := hcrypted.lock.unlock hwe hcrypted.isLocked_lock
  have hunlocked := hcrypted.lock.isLocked_withMaster
  rw [KeyWallet.encryptWallet, hnotCrypted, if_neg Bool.false_ne_true] at hencrypt
  simp only [hset, hsealed, h.noMaxID, Nat.zero_add, hkeys] at hencrypt
  cases fCommit with
  | false => cases hencrypt
  | true =>
      simp only [Bool.not_true, Bool.false_eq_true, if_false, hunlock, hunlocked] at hencrypt
      split at hencrypt
      next => cases hencrypt
      next w₂ hgenerate =>
        obtain ⟨-, rfl⟩ := Prod.mk.inj (Option.some.inj hencrypt)
        exact ((hcrypted.lock.withMaster (.inr rfl)).generateKeys hwe hunlocked hadded
          hgenerate).lock

/-! ## Runs -/

/-- A wallet after some calls and starts, with a store that has been given the same keys, and the
passphrase when it is encrypted. Those who call `Lock`, `Unlock` and `ChangeWalletPassphrase` ask
first whether it is. -/
inductive WalletRun (we : WalletEnv) : KeyWallet → CCryptoKeyStore → Option Bytes → Prop
  | new : WalletRun we {} {} none
  | addKey {w w' : KeyWallet} {ref ref' : CCryptoKeyStore} {pass : Option Bytes} {key : CKey}
      {fOk : Bool} : WalletRun we w ref pass → w.store.isLocked = false →
      key.IsPrivate we.toKeyEnv → ref.SameKey we.toKeyEnv key →
      w.addKey we key = some (fOk, w') → ref.addKey we.toKeyEnv key = some (true, ref') →
      WalletRun we w' ref' pass
  | addKeyLocked {w w' : KeyWallet} {ref : CCryptoKeyStore} {pass : Option Bytes} {key : CKey}
      {fOk : Bool} : WalletRun we w ref pass → w.store.isLocked = true →
      w.addKey we key = some (fOk, w') → WalletRun we w' ref pass
  | lock {w : KeyWallet} {ref : CCryptoKeyStore} {strPassphrase : Bytes} :
      WalletRun we w ref (some strPassphrase) → WalletRun we w.lock ref (some strPassphrase)
  | unlock {w w' : KeyWallet} {ref : CCryptoKeyStore} {strPassphrase strTried : Bytes} {fOk : Bool} :
      WalletRun we w ref (some strPassphrase) →
      strTried = strPassphrase ∨ w.Guess we strTried →
      w.unlock we strTried = (fOk, w') → WalletRun we w' ref (some strPassphrase)
  | changeWalletPassphrase {w w' : KeyWallet} {ref : CCryptoKeyStore} {strPassphrase strNew : Bytes}
      {nMeasured : Nat} {fOk : Bool} : WalletRun we w ref (some strPassphrase) →
      w.changeWalletPassphrase we strPassphrase strNew nMeasured = (fOk, w') →
      WalletRun we w' ref (some strNew)
  | changeWalletPassphraseFails {w w' : KeyWallet} {ref : CCryptoKeyStore}
      {strPassphrase strTried strNew : Bytes} {nMeasured : Nat} {fOk : Bool} :
      WalletRun we w ref (some strPassphrase) → w.Guess we strTried →
      w.changeWalletPassphrase we strTried strNew nMeasured = (fOk, w') →
      WalletRun we w' ref (some strPassphrase)
  /-- The wallet has a key, or makes one. -/
  | encryptWallet {w w' : KeyWallet} {ref ref' : CCryptoKeyStore} {strPassphrase : Bytes}
      {m : CKeyingMaterial} {vchSalt : Bytes} {nMeasured : Nat} {keys : List CKey} {fCommit : Bool} :
      WalletRun we w ref none → m.length = WALLET_CRYPTO_KEY_SIZE →
      vchSalt.length = WALLET_CRYPTO_SALT_SIZE → ref.Added we.toKeyEnv keys ref' →
      ref'.mapKeys ≠ ∅ →
      w.encryptWallet we strPassphrase m vchSalt nMeasured keys fCommit = some (true, w') →
      WalletRun we w' ref' (some strPassphrase)
  /-- The program exits in `EncryptWallet` and is started again. -/
  | exit {w w' : KeyWallet} {ref : CCryptoKeyStore} {strPassphrase : Bytes}
      {m : CKeyingMaterial} {vchSalt : Bytes} {nMeasured : Nat} {keys : List CKey} {fCommit : Bool} :
      WalletRun we w ref none →
      w.encryptWallet we strPassphrase m vchSalt nMeasured keys fCommit = none →
      load we w.file = some w' → WalletRun we w' ref none
  | restart {w w' : KeyWallet} {ref : CCryptoKeyStore} {pass : Option Bytes} :
      WalletRun we w ref pass → load we w.file = some w' → WalletRun we w' ref pass

/-- The two kinds of wallet a run comes to -/
def Keeps (we : WalletEnv) (w : KeyWallet) (ref : CCryptoKeyStore) : Option Bytes → Prop
  | none => w.Plain we ref
  | some strPassphrase => ref.mapKeys ≠ ∅ ∧ ∃ m, w.Crypted we m strPassphrase ref

theorem Keeps.load (hwe : we.Sound) {pass : Option Bytes} (h : w.Keeps we ref pass) :
    ∃ w', KeyWallet.load we w.file = some w' ∧ w'.Keeps we ref pass ∧
      w'.store.isLocked = pass.isSome := by
  cases pass with
  | none =>
      obtain ⟨w', hload, hplain⟩ := Plain.load hwe h
      refine ⟨w', hload, hplain, ?_⟩
      rw [hplain.store, CCryptoKeyStore.isLocked, CCryptoKeyStore.isCrypted,
        hplain.plain.notCrypted]
      rfl
  | some strPassphrase =>
      obtain ⟨hkeys, m, hcrypted⟩ := h
      obtain ⟨w', hload, hcrypted', hlocked⟩ := hcrypted.load hwe hkeys
      exact ⟨w', hload, ⟨hkeys, m, hcrypted'⟩, hlocked⟩

/-- Adding a key leaves no store empty. -/
theorem mapKeys_ne_empty_of_addKey (hplain : ref.Plain we.toKeyEnv)
    (hkey : key.IsPrivate we.toKeyEnv) (hadd : ref.addKey we.toKeyEnv key = some (true, ref')) :
    ref'.mapKeys ≠ ∅ := by
  obtain ⟨secret, heq, -, -⟩ := hplain.addKey_eq hkey
  rw [hadd] at heq
  cases heq
  intro hempty
  have hget := Lib.eq_empty_iff_getElem?.mp hempty
    (we.address (we.pubKey secret key.fCompressedPubKey))
  rw [Lib.getElem?_insert, if_pos rfl] at hget
  cases hget

theorem WalletRun.keeps (hwe : we.Sound) {pass : Option Bytes} (h : WalletRun we w ref pass) :
    w.Keeps we ref pass := by
  induction h with
  | new => exact Plain.new we
  | @addKey w w' ref ref' pass key fOk _ hunlocked hkey hsame hadd href ih =>
      cases pass with
      | none => exact Plain.addKey ih hkey hsame hadd href
      | some strPassphrase =>
          obtain ⟨-, m, hcrypted⟩ := ih
          exact ⟨mapKeys_ne_empty_of_addKey hcrypted.seals.plain hkey href, m,
            (hcrypted.addKey hwe hunlocked hkey hsame hadd href).1⟩
  | @addKeyLocked w w' ref pass key fOk _ hlocked hadd ih =>
      cases pass with
      | none =>
          have hplain : w.Plain we ref := ih
          rw [hplain.store, CCryptoKeyStore.isLocked, CCryptoKeyStore.isCrypted,
            hplain.plain.notCrypted] at hlocked
          cases hlocked
      | some strPassphrase =>
          obtain ⟨hkeys, m, hcrypted⟩ := ih
          rw [hcrypted.addKey_locked hlocked] at hadd
          cases hadd
          exact ⟨hkeys, m, hcrypted⟩
  | lock _ ih =>
      obtain ⟨hkeys, m, hcrypted⟩ := ih
      exact ⟨hkeys, m, hcrypted.lock⟩
  | @unlock w w' ref strPassphrase strTried fOk _ htried hunlock ih =>
      obtain ⟨hkeys, m, hcrypted⟩ := ih
      refine ⟨hkeys, m, ?_⟩
      rcases htried with rfl | hguess
      · cases hlocked : w.store.isLocked with
        | true =>
            rw [hcrypted.unlock hwe hlocked] at hunlock
            cases hunlock
            exact hcrypted.withMaster (.inr rfl)
        | false =>
            rw [KeyWallet.unlock, hlocked] at hunlock
            cases hunlock
            exact hcrypted
      · rw [hcrypted.unlock_guess hguess] at hunlock
        cases hunlock
        exact hcrypted
  | changeWalletPassphrase _ hchange ih =>
      obtain ⟨hkeys, m, hcrypted⟩ := ih
      exact ⟨hkeys, m, (hcrypted.changeWalletPassphrase hwe hchange).2⟩
  | changeWalletPassphraseFails _ hguess hchange ih =>
      obtain ⟨hkeys, m, hcrypted⟩ := ih
      rw [hcrypted.changeWalletPassphrase_guess hguess] at hchange
      cases hchange
      exact ⟨hkeys, m, hcrypted.lock⟩
  | @encryptWallet w w' ref ref' strPassphrase m _ _ _ _ _ hm hsalt hadded hkeys hencrypt ih =>
      exact ⟨hkeys, m, Plain.encryptWallet hwe hm ih hsalt hadded hencrypt⟩
  | exit _ _ hload ih =>
      obtain ⟨w'', hload', hkeeps, -⟩ := Keeps.load hwe ih
      rw [hload] at hload'
      cases hload'
      exact hkeeps
  | restart _ hload ih =>
      obtain ⟨w'', hload', hkeeps, -⟩ := Keeps.load hwe ih
      rw [hload] at hload'
      cases hload'
      exact hkeeps

/-! ## What the keys are worth -/

/-- What the wallet tells of its keys -/
structure Gives (we : WalletEnv) (w : KeyWallet) (ref : CCryptoKeyStore) (pass : Option Bytes) :
    Prop where
  haveKey : ∀ address, w.store.haveKey address = ref.haveKey address
  unlocked : w.store.isLocked = false → ∀ address,
    w.store.getKey we.toKeyEnv address {} = ref.getKey we.toKeyEnv address {}
  locked : w.store.isLocked = true → ∀ address, w.store.getKey we.toKeyEnv address {} = none
  /-- The file has no key that is not encrypted. -/
  encrypted : pass.isSome = true → w.file.key = ∅ ∧ w.store.mapKeys = ∅
  /-- The passphrase gives all the keys back. -/
  unlock : w.store.isLocked = true → ∃ strPassphrase w', pass = some strPassphrase ∧
    w.unlock we strPassphrase = (true, w') ∧ ∀ address,
      w'.store.getKey we.toKeyEnv address {} = ref.getKey we.toKeyEnv address {}

theorem Keeps.gives (hwe : we.Sound) {pass : Option Bytes} (h : w.Keeps we ref pass) :
    w.Gives we ref pass := by
  cases pass with
  | none =>
      have hplain : w.Plain we ref := h
      have hunlocked : ¬ w.store.isLocked = true := by
        rw [hplain.store, CCryptoKeyStore.isLocked, CCryptoKeyStore.isCrypted,
          hplain.plain.notCrypted]
        exact Bool.false_ne_true
      exact {
        haveKey := fun address => by rw [hplain.store]
        unlocked := fun _ address => by rw [hplain.store]
        locked := fun hlocked => absurd hlocked hunlocked
        encrypted := fun hsome => absurd hsome Bool.false_ne_true
        unlock := fun hlocked => absurd hlocked hunlocked }
  | some strPassphrase =>
      obtain ⟨-, m, hcrypted⟩ := h
      have hseals := hcrypted.seals
      have hunlocked := hcrypted.withMaster (.inr rfl)
      exact {
        haveKey := hseals.haveKey hwe.toSound hcrypted.length_eq
        unlocked := hseals.getKey_of_unlocked hwe.toSound hcrypted.length_eq
        locked := fun hlocked address => hseals.getKey_of_locked hlocked address {}
        encrypted := fun _ => ⟨hcrypted.noKeys, hseals.noKeys⟩
        unlock := fun hlocked => ⟨strPassphrase, _, rfl, hcrypted.unlock hwe hlocked,
          hunlocked.seals.getKey_of_unlocked hwe.toSound hcrypted.length_eq
            hcrypted.isLocked_withMaster⟩ }

/-- Whatever is called, the wallet has all the keys it was given. So has one that is made of the file,
which has no key in the clear when there is a passphrase, and needs the passphrase then. -/
theorem keys_survive (hwe : we.Sound) {pass : Option Bytes} (hrun : WalletRun we w ref pass) :
    w.Gives we ref pass ∧
    ∃ w', load we w.file = some w' ∧ w'.Gives we ref pass ∧ w'.store.isLocked = pass.isSome := by
  have hkeeps := hrun.keeps hwe
  obtain ⟨w', hload, hkeeps', hlocked⟩ := hkeeps.load hwe
  exact ⟨hkeeps.gives hwe, w', hload, hkeeps'.gives hwe, hlocked⟩

/-- With the ciphers of `paddedKeys`, a key derivation without rounds. -/
def paddedWallet : WalletEnv where
  toKeyEnv := CCryptoKeyStore.paddedKeys
  bytesToKey strKeyData chSalt _ := ((strKeyData ++ chSalt ++ List.replicate 32 0).take 32, [])
  privKey secret fCompressed := (if fCompressed then 1 else 0) :: secret
  readPrivKey
    | [] => none
    | b :: secret =>
        if hsize : secret.length = 32 then
          some (⟨secret, hsize⟩, CCryptoKeyStore.paddedKeys.pubKey ⟨secret, hsize⟩ (b == 1))
        else none

theorem paddedWallet_sound : paddedWallet.Sound where
  toSound := CCryptoKeyStore.paddedKeys_sound
  length_bytesToKey strKeyData chSalt nRounds := by
    have hlen : 32 ≤ (strKeyData ++ chSalt ++ List.replicate 32 0).length := by
      rw [List.length_append, List.length_replicate]
      omega
    exact List.length_take_of_le hlen
  readPrivKey_privKey secret fCompressed := by
    cases fCompressed
    · simp [paddedWallet, secret.2]
    · simp [paddedWallet, secret.2]

def sampleKey : CKey :=
  ({} : CKey).setSecret paddedWallet.toKeyEnv ⟨List.replicate 32 6, rfl⟩ true

theorem keys_survive_sampleKey :
    ∃ w w' w'', WalletRun paddedWallet w
        { mapKeys := (∅ : Std.ExtTreeMap CBitcoinAddress (CSecret × Bool) compare).insert
            (paddedWallet.address sampleKey.getPubKey) (⟨List.replicate 32 6, rfl⟩, true) }
        (some [7, 7]) ∧
      load paddedWallet w.file = some w' ∧ w'.unlock paddedWallet [7, 7] = (true, w'') := by
  have hprivate : sampleKey.IsPrivate paddedWallet.toKeyEnv := ⟨⟨List.replicate 32 6, rfl⟩, rfl, rfl⟩
  have hsame : ({} : CCryptoKeyStore).SameKey paddedWallet.toKeyEnv sampleKey := by
    intro k hget
    simp at hget
  have hplain := CCryptoKeyStore.Plain.empty paddedWallet.toKeyEnv
  have hencrypt : ∃ w, ({} : KeyWallet).encryptWallet paddedWallet [7, 7] (List.replicate 32 9)
      (List.replicate 8 5) 0 [sampleKey] true = some (true, w) := ⟨_, rfl⟩
  obtain ⟨w, hw⟩ := hencrypt
  have hrun := WalletRun.new.encryptWallet rfl rfl (.cons hprivate hsame rfl .nil)
    (mapKeys_ne_empty_of_addKey hplain hprivate rfl) hw
  obtain ⟨-, w', hload, hgives, hlocked⟩ := keys_survive paddedWallet_sound hrun
  obtain ⟨strPassphrase, w'', hpass, hunlock, -⟩ := hgives.unlock hlocked
  cases hpass
  exact ⟨w, w', w'', hrun, hload, hunlock⟩

end KeyWallet

end Crypter

end ShinyCoin

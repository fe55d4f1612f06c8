import ShinyCoin.Wallet.KeyStore

/-!
# Encrypting a key store

An encrypted store is followed beside one that is not encrypted, with the same keys. Where the plain
store has a secret, the encrypted one has its public key and the secret encrypted; the size of the
public key brings the compression back.
-/

namespace ShinyCoin

namespace Crypter

/-- What is relied on of OpenSSL. -/
structure KeyEnv.Sound (ke : KeyEnv) : Prop where
  decrypt_encrypt : ∀ chKey chIV vchPlaintext, chKey.length = 32 →
    ∃ vchCiphertext, ke.encrypt chKey chIV vchPlaintext = some vchCiphertext ∧
      ke.decrypt chKey chIV vchCiphertext = some vchPlaintext
  isPubKey_pubKey : ∀ secret fCompressed, ke.isPubKey (ke.pubKey secret fCompressed) = true
  length_pubKey : ∀ secret fCompressed,
    (ke.pubKey secret fCompressed).length = if fCompressed then 33 else 65

variable {ke : KeyEnv} {m : CKeyingMaterial} {s s' ref ref' : CCryptoKeyStore} {key : CKey}

/-! ## Secrets -/

theorem encryptSecret_eq (hm : m.length = 32) (secret : CSecret) (nIV : Uint256) :
    encryptSecret ke m secret nIV = ke.encrypt m (Lib.toLE 32 nIV) secret := by
  simp [encryptSecret, CCrypter.setKey, CCrypter.encrypt, WALLET_CRYPTO_KEY_SIZE, hm]

theorem decryptSecret_eq (hm : m.length = 32) (vchCiphertext : Bytes) (nIV : Uint256) :
    decryptSecret ke m vchCiphertext nIV = ke.decrypt m (Lib.toLE 32 nIV) vchCiphertext := by
  simp [decryptSecret, CCrypter.setKey, CCrypter.decrypt, WALLET_CRYPTO_KEY_SIZE, hm]

/-- Without a master key nothing is decrypted. -/
theorem decryptSecret_nil (ke : KeyEnv) (vchCiphertext : Bytes) (nIV : Uint256) :
    decryptSecret ke [] vchCiphertext nIV = none := by
  simp [decryptSecret, CCrypter.setKey, WALLET_CRYPTO_KEY_SIZE]

/-- The entry of `mapCryptedKeys` for an entry of `mapKeys`. -/
def KeyEnv.sealed (ke : KeyEnv) (m : CKeyingMaterial) : CSecret × Bool → Option (Bytes × Bytes)
  | (secret, fCompressed) =>
      (encryptSecret ke m secret (ke.hash (ke.pubKey secret fCompressed))).map
        (ke.pubKey secret fCompressed, ·)

namespace KeyEnv.Sound

theorem exists_sealed (hke : ke.Sound) (hm : m.length = 32) (secret : CSecret) (fCompressed : Bool) :
    ∃ vchCryptedSecret,
      encryptSecret ke m secret (ke.hash (ke.pubKey secret fCompressed)) = some vchCryptedSecret ∧
      ke.sealed m (secret, fCompressed) = some (ke.pubKey secret fCompressed, vchCryptedSecret) := by
  obtain ⟨vchCryptedSecret, hencrypt, -⟩ := hke.decrypt_encrypt m
    (Lib.toLE 32 (ke.hash (ke.pubKey secret fCompressed))) secret hm
  rw [← encryptSecret_eq hm] at hencrypt
  exact ⟨vchCryptedSecret, hencrypt, by rw [sealed, hencrypt, Option.map_some]⟩

/-- `SetPubKey` of a public key of 33 bytes makes `SetSecret` compress. -/
theorem setSecret_setPubKey (hke : ke.Sound) (secret : CSecret) (fCompressed : Bool) :
    (({} : CKey).setPubKey ke (ke.pubKey secret fCompressed)).setSecret ke secret false
      = ({} : CKey).setSecret ke secret fCompressed := by
  have hlen := hke.length_pubKey secret fCompressed
  cases fCompressed
  · simp [CKey.setPubKey, CKey.setSecret, hke.isPubKey_pubKey, hlen]
  · simp [CKey.setPubKey, CKey.setSecret, hke.isPubKey_pubKey, hlen]

/-- An entry that was sealed opens to the key it was made of. -/
theorem openKey_of_sealed (hke : ke.Sound) (hm : m.length = 32) {secret : CSecret}
    {fCompressed : Bool} {vchPubKey vchCryptedSecret : Bytes}
    (h : ke.sealed m (secret, fCompressed) = some (vchPubKey, vchCryptedSecret)) :
    CCryptoKeyStore.openKey ke m vchPubKey vchCryptedSecret {}
      = some (({} : CKey).setSecret ke secret fCompressed) := by
  obtain ⟨vchCiphertext, hencrypt, hdecrypt⟩ := hke.decrypt_encrypt m
    (Lib.toLE 32 (ke.hash (ke.pubKey secret fCompressed))) secret hm
  rw [sealed, encryptSecret_eq hm, hencrypt, Option.map_some] at h
  cases h
  rw [CCryptoKeyStore.openKey, decryptSecret_eq hm, hdecrypt, Option.bind_eq_bind, Option.bind_some,
    dif_pos secret.2]
  exact congrArg some (hke.setSecret_setPubKey secret fCompressed)

end KeyEnv.Sound

/-! ## The plain store -/

namespace CCryptoKeyStore

/-- "if fUseCrypto is true, mapKeys must be empty; if fUseCrypto is false, vMasterKey must be
empty" -/
structure Wf (s : CCryptoKeyStore) : Prop where
  crypted : s.fUseCrypto = true → s.mapKeys = ∅
  plain : s.fUseCrypto = false → s.vMasterKey = []

/-- A store that is not encrypted, with its keys under their addresses. -/
structure Plain (ke : KeyEnv) (s : CCryptoKeyStore) : Prop where
  notCrypted : s.fUseCrypto = false
  noMaster : s.vMasterKey = []
  noCrypted : s.mapCryptedKeys = ∅
  address : ∀ a secret fCompressed, s.mapKeys[a]? = some (secret, fCompressed) →
    a = ke.address (ke.pubKey secret fCompressed)

/-- A store to which keys have been added. -/
inductive Filled (ke : KeyEnv) : CCryptoKeyStore → Prop
  | empty : Filled ke {}
  | addKey {s s' : CCryptoKeyStore} {key : CKey} {fOk : Bool} : Filled ke s → key.IsPrivate ke →
      s.addKey ke key = some (fOk, s') → Filled ke s'

theorem Plain.empty (ke : KeyEnv) : ({} : CCryptoKeyStore).Plain ke := by
  refine ⟨rfl, rfl, rfl, ?_⟩
  intro a secret fCompressed h
  simp at h

/-- The key of a plain store. -/
theorem Plain.addKey_eq (h : s.Plain ke) (hkey : key.IsPrivate ke) :
    ∃ secret, s.addKey ke key = some (true, { s with
        mapKeys := s.mapKeys.insert (ke.address (ke.pubKey secret key.fCompressedPubKey))
          (secret, key.fCompressedPubKey) }) ∧
      key.vchSecret = some secret ∧ key.getPubKey = ke.pubKey secret key.fCompressedPubKey := by
  obtain ⟨secret, hsecret, hpub⟩ := hkey
  refine ⟨secret, ?_, hsecret, hpub⟩
  simp [addKey, isCrypted, h.notCrypted, CKey.getSecret, CKey.getPubKey, hsecret, hpub]

theorem Plain.addKey (h : s.Plain ke) (hkey : key.IsPrivate ke) :
    ∃ s', s.addKey ke key = some (true, s') ∧ s'.Plain ke := by
  obtain ⟨secret, heq, -, -⟩ := h.addKey_eq hkey
  refine ⟨_, heq, h.notCrypted, h.noMaster, h.noCrypted, ?_⟩
  intro a secret' fCompressed' hget
  rw [Lib.getElem?_insert] at hget
  split at hget
  next ha =>
    cases hget
    exact ha
  next => exact h.address a secret' fCompressed' hget

theorem Filled.plain (h : Filled ke s) : s.Plain ke := by
  induction h with
  | empty => exact Plain.empty ke
  | addKey _ hkey hadd ih =>
      obtain ⟨s', heq, hplain⟩ := ih.addKey hkey
      rw [hadd] at heq
      cases heq
      exact hplain

theorem Plain.wf (h : s.Plain ke) : s.Wf :=
  ⟨fun hcrypted => absurd (h.notCrypted.symm.trans hcrypted) Bool.false_ne_true,
    fun _ => h.noMaster⟩

/-! ## The encrypted store -/

/-- The encrypted store has the keys of the plain one, sealed. -/
structure Seals (ke : KeyEnv) (m : CKeyingMaterial) (s ref : CCryptoKeyStore) : Prop where
  crypted : s.fUseCrypto = true
  noKeys : s.mapKeys = ∅
  master : s.vMasterKey = [] ∨ s.vMasterKey = m
  plain : ref.Plain ke
  entries : ∀ a : CBitcoinAddress, s.mapCryptedKeys[a]? = ref.mapKeys[a]?.bind (ke.sealed m)

theorem setCrypted_of_crypted (h : s.fUseCrypto = true) : s.setCrypted = (true, s) := by
  rw [setCrypted, if_pos h]

theorem addCryptedKey_of_crypted (h : s.fUseCrypto = true) (vchPubKey vchCryptedSecret : Bytes) :
    s.addCryptedKey ke vchPubKey vchCryptedSecret = (true, { s with
      mapCryptedKeys :=
        s.mapCryptedKeys.insert (ke.address vchPubKey) (vchPubKey, vchCryptedSecret) }) := by
  rw [addCryptedKey, setCrypted_of_crypted h]

/-- The loop seals all entries. -/
theorem encryptLoop_seals (hke : ke.Sound) (hm : m.length = 32)
    (mapKeys : List (CBitcoinAddress × CSecret × Bool)) (s : CCryptoKeyStore)
    (hs : s.fUseCrypto = true)
    (haddress : ∀ a secret fCompressed, (a, secret, fCompressed) ∈ mapKeys →
      a = ke.address (ke.pubKey secret fCompressed))
    (hdistinct : mapKeys.Pairwise fun x y => x.1 ≠ y.1) :
    ∃ s', encryptLoop ke m mapKeys s = (true, s') ∧ s'.fUseCrypto = true ∧ s'.mapKeys = ∅ ∧
      s'.vMasterKey = s.vMasterKey ∧
      (∀ a k, (a, k) ∈ mapKeys → s'.mapCryptedKeys[a]? = ke.sealed m k) ∧
      ∀ a, (∀ k, (a, k) ∉ mapKeys) → s'.mapCryptedKeys[a]? = s.mapCryptedKeys[a]? := by
  induction mapKeys generalizing s with
  | nil => exact ⟨_, rfl, hs, rfl, rfl, fun a k hmem => absurd hmem List.not_mem_nil, fun _ _ => rfl⟩
  | cons entry mapKeys ih =>
      obtain ⟨a, secret, fCompressed⟩ := entry
      obtain ⟨vchCryptedSecret, hencrypt, hseal⟩ := hke.exists_sealed hm secret fCompressed
      have ha := haddress a secret fCompressed List.mem_cons_self
      obtain ⟨hhead, htail⟩ := List.pairwise_cons.mp hdistinct
      have hpub : (({} : CKey).setSecret ke secret fCompressed).getPubKey
          = ke.pubKey secret fCompressed := by
        simp [CKey.getPubKey, CKey.setSecret]
      obtain ⟨s', hloop, hcrypted, hnoKeys, hmaster, hin, hout⟩ := ih
        { s with mapCryptedKeys :=
          s.mapCryptedKeys.insert a (ke.pubKey secret fCompressed, vchCryptedSecret) }
        hs (fun b sec c hmem => haddress b sec c (List.mem_cons_of_mem _ hmem)) htail
      refine ⟨s', ?_, hcrypted, hnoKeys, hmaster, ?_, ?_⟩
      · rw [encryptLoop, hpub]
        simp only [hencrypt, addCryptedKey_of_crypted hs, ← ha, hloop]
      · intro b k hmem
        rcases List.mem_cons.mp hmem with heq | hmem
        · cases heq
          rw [hout a fun k hk => hhead (a, k) hk rfl, Lib.getElem?_insert, if_pos rfl, hseal]
        · exact hin b k hmem
      · intro b hnot
        have hne : b ≠ a := by
          rintro rfl
          exact hnot (secret, fCompressed) List.mem_cons_self
        rw [hout b fun k hk => hnot k (List.mem_cons_of_mem _ hk), Lib.getElem?_insert, if_neg hne]

/-- Encrypting a plain store, which is locked then. -/
theorem Plain.encryptKeys (hke : ke.Sound) (hm : m.length = 32) (h : ref.Plain ke) :
    ∃ s, ref.encryptKeys ke m = (true, s) ∧ s.Seals ke m ref ∧ s.isLocked = true := by
  have hstart : (!ref.mapCryptedKeys.isEmpty || ref.isCrypted) = false := by
    simp [h.noCrypted, isCrypted, h.notCrypted]
  obtain ⟨s, hloop, hcrypted, hnoKeys, hmaster, hin, hout⟩ := encryptLoop_seals hke hm
    ref.mapKeys.toList { ref with fUseCrypto := true } rfl
    (fun a secret fCompressed hmem =>
      h.address a secret fCompressed (Std.ExtTreeMap.mem_toList_iff_getElem?_eq_some.mp hmem))
    (Std.ExtTreeMap.distinct_keys_toList.imp fun hne heq =>
      hne (Std.LawfulEqCmp.compare_eq_iff_eq.mpr heq))
  have hmaster : s.vMasterKey = [] := hmaster.trans h.noMaster
  refine ⟨s, ?_, ⟨hcrypted, hnoKeys, .inl hmaster, h, ?_⟩, ?_⟩
  · rw [CCryptoKeyStore.encryptKeys, hstart, if_neg Bool.false_ne_true]
    exact hloop
  · intro a
    cases hget : ref.mapKeys[a]? with
    | none =>
        rw [hout a, Option.bind_none]
        · show ref.mapCryptedKeys[a]? = none
          rw [h.noCrypted, Std.ExtTreeMap.getElem?_empty]
        · intro k hmem
          rw [Std.ExtTreeMap.mem_toList_iff_getElem?_eq_some.mp hmem] at hget
          cases hget
    | some k => exact hin a k (Std.ExtTreeMap.mem_toList_iff_getElem?_eq_some.mpr hget)
  · rw [isLocked, isCrypted, hcrypted, hmaster]
    rfl

namespace Seals

theorem wf (h : s.Seals ke m ref) : s.Wf :=
  ⟨fun _ => h.noKeys, fun hplain => absurd (hplain.symm.trans h.crypted) Bool.false_ne_true⟩

theorem isLocked_eq (h : s.Seals ke m ref) : s.isLocked = s.vMasterKey.isEmpty := by
  rw [isLocked, isCrypted, h.crypted, Bool.true_and]

theorem vMasterKey_of_unlocked (h : s.Seals ke m ref) (hunlocked : s.isLocked = false) :
    s.vMasterKey = m := by
  rw [h.isLocked_eq] at hunlocked
  refine h.master.resolve_left fun hnil => ?_
  rw [hnil] at hunlocked
  cases hunlocked

theorem vMasterKey_of_locked (h : s.Seals ke m ref) (hlocked : s.isLocked = true) :
    s.vMasterKey = [] := by
  rw [h.isLocked_eq] at hlocked
  exact List.isEmpty_iff.mp hlocked

theorem lock (h : s.Seals ke m ref) : ∃ s', s.lock = (true, s') ∧ s'.Seals ke m ref := by
  refine ⟨{ s with vMasterKey := [] }, ?_, h.crypted, h.noKeys, .inl rfl, h.plain, h.entries⟩
  rw [CCryptoKeyStore.lock, setCrypted_of_crypted h.crypted]

/-- The first key decides whether a master key is right, and it is a sealed one. -/
theorem opensFirst (hke : ke.Sound) (hm : m.length = 32) (h : s.Seals ke m ref) :
    CCryptoKeyStore.opensFirst ke m s.mapCryptedKeys.toList = true := by
  cases hlist : s.mapCryptedKeys.toList with
  | nil => rfl
  | cons entry rest =>
      obtain ⟨a, vchPubKey, vchCryptedSecret⟩ := entry
      have hget : s.mapCryptedKeys[a]? = some (vchPubKey, vchCryptedSecret) :=
        Std.ExtTreeMap.mem_toList_iff_getElem?_eq_some.mp (by rw [hlist]; exact List.mem_cons_self)
      rw [h.entries] at hget
      obtain ⟨⟨secret, fCompressed⟩, -, hseal⟩ := Option.bind_eq_some_iff.mp hget
      obtain ⟨_, -, hseal'⟩ := hke.exists_sealed hm secret fCompressed
      have hpub : ke.pubKey secret fCompressed = vchPubKey := by
        rw [hseal', Option.some.injEq] at hseal
        exact congrArg Prod.fst hseal
      rw [CCryptoKeyStore.opensFirst, hke.openKey_of_sealed hm hseal]
      simp [CKey.getPubKey, CKey.setSecret, hpub]

theorem unlock (hke : ke.Sound) (hm : m.length = 32) (h : s.Seals ke m ref) :
    ∃ s', s.unlock ke m = (true, s') ∧ s'.Seals ke m ref ∧ s'.isLocked = false := by
  have hs' : ({ s with vMasterKey := m } : CCryptoKeyStore).Seals ke m ref :=
    ⟨h.crypted, h.noKeys, .inr rfl, h.plain, h.entries⟩
  refine ⟨{ s with vMasterKey := m }, ?_, hs', ?_⟩
  · rw [CCryptoKeyStore.unlock, setCrypted_of_crypted h.crypted]
    dsimp only
    rw [h.opensFirst hke hm, if_pos rfl]
  · rw [hs'.isLocked_eq]
    cases m with
    | nil => cases hm
    | cons b m => rfl

theorem addKey_of_locked (h : s.Seals ke m ref) (hlocked : s.isLocked = true) (key : CKey) :
    s.addKey ke key = some (false, s) := by
  have hcrypted : s.isCrypted = true := h.crypted
  simp [addKey, hcrypted, hlocked]

/-- A key that is added to both stores is sealed. -/
theorem addKey_of_unlocked (hke : ke.Sound) (hm : m.length = 32) (h : s.Seals ke m ref)
    (hunlocked : s.isLocked = false) (hkey : key.IsPrivate ke) :
    ∃ s' ref', s.addKey ke key = some (true, s') ∧ ref.addKey ke key = some (true, ref') ∧
      s'.Seals ke m ref' := by
  have hcrypted : s.isCrypted = true := h.crypted
  have hmaster := h.vMasterKey_of_unlocked hunlocked
  obtain ⟨ref', hadd, hplain⟩ := h.plain.addKey hkey
  obtain ⟨secret, heq, hsecret, hpub⟩ := h.plain.addKey_eq hkey
  rw [hadd] at heq
  cases heq
  obtain ⟨vchCryptedSecret, hencrypt, hseal⟩ :=
    hke.exists_sealed hm secret key.fCompressedPubKey
  refine ⟨{ s with
      mapCryptedKeys := s.mapCryptedKeys.insert
        (ke.address (ke.pubKey secret key.fCompressedPubKey))
        (ke.pubKey secret key.fCompressedPubKey, vchCryptedSecret) },
    _, ?_, hadd, ⟨h.crypted, h.noKeys, h.master, hplain, ?_⟩⟩
  · simp [addKey, hcrypted, hunlocked, CKey.getSecret, hsecret, hpub, hmaster, hencrypt,
      addCryptedKey_of_crypted h.crypted]
  · intro a
    dsimp only
    rw [Lib.getElem?_insert, Lib.getElem?_insert]
    split
    · exact hseal.symm
    · exact h.entries a

/-! ## The answers -/

theorem isSome_getElem? (hke : ke.Sound) (hm : m.length = 32) (h : s.Seals ke m ref)
    (a : CBitcoinAddress) : s.mapCryptedKeys[a]?.isSome = ref.mapKeys[a]?.isSome := by
  rw [h.entries]
  cases ref.mapKeys[a]? with
  | none => rfl
  | some k =>
      obtain ⟨_, -, hseal⟩ := hke.exists_sealed hm k.1 k.2
      rw [Option.bind_some, hseal]
      rfl

theorem haveKey (hke : ke.Sound) (hm : m.length = 32) (h : s.Seals ke m ref)
    (a : CBitcoinAddress) : s.haveKey a = ref.haveKey a := by
  have hs : s.isCrypted = true := h.crypted
  have href : ref.isCrypted = false := h.plain.notCrypted
  simp only [CCryptoKeyStore.haveKey, hs, href, Bool.not_true, Bool.not_false, if_true,
    Bool.false_eq_true, if_false, Std.ExtTreeMap.contains_eq_isSome_getElem?]
  exact h.isSome_getElem? hke hm a

theorem mem_getKeys (hke : ke.Sound) (hm : m.length = 32) (h : s.Seals ke m ref)
    (a : CBitcoinAddress) : a ∈ s.getKeys ↔ a ∈ ref.getKeys := by
  have hs : s.isCrypted = true := h.crypted
  have href : ref.isCrypted = false := h.plain.notCrypted
  simp only [getKeys, hs, href, Bool.not_true, Bool.not_false, if_true, Bool.false_eq_true,
    if_false, Std.ExtTreeMap.mem_keys, Std.ExtTreeMap.mem_iff_isSome_getElem?]
  rw [h.isSome_getElem? hke hm a]

theorem getPubKey (hke : ke.Sound) (hm : m.length = 32) (h : s.Seals ke m ref)
    (a : CBitcoinAddress) : s.getPubKey ke a = ref.getPubKey ke a := by
  have hs : s.isCrypted = true := h.crypted
  have href : ref.isCrypted = false := h.plain.notCrypted
  simp only [CCryptoKeyStore.getPubKey, getKey, hs, href, Bool.not_true, Bool.not_false, if_true,
    Bool.false_eq_true, if_false]
  rw [h.entries]
  cases ref.mapKeys[a]? with
  | none => rfl
  | some k =>
      obtain ⟨_, -, hseal⟩ := hke.exists_sealed hm k.1 k.2
      rw [Option.bind_some, hseal]
      simp [CKey.getPubKey, CKey.setSecret]

theorem getKey_of_locked (h : s.Seals ke m ref) (hlocked : s.isLocked = true)
    (a : CBitcoinAddress) (keyOut : CKey) : s.getKey ke a keyOut = none := by
  have hs : s.isCrypted = true := h.crypted
  simp only [getKey, hs, Bool.not_true, Bool.false_eq_true, if_false, h.vMasterKey_of_locked hlocked,
    openKey, decryptSecret_nil]
  cases s.mapCryptedKeys[a]? with
  | none => rfl
  | some entry => rfl

theorem getKey_of_unlocked (hke : ke.Sound) (hm : m.length = 32) (h : s.Seals ke m ref)
    (hunlocked : s.isLocked = false) (a : CBitcoinAddress) :
    s.getKey ke a {} = ref.getKey ke a {} := by
  have hs : s.isCrypted = true := h.crypted
  have href : ref.isCrypted = false := h.plain.notCrypted
  simp only [getKey, hs, href, Bool.not_true, Bool.not_false, if_true, Bool.false_eq_true, if_false,
    h.vMasterKey_of_unlocked hunlocked]
  rw [h.entries]
  cases ref.mapKeys[a]? with
  | none => rfl
  | some k =>
      obtain ⟨_, -, hseal⟩ := hke.exists_sealed hm k.1 k.2
      rw [Option.bind_some, hseal, Option.bind_some, hke.openKey_of_sealed hm hseal]
      rfl

end Seals

/-! ## Runs -/

/-- An encrypted store after some calls, and a plain store to which the keys of the first and those
that `AddKey` has taken since have been added. -/
inductive Encrypted (ke : KeyEnv) (m : CKeyingMaterial) :
    CCryptoKeyStore → CCryptoKeyStore → Prop
  | encryptKeys {ref s : CCryptoKeyStore} {fOk : Bool} : Filled ke ref →
      ref.encryptKeys ke m = (fOk, s) → Encrypted ke m s ref
  | lock {s s' ref : CCryptoKeyStore} {fOk : Bool} : Encrypted ke m s ref →
      s.lock = (fOk, s') → Encrypted ke m s' ref
  | unlock {s s' ref : CCryptoKeyStore} {fOk : Bool} : Encrypted ke m s ref →
      s.unlock ke m = (fOk, s') → Encrypted ke m s' ref
  | addKey {s s' ref ref' : CCryptoKeyStore} {key : CKey} {fOk : Bool} : Encrypted ke m s ref →
      key.IsPrivate ke → s.addKey ke key = some (true, s') →
      ref.addKey ke key = some (fOk, ref') → Encrypted ke m s' ref'
  | addKeyFails {s s' ref : CCryptoKeyStore} {key : CKey} : Encrypted ke m s ref →
      key.IsPrivate ke → s.addKey ke key = some (false, s') → Encrypted ke m s' ref

theorem Encrypted.seals (hke : ke.Sound) (hm : m.length = 32) (h : Encrypted ke m s ref) :
    s.Seals ke m ref := by
  induction h with
  | encryptKeys hfilled hencrypt =>
      obtain ⟨s', heq, hseals, -⟩ := hfilled.plain.encryptKeys hke hm
      rw [hencrypt] at heq
      cases heq
      exact hseals
  | lock _ hlock ih =>
      obtain ⟨s', heq, hseals⟩ := ih.lock
      rw [hlock] at heq
      cases heq
      exact hseals
  | unlock _ hunlock ih =>
      obtain ⟨s', heq, hseals, -⟩ := ih.unlock hke hm
      rw [hunlock] at heq
      cases heq
      exact hseals
  | @addKey s s' ref ref' key fOk _ hkey hadd hplain ih =>
      cases hlocked : s.isLocked with
      | true =>
          rw [ih.addKey_of_locked hlocked] at hadd
          cases hadd
      | false =>
          obtain ⟨t, t', hs, href, hseals⟩ := ih.addKey_of_unlocked hke hm hlocked hkey
          rw [hadd] at hs
          rw [hplain] at href
          cases hs
          cases href
          exact hseals
  | @addKeyFails s s' ref key _ hkey hadd ih =>
      cases hlocked : s.isLocked with
      | true =>
          rw [ih.addKey_of_locked hlocked] at hadd
          cases hadd
          exact ih
      | false =>
          obtain ⟨t, t', hs, -⟩ := ih.addKey_of_unlocked hke hm hlocked hkey
          rw [hadd] at hs
          cases hs

/-- Encrypting loses nothing: a plain store can be encrypted, and whatever is called then, the
encrypted store has the keys of the plain one and gives their secrets when it is unlocked. -/
theorem encryptKeys_keeps (hke : ke.Sound) (hm : m.length = 32) :
    (∀ ref, Filled ke ref → ref.Wf ∧ ∃ s, ref.encryptKeys ke m = (true, s)) ∧
    ∀ s ref, Encrypted ke m s ref →
      (∀ address, s.haveKey address = ref.haveKey address ∧
        s.getPubKey ke address = ref.getPubKey ke address ∧
        (address ∈ s.getKeys ↔ address ∈ ref.getKeys)) ∧
      (s.isLocked = false → ∀ address, s.getKey ke address {} = ref.getKey ke address {}) ∧
      (s.isLocked = true → ∀ address, s.getKey ke address {} = none) ∧
      (∀ key : CKey, key.IsPrivate ke → ∃ s', s.addKey ke key = some (!s.isLocked, s')) ∧
      (∃ s', s.unlock ke m = (true, s')) ∧
      s.Wf ∧ ref.isCrypted = false := by
  refine ⟨?_, ?_⟩
  · intro ref hfilled
    obtain ⟨s, hencrypt, -, -⟩ := hfilled.plain.encryptKeys hke hm
    exact ⟨hfilled.plain.wf, s, hencrypt⟩
  · intro s ref hrun
    have h := hrun.seals hke hm
    refine ⟨?_, h.getKey_of_unlocked hke hm, ?_, ?_, ?_, h.wf, h.plain.notCrypted⟩
    · intro address
      exact ⟨h.haveKey hke hm address, h.getPubKey hke hm address, h.mem_getKeys hke hm address⟩
    · intro hlocked address
      exact h.getKey_of_locked hlocked address {}
    · intro key hkey
      cases hlocked : s.isLocked with
      | true => exact ⟨s, h.addKey_of_locked hlocked key⟩
      | false =>
          obtain ⟨s', -, hadd, -, -⟩ := h.addKey_of_unlocked hke hm hlocked hkey
          exact ⟨s', hadd⟩
    · obtain ⟨s', hunlock, -, -⟩ := h.unlock hke hm
      exact ⟨s', hunlock⟩

/-- Public keys of the right sizes, and a cipher with a block of padding. -/
def paddedKeys : KeyEnv where
  hash := Lib.ofLE
  hash160 vchPubKey := vchPubKey.take 20
  pubkeyVersion := 55
  pubKey
    | secret, true => 2 :: secret
    | secret, false => 4 :: (secret ++ secret)
  isPubKey vchPubKey := vchPubKey.length == 33 || vchPubKey.length == 65
  encrypt chKey _ vchPlaintext :=
    some (vchPlaintext.map (· ^^^ chKey.headD 0) ++ List.replicate 16 16)
  decrypt chKey _ vchCiphertext :=
    some ((vchCiphertext.take (vchCiphertext.length - 16)).map (· ^^^ chKey.headD 0))

theorem paddedKeys_sound : paddedKeys.Sound where
  decrypt_encrypt chKey chIV vchPlaintext _ := by
    have hxor : ∀ x : UInt8, x ^^^ chKey.headD 0 ^^^ chKey.headD 0 = x := by
      intro x
      rw [UInt8.xor_assoc, UInt8.xor_self, UInt8.xor_zero]
    refine ⟨_, rfl, congrArg some ?_⟩
    rw [List.length_append, List.length_replicate, Nat.add_sub_cancel, List.take_left, List.map_map]
    exact (List.map_congr_left fun x _ => hxor x).trans (List.map_id _)
  isPubKey_pubKey secret fCompressed := by
    cases fCompressed
    · simp [paddedKeys, secret.2]
    · simp [paddedKeys, secret.2]
  length_pubKey secret fCompressed := by
    cases fCompressed
    · simp [paddedKeys, secret.2]
    · simp [paddedKeys, secret.2]

/-- A store with a compressed and an uncompressed key. -/
def twoKeys : CCryptoKeyStore where
  mapKeys := (({} : Std.ExtTreeMap CBitcoinAddress (CSecret × Bool) compare).insert
    (paddedKeys.address (paddedKeys.pubKey ⟨List.replicate 32 1, rfl⟩ true))
    (⟨List.replicate 32 1, rfl⟩, true)).insert
    (paddedKeys.address (paddedKeys.pubKey ⟨List.replicate 32 3, rfl⟩ false))
    (⟨List.replicate 32 3, rfl⟩, false)

theorem filled_twoKeys : Filled paddedKeys twoKeys := by
  have hprivate : ∀ secret fCompressed,
      (({} : CKey).setSecret paddedKeys secret fCompressed).IsPrivate paddedKeys :=
    fun secret fCompressed => ⟨secret, rfl, rfl⟩
  exact (Filled.empty.addKey (hprivate ⟨List.replicate 32 1, rfl⟩ true) rfl).addKey
    (hprivate ⟨List.replicate 32 3, rfl⟩ false) rfl

theorem encryptKeys_keeps_twoKeys :
    ∃ s, Encrypted paddedKeys (List.replicate 32 7) s twoKeys ∧ s.Wf ∧
      ∀ address, s.haveKey address = twoKeys.haveKey address := by
  obtain ⟨hencrypt, hrun⟩ :=
    encryptKeys_keeps (m := List.replicate 32 7) paddedKeys_sound rfl
  obtain ⟨-, s, hs⟩ := hencrypt twoKeys filled_twoKeys
  have hstart := Encrypted.encryptKeys filled_twoKeys hs
  obtain ⟨-, -, -, -, ⟨s', hunlock⟩, -⟩ := hrun s twoKeys hstart
  have hunlocked := hstart.unlock hunlock
  obtain ⟨hanswers, -, -, -, -, hwf, -⟩ := hrun s' twoKeys hunlocked
  exact ⟨s', hunlocked, hwf, fun address => (hanswers address).1⟩

end CCryptoKeyStore

end Crypter

end ShinyCoin

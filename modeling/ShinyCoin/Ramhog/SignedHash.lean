import ShinyCoin.Lib.PMap
import ShinyCoin.Ramhog.Hash
import ShinyCoin.Wire.Block

/-!
# Cached and signed proof-of-work hashes

A ramhog hash takes long, so it is kept in memory and in the database, and the holder of the master
key may sign the hash of a block for those who cannot compute it. A signed hash wins over a computed
one. `LoadHashCache` fills the caches from the database when the program starts: it loads what
belongs to a block of the best chain above the genesis block, and drops the signed hashes of the
best chain when the master key is a new one.
-/

namespace ShinyCoin

structure HashEnv extends Env where
  pbkdf2 : Pbkdf2
  nShinyScratchpads : UInt32
  nShinyHashChunks : UInt32
  nShinyHashIterations : UInt32
  /-- `SetPubKey(ParseHex(..))` and `Verify(hash, vchSig)` -/
  verify : Bytes → Uint256 → Bytes → Bool

/-- The ramhog hash of a header -/
def HashEnv.ramhogHash (henv : HashEnv) (header : CBlockHeader) : Uint256 :=
  Lib.ofLE (ramhog henv.pbkdf2 header.serialize 32 henv.nShinyScratchpads henv.nShinyHashChunks
    henv.nShinyHashIterations fun _ _ => 0)

structure CUnsignedHash where
  nVersion : ℤ := 1
  idHash : Uint256 := 0
  powHash : Uint256 := 0
  deriving DecidableEq

namespace CUnsignedHash

def serialize (u : CUnsignedHash) : Bytes :=
  Lib.toLEInt 4 u.nVersion ++ (Lib.toLE 32 u.idHash ++ Lib.toLE 32 u.powHash)

def unserialize : Lib.Reader Err CUnsignedHash := do
  let nVersion ← Lib.readLEInt endOfData 4
  let idHash ← Lib.readLE endOfData 32
  let powHash ← Lib.readLE endOfData 32
  return ⟨nVersion, idHash, powHash⟩

end CUnsignedHash

structure CSignedHash extends CUnsignedHash where
  vchMsg : Bytes := []
  vchSig : Bytes := []
  deriving DecidableEq

namespace CSignedHash

/-- The fields are those of the message. -/
def unserialize : Lib.Reader Err CSignedHash := do
  let vchMsg ← readByteVector
  let vchSig ← readByteVector
  match CUnsignedHash.unserialize.run vchMsg with
  | .ok (u, _) => return ⟨u, vchMsg, vchSig⟩
  | .error e => throw e

def getHash (henv : HashEnv) (signedHash : CSignedHash) : Uint256 :=
  henv.hash (writeBytes signedHash.vchMsg ++ writeBytes signedHash.vchSig)

def setHashes (signedHash : CSignedHash) (idHash powHash : Uint256) : CSignedHash :=
  let u : CUnsignedHash := ⟨signedHash.nVersion, idHash, powHash⟩
  ⟨u, u.serialize, []⟩

/-- The signature is over the bytes of the message; only then are the fields read from them. -/
def checkSignature (henv : HashEnv) (strMasterPubKey : Bytes) (signedHash : CSignedHash) :
    Except Err CSignedHash :=
  if henv.verify strMasterPubKey (henv.hash signedHash.vchMsg) signedHash.vchSig then
    match CUnsignedHash.unserialize.run signedHash.vchMsg with
    | .ok (u, _) => .ok { signedHash with toCUnsignedHash := u }
    | .error e => .error e
  else .error (.fail "CSignedHash::CheckSignature() : verify signature failed")

def setSignature (henv : HashEnv) (strMasterPubKey : Bytes) (signedHash : CSignedHash)
    (vchSig : Bytes) : Except Err CSignedHash :=
  checkSignature henv strMasterPubKey { signedHash with vchSig := vchSig }

end CSignedHash

/-- The records of `CTxDB` -/
structure HashDb where
  powhash : Lib.PMap Uint256 Uint256 := Lib.PMap.empty
  signedhash : Lib.PMap Uint256 (Uint256 × Bytes) := Lib.PMap.empty
  strSignedHashPubKey : Option Bytes := none

structure HashCaches where
  mapPoWCache : Lib.PMap Uint256 Uint256 := Lib.PMap.empty
  mapSigCache : Lib.PMap Uint256 (Uint256 × Bytes) := Lib.PMap.empty
  mapInvSignedHash : Lib.PMap Uint256 CSignedHash := Lib.PMap.empty
  db : HashDb := {}
  strMasterPubKey : Bytes
  /-- `-usesignedhashes` -/
  fUseSignedHashes : Bool := true

namespace HashCaches

/-- `SignedHash::GetPoWHash` -/
def getPoWHash (s : HashCaches) (idHash : Uint256) : Option Uint256 :=
  match s.mapSigCache idHash with
  | some (powHash, _) => if s.fUseSignedHashes then some powHash else s.mapPoWCache idHash
  | none => s.mapPoWCache idHash

def uncheckedAddHash (s : HashCaches) (idHash powHash : Uint256) : HashCaches :=
  { s with
    mapPoWCache := s.mapPoWCache.set idHash powHash
    db := { s.db with powhash := s.db.powhash.set idHash powHash } }

def uncheckedAddSignedHash (s : HashCaches) (idHash powHash : Uint256) (vchSig : Bytes) :
    HashCaches :=
  { s with
    mapSigCache := s.mapSigCache.set idHash (powHash, vchSig)
    db := { s.db with signedhash := s.db.signedhash.set idHash (powHash, vchSig) } }

/-- `CBlock::GetPoWHash`; `fPool` says whether the thread pool gives a result. -/
def blockGetPoWHash (henv : HashEnv) (s : HashCaches) (header : CBlockHeader) (fPool : Bool) :
    Option Uint256 × HashCaches :=
  match s.getPoWHash (henv.getIDHash header) with
  | some powHash => (some powHash, s)
  | none =>
      if fPool then
        (some (henv.ramhogHash header),
          s.uncheckedAddHash (henv.getIDHash header) (henv.ramhogHash header))
      else (none, s)

def processRelaySignedHash (henv : HashEnv) (s : HashCaches) (signedHash : CSignedHash) :
    HashCaches :=
  match signedHash.checkSignature henv s.strMasterPubKey with
  | .error _ => s
  | .ok signedHash =>
      let s := s.uncheckedAddSignedHash signedHash.idHash signedHash.powHash signedHash.vchSig
      { s with mapInvSignedHash := s.mapInvSignedHash.set (signedHash.getHash henv) signedHash }

/-- `SendSignedHash(idHash)`: `header` is that of the index entry, if there is one, and `vchSig` what
the private key signs with, if there is one. -/
def sendSignedHash (henv : HashEnv) (s : HashCaches) (idHash : Uint256)
    (header : Option CBlockHeader) (fPool : Bool) (vchSig : Option Bytes) : HashCaches :=
  match header with
  | none => s
  | some header =>
      match s.blockGetPoWHash henv header fPool, vchSig with
      | (some powHash, s), some vchSig =>
          s.processRelaySignedHash henv
            { CSignedHash.setHashes {} idHash powHash with vchSig := vchSig }
      | (_, s), _ => s

/-! ## Starting the program -/

/-- One round of the second loop of `LoadHashCache` -/
def loadBlock (henv : HashEnv) (s : HashCaches) (idHash : Uint256) : HashCaches :=
  let s := match s.db.powhash idHash with
    | some powHash => { s with mapPoWCache := s.mapPoWCache.set idHash powHash }
    | none => s
  match s.db.signedhash idHash with
  | none => s
  | some (powHash, vchSig) =>
      match (CSignedHash.setHashes {} idHash powHash).setSignature henv s.strMasterPubKey vchSig with
      | .ok signedHash =>
          { s with
            mapSigCache := s.mapSigCache.set idHash (powHash, vchSig)
            mapInvSignedHash := s.mapInvSignedHash.set (signedHash.getHash henv) signedHash }
      | .error _ => s

/-- `LoadHashCache`; `bestChain` has the id hashes from `pindexBest` down to the genesis block, which
both loops leave out. -/
def loadHashCache (henv : HashEnv) (s : HashCaches) (bestChain : List Uint256) : HashCaches :=
  if s.db.strSignedHashPubKey = some s.strMasterPubKey then
    bestChain.dropLast.foldl (loadBlock henv) s
  else
    { s with
      mapSigCache := Lib.PMap.empty
      mapInvSignedHash := Lib.PMap.empty
      db := { s.db with
        strSignedHashPubKey := some s.strMasterPubKey
        signedhash := bestChain.dropLast.foldl Lib.PMap.erase s.db.signedhash } }

/-- Empty caches over a database -/
def new (db : HashDb) (strMasterPubKey : Bytes) (fUseSignedHashes : Bool) : HashCaches where
  db := db
  strMasterPubKey := strMasterPubKey
  fUseSignedHashes := fUseSignedHashes

/-- The headers `LoadBlockIndex` checks, with what the thread pool does for each -/
def checkHeaders (henv : HashEnv) (s : HashCaches) (checked : List (CBlockHeader × Bool)) :
    HashCaches :=
  checked.foldl (fun s c => (s.blockGetPoWHash henv c.1 c.2).2) s

/-- The program starts: empty caches, the headers that are checked, and `LoadHashCache` -/
def start (henv : HashEnv) (db : HashDb) (strMasterPubKey : Bytes) (fUseSignedHashes : Bool)
    (checked : List (CBlockHeader × Bool)) (bestChain : List Uint256) : HashCaches :=
  loadHashCache henv (checkHeaders henv (new db strMasterPubKey fUseSignedHashes) checked) bestChain

end HashCaches

/-- What reaches the caches -/
inductive HashOp where
  /-- A "sigpowhash" message -/
  | sigpowhash (payload : Bytes)
  | getPoWHash (header : CBlockHeader) (fPool : Bool)
  | sendSignedHash (idHash : Uint256) (header : Option CBlockHeader) (fPool : Bool)
      (vchSig : Option Bytes)
  | restart (strMasterPubKey : Bytes) (fUseSignedHashes : Bool)
      (checked : List (CBlockHeader × Bool)) (bestChain : List Uint256)

namespace HashCaches

def exec (henv : HashEnv) (s : HashCaches) : HashOp → HashCaches
  | .sigpowhash payload =>
      match CSignedHash.unserialize.run payload with
      | .ok (signedHash, _) => s.processRelaySignedHash henv signedHash
      | .error _ => s
  | .getPoWHash header fPool => (s.blockGetPoWHash henv header fPool).2
  | .sendSignedHash idHash header fPool vchSig => s.sendSignedHash henv idHash header fPool vchSig
  | .restart strMasterPubKey fUseSignedHashes checked bestChain =>
      start henv s.db strMasterPubKey fUseSignedHashes checked bestChain

/-- A first start with an empty database, and what follows -/
def run (henv : HashEnv) (strMasterPubKey : Bytes) (ops : List HashOp) : HashCaches :=
  ops.foldl (exec henv) (start henv {} strMasterPubKey true [] [])

end HashCaches

/-! ## What is in the caches -/

/-- The hash is that of a header with this id hash. -/
def HashEnv.Computed (henv : HashEnv) (idHash powHash : Uint256) : Prop :=
  ∃ header, henv.getIDHash header = idHash ∧ henv.ramhogHash header = powHash

/-- The master key's signature is over a message that says this hash. -/
def HashEnv.Signed (henv : HashEnv) (strMasterPubKey : Bytes) (idHash powHash : Uint256)
    (vchSig : Bytes) : Prop :=
  ∃ vchMsg u rest, henv.verify strMasterPubKey (henv.hash vchMsg) vchSig = true ∧
    CUnsignedHash.unserialize.run vchMsg = .ok (u, rest) ∧ u.idHash = idHash ∧ u.powHash = powHash

/-- The message `SetHashes` makes -/
def setHashesMsg (idHash powHash : Uint256) : Bytes :=
  (CSignedHash.setHashes {} idHash powHash).vchMsg

section

variable {henv : HashEnv} {s : HashCaches} {idHash powHash : Uint256} {vchSig : Bytes}

theorem CUnsignedHash.unserialize_lt {b rest : Bytes} {u : CUnsignedHash}
    (h : unserialize.run b = .ok (u, rest)) : u.idHash < 2 ^ 256 ∧ u.powHash < 2 ^ 256 := by
  unfold unserialize at h
  simp only [StateT.run_bind] at h
  obtain ⟨⟨nVersion, b₁⟩, -, h⟩ := Lib.bind_eq_ok.mp h
  obtain ⟨⟨idHash, b₂⟩, hid, h⟩ := Lib.bind_eq_ok.mp h
  obtain ⟨⟨powHash, b₃⟩, hpow, h⟩ := Lib.bind_eq_ok.mp h
  cases h
  exact ⟨Lib.readLE_ok hid, Lib.readLE_ok hpow⟩

theorem CUnsignedHash.unserialize_setHashes (hid : idHash < 2 ^ 256) (hpow : powHash < 2 ^ 256) :
    unserialize.run (setHashesMsg idHash powHash) = .ok (⟨1, idHash, powHash⟩, []) := by
  have hid' : idHash < 256 ^ 32 := hid
  have hpow' : powHash < 256 ^ 32 := hpow
  have hread : Lib.Yields unserialize (setHashesMsg idHash powHash) ⟨1, idHash, powHash⟩ := by
    apply Lib.Yields.bind (Lib.yields_readLEInt endOfData
      (show -((256 ^ 4 : Nat) : ℤ) ≤ 2 * 1 by decide) (show 2 * 1 < ((256 ^ 4 : Nat) : ℤ) by decide))
    apply Lib.Yields.bind (Lib.yields_readLE endOfData hid')
    exact (Lib.yields_readLE endOfData hpow').last (CUnsignedHash.mk 1 idHash)
  have hrun := hread []
  rwa [List.append_nil] at hrun

theorem CSignedHash.checkSignature_ok {strMasterPubKey : Bytes} {signedHash signedHash' : CSignedHash}
    (h : signedHash.checkSignature henv strMasterPubKey = .ok signedHash') :
    henv.Signed strMasterPubKey signedHash'.idHash signedHash'.powHash signedHash'.vchSig ∧
      signedHash'.idHash < 2 ^ 256 ∧ signedHash'.powHash < 2 ^ 256 := by
  unfold checkSignature at h
  split at h
  · next hverify =>
    split at h
    · next u rest hread =>
      cases h
      exact ⟨⟨signedHash.vchMsg, u, rest, hverify, hread, rfl, rfl⟩,
        CUnsignedHash.unserialize_lt hread⟩
    · cases h
  · cases h

theorem CSignedHash.verify_of_checkSignature {strMasterPubKey : Bytes}
    {signedHash signedHash' : CSignedHash}
    (h : signedHash.checkSignature henv strMasterPubKey = .ok signedHash') :
    henv.verify strMasterPubKey (henv.hash signedHash.vchMsg) signedHash.vchSig = true := by
  unfold checkSignature at h
  split at h
  · next hverify => exact hverify
  · cases h

theorem CSignedHash.checkSignature_of {strMasterPubKey rest : Bytes} {signedHash : CSignedHash}
    {u : CUnsignedHash}
    (hverify : henv.verify strMasterPubKey (henv.hash signedHash.vchMsg) signedHash.vchSig = true)
    (hread : CUnsignedHash.unserialize.run signedHash.vchMsg = .ok (u, rest)) :
    signedHash.checkSignature henv strMasterPubKey
      = .ok { signedHash with toCUnsignedHash := u } := by
  unfold checkSignature
  rw [if_pos hverify, hread]

/-- A message as `SetHashes` makes it, with a signature, as it is received -/
theorem CSignedHash.unserialize_message (hid : idHash < 2 ^ 256) (hpow : powHash < 2 ^ 256)
    (hsig : vchSig.length ≤ MAX_SIZE) :
    unserialize.run (writeBytes (setHashesMsg idHash powHash) ++ writeBytes vchSig)
      = .ok (⟨⟨1, idHash, powHash⟩, setHashesMsg idHash powHash, vchSig⟩, []) := by
  have hmsg : (setHashesMsg idHash powHash).length ≤ MAX_SIZE := by
    rw [show (setHashesMsg idHash powHash).length = 68 by
      simp [setHashesMsg, CSignedHash.setHashes, CUnsignedHash.serialize]]
    decide
  have hfields := CUnsignedHash.unserialize_setHashes hid hpow
  have hread : Lib.Yields CSignedHash.unserialize
      (writeBytes (setHashesMsg idHash powHash) ++ (writeBytes vchSig ++ []))
      ⟨⟨1, idHash, powHash⟩, setHashesMsg idHash powHash, vchSig⟩ := by
    apply Lib.Yields.bind (yields_readByteVector hmsg)
    apply Lib.Yields.bind (yields_readByteVector hsig)
    rw [hfields]
    exact .pure _
  have hrun := hread []
  rw [List.append_nil, List.append_nil] at hrun
  exact hrun

/-- A signature over the message `SetHashes` makes is found to be right. -/
theorem CSignedHash.checkSignature_setHashes {strMasterPubKey : Bytes} (hid : idHash < 2 ^ 256)
    (hpow : powHash < 2 ^ 256)
    (hverify : henv.verify strMasterPubKey (henv.hash (setHashesMsg idHash powHash)) vchSig = true) :
    checkSignature henv strMasterPubKey
        { setHashes {} idHash powHash with vchSig := vchSig }
      = .ok ⟨⟨1, idHash, powHash⟩, setHashesMsg idHash powHash, vchSig⟩ := by
  exact checkSignature_of hverify (CUnsignedHash.unserialize_setHashes hid hpow)

namespace HashCaches

/-- Every cached hash was computed, or is signed and in the database; what is in the database has the
width of its fields. -/
structure Sound (henv : HashEnv) (s : HashCaches) : Prop where
  pow : ∀ idHash powHash, s.mapPoWCache idHash = some powHash → henv.Computed idHash powHash
  dbPow : ∀ idHash powHash, s.db.powhash idHash = some powHash → henv.Computed idHash powHash
  sig : ∀ idHash powHash vchSig, s.mapSigCache idHash = some (powHash, vchSig) →
    henv.Signed s.strMasterPubKey idHash powHash vchSig ∧
      s.db.signedhash idHash = some (powHash, vchSig)
  dbSig : ∀ idHash powHash vchSig, s.db.signedhash idHash = some (powHash, vchSig) →
    idHash < 2 ^ 256 ∧ powHash < 2 ^ 256
  inv : ∀ hash signedHash, s.mapInvSignedHash hash = some signedHash →
    henv.Signed s.strMasterPubKey signedHash.idHash signedHash.powHash signedHash.vchSig

theorem Sound.getPoWHash (h : s.Sound henv) (hget : s.getPoWHash idHash = some powHash) :
    henv.Computed idHash powHash ∨ ∃ vchSig, henv.Signed s.strMasterPubKey idHash powHash vchSig := by
  unfold HashCaches.getPoWHash at hget
  split at hget
  · next powHash' vchSig hsig =>
    split at hget
    · cases hget
      exact .inr ⟨vchSig, (h.sig _ _ _ hsig).1⟩
    · exact .inl (h.pow _ _ hget)
  · exact .inl (h.pow _ _ hget)

theorem Sound.uncheckedAddHash (h : s.Sound henv) (hcomputed : henv.Computed idHash powHash) :
    (s.uncheckedAddHash idHash powHash).Sound henv := by
  refine ⟨fun id p hp => ?_, fun id p hp => ?_, h.sig, h.dbSig, h.inv⟩
  · change (s.mapPoWCache.set idHash powHash) id = some p at hp
    rw [Lib.PMap.set_apply] at hp
    split at hp
    · next heq =>
      cases hp
      rw [heq]
      exact hcomputed
    · exact h.pow id p hp
  · change (s.db.powhash.set idHash powHash) id = some p at hp
    rw [Lib.PMap.set_apply] at hp
    split at hp
    · next heq =>
      cases hp
      rw [heq]
      exact hcomputed
    · exact h.dbPow id p hp

theorem Sound.blockGetPoWHash (h : s.Sound henv) (header : CBlockHeader) (fPool : Bool) :
    (s.blockGetPoWHash henv header fPool).2.Sound henv := by
  unfold HashCaches.blockGetPoWHash
  split
  · exact h
  · split
    · exact h.uncheckedAddHash ⟨header, rfl, rfl⟩
    · exact h

theorem Sound.processRelaySignedHash (h : s.Sound henv) (signedHash : CSignedHash) :
    (s.processRelaySignedHash henv signedHash).Sound henv := by
  unfold HashCaches.processRelaySignedHash
  split
  · exact h
  · next signedHash' hcheck =>
    obtain ⟨hsigned, hid, hpow⟩ := CSignedHash.checkSignature_ok hcheck
    refine ⟨h.pow, h.dbPow, fun id p v hp => ?_, fun id p v hp => ?_, fun k sh hk => ?_⟩
    · -- the caches and the database change in the same place
      change (s.mapSigCache.set signedHash'.idHash (signedHash'.powHash, signedHash'.vchSig)) id
        = some (p, v) at hp
      show henv.Signed s.strMasterPubKey id p v ∧
        (s.db.signedhash.set signedHash'.idHash (signedHash'.powHash, signedHash'.vchSig)) id
          = some (p, v)
      rw [Lib.PMap.set_apply] at hp ⊢
      split at hp
      · next heq =>
        cases hp
        rw [if_pos heq, heq]
        exact ⟨hsigned, rfl⟩
      · next hne =>
        rw [if_neg hne]
        exact h.sig id p v hp
    · change (s.db.signedhash.set signedHash'.idHash (signedHash'.powHash, signedHash'.vchSig)) id
        = some (p, v) at hp
      rw [Lib.PMap.set_apply] at hp
      split at hp
      · next heq =>
        cases hp
        rw [heq]
        exact ⟨hid, hpow⟩
      · exact h.dbSig id p v hp
    · change (s.mapInvSignedHash.set (signedHash'.getHash henv) signedHash') k = some sh at hk
      rw [Lib.PMap.set_apply] at hk
      split at hk
      · cases hk
        exact hsigned
      · exact h.inv k sh hk

theorem Sound.sendSignedHash (h : s.Sound henv) (idHash : Uint256) (header : Option CBlockHeader)
    (fPool : Bool) (vchSig : Option Bytes) :
    (s.sendSignedHash henv idHash header fPool vchSig).Sound henv := by
  unfold HashCaches.sendSignedHash
  cases header with
  | none => exact h
  | some header =>
      have hget := h.blockGetPoWHash header fPool
      dsimp only
      generalize s.blockGetPoWHash henv header fPool = got at hget ⊢
      obtain ⟨powHash, s'⟩ := got
      cases powHash with
      | none => exact hget
      | some powHash =>
          cases vchSig with
          | none => exact hget
          | some vchSig => exact hget.processRelaySignedHash _

theorem Sound.loadBlock (h : s.Sound henv) (idHash : Uint256) :
    (s.loadBlock henv idHash).Sound henv := by
  -- the unsigned hash first
  have hpow : Sound henv (match s.db.powhash idHash with
      | some powHash => { s with mapPoWCache := s.mapPoWCache.set idHash powHash }
      | none => s) := by
    split
    · next powHash hdb =>
      refine ⟨fun id p hp => ?_, h.dbPow, h.sig, h.dbSig, h.inv⟩
      change (s.mapPoWCache.set idHash powHash) id = some p at hp
      rw [Lib.PMap.set_apply] at hp
      split at hp
      · next heq =>
        cases hp
        rw [heq]
        exact h.dbPow idHash powHash hdb
      · exact h.pow id p hp
    · exact h
  unfold HashCaches.loadBlock
  dsimp only
  generalize (match s.db.powhash idHash with
    | some powHash => { s with mapPoWCache := s.mapPoWCache.set idHash powHash }
    | none => s : HashCaches) = s₁ at hpow ⊢
  split
  · exact hpow
  · next powHash vchSig hdb =>
    split
    · next signedHash hset =>
      obtain ⟨hid, hpw⟩ := hpow.dbSig _ _ _ hdb
      obtain ⟨hsigned, -, -⟩ := CSignedHash.checkSignature_ok hset
      -- the message that was verified says what the record says
      have hverify : henv.verify s₁.strMasterPubKey (henv.hash (setHashesMsg idHash powHash)) vchSig
          = true := CSignedHash.verify_of_checkSignature hset
      have hrecord : henv.Signed s₁.strMasterPubKey idHash powHash vchSig :=
        ⟨_, _, _, hverify, CUnsignedHash.unserialize_setHashes hid hpw, rfl, rfl⟩
      refine ⟨hpow.pow, hpow.dbPow, fun id p v hp => ?_, hpow.dbSig, fun k sh hk => ?_⟩
      · change (s₁.mapSigCache.set idHash (powHash, vchSig)) id = some (p, v) at hp
        rw [Lib.PMap.set_apply] at hp
        split at hp
        · next heq =>
          cases hp
          rw [heq]
          exact ⟨hrecord, hdb⟩
        · exact hpow.sig id p v hp
      · change (s₁.mapInvSignedHash.set (signedHash.getHash henv) signedHash) k = some sh at hk
        rw [Lib.PMap.set_apply] at hk
        split at hk
        · cases hk
          exact hsigned
        · exact hpow.inv k sh hk
    · exact hpow

theorem Sound.loadHashCache (h : s.Sound henv) (bestChain : List Uint256) :
    (s.loadHashCache henv bestChain).Sound henv := by
  have hload : ∀ blocks : List Uint256, (blocks.foldl (HashCaches.loadBlock henv) s).Sound henv := by
    intro blocks
    induction blocks generalizing s with
    | nil => exact h
    | cons idHash blocks ih => exact ih (h.loadBlock idHash)
  unfold HashCaches.loadHashCache
  split
  · exact hload _
  · refine ⟨h.pow, h.dbPow, fun _ _ _ hp => (by cases hp), fun id p v hp => ?_,
      fun _ _ hk => (by cases hk)⟩
    -- what was not erased was there before
    have herased : ∀ (blocks : List Uint256) (m : Lib.PMap Uint256 (Uint256 × Bytes)),
        blocks.foldl Lib.PMap.erase m id = some (p, v) → m id = some (p, v) := by
      intro blocks
      induction blocks with
      | nil => exact fun m hm => hm
      | cons b blocks ih =>
          intro m hm
          have hm' := ih _ hm
          rw [Lib.PMap.erase_apply] at hm'
          split at hm'
          · cases hm'
          · exact hm'
    exact h.dbSig id p v (herased _ _ hp)

/-- The caches are empty when the program starts. -/
theorem Sound.start (h : s.Sound henv) (strMasterPubKey : Bytes) (fUseSignedHashes : Bool)
    (checked : List (CBlockHeader × Bool)) (bestChain : List Uint256) :
    (start henv s.db strMasterPubKey fUseSignedHashes checked bestChain).Sound henv := by
  apply Sound.loadHashCache
  have hchecked : ∀ {s : HashCaches}, s.Sound henv → (s.checkHeaders henv checked).Sound henv := by
    induction checked with
    | nil => exact fun hs => hs
    | cons c checked ih => exact fun hs => ih (hs.blockGetPoWHash c.1 c.2)
  apply hchecked
  exact ⟨fun _ _ hp => (by cases hp), h.dbPow, fun _ _ _ hp => (by cases hp), h.dbSig,
    fun _ _ hk => (by cases hk)⟩

theorem Sound.exec (h : s.Sound henv) (op : HashOp) : (s.exec henv op).Sound henv := by
  unfold HashCaches.exec
  cases op with
  | sigpowhash payload =>
      dsimp only
      split
      · exact h.processRelaySignedHash _
      · exact h
  | getPoWHash header fPool => exact h.blockGetPoWHash header fPool
  | sendSignedHash idHash header fPool vchSig => exact h.sendSignedHash idHash header fPool vchSig
  | restart strMasterPubKey fUseSignedHashes checked bestChain => exact h.start _ _ _ _

theorem sound_foldl (h : s.Sound henv) (ops : List HashOp) : (ops.foldl (exec henv) s).Sound henv := by
  induction ops generalizing s with
  | nil => exact h
  | cons op ops ih => exact ih (h.exec op)

theorem sound_run (henv : HashEnv) (strMasterPubKey : Bytes) (ops : List HashOp) :
    (run henv strMasterPubKey ops).Sound henv := by
  apply sound_foldl
  have hempty : Sound henv { strMasterPubKey := strMasterPubKey } :=
    ⟨fun _ _ hp => (by cases hp), fun _ _ hp => (by cases hp), fun _ _ _ hp => (by cases hp),
      fun _ _ _ hp => (by cases hp), fun _ _ hk => (by cases hk)⟩
  exact hempty.start _ _ _ _

/-! ## What is loaded again -/

/-- Two states with the same master key, in memory and in the database -/
structure SameKeys (s s' : HashCaches) : Prop where
  key : s'.strMasterPubKey = s.strMasterPubKey
  dbKey : s'.db.strSignedHashPubKey = s.db.strSignedHashPubKey

theorem SameKeys.trans {s₁ s₂ s₃ : HashCaches} (h : SameKeys s₁ s₂) (h' : SameKeys s₂ s₃) :
    SameKeys s₁ s₃ := ⟨h'.key.trans h.key, h'.dbKey.trans h.dbKey⟩

/-- `GetPoWHash` changes no signed hash. -/
theorem blockGetPoWHash_same (henv : HashEnv) (s : HashCaches) (header : CBlockHeader) (fPool : Bool) :
    SameKeys s (s.blockGetPoWHash henv header fPool).2 ∧
      (s.blockGetPoWHash henv header fPool).2.db.signedhash = s.db.signedhash := by
  unfold blockGetPoWHash
  split
  · exact ⟨⟨rfl, rfl⟩, rfl⟩
  · split <;> exact ⟨⟨rfl, rfl⟩, rfl⟩

/-- `ProcessRelaySignedHash` records what it accepts. -/
theorem processRelaySignedHash_same (henv : HashEnv) (s : HashCaches) (signedHash : CSignedHash) :
    SameKeys s (s.processRelaySignedHash henv signedHash) ∧
      ((s.processRelaySignedHash henv signedHash).db.signedhash = s.db.signedhash ∨
        ∃ signedHash', signedHash.checkSignature henv s.strMasterPubKey = .ok signedHash' ∧
          (s.processRelaySignedHash henv signedHash).db.signedhash
            = s.db.signedhash.set signedHash'.idHash (signedHash'.powHash, signedHash'.vchSig)) := by
  unfold processRelaySignedHash
  split
  · exact ⟨⟨rfl, rfl⟩, .inl rfl⟩
  · next signedHash' hcheck => exact ⟨⟨rfl, rfl⟩, .inr ⟨signedHash', hcheck, rfl⟩⟩

theorem sigpowhash_same (henv : HashEnv) (s : HashCaches) (payload : Bytes) :
    SameKeys s (s.exec henv (.sigpowhash payload)) := by
  unfold exec
  dsimp only
  split
  · exact (processRelaySignedHash_same henv s _).1
  · exact ⟨rfl, rfl⟩

theorem loadBlock_same (henv : HashEnv) (s : HashCaches) (idHash : Uint256) :
    SameKeys s (s.loadBlock henv idHash) ∧ (s.loadBlock henv idHash).db = s.db := by
  unfold loadBlock
  cases s.db.powhash idHash <;> dsimp only <;> split
  · exact ⟨⟨rfl, rfl⟩, rfl⟩
  · split <;> exact ⟨⟨rfl, rfl⟩, rfl⟩
  · exact ⟨⟨rfl, rfl⟩, rfl⟩
  · split <;> exact ⟨⟨rfl, rfl⟩, rfl⟩

/-- Loading another block changes nothing. -/
theorem mapSigCache_loadBlock_of_ne {other : Uint256} (hne : idHash ≠ other) :
    (s.loadBlock henv other).mapSigCache idHash = s.mapSigCache idHash := by
  unfold loadBlock
  cases s.db.powhash other <;> dsimp only <;> split
  · rfl
  · split
    · exact Lib.PMap.set_of_ne hne
    · rfl
  · rfl
  · split
    · exact Lib.PMap.set_of_ne hne
    · rfl

/-- The program was started with the key that is in the database. -/
def Started (s : HashCaches) : Prop := s.db.strSignedHashPubKey = some s.strMasterPubKey

theorem Started.same {s s' : HashCaches} (h : s.Started) (hsame : SameKeys s s') : s'.Started := by
  unfold Started
  rw [hsame.key, hsame.dbKey]
  exact h

/-- With the key that is in the database, `LoadHashCache` loads block by block. -/
theorem Started.loadHashCache (henv : HashEnv) (h : s.Started) (bestChain : List Uint256) :
    s.loadHashCache henv bestChain = bestChain.dropLast.foldl (loadBlock henv) s := if_pos h

theorem loadBlocks_same (henv : HashEnv) (s : HashCaches) (blocks : List Uint256) :
    SameKeys s (blocks.foldl (loadBlock henv) s) ∧ (blocks.foldl (loadBlock henv) s).db = s.db := by
  induction blocks generalizing s with
  | nil => exact ⟨⟨rfl, rfl⟩, rfl⟩
  | cons idHash blocks ih =>
      obtain ⟨hkeys, hdb⟩ := loadBlock_same henv s idHash
      obtain ⟨hkeys', hdb'⟩ := ih (s.loadBlock henv idHash)
      exact ⟨hkeys.trans hkeys', hdb'.trans hdb⟩

theorem started_start (henv : HashEnv) (db : HashDb) (strMasterPubKey : Bytes)
    (fUseSignedHashes : Bool) (checked : List (CBlockHeader × Bool)) (bestChain : List Uint256) :
    (start henv db strMasterPubKey fUseSignedHashes checked bestChain).Started := by
  unfold start loadHashCache
  split
  · next hkey => exact Started.same hkey (loadBlocks_same henv _ _).1
  · rfl

theorem Started.sendSignedHash (h : s.Started) (idHash : Uint256) (header : Option CBlockHeader)
    (fPool : Bool) (vchSig : Option Bytes) :
    (s.sendSignedHash henv idHash header fPool vchSig).Started := by
  unfold HashCaches.sendSignedHash
  cases header with
  | none => exact h
  | some header =>
      have hget := h.same (blockGetPoWHash_same henv s header fPool).1
      dsimp only
      generalize s.blockGetPoWHash henv header fPool = got at hget ⊢
      obtain ⟨powHash, s'⟩ := got
      cases powHash with
      | none => exact hget
      | some powHash =>
          cases vchSig with
          | none => exact hget
          | some vchSig =>
              exact hget.same (processRelaySignedHash_same henv s' _).1

theorem Started.exec (h : s.Started) (op : HashOp) : (s.exec henv op).Started := by
  cases op with
  | sigpowhash payload => exact h.same (sigpowhash_same henv s payload)
  | getPoWHash header fPool => exact h.same (blockGetPoWHash_same henv s header fPool).1
  | sendSignedHash idHash header fPool vchSig => exact h.sendSignedHash idHash header fPool vchSig
  | restart strMasterPubKey fUseSignedHashes checked bestChain => exact started_start _ _ _ _ _ _

theorem started_run (henv : HashEnv) (strMasterPubKey : Bytes) (ops : List HashOp) :
    (run henv strMasterPubKey ops).Started := by
  have hfold : ∀ {s : HashCaches}, s.Started → (ops.foldl (HashCaches.exec henv) s).Started := by
    induction ops with
    | nil => exact fun hs => hs
    | cons op ops ih => exact fun hs => ih (hs.exec op)
  exact hfold (started_start _ _ _ _ _ _)

/-- The database has the entry, and the master key is the one it was accepted with. -/
structure Recorded (strMasterPubKey : Bytes) (idHash powHash : Uint256) (vchSig : Bytes)
    (s : HashCaches) : Prop where
  record : s.db.signedhash idHash = some (powHash, vchSig)
  key : s.strMasterPubKey = strMasterPubKey
  started : s.Started

/-- The signed hash that a call accepts: the master key's signature was found to be right. -/
def accepted (henv : HashEnv) (s : HashCaches) : HashOp → Option CSignedHash
  | .sigpowhash payload =>
      match CSignedHash.unserialize.run payload with
      | .ok (signedHash, _) => (signedHash.checkSignature henv s.strMasterPubKey).toOption
      | .error _ => none
  | .sendSignedHash idHash (some header) fPool (some vchSig) =>
      (s.blockGetPoWHash henv header fPool).1.bind fun powHash =>
        (CSignedHash.checkSignature henv s.strMasterPubKey
          { CSignedHash.setHashes {} idHash powHash with vchSig := vchSig }).toOption
  | _ => none

/-- The master key stays, and no other signed hash is accepted for the block. -/
structure Keeps (henv : HashEnv) (strMasterPubKey : Bytes) (idHash powHash : Uint256) (vchSig : Bytes)
    (s : HashCaches) (op : HashOp) : Prop where
  key : ∀ strMasterPubKey' fUseSignedHashes checked bestChain,
    op = .restart strMasterPubKey' fUseSignedHashes checked bestChain →
      strMasterPubKey' = strMasterPubKey
  entry : ∀ signedHash, s.accepted henv op = some signedHash → signedHash.idHash = idHash →
    signedHash.powHash = powHash ∧ signedHash.vchSig = vchSig

variable {strMasterPubKey : Bytes}

/-- A record whose signature is over the message of `SetHashes` is loaded. -/
theorem mapSigCache_loadBlock (hrecord : s.db.signedhash idHash = some (powHash, vchSig))
    (hid : idHash < 2 ^ 256) (hpow : powHash < 2 ^ 256)
    (hverify : henv.verify s.strMasterPubKey (henv.hash (setHashesMsg idHash powHash)) vchSig
      = true) :
    (s.loadBlock henv idHash).mapSigCache idHash = some (powHash, vchSig) := by
  have hcheck := CSignedHash.checkSignature_setHashes hid hpow hverify
  have hset : (CSignedHash.setHashes {} idHash powHash).setSignature henv s.strMasterPubKey vchSig
      = _ := hcheck
  unfold loadBlock
  cases s.db.powhash idHash <;> dsimp only <;> rw [hrecord] <;> dsimp only <;> rw [hset] <;>
    exact Lib.PMap.set_self _ _ _

theorem mapSigCache_loadBlocks (hid : idHash < 2 ^ 256) (hpow : powHash < 2 ^ 256)
    {blocks : List Uint256} (hrecord : s.db.signedhash idHash = some (powHash, vchSig))
    (hverify : henv.verify s.strMasterPubKey (henv.hash (setHashesMsg idHash powHash)) vchSig
      = true)
    (hmem : idHash ∈ blocks ∨ s.mapSigCache idHash = some (powHash, vchSig)) :
    (blocks.foldl (loadBlock henv) s).mapSigCache idHash = some (powHash, vchSig) := by
  induction blocks generalizing s with
  | nil =>
      rcases hmem with hmem | hmem
      · cases hmem
      · exact hmem
  | cons other blocks ih =>
      obtain ⟨hkeys, hdb⟩ := loadBlock_same henv s other
      apply ih
      · rw [hdb]
        exact hrecord
      · rw [hkeys.key]
        exact hverify
      · by_cases heq : idHash = other
        · subst heq
          exact .inr (mapSigCache_loadBlock hrecord hid hpow hverify)
        · rw [mapSigCache_loadBlock_of_ne heq]
          exact hmem.imp_left fun h => (List.mem_cons.mp h).resolve_left heq

/-- The state before `LoadHashCache` -/
theorem Recorded.checked (henv : HashEnv) (h : s.Recorded strMasterPubKey idHash powHash vchSig)
    (fUseSignedHashes : Bool) (checked : List (CBlockHeader × Bool)) :
    (checkHeaders henv (new s.db strMasterPubKey fUseSignedHashes) checked).Recorded strMasterPubKey
      idHash powHash vchSig := by
  have hfold : ∀ {s' : HashCaches}, s'.Recorded strMasterPubKey idHash powHash vchSig →
      (s'.checkHeaders henv checked).Recorded strMasterPubKey idHash powHash vchSig := by
    induction checked with
    | nil => exact fun hs' => hs'
    | cons c checked ih =>
        intro s' hs'
        obtain ⟨hkeys, hrecord⟩ := blockGetPoWHash_same henv s' c.1 c.2
        exact ih ⟨(congrFun hrecord idHash).trans hs'.record, hkeys.key.trans hs'.key,
          hs'.started.same hkeys⟩
  apply hfold
  exact ⟨h.record, rfl, h.started.trans (congrArg some h.key)⟩

theorem Recorded.start (h : s.Recorded strMasterPubKey idHash powHash vchSig)
    (fUseSignedHashes : Bool) (checked : List (CBlockHeader × Bool)) (bestChain : List Uint256) :
    (start henv s.db strMasterPubKey fUseSignedHashes checked bestChain).Recorded strMasterPubKey
      idHash powHash vchSig := by
  have hchecked := h.checked henv fUseSignedHashes checked
  obtain ⟨hkeys, hdb⟩ := loadBlocks_same henv
    (checkHeaders henv (new s.db strMasterPubKey fUseSignedHashes) checked) bestChain.dropLast
  unfold HashCaches.start
  rw [hchecked.started.loadHashCache]
  exact ⟨by rw [hdb]; exact hchecked.record, hkeys.key.trans hchecked.key,
    hchecked.started.same hkeys⟩

/-- What is accepted for the block, if anything, is the entry that is there. -/
theorem Recorded.processRelaySignedHash (h : s.Recorded strMasterPubKey idHash powHash vchSig)
    {signedHash : CSignedHash}
    (hsame : ∀ signedHash', signedHash.checkSignature henv s.strMasterPubKey = .ok signedHash' →
      signedHash'.idHash = idHash → signedHash'.powHash = powHash ∧ signedHash'.vchSig = vchSig) :
    (s.processRelaySignedHash henv signedHash).Recorded strMasterPubKey idHash powHash vchSig := by
  obtain ⟨hkeys, hrecord⟩ := processRelaySignedHash_same henv s signedHash
  refine ⟨?_, hkeys.key.trans h.key, h.started.same hkeys⟩
  rcases hrecord with hrecord | ⟨signedHash', hcheck, hrecord⟩
  · rw [hrecord]
    exact h.record
  · rw [hrecord, Lib.PMap.set_apply]
    split
    · next heq =>
      obtain ⟨hpow, hsig⟩ := hsame signedHash' hcheck heq.symm
      rw [hpow, hsig]
    · exact h.record

theorem Recorded.blockGetPoWHash (henv : HashEnv) (h : s.Recorded strMasterPubKey idHash powHash vchSig)
    (header : CBlockHeader) (fPool : Bool) :
    (s.blockGetPoWHash henv header fPool).2.Recorded strMasterPubKey idHash powHash vchSig := by
  obtain ⟨hkeys, hrecord⟩ := blockGetPoWHash_same henv s header fPool
  exact ⟨(congrFun hrecord idHash).trans h.record, hkeys.key.trans h.key, h.started.same hkeys⟩

theorem Recorded.sendSignedHash (h : s.Recorded strMasterPubKey idHash powHash vchSig)
    {idHash' : Uint256} {header : Option CBlockHeader} {fPool : Bool} {vchSig' : Option Bytes}
    (hentry : ∀ signedHash, s.accepted henv (.sendSignedHash idHash' header fPool vchSig')
      = some signedHash → signedHash.idHash = idHash →
        signedHash.powHash = powHash ∧ signedHash.vchSig = vchSig) :
    (s.sendSignedHash henv idHash' header fPool vchSig').Recorded strMasterPubKey idHash powHash
      vchSig := by
  unfold accepted at hentry
  unfold HashCaches.sendSignedHash
  cases header with
  | none => exact h
  | some header =>
      have hgot := h.blockGetPoWHash henv header fPool
      have hkey := (blockGetPoWHash_same henv s header fPool).1.key
      cases vchSig' with
      | none =>
          dsimp only
          generalize s.blockGetPoWHash henv header fPool = got at hgot ⊢
          obtain ⟨powHash', s'⟩ := got
          cases powHash' <;> exact hgot
      | some vchSig' =>
          dsimp only at hentry ⊢
          generalize s.blockGetPoWHash henv header fPool = got at hgot hkey hentry ⊢
          obtain ⟨powHash', s'⟩ := got
          cases powHash' with
          | none => exact hgot
          | some powHash' =>
              apply hgot.processRelaySignedHash
              intro signedHash' hcheck
              apply hentry
              rw [hkey] at hcheck
              rw [Option.bind_some, hcheck]
              rfl

/-- An entry outlives what accepts no other one for its block. -/
theorem Recorded.exec (h : s.Recorded strMasterPubKey idHash powHash vchSig) {op : HashOp}
    (hkeeps : Keeps henv strMasterPubKey idHash powHash vchSig s op) :
    (s.exec henv op).Recorded strMasterPubKey idHash powHash vchSig := by
  cases op with
  | sigpowhash payload =>
      have haccepted := hkeeps.entry
      unfold accepted at haccepted
      unfold HashCaches.exec
      dsimp only at haccepted ⊢
      split
      · next signedHash rest hread =>
        rw [hread] at haccepted
        dsimp only at haccepted
        apply h.processRelaySignedHash
        intro signedHash' hcheck
        apply haccepted
        rw [hcheck]
        rfl
      · exact h
  | getPoWHash header fPool => exact h.blockGetPoWHash henv header fPool
  | sendSignedHash idHash' header fPool vchSig' => exact h.sendSignedHash hkeeps.entry
  | restart strMasterPubKey' fUseSignedHashes checked bestChain =>
      cases hkeeps.key _ _ _ _ rfl
      exact h.start fUseSignedHashes checked bestChain

theorem Recorded.foldl (h : s.Recorded strMasterPubKey idHash powHash vchSig) {ops : List HashOp}
    (hkeeps : ∀ pre op, pre ++ [op] <+: ops →
      Keeps henv strMasterPubKey idHash powHash vchSig (pre.foldl (HashCaches.exec henv) s) op) :
    (ops.foldl (HashCaches.exec henv) s).Recorded strMasterPubKey idHash powHash vchSig := by
  induction ops generalizing s with
  | nil => exact h
  | cons op ops ih =>
      apply ih (h.exec (hkeeps [] op ⟨ops, rfl⟩))
      rintro pre op' ⟨rest, rfl⟩
      exact hkeeps (op :: pre) op' ⟨rest, rfl⟩

/-- A recorded entry is loaded when the program starts, above the genesis block. -/
theorem Recorded.loaded (h : s.Recorded strMasterPubKey idHash powHash vchSig)
    (hid : idHash < 2 ^ 256) (hpow : powHash < 2 ^ 256)
    (hverify : henv.verify strMasterPubKey (henv.hash (setHashesMsg idHash powHash)) vchSig = true)
    (fUseSignedHashes : Bool) (checked : List (CBlockHeader × Bool)) {bestChain : List Uint256}
    (hchain : idHash ∈ bestChain.dropLast) :
    (s.exec henv (.restart strMasterPubKey fUseSignedHashes checked bestChain)).mapSigCache idHash
      = some (powHash, vchSig) := by
  have hchecked := h.checked henv fUseSignedHashes checked
  show (HashCaches.start henv _ _ _ _ _).mapSigCache idHash = _
  unfold HashCaches.start
  rw [hchecked.started.loadHashCache]
  apply mapSigCache_loadBlocks hid hpow hchecked.record _ (.inl hchain)
  rw [hchecked.key]
  exact hverify

/-- A message as `SetHashes` makes it, with a signature that is right, is accepted. -/
theorem sigpowhash_accepted (hid : idHash < 2 ^ 256) (hpow : powHash < 2 ^ 256)
    (hsig : vchSig.length ≤ MAX_SIZE)
    (hverify : henv.verify s.strMasterPubKey (henv.hash (setHashesMsg idHash powHash)) vchSig
      = true) :
    (s.exec henv (.sigpowhash (writeBytes (setHashesMsg idHash powHash)
      ++ writeBytes vchSig))).mapSigCache idHash = some (powHash, vchSig) := by
  have hrun := CSignedHash.unserialize_message hid hpow hsig
  unfold HashCaches.exec
  dsimp only
  rw [hrun]
  show (s.processRelaySignedHash henv _).mapSigCache idHash = _
  have hcheck : CSignedHash.checkSignature henv s.strMasterPubKey
      ⟨⟨1, idHash, powHash⟩, setHashesMsg idHash powHash, vchSig⟩ = .ok _ :=
    CSignedHash.checkSignature_setHashes hid hpow hverify
  unfold processRelaySignedHash
  rw [hcheck]
  exact Lib.PMap.set_self _ _ _

end HashCaches

end

/-- Whatever is received, computed, signed and loaded, a hash that `GetPoWHash` returns is the ramhog
hash of the header with this id hash, or the master key's signature is over a message that says it;
and a signed hash whose message `SetHashes` made is loaded again as long as the master key stays and
no other signed hash is accepted for its block, if the block is on the best chain above the genesis
block. -/
theorem signed_hashes_sound (henv : HashEnv) (strMasterPubKey : Bytes) (ops : List HashOp)
    (idHash powHash : Uint256) :
    ((HashCaches.run henv strMasterPubKey ops).getPoWHash idHash = some powHash →
      henv.Computed idHash powHash ∨
        ∃ vchSig, henv.Signed (HashCaches.run henv strMasterPubKey ops).strMasterPubKey idHash
          powHash vchSig) ∧
    ∀ (vchSig : Bytes) (later : List HashOp) (fUseSignedHashes : Bool)
      (checked : List (CBlockHeader × Bool)) (bestChain : List Uint256),
      let s := HashCaches.run henv strMasterPubKey ops
      s.mapSigCache idHash = some (powHash, vchSig) →
      henv.verify s.strMasterPubKey (henv.hash (setHashesMsg idHash powHash)) vchSig = true →
      (∀ pre op, pre ++ [op] <+: later → HashCaches.Keeps henv s.strMasterPubKey idHash powHash vchSig
        (pre.foldl (HashCaches.exec henv) s) op) →
      idHash ∈ bestChain.dropLast →
      ((later.foldl (HashCaches.exec henv) s).exec henv
        (.restart s.strMasterPubKey fUseSignedHashes checked bestChain)).mapSigCache idHash
          = some (powHash, vchSig) := by
  have hsound := HashCaches.sound_run henv strMasterPubKey ops
  refine ⟨hsound.getPoWHash, ?_⟩
  intro vchSig later fUseSignedHashes checked bestChain s hentry hverify hkeeps hchain
  have hrecorded : s.Recorded s.strMasterPubKey idHash powHash vchSig :=
    ⟨(hsound.sig _ _ _ hentry).2, rfl, HashCaches.started_run henv strMasterPubKey ops⟩
  obtain ⟨hid, hpow⟩ := hsound.dbSig _ _ _ hrecorded.record
  exact (hrecorded.foldl hkeeps).loaded hid hpow hverify fUseSignedHashes checked hchain

/-! ### The genesis block, and a block that is signed again -/

/-- Every signature is right. -/
def HashEnv.plain : HashEnv where
  toEnv := .plain
  pbkdf2 _ _ _ _ := []
  nShinyScratchpads := 0
  nShinyHashChunks := 0
  nShinyHashIterations := 0
  verify _ _ _ := true

/-- A "sigpowhash" message for the block with the id hash 1 -/
def signedOne (powHash : Uint256) : HashOp :=
  .sigpowhash (writeBytes (setHashesMsg 1 powHash) ++ writeBytes [])

theorem signedOne_accepted (powHash : Uint256) (hpow : powHash < 2 ^ 256) (s : HashCaches) :
    (s.exec .plain (signedOne powHash)).mapSigCache 1 = some (powHash, []) := by
  rw [signedOne]
  exact HashCaches.sigpowhash_accepted (by decide) hpow (by decide) rfl

theorem key_signedOne : (HashCaches.run .plain [] [signedOne 5]).strMasterPubKey = [] :=
  (HashCaches.sigpowhash_same _ _ _).key

/-- Only the empty signature is right. -/
def HashEnv.unsigned : HashEnv := { HashEnv.plain with verify := fun _ _ vchSig => vchSig.isEmpty }

/-- A message for the same block with another hash, and a signature that is wrong -/
def forgedOne : HashOp := .sigpowhash (writeBytes (setHashesMsg 1 6) ++ writeBytes [7])

/-- The forged message is not accepted, and the same one again changes nothing. -/
theorem keeps_signedOne (s : HashCaches) {op : HashOp} (hop : op = forgedOne ∨ op = signedOne 5) :
    HashCaches.Keeps .unsigned [] 1 5 [] s op := by
  have hread : ∀ {powHash : Uint256} {vchSig : Bytes}, powHash < 2 ^ 256 → vchSig.length ≤ MAX_SIZE →
      CSignedHash.unserialize.run (writeBytes (setHashesMsg 1 powHash) ++ writeBytes vchSig)
        = .ok (⟨⟨1, 1, powHash⟩, setHashesMsg 1 powHash, vchSig⟩, []) :=
    fun hpow hsig => CSignedHash.unserialize_message (by decide) hpow hsig
  rcases hop with rfl | rfl
  · refine ⟨fun _ _ _ _ h => (by cases h), fun signedHash h => ?_⟩
    unfold forgedOne HashCaches.accepted at h
    dsimp only at h
    rw [hread (by decide) (by decide)] at h
    cases h
  · refine ⟨fun _ _ _ _ h => (by cases h), fun signedHash h _ => ?_⟩
    unfold signedOne HashCaches.accepted at h
    dsimp only at h
    rw [hread (by decide) (by decide)] at h
    dsimp only at h
    rw [show CSignedHash.checkSignature .unsigned s.strMasterPubKey
        ⟨⟨1, 1, 5⟩, setHashesMsg 1 5, []⟩ = .ok _ from
      CSignedHash.checkSignature_setHashes (by decide) (by decide) rfl] at h
    cases h
    exact ⟨rfl, rfl⟩

theorem signed_hashes_sound_signedOne :
    (([forgedOne, signedOne 5].foldl (HashCaches.exec .unsigned)
      (HashCaches.run .unsigned [] [signedOne 5])).exec .unsigned
        (.restart [] true [] [1, 0])).mapSigCache 1 = some (5, []) := by
  have hkey : (HashCaches.run .unsigned [] [signedOne 5]).strMasterPubKey = [] :=
    (HashCaches.sigpowhash_same _ _ _).key
  have hentry : (HashCaches.run .unsigned [] [signedOne 5]).mapSigCache 1 = some (5, []) :=
    HashCaches.sigpowhash_accepted (by decide) (by decide) (by decide) rfl
  have hkeeps : ∀ pre op, pre ++ [op] <+: [forgedOne, signedOne 5] →
      HashCaches.Keeps .unsigned (HashCaches.run .unsigned [] [signedOne 5]).strMasterPubKey 1 5 []
        (pre.foldl (HashCaches.exec .unsigned) (HashCaches.run .unsigned [] [signedOne 5])) op := by
    intro pre op hpre
    rw [hkey]
    apply keeps_signedOne
    simpa using hpre.subset (List.mem_append_right pre (List.mem_singleton_self op))
  have hagain := (signed_hashes_sound .unsigned [] [signedOne 5] 1 5).2 [] _ true [] [1, 0]
    hentry rfl hkeeps (by decide)
  rw [hkey] at hagain
  exact hagain

/-- The entry of the genesis block is not loaded, and neither is one that another entry for its
block has replaced. -/
theorem not_loaded_signedOne :
    (HashCaches.run .plain [] [signedOne 5]).mapSigCache 1 = some (5, []) ∧
      ((HashCaches.run .plain [] [signedOne 5]).exec .plain
        (.restart [] true [] [1])).mapSigCache 1 = none ∧
      ((HashCaches.run .plain [] [signedOne 5, signedOne 6]).exec .plain
        (.restart [] true [] [1, 0])).mapSigCache 1 ≠ some (5, []) := by
  refine ⟨signedOne_accepted 5 (by decide) _, ?_, ?_⟩
  · show (HashCaches.start _ _ _ _ [] [1]).mapSigCache 1 = none
    unfold HashCaches.start HashCaches.loadHashCache
    split <;> rfl
  · have hentry := signedOne_accepted 6 (by decide) (HashCaches.run .plain [] [signedOne 5])
    have hrecorded : (HashCaches.run .plain [] [signedOne 5, signedOne 6]).Recorded [] 1 6 [] :=
      ⟨((HashCaches.sound_run .plain [] [signedOne 5, signedOne 6]).sig 1 6 [] hentry).2,
        (HashCaches.sigpowhash_same _ _ _).key.trans key_signedOne,
        HashCaches.started_run .plain [] [signedOne 5, signedOne 6]⟩
    rw [hrecorded.loaded (by decide) (by decide) rfl true [] (by decide)]
    decide

end ShinyCoin

import ShinyCoin.Core.Types
import Std.Data.ExtTreeSet.Lemmas
import Mathlib.Data.List.Basic

/-!
# The cache of valid signatures

`CheckSig` asks `CSignatureCache` before it verifies a signature, and tells it when one was valid.
The cache evicts at random places when it is over the limit of `-maxsigcachesize`. Whatever is
evicted, every entry is one that verifies, so no verdict depends on the cache.
-/

namespace ShinyCoin

/-- `sigdata_type`: the signature hash, the signature and the public key. -/
structure SigData where
  hash : Uint256
  vchSig : Bytes
  pubKey : Bytes
  deriving DecidableEq, Repr

/-- The order of the tuples -/
def SigData.cmp (a b : SigData) : Ordering :=
  compareLex (compareOn SigData.hash)
    (compareLex (compareOn SigData.vchSig) (compareOn SigData.pubKey)) a b

instance : Std.TransCmp SigData.cmp :=
  inferInstanceAs (Std.TransCmp (compareLex (compareOn SigData.hash)
    (compareLex (compareOn SigData.vchSig) (compareOn SigData.pubKey))))

instance : Std.LawfulEqCmp SigData.cmp where
  compare_self := Std.ReflCmp.compare_self
  eq_of_compare := by
    intro a b h
    simp only [SigData.cmp, compareLex_eq_eq, compareOn, Std.LawfulEqCmp.compare_eq_iff_eq] at h
    obtain ⟨hhash, hsig, hkey⟩ := h
    cases a
    cases b
    simp_all

/-- `setValid` -/
abbrev CSignatureCache := Std.ExtTreeSet SigData SigData.cmp

namespace CSignatureCache

variable {cache : CSignatureCache} {k x : SigData}

def get (cache : CSignatureCache) (k : SigData) : Bool := cache.contains k

/-- `setValid.lower_bound(k)`, `none` for `setValid.end()` -/
def lowerBound (cache : CSignatureCache) (k : SigData) : Option SigData :=
  cache.toList.find? fun x => SigData.cmp x k != .lt

/-- The entry that a random hash hits: the next one from there, or the first one. -/
def evicted (cache : CSignatureCache) (randomHash : Uint256) : Option SigData :=
  (cache.lowerBound ⟨randomHash, [], []⟩).or cache.toList.head?

theorem evicted_mem {randomHash : Uint256} (h : cache.evicted randomHash = some x) : x ∈ cache := by
  unfold evicted at h
  rcases Option.or_eq_some_iff.mp h with h | ⟨-, h⟩
  · exact Std.ExtTreeSet.mem_toList.mp (List.mem_of_find?_eq_some h)
  · exact Std.ExtTreeSet.mem_toList.mp (List.mem_of_head? h)

theorem exists_evicted (randomHash : Uint256) (h : cache.size ≠ 0) :
    ∃ x, cache.evicted randomHash = some x := by
  rw [← Option.isSome_iff_exists]
  unfold evicted
  rw [Option.isSome_or, Bool.or_eq_true]
  right
  rw [List.isSome_head?]
  intro hnil
  rw [← Std.ExtTreeSet.length_toList, hnil] at h
  exact h rfl

/-- `setValid.erase(*it)` -/
def evictOne (cache : CSignatureCache) (randomHash : Uint256) : CSignatureCache :=
  match cache.evicted randomHash with
  | some x => cache.erase x
  | none => cache

theorem mem_of_mem_evictOne {randomHash : Uint256} (h : x ∈ cache.evictOne randomHash) :
    x ∈ cache := by
  unfold evictOne at h
  split at h
  · exact (Std.ExtTreeSet.mem_erase.mp h).2
  · exact h

theorem size_evictOne (randomHash : Uint256) (h : cache.size ≠ 0) :
    (cache.evictOne randomHash).size = cache.size - 1 := by
  obtain ⟨x, hx⟩ := exists_evicted randomHash h
  unfold evictOne
  rw [hx]
  dsimp only
  rw [Std.ExtTreeSet.size_erase, if_pos (Std.ExtTreeSet.contains_iff_mem.mpr (evicted_mem hx))]

/-- The loop of `Set`; `randomHash i` is what `GetRandHash` gives in round `i`. -/
def evict (nMaxCacheSize : ℤ) (hpos : 0 < nMaxCacheSize) (randomHash : Nat → Uint256) (i : Nat)
    (cache : CSignatureCache) : CSignatureCache :=
  if nMaxCacheSize < cache.size then
    evict nMaxCacheSize hpos randomHash (i + 1) (cache.evictOne (randomHash i))
  else cache
termination_by cache.size
decreasing_by
  rw [size_evictOne _ (by omega)]
  omega

/-- `Set`, with the value of `-maxsigcachesize` -/
def set (cache : CSignatureCache) (nMaxCacheSize : ℤ) (randomHash : Nat → Uint256) (k : SigData) :
    CSignatureCache :=
  if hpos : 0 < nMaxCacheSize then (evict nMaxCacheSize hpos randomHash 0 cache).insert k
  else cache

theorem evict_spec {nMaxCacheSize : ℤ} (hpos : 0 < nMaxCacheSize) (randomHash : Nat → Uint256)
    (i : Nat) (cache : CSignatureCache) :
    (∀ x ∈ evict nMaxCacheSize hpos randomHash i cache, x ∈ cache) ∧
      ((evict nMaxCacheSize hpos randomHash i cache).size : ℤ) ≤ nMaxCacheSize := by
  fun_induction evict nMaxCacheSize hpos randomHash i cache with
  | case1 i cache hover ih =>
      obtain ⟨hmem, hsize⟩ := ih
      exact ⟨fun x hx => mem_of_mem_evictOne (hmem x hx), hsize⟩
  | case2 i cache hwithin => exact ⟨fun x hx => hx, not_lt.mp hwithin⟩

/-- Nothing but the new entry comes in. -/
theorem mem_set {nMaxCacheSize : ℤ} {randomHash : Nat → Uint256}
    (h : x ∈ cache.set nMaxCacheSize randomHash k) : x = k ∨ x ∈ cache := by
  unfold set at h
  split at h
  · next hpos =>
    rcases Std.ExtTreeSet.mem_insert.mp h with heq | hmem
    · exact .inl (Std.LawfulEqCmp.compare_eq_iff_eq.mp heq).symm
    · exact .inr ((evict_spec hpos randomHash 0 cache).1 x hmem)
  · exact .inr h

/-- The cache is one over the limit at most, or as large as it was. -/
theorem size_set (nMaxCacheSize : ℤ) (randomHash : Nat → Uint256) (k : SigData) :
    ((cache.set nMaxCacheSize randomHash k).size : ℤ) ≤ max (cache.size : ℤ) (nMaxCacheSize + 1) := by
  unfold set
  split
  · next hpos =>
    have hinsert := Std.ExtTreeSet.size_insert_le (t := evict nMaxCacheSize hpos randomHash 0 cache)
      (k := k)
    have := (evict_spec hpos randomHash 0 cache).2
    omega
  · exact le_max_left _ _

end CSignatureCache

/-! ## CheckSig -/

/-- What a verdict depends on: the signature hash of the arguments, which byte strings are public
keys, and ECDSA. -/
structure SigOps where
  signatureHash : CScript → CTransaction → Nat → ℤ → Uint256
  setPubKey : Bytes → Bool
  /-- `key.Verify(hash, vchSig)` for the key with a public key -/
  verify : Bytes → Uint256 → Bytes → Bool

/-- The arguments of a call, the setting it finds and what `GetRandHash` gives meanwhile. -/
structure CheckSigCall where
  vchSig : Bytes
  vchPubKey : Bytes
  scriptCode : CScript
  txTo : CTransaction
  nIn : Nat
  nHashType : ℤ
  nMaxCacheSize : ℤ
  randomHash : Nat → Uint256

namespace CheckSigCall

/-- The hash type, which is tacked on to the end of the signature; `none` where the two differ. -/
def hashType (c : CheckSigCall) : Option ℤ :=
  c.vchSig.getLast?.bind fun back =>
    if c.nHashType = 0 then some (back.toNat : ℤ)
    else if c.nHashType ≠ back.toNat then none
    else some c.nHashType

/-- The triple that is looked for. -/
def sigData (ops : SigOps) (c : CheckSigCall) (nHashType : ℤ) : SigData where
  hash := ops.signatureHash c.scriptCode c.txTo c.nIn nHashType
  vchSig := c.vchSig.dropLast
  pubKey := c.vchPubKey

end CheckSigCall

/-- The signature of the triple verifies. -/
def SigOps.Verifies (ops : SigOps) (k : SigData) : Bool :=
  ops.setPubKey k.pubKey && ops.verify k.pubKey k.hash k.vchSig

/-- `CheckSig`: the verdict, and the cache afterwards. -/
def checkSig (ops : SigOps) (c : CheckSigCall) (cache : CSignatureCache) : Bool × CSignatureCache :=
  match c.hashType with
  | none => (false, cache)
  | some nHashType =>
      let k := c.sigData ops nHashType
      if cache.get k then (true, cache)
      else if !ops.setPubKey c.vchPubKey then (false, cache)
      else if !ops.verify c.vchPubKey k.hash k.vchSig then (false, cache)
      else (true, cache.set c.nMaxCacheSize c.randomHash k)

/-- The calls one after another: their verdicts, and the cache in the end. -/
def checkSigs (ops : SigOps) : List CheckSigCall → CSignatureCache → List Bool × CSignatureCache
  | [], cache => ([], cache)
  | c :: calls, cache =>
      let done := checkSig ops c cache
      let rest := checkSigs ops calls done.2
      (done.1 :: rest.1, rest.2)

section

variable {ops : SigOps} {c : CheckSigCall} {cache : CSignatureCache}

/-- Every entry verifies. -/
def CSignatureCache.Valid (ops : SigOps) (cache : CSignatureCache) : Prop :=
  ∀ k ∈ cache, ops.Verifies k = true

theorem CSignatureCache.Valid.empty : (∅ : CSignatureCache).Valid ops := by
  intro k hk
  exact absurd hk Std.ExtTreeSet.not_mem_empty

/-- What `CheckSig` says by the cache, it says without. -/
theorem checkSig_fst (hvalid : cache.Valid ops) :
    (checkSig ops c cache).1
      = (c.hashType.any fun nHashType => ops.Verifies (c.sigData ops nHashType)) := by
  unfold checkSig
  cases htype : c.hashType with
  | none => rfl
  | some nHashType =>
      dsimp only [Option.any_some]
      split
      · next hget =>
        exact (hvalid _ (Std.ExtTreeSet.contains_iff_mem.mp hget)).symm
      · have hverifies : ops.Verifies (c.sigData ops nHashType)
            = (ops.setPubKey c.vchPubKey && ops.verify c.vchPubKey (c.sigData ops nHashType).hash
                (c.sigData ops nHashType).vchSig) := rfl
        rw [hverifies]
        split
        · next hkey => simp_all
        · split <;> simp_all

theorem checkSig_valid (hvalid : cache.Valid ops) : (checkSig ops c cache).2.Valid ops := by
  unfold checkSig
  cases c.hashType with
  | none => exact hvalid
  | some nHashType =>
      dsimp only
      split_ifs with hget hkey hverify
      · exact hvalid
      · exact hvalid
      · exact hvalid
      · intro k hk
        rcases CSignatureCache.mem_set hk with rfl | hk
        · show (ops.setPubKey c.vchPubKey && ops.verify c.vchPubKey _ _) = true
          simp_all
        · exact hvalid k hk

theorem checkSig_size (ops : SigOps) (c : CheckSigCall) (cache : CSignatureCache) :
    ((checkSig ops c cache).2.size : ℤ) ≤ max (cache.size : ℤ) (c.nMaxCacheSize + 1) := by
  unfold checkSig
  cases c.hashType with
  | none => exact le_max_left _ _
  | some nHashType =>
      dsimp only
      split_ifs
      · exact le_max_left _ _
      · exact le_max_left _ _
      · exact le_max_left _ _
      · exact CSignatureCache.size_set _ _ _

end

/-- The largest limit that any of the calls finds, 0 if there is none. -/
def maxSetting (calls : List CheckSigCall) : ℤ :=
  calls.foldr (fun c m => max c.nMaxCacheSize m) 0

theorem maxSetting_nonneg (calls : List CheckSigCall) : 0 ≤ maxSetting calls := by
  induction calls with
  | nil => exact le_rfl
  | cons c calls ih => exact le_max_of_le_right ih

theorem checkSigs_spec (ops : SigOps) (calls : List CheckSigCall) {cache : CSignatureCache}
    (hvalid : cache.Valid ops) :
    (checkSigs ops calls cache).1 = calls.map (fun c => (checkSig ops c ∅).1) ∧
      ((checkSigs ops calls cache).2.size : ℤ) ≤ max (cache.size : ℤ) (maxSetting calls + 1) := by
  induction calls generalizing cache with
  | nil => exact ⟨rfl, le_max_left _ _⟩
  | cons c calls ih =>
      obtain ⟨hverdicts, hsize⟩ := ih (checkSig_valid (c := c) hvalid)
      constructor
      · show _ :: _ = (checkSig ops c ∅).1 :: _
        rw [hverdicts, checkSig_fst hvalid, checkSig_fst CSignatureCache.Valid.empty]
      · have hstep := checkSig_size ops c cache
        have hmax : maxSetting (c :: calls) = max c.nMaxCacheSize (maxSetting calls) := rfl
        show ((checkSigs ops calls (checkSig ops c cache).2).2.size : ℤ) ≤ _
        rw [hmax]
        omega

/-- No verdict depends on the cache, whatever was asked before and evicted since, and the cache is
never more than one entry over the limit. -/
theorem signature_cache_transparent (ops : SigOps) (calls : List CheckSigCall) :
    (checkSigs ops calls ∅).1 = calls.map (fun c => (checkSig ops c ∅).1) ∧
      ((checkSigs ops calls ∅).2.size : ℤ) ≤ maxSetting calls + 1 := by
  obtain ⟨hverdicts, hsize⟩ := checkSigs_spec ops calls CSignatureCache.Valid.empty
  refine ⟨hverdicts, ?_⟩
  have := maxSetting_nonneg calls
  rw [Std.ExtTreeSet.size_empty] at hsize
  omega

end ShinyCoin

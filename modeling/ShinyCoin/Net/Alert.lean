import ShinyCoin.Lib.Maxima
import ShinyCoin.Lib.TreeMap
import ShinyCoin.Wire.Serialize
import Std.Data.ExtTreeSet.Lemmas

/-!
# Alerts

An alert is a vector of bytes with a signature; only when the signature is right are the bytes read
into the fields. `ProcessAlert` drops the alerts that the new one cancels and those that have expired,
and adds the new one unless one that is left cancels it.
-/

namespace ShinyCoin

open Std (ExtTreeMap ExtTreeSet)

/-! ## Data -/

structure CUnsignedAlert where
  nVersion : ℤ := 1
  nRelayUntil : ℤ := 0
  nExpiration : ℤ := 0
  nID : ℤ := 0
  nCancel : ℤ := 0
  setCancel : ExtTreeSet ℤ compare := ∅
  nMinVer : ℤ := 0
  nMaxVer : ℤ := 0
  setSubVer : ExtTreeSet Bytes compare := ∅
  nPriority : ℤ := 0
  strComment : Bytes := []
  strStatusBar : Bytes := []
  strReserved : Bytes := []

structure CAlert extends CUnsignedAlert where
  vchMsg : Bytes := []
  vchSig : Bytes := []

/-- What an alert is judged with: the hash, `Verify` with the alert master key, and what this node
calls itself. -/
structure AlertEnv where
  hash : Bytes → Uint256
  verify : Uint256 → Bytes → Bool
  protocolVersion : ℤ
  subVersion : Bytes

/-! ## Serialization -/

/-- `std::set`, in its order -/
def writeSet {α : Type} [Ord α] [Std.TransOrd α] (write : α → Bytes) (m : ExtTreeSet α compare) :
    Bytes :=
  writeCompactSize m.size ++ m.toList.flatMap write

def readSet {α : Type} [Ord α] [Std.TransOrd α] (item : Lib.Reader Err α) :
    Lib.Reader Err (ExtTreeSet α compare) := do
  let nSize ← readCompactSize
  let keys ← Lib.readMany item nSize
  return ExtTreeSet.ofList keys compare

theorem yields_readSet {α : Type} [Ord α] [Std.TransOrd α] [Std.LawfulEqOrd α]
    {item : Lib.Reader Err α} {write : α → Bytes} {m : ExtTreeSet α compare}
    (hsize : m.size ≤ MAX_SIZE) (h : ∀ k ∈ m, Lib.Yields item (write k) k) :
    Lib.Yields (readSet item) (writeSet write m) m := by
  classical
  have hlen : m.size = m.toList.length := ExtTreeSet.length_toList.symm
  have hkeys : Lib.Yields (Lib.readMany item m.toList.length) (m.toList.flatMap write)
      (m.toList.map id) :=
    Lib.yields_readMany fun k hk => h k (ExtTreeSet.mem_toList.mp hk)
  have hback : ExtTreeSet.ofList m.toList compare = m := by
    apply ExtTreeSet.ext_mem
    intro k
    rw [ExtTreeSet.mem_ofList, List.contains_iff_mem, ExtTreeSet.mem_toList]
  rw [List.map_id, ← hlen] at hkeys
  apply Lib.Yields.bind (yields_readCompactSize hsize)
  exact (hkeys.last fun keys => ExtTreeSet.ofList keys compare).congr rfl hback

namespace CUnsignedAlert

def serialize (alert : CUnsignedAlert) : Bytes :=
  Lib.toLEInt 4 alert.nVersion ++ Lib.toLEInt 8 alert.nRelayUntil ++ Lib.toLEInt 8 alert.nExpiration
    ++ Lib.toLEInt 4 alert.nID ++ Lib.toLEInt 4 alert.nCancel
    ++ writeSet (Lib.toLEInt 4) alert.setCancel ++ Lib.toLEInt 4 alert.nMinVer
    ++ Lib.toLEInt 4 alert.nMaxVer ++ writeSet writeBytes alert.setSubVer
    ++ Lib.toLEInt 4 alert.nPriority ++ writeBytes alert.strComment ++ writeBytes alert.strStatusBar
    ++ writeBytes alert.strReserved

def unserialize : Lib.Reader Err CUnsignedAlert := do
  let nVersion ← Lib.readLEInt endOfData 4
  let nRelayUntil ← Lib.readLEInt endOfData 8
  let nExpiration ← Lib.readLEInt endOfData 8
  let nID ← Lib.readLEInt endOfData 4
  let nCancel ← Lib.readLEInt endOfData 4
  let setCancel ← readSet (Lib.readLEInt endOfData 4)
  let nMinVer ← Lib.readLEInt endOfData 4
  let nMaxVer ← Lib.readLEInt endOfData 4
  let setSubVer ← readSet readString
  let nPriority ← Lib.readLEInt endOfData 4
  let strComment ← readString
  let strStatusBar ← readString
  let strReserved ← readString
  return { nVersion, nRelayUntil, nExpiration, nID, nCancel, setCancel, nMinVer, nMaxVer, setSubVer,
           nPriority, strComment, strStatusBar, strReserved }

/-- The values of an `int`, and of an `int64` -/
def IsInt32 (z : ℤ) : Prop := -2 ^ 31 ≤ z ∧ z < 2 ^ 31
def IsInt64 (z : ℤ) : Prop := -2 ^ 63 ≤ z ∧ z < 2 ^ 63

instance (z : ℤ) : Decidable (IsInt32 z) := inferInstanceAs (Decidable (_ ∧ _))
instance (z : ℤ) : Decidable (IsInt64 z) := inferInstanceAs (Decidable (_ ∧ _))

/-- The fields have their types, and what has a size is not too large to be read. -/
structure Fits (alert : CUnsignedAlert) : Prop where
  nVersion : IsInt32 alert.nVersion
  nRelayUntil : IsInt64 alert.nRelayUntil
  nExpiration : IsInt64 alert.nExpiration
  nID : IsInt32 alert.nID
  nCancel : IsInt32 alert.nCancel
  setCancel_size : alert.setCancel.size ≤ MAX_SIZE
  setCancel : ∀ n ∈ alert.setCancel, IsInt32 n
  nMinVer : IsInt32 alert.nMinVer
  nMaxVer : IsInt32 alert.nMaxVer
  setSubVer_size : alert.setSubVer.size ≤ MAX_SIZE
  setSubVer : ∀ str ∈ alert.setSubVer, str.length ≤ MAX_SIZE
  nPriority : IsInt32 alert.nPriority
  strComment : alert.strComment.length ≤ MAX_SIZE
  strStatusBar : alert.strStatusBar.length ≤ MAX_SIZE
  strReserved : alert.strReserved.length ≤ MAX_SIZE

theorem yields_int32 {z : ℤ} (h : IsInt32 z) :
    Lib.Yields (Lib.readLEInt endOfData 4) (Lib.toLEInt 4 z) z := by
  obtain ⟨hlo, hhi⟩ := h
  apply Lib.yields_readLEInt <;> norm_num at * <;> omega

theorem yields_int64 {z : ℤ} (h : IsInt64 z) :
    Lib.Yields (Lib.readLEInt endOfData 8) (Lib.toLEInt 8 z) z := by
  obtain ⟨hlo, hhi⟩ := h
  apply Lib.yields_readLEInt <;> norm_num at * <;> omega

/-- What was written is read back. -/
theorem yields_unserialize {alert : CUnsignedAlert} (h : alert.Fits) :
    Lib.Yields unserialize alert.serialize alert := by
  unfold unserialize serialize
  simp only [List.append_assoc]
  refine (yields_int32 h.nVersion).bind ?_
  refine (yields_int64 h.nRelayUntil).bind ?_
  refine (yields_int64 h.nExpiration).bind ?_
  refine (yields_int32 h.nID).bind ?_
  refine (yields_int32 h.nCancel).bind ?_
  refine (yields_readSet h.setCancel_size fun n hn => yields_int32 (h.setCancel n hn)).bind ?_
  refine (yields_int32 h.nMinVer).bind ?_
  refine (yields_int32 h.nMaxVer).bind ?_
  refine (yields_readSet h.setSubVer_size fun str hs => yields_readString (h.setSubVer str hs)).bind ?_
  refine (yields_int32 h.nPriority).bind ?_
  refine (yields_readString h.strComment).bind ?_
  refine (yields_readString h.strStatusBar).bind ?_
  exact (yields_readString h.strReserved).last _

end CUnsignedAlert

namespace CAlert

/-- What is sent of an alert: the bytes and the signature -/
def serialize (alert : CAlert) : Bytes := writeBytes alert.vchMsg ++ writeBytes alert.vchSig

/-- `vRecv >> alert`; the other fields are not there yet. -/
def unserialize : Lib.Reader Err CAlert := do
  let vchMsg ← readByteVector
  let vchSig ← readByteVector
  return { vchMsg, vchSig }

theorem yields_unserialize {alert : CAlert} (hmsg : alert.vchMsg.length ≤ MAX_SIZE)
    (hsig : alert.vchSig.length ≤ MAX_SIZE) :
    Lib.Yields unserialize alert.serialize { vchMsg := alert.vchMsg, vchSig := alert.vchSig } :=
  (yields_readByteVector hmsg).bind ((yields_readByteVector hsig).last _)

def getHash (ae : AlertEnv) (alert : CAlert) : Uint256 := ae.hash alert.serialize

/-! ## What an alert does -/

def isInEffect (nTime : ℤ) (alert : CAlert) : Bool := decide (nTime < alert.nExpiration)

/-- The numbers that an alert cancels -/
def cancelsID (alert : CAlert) (nID : ℤ) : Bool :=
  decide (nID ≤ alert.nCancel) || alert.setCancel.contains nID

/-- `Cancels(alert)` -/
def cancels (nTime : ℤ) (alert other : CAlert) : Bool :=
  if !alert.isInEffect nTime then false else alert.cancelsID other.nID

def appliesTo (nTime : ℤ) (alert : CAlert) (nVersion : ℤ) (strSubVerIn : Bytes) : Bool :=
  alert.isInEffect nTime && decide (alert.nMinVer ≤ nVersion) && decide (nVersion ≤ alert.nMaxVer)
    && (alert.setSubVer.isEmpty || alert.setSubVer.contains strSubVerIn)

def appliesToMe (ae : AlertEnv) (nTime : ℤ) (alert : CAlert) : Bool :=
  alert.appliesTo nTime ae.protocolVersion ae.subVersion

/-- `CheckSignature`: the alert with its fields where the signature is right, `none` where it is not;
unserializing the fields may throw. -/
def checkSignature (ae : AlertEnv) (alert : CAlert) : Except Err (Option CAlert) :=
  if !ae.verify (ae.hash alert.vchMsg) alert.vchSig then .ok none
  else
    match CUnsignedAlert.unserialize alert.vchMsg with
    | .error e => .error e
    | .ok (fields, _) => .ok (some { fields with vchMsg := alert.vchMsg, vchSig := alert.vchSig })

/-- An alert that the holder of the master key has signed: what is signed are its fields. -/
structure Issued (ae : AlertEnv) (alert : CAlert) : Prop where
  fits : alert.toCUnsignedAlert.Fits
  vchMsg : alert.vchMsg = alert.toCUnsignedAlert.serialize
  verify : ae.verify (ae.hash alert.vchMsg) alert.vchSig = true
  vchMsg_size : alert.vchMsg.length ≤ MAX_SIZE
  vchSig_size : alert.vchSig.length ≤ MAX_SIZE

/-- Whatever its fields were when it came, they are the signed ones now. -/
theorem Issued.checkSignature {ae : AlertEnv} {alert raw : CAlert} (h : alert.Issued ae)
    (hmsg : raw.vchMsg = alert.vchMsg) (hsig : raw.vchSig = alert.vchSig) :
    raw.checkSignature ae = .ok (some alert) := by
  have hread : CUnsignedAlert.unserialize alert.vchMsg = .ok (alert.toCUnsignedAlert, []) := by
    have := CUnsignedAlert.yields_unserialize h.fits []
    rwa [List.append_nil, ← h.vchMsg] at this
  unfold CAlert.checkSignature
  rw [hmsg, hsig, h.verify, Bool.not_true, if_neg Bool.false_ne_true, hread]

/-- Only signed bytes get through. -/
theorem checkSignature_some {ae : AlertEnv} {raw alert : CAlert}
    (h : raw.checkSignature ae = .ok (some alert)) :
    ae.verify (ae.hash alert.vchMsg) alert.vchSig = true ∧ alert.vchMsg = raw.vchMsg ∧
      alert.vchSig = raw.vchSig ∧
      ∃ rest, CUnsignedAlert.unserialize alert.vchMsg = .ok (alert.toCUnsignedAlert, rest) := by
  unfold checkSignature at h
  split at h
  · cases h
  · next hverify =>
      split at h
      · cases h
      · next fields rest hread =>
          cases h
          exact ⟨by simpa using hverify, rfl, rfl, rest, hread⟩

end CAlert

/-- `mapAlerts` -/
abbrev MapAlerts := ExtTreeMap Uint256 CAlert compare

/-- "Cancel previous alerts", and those that have expired -/
def MapAlerts.cancelPrevious (nTime : ℤ) (alert : CAlert) (mapAlerts : MapAlerts) : MapAlerts :=
  mapAlerts.filter fun _ other => !(alert.cancels nTime other) && other.isInEffect nTime

/-- `ProcessAlert`, for an alert whose signature was checked: whether it is accepted, and
`mapAlerts`. -/
def MapAlerts.add (ae : AlertEnv) (nTime : ℤ) (mapAlerts : MapAlerts) (alert : CAlert) :
    Bool × MapAlerts :=
  if !alert.isInEffect nTime then (false, mapAlerts)
  else
    let mapAlerts := mapAlerts.cancelPrevious nTime alert
    -- "Check if this alert has been cancelled"
    if mapAlerts.toList.any fun item => item.2.cancels nTime alert then (false, mapAlerts)
    else (true, mapAlerts.insertIfNew (alert.getHash ae) alert)

/-- `ProcessAlert`: the alert, with its fields, where it is accepted. -/
def MapAlerts.process (ae : AlertEnv) (nTime : ℤ) (mapAlerts : MapAlerts) (alert : CAlert) :
    Except Err (Option CAlert × MapAlerts) :=
  match alert.checkSignature ae with
  | .error e => .error e
  | .ok none => .ok (none, mapAlerts)
  | .ok (some alert) =>
      let (fAccepted, mapAlerts) := mapAlerts.add ae nTime alert
      .ok (if fAccepted then some alert else none, mapAlerts)

/-! ## What ProcessAlert leaves -/

namespace MapAlerts

variable {ae : AlertEnv} {nTime : ℤ} {m : MapAlerts} {alert other : CAlert} {k : Uint256}

/-- The alerts of a map -/
def alerts (m : MapAlerts) : Set CAlert := {alert | ∃ k : Uint256, m[k]? = some alert}

/-- Every alert is under its hash. -/
def Keyed (ae : AlertEnv) (m : MapAlerts) : Prop :=
  ∀ (k : Uint256) (alert : CAlert), m[k]? = some alert → k = alert.getHash ae

/-- One alert names the number of the other. -/
def Covers (alert other : CAlert) : Prop := alert.cancelsID other.nID = true

theorem alerts_empty : (∅ : MapAlerts).alerts = ∅ := by
  ext alert
  refine ⟨?_, fun h => h.elim⟩
  rintro ⟨k, hk⟩
  rw [ExtTreeMap.getElem?_empty] at hk
  cases hk

theorem keyed_empty (ae : AlertEnv) : Keyed ae ∅ := by
  intro k alert hk
  rw [ExtTreeMap.getElem?_empty] at hk
  cases hk

theorem cancels_eq (h : alert.isInEffect nTime = true) :
    alert.cancels nTime other = true ↔ Covers alert other := by
  unfold CAlert.cancels Covers
  rw [h]
  rfl

theorem getElem?_cancelPrevious (h : alert.isInEffect nTime = true) :
    (m.cancelPrevious nTime alert)[k]? = some other ↔
      m[k]? = some other ∧ ¬ Covers alert other ∧ other.isInEffect nTime = true := by
  rw [cancelPrevious, ExtTreeMap.getElem?_filter, Option.pfilter_eq_some_iff]
  have hcancels : alert.cancels nTime other = true ↔ _ := cancels_eq h
  constructor
  · rintro ⟨hget, hkeep⟩
    rw [Bool.and_eq_true, Bool.not_eq_true'] at hkeep
    refine ⟨hget, fun hcovers => ?_, hkeep.2⟩
    rw [hcancels.mpr hcovers] at hkeep
    cases hkeep.1
  · rintro ⟨hget, hnot, heffect⟩
    refine ⟨hget, ?_⟩
    rw [heffect, Bool.and_true, Bool.not_eq_true', Bool.eq_false_iff]
    exact fun h => hnot (hcancels.mp h)

theorem mem_alerts_cancelPrevious (h : alert.isInEffect nTime = true) :
    other ∈ (m.cancelPrevious nTime alert).alerts ↔
      other ∈ m.alerts ∧ ¬ Covers alert other ∧ other.isInEffect nTime = true := by
  constructor
  · rintro ⟨k, hk⟩
    obtain ⟨hget, hnot, heffect⟩ := (getElem?_cancelPrevious h).mp hk
    exact ⟨⟨k, hget⟩, hnot, heffect⟩
  · rintro ⟨⟨k, hget⟩, hnot, heffect⟩
    exact ⟨k, (getElem?_cancelPrevious h).mpr ⟨hget, hnot, heffect⟩⟩

/-- Whether one of the alerts that are left cancels the new one -/
theorem any_cancels_iff (h : alert.isInEffect nTime = true) :
    ((m.cancelPrevious nTime alert).toList.any fun item => item.2.cancels nTime alert) = true ↔
      ∃ other ∈ (m.cancelPrevious nTime alert).alerts, Covers other alert := by
  rw [List.any_eq_true]
  constructor
  · rintro ⟨⟨k, other⟩, hmem, hcancels⟩
    have hget := ExtTreeMap.mem_toList_iff_getElem?_eq_some.mp hmem
    have heffect := ((getElem?_cancelPrevious h).mp hget).2.2
    exact ⟨other, ⟨k, hget⟩, (cancels_eq heffect).mp hcancels⟩
  · rintro ⟨other, ⟨k, hget⟩, hcovers⟩
    have heffect := ((getElem?_cancelPrevious h).mp hget).2.2
    exact ⟨(k, other), ExtTreeMap.mem_toList_iff_getElem?_eq_some.mpr hget,
      (cancels_eq heffect).mpr hcovers⟩

/-- The three ways an alert with the right signature is processed -/
theorem add_cases (ae : AlertEnv) (nTime : ℤ) (m : MapAlerts) (alert : CAlert) :
    (alert.isInEffect nTime = false ∧ m.add ae nTime alert = (false, m)) ∨
    (alert.isInEffect nTime = true ∧
      (∃ other ∈ (m.cancelPrevious nTime alert).alerts, Covers other alert) ∧
      m.add ae nTime alert = (false, m.cancelPrevious nTime alert)) ∨
    (alert.isInEffect nTime = true ∧
      (∀ other ∈ (m.cancelPrevious nTime alert).alerts, ¬ Covers other alert) ∧
      m.add ae nTime alert =
        (true, (m.cancelPrevious nTime alert).insertIfNew (alert.getHash ae) alert)) := by
  unfold add
  cases heffect : alert.isInEffect nTime with
  | false => exact .inl ⟨rfl, rfl⟩
  | true =>
      have hany := any_cancels_iff (m := m) heffect
      rw [Bool.not_true, if_neg Bool.false_ne_true]
      dsimp only
      split
      · next h => exact .inr (.inl ⟨rfl, hany.mp h, rfl⟩)
      · next h =>
          exact .inr (.inr ⟨rfl, fun other hmem hcovers => h (hany.mpr ⟨other, hmem, hcovers⟩), rfl⟩)

theorem Keyed.cancelPrevious (hm : Keyed ae m) (h : alert.isInEffect nTime = true) :
    Keyed ae (m.cancelPrevious nTime alert) :=
  fun k other hk => hm k other ((getElem?_cancelPrevious h).mp hk).1

theorem Keyed.insertIfNew (hm : Keyed ae m) :
    Keyed ae (m.insertIfNew (alert.getHash ae) alert) := by
  intro k other hk
  rw [Lib.getElem?_insertIfNew] at hk
  split at hk
  · next h =>
      cases hk
      exact h.1
  · exact hm k other hk

theorem Keyed.add (hm : Keyed ae m) : Keyed ae (m.add ae nTime alert).2 := by
  rcases add_cases ae nTime m alert with ⟨-, heq⟩ | ⟨heffect, -, heq⟩ | ⟨heffect, -, heq⟩
  · rw [heq]
    exact hm
  · rw [heq]
    exact hm.cancelPrevious heffect
  · rw [heq]
    exact (hm.cancelPrevious heffect).insertIfNew

/-- The hash tells the alerts apart that are in question. -/
def Distinct (ae : AlertEnv) (s : Set CAlert) : Prop :=
  ∀ a ∈ s, ∀ b ∈ s, a.getHash ae = b.getHash ae → a = b

theorem alerts_insertIfNew (hm : Keyed ae m) (hdistinct : Distinct ae (insert alert m.alerts)) :
    alerts (m.insertIfNew (alert.getHash ae) alert) = insert alert m.alerts := by
  ext other
  constructor
  · rintro ⟨k, hk⟩
    rw [Lib.getElem?_insertIfNew] at hk
    split at hk
    · cases hk
      exact Set.mem_insert _ _
    · exact Set.mem_insert_of_mem _ ⟨k, hk⟩
  · rintro (rfl | ⟨k, hk⟩)
    · refine ⟨other.getHash ae, ?_⟩
      rw [Lib.getElem?_insertIfNew]
      cases hold : m[other.getHash ae]? with
      | none => rw [if_pos ⟨rfl, rfl⟩]
      | some old =>
          have hsame := hdistinct old (Set.mem_insert_of_mem _ ⟨_, hold⟩) other (Set.mem_insert _ _)
            (hm _ _ hold).symm
          rw [if_neg (fun h => by cases h.2), hsame]
    · refine ⟨k, ?_⟩
      rw [Lib.getElem?_insertIfNew, if_neg, hk]
      rintro ⟨-, hnone⟩
      rw [hk] at hnone
      cases hnone

/-- Without the hash telling them apart, nothing else comes in. -/
theorem alerts_insertIfNew_subset : alerts (m.insertIfNew (alert.getHash ae) alert)
    ⊆ insert alert m.alerts := by
  rintro other ⟨k, hk⟩
  rw [Lib.getElem?_insertIfNew] at hk
  split at hk
  · cases hk
    exact Set.mem_insert _ _
  · exact Set.mem_insert_of_mem _ ⟨k, hk⟩

/-- Maps with the same alerts are the same. -/
theorem ext_alerts {m' : MapAlerts} (hm : Keyed ae m) (hm' : Keyed ae m') (h : m.alerts = m'.alerts) :
    m = m' := by
  have hsub : ∀ {m m' : MapAlerts}, Keyed ae m → Keyed ae m' → m.alerts = m'.alerts →
      ∀ (k : Uint256) (alert : CAlert), m[k]? = some alert → m'[k]? = some alert := by
    intro m m' hm hm' h k alert hk
    obtain ⟨k', hk'⟩ : alert ∈ m'.alerts := h ▸ ⟨k, hk⟩
    rw [hm k alert hk, ← hm' k' alert hk']
    exact hk'
  apply ExtTreeMap.ext_getElem?
  intro k
  apply Option.ext
  intro alert
  exact ⟨hsub hm hm' h k alert, hsub hm' hm h.symm k alert⟩

/-! ## Alerts in any order -/

/-- What an alert leaves that comes at a time. One that cannot be read is left alone. -/
def next (ae : AlertEnv) (m : MapAlerts) (x : ℤ × CAlert) : MapAlerts :=
  match m.process ae x.1 x.2 with
  | .error _ => m
  | .ok r => r.2

/-- What a node has after it received these alerts, one after the other. -/
def receive (ae : AlertEnv) (messages : List (ℤ × CAlert)) : MapAlerts := messages.foldl (next ae) ∅

/-- No alert is there that another one cancels. -/
def Uncancelled (m : MapAlerts) : Prop :=
  ∀ a ∈ m.alerts, ∀ b ∈ m.alerts, a ≠ b → ¬ Covers a b

theorem alerts_add_subset : (m.add ae nTime alert).2.alerts ⊆ insert alert m.alerts := by
  rcases add_cases ae nTime m alert with ⟨-, heq⟩ | ⟨heffect, -, heq⟩ | ⟨heffect, -, heq⟩
  · rw [heq]
    exact Set.subset_insert _ _
  · rw [heq]
    exact fun other h => Set.mem_insert_of_mem _ ((mem_alerts_cancelPrevious heffect).mp h).1
  · rw [heq]
    refine alerts_insertIfNew_subset.trans (Set.insert_subset_insert fun other h => ?_)
    exact ((mem_alerts_cancelPrevious heffect).mp h).1

theorem Uncancelled.add (h : Uncancelled m) : Uncancelled (m.add ae nTime alert).2 := by
  rcases add_cases ae nTime m alert with ⟨-, heq⟩ | ⟨heffect, -, heq⟩ | ⟨heffect, hfree, heq⟩
  · rw [heq]
    exact h
  · rw [heq]
    intro a ha b hb hne
    exact h a ((mem_alerts_cancelPrevious heffect).mp ha).1 b
      ((mem_alerts_cancelPrevious heffect).mp hb).1 hne
  · rw [heq]
    intro a ha b hb hne
    rcases alerts_insertIfNew_subset ha with rfl | ha
    · rcases alerts_insertIfNew_subset hb with rfl | hb
      · exact absurd rfl hne
      · exact ((mem_alerts_cancelPrevious heffect).mp hb).2.1
    · rcases alerts_insertIfNew_subset hb with rfl | hb
      · exact hfree a ha
      · exact h a ((mem_alerts_cancelPrevious heffect).mp ha).1 b
          ((mem_alerts_cancelPrevious heffect).mp hb).1 hne

/-- What every alert with the right signature keeps, a run keeps. -/
theorem receive_keeps {I : MapAlerts → Prop} {messages : List (ℤ × CAlert)} (hempty : I ∅)
    (hadd : ∀ m, I m → ∀ x ∈ messages, ∀ alert, x.2.checkSignature ae = .ok (some alert) →
      I (m.add ae x.1 alert).2) : I (receive ae messages) := by
  unfold receive
  generalize (∅ : MapAlerts) = m at hempty ⊢
  induction messages generalizing m with
  | nil => exact hempty
  | cons x messages ih =>
      rw [List.foldl_cons]
      apply ih (fun m hm y hy => hadd m hm y (List.mem_cons_of_mem _ hy))
      unfold next process
      cases hcheck : x.2.checkSignature ae with
      | error e => exact hempty
      | ok checked =>
          cases checked with
          | none => exact hempty
          | some alert => exact hadd m hempty x List.mem_cons_self alert hcheck

/-- In every run, whatever is received and whenever: each alert is under its hash, came with a right
signature of its own fields, and is cancelled by no other one. -/
theorem receive_uncancelled (ae : AlertEnv) (messages : List (ℤ × CAlert)) :
    Keyed ae (receive ae messages) ∧ Uncancelled (receive ae messages) ∧
      ∀ alert ∈ (receive ae messages).alerts,
        ae.verify (ae.hash alert.vchMsg) alert.vchSig = true ∧
        (∃ rest, CUnsignedAlert.unserialize alert.vchMsg = .ok (alert.toCUnsignedAlert, rest)) ∧
        ∃ x ∈ messages, x.2.vchMsg = alert.vchMsg ∧ x.2.vchSig = alert.vchSig ∧
          x.1 < alert.nExpiration := by
  refine ⟨receive_keeps (keyed_empty ae) fun m hm x _ alert _ => hm.add, ?_, ?_⟩
  · refine receive_keeps ?_ fun m hm x _ alert _ => hm.add
    intro a ha
    rw [alerts_empty] at ha
    exact ha.elim
  · refine receive_keeps (I := fun m => ∀ alert ∈ m.alerts,
        ae.verify (ae.hash alert.vchMsg) alert.vchSig = true ∧
        (∃ rest, CUnsignedAlert.unserialize alert.vchMsg = .ok (alert.toCUnsignedAlert, rest)) ∧
        ∃ x ∈ messages, x.2.vchMsg = alert.vchMsg ∧ x.2.vchSig = alert.vchSig ∧
          x.1 < alert.nExpiration) ?_ fun m hm x hx alert hcheck => ?_
    · rw [alerts_empty]
      exact fun alert h => h.elim
    · obtain ⟨hverify, hmsg, hsig, hread⟩ := CAlert.checkSignature_some hcheck
      intro other hother
      rcases add_cases ae x.1 m alert with ⟨-, heq⟩ | ⟨heffect, -, heq⟩ | ⟨heffect, -, heq⟩
      · rw [heq] at hother
        exact hm other hother
      · rw [heq] at hother
        exact hm other ((mem_alerts_cancelPrevious heffect).mp hother).1
      · rw [heq] at hother
        rcases alerts_insertIfNew_subset hother with rfl | hold
        · exact ⟨hverify, hread, x, hx, hmsg.symm, hsig.symm, of_decide_eq_true heffect⟩
        · exact hm other ((mem_alerts_cancelPrevious heffect).mp hold).1

/-- What arrives while all of it is in effect is kept as far as it is not cancelled. -/
theorem Frontier.add {seen : Set CAlert} (hm : Keyed ae m)
    (hfrontier : Lib.Frontier Covers seen m.alerts)
    (hstrict : Lib.StrictOn Covers (insert alert seen)) (hdistinct : Distinct ae (insert alert seen))
    (heffect : ∀ other ∈ insert alert seen, other.isInEffect nTime = true) :
    Lib.Frontier Covers (insert alert seen) (m.add ae nTime alert).2.alerts ∧
      ((m.add ae nTime alert).1 = true → alert ∈ (m.add ae nTime alert).2.alerts) := by
  have hnow := heffect alert (Set.mem_insert _ _)
  have hkept : (m.cancelPrevious nTime alert).alerts = Lib.dropCovered Covers m.alerts alert := by
    ext other
    rw [mem_alerts_cancelPrevious hnow]
    constructor
    · exact fun h => ⟨h.1, h.2.1⟩
    · exact fun h => ⟨h.1, h.2, heffect other (Set.mem_insert_of_mem _ (hfrontier.subset h.1))⟩
  rcases add_cases ae nTime m alert with ⟨hnot, -⟩ | ⟨-, hcovered, heq⟩ | ⟨-, hfree, heq⟩
  · rw [hnow] at hnot
    cases hnot
  · rw [heq, hkept]
    rw [hkept] at hcovered
    exact ⟨hfrontier.reject hstrict ((hfrontier.covers_iff hstrict).mp hcovered), fun h => by cases h⟩
  · have hsub : insert alert (m.cancelPrevious nTime alert).alerts ⊆ insert alert seen :=
      Set.insert_subset_insert fun other h =>
        hfrontier.subset ((mem_alerts_cancelPrevious hnow).mp h).1
    have hinsert := alerts_insertIfNew (hm.cancelPrevious hnow)
      (fun a ha b hb => hdistinct a (hsub ha) b (hsub hb))
    rw [heq]
    dsimp only
    rw [hinsert]
    refine ⟨?_, fun _ => Set.mem_insert _ _⟩
    rw [hkept]
    refine hfrontier.accept hstrict fun other hother hcovers => ?_
    obtain ⟨b, hb, hcov⟩ := (hfrontier.covers_iff hstrict).mpr ⟨other, hother, hcovers⟩
    rw [← hkept] at hb
    exact hfree b hb hcov

/-- Alerts that are all in effect while they arrive, and of which those that cancel cancel for good:
what one of them cancels is cancelled by what cancels it. -/
structure Consistent (ae : AlertEnv) (messages : List (ℤ × CAlert)) : Prop where
  issued : ∀ x ∈ messages, x.2.Issued ae
  strict : Lib.StrictOn Covers {alert | alert ∈ messages.map Prod.snd}
  distinct : Distinct ae {alert | alert ∈ messages.map Prod.snd}
  inEffect : ∀ x ∈ messages, ∀ alert ∈ messages.map Prod.snd, x.1 < alert.nExpiration

theorem Consistent.frontier {messages : List (ℤ × CAlert)} (h : Consistent ae messages) :
    Keyed ae (receive ae messages) ∧
      Lib.Frontier Covers {alert | alert ∈ messages.map Prod.snd} (receive ae messages).alerts := by
  have hloop : ∀ (rest done : List (ℤ × CAlert)) (m : MapAlerts), messages = done ++ rest →
      Keyed ae m → Lib.Frontier Covers {alert | alert ∈ done.map Prod.snd} m.alerts →
      Keyed ae (rest.foldl (next ae) m) ∧
      Lib.Frontier Covers {alert | alert ∈ messages.map Prod.snd}
        (alerts (rest.foldl (next ae) m)) := by
    intro rest
    induction rest with
    | nil =>
        intro done m hdone hm hfrontier
        rw [List.append_nil] at hdone
        exact ⟨hm, hdone ▸ hfrontier⟩
    | cons x rest ih =>
        intro done m hdone hm hfrontier
        have hx : x ∈ messages := by simp [hdone]
        have hseen : insert x.2 {alert | alert ∈ done.map Prod.snd}
            = {alert | alert ∈ (done ++ [x]).map Prod.snd} := by
          ext alert
          simp [or_comm]
        have hsub : insert x.2 {alert | alert ∈ done.map Prod.snd}
            ⊆ {alert | alert ∈ messages.map Prod.snd} := by
          rw [hseen, hdone]
          intro alert halert
          have hmem : alert ∈ (done ++ [x]).map Prod.snd := halert
          show alert ∈ (done ++ x :: rest).map Prod.snd
          rw [show done ++ x :: rest = done ++ [x] ++ rest by simp, List.map_append]
          exact List.mem_append_left _ hmem
        have hstep := Frontier.add hm hfrontier (h.strict.mono hsub)
          (fun a ha b hb => h.distinct a (hsub ha) b (hsub hb))
          (fun other hother => decide_eq_true (h.inEffect x hx other (hsub hother)))
        have hprocess : next ae m x = (m.add ae x.1 x.2).2 := by
          unfold next process
          rw [(h.issued x hx).checkSignature rfl rfl]
        rw [List.foldl_cons, hprocess]
        refine ih (done ++ [x]) _ (by simp [hdone]) hm.add ?_
        rw [← hseen]
        exact hstep.1
  refine hloop messages [] ∅ rfl (keyed_empty ae) ?_
  rw [alerts_empty]
  have hnone : {alert : CAlert | alert ∈ ([] : List (ℤ × CAlert)).map Prod.snd} = ∅ := by
    ext alert
    simp
  rw [hnone]
  exact Lib.frontier_empty

/-- Neither the order nor the times nor repetitions matter: what is left are the alerts that no other
one cancels. -/
theorem receive_any_order (ae : AlertEnv) (messages messages' : List (ℤ × CAlert))
    (h : Consistent ae messages) (h' : Consistent ae messages')
    (hsame : ∀ alert, alert ∈ messages.map Prod.snd ↔ alert ∈ messages'.map Prod.snd) :
    receive ae messages = receive ae messages' ∧
      (receive ae messages).alerts
        = Lib.maxima Covers {alert | alert ∈ messages.map Prod.snd} := by
  obtain ⟨hkeyed, hfrontier⟩ := h.frontier
  obtain ⟨hkeyed', hfrontier'⟩ := h'.frontier
  have hset : {alert | alert ∈ messages.map Prod.snd} = {alert | alert ∈ messages'.map Prod.snd} :=
    Set.ext hsame
  refine ⟨ext_alerts hkeyed hkeyed' ?_, hfrontier.eq_maxima⟩
  rw [hfrontier.eq_maxima, hfrontier'.eq_maxima, hset]

instance (alert other : CAlert) : Decidable (Covers alert other) :=
  inferInstanceAs (Decidable (_ = true))

/-- Every signature is right, and the bytes are their own hash. -/
def sampleEnv : AlertEnv where
  hash := Lib.ofLE
  verify _ _ := true
  protocolVersion := 60008
  subVersion := []

/-- An alert that cancels all numbers up to `nCancel` -/
def sampleAlert (nID nCancel : ℤ) : CAlert :=
  let fields : CUnsignedAlert :=
    { nExpiration := 1000, nRelayUntil := 1000, nID := nID, nCancel := nCancel, nMaxVer := 99999 }
  { fields with vchMsg := fields.serialize }

theorem issued_sampleAlert {nID nCancel : ℤ} (hid : CUnsignedAlert.IsInt32 nID)
    (hcancel : CUnsignedAlert.IsInt32 nCancel) (hlen : (sampleAlert nID nCancel).vchMsg.length ≤ 100) :
    (sampleAlert nID nCancel).Issued sampleEnv where
  fits := {
    nVersion := (by decide : CUnsignedAlert.IsInt32 1)
    nRelayUntil := (by decide : CUnsignedAlert.IsInt64 1000)
    nExpiration := (by decide : CUnsignedAlert.IsInt64 1000)
    nID := hid
    nCancel := hcancel
    setCancel_size := Nat.zero_le _
    setCancel := fun n hn => absurd hn ExtTreeSet.not_mem_empty
    nMinVer := (by decide : CUnsignedAlert.IsInt32 0)
    nMaxVer := (by decide : CUnsignedAlert.IsInt32 99999)
    setSubVer_size := Nat.zero_le _
    setSubVer := fun str hs => absurd hs ExtTreeSet.not_mem_empty
    nPriority := (by decide : CUnsignedAlert.IsInt32 0)
    strComment := Nat.zero_le _
    strStatusBar := Nat.zero_le _
    strReserved := Nat.zero_le _ }
  vchMsg := rfl
  verify := rfl
  vchMsg_size := hlen.trans (by decide)
  vchSig_size := Nat.zero_le _

/-- The second alert cancels the first one, the third one cancels both. -/
def sampleMessages : List (ℤ × CAlert) :=
  [(5, sampleAlert 1 0), (6, sampleAlert 3 2), (7, sampleAlert 2 1)]

theorem mem_sampleMessages {alert : CAlert} (h : alert ∈ sampleMessages.map Prod.snd) :
    alert = sampleAlert 1 0 ∨ alert = sampleAlert 3 2 ∨ alert = sampleAlert 2 1 := by
  simpa [sampleMessages] using h

theorem consistent_sampleMessages {messages : List (ℤ × CAlert)}
    (h : ∀ x ∈ messages, x ∈ sampleMessages) : Consistent sampleEnv messages := by
  have hsub : ∀ alert ∈ messages.map Prod.snd, alert ∈ sampleMessages.map Prod.snd := by
    intro alert halert
    obtain ⟨x, hx, rfl⟩ := List.mem_map.mp halert
    exact List.mem_map_of_mem (h x hx)
  have hirrefl : ∀ a ∈ sampleMessages.map Prod.snd, ¬ Covers a a := by decide
  have htrans : ∀ a ∈ sampleMessages.map Prod.snd, ∀ b ∈ sampleMessages.map Prod.snd,
      ∀ c ∈ sampleMessages.map Prod.snd, Covers a b → Covers b c → Covers a c := by decide
  have htime : ∀ x ∈ sampleMessages, ∀ alert ∈ sampleMessages.map Prod.snd,
      x.1 < alert.nExpiration := by decide
  refine ⟨fun x hx => ?_, ⟨fun a ha => hirrefl a (hsub a ha), fun a ha b hb c hc =>
    htrans a (hsub a ha) b (hsub b hb) c (hsub c hc)⟩, fun a ha b hb hhash => ?_,
    fun x hx alert halert => htime x (h x hx) alert (hsub alert halert)⟩
  · rcases mem_sampleMessages (List.mem_map_of_mem (h x hx)) with heq | heq | heq <;> rw [heq] <;>
      exact issued_sampleAlert (by decide) (by decide) (by decide)
  · rcases mem_sampleMessages (hsub a ha) with rfl | rfl | rfl <;>
      rcases mem_sampleMessages (hsub b hb) with rfl | rfl | rfl <;>
      first
        | rfl
        | exact absurd hhash (by decide)

theorem receive_any_order_sampleMessages :
    receive sampleEnv sampleMessages = receive sampleEnv sampleMessages.reverse :=
  (receive_any_order sampleEnv _ _ (consistent_sampleMessages fun _ hx => hx)
    (consistent_sampleMessages fun _ hx => List.mem_reverse.mp hx) fun alert => by simp).1

end MapAlerts

end ShinyCoin

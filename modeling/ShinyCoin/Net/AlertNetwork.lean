import ShinyCoin.Net.Alert
import Mathlib.Logic.Function.Basic
import Mathlib.Logic.Relation

/-!
# How alerts spread

Nodes with a `CNode` for each end of a connection. A node relays an alert it accepts to its peers, and
all of its alerts to a peer whose `version` arrives, but never the same alert twice to one peer:
`setKnown` remembers. Messages arrive in any order. When none is left on the way, connected nodes have
the same `mapAlerts`.

Before the peer's `version` anything else it sends is dropped, and counts as known to be there all the
same: nodes agree in those runs in which no alert comes that early. Nodes that send what they like do not
matter to those that follow the code and are connected without them.
-/

namespace ShinyCoin

open Std (ExtTreeMap ExtTreeSet)

/-- "disconnect from peers older than this proto version" -/
def MIN_PROTO_VERSION : ℤ := 209

/-- `CNode`, as far as alerts go -/
structure AlertPeer where
  nVersion : ℤ := 0
  strSubVer : Bytes := []
  setKnown : ExtTreeSet Uint256 compare := ∅

/-- `setKnown.insert(hash)` -/
def AlertPeer.know (pnode : AlertPeer) (hash : Uint256) : AlertPeer :=
  { pnode with setKnown := pnode.setKnown.insert hash }

/-- `RelayTo(pnode)`: the peer, and whether the alert is pushed. -/
def CAlert.relayTo (ae : AlertEnv) (nTime : ℤ) (alert : CAlert) (pnode : AlertPeer) :
    AlertPeer × Bool :=
  if !alert.isInEffect nTime then (pnode, false)
  -- "returns true if wasn't already contained in the set"
  else if pnode.setKnown.contains (alert.getHash ae) then (pnode, false)
  else
    (pnode.know (alert.getHash ae),
      alert.appliesTo nTime pnode.nVersion pnode.strSubVer || alert.appliesToMe ae nTime
        || decide (nTime < alert.nRelayUntil))

/-- The ends of the connections there may be: whose they are, and the other ends. -/
structure Links (ν κ : Type) where
  owner : κ → ν
  far : κ → κ
  far_far : ∀ c, far (far c) = c

/-- All nodes, and what is on the way. -/
structure AlertNet (ν κ : Type) where
  mapAlerts : ν → MapAlerts
  vNodes : ν → List κ
  peer : κ → AlertPeer
  /-- Payloads of `alert` messages, with the end they arrive at -/
  flight : List (κ × Bytes)
  /-- The alerts each node was given so far, and what was pushed over the connections there are.
  Bookkeeping of the model; no decision reads them. -/
  heard : ν → List CAlert
  pushed : List (κ × Uint256)

namespace AlertNet

variable {ν κ : Type} [DecidableEq ν] [DecidableEq κ]

def start : AlertNet ν κ where
  mapAlerts _ := ∅
  vNodes _ := []
  peer _ := {}
  flight := []
  heard _ := []
  pushed := []

def setPeer (net : AlertNet ν κ) (c : κ) (pnode : AlertPeer) : AlertNet ν κ :=
  { net with peer := Function.update net.peer c pnode }

/-- `alert.RelayTo(pnode)` -/
def relayTo (ae : AlertEnv) (links : Links ν κ) (nTime : ℤ) (alert : CAlert) (net : AlertNet ν κ)
    (c : κ) : AlertNet ν κ :=
  let (pnode, fPushed) := alert.relayTo ae nTime (net.peer c)
  let net := net.setPeer c pnode
  if fPushed then
    { net with
      flight := net.flight ++ [(links.far c, alert.serialize)]
      pushed := (c, alert.getHash ae) :: net.pushed }
  else net

/-- What `ProcessAlert` leaves at a node -/
def accept (net : AlertNet ν κ) (i : ν) (alert : CAlert) (m : MapAlerts) : AlertNet ν κ :=
  { net with
    mapAlerts := Function.update net.mapAlerts i m
    heard := Function.update net.heard i (alert :: net.heard i) }

/-- `pfrom->setKnown.insert(alert.GetHash())`, where the alert came from a peer -/
def mark (ae : AlertEnv) (alert : CAlert) (pfrom : Option κ) (net : AlertNet ν κ) : AlertNet ν κ :=
  match pfrom with
  | none => net
  | some c => net.setPeer c ((net.peer c).know (alert.getHash ae))

/-- A node is given an alert, by `sendalert` or by a peer (`pfrom`): if it accepts it, it relays it. -/
def processAlert (ae : AlertEnv) (links : Links ν κ) (nTime : ℤ) (i : ν) (pfrom : Option κ)
    (raw : CAlert) (net : AlertNet ν κ) : AlertNet ν κ :=
  match raw.checkSignature ae with
  | .error _ => net
  | .ok none => net
  | .ok (some alert) =>
      let (fAccepted, m) := (net.mapAlerts i).add ae nTime alert
      let net := net.accept i alert m
      if fAccepted then
        let net := net.mark ae alert pfrom
        (net.vNodes i).foldl (relayTo ae links nTime alert) net
      else net

/-- The `alert` message -/
def onAlert (ae : AlertEnv) (links : Links ν κ) (nTime : ℤ) (c : κ) (payload : Bytes)
    (net : AlertNet ν κ) : AlertNet ν κ :=
  -- "Must have a version message before anything else"
  if (net.peer c).nVersion = 0 then net
  else
    match CAlert.unserialize payload with
    | .error _ => net
    | .ok (raw, _) => net.processAlert ae links nTime (links.owner c) (some c) raw

/-- The `version` message: "Each connection can only send one version message" -/
def onVersion (ae : AlertEnv) (links : Links ν κ) (nTime : ℤ) (c : κ) (nVersion : ℤ)
    (strSubVer : Bytes) (net : AlertNet ν κ) : AlertNet ν κ :=
  if (net.peer c).nVersion ≠ 0 then net
  -- "using obsolete version"
  else if nVersion < MIN_PROTO_VERSION then
    net.setPeer c { net.peer c with nVersion := nVersion }
  else
    let nVersion := if nVersion = 10300 then 300 else nVersion
    let net := net.setPeer c { net.peer c with nVersion := nVersion, strSubVer := strSubVer }
    -- "Relay alerts"
    (net.mapAlerts (links.owner c)).toList.foldl (fun net item => net.relayTo ae links nTime item.2 c)
      net

/-- Neither end has anything any more, and nothing is on the way between them. -/
def disconnect (links : Links ν κ) (c : κ) (net : AlertNet ν κ) : AlertNet ν κ :=
  let other (x : κ) : Bool := decide (x ≠ c ∧ x ≠ links.far c)
  { net with
    vNodes := fun i => (net.vNodes i).filter other
    peer := fun x => if other x then net.peer x else {}
    flight := net.flight.filter fun x => other x.1
    pushed := net.pushed.filter fun x => other x.1 }

/-- A new connection: both nodes have a new `CNode`. -/
def connect (links : Links ν κ) (c : κ) (net : AlertNet ν κ) : AlertNet ν κ :=
  let add (c : κ) (vNodes : ν → List κ) :=
    Function.update vNodes (links.owner c) (c :: vNodes (links.owner c))
  let net := net.disconnect links c
  { net with vNodes := add (links.far c) (add c net.vNodes) }

/-- What can happen -/
inductive Op (ν κ : Type) where
  | connect (c : κ)
  | disconnect (c : κ)
  | version (nTime : ℤ) (c : κ) (nVersion : ℤ) (strSubVer : Bytes)
  | sendalert (nTime : ℤ) (i : ν) (alert : CAlert)
  /-- A message that is on the way arrives, not always the first one. -/
  | deliver (nTime : ℤ) (n : Nat)
  /-- Whoever is at the other end sends something. -/
  | forge (nTime : ℤ) (c : κ) (payload : Bytes)

def exec (ae : AlertEnv) (links : Links ν κ) (net : AlertNet ν κ) : Op ν κ → AlertNet ν κ
  | .connect c => net.connect links c
  | .disconnect c => net.disconnect links c
  | .version nTime c nVersion strSubVer => net.onVersion ae links nTime c nVersion strSubVer
  | .sendalert nTime i alert => net.processAlert ae links nTime i none alert
  | .deliver nTime n =>
      match net.flight[n]? with
      | none => net
      | some (c, payload) =>
          { net with flight := net.flight.eraseIdx n }.onAlert ae links nTime c payload
  | .forge nTime c payload => net.onAlert ae links nTime c payload

/-- The states of a network in which everything that happens meets `ok`. -/
inductive Run (ae : AlertEnv) (links : Links ν κ) (ok : AlertNet ν κ → Op ν κ → Prop) :
    AlertNet ν κ → Prop where
  | start : Run ae links ok start
  | step {net : AlertNet ν κ} (op : Op ν κ) (hrun : Run ae links ok net) (hok : ok net op) :
      Run ae links ok (net.exec ae links op)

/-! ## Pushing once -/

section

variable {ae : AlertEnv} {links : Links ν κ} {nTime : ℤ} {alert : CAlert} {net : AlertNet ν κ}
  {c : κ} {i : ν}

omit [DecidableEq ν] [DecidableEq κ] in
theorem mem_know {pnode : AlertPeer} {hash hash' : Uint256} :
    hash' ∈ (pnode.know hash).setKnown ↔ hash' = hash ∨ hash' ∈ pnode.setKnown := by
  show hash' ∈ pnode.setKnown.insert hash ↔ _
  rw [ExtTreeSet.mem_insert, Nat.compare_eq_eq, eq_comm]

/-- The three ways of `RelayTo` -/
theorem relayTo_cases (ae : AlertEnv) (nTime : ℤ) (alert : CAlert) (pnode : AlertPeer) :
    ((alert.isInEffect nTime = false ∨ alert.getHash ae ∈ pnode.setKnown) ∧
      alert.relayTo ae nTime pnode = (pnode, false)) ∨
    (alert.isInEffect nTime = true ∧ alert.getHash ae ∉ pnode.setKnown ∧
      ∃ fPushed, alert.relayTo ae nTime pnode = (pnode.know (alert.getHash ae), fPushed) ∧
        (nTime < alert.nRelayUntil → fPushed = true)) := by
  unfold CAlert.relayTo
  cases heffect : alert.isInEffect nTime with
  | false => exact .inl ⟨.inl rfl, rfl⟩
  | true =>
      rw [Bool.not_true, if_neg Bool.false_ne_true]
      by_cases hknown : pnode.setKnown.contains (alert.getHash ae) = true
      · rw [if_pos hknown]
        exact .inl ⟨.inr (ExtTreeSet.contains_iff_mem.mp hknown), rfl⟩
      · rw [if_neg hknown]
        refine .inr ⟨rfl, fun h => hknown (ExtTreeSet.contains_iff_mem.mpr h), _, rfl, fun h => ?_⟩
        rw [decide_eq_true h, Bool.or_true]

/-- What a peer was sent it is known to have. -/
structure Once (net : AlertNet ν κ) : Prop where
  known : ∀ x ∈ net.pushed, x.2 ∈ (net.peer x.1).setKnown
  nodup : net.pushed.Nodup

omit [DecidableEq ν] in
theorem Once.setPeer (h : Once net) {pnode : AlertPeer}
    (hgrow : ∀ hash ∈ (net.peer c).setKnown, hash ∈ pnode.setKnown) : Once (net.setPeer c pnode) := by
  refine ⟨fun x hx => ?_, h.nodup⟩
  show x.2 ∈ (Function.update net.peer c pnode x.1).setKnown
  by_cases hxc : x.1 = c
  · rw [hxc, Function.update_self]
    exact hgrow _ (hxc ▸ h.known x hx)
  · rw [Function.update_of_ne hxc]
    exact h.known x hx

omit [DecidableEq ν] in
theorem Once.know (h : Once net) (hash : Uint256) :
    Once (net.setPeer c ((net.peer c).know hash)) :=
  h.setPeer fun _ hmem => mem_know.mpr (.inr hmem)

omit [DecidableEq ν] in
theorem Once.mark (h : Once net) (pfrom : Option κ) : Once (net.mark ae alert pfrom) := by
  cases pfrom with
  | none => exact h
  | some c => exact h.know _

omit [DecidableEq ν] in
theorem Once.relayTo (h : Once net) : Once (net.relayTo ae links nTime alert c) := by
  rcases relayTo_cases ae nTime alert (net.peer c) with ⟨-, heq⟩ | ⟨-, hnew, fPushed, heq, -⟩
  · unfold AlertNet.relayTo
    rw [heq]
    exact h.setPeer fun _ hmem => hmem
  · unfold AlertNet.relayTo
    rw [heq]
    have hset := h.know (c := c) (alert.getHash ae)
    cases fPushed with
    | false => exact hset
    | true =>
        refine ⟨fun x hx => ?_, List.nodup_cons.mpr ⟨fun hmem => hnew (h.known _ hmem), h.nodup⟩⟩
        rcases List.mem_cons.mp hx with rfl | hmem
        · show _ ∈ (Function.update net.peer c _ c).setKnown
          rw [Function.update_self]
          exact mem_know.mpr (.inl rfl)
        · exact hset.known x hmem

omit [DecidableEq ν] [DecidableEq κ] in
theorem Once.foldl {β : Type} {f : AlertNet ν κ → β → AlertNet ν κ}
    (hf : ∀ {net : AlertNet ν κ} (x : β), Once net → Once (f net x)) (xs : List β) (h : Once net) :
    Once (xs.foldl f net) := by
  induction xs generalizing net with
  | nil => exact h
  | cons x xs ih => exact ih (hf x h)

theorem Once.processAlert (h : Once net) (pfrom : Option κ) (raw : CAlert) :
    Once (net.processAlert ae links nTime i pfrom raw) := by
  unfold AlertNet.processAlert
  split
  · exact h
  · exact h
  · next alert hcheck =>
      have haccept : ∀ m, Once (net.accept i alert m) := fun m => ⟨h.known, h.nodup⟩
      dsimp only
      split
      · exact Once.foldl (fun c hnet => hnet.relayTo) _ ((haccept _).mark pfrom)
      · exact haccept _

theorem Once.onAlert (h : Once net) {payload : Bytes} :
    Once (net.onAlert ae links nTime c payload) := by
  unfold AlertNet.onAlert
  split
  · exact h
  · split
    · exact h
    · exact h.processAlert _ _

omit [DecidableEq ν] in
theorem Once.onVersion (h : Once net) {nVersion : ℤ} {strSubVer : Bytes} :
    Once (net.onVersion ae links nTime c nVersion strSubVer) := by
  unfold AlertNet.onVersion
  split
  · exact h
  · split
    · exact h.setPeer fun _ hmem => hmem
    · exact Once.foldl (fun item hnet => hnet.relayTo) _ (h.setPeer fun _ hmem => hmem)

omit [DecidableEq ν] in
theorem Once.disconnect (h : Once net) : Once (net.disconnect links c) := by
  refine ⟨fun x hx => ?_, h.nodup.filter _⟩
  obtain ⟨hmem, hother⟩ := List.mem_filter.mp hx
  unfold AlertNet.disconnect
  dsimp only
  rw [if_pos hother]
  exact h.known x hmem

theorem Once.exec (h : Once net) (op : Op ν κ) : Once (net.exec ae links op) := by
  cases op with
  | connect c => exact ⟨h.disconnect.known, h.disconnect.nodup⟩
  | disconnect c => exact h.disconnect
  | version nTime c nVersion strSubVer => exact h.onVersion
  | sendalert nTime i alert =>
      show Once (net.processAlert ae links nTime i none alert)
      exact h.processAlert none alert
  | deliver nTime n =>
      unfold AlertNet.exec
      dsimp only
      split
      · exact h
      · next c payload hget =>
          have hnet : Once { net with flight := net.flight.eraseIdx n } := ⟨h.known, h.nodup⟩
          exact hnet.onAlert
  | forge nTime c payload => exact h.onAlert

theorem Run.once {ok : AlertNet ν κ → Op ν κ → Prop} (hrun : Run ae links ok net) : Once net := by
  induction hrun with
  | start => exact ⟨fun x hx => (List.not_mem_nil hx).elim, List.nodup_nil⟩
  | step op hrun hok ih => exact ih.exec op

end

/-! ## Agreement -/

/-- The alerts that were issued -/
structure Authority (ae : AlertEnv) (issued : Set CAlert) : Prop where
  signed : ∀ alert ∈ issued, alert.Issued ae
  strict : Lib.StrictOn MapAlerts.Covers issued
  distinct : MapAlerts.Distinct ae issued

/-- No alert that was issued has expired, and all of them are still relayed. -/
def InWindow (issued : Set CAlert) (nTime : ℤ) : Prop :=
  ∀ alert ∈ issued, nTime < alert.nExpiration ∧ nTime < alert.nRelayUntil

/-- Both nodes of a connection follow the code. -/
def HonestLink (links : Links ν κ) (honest : ν → Prop) (c : κ) : Prop :=
  honest (links.owner c) ∧ honest (links.owner (links.far c))

/-- What may happen while the alerts spread: only alerts that were issued have a right signature, an
honest node sends nothing but what the code sends, and between honest nodes no alert comes before the
`version`. -/
def Fair (ae : AlertEnv) (links : Links ν κ) (honest : ν → Prop) (issued : Set CAlert)
    (net : AlertNet ν κ) : Op ν κ → Prop
  | .connect _ => True
  | .disconnect _ => True
  | .version nTime _ _ _ => InWindow issued nTime
  | .sendalert nTime _ raw =>
      InWindow issued nTime ∧ ∀ alert, raw.checkSignature ae = .ok (some alert) → alert ∈ issued
  | .deliver nTime n =>
      InWindow issued nTime ∧ ∀ c payload, net.flight[n]? = some (c, payload) →
        HonestLink links honest c → (net.peer c).nVersion ≠ 0
  | .forge nTime c payload =>
      InWindow issued nTime ∧ ¬ HonestLink links honest c ∧
        ∀ raw rest alert, CAlert.unserialize payload = .ok (raw, rest) →
          raw.checkSignature ae = .ok (some alert) → alert ∈ issued

/-- What holds all the time. -/
structure Spread (ae : AlertEnv) (links : Links ν κ) (honest : ν → Prop) (issued : Set CAlert)
    (net : AlertNet ν κ) : Prop where
  heard : ∀ i, ∀ alert ∈ net.heard i, alert ∈ issued
  keyed : ∀ i, MapAlerts.Keyed ae (net.mapAlerts i)
  frontier : ∀ i, Lib.Frontier MapAlerts.Covers {alert | alert ∈ net.heard i}
    (net.mapAlerts i).alerts
  /-- What is on the way was sent by the node at the other end. -/
  flight : ∀ x ∈ net.flight, ∃ alert ∈ net.heard (links.owner (links.far x.1)),
    x.2 = alert.serialize
  /-- What a peer is known to have it has, or it is on the way to it. -/
  known : ∀ c, HonestLink links honest c → c ∈ net.vNodes (links.owner c) → ∀ alert ∈ issued,
    alert.getHash ae ∈ (net.peer c).setKnown →
    alert ∈ net.heard (links.owner (links.far c)) ∨ (links.far c, alert.serialize) ∈ net.flight
  owned : ∀ i, ∀ c ∈ net.vNodes i, links.owner c = i
  symm : ∀ c, c ∈ net.vNodes (links.owner c) → links.far c ∈ net.vNodes (links.owner (links.far c))

/-- A node tells its peers of all its alerts. -/
def Told (ae : AlertEnv) (links : Links ν κ) (net : AlertNet ν κ) : Prop :=
  ∀ c, c ∈ net.vNodes (links.owner c) → MIN_PROTO_VERSION ≤ (net.peer c).nVersion →
    ∀ alert ∈ (net.mapAlerts (links.owner c)).alerts, alert.getHash ae ∈ (net.peer c).setKnown

/-- `net'` is `net` after some pushes of alerts: `sent` are the ends and the alerts. -/
structure Pushes (ae : AlertEnv) (links : Links ν κ) (sent : κ → CAlert → Prop)
    (net net' : AlertNet ν κ) : Prop where
  mapAlerts : net'.mapAlerts = net.mapAlerts
  vNodes : net'.vNodes = net.vNodes
  heard : net'.heard = net.heard
  nVersion : ∀ c, (net'.peer c).nVersion = (net.peer c).nVersion
  grows : ∀ c, ∀ hash ∈ (net.peer c).setKnown, hash ∈ (net'.peer c).setKnown
  known : ∀ c, ∀ hash ∈ (net'.peer c).setKnown, hash ∈ (net.peer c).setKnown ∨
    ∃ alert, sent c alert ∧ hash = alert.getHash ae ∧ (links.far c, alert.serialize) ∈ net'.flight
  stays : ∀ x ∈ net.flight, x ∈ net'.flight
  flight : ∀ x ∈ net'.flight, x ∈ net.flight ∨
    ∃ c alert, sent c alert ∧ x = (links.far c, alert.serialize)

section

variable {ae : AlertEnv} {links : Links ν κ} {honest : ν → Prop} {issued : Set CAlert} {nTime : ℤ}
  {alert : CAlert} {net net' net'' : AlertNet ν κ} {sent : κ → CAlert → Prop} {c : κ} {i : ν}

omit [DecidableEq ν] [DecidableEq κ] in
theorem Pushes.refl : Pushes ae links sent net net :=
  ⟨rfl, rfl, rfl, fun _ => rfl, fun _ _ h => h, fun _ _ h => .inl h, fun _ h => h,
    fun _ h => .inl h⟩

omit [DecidableEq ν] [DecidableEq κ] in
theorem Pushes.trans (h : Pushes ae links sent net net') (h' : Pushes ae links sent net' net'') :
    Pushes ae links sent net net'' where
  mapAlerts := h'.mapAlerts.trans h.mapAlerts
  vNodes := h'.vNodes.trans h.vNodes
  heard := h'.heard.trans h.heard
  nVersion := fun c => (h'.nVersion c).trans (h.nVersion c)
  grows := fun c hash hmem => h'.grows c hash (h.grows c hash hmem)
  known := fun c hash hmem => by
    rcases h'.known c hash hmem with hold | hnew
    · rcases h.known c hash hold with hold | ⟨alert, hsent, hhash, hflight⟩
      · exact .inl hold
      · exact .inr ⟨alert, hsent, hhash, h'.stays _ hflight⟩
    · exact .inr hnew
  stays := fun x hx => h'.stays x (h.stays x hx)
  flight := fun x hx => by
    rcases h'.flight x hx with hold | hnew
    · exact h.flight x hold
    · exact .inr hnew

omit [DecidableEq ν] in
/-- `RelayTo`, of an alert that is still relayed: the peer is known to have it afterwards. -/
theorem Pushes.relayTo (hexp : nTime < alert.nExpiration) (hrelay : nTime < alert.nRelayUntil)
    (hsent : sent c alert) :
    Pushes ae links sent net (net.relayTo ae links nTime alert c) ∧
      alert.getHash ae ∈ ((net.relayTo ae links nTime alert c).peer c).setKnown := by
  rcases relayTo_cases ae nTime alert (net.peer c) with ⟨hwhy, heq⟩ | ⟨-, hnew, fPushed, heq, hpush⟩
  · have hknown : alert.getHash ae ∈ (net.peer c).setKnown := by
      rcases hwhy with hnot | hknown
      · rw [CAlert.isInEffect, decide_eq_false_iff_not] at hnot
        exact absurd hexp hnot
      · exact hknown
    have hsame : net.relayTo ae links nTime alert c = net := by
      unfold AlertNet.relayTo
      rw [heq]
      show net.setPeer c (net.peer c) = net
      unfold AlertNet.setPeer
      rw [Function.update_eq_self]
    rw [hsame]
    exact ⟨Pushes.refl, hknown⟩
  · have hnet : net.relayTo ae links nTime alert c =
        { net.setPeer c ((net.peer c).know (alert.getHash ae)) with
          flight := net.flight ++ [(links.far c, alert.serialize)]
          pushed := (c, alert.getHash ae) :: net.pushed } := by
      unfold AlertNet.relayTo
      rw [heq, hpush hrelay]
      rfl
    have hpeer : ∀ x, (net.relayTo ae links nTime alert c).peer x
        = if x = c then (net.peer c).know (alert.getHash ae) else net.peer x := by
      intro x
      rw [hnet]
      exact Function.update_apply net.peer c _ x
    refine ⟨⟨by rw [hnet]; rfl, by rw [hnet]; rfl, by rw [hnet]; rfl, fun x => ?_, fun x hash hmem => ?_,
      fun x hash hmem => ?_, fun x hx => ?_, fun x hx => ?_⟩, ?_⟩
    · rw [hpeer]
      split
      · next h =>
          rw [h]
          rfl
      · rfl
    · rw [hpeer]
      split
      · next h => exact mem_know.mpr (.inr (h ▸ hmem))
      · exact hmem
    · rw [hpeer] at hmem
      split at hmem
      · next h =>
          subst h
          rcases mem_know.mp hmem with rfl | hold
          · refine .inr ⟨alert, hsent, rfl, ?_⟩
            rw [hnet]
            exact List.mem_append_right _ List.mem_cons_self
          · exact .inl hold
      · exact .inl hmem
    · rw [hnet]
      exact List.mem_append_left _ hx
    · rw [hnet] at hx
      rcases List.mem_append.mp hx with hold | hlast
      · exact .inl hold
      · exact .inr ⟨c, alert, hsent, List.mem_singleton.mp hlast⟩
    · rw [hpeer, if_pos rfl]
      exact mem_know.mpr (.inl rfl)

omit [DecidableEq ν] in
/-- A loop of `RelayTo`s -/
theorem Pushes.foldl {β : Type} (endOf : β → κ) (alertOf : β → CAlert) (xs : List β)
    (hexp : ∀ x ∈ xs, nTime < (alertOf x).nExpiration ∧ nTime < (alertOf x).nRelayUntil)
    (hsent : ∀ x ∈ xs, sent (endOf x) (alertOf x)) :
    Pushes ae links sent net
        (xs.foldl (fun net x => net.relayTo ae links nTime (alertOf x) (endOf x)) net) ∧
      ∀ x ∈ xs, (alertOf x).getHash ae ∈
        ((xs.foldl (fun net x => net.relayTo ae links nTime (alertOf x) (endOf x)) net).peer
          (endOf x)).setKnown := by
  induction xs generalizing net with
  | nil => exact ⟨Pushes.refl, fun x hx => (List.not_mem_nil hx).elim⟩
  | cons x xs ih =>
      obtain ⟨hexpx, hrelayx⟩ := hexp x List.mem_cons_self
      have hstep : Pushes ae links sent net (net.relayTo ae links nTime (alertOf x) (endOf x)) ∧ _ :=
        Pushes.relayTo hexpx hrelayx (hsent x List.mem_cons_self)
      obtain ⟨hone, hknown⟩ := hstep
      obtain ⟨hrest, hall⟩ := @ih (net.relayTo ae links nTime (alertOf x) (endOf x))
        (fun y hy => hexp y (List.mem_cons_of_mem _ hy))
        (fun y hy => hsent y (List.mem_cons_of_mem _ hy))
      rw [List.foldl_cons]
      refine ⟨hone.trans hrest, fun y hy => ?_⟩
      rcases List.mem_cons.mp hy with rfl | hmem
      · exact hrest.grows _ _ hknown
      · exact hall y hmem

omit [DecidableEq ν] [DecidableEq κ] in
/-- Pushing what the node has heard of keeps everything. -/
theorem Spread.pushes (h : Spread ae links honest issued net) (hauth : Authority ae issued)
    (hpushes : Pushes ae links sent net net')
    (hsent : ∀ c alert, sent c alert → alert ∈ net.heard (links.owner c)) :
    Spread ae links honest issued net' where
  heard := by
    rw [hpushes.heard]
    exact h.heard
  keyed := by
    rw [hpushes.mapAlerts]
    exact h.keyed
  frontier := by
    rw [hpushes.mapAlerts, hpushes.heard]
    exact h.frontier
  flight := fun x hx => by
    rw [hpushes.heard]
    rcases hpushes.flight x hx with hold | ⟨c, alert, hpush, rfl⟩
    · exact h.flight x hold
    · refine ⟨alert, ?_, rfl⟩
      rw [links.far_far]
      exact hsent c alert hpush
  known := fun c hlink hc alert halert hmem => by
    rw [hpushes.vNodes] at hc
    rw [hpushes.heard]
    rcases hpushes.known c _ hmem with hold | ⟨other, hpush, hhash, hflight⟩
    · rcases h.known c hlink hc alert halert hold with hheard | hflight
      · exact .inl hheard
      · exact .inr (hpushes.stays _ hflight)
    · -- the hash tells which alert was pushed
      have hother : other ∈ issued := h.heard _ other (hsent c other hpush)
      rw [hauth.distinct alert halert other hother hhash]
      exact .inr hflight
  owned := by
    rw [hpushes.vNodes]
    exact h.owned
  symm := by
    rw [hpushes.vNodes]
    exact h.symm

omit [DecidableEq ν] [DecidableEq κ] in
/-- What is not accepted leaves no new alert. -/
theorem alerts_add_rejected {m : MapAlerts} (h : (m.add ae nTime alert).1 = false) :
    (m.add ae nTime alert).2.alerts ⊆ m.alerts := by
  rcases MapAlerts.add_cases ae nTime m alert with ⟨-, heq⟩ | ⟨heffect, -, heq⟩ | ⟨-, -, heq⟩
  · rw [heq]
  · rw [heq]
    exact fun other hother => ((MapAlerts.mem_alerts_cancelPrevious heffect).mp hother).1
  · rw [heq] at h
    cases h

omit [DecidableEq κ] in
theorem mem_heard_accept {m : MapAlerts} {other : CAlert} {j : ν} :
    other ∈ (net.accept i alert m).heard j ↔ (j = i ∧ other = alert) ∨ other ∈ net.heard j := by
  show other ∈ Function.update net.heard i (alert :: net.heard i) j ↔ _
  rw [Function.update_apply]
  split
  · next h =>
      subst h
      rw [List.mem_cons]
      exact or_congr_left (by simp)
  · next h => simp [h]

omit [DecidableEq κ] in
/-- A node is given an alert that was issued. It may be what has just arrived. -/
theorem Spread.accept (h : Spread ae links honest issued net) (hauth : Authority ae issued)
    (hwindow : InWindow issued nTime) (halert : alert ∈ issued) {flight : List (κ × Bytes)}
    (hsub : ∀ x ∈ flight, x ∈ net.flight)
    (hrest : ∀ x ∈ net.flight, x ∈ flight ∨ links.owner x.1 = i ∧ x.2 = alert.serialize) :
    Spread ae links honest issued
      ({ net with flight := flight }.accept i alert ((net.mapAlerts i).add ae nTime alert).2) where
  heard := fun j other hother => by
    rcases mem_heard_accept.mp hother with ⟨-, rfl⟩ | hold
    · exact halert
    · exact h.heard j other hold
  keyed := fun j => by
    show MapAlerts.Keyed ae (Function.update net.mapAlerts i _ j)
    rw [Function.update_apply]
    split
    · exact (h.keyed i).add
    · exact h.keyed j
  frontier := fun j => by
    show Lib.Frontier MapAlerts.Covers _ (Function.update net.mapAlerts i _ j).alerts
    rw [Function.update_apply]
    split
    · next hj =>
        subst hj
        have hsub : insert alert {other | other ∈ net.heard j} ⊆ issued :=
          Set.insert_subset halert (h.heard j)
        have hadd := (MapAlerts.Frontier.add (h.keyed j) (h.frontier j) (hauth.strict.mono hsub)
          (fun a ha b hb => hauth.distinct a (hsub ha) b (hsub hb))
          fun other hother => decide_eq_true (hwindow other (hsub hother)).1).1
        refine cast (congrArg (fun seen => Lib.Frontier MapAlerts.Covers seen _) ?_) hadd
        ext other
        rw [Set.mem_insert_iff]
        exact (or_congr_left ⟨fun heq => ⟨rfl, heq⟩, fun hboth => hboth.2⟩).trans
          (mem_heard_accept (m := ((net.mapAlerts j).add ae nTime alert).2)).symm
    · next hj =>
        refine cast (congrArg (fun seen => Lib.Frontier MapAlerts.Covers seen _) ?_) (h.frontier j)
        ext other
        exact ⟨fun hold => mem_heard_accept.mpr (.inr hold),
          fun hor => (mem_heard_accept.mp hor).resolve_left fun hboth => hj hboth.1⟩
  flight := fun x hx => by
    obtain ⟨other, hheard, heq⟩ := h.flight x (hsub x hx)
    exact ⟨other, mem_heard_accept.mpr (.inr hheard), heq⟩
  known := fun c hlink hc other hother hmem => by
    rcases h.known c hlink hc other hother hmem with hheard | hflight
    · exact .inl (mem_heard_accept.mpr (.inr hheard))
    · rcases hrest _ hflight with hstill | ⟨howner, hbytes⟩
      · exact .inr hstill
      · -- it is the one that has arrived
        have hsame : other = alert :=
          hauth.distinct other hother alert halert (congrArg ae.hash hbytes)
        exact .inl (mem_heard_accept.mpr (.inl ⟨howner, hsame⟩))
  owned := h.owned
  symm := h.symm

/-- Marking the peer an alert came from -/
structure Marks (net net' : AlertNet ν κ) : Prop where
  mapAlerts : net'.mapAlerts = net.mapAlerts
  vNodes : net'.vNodes = net.vNodes
  heard : net'.heard = net.heard
  nVersion : ∀ x, (net'.peer x).nVersion = (net.peer x).nVersion
  grows : ∀ x, ∀ hash ∈ (net.peer x).setKnown, hash ∈ (net'.peer x).setKnown

omit [DecidableEq ν] in
theorem peer_mark_some (x : κ) :
    (net.mark ae alert (some c)).peer x
      = if x = c then (net.peer c).know (alert.getHash ae) else net.peer x :=
  Function.update_apply net.peer c _ x

omit [DecidableEq ν] in
theorem marks_mark (pfrom : Option κ) : Marks net (net.mark ae alert pfrom) := by
  cases pfrom with
  | none => exact ⟨rfl, rfl, rfl, fun _ => rfl, fun _ _ h => h⟩
  | some c =>
      refine ⟨rfl, rfl, rfl, fun x => ?_, fun x hash hmem => ?_⟩
      · rw [peer_mark_some]
        split
        · next h =>
            rw [h]
            rfl
        · rfl
      · rw [peer_mark_some]
        split
        · next h => exact mem_know.mpr (.inr (h ▸ hmem))
        · exact hmem

omit [DecidableEq ν] in
theorem Spread.mark (h : Spread ae links honest issued net) (hauth : Authority ae issued)
    (halert : alert ∈ issued) {pfrom : Option κ}
    (hheard : ∀ c, pfrom = some c → HonestLink links honest c →
      alert ∈ net.heard (links.owner (links.far c))) :
    Spread ae links honest issued (net.mark ae alert pfrom) := by
  cases pfrom with
  | none => exact h
  | some c =>
      refine ⟨h.heard, h.keyed, h.frontier, h.flight, fun x hlink hx other hother hmem => ?_, h.owned,
        h.symm⟩
      rw [peer_mark_some] at hmem
      split at hmem
      · next hxc =>
          subst hxc
          rcases mem_know.mp hmem with hhash | hold
          · rw [hauth.distinct other hother alert halert hhash]
            exact .inl (hheard x rfl hlink)
          · exact h.known x hlink hx other hother hold
      · exact h.known x hlink hx other hother hmem

/-- What both hold of -/
def Good (ae : AlertEnv) (links : Links ν κ) (honest : ν → Prop) (issued : Set CAlert)
    (net : AlertNet ν κ) : Prop :=
  Spread ae links honest issued net ∧ Told ae links net

/-- An alert that was issued is processed and relayed. -/
theorem Good.processAlert (h : Good ae links honest issued net) (hauth : Authority ae issued)
    (hwindow : InWindow issued nTime) {raw : CAlert} (halert : alert ∈ issued)
    (hcheck : raw.checkSignature ae = .ok (some alert)) {flight : List (κ × Bytes)}
    (hsub : ∀ x ∈ flight, x ∈ net.flight)
    (hrest : ∀ x ∈ net.flight, x ∈ flight ∨ links.owner x.1 = i ∧ x.2 = alert.serialize)
    (pfrom : Option κ)
    (hfrom : ∀ c, pfrom = some c → HonestLink links honest c →
      alert ∈ net.heard (links.owner (links.far c))) :
    Good ae links honest issued
      (AlertNet.processAlert ae links nTime i pfrom raw { net with flight := flight }) := by
  obtain ⟨hspread, htold⟩ := h
  unfold AlertNet.processAlert
  rw [hcheck]
  dsimp only
  generalize haccept : AlertNet.accept { net with flight := flight } i alert
    ((net.mapAlerts i).add ae nTime alert).2 = got
  have hgot : Spread ae links honest issued got := by
    rw [← haccept]
    exact hspread.accept hauth hwindow halert hsub hrest
  have hmaps : ∀ j, got.mapAlerts j
      = if j = i then ((net.mapAlerts i).add ae nTime alert).2 else net.mapAlerts j := by
    rw [← haccept]
    exact Function.update_apply net.mapAlerts i _
  have hpeer : got.peer = net.peer := by rw [← haccept]; rfl
  have hvNodes : got.vNodes = net.vNodes := by rw [← haccept]; rfl
  have hheard : ∀ j other, other ∈ got.heard j ↔ (j = i ∧ other = alert) ∨ other ∈ net.heard j := by
    rw [← haccept]
    exact fun j other => mem_heard_accept
  split
  · have hmark : Marks got (got.mark ae alert pfrom) := marks_mark pfrom
    have hmid := hgot.mark hauth halert fun c hc hlink =>
      (hheard _ _).mpr (.inr (hfrom c hc hlink))
    obtain ⟨hexp, hrelay⟩ := hwindow alert halert
    generalize got.mark ae alert pfrom = mid at hmark hmid ⊢
    have hloop : Pushes ae links (fun c a => c ∈ mid.vNodes i ∧ a = alert) mid
        ((mid.vNodes i).foldl (AlertNet.relayTo ae links nTime alert) mid) ∧ _ :=
      Pushes.foldl (fun c => c) (fun _ => alert) (mid.vNodes i) (fun _ _ => ⟨hexp, hrelay⟩)
        fun c hc => ⟨hc, rfl⟩
    obtain ⟨hpushes, hall⟩ := hloop
    refine ⟨hmid.pushes hauth hpushes ?_, ?_⟩
    · rintro c a ⟨hc, rfl⟩
      rw [hmid.owned i c hc, hmark.heard]
      exact (hheard _ _).mpr (.inl ⟨rfl, rfl⟩)
    · intro c hc hversion other hother
      rw [hpushes.vNodes, hmark.vNodes, hvNodes] at hc
      rw [hpushes.nVersion, hmark.nVersion, hpeer] at hversion
      rw [hpushes.mapAlerts, hmark.mapAlerts, hmaps] at hother
      have hold : other ∈ (net.mapAlerts (links.owner c)).alerts →
          other.getHash ae ∈ (((mid.vNodes i).foldl
            (AlertNet.relayTo ae links nTime alert) mid).peer c).setKnown := by
        intro hmem
        have hknown := htold c hc hversion other hmem
        rw [← hpeer] at hknown
        exact hpushes.grows c _ (hmark.grows c _ hknown)
      split at hother
      · next hi =>
          rcases MapAlerts.alerts_add_subset hother with rfl | hmem
          · exact hall c (by rw [hmark.vNodes, hvNodes, ← hi]; exact hc)
          · exact hold (by rw [hi]; exact hmem)
      · exact hold hother
  · next hrejected =>
      refine ⟨hgot, fun c hc hversion other hother => ?_⟩
      rw [hvNodes] at hc
      rw [hpeer] at hversion ⊢
      refine htold c hc hversion other ?_
      rw [hmaps] at hother
      split at hother
      · next hi =>
          rw [hi]
          exact alerts_add_rejected (Bool.eq_false_iff.mpr hrejected) hother
      · exact hother

/-- Whatever is given to a node, if what comes through the signature was issued -/
theorem Good.given (h : Good ae links honest issued net) (hauth : Authority ae issued)
    (hwindow : InWindow issued nTime) (raw : CAlert) (pfrom : Option κ)
    (hpfrom : ∀ c, pfrom = some c → ¬ HonestLink links honest c)
    (hraw : ∀ alert, raw.checkSignature ae = .ok (some alert) → alert ∈ issued) :
    Good ae links honest issued (net.processAlert ae links nTime i pfrom raw) := by
  cases hcheck : raw.checkSignature ae with
  | error e =>
      unfold AlertNet.processAlert
      rw [hcheck]
      exact h
  | ok checked =>
      cases checked with
      | none =>
          unfold AlertNet.processAlert
          rw [hcheck]
          exact h
      | some alert =>
          exact h.processAlert hauth hwindow (hraw alert hcheck) hcheck (fun x hx => hx)
            (fun x hx => .inl hx) pfrom fun c hc hlink => absurd hlink (hpfrom c hc)

omit [DecidableEq ν] [DecidableEq κ] in
/-- A message that an honest node sent is read as the alert that it is about. -/
theorem Authority.checkSignature (hauth : Authority ae issued) (halert : alert ∈ issued) {raw : CAlert}
    {rest : Bytes} (hread : CAlert.unserialize alert.serialize = .ok (raw, rest)) :
    raw.checkSignature ae = .ok (some alert) := by
  have hissued := hauth.signed alert halert
  have hback : CAlert.unserialize alert.serialize
      = .ok ({ vchMsg := alert.vchMsg, vchSig := alert.vchSig }, []) := by
    have := CAlert.yields_unserialize hissued.vchMsg_size hissued.vchSig_size []
    rwa [List.append_nil] at this
  rw [hread] at hback
  cases hback
  exact hissued.checkSignature rfl rfl

omit [DecidableEq ν] in
/-- A peer's `version` keeps everything, before the alerts are relayed. -/
theorem Good.setVersion (h : Good ae links honest issued net) (pnode : AlertPeer)
    (hknown : pnode.setKnown = (net.peer c).setKnown) :
    Spread ae links honest issued (net.setPeer c pnode) ∧
      ∀ x, x ≠ c ∨ pnode.nVersion < MIN_PROTO_VERSION → x ∈ net.vNodes (links.owner x) →
        MIN_PROTO_VERSION ≤ ((net.setPeer c pnode).peer x).nVersion →
        ∀ alert ∈ (net.mapAlerts (links.owner x)).alerts,
          alert.getHash ae ∈ ((net.setPeer c pnode).peer x).setKnown := by
  have hpeer : ∀ x, (net.setPeer c pnode).peer x = if x = c then pnode else net.peer x :=
    Function.update_apply net.peer c pnode
  have hset : ∀ x, ((net.setPeer c pnode).peer x).setKnown = (net.peer x).setKnown := by
    intro x
    rw [hpeer]
    split
    · next hx =>
        rw [hx]
        exact hknown
    · rfl
  obtain ⟨hspread, htold⟩ := h
  refine ⟨⟨hspread.heard, hspread.keyed, hspread.frontier, hspread.flight,
    fun x hlink hx alert halert hmem => ?_, hspread.owned, hspread.symm⟩,
    fun x hor hx hversion alert halert => ?_⟩
  · rw [hset] at hmem
    exact hspread.known x hlink hx alert halert hmem
  · rw [hset]
    rw [hpeer] at hversion
    split at hversion
    · next hxc => exact absurd (hor.resolve_left fun hne => hne hxc) (not_lt.mpr hversion)
    · exact htold x hx hversion alert halert

omit [DecidableEq ν] in
theorem Good.onVersion (h : Good ae links honest issued net) (hauth : Authority ae issued)
    (hwindow : InWindow issued nTime) (nVersion : ℤ) (strSubVer : Bytes) :
    Good ae links honest issued (net.onVersion ae links nTime c nVersion strSubVer) := by
  unfold AlertNet.onVersion
  split
  · exact h
  split
  · next hold =>
      obtain ⟨hspread, htold⟩ := h.setVersion (c := c) { net.peer c with nVersion := nVersion } rfl
      exact ⟨hspread, fun x => htold x (.inr hold)⟩
  · dsimp only
    generalize hpnode : ({ net.peer c with
      nVersion := if nVersion = 10300 then 300 else nVersion, strSubVer := strSubVer } : AlertPeer)
      = pnode
    obtain ⟨hspread, htold⟩ := h.setVersion (c := c) pnode (by rw [← hpnode])
    have hmaps : (net.setPeer c pnode).mapAlerts = net.mapAlerts := rfl
    rw [hmaps]
    have hitem : ∀ item ∈ (net.mapAlerts (links.owner c)).toList,
        item.2 ∈ net.heard (links.owner c) := by
      rintro ⟨k, a⟩ hmem
      exact (h.1.frontier (links.owner c)).subset
        ⟨k, ExtTreeMap.mem_toList_iff_getElem?_eq_some.mp hmem⟩
    have hloop : Pushes ae links (fun x a => x = c ∧ a ∈ net.heard (links.owner c))
        (net.setPeer c pnode) _ ∧ _ :=
      Pushes.foldl (fun _ => c) Prod.snd (net.mapAlerts (links.owner c)).toList
        (fun item hmem => hwindow item.2 (h.1.heard _ item.2 (hitem item hmem)))
        fun item hmem => ⟨rfl, hitem item hmem⟩
    obtain ⟨hpushes, hall⟩ := hloop
    refine ⟨hspread.pushes hauth hpushes ?_, fun x hx hversion alert halert => ?_⟩
    · rintro x a ⟨rfl, ha⟩
      exact ha
    · rw [hpushes.vNodes] at hx
      rw [hpushes.nVersion] at hversion
      rw [hpushes.mapAlerts] at halert
      by_cases hxc : x = c
      · subst hxc
        obtain ⟨k, hk⟩ := halert
        exact hall (k, alert) (ExtTreeMap.mem_toList_iff_getElem?_eq_some.mpr hk)
      · exact hpushes.grows x _ (htold x (.inl hxc) hx hversion alert halert)

omit [DecidableEq ν] in
theorem Good.disconnect (h : Good ae links honest issued net) :
    Good ae links honest issued (net.disconnect links c) := by
  have hmem : ∀ (x : κ) (i : ν), x ∈ (net.disconnect links c).vNodes i ↔
      x ∈ net.vNodes i ∧ x ≠ c ∧ x ≠ links.far c := by
    intro x i
    unfold AlertNet.disconnect
    rw [List.mem_filter, decide_eq_true_iff]
  have hpeer : ∀ x, x ≠ c → x ≠ links.far c → (net.disconnect links c).peer x = net.peer x := by
    intro x hc hfar
    unfold AlertNet.disconnect
    dsimp only
    rw [if_pos (decide_eq_true ⟨hc, hfar⟩)]
  have hflight : ∀ x, x ∈ (net.disconnect links c).flight ↔
      x ∈ net.flight ∧ x.1 ≠ c ∧ x.1 ≠ links.far c := by
    intro x
    unfold AlertNet.disconnect
    rw [List.mem_filter, decide_eq_true_iff]
  -- the other end is not one of the two either
  have hother : ∀ x, x ≠ c → x ≠ links.far c → links.far x ≠ c ∧ links.far x ≠ links.far c := by
    intro x hc hfar
    refine ⟨fun heq => hfar ?_, fun heq => hc ?_⟩
    · rw [← heq, links.far_far]
    · rw [← links.far_far x, heq, links.far_far]
  obtain ⟨hspread, htold⟩ := h
  refine ⟨⟨hspread.heard, hspread.keyed, hspread.frontier, fun x hx => ?_,
    fun x hlink hx alert halert hknown => ?_, fun i x hx => ?_, fun x hx => ?_⟩,
    fun x hx hversion alert halert => ?_⟩
  · exact hspread.flight x ((hflight x).mp hx).1
  · obtain ⟨hx, hc, hfar⟩ := (hmem x _).mp hx
    rw [hpeer x hc hfar] at hknown
    rcases hspread.known x hlink hx alert halert hknown with hheard | hold
    · exact .inl hheard
    · exact .inr ((hflight _).mpr ⟨hold, hother x hc hfar⟩)
  · exact hspread.owned i x ((hmem x i).mp hx).1
  · obtain ⟨hx, hc, hfar⟩ := (hmem x _).mp hx
    exact (hmem _ _).mpr ⟨hspread.symm x hx, hother x hc hfar⟩
  · obtain ⟨hx, hc, hfar⟩ := (hmem x _).mp hx
    rw [hpeer x hc hfar] at hversion ⊢
    exact htold x hx hversion alert halert

theorem mem_connect (net : AlertNet ν κ) (x : κ) (i : ν) :
    x ∈ (net.connect links c).vNodes i ↔ (x = c ∧ i = links.owner c) ∨
      (x = links.far c ∧ i = links.owner (links.far c)) ∨
      x ∈ (net.disconnect links c).vNodes i := by
  have hadd : ∀ (vNodes : ν → List κ) (c : κ),
      x ∈ Function.update vNodes (links.owner c) (c :: vNodes (links.owner c)) i ↔
        (x = c ∧ i = links.owner c) ∨ x ∈ vNodes i := by
    intro vNodes c
    rw [Function.update_apply]
    split
    · next h => simp [h]
    · next h => simp [h]
  have hconnect := (hadd (Function.update (net.disconnect links c).vNodes (links.owner c)
    (c :: (net.disconnect links c).vNodes (links.owner c))) (links.far c)).trans
    (or_congr_right (hadd (net.disconnect links c).vNodes c))
  rw [or_left_comm] at hconnect
  exact hconnect

omit [DecidableEq ν] in
theorem peer_disconnect (net : AlertNet ν κ) {x : κ} (h : x = c ∨ x = links.far c) :
    (net.disconnect links c).peer x = {} := by
  unfold AlertNet.disconnect
  dsimp only
  rw [if_neg]
  rw [decide_eq_true_iff, not_and_or, not_ne_iff, not_ne_iff]
  exact h

theorem Good.connect (h : Good ae links honest issued net) :
    Good ae links honest issued (net.connect links c) := by
  obtain ⟨hspread, htold⟩ := h.disconnect (c := c)
  have hnew : ∀ x, x ∈ (net.connect links c).vNodes (links.owner x) →
      x = c ∨ x = links.far c ∨ x ∈ (net.disconnect links c).vNodes (links.owner x) := by
    intro x hx
    rcases (mem_connect net x _).mp hx with ⟨hc, -⟩ | ⟨hfar, -⟩ | hold
    · exact .inl hc
    · exact .inr (.inl hfar)
    · exact .inr (.inr hold)
  refine ⟨⟨hspread.heard, hspread.keyed, hspread.frontier, hspread.flight,
    fun x hlink hx alert halert hknown => ?_, fun i x hx => ?_, fun x hx => ?_⟩,
    fun x hx hversion alert halert => ?_⟩
  · have hempty : x = c ∨ x = links.far c → alert.getHash ae ∉ ((net.connect links c).peer x).setKnown := by
      intro hor
      show _ ∉ ((net.disconnect links c).peer x).setKnown
      rw [peer_disconnect net hor]
      exact ExtTreeSet.not_mem_empty
    rcases hnew x hx with hc | hfar | hold
    · exact absurd hknown (hempty (.inl hc))
    · exact absurd hknown (hempty (.inr hfar))
    · exact hspread.known x hlink hold alert halert hknown
  · rcases (mem_connect net x i).mp hx with ⟨rfl, rfl⟩ | ⟨rfl, rfl⟩ | hold
    · rfl
    · rfl
    · exact hspread.owned i x hold
  · rw [mem_connect]
    rcases hnew x hx with rfl | rfl | hold
    · exact .inr (.inl ⟨rfl, rfl⟩)
    · rw [links.far_far]
      exact .inl ⟨rfl, rfl⟩
    · exact .inr (.inr (hspread.symm x hold))
  · have hzero : ¬ (x = c ∨ x = links.far c) := by
      intro hor
      have hpeer : (net.connect links c).peer x = {} := peer_disconnect net hor
      rw [hpeer] at hversion
      exact absurd hversion (by decide)
    rcases hnew x hx with hc | hfar | hold
    · exact absurd (.inl hc) hzero
    · exact absurd (.inr hfar) hzero
    · exact htold x hold hversion alert halert

theorem Good.forge (h : Good ae links honest issued net) (hauth : Authority ae issued)
    (hwindow : InWindow issued nTime) (payload : Bytes) (hlink : ¬ HonestLink links honest c)
    (hpayload : ∀ raw rest alert, CAlert.unserialize payload = .ok (raw, rest) →
      raw.checkSignature ae = .ok (some alert) → alert ∈ issued) :
    Good ae links honest issued (net.onAlert ae links nTime c payload) := by
  unfold AlertNet.onAlert
  split
  · exact h
  split
  · exact h
  · next raw rest hread =>
      refine h.given hauth hwindow raw (some c) (fun x hx => ?_) fun alert => hpayload raw rest alert hread
      cases hx
      exact hlink

omit [DecidableEq ν] [DecidableEq κ] in
/-- What one index is about is all that is lost there. -/
theorem mem_eraseIdx_or {β : Type} {xs : List β} {n : Nat} {y : β} (hget : xs[n]? = some y) {x : β}
    (hx : x ∈ xs) : x ∈ xs.eraseIdx n ∨ x = y := by
  by_cases hxy : x = y
  · exact .inr hxy
  · refine .inl (List.mem_eraseIdx_iff_getElem?.mpr ?_)
    obtain ⟨k, hk⟩ := List.getElem?_of_mem hx
    refine ⟨k, fun hkn => hxy ?_, hk⟩
    rw [hkn, hget] at hk
    cases hk
    rfl

/-- An alert that is on the way arrives. -/
theorem Good.deliver (h : Good ae links honest issued net) (hauth : Authority ae issued)
    (hwindow : InWindow issued nTime) {n : Nat} {payload : Bytes}
    (hget : net.flight[n]? = some (c, payload))
    (hversion : HonestLink links honest c → (net.peer c).nVersion ≠ 0) :
    Good ae links honest issued
      (AlertNet.onAlert ae links nTime c payload { net with flight := net.flight.eraseIdx n }) := by
  obtain ⟨alert, hheard, hpayload⟩ := h.1.flight _ (List.mem_of_getElem? hget)
  have halert := h.1.heard _ alert hheard
  dsimp only at hpayload hheard
  have hsub : ∀ x ∈ net.flight.eraseIdx n, x ∈ net.flight := fun x hx => List.mem_of_mem_eraseIdx hx
  unfold AlertNet.onAlert
  split
  · next hzero =>
      -- dropped; both ends honest, it would not have come
      have hlink : ¬ HonestLink links honest c := fun hlink => hversion hlink hzero
      obtain ⟨hspread, htold⟩ := h
      refine ⟨⟨hspread.heard, hspread.keyed, hspread.frontier, fun x hx => hspread.flight x (hsub x hx),
        fun x hx hmem other hother hknown => ?_, hspread.owned, hspread.symm⟩, htold⟩
      rcases hspread.known x hx hmem other hother hknown with hold | hflight
      · exact .inl hold
      · rcases mem_eraseIdx_or hget hflight with hstill | heq
        · exact .inr hstill
        · rw [← (Prod.mk.inj heq).1] at hlink
          refine absurd ⟨hx.2, ?_⟩ hlink
          rw [links.far_far]
          exact hx.1
  · split
    · next hread =>
        rw [hpayload] at hread
        have hissued := hauth.signed alert halert
        have hback := CAlert.yields_unserialize hissued.vchMsg_size hissued.vchSig_size []
        rw [List.append_nil] at hback
        exact absurd (hread.symm.trans hback) (by simp)
    · next raw rest hread =>
        rw [hpayload] at hread
        have hcheck := hauth.checkSignature halert hread
        refine h.processAlert hauth hwindow halert hcheck hsub (fun x hx => ?_) (some c) ?_
        · rcases mem_eraseIdx_or hget hx with hstill | rfl
          · exact .inl hstill
          · exact .inr ⟨rfl, hpayload⟩
        · rintro x hx -
          cases hx
          exact hheard

theorem Good.exec (h : Good ae links honest issued net) (hauth : Authority ae issued)
    {op : Op ν κ} (hok : Fair ae links honest issued net op) :
    Good ae links honest issued (net.exec ae links op) := by
  cases op with
  | connect c => exact h.connect
  | disconnect c => exact h.disconnect
  | version nTime c nVersion strSubVer => exact h.onVersion hauth hok nVersion strSubVer
  | sendalert nTime i raw =>
      obtain ⟨hwindow, hraw⟩ := hok
      exact h.given hauth hwindow raw none (fun c hc => by cases hc) hraw
  | deliver nTime n =>
      obtain ⟨hwindow, hversion⟩ := hok
      unfold AlertNet.exec
      dsimp only
      split
      · exact h
      · next c payload hget => exact h.deliver hauth hwindow hget (hversion c payload hget)
  | forge nTime c payload =>
      obtain ⟨hwindow, hlink, hpayload⟩ := hok
      exact h.forge hauth hwindow payload hlink hpayload

omit [DecidableEq ν] [DecidableEq κ] in
theorem good_start : Good ae links honest issued (start : AlertNet ν κ) := by
  refine ⟨⟨fun i a ha => (List.not_mem_nil ha).elim, fun i => MapAlerts.keyed_empty ae, fun i => ?_,
    fun x hx => (List.not_mem_nil hx).elim, fun c _ hc => (List.not_mem_nil hc).elim,
    fun i c hc => (List.not_mem_nil hc).elim, fun c hc => (List.not_mem_nil hc).elim⟩,
    fun c hc => (List.not_mem_nil hc).elim⟩
  have hnone : {a : CAlert | a ∈ (start : AlertNet ν κ).heard i} = ∅ := by
    ext a
    exact ⟨fun h => (List.not_mem_nil h).elim, fun h => h.elim⟩
  rw [hnone]
  show Lib.Frontier MapAlerts.Covers ∅ (∅ : MapAlerts).alerts
  rw [MapAlerts.alerts_empty]
  exact Lib.frontier_empty

theorem Run.good (hauth : Authority ae issued)
    (hrun : Run ae links (Fair ae links honest issued) net) : Good ae links honest issued net := by
  induction hrun with
  | start => exact good_start
  | step op hrun hok ih => exact ih.exec hauth hok

/-- In any run, whatever others send and whenever it comes: over a connection a node pushes no alert
twice, and what it pushed it remembers. -/
theorem pushed_once {ok : AlertNet ν κ → Op ν κ → Prop} (hrun : Run ae links ok net) :
    net.pushed.Nodup ∧ ∀ x ∈ net.pushed, x.2 ∈ (net.peer x.1).setKnown :=
  ⟨hrun.once.nodup, hrun.once.known⟩

/-- A connection between honest nodes over which the `version` has come -/
def Connected (links : Links ν κ) (honest : ν → Prop) (net : AlertNet ν κ) (i j : ν) : Prop :=
  ∃ c, c ∈ net.vNodes i ∧ links.owner (links.far c) = j ∧ HonestLink links honest c ∧
    MIN_PROTO_VERSION ≤ (net.peer c).nVersion ∧
    MIN_PROTO_VERSION ≤ (net.peer (links.far c)).nVersion

omit [DecidableEq ν] [DecidableEq κ] in
/-- With nothing on the way to it, a peer has heard what the node has. -/
theorem Good.told_heard (h : Good ae links honest issued net) (hlink : HonestLink links honest c)
    (hc : c ∈ net.vNodes (links.owner c)) (hversion : MIN_PROTO_VERSION ≤ (net.peer c).nVersion)
    (hquiet : ∀ payload, (links.far c, payload) ∉ net.flight) :
    (net.mapAlerts (links.owner c)).alerts
      ⊆ {alert | alert ∈ net.heard (links.owner (links.far c))} := by
  obtain ⟨hspread, htold⟩ := h
  intro alert halert
  have hissued := hspread.heard _ alert ((hspread.frontier _).subset halert)
  have hknown := htold c hc hversion alert halert
  exact (hspread.known c hlink hc alert hissued hknown).resolve_right (hquiet _)

omit [DecidableEq ν] [DecidableEq κ] in
theorem Good.connected_eq (h : Good ae links honest issued net)
    (hquiet : ∀ c payload, HonestLink links honest c → (c, payload) ∉ net.flight) {j : ν}
    (hconnected : Connected links honest net i j) : net.mapAlerts i = net.mapAlerts j := by
  obtain ⟨c, hc, hj, hlink, hversion, hversion'⟩ := hconnected
  have hi := h.1.owned i c hc
  subst hi hj
  have hback : HonestLink links honest (links.far c) := ⟨hlink.2, by rw [links.far_far]; exact hlink.1⟩
  have hto := h.told_heard hlink hc hversion fun payload => hquiet _ payload hback
  have hfrom := h.told_heard hback (h.1.symm c hc) hversion' fun payload => by
    rw [links.far_far]
    exact hquiet c payload hlink
  rw [links.far_far] at hfrom
  apply MapAlerts.ext_alerts (h.1.keyed _) (h.1.keyed _)
  exact Lib.maxima_eq_of_heard (h.1.frontier _) (h.1.frontier _) hto hfrom

/-- Honest nodes that are connected over honest nodes have the same alerts once no alert is on the way
between honest nodes, in any order of connecting, disconnecting and receiving, whatever the other
nodes send: and each alert that one of them was given is among them, or one that cancels it is. -/
theorem agree (ae : AlertEnv) (links : Links ν κ) (honest : ν → Prop) (issued : Set CAlert)
    (hauth : Authority ae issued) {net : AlertNet ν κ}
    (hrun : Run ae links (Fair ae links honest issued) net)
    (hquiet : ∀ c payload, HonestLink links honest c → (c, payload) ∉ net.flight) {i j : ν}
    (hpath : Relation.ReflTransGen (Connected links honest net) i j) :
    net.mapAlerts i = net.mapAlerts j ∧
      ∀ alert ∈ net.heard i, ∃ other ∈ (net.mapAlerts j).alerts,
        other = alert ∨ MapAlerts.Covers other alert := by
  have hgood := hrun.good hauth
  have hsame : net.mapAlerts i = net.mapAlerts j := by
    induction hpath with
    | refl => rfl
    | tail hpath hlast ih => exact ih.trans (hgood.connected_eq hquiet hlast)
  refine ⟨hsame, fun alert halert => ?_⟩
  rw [← hsame]
  rcases (hgood.1.frontier i).covered alert halert with hin | ⟨other, hother, hcovers⟩
  · exact ⟨alert, hin, .inl rfl⟩
  · exact ⟨other, hother, .inr hcovers⟩

end

/-- Two nodes and the connection between them -/
def sampleLinks : Links Bool Bool where
  owner c := c
  far c := !c
  far_far := Bool.not_not

/-- Both nodes get an alert of their own; the second one cancels the first one. -/
def sampleOps : List (Op Bool Bool) :=
  [.connect true, .version 1 true 60008 [], .version 1 false 60008 [],
    .sendalert 2 true (MapAlerts.sampleAlert 1 0), .sendalert 3 false (MapAlerts.sampleAlert 3 2),
    .deliver 4 1, .deliver 5 0]

def sampleNet (n : Nat) : AlertNet Bool Bool :=
  (sampleOps.take n).foldl (exec MapAlerts.sampleEnv sampleLinks) start

def sampleIssued : Set CAlert := {MapAlerts.sampleAlert 1 0, MapAlerts.sampleAlert 3 2}

theorem authority_sampleIssued : Authority MapAlerts.sampleEnv sampleIssued := by
  have hsample : ∀ alert ∈ sampleIssued, alert ∈ MapAlerts.sampleMessages.map Prod.snd := by
    rintro alert (rfl | rfl) <;> simp [MapAlerts.sampleMessages]
  have hall := MapAlerts.consistent_sampleMessages fun x hx => hx
  refine ⟨fun alert halert => ?_, hall.strict.mono hsample,
    fun a ha b hb => hall.distinct a (hsample a ha) b (hsample b hb)⟩
  obtain ⟨x, hx, rfl⟩ := List.mem_map.mp (hsample alert halert)
  exact hall.issued x hx

theorem inWindow_sampleIssued {nTime : ℤ} (h : nTime < 1000) : InWindow sampleIssued nTime := by
  rintro alert (rfl | rfl)
  · exact ⟨h, h⟩
  · exact ⟨h, h⟩

theorem run_sampleNet : Run MapAlerts.sampleEnv sampleLinks
    (Fair MapAlerts.sampleEnv sampleLinks (fun _ => True) sampleIssued) (sampleNet 7) := by
  have hissued : ∀ {alert : CAlert}, alert ∈ sampleIssued → ∀ other,
      alert.checkSignature MapAlerts.sampleEnv = .ok (some other) → other ∈ sampleIssued := by
    intro alert halert other hcheck
    rw [(authority_sampleIssued.signed alert halert).checkSignature rfl rfl] at hcheck
    cases hcheck
    exact halert
  have hversion : ∀ n ∈ [5, 6], ∀ c, ((sampleNet n).peer c).nVersion ≠ 0 := by decide +kernel
  have h0 : Run MapAlerts.sampleEnv sampleLinks
    (Fair MapAlerts.sampleEnv sampleLinks (fun _ => True) sampleIssued) (sampleNet 0) := .start
  have h1 : Run _ _ _ (sampleNet 1) := .step (.connect true) h0 trivial
  have h2 : Run _ _ _ (sampleNet 2) :=
    .step (.version 1 true 60008 []) h1 (inWindow_sampleIssued (by decide))
  have h3 : Run _ _ _ (sampleNet 3) :=
    .step (.version 1 false 60008 []) h2 (inWindow_sampleIssued (by decide))
  have h4 : Run _ _ _ (sampleNet 4) :=
    .step (.sendalert 2 true _) h3 ⟨inWindow_sampleIssued (by decide), hissued (.inl rfl)⟩
  have h5 : Run _ _ _ (sampleNet 5) :=
    .step (.sendalert 3 false _) h4 ⟨inWindow_sampleIssued (by decide), hissued (.inr rfl)⟩
  have h6 : Run _ _ _ (sampleNet 6) :=
    .step (.deliver 4 1) h5
      ⟨inWindow_sampleIssued (by decide), fun c _ _ _ => hversion 5 (by decide) c⟩
  exact .step (.deliver 5 0) h6
    ⟨inWindow_sampleIssued (by decide), fun c _ _ _ => hversion 6 (by decide) c⟩

theorem agree_sampleNet : (sampleNet 7).mapAlerts true = (sampleNet 7).mapAlerts false := by
  refine (agree MapAlerts.sampleEnv sampleLinks (fun _ => True) sampleIssued authority_sampleIssued
    run_sampleNet ?_ (.single ⟨true, ?_, rfl, ⟨trivial, trivial⟩, ?_, ?_⟩)).1
  · intro c payload _
    have hnone : (sampleNet 7).flight = [] := by decide +kernel
    rw [hnone]
    exact List.not_mem_nil
  · decide +kernel
  · decide +kernel
  · decide +kernel

theorem pushed_once_sampleNet : (sampleNet 7).pushed.Nodup := (pushed_once run_sampleNet).1

end AlertNet

end ShinyCoin

import ShinyCoin.Net.MruSet
import ShinyCoin.Pool.Orphans

/-!
# Inventories

A node offers a transaction by its inventory, is asked for it, and sends it from `mapRelay`, where it
is kept for 15 minutes. What is offered to a peer and what is asked of it wait in lists of its
`CNode`; `SendMessages` empties them into messages of at most 1000 inventories.
-/

namespace ShinyCoin

open Std (ExtTreeMap TransCmp LawfulEqCmp)

def MSG_TX : ℤ := 1

def MSG_SIGNED_HASH : ℤ := 3

def PROTOCOL_VERSION_SIGNEDHASH_START : ℤ := 60005

structure CInv where
  type : ℤ
  hash : Uint256
deriving DecidableEq, Repr

/-- `operator<`: by the types, then by the hashes -/
def CInv.cmp : CInv → CInv → Ordering := compareLex (compareOn CInv.type) (compareOn CInv.hash)

instance : TransCmp CInv.cmp := inferInstanceAs (TransCmp (compareLex _ _))

instance : LawfulEqCmp CInv.cmp where
  eq_of_compare {a b} h := by
    obtain ⟨htype, hhash⟩ := Ordering.then_eq_eq.mp h
    cases a
    cases b
    congr
    · exact LawfulEqCmp.eq_of_compare htype
    · exact LawfulEqCmp.eq_of_compare hhash

/-- `CInv(MSG_TX, hash)` -/
def CInv.tx (hash : Uint256) : CInv := { type := MSG_TX, hash }

/-- `CNode`, as far as inventories go -/
structure InvPeer where
  nVersion : ℤ := 0
  setInventoryKnown : Mruset CInv CInv.cmp
  vInventoryToSend : List CInv := []
  /-- A `multimap`: sorted by the times, of equal times the latest entry last -/
  mapAskFor : List (ℤ × CInv) := []

namespace InvPeer

/-- A new `CNode`, with `SendBufferSize()` -/
def new (nSendBufferSize : Nat) : InvPeer where
  setInventoryKnown := ((Mruset.ofMaxSize CInv.cmp 0).maxSize (nSendBufferSize / 1000)).1

def addInventoryKnown (pnode : InvPeer) (inv : CInv) : InvPeer :=
  { pnode with setInventoryKnown := (pnode.setInventoryKnown.insert inv).1 }

def pushInventory (pnode : InvPeer) (inv : CInv) : InvPeer :=
  if pnode.nVersion < PROTOCOL_VERSION_SIGNEDHASH_START ∧ inv.type = MSG_SIGNED_HASH then pnode
  else if pnode.setInventoryKnown.count inv = 0 then
    { pnode with vInventoryToSend := pnode.vInventoryToSend ++ [inv] }
  else pnode

end InvPeer

/-! ## Asking -/

/-- When a node has asked for what: `mapAlreadyAskedFor`, and the `nLastTime` of `AskFor`. Times are in
microseconds. -/
structure AskTimes where
  mapAlreadyAskedFor : ExtTreeMap CInv ℤ CInv.cmp := ∅
  nLastTime : ℤ := 0

/-- `multimap::insert` -/
def insertMulti {α : Type} (item : ℤ × α) : List (ℤ × α) → List (ℤ × α)
  | [] => [item]
  | x :: xs => if item.1 < x.1 then item :: x :: xs else x :: insertMulti item xs

/-- `AskFor`: the first request can be sent at once, each retry 2 minutes after the last -/
def askFor (nTime : ℤ) (inv : CInv) (times : AskTimes) (pnode : InvPeer) : AskTimes × InvPeer :=
  -- "Make sure not to reuse time indexes to keep things in the same order"
  let nNow := max ((nTime - 1) * 1000000) (times.nLastTime + 1)
  let nRequestTime := max (times.mapAlreadyAskedFor.getD inv 0 + 2 * 60 * 1000000) nNow
  ({ mapAlreadyAskedFor := times.mapAlreadyAskedFor.insert inv nRequestTime, nLastTime := nNow },
    { pnode with mapAskFor := insertMulti (nRequestTime, inv) pnode.mapAskFor })

/-! ## Relaying -/

/-- `mapRelay` and `vRelayExpiration` -/
structure RelayMemory where
  mapRelay : ExtTreeMap CInv CDataStream CInv.cmp := ∅
  vRelayExpiration : List (ℤ × CInv) := []

/-- "Expire old relay messages" -/
def RelayMemory.expire (nTime : ℤ) :
    List (ℤ × CInv) → ExtTreeMap CInv CDataStream CInv.cmp → RelayMemory
  | [], mapRelay => { mapRelay }
  | x :: rest, mapRelay =>
      if x.1 < nTime then expire nTime rest (mapRelay.erase x.2)
      else { mapRelay, vRelayExpiration := x :: rest }

/-- `RelayMessage`, without `RelayInventory` at its end -/
def RelayMemory.relayMessage (nTime : ℤ) (inv : CInv) (ss : CDataStream) (m : RelayMemory) :
    RelayMemory :=
  let m := expire nTime m.vRelayExpiration m.mapRelay
  -- `map::insert`: what is there stays
  { mapRelay := m.mapRelay.insertIfNew inv ss
    vRelayExpiration := m.vRelayExpiration ++ [(nTime + 15 * 60, inv)] }

/-! ## Messages of at most 1000 inventories -/

/-- A `vInv` that is pushed and cleared when it has 1000 elements -/
structure InvBatch where
  sent : List (List CInv) := []
  vInv : List CInv := []

namespace InvBatch

def push (b : InvBatch) (inv : CInv) : InvBatch :=
  let vInv := b.vInv ++ [inv]
  if 1000 ≤ vInv.length then { sent := b.sent ++ [vInv], vInv := [] } else { b with vInv }

/-- `if (!vInv.empty())`: the messages, the last one with what is left -/
def flush (b : InvBatch) : List (List CInv) :=
  if b.vInv.isEmpty then b.sent else b.sent ++ [b.vInv]

end InvBatch

/-- The loop over `vInventoryToSend` -/
structure Offering where
  setInventoryKnown : Mruset CInv CInv.cmp
  vInvWait : List CInv := []
  batch : InvBatch := {}

def Offering.offer (fSendTrickle : Bool) (fTrickleWait : Uint256 → Bool) (o : Offering) (inv : CInv) :
    Offering :=
  if o.setInventoryKnown.count inv ≠ 0 then o
  -- "trickle out tx inv to protect privacy"
  else if inv.type = MSG_TX ∧ fSendTrickle = false ∧ fTrickleWait inv.hash = true then
    { o with vInvWait := o.vInvWait ++ [inv] }
  else
    match o.setInventoryKnown.insert inv with
    | (m, .inserted _ true) => { o with setInventoryKnown := m, batch := o.batch.push inv }
    | (m, _) => { o with setInventoryKnown := m }

/-- The `inv` messages of `SendMessages`. Which inventories wait is random, but the own transactions
always do. -/
def InvPeer.offer (fSendTrickle : Bool) (fTrickleWait : Uint256 → Bool) (pto : InvPeer) :
    InvPeer × List (List CInv) :=
  let o := pto.vInventoryToSend.foldl (Offering.offer fSendTrickle fTrickleWait)
    { setInventoryKnown := pto.setInventoryKnown }
  ({ pto with setInventoryKnown := o.setInventoryKnown, vInventoryToSend := o.vInvWait },
    o.batch.flush)

/-- The loop over `mapAskFor` -/
structure Asking where
  mapAlreadyAskedFor : ExtTreeMap CInv ℤ CInv.cmp
  batch : InvBatch := {}

def Asking.ask (fHave : CInv → Bool) (nNow : ℤ) :
    List (ℤ × CInv) → Asking → Asking × List (ℤ × CInv)
  | [], a => (a, [])
  | (nRequestTime, inv) :: rest, a =>
      if nRequestTime ≤ nNow then
        ask fHave nNow rest
          { mapAlreadyAskedFor := a.mapAlreadyAskedFor.insert inv nNow
            batch := if fHave inv then a.batch else a.batch.push inv }
      else (a, (nRequestTime, inv) :: rest)

/-- The `getdata` messages of `SendMessages`, with `AlreadyHave` -/
def InvPeer.ask (fHave : CInv → Bool) (nTime : ℤ) (times : AskTimes) (pto : InvPeer) :
    AskTimes × InvPeer × List (List CInv) :=
  let (a, mapAskFor) := Asking.ask fHave (nTime * 1000000) pto.mapAskFor
    { mapAlreadyAskedFor := times.mapAlreadyAskedFor }
  ({ times with mapAlreadyAskedFor := a.mapAlreadyAskedFor }, { pto with mapAskFor }, a.batch.flush)

/-! ## What the lists hold -/

theorem mem_insertMulti {α : Type} {item x : ℤ × α} {xs : List (ℤ × α)} :
    x ∈ insertMulti item xs ↔ x = item ∨ x ∈ xs := by
  induction xs with
  | nil => simp [insertMulti]
  | cons y xs ih =>
      unfold insertMulti
      split
      · exact List.mem_cons
      · rw [List.mem_cons, ih, List.mem_cons, or_left_comm]

theorem Mruset.mem_insert {m : Mruset CInv CInv.cmp} {x y : CInv} (h : y ∈ (m.insert x).1.set) :
    y = x ∨ y ∈ m.set := by
  have hinsert : y ∈ m.set.insert x → y = x ∨ y ∈ m.set := by
    intro hy
    rw [Std.ExtTreeSet.mem_insert, LawfulEqCmp.compare_eq_iff_eq, eq_comm] at hy
    exact hy
  rcases m.insert_cases x with ⟨z, -, heq⟩ | ⟨-, -, oldest, rest, -, heq⟩ | ⟨-, -, heq⟩
  · rw [heq] at h
    exact .inr h
  · rw [heq] at h
    exact hinsert (Std.ExtTreeSet.mem_of_mem_erase h)
  · rw [heq] at h
    exact hinsert h

theorem Mruset.count_eq_zero {m : Mruset CInv CInv.cmp} {x : CInv} : m.count x = 0 ↔ x ∉ m.set := by
  unfold count
  rw [← Std.ExtTreeSet.contains_iff_mem]
  split <;> simp_all

namespace InvBatch

variable {b : InvBatch}

def all (b : InvBatch) : List CInv := b.sent.flatten ++ b.vInv

/-- Only the last message can have fewer than 1000 inventories, and none has more. -/
def Short (b : InvBatch) : Prop := (∀ vInv ∈ b.sent, vInv.length ≤ 1000) ∧ b.vInv.length < 1000

theorem all_push (b : InvBatch) (inv : CInv) : (b.push inv).all = b.all ++ [inv] := by
  unfold push all
  dsimp only
  split <;> simp

theorem Short.push (h : b.Short) (inv : CInv) : (b.push inv).Short := by
  obtain ⟨hsent, hlen⟩ := h
  unfold InvBatch.push
  dsimp only
  split
  · refine ⟨fun vInv hmem => ?_, Nat.zero_lt_succ _⟩
    rcases List.mem_append.mp hmem with hold | hnew
    · exact hsent vInv hold
    · rw [List.mem_singleton.mp hnew, List.length_append, List.length_singleton]
      omega
  · next hshort => exact ⟨hsent, Nat.lt_of_not_le hshort⟩

theorem short_new : ({} : InvBatch).Short :=
  ⟨fun _ h => (List.not_mem_nil h).elim, Nat.zero_lt_succ _⟩

theorem mem_flush {inv : CInv} : (∃ vInv ∈ b.flush, inv ∈ vInv) ↔ inv ∈ b.all := by
  unfold flush all
  split
  · next hnil => simp [List.isEmpty_iff.mp hnil]
  · simp [or_and_right, exists_or]

theorem Short.length_flush (h : b.Short) : ∀ vInv ∈ b.flush, vInv.length ≤ 1000 := by
  intro vInv hmem
  unfold flush at hmem
  split at hmem
  · exact h.1 vInv hmem
  · rcases List.mem_append.mp hmem with hold | hnew
    · exact h.1 vInv hold
    · rw [List.mem_singleton.mp hnew]
      exact h.2.le

end InvBatch

/-- Of the loop over `vInventoryToSend`, after the inventories `done`: each of them was known, or is in
a message, or waits. -/
structure Offers (before : CInv → Prop) (done : List CInv) (o : Offering) : Prop where
  short : o.batch.Short
  known : ∀ inv ∈ o.setInventoryKnown.set, before inv ∨ inv ∈ o.batch.all
  placed : ∀ inv ∈ done, before inv ∨ inv ∈ o.batch.all ∨ inv ∈ o.vInvWait
  sent : ∀ inv ∈ o.batch.all, inv ∈ done
  waits : ∀ inv ∈ o.vInvWait, inv ∈ done

section

variable {before : CInv → Prop} {done : List CInv} {o : Offering} (fSendTrickle : Bool)
  (fTrickleWait : Uint256 → Bool)

theorem Offers.offer (h : Offers before done o) (inv : CInv) :
    Offers before (done ++ [inv]) (o.offer fSendTrickle fTrickleWait inv) := by
  have hdone : ∀ x ∈ done, x ∈ done ++ [inv] := fun x hx => List.mem_append_left _ hx
  have hlast : inv ∈ done ++ [inv] := List.mem_append_right _ (List.mem_singleton_self inv)
  unfold Offering.offer
  by_cases hcount : o.setInventoryKnown.count inv = 0
  · rw [if_neg (not_not_intro hcount)]
    have hnew := Mruset.count_eq_zero.mp hcount
    split
    · -- it waits
      refine ⟨h.short, h.known, fun x hx => ?_, fun x hx => hdone x (h.sent x hx), fun x hx => ?_⟩
      · rcases List.mem_append.mp hx with hx | hx
        · rcases h.placed x hx with hknown | hsent | hwait
          · exact .inl hknown
          · exact .inr (.inl hsent)
          · exact .inr (.inr (List.mem_append_left _ hwait))
        · exact .inr (.inr (List.mem_append_right _ hx))
      · rcases List.mem_append.mp hx with hx | hx
        · exact hdone x (h.waits x hx)
        · exact List.mem_append_right _ hx
    · have hreply := Mruset.reply_insert hnew
      have hinsert : o.setInventoryKnown.insert inv
          = ((o.setInventoryKnown.insert inv).1, .inserted inv true) := Prod.ext rfl hreply
      rw [hinsert]
      dsimp only
      refine ⟨h.short.push inv, fun x hx => ?_, fun x hx => ?_, fun x hx => ?_,
        fun x hx => hdone x (h.waits x hx)⟩
      · rw [InvBatch.all_push, List.mem_append, List.mem_singleton]
        rcases Mruset.mem_insert hx with rfl | hx
        · exact .inr (.inr rfl)
        · exact (h.known x hx).imp_right .inl
      · rw [InvBatch.all_push, List.mem_append]
        rcases List.mem_append.mp hx with hx | hx
        · exact (h.placed x hx).imp_right fun hrest => hrest.imp_left .inl
        · exact .inr (.inl (.inr hx))
      · rw [InvBatch.all_push] at hx
        rcases List.mem_append.mp hx with hx | hx
        · exact hdone x (h.sent x hx)
        · exact List.mem_append_right _ hx
  · rw [if_pos hcount]
    refine ⟨h.short, h.known, fun x hx => ?_, fun x hx => hdone x (h.sent x hx),
      fun x hx => hdone x (h.waits x hx)⟩
    rcases List.mem_append.mp hx with hx | hx
    · exact h.placed x hx
    · -- a known one was known before, or is in a message
      rw [List.mem_singleton.mp hx]
      have hmem : inv ∈ o.setInventoryKnown.set := by
        by_contra hnot
        exact hcount (Mruset.count_eq_zero.mpr hnot)
      exact (h.known inv hmem).imp_right .inl

theorem Offers.foldl (h : Offers before done o) (invs : List CInv) :
    Offers before (done ++ invs) (invs.foldl (Offering.offer fSendTrickle fTrickleWait) o) := by
  induction invs generalizing done o with
  | nil =>
      rw [List.append_nil]
      exact h
  | cons inv invs ih =>
      have hnext := ih (h.offer fSendTrickle fTrickleWait inv)
      rw [List.append_assoc] at hnext
      exact hnext

end

/-- `pto'` is `pto` after the `inv` messages `sent`. -/
structure InvPeer.Offered (pto pto' : InvPeer) (sent : List (List CInv)) : Prop where
  nVersion : pto'.nVersion = pto.nVersion
  mapAskFor : pto'.mapAskFor = pto.mapAskFor
  known : ∀ inv ∈ pto'.setInventoryKnown.set,
    inv ∈ pto.setInventoryKnown.set ∨ ∃ vInv ∈ sent, inv ∈ vInv
  placed : ∀ inv ∈ pto.vInventoryToSend, inv ∈ pto.setInventoryKnown.set ∨
    (∃ vInv ∈ sent, inv ∈ vInv) ∨ inv ∈ pto'.vInventoryToSend
  waits : ∀ inv ∈ pto'.vInventoryToSend, inv ∈ pto.vInventoryToSend
  sent : ∀ vInv ∈ sent, vInv.length ≤ 1000 ∧ ∀ inv ∈ vInv, inv ∈ pto.vInventoryToSend

theorem InvPeer.offered (fSendTrickle : Bool) (fTrickleWait : Uint256 → Bool) (pto : InvPeer) :
    pto.Offered (pto.offer fSendTrickle fTrickleWait).1 (pto.offer fSendTrickle fTrickleWait).2 := by
  have hstart : Offers (· ∈ pto.setInventoryKnown.set) []
      { setInventoryKnown := pto.setInventoryKnown } :=
    ⟨InvBatch.short_new, fun _ h => .inl h, fun _ h => (List.not_mem_nil h).elim,
      fun _ h => (List.not_mem_nil h).elim, fun _ h => (List.not_mem_nil h).elim⟩
  have hend := hstart.foldl fSendTrickle fTrickleWait pto.vInventoryToSend
  rw [List.nil_append] at hend
  refine ⟨rfl, rfl, fun inv hinv => ?_, fun inv hinv => ?_, hend.waits, fun vInv hvInv => ?_⟩
  · exact (hend.known inv hinv).imp_right InvBatch.mem_flush.mpr
  · exact (hend.placed inv hinv).imp_right fun hrest => hrest.imp_left InvBatch.mem_flush.mpr
  · exact ⟨hend.short.length_flush vInv hvInv,
      fun inv hinv => hend.sent inv (InvBatch.mem_flush.mp ⟨vInv, hvInv, hinv⟩)⟩

/-- `pto'` is `pto` after the `getdata` messages `sent`. -/
structure InvPeer.Asked (fHave : CInv → Bool) (pto pto' : InvPeer) (sent : List (List CInv)) : Prop
    where
  nVersion : pto'.nVersion = pto.nVersion
  setInventoryKnown : pto'.setInventoryKnown = pto.setInventoryKnown
  vInventoryToSend : pto'.vInventoryToSend = pto.vInventoryToSend
  placed : ∀ x ∈ pto.mapAskFor, x ∈ pto'.mapAskFor ∨ fHave x.2 = true ∨ ∃ vInv ∈ sent, x.2 ∈ vInv
  sent : ∀ vInv ∈ sent, vInv.length ≤ 1000

theorem Asking.ask_spec (fHave : CInv → Bool) (nNow : ℤ) (mapAskFor : List (ℤ × CInv)) (a : Asking)
    (h : a.batch.Short) :
    (ask fHave nNow mapAskFor a).1.batch.Short ∧
      (∀ inv ∈ a.batch.all, inv ∈ (ask fHave nNow mapAskFor a).1.batch.all) ∧
      ∀ x ∈ mapAskFor, x ∈ (ask fHave nNow mapAskFor a).2 ∨ fHave x.2 = true ∨
        x.2 ∈ (ask fHave nNow mapAskFor a).1.batch.all := by
  induction mapAskFor generalizing a with
  | nil => exact ⟨h, fun _ hinv => hinv, fun _ hx => (List.not_mem_nil hx).elim⟩
  | cons x rest ih =>
      obtain ⟨nRequestTime, inv⟩ := x
      unfold ask
      split
      · cases hhave : fHave inv with
        | true =>
            obtain ⟨hshort, hgrows, hplaced⟩ := ih
              { mapAlreadyAskedFor := a.mapAlreadyAskedFor.insert inv nNow, batch := a.batch } h
            refine ⟨hshort, hgrows, fun x hx => ?_⟩
            rcases List.mem_cons.mp hx with rfl | hx
            · exact .inr (.inl hhave)
            · exact hplaced x hx
        | false =>
            obtain ⟨hshort, hgrows, hplaced⟩ := ih
              { mapAlreadyAskedFor := a.mapAlreadyAskedFor.insert inv nNow,
                batch := a.batch.push inv } (h.push inv)
            rw [InvBatch.all_push] at hgrows
            refine ⟨hshort, fun i hi => hgrows i (List.mem_append_left _ hi), fun x hx => ?_⟩
            rcases List.mem_cons.mp hx with rfl | hx
            · exact .inr (.inr (hgrows _ (List.mem_append_right _ (List.mem_singleton_self _))))
            · exact hplaced x hx
      · exact ⟨h, fun _ hinv => hinv, fun x hx => .inl hx⟩

theorem InvPeer.asked (fHave : CInv → Bool) (nTime : ℤ) (times : AskTimes) (pto : InvPeer) :
    pto.Asked fHave (pto.ask fHave nTime times).2.1 (pto.ask fHave nTime times).2.2 := by
  obtain ⟨hshort, -, hplaced⟩ := Asking.ask_spec fHave (nTime * 1000000) pto.mapAskFor
    { mapAlreadyAskedFor := times.mapAlreadyAskedFor } InvBatch.short_new
  refine ⟨rfl, rfl, rfl, fun x hx => ?_, hshort.length_flush⟩
  exact (hplaced x hx).imp_right fun hrest => hrest.imp_right InvBatch.mem_flush.mpr

theorem InvPeer.set_new (nSendBufferSize : Nat) :
    (InvPeer.new nSendBufferSize).setInventoryKnown.set = ∅ := by
  unfold InvPeer.new Mruset.maxSize
  dsimp only
  split <;> rfl

theorem InvPeer.pushInventory_cases (pnode : InvPeer) (inv : CInv) :
    (pnode.pushInventory inv = { pnode with vInventoryToSend := pnode.vInventoryToSend ++ [inv] }) ∨
    (pnode.pushInventory inv = pnode ∧ (inv.type ≠ MSG_SIGNED_HASH → inv ∈ pnode.setInventoryKnown.set))
    := by
  unfold pushInventory
  split
  · next hold => exact .inr ⟨rfl, fun hne => absurd hold.2 hne⟩
  · split
    · exact .inl rfl
    · next hcount =>
        refine .inr ⟨rfl, fun _ => ?_⟩
        by_contra hnot
        exact hcount (Mruset.count_eq_zero.mpr hnot)

theorem RelayMemory.expire_of_le {nTime : ℤ} {vRelayExpiration : List (ℤ × CInv)}
    {mapRelay : ExtTreeMap CInv CDataStream CInv.cmp}
    (h : ∀ x ∈ vRelayExpiration, nTime ≤ x.1) :
    expire nTime vRelayExpiration mapRelay = { mapRelay, vRelayExpiration } := by
  cases vRelayExpiration with
  | nil => rfl
  | cons x rest =>
      unfold expire
      rw [if_neg (not_lt.mpr (h x List.mem_cons_self))]

end ShinyCoin

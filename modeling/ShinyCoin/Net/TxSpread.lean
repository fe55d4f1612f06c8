import ShinyCoin.Net.TxNetwork

/-!
# Every connected node gets the transactions

What holds all the time (`Gossip`): for each connection, a transaction in the pool of one node is held
by the other one, or waits to be offered to it, or is on one of the four parts of its way. Each step
moves a transaction on or leaves it where it is; when nothing is on the way and nothing waits, it has
come.
-/

namespace ShinyCoin

open Std (ExtTreeMap)
open AlertNet (HonestLink)
open RelayState (Pooled Holds Settled Takes Spends)

namespace TxNet

variable {ν κ φ : Type} [DecidableEq ν] [DecidableEq κ]

/-- The inventory of a transaction -/
def invOf (env : TxNetEnv ν κ φ) (tx : CTransaction) : CInv := CInv.tx (env.renv.getHash tx)

/-- The transaction is on its way from the node at `c` to the other end: offered, noted there to be
asked for, asked for, or sent. -/
def Coming (env : TxNetEnv ν κ φ) (net : TxNet ν κ φ) (c : κ) (tx : CTransaction) : Prop :=
  (∃ vInv, (env.links.far c, .inv vInv) ∈ net.flight ∧ invOf env tx ∈ vInv) ∨
  (∃ t, (t, invOf env tx) ∈ (net.peer (env.links.far c)).mapAskFor) ∨
  (∃ vInv, (c, .getdata vInv) ∈ net.flight ∧ invOf env tx ∈ vInv) ∨
  ∃ vMsg, (env.links.far c, .tx vMsg) ∈ net.flight ∧ invOf env vMsg.tx = invOf env tx

/-- What a node may be sent. A node that follows the code sends nothing too long, and no transaction
but from its pool; from anybody else a transaction is one of `txs`. -/
def Welcome (env : TxNetEnv ν κ φ) (honest : ν → Prop) (txs : Finset CTransaction)
    (net : TxNet ν κ φ) (c : κ) : TxMessage → Prop
  | .inv vInv => HonestLink env.links honest c → vInv.length ≤ 1000 ∧ ∀ tx ∈ txs,
      invOf env tx ∈ vInv → (net.relay (env.links.owner (env.links.far c))).Pooled env.renv tx
  | .getdata vInv => HonestLink env.links honest c → vInv.length ≤ 1000
  | .tx vMsg => vMsg.tx ∈ txs ∧ vMsg.size ≤ 5000 ∧ (HonestLink env.links honest c →
      (net.relay (env.links.owner (env.links.far c))).Pooled env.renv vMsg.tx)

/-- What holds all the time, when all that happens is between `t0` and 15 minutes later. -/
structure Gossip (env : TxNetEnv ν κ φ) (honest : ν → Prop) (node : ν → NodeState)
    (txs : Finset CTransaction) (t0 : ℤ) (net : TxNet ν κ φ) : Prop where
  settled : ∀ i, honest i → Settled env.renv (env.files i) (node i) txs (net.relay i)
  kept : ∀ i, honest i → ∀ tx ∈ txs, (net.relay i).Pooled env.renv tx →
    ∃ ss, (net.memory i).mapRelay[invOf env tx]? = some ss
  memory : ∀ i, honest i → ∀ (inv : CInv) (ss : CDataStream),
    (net.memory i).mapRelay[inv]? = some ss →
      inv = invOf env ss.tx ∧ ss.tx ∈ txs ∧ ss.size ≤ 5000 ∧ (net.relay i).Pooled env.renv ss.tx
  unexpired : ∀ i, honest i → ∀ x ∈ (net.memory i).vRelayExpiration, t0 + 15 * 60 ≤ x.1
  offers : ∀ c, HonestLink env.links honest c → ∀ tx ∈ txs,
    invOf env tx ∈ (net.peer c).vInventoryToSend →
      (net.relay (env.links.owner c)).Pooled env.renv tx
  flight : ∀ c msg, HonestLink env.links honest c → (c, msg) ∈ net.flight →
    Welcome env honest txs net c msg
  /-- What a peer is known to have it has, or it is coming. -/
  known : ∀ c, HonestLink env.links honest c → c ∈ net.vNodes (env.links.owner c) → ∀ tx ∈ txs,
    invOf env tx ∈ (net.peer c).setInventoryKnown.set →
      (net.relay (env.links.owner (env.links.far c))).Holds env.renv tx ∨
        (net.relay (env.links.owner c)).Pooled env.renv tx ∧ net.Coming env c tx
  told : ∀ c, HonestLink env.links honest c → c ∈ net.vNodes (env.links.owner c) → ∀ tx ∈ txs,
    (net.relay (env.links.owner c)).Pooled env.renv tx →
      (net.relay (env.links.owner (env.links.far c))).Holds env.renv tx ∨
        invOf env tx ∈ (net.peer c).vInventoryToSend ∨ net.Coming env c tx
  owned : ∀ i, ∀ c ∈ net.vNodes i, env.links.owner c = i
  symm : ∀ c, c ∈ net.vNodes (env.links.owner c) →
    env.links.far c ∈ net.vNodes (env.links.owner (env.links.far c))

section

variable {env : TxNetEnv ν κ φ} {honest : ν → Prop} {node : ν → NodeState}
  {txs : Finset CTransaction} {t0 nTime : ℤ} {net net' : TxNet ν κ φ} {c : κ} {i : ν}
  {tx : CTransaction}

omit [DecidableEq ν] [DecidableEq κ] in
theorem HonestLink.far (h : HonestLink env.links honest c) :
    HonestLink env.links honest (env.links.far c) :=
  ⟨h.2, by rw [env.links.far_far]; exact h.1⟩

omit [DecidableEq ν] [DecidableEq κ] in
theorem getHash_eq_of_invOf {tx' : CTransaction} (h : invOf env tx = invOf env tx') :
    env.renv.getHash tx = env.renv.getHash tx' := congrArg CInv.hash h

/-! ## Passing on -/

/-- `net'` is `net` after something was passed on, in the lists of the peers or by new messages: what
left a list is in the next one. -/
structure Passes (env : TxNetEnv ν κ φ) (honest : ν → Prop) (txs : Finset CTransaction)
    (net net' : TxNet ν κ φ) : Prop where
  relay : net'.relay = net.relay
  memory : net'.memory = net.memory
  vNodes : net'.vNodes = net.vNodes
  stays : ∀ x ∈ net.flight, x ∈ net'.flight
  flight : ∀ c msg, HonestLink env.links honest c → (c, msg) ∈ net'.flight →
    (c, msg) ∈ net.flight ∨ Welcome env honest txs net c msg
  offers : ∀ c, HonestLink env.links honest c → ∀ tx ∈ txs,
    invOf env tx ∈ (net'.peer c).vInventoryToSend → invOf env tx ∈ (net.peer c).vInventoryToSend
  asks : ∀ c, HonestLink env.links honest c → ∀ tx ∈ txs, ∀ t,
    (t, invOf env tx) ∈ (net.peer c).mapAskFor → (t, invOf env tx) ∈ (net'.peer c).mapAskFor ∨
      (net.relay (env.links.owner c)).Holds env.renv tx ∨
      ∃ vInv, (env.links.far c, .getdata vInv) ∈ net'.flight ∧ invOf env tx ∈ vInv
  known : ∀ c, HonestLink env.links honest c → ∀ tx ∈ txs,
    invOf env tx ∈ (net'.peer c).setInventoryKnown.set →
      invOf env tx ∈ (net.peer c).setInventoryKnown.set ∨
      (net.relay (env.links.owner (env.links.far c))).Holds env.renv tx ∨
      (net.relay (env.links.owner c)).Pooled env.renv tx ∧
        ∃ vInv, (env.links.far c, .inv vInv) ∈ net'.flight ∧ invOf env tx ∈ vInv
  told : ∀ c, HonestLink env.links honest c → ∀ tx ∈ txs,
    invOf env tx ∈ (net.peer c).vInventoryToSend →
      invOf env tx ∈ (net'.peer c).vInventoryToSend ∨
      invOf env tx ∈ (net.peer c).setInventoryKnown.set ∨
      ∃ vInv, (env.links.far c, .inv vInv) ∈ net'.flight ∧ invOf env tx ∈ vInv

omit [DecidableEq ν] [DecidableEq κ] in
/-- What was coming is still coming, or has come. -/
theorem Passes.coming (h : Passes env honest txs net net') (hlink : HonestLink env.links honest c)
    (htx : tx ∈ txs) (hcoming : net.Coming env c tx) :
    (net.relay (env.links.owner (env.links.far c))).Holds env.renv tx ∨ net'.Coming env c tx := by
  rcases hcoming with ⟨vInv, hmsg, hmem⟩ | ⟨t, hask⟩ | ⟨vInv, hmsg, hmem⟩ | ⟨vMsg, hmsg, heq⟩
  · exact .inr (.inl ⟨vInv, h.stays _ hmsg, hmem⟩)
  · rcases h.asks _ (HonestLink.far hlink) tx htx t hask with hstill | hholds | ⟨vInv, hmsg, hmem⟩
    · exact .inr (.inr (.inl ⟨t, hstill⟩))
    · exact .inl hholds
    · rw [env.links.far_far] at hmsg
      exact .inr (.inr (.inr (.inl ⟨vInv, hmsg, hmem⟩)))
  · exact .inr (.inr (.inr (.inl ⟨vInv, h.stays _ hmsg, hmem⟩)))
  · exact .inr (.inr (.inr (.inr ⟨vMsg, h.stays _ hmsg, heq⟩)))

omit [DecidableEq ν] [DecidableEq κ] in
theorem Welcome.congr (hrelay : net'.relay = net.relay) {msg : TxMessage}
    (h : Welcome env honest txs net c msg) : Welcome env honest txs net' c msg := by
  cases msg with
  | inv vInv =>
      unfold Welcome at h ⊢
      rw [hrelay]
      exact h
  | getdata vInv => exact h
  | tx vMsg =>
      unfold Welcome at h ⊢
      rw [hrelay]
      exact h

omit [DecidableEq ν] [DecidableEq κ] in
theorem Gossip.pass (h : Gossip env honest node txs t0 net) (hpass : Passes env honest txs net net') :
    Gossip env honest node txs t0 net' := by
  have hrelay := hpass.relay
  refine ⟨?_, ?_, ?_, ?_, fun c hlink tx htx hmem => ?_, fun c msg hlink hmem => ?_,
    fun c hlink hc tx htx hmem => ?_, fun c hlink hc tx htx hpooled => ?_, ?_, ?_⟩
  · rw [hrelay]
    exact h.settled
  · rw [hrelay, hpass.memory]
    exact h.kept
  · rw [hrelay, hpass.memory]
    exact h.memory
  · rw [hpass.memory]
    exact h.unexpired
  · rw [hrelay]
    exact h.offers c hlink tx htx (hpass.offers c hlink tx htx hmem)
  · apply Welcome.congr hrelay
    rcases hpass.flight c msg hlink hmem with hold | hnew
    · exact h.flight c msg hlink hold
    · exact hnew
  · rw [hrelay]
    rw [hpass.vNodes] at hc
    rcases hpass.known c hlink tx htx hmem with hold | hholds | ⟨hpooled, hsent⟩
    · rcases h.known c hlink hc tx htx hold with hholds | ⟨hpooled, hcoming⟩
      · exact .inl hholds
      · exact (hpass.coming hlink htx hcoming).imp_right fun hcoming => ⟨hpooled, hcoming⟩
    · exact .inl hholds
    · exact .inr ⟨hpooled, .inl hsent⟩
  · rw [hrelay] at hpooled ⊢
    rw [hpass.vNodes] at hc
    rcases h.told c hlink hc tx htx hpooled with hholds | hwaits | hcoming
    · exact .inl hholds
    · rcases hpass.told c hlink tx htx hwaits with hstill | hknown | hsent
      · exact .inr (.inl hstill)
      · -- it was known already, so it had been offered before
        rcases h.known c hlink hc tx htx hknown with hholds | ⟨-, hcoming⟩
        · exact .inl hholds
        · exact (hpass.coming hlink htx hcoming).imp_right .inr
      · exact .inr (.inr (.inl hsent))
    · exact (hpass.coming hlink htx hcoming).imp_right .inr
  · rw [hpass.vNodes]
    exact h.owned
  · rw [hpass.vNodes]
    exact h.symm

/-! ## Lists -/

omit [DecidableEq ν] in
theorem peer_setPeer (net : TxNet ν κ φ) (c x : κ) (pnode : InvPeer) :
    (net.setPeer c pnode).peer x = if x = c then pnode else net.peer x :=
  Function.update_apply net.peer c pnode x

omit [DecidableEq κ] in
theorem relay_setRelay (net : TxNet ν κ φ) (i j : ν) (s : RelayState φ) :
    (net.setRelay i s).relay j = if j = i then s else net.relay j :=
  Function.update_apply net.relay i s j

omit [DecidableEq ν] [DecidableEq κ] in
theorem alreadyHave_congr (h : net'.relay = net.relay) (i : ν) (inv : CInv) :
    net'.alreadyHave i inv = net.alreadyHave i inv := by
  unfold alreadyHave
  rw [h]

omit [DecidableEq ν] [DecidableEq κ] in
/-- What `AlreadyHave` says of one of the transactions -/
theorem Gossip.alreadyHave_iff (h : Gossip env honest node txs t0 net)
    (hA : ∀ i, honest i → Arriving env.renv (env.files i) (node i) txs) (hi : honest i)
    (htx : tx ∈ txs) :
    net.alreadyHave i (invOf env tx) = true ↔ (net.relay i).Holds env.renv tx := by
  have hindex := (hA i hi).txIndex_eq htx
  rw [← (h.settled i hi).quiet.serving.txIndex] at hindex
  unfold alreadyHave invOf CInv.tx
  rw [if_pos rfl]
  dsimp only
  rw [hindex, Option.isSome_none, Bool.or_false, Bool.or_eq_true, Std.ExtTreeMap.contains_iff_mem]
  rfl

/-- `net'` is `net` after `RelayInventory` of `inv` to the peers `cs`. -/
structure Pushed (inv : CInv) (cs : List κ) (net net' : TxNet ν κ φ) : Prop where
  relay : net'.relay = net.relay
  memory : net'.memory = net.memory
  vNodes : net'.vNodes = net.vNodes
  flight : net'.flight = net.flight
  asks : ∀ c, (net'.peer c).mapAskFor = (net.peer c).mapAskFor
  known : ∀ c, (net'.peer c).setInventoryKnown = (net.peer c).setInventoryKnown
  grows : ∀ c, ∀ x ∈ (net.peer c).vInventoryToSend, x ∈ (net'.peer c).vInventoryToSend
  offers : ∀ c, ∀ x ∈ (net'.peer c).vInventoryToSend,
    x ∈ (net.peer c).vInventoryToSend ∨ c ∈ cs ∧ x = inv
  told : inv.type ≠ MSG_SIGNED_HASH → ∀ c ∈ cs,
    inv ∈ (net'.peer c).vInventoryToSend ∨ inv ∈ (net.peer c).setInventoryKnown.set

omit [DecidableEq ν] in
theorem pushed_one (net : TxNet ν κ φ) (inv : CInv) (c : κ) :
    Pushed inv [c] net (net.setPeer c ((net.peer c).pushInventory inv)) := by
  have hother : ∀ x, x ≠ c → (net.setPeer c ((net.peer c).pushInventory inv)).peer x = net.peer x :=
    fun x hx => by rw [peer_setPeer, if_neg hx]
  have hself : (net.setPeer c ((net.peer c).pushInventory inv)).peer c
      = (net.peer c).pushInventory inv := by rw [peer_setPeer, if_pos rfl]
  have hcases := (net.peer c).pushInventory_cases inv
  refine ⟨rfl, rfl, rfl, rfl, fun x => ?_, fun x => ?_, fun x y hy => ?_, fun x y hy => ?_,
    fun htype x hx => ?_⟩
  · by_cases hx : x = c
    · subst hx
      rw [hself]
      rcases hcases with heq | ⟨heq, -⟩ <;> rw [heq]
    · rw [hother x hx]
  · by_cases hx : x = c
    · subst hx
      rw [hself]
      rcases hcases with heq | ⟨heq, -⟩ <;> rw [heq]
    · rw [hother x hx]
  · by_cases hx : x = c
    · subst hx
      rw [hself]
      rcases hcases with heq | ⟨heq, -⟩ <;> rw [heq]
      · exact List.mem_append_left _ hy
      · exact hy
    · rw [hother x hx]
      exact hy
  · by_cases hx : x = c
    · subst hx
      rw [hself] at hy
      rcases hcases with heq | ⟨heq, -⟩ <;> rw [heq] at hy
      · rcases List.mem_append.mp hy with hold | hnew
        · exact .inl hold
        · exact .inr ⟨List.mem_singleton_self _, List.mem_singleton.mp hnew⟩
      · exact .inl hy
    · rw [hother x hx] at hy
      exact .inl hy
  · rw [List.mem_singleton.mp hx, hself]
    rcases hcases with heq | ⟨heq, hknown⟩ <;> rw [heq]
    · exact .inl (List.mem_append_right _ (List.mem_singleton_self _))
    · exact .inr (hknown htype)

omit [DecidableEq ν] in
theorem pushed_foldl (inv : CInv) (cs : List κ) (net : TxNet ν κ φ) :
    Pushed inv cs net
      (cs.foldl (fun net c => net.setPeer c ((net.peer c).pushInventory inv)) net) := by
  induction cs generalizing net with
  | nil =>
      exact ⟨rfl, rfl, rfl, rfl, fun _ => rfl, fun _ => rfl, fun _ _ h => h, fun _ _ h => .inl h,
        fun _ _ h => (List.not_mem_nil h).elim⟩
  | cons c cs ih =>
      have h := pushed_one net inv c
      have hrest := ih (net.setPeer c ((net.peer c).pushInventory inv))
      refine ⟨hrest.relay, hrest.memory, hrest.vNodes, hrest.flight, fun x => ?_, fun x => ?_,
        fun x y hy => hrest.grows x y (h.grows x y hy), fun x y hy => ?_, fun htype x hx => ?_⟩
      · exact (hrest.asks x).trans (h.asks x)
      · exact (hrest.known x).trans (h.known x)
      · rcases hrest.offers x y hy with hold | ⟨hmem, heq⟩
        · rcases h.offers x y hold with hold | ⟨hmem, heq⟩
          · exact .inl hold
          · exact .inr ⟨List.mem_singleton.mp hmem ▸ List.mem_cons_self, heq⟩
        · exact .inr ⟨List.mem_cons_of_mem _ hmem, heq⟩
      · rcases List.mem_cons.mp hx with rfl | hx
        · rcases h.told htype x (List.mem_singleton_self _) with hwaits | hknown
          · exact .inl (hrest.grows x _ hwaits)
          · exact .inr hknown
        · rcases hrest.told htype x hx with hwaits | hknown
          · exact .inl hwaits
          · exact .inr (by rw [← h.known x]; exact hknown)

omit [DecidableEq ν] in
theorem pushed_relayInventory (net : TxNet ν κ φ) (i : ν) (inv : CInv) :
    Pushed inv (net.vNodes i) net (net.relayInventory i inv) := pushed_foldl inv (net.vNodes i) net

omit [DecidableEq ν] in
/-- What is offered of blocks and signed hashes is no matter. -/
theorem Gossip.relayInventory (h : Gossip env honest node txs t0 net) {inv : CInv}
    (htype : inv.type ≠ MSG_TX) : Gossip env honest node txs t0 (net.relayInventory i inv) := by
  have hpushed := pushed_relayInventory net i inv
  have hne : ∀ tx, invOf env tx ≠ inv := fun tx heq => htype (by rw [← heq]; rfl)
  refine h.pass ⟨hpushed.relay, hpushed.memory, hpushed.vNodes, fun x hx => ?_,
    fun c msg _ hmem => ?_, fun c _ tx _ hmem => ?_, fun c _ tx _ t hmem => ?_,
    fun c _ tx _ hmem => ?_, fun c _ tx _ hmem => .inl (hpushed.grows c _ hmem)⟩
  · rw [hpushed.flight]
    exact hx
  · rw [hpushed.flight] at hmem
    exact .inl hmem
  · rcases hpushed.offers c _ hmem with hold | ⟨-, heq⟩
    · exact hold
    · exact absurd heq (hne tx)
  · rw [hpushed.asks]
    exact .inl hmem
  · rw [hpushed.known] at hmem
    exact .inl hmem

omit [DecidableEq ν] in
/-- Nothing of a peer changes but what it is known to have, and what it is asked for. -/
theorem Gossip.setPeer (h : Gossip env honest node txs t0 net) {pnode : InvPeer}
    (hoffers : pnode.vInventoryToSend = (net.peer c).vInventoryToSend)
    (hasks : ∀ x ∈ (net.peer c).mapAskFor, x ∈ pnode.mapAskFor)
    (hknown : HonestLink env.links honest c → ∀ tx ∈ txs,
      invOf env tx ∈ pnode.setInventoryKnown.set →
        invOf env tx ∈ (net.peer c).setInventoryKnown.set ∨
        (net.relay (env.links.owner (env.links.far c))).Pooled env.renv tx) :
    Gossip env honest node txs t0 (net.setPeer c pnode) := by
  refine h.pass ⟨rfl, rfl, rfl, fun x hx => hx, fun x msg _ hmem => .inl hmem,
    fun x _ tx _ hmem => ?_, fun x _ tx _ t hmem => ?_, fun x hlink tx htx hmem => ?_,
    fun x _ tx _ hmem => ?_⟩
  · rw [peer_setPeer] at hmem
    split at hmem
    · next hx =>
        rw [hx, ← hoffers]
        exact hmem
    · exact hmem
  · rw [peer_setPeer]
    split
    · next hx => exact .inl (hasks _ (hx ▸ hmem))
    · exact .inl hmem
  · rw [peer_setPeer] at hmem
    split at hmem
    · next hx =>
        subst hx
        exact (hknown hlink tx htx hmem).imp_right fun hpooled => .inl (.inl hpooled)
    · exact .inl hmem
  · rw [peer_setPeer]
    split
    · next hx =>
        rw [hoffers, ← hx]
        exact .inl hmem
    · exact .inl hmem

omit [DecidableEq ν] in
theorem Gossip.onVersion (h : Gossip env honest node txs t0 net) (nVersion : ℤ) :
    Gossip env honest node txs t0 (net.onVersion c nVersion) := by
  unfold TxNet.onVersion
  split
  · exact h
  · exact h.setPeer rfl (fun _ hx => hx) fun _ _ _ hmem => .inl hmem

/-! ## Messages that change no pool -/

/-- A message was processed: what it was to bring about is there, and nothing was taken from what is
on the way. -/
structure Handled (env : TxNetEnv ν κ φ) (honest : ν → Prop) (node : ν → NodeState)
    (txs : Finset CTransaction) (t0 : ℤ) (c : κ) (msg : TxMessage) (net net' : TxNet ν κ φ) :
    Prop where
  gossip : Gossip env honest node txs t0 net'
  flight : ∃ new, net'.flight = net.flight ++ new
  inv : ∀ vInv, msg = .inv vInv → HonestLink env.links honest c → ∀ tx ∈ txs, invOf env tx ∈ vInv →
    (net'.relay (env.links.owner c)).Holds env.renv tx ∨
      ∃ t, (t, invOf env tx) ∈ (net'.peer c).mapAskFor
  getdata : ∀ vInv, msg = .getdata vInv → HonestLink env.links honest c → ∀ tx ∈ txs,
    invOf env tx ∈ vInv → (net'.relay (env.links.owner c)).Pooled env.renv tx →
      ∃ vMsg, (env.links.far c, .tx vMsg) ∈ net'.flight ∧ invOf env vMsg.tx = invOf env tx
  tx : ∀ vMsg, msg = .tx vMsg → (net'.relay (env.links.owner c)).Holds env.renv vMsg.tx

/-- Some of the inventories of a message, read by the node at `c` -/
structure Heard (env : TxNetEnv ν κ φ) (c : κ) (vInv : List CInv) (net net' : TxNet ν κ φ) :
    Prop where
  relay : net'.relay = net.relay
  flight : net'.flight = net.flight
  asked : ∀ inv ∈ vInv, net.alreadyHave (env.links.owner c) inv = true ∨
    ∃ t, (t, inv) ∈ (net'.peer c).mapAskFor
  asks : ∀ x ∈ (net.peer c).mapAskFor, x ∈ (net'.peer c).mapAskFor

omit [DecidableEq κ] [DecidableEq ν] in
theorem Heard.cons {net'' : TxNet ν κ φ} {inv : CInv} {vInv : List CInv}
    (h : Heard env c [inv] net net') (h' : Heard env c vInv net' net'') :
    Heard env c (inv :: vInv) net net'' := by
  refine ⟨h'.relay.trans h.relay, h'.flight.trans h.flight, fun x hx => ?_,
    fun x hx => h'.asks x (h.asks x hx)⟩
  rcases List.mem_cons.mp hx with rfl | hx
  · rcases h.asked x (List.mem_singleton_self _) with hhave | ⟨t, ht⟩
    · exact .inl hhave
    · exact .inr ⟨t, h'.asks _ ht⟩
  · rw [← alreadyHave_congr h.relay]
    exact h'.asked x hx

/-- One inventory that the peer has if it is honest -/
theorem Gossip.hear (h : Gossip env honest node txs t0 net) (nTime : ℤ) {inv : CInv}
    (hinv : HonestLink env.links honest c → ∀ tx ∈ txs, invOf env tx = inv →
      (net.relay (env.links.owner (env.links.far c))).Pooled env.renv tx) :
    Gossip env honest node txs t0 (net.hear env nTime c inv) ∧
      Heard env c [inv] net (net.hear env nTime c inv) := by
  have hknow : Gossip env honest node txs t0
      (net.setPeer c ((net.peer c).addInventoryKnown inv)) := by
    refine h.setPeer rfl (fun _ hx => hx) fun hlink tx htx hmem => ?_
    rcases Mruset.mem_insert hmem with heq | hold
    · exact .inr (hinv hlink tx htx heq)
    · exact .inl hold
  have hself : (net.setPeer c ((net.peer c).addInventoryKnown inv)).peer c
      = (net.peer c).addInventoryKnown inv := by rw [peer_setPeer, if_pos rfl]
  unfold TxNet.hear
  dsimp only
  split
  · next hhave =>
      replace hhave : net.alreadyHave (env.links.owner c) inv = true := hhave
      refine ⟨hknow, rfl, rfl, fun x hx => ?_, fun x hx => ?_⟩
      · rw [List.mem_singleton.mp hx]
        exact .inl hhave
      · rw [hself]
        exact hx
  · rw [hself]
    have hask : ∀ x, x ∈ (askFor nTime inv (net.times (env.links.owner c))
        ((net.peer c).addInventoryKnown inv)).2.mapAskFor ↔ x = (_, inv) ∨ x ∈ (net.peer c).mapAskFor :=
      fun x => mem_insertMulti
    have hnoted : ∀ times, Gossip env honest node txs t0
        ((net.setPeer c ((net.peer c).addInventoryKnown inv)).setTimes (env.links.owner c) times) :=
      fun _ => hknow.pass ⟨rfl, rfl, rfl, fun _ hx => hx, fun _ _ _ hmem => .inl hmem,
        fun _ _ _ _ hmem => hmem, fun _ _ _ _ _ hmem => .inl hmem, fun _ _ _ _ hmem => .inl hmem,
        fun _ _ _ _ hmem => .inl hmem⟩
    refine ⟨?_, rfl, rfl, fun x hx => ?_, fun x hx => ?_⟩
    · refine (hnoted _).setPeer ?_ (fun x hx => ?_) fun _ tx _ hmem => .inl ?_
      · show _ = ((net.setPeer c ((net.peer c).addInventoryKnown inv)).peer c).vInventoryToSend
        rw [hself]
        rfl
      · replace hx : x ∈ ((net.setPeer c ((net.peer c).addInventoryKnown inv)).peer c).mapAskFor := hx
        rw [hself] at hx
        exact (hask x).mpr (.inr hx)
      · show _ ∈ ((net.setPeer c ((net.peer c).addInventoryKnown inv)).peer c).setInventoryKnown.set
        rw [hself]
        exact hmem
    · rw [List.mem_singleton.mp hx, peer_setPeer, if_pos rfl]
      exact .inr ⟨_, (hask _).mpr (.inl rfl)⟩
    · rw [peer_setPeer, if_pos rfl]
      exact (hask x).mpr (.inr hx)

theorem Gossip.hears (h : Gossip env honest node txs t0 net) (nTime : ℤ) {vInv : List CInv}
    (hinv : HonestLink env.links honest c → ∀ tx ∈ txs, invOf env tx ∈ vInv →
      (net.relay (env.links.owner (env.links.far c))).Pooled env.renv tx) :
    Gossip env honest node txs t0 (vInv.foldl (TxNet.hear env nTime c) net) ∧
      Heard env c vInv net (vInv.foldl (TxNet.hear env nTime c) net) := by
  induction vInv generalizing net with
  | nil => exact ⟨h, rfl, rfl, fun _ hx => (List.not_mem_nil hx).elim, fun _ hx => hx⟩
  | cons inv vInv ih =>
      obtain ⟨hfirst, hheard⟩ := h.hear nTime fun hlink tx htx heq =>
        hinv hlink tx htx (heq ▸ List.mem_cons_self)
      obtain ⟨hrest, hheards⟩ := ih hfirst fun hlink tx htx hmem => by
        rw [hheard.relay]
        exact hinv hlink tx htx (List.mem_cons_of_mem _ hmem)
      exact ⟨hrest, hheard.cons hheards⟩

theorem Gossip.onInv (h : Gossip env honest node txs t0 net) (nTime : ℤ)
    (hA : ∀ i, honest i → Arriving env.renv (env.files i) (node i) txs) {vInv : List CInv}
    (hwelcome : Welcome env honest txs net c (.inv vInv)) :
    Handled env honest node txs t0 c (.inv vInv) net (net.onInv env nTime c vInv) := by
  unfold TxNet.onInv
  split
  · next hlong =>
      refine ⟨h, ⟨[], (List.append_nil _).symm⟩, ?_, (by rintro _ ⟨⟩), (by rintro _ ⟨⟩)⟩
      rintro _ ⟨⟩ hlink
      have hlen := (hwelcome hlink).1
      omega
  · obtain ⟨hgossip, hheard⟩ := h.hears nTime fun hlink => (hwelcome hlink).2
    refine ⟨hgossip, ⟨[], by rw [hheard.flight, List.append_nil]⟩, ?_, (by rintro _ ⟨⟩),
      (by rintro _ ⟨⟩)⟩
    rintro _ ⟨⟩ hlink tx htx hmem
    rw [hheard.relay]
    exact (hheard.asked _ hmem).imp_left (h.alreadyHave_iff hA hlink.1 htx).mp

omit [DecidableEq ν] [DecidableEq κ] in
/-- The transactions that are asked for are sent. -/
theorem Gossip.onGetdata (h : Gossip env honest node txs t0 net) (hi : honest (env.links.owner c))
    {vInv : List CInv} (hwelcome : Welcome env honest txs net c (.getdata vInv)) :
    Handled env honest node txs t0 c (.getdata vInv) net (net.onGetdata env c vInv) := by
  unfold TxNet.onGetdata
  split
  · next hlong =>
      refine ⟨h, ⟨[], (List.append_nil _).symm⟩, (by rintro _ ⟨⟩), ?_, (by rintro _ ⟨⟩)⟩
      rintro _ ⟨⟩ hlink
      have hlen := hwelcome hlink
      omega
  · refine ⟨h.pass ⟨rfl, rfl, rfl, fun x hx => List.mem_append_left _ hx,
      fun x msg hlink hmem => ?_, fun _ _ _ _ hmem => hmem, fun _ _ _ _ _ hmem => .inl hmem,
      fun _ _ _ _ hmem => .inl hmem, fun _ _ _ _ hmem => .inl hmem⟩, ⟨_, rfl⟩, (by rintro _ ⟨⟩), ?_,
      (by rintro _ ⟨⟩)⟩
    · rcases List.mem_append.mp hmem with hold | hnew
      · exact .inl hold
      · right
        obtain ⟨inv, -, hreply⟩ := List.mem_filterMap.mp hnew
        split at hreply
        · obtain ⟨ss, hss, heq⟩ := Option.map_eq_some_iff.mp hreply
          cases heq
          obtain ⟨-, htx, hsize, hpooled⟩ := h.memory _ hi inv ss hss
          refine ⟨htx, hsize, fun _ => ?_⟩
          rw [env.links.far_far]
          exact hpooled
        · cases hreply
    · rintro _ ⟨⟩ hlink tx htx hmem hpooled
      obtain ⟨ss, hss⟩ := h.kept _ hi tx htx hpooled
      refine ⟨ss, List.mem_append_right _ (List.mem_filterMap.mpr ⟨_, hmem, ?_⟩),
        (h.memory _ hi _ ss hss).1.symm⟩
      have htype : (invOf env tx).type = MSG_TX := rfl
      rw [if_pos htype, hss]
      rfl

/-! ## Transactions come into a pool -/

/-- `net'` is `net` after `RelayMessage` of the messages `msgs` at the node `i`. -/
structure Relays (env : TxNetEnv ν κ φ) (t0 : ℤ) (i : ν) (msgs : List CDataStream)
    (net net' : TxNet ν κ φ) : Prop where
  relay : net'.relay = net.relay
  vNodes : net'.vNodes = net.vNodes
  flight : net'.flight = net.flight
  asks : ∀ c, (net'.peer c).mapAskFor = (net.peer c).mapAskFor
  known : ∀ c, (net'.peer c).setInventoryKnown = (net.peer c).setInventoryKnown
  others : ∀ j, j ≠ i → net'.memory j = net.memory j
  keeps : ∀ (inv : CInv) (ss : CDataStream),
    (net.memory i).mapRelay[inv]? = some ss → (net'.memory i).mapRelay[inv]? = some ss
  stored : ∀ vMsg ∈ msgs, ∃ ss, (net'.memory i).mapRelay[invOf env vMsg.tx]? = some ss
  only : ∀ (inv : CInv) (ss : CDataStream), (net'.memory i).mapRelay[inv]? = some ss →
    (net.memory i).mapRelay[inv]? = some ss ∨ ss ∈ msgs ∧ inv = invOf env ss.tx
  unexpired : ∀ x ∈ (net'.memory i).vRelayExpiration, t0 + 15 * 60 ≤ x.1
  grows : ∀ c, ∀ x ∈ (net.peer c).vInventoryToSend, x ∈ (net'.peer c).vInventoryToSend
  offers : ∀ c, ∀ x ∈ (net'.peer c).vInventoryToSend, x ∈ (net.peer c).vInventoryToSend ∨
    c ∈ net.vNodes i ∧ ∃ vMsg ∈ msgs, x = invOf env vMsg.tx
  told : ∀ c ∈ net.vNodes i, ∀ vMsg ∈ msgs, invOf env vMsg.tx ∈ (net'.peer c).vInventoryToSend ∨
    invOf env vMsg.tx ∈ (net.peer c).setInventoryKnown.set

/-- All that happens is between `t0` and 15 minutes later. -/
def InTime (t0 nTime : ℤ) : Prop := t0 ≤ nTime ∧ nTime ≤ t0 + 15 * 60

theorem relays_one (htime : InTime t0 nTime)
    (hunexpired : ∀ x ∈ (net.memory i).vRelayExpiration, t0 + 15 * 60 ≤ x.1) (vMsg : CDataStream) :
    Relays env t0 i [vMsg] net (net.relayMessage env nTime i vMsg) := by
  have hpushed := pushed_relayInventory (net.setMemory i
    ((net.memory i).relayMessage nTime (invOf env vMsg.tx) vMsg)) i (invOf env vMsg.tx)
  have hmemory : (net.relayMessage env nTime i vMsg).memory = Function.update net.memory i
      ((net.memory i).relayMessage nTime (invOf env vMsg.tx) vMsg) := hpushed.memory
  have hself : (net.relayMessage env nTime i vMsg).memory i =
      { mapRelay := (net.memory i).mapRelay.insertIfNew (invOf env vMsg.tx) vMsg
        vRelayExpiration :=
          (net.memory i).vRelayExpiration ++ [(nTime + 15 * 60, invOf env vMsg.tx)] } := by
    rw [hmemory, Function.update_self]
    unfold RelayMemory.relayMessage
    rw [RelayMemory.expire_of_le fun x hx => htime.2.trans (hunexpired x hx)]
  have hlookup : ∀ inv : CInv, ((net.relayMessage env nTime i vMsg).memory i).mapRelay[inv]? =
      if inv = invOf env vMsg.tx ∧ (net.memory i).mapRelay[inv]? = none then some vMsg
      else (net.memory i).mapRelay[inv]? := by
    intro inv
    rw [hself]
    exact Lib.getElem?_insertIfNew _ _ _ _
  refine ⟨hpushed.relay, hpushed.vNodes, hpushed.flight, hpushed.asks, hpushed.known,
    fun j hj => ?_, fun inv ss hss => ?_, fun v hv => ?_, fun inv ss hss => ?_, fun x hx => ?_,
    hpushed.grows, fun c x hx => ?_, fun c hc v hv => ?_⟩
  · rw [hmemory, Function.update_of_ne hj]
  · rw [hlookup, if_neg, hss]
    rintro ⟨-, hnone⟩
    rw [hss] at hnone
    cases hnone
  · rw [List.mem_singleton.mp hv, hlookup]
    cases hold : (net.memory i).mapRelay[invOf env vMsg.tx]? with
    | none => exact ⟨vMsg, if_pos ⟨rfl, rfl⟩⟩
    | some ss => exact ⟨ss, if_neg (by rintro ⟨-, ⟨⟩⟩)⟩
  · rw [hlookup] at hss
    split at hss
    · next hnew =>
        cases hss
        exact .inr ⟨List.mem_singleton_self _, hnew.1⟩
    · exact .inl hss
  · rw [hself] at hx
    rcases List.mem_append.mp hx with hold | hnew
    · exact hunexpired x hold
    · rw [List.mem_singleton.mp hnew]
      have hstart := htime.1
      dsimp only
      omega
  · rcases hpushed.offers c x hx with hold | ⟨hc, rfl⟩
    · exact .inl hold
    · exact .inr ⟨hc, vMsg, List.mem_singleton_self _, rfl⟩
  · rw [List.mem_singleton.mp hv]
    have htype : (invOf env vMsg.tx).type = MSG_TX := rfl
    exact hpushed.told (by rw [htype]; decide) c hc

omit [DecidableEq ν] [DecidableEq κ] in
theorem Relays.cons {net'' : TxNet ν κ φ} {vMsg : CDataStream} {msgs : List CDataStream}
    (h : Relays env t0 i [vMsg] net net') (h' : Relays env t0 i msgs net' net'') :
    Relays env t0 i (vMsg :: msgs) net net'' := by
  refine ⟨h'.relay.trans h.relay, h'.vNodes.trans h.vNodes, h'.flight.trans h.flight,
    fun c => (h'.asks c).trans (h.asks c), fun c => (h'.known c).trans (h.known c),
    fun j hj => (h'.others j hj).trans (h.others j hj),
    fun inv ss hss => h'.keeps inv ss (h.keeps inv ss hss), fun v hv => ?_, fun inv ss hss => ?_,
    h'.unexpired, fun c x hx => h'.grows c x (h.grows c x hx), fun c x hx => ?_,
    fun c hc v hv => ?_⟩
  · rcases List.mem_cons.mp hv with rfl | hv
    · obtain ⟨ss, hss⟩ := h.stored v (List.mem_singleton_self _)
      exact ⟨ss, h'.keeps _ ss hss⟩
    · exact h'.stored v hv
  · rcases h'.only inv ss hss with hold | ⟨hmem, heq⟩
    · rcases h.only inv ss hold with hold | ⟨hmem, heq⟩
      · exact .inl hold
      · exact .inr ⟨List.mem_singleton.mp hmem ▸ List.mem_cons_self, heq⟩
    · exact .inr ⟨List.mem_cons_of_mem _ hmem, heq⟩
  · rcases h'.offers c x hx with hold | ⟨hc, v, hv, heq⟩
    · rcases h.offers c x hold with hold | ⟨hc, v, hv, heq⟩
      · exact .inl hold
      · exact .inr ⟨hc, v, List.mem_singleton.mp hv ▸ List.mem_cons_self, heq⟩
    · rw [h.vNodes] at hc
      exact .inr ⟨hc, v, List.mem_cons_of_mem _ hv, heq⟩
  · rcases List.mem_cons.mp hv with rfl | hv
    · rcases h.told c hc v (List.mem_singleton_self _) with hwaits | hknown
      · exact .inl (h'.grows c _ hwaits)
      · exact .inr hknown
    · rw [← h.vNodes] at hc
      rw [← h.known c]
      exact h'.told c hc v hv

theorem relays_foldl (htime : InTime t0 nTime) (msgs : List CDataStream)
    (hunexpired : ∀ x ∈ (net.memory i).vRelayExpiration, t0 + 15 * 60 ≤ x.1) :
    Relays env t0 i msgs net
      (msgs.foldl (fun net vMsg => (net.relayMessage env nTime i vMsg).forget env i vMsg) net) := by
  induction msgs generalizing net with
  | nil =>
      exact ⟨rfl, rfl, rfl, fun _ => rfl, fun _ => rfl, fun _ _ => rfl, fun _ _ h => h,
        fun _ h => (List.not_mem_nil h).elim, fun _ _ h => .inl h, hunexpired, fun _ _ h => h,
        fun _ _ h => .inl h, fun _ _ _ h => (List.not_mem_nil h).elim⟩
  | cons vMsg msgs ih =>
      have hone : Relays env t0 i [vMsg] net
          ((net.relayMessage env nTime i vMsg).forget env i vMsg) := by
        have h : Relays env t0 i [vMsg] net (net.relayMessage env nTime i vMsg) :=
          relays_one htime hunexpired vMsg
        exact ⟨h.relay, h.vNodes, h.flight, h.asks, h.known, h.others, h.keeps, h.stored, h.only,
          h.unexpired, h.grows, h.offers, h.told⟩
      exact hone.cons (ih hone.unexpired)

omit [DecidableEq κ] in
/-- What comes into the pool of a node is kept to be sent, and offered to its peers, unless they are
known to have it. -/
theorem Gossip.take (h : Gossip env honest node txs t0 net) (hi : honest i) {s : RelayState φ}
    {msgs : List CDataStream} (hsettled : Settled env.renv (env.files i) (node i) txs s)
    (htakes : Takes env.renv txs (net.relay i) s msgs)
    (hrelays : Relays env t0 i msgs (net.setRelay i s) net') :
    Gossip env honest node txs t0 net' := by
  have hrelay : ∀ j, net'.relay j = if j = i then s else net.relay j := by
    intro j
    rw [hrelays.relay]
    exact relay_setRelay net i j s
  have hself : net'.relay i = s := by rw [hrelay, if_pos rfl]
  -- pools and orphans only grow
  have hpooled : ∀ j tx, (net.relay j).Pooled env.renv tx → (net'.relay j).Pooled env.renv tx := by
    intro j tx hold
    rw [hrelay]
    split
    · next hj => exact htakes.keeps _ (hj ▸ hold)
    · exact hold
  have hholds : ∀ j tx, (net.relay j).Holds env.renv tx → (net'.relay j).Holds env.renv tx := by
    intro j tx hold
    rw [hrelay]
    split
    · next hj => exact htakes.holds _ (hj ▸ hold)
    · exact hold
  have hnew : ∀ j tx, (net'.relay j).Pooled env.renv tx → (net.relay j).Pooled env.renv tx ∨
      j = i ∧ ∃ vMsg ∈ msgs, env.renv.getHash vMsg.tx = env.renv.getHash tx := by
    intro j tx hin
    rw [hrelay] at hin
    split at hin
    · next hj =>
        subst hj
        exact (htakes.news _ hin).imp_right fun hmem => ⟨rfl, hmem⟩
    · exact .inl hin
  have hmsg : ∀ vMsg ∈ msgs, vMsg.tx ∈ txs ∧ vMsg.size ≤ 5000 ∧
      (net'.relay i).Pooled env.renv vMsg.tx := by
    intro vMsg hmem
    obtain ⟨htx, hsize, -, hin⟩ := htakes.msgs vMsg hmem
    rw [hself]
    exact ⟨htx, hsize, hin⟩
  have hcoming : ∀ c tx, net.Coming env c tx → net'.Coming env c tx := by
    intro c tx hold
    unfold Coming at hold ⊢
    rw [hrelays.flight, hrelays.asks]
    exact hold
  have hmemory : ∀ j, j ≠ i → net'.memory j = net.memory j := hrelays.others
  refine ⟨fun j hj => ?_, fun j hj tx htx hin => ?_, fun j hj inv ss hss => ?_, fun j hj => ?_,
    fun c hlink tx htx hmem => ?_, fun c msg hlink hmem => ?_, fun c hlink hc tx htx hmem => ?_,
    fun c hlink hc tx htx hin => ?_, ?_, ?_⟩
  · rw [hrelay]
    split
    · next hji => exact hji ▸ hsettled
    · exact h.settled j hj
  · by_cases hji : j = i
    · subst hji
      rcases hnew j tx hin with hold | ⟨-, vMsg, hmem, heq⟩
      · obtain ⟨ss, hss⟩ := h.kept j hj tx htx hold
        exact ⟨ss, hrelays.keeps _ ss hss⟩
      · obtain ⟨ss, hss⟩ := hrelays.stored vMsg hmem
        refine ⟨ss, ?_⟩
        rw [invOf, ← heq]
        exact hss
    · rw [hmemory j hji]
      rcases hnew j tx hin with hold | ⟨heq, -⟩
      · exact h.kept j hj tx htx hold
      · exact absurd heq hji
  · by_cases hji : j = i
    · subst hji
      rcases hrelays.only inv ss hss with hold | ⟨hmem, heq⟩
      · obtain ⟨heq, htx, hsize, hin⟩ := h.memory j hj inv ss hold
        exact ⟨heq, htx, hsize, hpooled j _ hin⟩
      · exact ⟨heq, hmsg ss hmem⟩
    · rw [hmemory j hji] at hss
      obtain ⟨heq, htx, hsize, hin⟩ := h.memory j hj inv ss hss
      exact ⟨heq, htx, hsize, hpooled j _ hin⟩
  · by_cases hji : j = i
    · subst hji
      exact hrelays.unexpired
    · rw [hmemory j hji]
      exact h.unexpired j hj
  · rcases hrelays.offers c _ hmem with hold | ⟨hc, vMsg, hv, heq⟩
    · exact hpooled _ tx (h.offers c hlink tx htx hold)
    · rw [h.owned i c hc]
      unfold Pooled
      rw [getHash_eq_of_invOf heq]
      exact (hmsg vMsg hv).2.2
  · rw [hrelays.flight] at hmem
    have hold := h.flight c msg hlink hmem
    cases msg with
    | inv vInv =>
        intro hlink
        obtain ⟨hlen, hall⟩ := hold hlink
        exact ⟨hlen, fun tx htx hmem => hpooled _ tx (hall tx htx hmem)⟩
    | getdata vInv => exact hold
    | tx vMsg =>
        obtain ⟨htx, hsize, hin⟩ := hold
        exact ⟨htx, hsize, fun hlink => hpooled _ _ (hin hlink)⟩
  · rw [hrelays.known] at hmem
    rw [hrelays.vNodes] at hc
    rcases h.known c hlink hc tx htx hmem with hold | ⟨hin, hold⟩
    · exact .inl (hholds _ tx hold)
    · exact .inr ⟨hpooled _ tx hin, hcoming c tx hold⟩
  · rw [hrelays.vNodes] at hc
    rcases hnew _ tx hin with hold | ⟨howner, vMsg, hv, heq⟩
    · rcases h.told c hlink hc tx htx hold with hheld | hwaits | hold
      · exact .inl (hholds _ tx hheld)
      · exact .inr (.inl (hrelays.grows c _ hwaits))
      · exact .inr (.inr (hcoming c tx hold))
    · have hinv : invOf env vMsg.tx = invOf env tx := congrArg CInv.tx heq
      have hnone := (htakes.msgs vMsg hv).2.2.1
      rcases hrelays.told c (howner ▸ hc) vMsg hv with hwaits | hknown
      · exact .inr (.inl (hinv ▸ hwaits))
      · -- known before it was in the pool: the peer has it
        rcases h.known c hlink hc tx htx (hinv ▸ hknown) with hheld | ⟨hin, -⟩
        · exact .inl (hholds _ tx hheld)
        · unfold Pooled at hin
          rw [howner, ← heq, hnone] at hin
          exact Bool.noConfusion hin
  · rw [hrelays.vNodes]
    exact h.owned
  · rw [hrelays.vNodes]
    exact h.symm

/-- A transaction comes in a message. -/
theorem Gossip.onTx (h : Gossip env honest node txs t0 net)
    (hA : ∀ i, honest i → Arriving env.renv (env.files i) (node i) txs)
    (hcard : txs.card < MAX_ORPHAN_TRANSACTIONS) (htime : InTime t0 nTime)
    (hi : honest (env.links.owner c)) (rand : Nat → Uint256) {vMsg : CDataStream}
    (hwelcome : Welcome env honest txs net c (.tx vMsg)) :
    Handled env honest node txs t0 c (.tx vMsg) net (net.onTx env nTime rand c vMsg) := by
  obtain ⟨htx, hsize, hin⟩ := hwelcome
  have hknow : Gossip env honest node txs t0
      (net.setPeer c ((net.peer c).addInventoryKnown (invOf env vMsg.tx))) := by
    refine h.setPeer rfl (fun _ hx => hx) fun hlink tx htx hmem => ?_
    rcases Mruset.mem_insert hmem with heq | hold
    · right
      unfold Pooled
      rw [getHash_eq_of_invOf heq]
      exact hin hlink
    · exact .inl hold
  obtain ⟨hsettled, hheld, htakes⟩ :=
    (h.settled _ hi).processTx (hA _ hi) hcard htx hsize rand
  have hrelays : Relays env t0 (env.links.owner c)
      ((net.relay (env.links.owner c)).announced env.renv (env.files (env.links.owner c)) vMsg)
      ((net.setPeer c ((net.peer c).addInventoryKnown (invOf env vMsg.tx))).setRelay
        (env.links.owner c) (Lib.final ((net.relay (env.links.owner c)).processTx env.renv
          (env.files (env.links.owner c)) rand vMsg)))
      (net.onTx env nTime rand c vMsg) := relays_foldl htime _ (h.unexpired _ hi)
  refine ⟨hknow.take hi hsettled htakes hrelays, ⟨[], ?_⟩, (by rintro _ ⟨⟩), (by rintro _ ⟨⟩), ?_⟩
  · rw [List.append_nil]
    exact hrelays.flight
  · rintro _ ⟨⟩
    rw [hrelays.relay, relay_setRelay, if_pos rfl]
    exact hheld

/-- A transaction is submitted to a node. -/
theorem Gossip.submit (h : Gossip env honest node txs t0 net)
    (hA : ∀ i, honest i → Arriving env.renv (env.files i) (node i) txs) (htime : InTime t0 nTime)
    (hi : honest i) (htx : tx ∈ txs) (hsize : ({ tx } : CDataStream).size ≤ 5000)
    (hnew : env.renv.getHash tx ∉ (net.relay i).orphans.mapOrphanTransactions)
    (hfree : ∀ (k : Uint256) (vMsg : CDataStream),
      (net.relay i).orphans.mapOrphanTransactions[k]? = some vMsg → ¬ Spends env.renv vMsg.tx tx) :
    Gossip env honest node txs t0 (net.submit env nTime i tx) := by
  unfold TxNet.submit
  rcases (h.settled i hi).acceptTx (hA i hi) htx hsize hnew hfree with ⟨r, hacc⟩ |
    ⟨s, hacc, hsettled, htakes⟩
  · rw [hacc]
    dsimp only
    have hsame : net.setRelay i (net.relay i) = net := by
      unfold setRelay
      rw [Function.update_eq_self]
    rw [hsame]
    exact h
  · rw [hacc]
    dsimp only
    have hunexpired : ∀ x ∈ ((net.setRelay i s).memory i).vRelayExpiration, t0 + 15 * 60 ≤ x.1 :=
      h.unexpired i hi
    exact h.take hi hsettled htakes (relays_one htime hunexpired { tx })

/-! ## Every step -/

theorem Gossip.sendMessages (h : Gossip env honest node txs t0 net)
    (hA : ∀ i, honest i → Arriving env.renv (env.files i) (node i) txs) (fSendTrickle : Bool)
    (fTrickleWait : Uint256 → Bool) :
    Gossip env honest node txs t0
      (net.sendMessages env nTime c fSendTrickle fTrickleWait) := by
  unfold TxNet.sendMessages
  split
  · exact h
  · have hoffered := (net.peer c).offered fSendTrickle fTrickleWait
    dsimp only
    generalize (net.peer c).offer fSendTrickle fTrickleWait = x at hoffered ⊢
    obtain ⟨pto, vInvs⟩ := x
    have hasked := pto.asked (net.alreadyHave (env.links.owner c)) nTime
      (net.times (env.links.owner c))
    dsimp only at hoffered ⊢
    generalize pto.ask (net.alreadyHave (env.links.owner c)) nTime
      (net.times (env.links.owner c)) = y at hasked ⊢
    obtain ⟨times, pto', vGetDatas⟩ := y
    dsimp only at hasked ⊢
    have hpeer : ∀ x, ((net.setTimes (env.links.owner c) times).setPeer c pto').peer x =
        if x = c then pto' else net.peer x := fun x => peer_setPeer _ c x pto'
    refine h.pass ⟨rfl, rfl, rfl, fun x hx => ?_, fun x msg hlink hmem => ?_,
      fun x hlink tx htx hmem => ?_, fun x hlink tx htx t hmem => ?_, fun x hlink tx htx hmem => ?_,
      fun x hlink tx htx hmem => ?_⟩
    · exact List.mem_append_left _ (List.mem_append_left _ hx)
    · rcases List.mem_append.mp hmem with hmem | hmem
      · rcases List.mem_append.mp hmem with hold | hmem
        · exact .inl hold
        · obtain ⟨vInv, hv, heq⟩ := List.mem_map.mp hmem
          cases heq
          obtain ⟨hlen, hsent⟩ := hoffered.sent vInv hv
          refine .inr fun hlink => ⟨hlen, fun tx htx hmem => ?_⟩
          have hback := HonestLink.far hlink
          rw [env.links.far_far] at hback ⊢
          exact h.offers c hback tx htx (hsent _ hmem)
      · obtain ⟨vInv, hv, heq⟩ := List.mem_map.mp hmem
        cases heq
        exact .inr fun _ => hasked.sent vInv hv
    · replace hmem : invOf env tx ∈ (((net.setTimes (env.links.owner c) times).setPeer c
        pto').peer x).vInventoryToSend := hmem
      rw [hpeer] at hmem
      split at hmem
      · next hx =>
          rw [hasked.vInventoryToSend] at hmem
          exact hx ▸ hoffered.waits _ hmem
      · exact hmem
    · show (t, invOf env tx) ∈ (((net.setTimes (env.links.owner c) times).setPeer c
        pto').peer x).mapAskFor ∨ _
      rw [hpeer]
      split
      · next hx =>
          subst hx
          rw [← hoffered.mapAskFor] at hmem
          rcases hasked.placed _ hmem with hstill | hhave | ⟨vInv, hv, hin⟩
          · exact .inl hstill
          · exact .inr (.inl ((h.alreadyHave_iff hA hlink.1 htx).mp hhave))
          · exact .inr (.inr ⟨vInv,
              List.mem_append_right _ (List.mem_map.mpr ⟨vInv, hv, rfl⟩), hin⟩)
      · exact .inl hmem
    · replace hmem : invOf env tx ∈ (((net.setTimes (env.links.owner c) times).setPeer c
        pto').peer x).setInventoryKnown.set := hmem
      rw [hpeer] at hmem
      split at hmem
      · next hx =>
          subst hx
          rw [hasked.setInventoryKnown] at hmem
          rcases hoffered.known _ hmem with hold | ⟨vInv, hv, hin⟩
          · exact .inl hold
          · exact .inr (.inr ⟨h.offers x hlink tx htx ((hoffered.sent vInv hv).2 _ hin), vInv,
              List.mem_append_left _ (List.mem_append_right _ (List.mem_map.mpr ⟨vInv, hv, rfl⟩)),
              hin⟩)
      · exact .inl hmem
    · show invOf env tx ∈ (((net.setTimes (env.links.owner c) times).setPeer c
        pto').peer x).vInventoryToSend ∨ _
      rw [hpeer]
      split
      · next hx =>
          subst hx
          rw [hasked.vInventoryToSend]
          rcases hoffered.placed _ hmem with hknown | ⟨vInv, hv, hin⟩ | hwaits
          · exact .inr (.inl hknown)
          · exact .inr (.inr ⟨vInv,
              List.mem_append_left _ (List.mem_append_right _ (List.mem_map.mpr ⟨vInv, hv, rfl⟩)),
              hin⟩)
          · exact .inl hwaits
      · exact .inl hmem

/-- Whatever a node is sent -/
theorem Gossip.onMessage (h : Gossip env honest node txs t0 net)
    (hA : ∀ i, honest i → Arriving env.renv (env.files i) (node i) txs)
    (hcard : txs.card < MAX_ORPHAN_TRANSACTIONS) (htime : InTime t0 nTime)
    (hi : honest (env.links.owner c)) (rand : Nat → Uint256) {msg : TxMessage}
    (hwelcome : Welcome env honest txs net c msg) :
    Gossip env honest node txs t0 (net.onMessage env nTime rand c msg) ∧
      ((net.peer c).nVersion ≠ 0 →
        Handled env honest node txs t0 c msg net (net.onMessage env nTime rand c msg)) := by
  unfold TxNet.onMessage
  split
  · next hzero => exact ⟨h, fun hversion => absurd hzero hversion⟩
  · cases msg with
    | inv vInv =>
        have hhandled := h.onInv nTime hA hwelcome
        exact ⟨hhandled.gossip, fun _ => hhandled⟩
    | getdata vInv =>
        have hhandled := h.onGetdata hi hwelcome
        exact ⟨hhandled.gossip, fun _ => hhandled⟩
    | tx vMsg =>
        have hhandled := h.onTx hA hcard htime hi rand hwelcome
        exact ⟨hhandled.gossip, fun _ => hhandled⟩

omit [DecidableEq ν] [DecidableEq κ] in
/-- A message that was processed is erased. -/
theorem Handled.erase {msg : TxMessage} (h : Handled env honest node txs t0 c msg net net')
    (hlink : HonestLink env.links honest c) {n : Nat} (hget : net.flight[n]? = some (c, msg)) :
    Gossip env honest node txs t0 { net' with flight := net'.flight.eraseIdx n } := by
  obtain ⟨hgossip, ⟨new, hnew⟩, hinv, hgetdata, htx⟩ := h
  have hlast : net'.flight[n]? = some (c, msg) := by
    rw [hnew, List.getElem?_append_left (List.getElem?_eq_some_iff.mp hget).1, hget]
  have hsub : ∀ x ∈ net'.flight.eraseIdx n, x ∈ net'.flight :=
    fun x hx => List.mem_of_mem_eraseIdx hx
  have hcoming : ∀ x, HonestLink env.links honest x → ∀ tx ∈ txs,
      (net'.relay (env.links.owner x)).Pooled env.renv tx → net'.Coming env x tx →
      (net'.relay (env.links.owner (env.links.far x))).Holds env.renv tx ∨
        Coming env { net' with flight := net'.flight.eraseIdx n } x tx := by
    rintro x hx tx htxs hpooled (⟨vInv, hmsg, hmem⟩ | ⟨t, hask⟩ | ⟨vInv, hmsg, hmem⟩ |
      ⟨vMsg, hmsg, heq⟩)
    · rcases AlertNet.mem_eraseIdx_or hlast hmsg with hstill | hthis
      · exact .inr (.inl ⟨vInv, hstill, hmem⟩)
      · obtain ⟨hend, hmsg⟩ := Prod.mk.inj hthis
        rw [hend]
        exact (hinv vInv hmsg.symm hlink tx htxs hmem).imp_right fun hask =>
          .inr (.inl (hend.symm ▸ hask))
    · exact .inr (.inr (.inl ⟨t, hask⟩))
    · rcases AlertNet.mem_eraseIdx_or hlast hmsg with hstill | hthis
      · exact .inr (.inr (.inr (.inl ⟨vInv, hstill, hmem⟩)))
      · obtain ⟨rfl, hmsg⟩ := Prod.mk.inj hthis
        obtain ⟨vMsg, hsent, heq⟩ := hgetdata vInv hmsg.symm hlink tx htxs hmem hpooled
        rcases AlertNet.mem_eraseIdx_or hlast hsent with hstill | hthis
        · exact .inr (.inr (.inr (.inr ⟨vMsg, hstill, heq⟩)))
        · rw [← (Prod.mk.inj hthis).2] at hmsg
          cases hmsg
    · rcases AlertNet.mem_eraseIdx_or hlast hmsg with hstill | hthis
      · exact .inr (.inr (.inr (.inr ⟨vMsg, hstill, heq⟩)))
      · obtain ⟨hend, hmsg⟩ := Prod.mk.inj hthis
        left
        have hheld := htx vMsg hmsg.symm
        unfold Holds Pooled at hheld ⊢
        rw [hend, ← getHash_eq_of_invOf heq]
        exact hheld
  refine ⟨hgossip.settled, hgossip.kept, hgossip.memory, hgossip.unexpired, hgossip.offers,
    fun x msg hx hmem => hgossip.flight x msg hx (hsub _ hmem), fun x hx hmem tx htxs hknown => ?_,
    fun x hx hmem tx htxs hpooled => ?_, hgossip.owned, hgossip.symm⟩
  · rcases hgossip.known x hx hmem tx htxs hknown with hheld | ⟨hpooled, hold⟩
    · exact .inl hheld
    · exact (hcoming x hx tx htxs hpooled hold).imp_right fun hnext => ⟨hpooled, hnext⟩
  · rcases hgossip.told x hx hmem tx htxs hpooled with hheld | hwaits | hold
    · exact .inl hheld
    · exact .inr (.inl hwaits)
    · exact (hcoming x hx tx htxs hpooled hold).imp_right .inr

omit [DecidableEq ν] in
theorem peer_disconnect_other {x : κ} (hc : x ≠ c) (hfar : x ≠ env.links.far c) :
    (net.disconnect env c).peer x = net.peer x := by
  unfold TxNet.disconnect
  dsimp only
  rw [if_pos (decide_eq_true ⟨hc, hfar⟩)]

omit [DecidableEq ν] in
theorem peer_disconnect_self {x : κ} (h : x = c ∨ x = env.links.far c) :
    (net.disconnect env c).peer x = .new env.nSendBufferSize := by
  unfold TxNet.disconnect
  dsimp only
  rw [if_neg]
  rw [decide_eq_true_iff, not_and_or, not_ne_iff, not_ne_iff]
  exact h

omit [DecidableEq ν] in
theorem Gossip.disconnect (h : Gossip env honest node txs t0 net) :
    Gossip env honest node txs t0 (net.disconnect env c) := by
  have hmem : ∀ x i, x ∈ (net.disconnect env c).vNodes i ↔
      x ∈ net.vNodes i ∧ x ≠ c ∧ x ≠ env.links.far c := by
    intro x i
    unfold TxNet.disconnect
    rw [List.mem_filter, decide_eq_true_iff]
  have hflight : ∀ x, x ∈ (net.disconnect env c).flight ↔
      x ∈ net.flight ∧ x.1 ≠ c ∧ x.1 ≠ env.links.far c := by
    intro x
    unfold TxNet.disconnect
    rw [List.mem_filter, decide_eq_true_iff]
  -- the other end is not one of the two either
  have hother : ∀ x, x ≠ c → x ≠ env.links.far c →
      env.links.far x ≠ c ∧ env.links.far x ≠ env.links.far c := by
    intro x hc hfar
    refine ⟨fun heq => hfar ?_, fun heq => hc ?_⟩
    · rw [← heq, env.links.far_far]
    · rw [← env.links.far_far x, heq, env.links.far_far]
  have hcoming : ∀ x, x ≠ c → x ≠ env.links.far c → ∀ tx, net.Coming env x tx →
      (net.disconnect env c).Coming env x tx := by
    intro x hc hfar tx hold
    obtain ⟨hc', hfar'⟩ := hother x hc hfar
    rcases hold with ⟨vInv, hmsg, hin⟩ | ⟨t, hask⟩ | ⟨vInv, hmsg, hin⟩ | ⟨vMsg, hmsg, heq⟩
    · exact .inl ⟨vInv, (hflight _).mpr ⟨hmsg, hc', hfar'⟩, hin⟩
    · refine .inr (.inl ⟨t, ?_⟩)
      rw [peer_disconnect_other hc' hfar']
      exact hask
    · exact .inr (.inr (.inl ⟨vInv, (hflight _).mpr ⟨hmsg, hc, hfar⟩, hin⟩))
    · exact .inr (.inr (.inr ⟨vMsg, (hflight _).mpr ⟨hmsg, hc', hfar'⟩, heq⟩))
  refine ⟨h.settled, h.kept, h.memory, h.unexpired, fun x hlink tx htx hwaits => ?_,
    fun x msg hlink hx => h.flight x msg hlink ((hflight _).mp hx).1,
    fun x hlink hx tx htx hknown => ?_, fun x hlink hx tx htx hpooled => ?_,
    fun i x hx => h.owned i x ((hmem x i).mp hx).1, fun x hx => ?_⟩
  · by_cases hends : x = c ∨ x = env.links.far c
    · rw [peer_disconnect_self hends] at hwaits
      exact (List.not_mem_nil hwaits).elim
    · obtain ⟨hc, hfar⟩ := not_or.mp hends
      rw [peer_disconnect_other hc hfar] at hwaits
      exact h.offers x hlink tx htx hwaits
  · obtain ⟨hx, hc, hfar⟩ := (hmem x _).mp hx
    rw [peer_disconnect_other hc hfar] at hknown
    exact (h.known x hlink hx tx htx hknown).imp_right fun hold =>
      ⟨hold.1, hcoming x hc hfar tx hold.2⟩
  · obtain ⟨hx, hc, hfar⟩ := (hmem x _).mp hx
    rw [peer_disconnect_other hc hfar]
    exact (h.told x hlink hx tx htx hpooled).imp_right fun hrest =>
      hrest.imp_right (hcoming x hc hfar tx)
  · obtain ⟨hx, hc, hfar⟩ := (hmem x _).mp hx
    exact (hmem _ _).mpr ⟨h.symm x hx, hother x hc hfar⟩

omit [DecidableEq κ] in
theorem mem_add (vNodes : ν → List κ) (c x : κ) (i : ν) :
    x ∈ Function.update vNodes (env.links.owner c) (c :: vNodes (env.links.owner c)) i ↔
      (x = c ∧ i = env.links.owner c) ∨ x ∈ vNodes i := by
  rw [Function.update_apply]
  split
  · next h => simp [h]
  · next h => simp [h]

theorem mem_connect (net : TxNet ν κ φ) (c x : κ) (i : ν) :
    x ∈ (net.connect env c).vNodes i ↔ (x = c ∧ i = env.links.owner c) ∨
      (x = env.links.far c ∧ i = env.links.owner (env.links.far c)) ∨
      x ∈ (net.disconnect env c).vNodes i := by
  rw [or_left_comm]
  exact (mem_add _ _ x i).trans (or_congr_right (mem_add (net.disconnect env c).vNodes c x i))

/-- Before a transaction has come to either node, they are connected. -/
theorem Gossip.connect (h : Gossip env honest node txs t0 net)
    (hnone : HonestLink env.links honest c → ∀ tx ∈ txs,
      ¬ (net.relay (env.links.owner c)).Pooled env.renv tx ∧
        ¬ (net.relay (env.links.owner (env.links.far c))).Pooled env.renv tx) :
    Gossip env honest node txs t0 (net.connect env c) := by
  have hold : Gossip env honest node txs t0 (net.disconnect env c) := h.disconnect
  have hnew : ∀ x, x ∈ (net.connect env c).vNodes (env.links.owner x) →
      (x = c ∨ x = env.links.far c) ∨ x ∈ (net.disconnect env c).vNodes (env.links.owner x) := by
    intro x hx
    rcases (mem_connect net c x _).mp hx with ⟨hc, -⟩ | ⟨hfar, -⟩ | hold
    · exact .inl (.inl hc)
    · exact .inl (.inr hfar)
    · exact .inr hold
  refine ⟨hold.settled, hold.kept, hold.memory, hold.unexpired, hold.offers, hold.flight,
    fun x hlink hx tx htx hknown => ?_, fun x hlink hx tx htx hpooled => ?_, fun i x hx => ?_,
    fun x hx => ?_⟩
  · rcases hnew x hx with hends | hx
    · replace hknown : _ ∈ ((net.disconnect env c).peer x).setInventoryKnown.set := hknown
      rw [peer_disconnect_self hends, InvPeer.set_new] at hknown
      exact absurd hknown Std.ExtTreeSet.not_mem_empty
    · exact hold.known x hlink hx tx htx hknown
  · rcases hnew x hx with hends | hx
    · exfalso
      rcases hends with rfl | rfl
      · exact (hnone hlink tx htx).1 hpooled
      · have hback := HonestLink.far hlink
        rw [env.links.far_far] at hback
        exact (hnone hback tx htx).2 hpooled
    · exact hold.told x hlink hx tx htx hpooled
  · rcases (mem_connect net c x i).mp hx with ⟨rfl, rfl⟩ | ⟨rfl, rfl⟩ | hx
    · rfl
    · rfl
    · exact hold.owned i x hx
  · rw [mem_connect]
    rcases hnew x hx with (rfl | rfl) | hx
    · exact .inr (.inl ⟨rfl, rfl⟩)
    · rw [env.links.far_far]
      exact .inl ⟨rfl, rfl⟩
    · exact .inr (.inr (hold.symm x hx))

/-- What may happen while transactions spread. All that happens is within 15 minutes. Honest nodes are
connected before a transaction has come to one of them, and send nothing but what the code sends;
between them no message comes before the `version`. What others send is arbitrary, but for the
transactions in it. `sendrawtransaction` does not look for orphans, so nobody may wait for what is
submitted. -/
def Fair (env : TxNetEnv ν κ φ) (honest : ν → Prop) (txs : Finset CTransaction) (t0 : ℤ)
    (net : TxNet ν κ φ) : Op ν κ → Prop
  | .connect c => HonestLink env.links honest c → ∀ tx ∈ txs,
      ¬ (net.relay (env.links.owner c)).Pooled env.renv tx ∧
        ¬ (net.relay (env.links.owner (env.links.far c))).Pooled env.renv tx
  | .disconnect _ | .version _ _ | .sendMessages _ _ _ _ => True
  | .submit nTime i tx => InTime t0 nTime ∧ honest i ∧ tx ∈ txs ∧
      ({ tx } : CDataStream).size ≤ 5000 ∧
      env.renv.getHash tx ∉ (net.relay i).orphans.mapOrphanTransactions ∧
      ∀ (k : Uint256) (vMsg : CDataStream),
        (net.relay i).orphans.mapOrphanTransactions[k]? = some vMsg → ¬ Spends env.renv vMsg.tx tx
  | .inventory _ inv => inv.type ≠ MSG_TX
  | .deliver nTime _ n => InTime t0 nTime ∧ ∀ c msg, net.flight[n]? = some (c, msg) →
      HonestLink env.links honest c ∧ (net.peer c).nVersion ≠ 0
  | .forge nTime _ c msg => InTime t0 nTime ∧ honest (env.links.owner c) ∧
      ¬ HonestLink env.links honest c ∧
      ∀ vMsg, msg = .tx vMsg → vMsg.tx ∈ txs ∧ vMsg.size ≤ 5000

theorem Gossip.exec (h : Gossip env honest node txs t0 net)
    (hA : ∀ i, honest i → Arriving env.renv (env.files i) (node i) txs)
    (hcard : txs.card < MAX_ORPHAN_TRANSACTIONS) {op : Op ν κ}
    (hok : Fair env honest txs t0 net op) : Gossip env honest node txs t0 (net.exec env op) := by
  cases op with
  | connect c => exact h.connect hok
  | disconnect c => exact h.disconnect
  | version c nVersion => exact h.onVersion nVersion
  | submit nTime i tx =>
      obtain ⟨htime, hi, htx, hsize, hnew, hfree⟩ := hok
      exact h.submit hA htime hi htx hsize hnew hfree
  | inventory i inv => exact h.relayInventory hok
  | sendMessages nTime c fSendTrickle fTrickleWait => exact h.sendMessages hA fSendTrickle fTrickleWait
  | deliver nTime rand n =>
      obtain ⟨htime, hend⟩ := hok
      unfold TxNet.exec
      dsimp only
      split
      · exact h
      · next c msg hget =>
          obtain ⟨hlink, hversion⟩ := hend c msg hget
          have hwelcome := h.flight c msg hlink (List.mem_of_getElem? hget)
          exact ((h.onMessage hA hcard htime hlink.1 rand hwelcome).2 hversion).erase hlink hget
  | forge nTime rand c msg =>
      obtain ⟨htime, hi, hlink, htx⟩ := hok
      refine (h.onMessage hA hcard htime hi rand ?_).1
      cases msg with
      | inv vInv => exact fun hlink' => absurd hlink' hlink
      | getdata vInv => exact fun hlink' => absurd hlink' hlink
      | tx vMsg =>
          obtain ⟨htx, hsize⟩ := htx vMsg rfl
          exact ⟨htx, hsize, fun hlink' => absurd hlink' hlink⟩

omit [DecidableEq ν] [DecidableEq κ] in
theorem gossip_start (free : ν → φ)
    (hnew : ∀ i, honest i → ∀ tx ∈ txs, (node i).mempool.lookup (env.renv.getHash tx) = none) :
    Gossip env honest node txs t0 (start env fun i => { node := node i, free := free i }) := by
  have hnone : ∀ i, honest i → ∀ tx ∈ txs,
      ¬ ({ node := node i, free := free i } : RelayState φ).Pooled env.renv tx := by
    intro i hi tx htx hpooled
    unfold Pooled at hpooled
    rw [hnew i hi tx htx] at hpooled
    exact Bool.noConfusion hpooled
  refine ⟨fun i hi => ⟨?_, fun h v hv => ?_, fun tx htx hpooled => ?_⟩,
    fun i hi tx htx hpooled => absurd hpooled (hnone i hi tx htx), fun i hi inv ss hss => ?_,
    fun i hi x hx => (List.not_mem_nil hx).elim, fun c hlink tx htx hmem => ?_,
    fun c msg hlink hmem => (List.not_mem_nil hmem).elim,
    fun c hlink hc => (List.not_mem_nil hc).elim, fun c hlink hc => (List.not_mem_nil hc).elim,
    fun i c hc => (List.not_mem_nil hc).elim, fun c hc => (List.not_mem_nil hc).elim⟩
  · exact (RelayState.quiet_start env.renv (env.files i) (node i) (free i) txs).holds
  · replace hv : (∅ : StreamMap)[h]? = some v := hv
    rw [Std.ExtTreeMap.getElem?_empty] at hv
    cases hv
  · exact absurd hpooled (hnone i hi tx htx)
  · replace hss : (∅ : ExtTreeMap CInv CDataStream CInv.cmp)[inv]? = some ss := hss
    rw [Std.ExtTreeMap.getElem?_empty] at hss
    cases hss
  · exact (List.not_mem_nil hmem).elim

theorem Run.gossip (hA : ∀ i, honest i → Arriving env.renv (env.files i) (node i) txs)
    (hcard : txs.card < MAX_ORPHAN_TRANSACTIONS) {free : ν → φ}
    (hnew : ∀ i, honest i → ∀ tx ∈ txs, (node i).mempool.lookup (env.renv.getHash tx) = none)
    (hrun : Run env (fun i => { node := node i, free := free i }) (Fair env honest txs t0) net) :
    Gossip env honest node txs t0 net := by
  induction hrun with
  | start => exact gossip_start free hnew
  | step op hrun hok ih => exact ih.exec hA hcard hok

/-- Between honest nodes nothing is on the way, and nothing waits to be offered or asked for. -/
structure Quiescent (env : TxNetEnv ν κ φ) (honest : ν → Prop) (net : TxNet ν κ φ) : Prop where
  flight : ∀ c msg, HonestLink env.links honest c → (c, msg) ∉ net.flight
  lists : ∀ c, HonestLink env.links honest c →
    (net.peer c).vInventoryToSend = [] ∧ (net.peer c).mapAskFor = []

/-- A connection between honest nodes -/
def Connected (env : TxNetEnv ν κ φ) (honest : ν → Prop) (net : TxNet ν κ φ) (i j : ν) : Prop :=
  ∃ c, c ∈ net.vNodes i ∧ env.links.owner (env.links.far c) = j ∧ HonestLink env.links honest c

omit [DecidableEq ν] [DecidableEq κ] in
/-- With nothing on the way, a peer holds what the node has in its pool. -/
theorem Gossip.holds_of_quiescent (h : Gossip env honest node txs t0 net)
    (hquiet : Quiescent env honest net) (hlink : HonestLink env.links honest c)
    (hc : c ∈ net.vNodes (env.links.owner c)) (htx : tx ∈ txs)
    (hpooled : (net.relay (env.links.owner c)).Pooled env.renv tx) :
    (net.relay (env.links.owner (env.links.far c))).Holds env.renv tx := by
  rcases h.told c hlink hc tx htx hpooled with hheld | hwaits | hcoming
  · exact hheld
  · rw [(hquiet.lists c hlink).1] at hwaits
    exact (List.not_mem_nil hwaits).elim
  · exfalso
    rcases hcoming with ⟨vInv, hmsg, -⟩ | ⟨t, hask⟩ | ⟨vInv, hmsg, -⟩ | ⟨vMsg, hmsg, -⟩
    · exact hquiet.flight _ _ (HonestLink.far hlink) hmsg
    · rw [(hquiet.lists _ (HonestLink.far hlink)).2] at hask
      exact List.not_mem_nil hask
    · exact hquiet.flight _ _ hlink hmsg
    · exact hquiet.flight _ _ (HonestLink.far hlink) hmsg

/-- The parents of a transaction have a smaller rank, since its hash comes after theirs. -/
def Ranked (env : TxNetEnv ν κ φ) (txs : Finset CTransaction) (rank : CTransaction → Nat) : Prop :=
  ∀ tx ∈ txs, ∀ tx' ∈ txs, Spends env.renv tx tx' → rank tx' < rank tx

omit [DecidableEq ν] [DecidableEq κ] in
theorem Gossip.pooled_far (h : Gossip env honest node txs t0 net)
    (hA : ∀ i, honest i → Arriving env.renv (env.files i) (node i) txs)
    {rank : CTransaction → Nat} (hrank : Ranked env txs rank) (hquiet : Quiescent env honest net)
    (hlink : HonestLink env.links honest c) (hc : c ∈ net.vNodes (env.links.owner c))
    (htx : tx ∈ txs) (hpooled : (net.relay (env.links.owner c)).Pooled env.renv tx) :
    (net.relay (env.links.owner (env.links.far c))).Pooled env.renv tx :=
  Settled.pooled_of_holds (hA _ hlink.2) (h.settled _ hlink.1).rooted (h.settled _ hlink.2) hrank
    (fun _ htx hpooled => h.holds_of_quiescent hquiet hlink hc htx hpooled) tx htx hpooled

omit [DecidableEq ν] [DecidableEq κ] in
theorem Gossip.pooled_iff (h : Gossip env honest node txs t0 net)
    (hA : ∀ i, honest i → Arriving env.renv (env.files i) (node i) txs)
    {rank : CTransaction → Nat} (hrank : Ranked env txs rank) (hquiet : Quiescent env honest net)
    {j : ν} (hconnected : Connected env honest net i j) (htx : tx ∈ txs) :
    (net.relay i).Pooled env.renv tx ↔ (net.relay j).Pooled env.renv tx := by
  obtain ⟨c, hc, rfl, hlink⟩ := hconnected
  have hi := h.owned i c hc
  subst hi
  have hback := h.symm c hc
  constructor
  · exact h.pooled_far hA hrank hquiet hlink hc htx
  · intro hpooled
    have hpooled' := h.pooled_far hA hrank hquiet (HonestLink.far hlink) hback htx hpooled
    rw [env.links.far_far] at hpooled'
    exact hpooled'

/-- Transactions that can all be accepted, parents first, spread over the nodes that follow the code
and were connected before, in any order of messages and clocks, with whatever the others send: once
nothing is on the way between them and nothing waits in their lists, nodes that are connected have the
same ones of the transactions in their pools. A transaction that is in the pool of one of them is in
the pool of each, however it came into the first. -/
theorem pools_agree (env : TxNetEnv ν κ φ) (honest : ν → Prop) (node : ν → NodeState)
    (free : ν → φ) (txs : Finset CTransaction) (rank : CTransaction → Nat) (t0 : ℤ)
    (hA : ∀ i, honest i → Arriving env.renv (env.files i) (node i) txs)
    (hcard : txs.card < MAX_ORPHAN_TRANSACTIONS) (hrank : Ranked env txs rank)
    (hnew : ∀ i, honest i → ∀ tx ∈ txs, (node i).mempool.lookup (env.renv.getHash tx) = none)
    {net : TxNet ν κ φ}
    (hrun : Run env (fun i => { node := node i, free := free i }) (Fair env honest txs t0) net)
    (hquiet : Quiescent env honest net) {i j : ν} (hi : honest i)
    (hpath : Relation.ReflTransGen (Connected env honest net) i j) :
    ∀ tx ∈ txs, (net.relay i).node.mempool.lookup (env.renv.getHash tx)
      = (net.relay j).node.mempool.lookup (env.renv.getHash tx) := by
  have hgossip := hrun.gossip hA hcard hnew
  have hend : honest j ∧ ∀ tx ∈ txs,
      (net.relay i).Pooled env.renv tx ↔ (net.relay j).Pooled env.renv tx := by
    induction hpath with
    | refl => exact ⟨hi, fun _ _ => Iff.rfl⟩
    | tail hpath hlast ih =>
        refine ⟨?_, fun tx htx => (ih.2 tx htx).trans (hgossip.pooled_iff hA hrank hquiet hlast htx)⟩
        obtain ⟨c, -, rfl, hlink⟩ := hlast
        exact hlink.2
  intro tx htx
  have hsame := hend.2 tx htx
  have hone : ∀ k, honest k → ∀ x,
      (net.relay k).node.mempool.lookup (env.renv.getHash tx) = some x → x = tx :=
    fun k hk x hx => (hA k hk).lookup_hash (hgossip.settled k hk).quiet.serving.grown htx hx
  unfold Pooled at hsame
  cases hx : (net.relay i).node.mempool.lookup (env.renv.getHash tx) with
  | some x =>
      rw [hx] at hsame
      obtain ⟨y, hy⟩ := Option.isSome_iff_exists.mp (hsame.mp rfl)
      rw [hy, hone i hi x hx, hone j hend.1 y hy]
  | none =>
      rw [hx] at hsame
      cases hy : (net.relay j).node.mempool.lookup (env.renv.getHash tx) with
      | none => rfl
      | some y =>
          rw [hy] at hsame
          exact Bool.noConfusion (hsame.mpr rfl)

end

/-! ### A child arrives before its parent -/

def sampleTxNetEnv : TxNetEnv Bool Bool Unit where
  renv := plainRelay
  files _ := sampleFiles
  links := AlertNet.sampleLinks
  nSendBufferSize := 10000

/-- A payment and a transaction that spends it are submitted to one node. -/
def sampleTxOps : List (Op Bool Bool) :=
  [.connect true, .version true 60008, .version false 60008, .submit 1000 true paymentMsg.tx,
    .submit 1000 true spendMsg.tx, .sendMessages 1000 true true fun _ => false,
    .deliver 1000 (fun _ => 0) 0, .sendMessages 1001 false true fun _ => false,
    .deliver 1001 (fun _ => 0) 0, .deliver 1002 (fun _ => 0) 1, .deliver 1002 (fun _ => 0) 0]

def sampleTxNet (n : Nat) : TxNet Bool Bool Unit :=
  (sampleTxOps.take n).foldl (exec sampleTxNetEnv)
    (start sampleTxNetEnv fun _ => { node := relayNode, free := () })

example : ((sampleTxNet 10).relay false).orphans.mapOrphanTransactions.keys = [7] := by
  decide

theorem run_sampleTxNet_succ (n : Nat) {op : Op Bool Bool} (hop : sampleTxOps[n]? = some op)
    (hrun : Run sampleTxNetEnv (fun _ => { node := relayNode, free := () })
      (Fair sampleTxNetEnv (fun _ => True) {paymentMsg.tx, spendMsg.tx} 1000) (sampleTxNet n))
    (hok : Fair sampleTxNetEnv (fun _ => True) {paymentMsg.tx, spendMsg.tx} 1000 (sampleTxNet n) op) :
    Run sampleTxNetEnv (fun _ => { node := relayNode, free := () })
      (Fair sampleTxNetEnv (fun _ => True) {paymentMsg.tx, spendMsg.tx} 1000)
      (sampleTxNet (n + 1)) := by
  have hnext : sampleTxNet (n + 1) = (sampleTxNet n).exec sampleTxNetEnv op := by
    unfold sampleTxNet
    rw [List.take_add_one, hop, List.foldl_append]
    rfl
  rw [hnext]
  exact .step op hrun hok

theorem run_sampleTxNet : Run sampleTxNetEnv (fun _ => { node := relayNode, free := () })
    (Fair sampleTxNetEnv (fun _ => True) {paymentMsg.tx, spendMsg.tx} 1000) (sampleTxNet 11) := by
  have hnone : ∀ n ∈ [3, 4], ∀ (k : Uint256) (vMsg : CDataStream),
      ((sampleTxNet n).relay true).orphans.mapOrphanTransactions[k]? ≠ some vMsg := by
    have hempty : ∀ n ∈ [3, 4],
        ((sampleTxNet n).relay true).orphans.mapOrphanTransactions.isEmpty = true := by
      decide
    intro n hn k vMsg
    rw [Std.ExtTreeMap.isEmpty_iff.mp (hempty n hn), Std.ExtTreeMap.getElem?_empty]
    rintro ⟨⟩
  have hversion : ∀ n ∈ [6, 8, 9, 10], ∀ c, ((sampleTxNet n).peer c).nVersion ≠ 0 := by decide
  have hsubmit : ∀ n ∈ [3, 4], ∀ tx ∈ ({paymentMsg.tx, spendMsg.tx} : Finset CTransaction),
      Fair sampleTxNetEnv (fun _ => True) {paymentMsg.tx, spendMsg.tx} 1000 (sampleTxNet n)
        (.submit 1000 true tx) := by
    intro n hn tx htx
    refine ⟨⟨le_rfl, by decide⟩, trivial, htx, ?_, fun hmem => ?_, fun k vMsg hv => ?_⟩
    · revert tx
      decide
    · exact hnone n hn _ _ (Std.ExtTreeMap.getElem?_eq_some_getElem hmem)
    · exact absurd hv (hnone n hn k vMsg)
  have hdeliver : ∀ n ∈ [6, 8, 9, 10], ∀ nTime, InTime 1000 nTime → ∀ k,
      Fair sampleTxNetEnv (fun _ => True) {paymentMsg.tx, spendMsg.tx} 1000 (sampleTxNet n)
        (.deliver nTime (fun _ => 0) k) :=
    fun n hn nTime htime k => ⟨htime, fun c _ _ => ⟨⟨trivial, trivial⟩, hversion n hn c⟩⟩
  have htime : ∀ nTime ∈ ([1000, 1001, 1002] : List ℤ), InTime 1000 nTime := by
    unfold InTime
    decide
  have h1 := run_sampleTxNet_succ 0 rfl .start fun _ => by
    unfold RelayState.Pooled
    decide
  have h3 := run_sampleTxNet_succ 2 rfl (run_sampleTxNet_succ 1 rfl h1 trivial) trivial
  have h4 := run_sampleTxNet_succ 3 rfl h3 (hsubmit 3 (by decide) _ (Finset.mem_insert_self _ _))
  have h5 := run_sampleTxNet_succ 4 rfl h4
    (hsubmit 4 (by decide) _ (Finset.mem_insert_of_mem (Finset.mem_singleton_self _)))
  have h6 := run_sampleTxNet_succ 5 rfl h5 trivial
  have h7 := run_sampleTxNet_succ 6 rfl h6 (hdeliver 6 (by decide) _ (htime _ (by decide)) _)
  have h8 := run_sampleTxNet_succ 7 rfl h7 trivial
  have h9 := run_sampleTxNet_succ 8 rfl h8 (hdeliver 8 (by decide) _ (htime _ (by decide)) _)
  have h10 := run_sampleTxNet_succ 9 rfl h9 (hdeliver 9 (by decide) _ (htime _ (by decide)) _)
  exact run_sampleTxNet_succ 10 rfl h10 (hdeliver 10 (by decide) _ (htime _ (by decide)) _)

theorem pools_agree_sampleTxNet :
    ((sampleTxNet 11).relay true).node.mempool.lookup 7
      = ((sampleTxNet 11).relay false).node.mempool.lookup 7 := by
  have hnone : ∀ k : Uint256, relayNode.mempool.lookup k = none :=
    fun _ => Std.ExtTreeMap.getElem?_empty
  refine pools_agree sampleTxNetEnv (fun _ => True) (fun _ => relayNode) (fun _ => ())
    {paymentMsg.tx, spendMsg.tx} CTransaction.nTime 1000 (fun _ _ => arriving_spendMsg) (by decide) ?_
    (fun _ _ tx _ => hnone _) run_sampleTxNet ⟨?_, ?_⟩ trivial (.single ⟨true, ?_, rfl, trivial, trivial⟩)
    spendMsg.tx (Finset.mem_insert_of_mem (Finset.mem_singleton_self _))
  · unfold Ranked RelayState.Spends
    decide
  · intro c msg _
    have hempty : (sampleTxNet 11).flight = [] := by decide
    rw [hempty]
    exact List.not_mem_nil
  · have hlists : ∀ c, ((sampleTxNet 11).peer c).vInventoryToSend = [] ∧
        ((sampleTxNet 11).peer c).mapAskFor = [] := by decide
    exact fun c _ => hlists c
  · decide

end TxNet

end ShinyCoin

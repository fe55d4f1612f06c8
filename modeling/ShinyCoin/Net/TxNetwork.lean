import ShinyCoin.Net.AlertNetwork
import ShinyCoin.Net.Inventory
import ShinyCoin.Pool.Announced

/-!
# How transactions spread

A node offers to its peers what comes into its pool, a peer asks for what it does not have, is sent
it, and does the same with what the message brings into its own pool. Messages arrive in any order, and
a transaction may come before its parents. A node that is connected later is not told of what is in
the pool. When nothing is on the way and nothing waits, the nodes that were connected before have the
same transactions in their pools.

Nodes that send what they like do not matter to those that follow the code, as long as all that is sent
in a `tx` message can be accepted; and `mapRelay` keeps a transaction for 15 minutes, so the nodes
agree on what spreads in that time. Inventories of blocks and of signed hashes take room in the lists,
but what else they lead to is left out.
-/

namespace ShinyCoin

open Std (ExtTreeMap)

inductive TxMessage where
  | inv (vInv : List CInv)
  | getdata (vInv : List CInv)
  | tx (vMsg : CDataStream)
deriving DecidableEq

/-- What does not change: the rules, the disks, the connections there may be, and `SendBufferSize()`. -/
structure TxNetEnv (ν κ φ : Type) where
  renv : RelayEnv φ
  files : ν → Files
  links : Links ν κ
  nSendBufferSize : Nat

structure TxNet (ν κ φ : Type) where
  relay : ν → RelayState φ
  memory : ν → RelayMemory
  times : ν → AskTimes
  vNodes : ν → List κ
  peer : κ → InvPeer
  /-- Messages on the way, with the end they arrive at -/
  flight : List (κ × TxMessage)

namespace TxNet

variable {ν κ φ : Type} [DecidableEq ν] [DecidableEq κ]

/-- No connections yet -/
def start (env : TxNetEnv ν κ φ) (relay : ν → RelayState φ) : TxNet ν κ φ where
  relay
  memory _ := {}
  times _ := {}
  vNodes _ := []
  peer _ := .new env.nSendBufferSize
  flight := []

def setPeer (net : TxNet ν κ φ) (c : κ) (pnode : InvPeer) : TxNet ν κ φ :=
  { net with peer := Function.update net.peer c pnode }

def setRelay (net : TxNet ν κ φ) (i : ν) (s : RelayState φ) : TxNet ν κ φ :=
  { net with relay := Function.update net.relay i s }

def setMemory (net : TxNet ν κ φ) (i : ν) (m : RelayMemory) : TxNet ν κ φ :=
  { net with memory := Function.update net.memory i m }

def setTimes (net : TxNet ν κ φ) (i : ν) (times : AskTimes) : TxNet ν κ φ :=
  { net with times := Function.update net.times i times }

/-- `AlreadyHave`. What is no transaction the model does not ask for. -/
def alreadyHave (net : TxNet ν κ φ) (i : ν) (inv : CInv) : Bool :=
  if inv.type = MSG_TX then
    ((net.relay i).node.mempool.lookup inv.hash).isSome ||
      (net.relay i).orphans.mapOrphanTransactions.contains inv.hash ||
      ((net.relay i).node.txdb.data.txIndex inv.hash).isSome
  else true

/-- `RelayInventory` -/
def relayInventory (net : TxNet ν κ φ) (i : ν) (inv : CInv) : TxNet ν κ φ :=
  (net.vNodes i).foldl (fun net c => net.setPeer c ((net.peer c).pushInventory inv)) net

/-- `RelayMessage` of a transaction -/
def relayMessage (env : TxNetEnv ν κ φ) (nTime : ℤ) (i : ν) (net : TxNet ν κ φ) (vMsg : CDataStream) :
    TxNet ν κ φ :=
  let inv := CInv.tx (env.renv.getHash vMsg.tx)
  (net.setMemory i ((net.memory i).relayMessage nTime inv vMsg)).relayInventory i inv

/-- `mapAlreadyAskedFor.erase(inv)` -/
def forget (env : TxNetEnv ν κ φ) (i : ν) (net : TxNet ν κ φ) (vMsg : CDataStream) : TxNet ν κ φ :=
  net.setTimes i { net.times i with
    mapAlreadyAskedFor :=
      (net.times i).mapAlreadyAskedFor.erase (CInv.tx (env.renv.getHash vMsg.tx)) }

/-! ## Messages -/

/-- One round of the loop of `inv` -/
def hear (env : TxNetEnv ν κ φ) (nTime : ℤ) (c : κ) (net : TxNet ν κ φ) (inv : CInv) : TxNet ν κ φ :=
  let i := env.links.owner c
  let net := net.setPeer c ((net.peer c).addInventoryKnown inv)
  if net.alreadyHave i inv then net
  else
    let (times, pnode) := askFor nTime inv (net.times i) (net.peer c)
    (net.setTimes i times).setPeer c pnode

def onInv (env : TxNetEnv ν κ φ) (nTime : ℤ) (c : κ) (vInv : List CInv) (net : TxNet ν κ φ) :
    TxNet ν κ φ :=
  if 50000 < vInv.length then net else vInv.foldl (hear env nTime c) net

/-- The transactions go out of `mapRelay`; what is not there is not answered. -/
def onGetdata (env : TxNetEnv ν κ φ) (c : κ) (vInv : List CInv) (net : TxNet ν κ φ) : TxNet ν κ φ :=
  if 50000 < vInv.length then net
  else
    { net with flight := net.flight ++ vInv.filterMap fun inv =>
        if inv.type = MSG_TX then
          (net.memory (env.links.owner c)).mapRelay[inv]?.map fun ss => (env.links.far c, .tx ss)
        else none }

def onTx (env : TxNetEnv ν κ φ) (nTime : ℤ) (rand : Nat → Uint256) (c : κ) (vMsg : CDataStream)
    (net : TxNet ν κ φ) : TxNet ν κ φ :=
  let i := env.links.owner c
  let s := net.relay i
  let net := net.setPeer c
    ((net.peer c).addInventoryKnown (CInv.tx (env.renv.getHash vMsg.tx)))
  let net := net.setRelay i (Lib.final (s.processTx env.renv (env.files i) rand vMsg))
  (s.announced env.renv (env.files i) vMsg).foldl
    (fun net vMsg => (net.relayMessage env nTime i vMsg).forget env i vMsg) net

def onMessage (env : TxNetEnv ν κ φ) (nTime : ℤ) (rand : Nat → Uint256) (c : κ) (msg : TxMessage)
    (net : TxNet ν κ φ) : TxNet ν κ φ :=
  -- "Must have a version message before anything else"
  if (net.peer c).nVersion = 0 then net
  else
    match msg with
    | .inv vInv => net.onInv env nTime c vInv
    | .getdata vInv => net.onGetdata env c vInv
    | .tx vMsg => net.onTx env nTime rand c vMsg

/-- The `version` message: "Each connection can only send one version message" -/
def onVersion (c : κ) (nVersion : ℤ) (net : TxNet ν κ φ) : TxNet ν κ φ :=
  if (net.peer c).nVersion ≠ 0 then net
  else
    let nVersion := if nVersion = 10300 then 300 else nVersion
    net.setPeer c { net.peer c with nVersion := nVersion }

/-- `SendMessages`: "Don't send anything until we get their version message" -/
def sendMessages (env : TxNetEnv ν κ φ) (nTime : ℤ) (c : κ) (fSendTrickle : Bool)
    (fTrickleWait : Uint256 → Bool) (net : TxNet ν κ φ) : TxNet ν κ φ :=
  if (net.peer c).nVersion = 0 then net
  else
    let i := env.links.owner c
    let (pto, vInvs) := (net.peer c).offer fSendTrickle fTrickleWait
    let (times, pto, vGetDatas) := pto.ask (net.alreadyHave i) nTime (net.times i)
    let net := (net.setTimes i times).setPeer c pto
    { net with flight := net.flight ++ vInvs.map (fun vInv => (env.links.far c, .inv vInv))
        ++ vGetDatas.map fun vInv => (env.links.far c, .getdata vInv) }

/-- `sendrawtransaction` -/
def submit (env : TxNetEnv ν κ φ) (nTime : ℤ) (i : ν) (tx : CTransaction) (net : TxNet ν κ φ) :
    TxNet ν κ φ :=
  match (net.relay i).acceptTx env.renv (env.files i) tx with
  | .error (_, s) => net.setRelay i s
  | .ok (s, some _) => net.setRelay i s
  | .ok (s, none) => (net.setRelay i s).relayMessage env nTime i { tx }

/-- Neither end has anything any more, and nothing is on the way between them. -/
def disconnect (env : TxNetEnv ν κ φ) (c : κ) (net : TxNet ν κ φ) : TxNet ν κ φ :=
  let other (x : κ) : Bool := decide (x ≠ c ∧ x ≠ env.links.far c)
  { net with
    vNodes := fun i => (net.vNodes i).filter other
    peer := fun x => if other x then net.peer x else .new env.nSendBufferSize
    flight := net.flight.filter fun x => other x.1 }

/-- A new connection: both nodes have a new `CNode`. -/
def connect (env : TxNetEnv ν κ φ) (c : κ) (net : TxNet ν κ φ) : TxNet ν κ φ :=
  let add (c : κ) (vNodes : ν → List κ) :=
    Function.update vNodes (env.links.owner c) (c :: vNodes (env.links.owner c))
  let net := net.disconnect env c
  { net with vNodes := add (env.links.far c) (add c net.vNodes) }

/-- What can happen -/
inductive Op (ν κ : Type) where
  | connect (c : κ)
  | disconnect (c : κ)
  | version (c : κ) (nVersion : ℤ)
  | submit (nTime : ℤ) (i : ν) (tx : CTransaction)
  /-- `RelayInventory` of a block or of a signed hash -/
  | inventory (i : ν) (inv : CInv)
  | sendMessages (nTime : ℤ) (c : κ) (fSendTrickle : Bool) (fTrickleWait : Uint256 → Bool)
  /-- A message that is on the way arrives, not always the first one. -/
  | deliver (nTime : ℤ) (rand : Nat → Uint256) (n : Nat)
  /-- Whoever is at the other end sends something. -/
  | forge (nTime : ℤ) (rand : Nat → Uint256) (c : κ) (msg : TxMessage)

def exec (env : TxNetEnv ν κ φ) (net : TxNet ν κ φ) : Op ν κ → TxNet ν κ φ
  | .connect c => net.connect env c
  | .disconnect c => net.disconnect env c
  | .version c nVersion => net.onVersion c nVersion
  | .submit nTime i tx => net.submit env nTime i tx
  | .inventory i inv => net.relayInventory i inv
  | .sendMessages nTime c fSendTrickle fTrickleWait =>
      net.sendMessages env nTime c fSendTrickle fTrickleWait
  | .deliver nTime rand n =>
      match net.flight[n]? with
      | none => net
      | some (c, msg) =>
          -- it is erased from `vRecv` when it was processed
          let net := net.onMessage env nTime rand c msg
          { net with flight := net.flight.eraseIdx n }
  | .forge nTime rand c msg => net.onMessage env nTime rand c msg

/-- The states of a network in which everything that happens meets `ok`. -/
inductive Run (env : TxNetEnv ν κ φ) (relay : ν → RelayState φ) (ok : TxNet ν κ φ → Op ν κ → Prop) :
    TxNet ν κ φ → Prop where
  | start : Run env relay ok (start env relay)
  | step {net : TxNet ν κ φ} (op : Op ν κ) (hrun : Run env relay ok net) (hok : ok net op) :
      Run env relay ok (net.exec env op)

end TxNet

end ShinyCoin

import ShinyCoin.Wire.Messages

/-!
# ProcessMessages

The socket thread appends what it received to `vRecv` of a peer, and `ProcessMessages` hands over
what is complete. `ProcessMessage` is a parameter: whatever it does to the node, it may close the
socket of the peer (`CloseSocketDisconnect` drops the unread bytes, and nothing is received from
there) or begin the shutdown. The bytes the peer sends then decide what is handed over, however
they arrive.
-/

namespace ShinyCoin.Wire

/-- What `ProcessMessage` leaves behind: the node, and whether it closed the socket or began the
shutdown. An exception it throws is caught and the loop goes on. -/
structure Processed (σ : Type) where
  node : σ
  fClosed : Bool
  fShutdown : Bool

/-- A peer and the node that serves it, with every message handed to `ProcessMessage` so far. -/
structure Peer (σ : Type) where
  node : σ
  handed : List Message
  vRecv : CDataStream
  fSocket : Bool
  fShutdown : Bool

namespace Peer

variable {σ : Type}

def new (node : σ) : Peer σ := ⟨node, [], .clear, true, false⟩

def closeSocketDisconnect (pfrom : Peer σ) : Peer σ :=
  if pfrom.fSocket then { pfrom with fSocket := false, vRecv := .clear } else pfrom

/-- The call of `ProcessMessage` -/
def handOver (processMessage : σ → Message → Processed σ) (pfrom : Peer σ) (m : Message) : Peer σ :=
  let done := processMessage pfrom.node m
  let pfrom := { pfrom with
    node := done.node, handed := pfrom.handed ++ [m], fShutdown := done.fShutdown }
  if done.fClosed then pfrom.closeSocketDisconnect else pfrom

end Peer

/-- Every round that goes on leaves fewer unread bytes. -/
theorem nextFrame_size {env : Env} {vRecv r : CDataStream} :
    (nextFrame env vRecv = some (.skip r) → r.size < vRecv.size) ∧
      ∀ m, nextFrame env vRecv = some (.message m r) → r.size < vRecv.size := by
  obtain ⟨f, hnext, hframe⟩ := nextFrame_eq env vRecv
  simp only [← CDataStream.length_unread]
  constructor
  · intro hskip
    rw [hnext] at hskip
    cases hskip
    exact (messageFramer env).skip_lt hframe.symm
  · intro m hmessage
    rw [hnext] at hmessage
    cases hmessage
    exact (messageFramer env).message_lt hframe.symm

section

variable {σ : Type} (env : Env) (processMessage : σ → Message → Processed σ)

/-- The loop in `ProcessMessages`; `none` if the stream throws. -/
def processLoop (pfrom : Peer σ) : Option (Peer σ) :=
  match _h : nextFrame env pfrom.vRecv with
  | none => none
  | some (.wait vRecv) => some { pfrom with vRecv := vRecv.compact }
  | some (.skip vRecv) => processLoop { pfrom with vRecv := vRecv }
  | some (.message m vRecv) =>
      let after := Peer.handOver processMessage { pfrom with vRecv := vRecv } m
      if after.fShutdown then some after else processLoop after
termination_by pfrom.vRecv.size
decreasing_by
  · exact nextFrame_size.1 _h
  · have hsize := nextFrame_size.2 m _h
    refine lt_of_le_of_lt ?_ hsize
    simp only [Peer.handOver, Peer.closeSocketDisconnect]
    split_ifs
    · exact Nat.zero_le _
    · exact le_rfl
    · exact le_rfl

/-- `ProcessMessages` -/
def processMessages (pfrom : Peer σ) : Option (Peer σ) :=
  if pfrom.vRecv.size = 0 then some pfrom else processLoop env processMessage pfrom

/-- A chunk arrives at the socket, if that is open still, and `ProcessMessages` is called. -/
def receiveChunk (pfrom : Peer σ) (chunk : Bytes) : Option (Peer σ) :=
  if pfrom.fSocket && !pfrom.fShutdown then
    processMessages env processMessage { pfrom with vRecv := pfrom.vRecv.append chunk }
  else some pfrom

def receiveChunks (pfrom : Peer σ) (chunks : List Bytes) : Option (Peer σ) :=
  chunks.foldlM (receiveChunk env processMessage) pfrom

end

/-! ## The receiver behind it -/

namespace Peer

variable {σ : Type}

/-- A peer that is listened to -/
def Listening (pfrom : Peer σ) : Prop := pfrom.fSocket = true ∧ pfrom.fShutdown = false

/-- The peer as a receiver of messages -/
def toReceiver (pfrom : Peer σ) : Lib.Receiver σ Message UInt8 where
  node := pfrom.node
  handed := pfrom.handed
  buffer := if pfrom.fSocket && !pfrom.fShutdown then some pfrom.vRecv.unread else none

/-- `ProcessMessage` as its handler: it goes on unless the socket was closed or the node shuts
down. -/
def handler (processMessage : σ → Message → Processed σ) (node : σ) (m : Message) : σ × Bool :=
  ((processMessage node m).node,
    !((processMessage node m).fClosed || (processMessage node m).fShutdown))

variable {pfrom : Peer σ}

theorem Listening.toReceiver (h : pfrom.Listening) :
    pfrom.toReceiver = ⟨pfrom.node, pfrom.handed, some pfrom.vRecv.unread⟩ := by
  unfold Peer.toReceiver
  rw [h.1, h.2]
  rfl

/-- Behind the call the peer is listened to as before, or the handler had enough. -/
theorem handOver_cases (processMessage : σ → Message → Processed σ) (m : Message)
    (h : pfrom.Listening) :
    ((pfrom.handOver processMessage m).Listening ∧ (handler processMessage pfrom.node m).2 = true ∧
      (pfrom.handOver processMessage m).vRecv = pfrom.vRecv) ∨
    ((handler processMessage pfrom.node m).2 = false ∧
      ((pfrom.handOver processMessage m).fShutdown = true ∨
        (pfrom.handOver processMessage m).fSocket = false ∧
          (pfrom.handOver processMessage m).vRecv = .clear)) := by
  rcases hdone : processMessage pfrom.node m with ⟨node, fClosed, fShutdown⟩
  simp only [handOver, closeSocketDisconnect, handler, Listening, hdone, h.1]
  cases fClosed <;> cases fShutdown <;> simp

theorem handOver_node (processMessage : σ → Message → Processed σ) (pfrom : Peer σ) (m : Message) :
    (pfrom.handOver processMessage m).node
      = (handler processMessage pfrom.node m).1 := by
  unfold handOver closeSocketDisconnect handler
  dsimp only
  split_ifs <;> rfl

theorem handOver_handed (processMessage : σ → Message → Processed σ) (pfrom : Peer σ)
    (m : Message) : (pfrom.handOver processMessage m).handed = pfrom.handed ++ [m] := by
  unfold handOver closeSocketDisconnect
  dsimp only
  split_ifs <;> rfl

end Peer

section

variable {σ : Type} {env : Env} {processMessage : σ → Message → Processed σ} {pfrom : Peer σ}

theorem processLoop_wait {r : CDataStream} (h : nextFrame env pfrom.vRecv = some (.wait r)) :
    processLoop env processMessage pfrom = some { pfrom with vRecv := r.compact } := by
  rw [processLoop]
  split <;> simp_all

theorem processLoop_skip {r : CDataStream} (h : nextFrame env pfrom.vRecv = some (.skip r)) :
    processLoop env processMessage pfrom
      = processLoop env processMessage { pfrom with vRecv := r } := by
  rw [processLoop]
  split <;> simp_all

theorem processLoop_message {m : Message} {r : CDataStream}
    (h : nextFrame env pfrom.vRecv = some (.message m r)) :
    processLoop env processMessage pfrom
      = if (Peer.handOver processMessage { pfrom with vRecv := r } m).fShutdown then
          some (Peer.handOver processMessage { pfrom with vRecv := r } m)
        else
          processLoop env processMessage
            (Peer.handOver processMessage { pfrom with vRecv := r } m) := by
  rw [processLoop]
  split <;> simp_all

/-- After the socket was closed nothing is left to look at. -/
theorem processLoop_closed (hsocket : pfrom.fSocket = false) (hvRecv : pfrom.vRecv = .clear) :
    ∃ after, processLoop env processMessage pfrom = some after ∧
      after.toReceiver = ⟨pfrom.node, pfrom.handed, none⟩ := by
  have hwait : nextFrame env pfrom.vRecv = some (.wait .clear) := by
    rw [hvRecv]
    rfl
  refine ⟨_, processLoop_wait hwait, ?_⟩
  unfold Peer.toReceiver
  rw [hsocket]
  rfl

/-- The loop never throws, and it is the receiver on the unread bytes. -/
theorem processLoop_toReceiver (env : Env) (processMessage : σ → Message → Processed σ)
    (h : pfrom.Listening) :
    ∃ after, processLoop env processMessage pfrom = some after ∧
      after.toReceiver = (messageFramer env).consume (Peer.handler processMessage) pfrom.node
        pfrom.handed pfrom.vRecv.unread := by
  -- every round that goes on leaves fewer bytes
  induction hn : pfrom.vRecv.size using Nat.strongRecOn generalizing pfrom with
  | _ n ih =>
      subst hn
      obtain ⟨f, hnext, hframe⟩ := nextFrame_eq env pfrom.vRecv
      cases f with
      | wait r =>
          refine ⟨_, processLoop_wait hnext, ?_⟩
          rw [Lib.Framer.consume_wait hframe.symm]
          exact Peer.Listening.toReceiver h
      | skip r =>
          rw [processLoop_skip hnext, Lib.Framer.consume_skip hframe.symm]
          exact ih r.size (nextFrame_size.1 hnext) (show Peer.Listening { pfrom with vRecv := r } from h) rfl
      | message m r =>
          have hr : Peer.Listening { pfrom with vRecv := r } := h
          rw [processLoop_message hnext, Lib.Framer.consume_message hframe.symm]
          have hnode := Peer.handOver_node processMessage { pfrom with vRecv := r } m
          have hhanded := Peer.handOver_handed processMessage { pfrom with vRecv := r } m
          have hcases := Peer.handOver_cases processMessage m hr
          generalize Peer.handOver processMessage { pfrom with vRecv := r } m = after at *
          dsimp only at hnode hhanded hcases ⊢
          rcases hcases with ⟨hlisten, hgoes, hvRecv⟩ | ⟨hstops, hdown | ⟨hsocket, hvRecv⟩⟩
          · rw [hlisten.2, hgoes, if_neg Bool.false_ne_true, if_pos rfl, ← hnode, ← hhanded,
              show r.unread = after.vRecv.unread by rw [hvRecv]]
            apply ih after.vRecv.size _ hlisten rfl
            rw [hvRecv]
            exact nextFrame_size.2 m hnext
          · rw [hdown, hstops, if_pos rfl, if_neg Bool.false_ne_true, ← hnode, ← hhanded]
            refine ⟨after, rfl, ?_⟩
            unfold Peer.toReceiver
            rw [hdown, Bool.not_true, Bool.and_false, if_neg Bool.false_ne_true]
          · rw [hstops, if_neg Bool.false_ne_true, ← hnode, ← hhanded]
            split
            · refine ⟨after, rfl, ?_⟩
              unfold Peer.toReceiver
              rw [hsocket, Bool.false_and, if_neg Bool.false_ne_true]
            · exact processLoop_closed hsocket hvRecv

theorem receiveChunk_toReceiver (env : Env) (processMessage : σ → Message → Processed σ)
    (pfrom : Peer σ) (chunk : Bytes) :
    ∃ after, receiveChunk env processMessage pfrom chunk = some after ∧
      after.toReceiver
        = (messageFramer env).receive (Peer.handler processMessage) pfrom.toReceiver chunk := by
  unfold receiveChunk
  split
  · next hopen =>
    have hlisten : pfrom.Listening := by
      simpa [Peer.Listening, Bool.and_eq_true] using hopen
    have hlisten' : Peer.Listening { pfrom with vRecv := pfrom.vRecv.append chunk } := hlisten
    rw [hlisten.toReceiver, Lib.Framer.receive_some rfl]
    unfold processMessages
    split
    · next hempty =>
      -- `ProcessMessages` returns at once
      have hunread : pfrom.vRecv.unread ++ chunk = [] := by
        rw [← CDataStream.unread_append, ← List.length_eq_zero_iff, CDataStream.length_unread]
        exact hempty
      refine ⟨_, rfl, ?_⟩
      rw [hlisten'.toReceiver, hunread, Lib.Framer.consume_wait (messageFramer env).frame_nil]
      dsimp only
      rw [CDataStream.unread_append, hunread]
    · have hloop := processLoop_toReceiver env processMessage hlisten'
      rw [CDataStream.unread_append] at hloop
      exact hloop
  · next hclosed =>
    refine ⟨pfrom, rfl, ?_⟩
    rw [Lib.Framer.receive_none]
    unfold Peer.toReceiver
    exact if_neg hclosed

theorem receiveChunks_toReceiver (env : Env) (processMessage : σ → Message → Processed σ)
    (pfrom : Peer σ) (chunks : List Bytes) :
    ∃ after, receiveChunks env processMessage pfrom chunks = some after ∧
      after.toReceiver = chunks.foldl
        ((messageFramer env).receive (Peer.handler processMessage)) pfrom.toReceiver := by
  induction chunks generalizing pfrom with
  | nil => exact ⟨pfrom, rfl, rfl⟩
  | cons chunk chunks ih =>
      obtain ⟨next, hnext, hreceived⟩ :=
        receiveChunk_toReceiver env processMessage pfrom chunk
      obtain ⟨after, hafter, hrest⟩ := ih next
      refine ⟨after, ?_, ?_⟩
      · unfold receiveChunks
        rw [List.foldlM_cons, hnext]
        exact hafter
      · rw [hrest, List.foldl_cons, hreceived]

end

def pingMessage : Message := ([0x70, 0x69, 0x6e, 0x67], [1, 2, 3, 4, 5, 6, 7, 8])

/-- Part of a message start, the message, and the beginning of another start -/
def pingBytes : Bytes :=
  [0x89, 0xfd, 0x9c] ++ [0x89, 0xfd, 0x9c, 0xad]
    ++ (pingMessage.1 ++ List.replicate 8 0) ++ [8, 0, 0, 0] ++ [0, 0, 0, 0]
    ++ pingMessage.2 ++ [9, 0x89, 0xfd]

/-- The node counts the messages. -/
def countMessages (node : Nat) (_ : Message) : Processed Nat := ⟨node + 1, false, false⟩

theorem receiveChunks_pingBytes :
    ∃ after, receiveChunks .plain countMessages (Peer.new 0) [pingBytes] = some after ∧
      after.handed = [pingMessage] ∧ after.node = 1 := by
  unfold receiveChunks
  rw [List.foldlM_cons, receiveChunk, if_pos (by rfl), processMessages, if_neg (by decide),
    processLoop_message rfl, if_neg (by decide), processLoop_wait rfl]
  exact ⟨_, rfl, rfl, rfl⟩

end ShinyCoin.Wire

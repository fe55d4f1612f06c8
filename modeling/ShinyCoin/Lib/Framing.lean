import Mathlib.Data.List.Basic

/-!
# Framing a byte stream

A framer looks at the front of a buffer: it waits for more, skips something, or finds a message. A
receiver appends what arrives and lets the framer go on until it waits. If more input never changes
what was decided, and a buffer that waits may be cut as long as that changes nothing later, then the
messages do not depend on how the input was split.
-/

namespace Lib

/-- What the front of a buffer is; `rest` is what stays in the buffer. -/
inductive Frame (M β : Type) where
  | wait (rest : β)
  | skip (rest : β)
  | message (m : M) (rest : β)

def Frame.map {M β γ : Type} (f : β → γ) : Frame M β → Frame M γ
  | .wait rest => .wait (f rest)
  | .skip rest => .skip (f rest)
  | .message m rest => .message m (f rest)

structure Framer (α M : Type) where
  frame : List α → Frame M (List α)
  frame_nil : frame [] = .wait []
  skip_lt : ∀ {buf r}, frame buf = .skip r → r.length < buf.length
  message_lt : ∀ {buf m r}, frame buf = .message m r → r.length < buf.length
  skip_append : ∀ {buf r} c, frame buf = .skip r → frame (buf ++ c) = .skip (r ++ c)
  message_append : ∀ {buf m r} c, frame buf = .message m r → frame (buf ++ c) = .message m (r ++ c)
  wait_append : ∀ {buf r} c, frame buf = .wait r → frame (r ++ c) = frame (buf ++ c)

/-- Who receives: its own state, the messages it was handed so far, and the buffer; `none` once it
takes no more. -/
structure Receiver (σ M α : Type) where
  node : σ
  handed : List M
  buffer : Option (List α)

namespace Framer

variable {σ M α : Type}

/-- Frame by frame until the framer waits or the receiver has enough; `handle` says whether it goes
on. -/
def consume (F : Framer α M) (handle : σ → M → σ × Bool) (node : σ) (handed : List M)
    (buf : List α) : Receiver σ M α :=
  match _h : F.frame buf with
  | .wait rest => ⟨node, handed, some rest⟩
  | .skip rest => F.consume handle node handed rest
  | .message m rest =>
      if (handle node m).2 then F.consume handle (handle node m).1 (handed ++ [m]) rest
      else ⟨(handle node m).1, handed ++ [m], none⟩
termination_by buf.length
decreasing_by
  · exact F.skip_lt _h
  · exact F.message_lt _h

/-- A chunk arrives. -/
def receive (F : Framer α M) (handle : σ → M → σ × Bool) (rx : Receiver σ M α) (chunk : List α) :
    Receiver σ M α :=
  match rx.buffer with
  | none => rx
  | some buf => F.consume handle rx.node rx.handed (buf ++ chunk)

variable {F : Framer α M} {handle : σ → M → σ × Bool} {node : σ} {handed : List M} {buf r : List α}
  {m : M}

theorem consume_wait (h : F.frame buf = .wait r) :
    F.consume handle node handed buf = ⟨node, handed, some r⟩ := by
  rw [consume]
  split
  · next h' => rw [h] at h'; cases h'; rfl
  · next h' => rw [h] at h'; cases h'
  · next h' => rw [h] at h'; cases h'

theorem consume_skip (h : F.frame buf = .skip r) :
    F.consume handle node handed buf = F.consume handle node handed r := by
  rw [consume]
  split
  · next h' => rw [h] at h'; cases h'
  · next h' => rw [h] at h'; cases h'; rfl
  · next h' => rw [h] at h'; cases h'

theorem consume_message (h : F.frame buf = .message m r) :
    F.consume handle node handed buf
      = if (handle node m).2 then F.consume handle (handle node m).1 (handed ++ [m]) r
        else ⟨(handle node m).1, handed ++ [m], none⟩ := by
  rw [consume]
  split
  · next h' => rw [h] at h'; cases h'
  · next h' => rw [h] at h'; cases h'
  · next h' => rw [h] at h'; cases h'; rfl

/-- More input on top of what was consumed already. -/
theorem consume_append (buf c : List α) (node : σ) (handed : List M) :
    F.consume handle node handed (buf ++ c)
      = F.receive handle (F.consume handle node handed buf) c := by
  induction hn : buf.length using Nat.strongRecOn generalizing buf node handed with
  | _ n ih =>
      subst hn
      cases hframe : F.frame buf with
      | wait r =>
          -- the buffer may be shorter now, but what is in front of it is the same
          have hsame := F.wait_append c hframe
          rw [consume_wait hframe]
          show _ = F.consume handle node handed (r ++ c)
          cases hnext : F.frame (buf ++ c) with
          | wait r' => rw [consume_wait hnext, consume_wait (hsame.trans hnext)]
          | skip r' => rw [consume_skip hnext, consume_skip (hsame.trans hnext)]
          | message m r' => rw [consume_message hnext, consume_message (hsame.trans hnext)]
      | skip r =>
          rw [consume_skip hframe, consume_skip (F.skip_append c hframe)]
          exact ih r.length (F.skip_lt hframe) r node handed rfl
      | message m r =>
          rw [consume_message hframe, consume_message (F.message_append c hframe)]
          split
          · exact ih r.length (F.message_lt hframe) r _ _ rfl
          · rfl

theorem receive_some {rx : Receiver σ M α} (h : rx.buffer = some buf) (c : List α) :
    F.receive handle rx c = F.consume handle rx.node rx.handed (buf ++ c) := by
  unfold receive
  rw [h]

theorem receive_none {rx : Receiver σ M α} (h : rx.buffer = none) (c : List α) :
    F.receive handle rx c = rx := by
  unfold receive
  rw [h]

theorem receive_append (rx : Receiver σ M α) (c d : List α) :
    F.receive handle (F.receive handle rx c) d = F.receive handle rx (c ++ d) := by
  cases hbuf : rx.buffer with
  | none => rw [receive_none hbuf, receive_none hbuf, receive_none hbuf]
  | some buf =>
      rw [receive_some hbuf, receive_some hbuf, ← List.append_assoc]
      exact (consume_append (buf ++ c) d rx.node rx.handed).symm

/-- Nothing is left to do before more input arrives. -/
def Settled (F : Framer α M) (rx : Receiver σ M α) : Prop :=
  ∀ buf, rx.buffer = some buf → F.frame buf = .wait buf

theorem settled_consume (buf : List α) (node : σ) (handed : List M) :
    F.Settled (F.consume handle node handed buf) := by
  induction hn : buf.length using Nat.strongRecOn generalizing buf node handed with
  | _ n ih =>
      subst hn
      cases hframe : F.frame buf with
      | wait r =>
          rw [consume_wait hframe]
          intro buf' hbuf'
          cases hbuf'
          have hsame := F.wait_append [] hframe
          rw [List.append_nil, List.append_nil] at hsame
          rw [hsame, hframe]
      | skip r =>
          rw [consume_skip hframe]
          exact ih r.length (F.skip_lt hframe) r node handed rfl
      | message m r =>
          rw [consume_message hframe]
          split
          · exact ih r.length (F.message_lt hframe) r _ _ rfl
          · intro buf' hbuf'
            cases hbuf'

theorem Settled.receive_nil {rx : Receiver σ M α} (h : F.Settled rx) :
    F.receive handle rx [] = rx := by
  cases hbuf : rx.buffer with
  | none => exact receive_none hbuf []
  | some buf => rw [receive_some hbuf, List.append_nil, consume_wait (h buf hbuf), ← hbuf]

/-- Chunk by chunk or all at once. -/
theorem receive_flatten {rx : Receiver σ M α} (h : F.Settled rx) (chunks : List (List α)) :
    chunks.foldl (F.receive handle) rx = F.receive handle rx chunks.flatten := by
  induction chunks generalizing rx with
  | nil => exact h.receive_nil.symm
  | cons c chunks ih =>
      have hnext : F.Settled (F.receive handle rx c) := by
        cases hbuf : rx.buffer with
        | none =>
            rw [receive_none hbuf]
            exact h
        | some buf =>
            rw [receive_some hbuf]
            exact settled_consume _ _ _
      rw [List.foldl_cons, ih hnext, receive_append, List.flatten_cons]

theorem settled_start (node : σ) (handed : List M) :
    F.Settled (⟨node, handed, some []⟩ : Receiver σ M α) := by
  intro buf hbuf
  cases hbuf
  exact F.frame_nil

/-! ## Encoded messages -/

/-- The framer takes the encoding of each of some messages off the front, whatever stands behind
it. -/
def Decodes (F : Framer α M) (encode : M → List α) (ms : List M) : Prop :=
  ∀ m ∈ ms, ∀ r, F.frame (encode m ++ r) = .message m r

/-- All of them are handed over, and what stands behind is looked at; or the receiver has enough of
them at some time. -/
theorem consume_encoded (handle : σ → M → σ × Bool) {encode : M → List α} {ms : List M}
    (h : F.Decodes encode ms) (node : σ) (handed : List M) (c : List α) :
    (∃ node', F.consume handle node handed (ms.flatMap encode ++ c)
      = F.consume handle node' (handed ++ ms) c) ∨
    ∃ node' done, done <+: ms ∧
      F.consume handle node handed (ms.flatMap encode ++ c) = ⟨node', handed ++ done, none⟩ ∧
      ∃ n m, (handle n m).2 = false := by
  induction ms generalizing node handed with
  | nil => exact .inl ⟨node, by rw [List.flatMap_nil, List.nil_append, List.append_nil]⟩
  | cons m ms ih =>
      have hframe : F.frame ((m :: ms).flatMap encode ++ c) = .message m (ms.flatMap encode ++ c) := by
        rw [List.flatMap_cons, List.append_assoc]
        exact h m List.mem_cons_self _
      rw [consume_message hframe]
      cases hgoes : (handle node m).2 with
      | false =>
          refine .inr ⟨(handle node m).1, [m], ?_, if_neg Bool.false_ne_true, node, m, hgoes⟩
          exact List.prefix_append [m] ms
      | true =>
          rw [if_pos rfl]
          rcases ih (fun x hx => h x (List.mem_cons_of_mem m hx)) (handle node m).1 (handed ++ [m])
            with ⟨node', heq⟩ | ⟨node', done, hdone, heq, hstops⟩
          · exact .inl ⟨node', by rw [heq, List.append_assoc, List.singleton_append]⟩
          · refine .inr ⟨node', m :: done, (List.prefix_cons_inj m).mpr hdone, ?_, hstops⟩
            rw [heq, List.append_assoc, List.singleton_append]

end Framer

end Lib

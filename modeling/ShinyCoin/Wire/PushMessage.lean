import ShinyCoin.Wire.ProcessMessages
import Mathlib.Data.List.TakeWhile
import Mathlib.Tactic.NormNum

/-!
# PushMessage

A message is written at the end of `vSend`. Its header is written first, and its size and checksum
are put in when the arguments stand behind it; a call that throws while it writes its arguments takes
back what it wrote. Between calls the socket thread removes bytes from the front.

`nHeaderStart` is an `int` that takes a `size_t`. From 2³¹ unsent bytes on it comes out negative, and
the message is neither completed nor taken back.
-/

namespace ShinyCoin.Wire

/-! ## The buffer -/

namespace CDataStream

/-- `resize(n)` -/
def resize (s : CDataStream) (n : Nat) : CDataStream where
  vch := s.vch.take (n + s.nReadPos) ++ List.replicate (n + s.nReadPos - s.vch.length) 0
  nReadPos := s.nReadPos
  nReadPos_le := by
    have := s.nReadPos_le
    simp only [List.length_append, List.length_take, List.length_replicate]
    omega

/-- `memcpy(&s[pos], pch, size)` -/
def overwrite (s : CDataStream) (pos : Nat) (pch : Bytes) : CDataStream where
  vch := s.vch.take (pos + s.nReadPos) ++ pch ++ s.vch.drop (pos + s.nReadPos + pch.length)
  nReadPos := s.nReadPos
  nReadPos_le := by
    have := s.nReadPos_le
    simp only [List.length_append, List.length_take]
    omega

/-- `erase(begin(), begin() + n)`, with the read position as the `unsigned int` it is -/
def eraseSent (s : CDataStream) (n : Nat) : CDataStream :=
  if s.nReadPos + n = s.vch.length then clear
  else
    { vch := s.vch
      nReadPos := min ((s.nReadPos + n) % 2 ^ 32) s.vch.length
      nReadPos_le := min_le_right _ _ }

end CDataStream

/-- `strncpy(dest, psz, n)` -/
def strncpy (n : Nat) (psz : Bytes) : Bytes :=
  let copied := (psz.takeWhile (· != 0)).take n
  copied ++ List.replicate (n - copied.length) 0

namespace CMessageHeader

/-- `CMessageHeader(pszCommand, nMessageSizeIn)` -/
def ofCommand (env : Env) (pszCommand : Bytes) (nMessageSizeIn : Nat) : CMessageHeader where
  pchMessageStart := getMessageStart env
  pchCommand := strncpy 12 pszCommand
  nMessageSize := nMessageSizeIn
  nChecksum := 0

/-- `vSend << hdr` -/
def write (hdr : CMessageHeader) : Bytes :=
  hdr.pchMessageStart ++ hdr.pchCommand ++ Lib.toLE 4 hdr.nMessageSize ++ Lib.toLE 4 hdr.nChecksum

end CMessageHeader

/-! ## The node -/

/-- A `size_t` as an `int` -/
def toInt (n : Nat) : ℤ := Int.bmod n (2 ^ 32)

/-- What a node sends to a peer, with the bytes the socket thread has sent so far. -/
structure CNode where
  vSend : CDataStream := .clear
  /-- an `int` -/
  nHeaderStart : ℤ := -1
  /-- an `unsigned int` -/
  nMessageStart : Nat := 2 ^ 32 - 1
  sent : Bytes := []

/-- A call of `PushMessage`: what is written for its arguments, up to an exception if there is
one. -/
structure PushCall where
  pszCommand : Bytes
  written : Bytes
  fThrows : Bool := false

namespace CNode

def abortMessage (pnode : CNode) : CNode :=
  if pnode.nHeaderStart < 0 then pnode
  else { pnode with
    vSend := pnode.vSend.resize pnode.nHeaderStart.toNat
    nHeaderStart := -1
    nMessageStart := 2 ^ 32 - 1 }

def beginMessage (env : Env) (pnode : CNode) (pszCommand : Bytes) : CNode :=
  let pnode := if pnode.nHeaderStart ≠ -1 then pnode.abortMessage else pnode
  let vSend := pnode.vSend.append (CMessageHeader.ofCommand env pszCommand 0).write
  { pnode with
    nHeaderStart := toInt pnode.vSend.size
    vSend := vSend
    nMessageStart := vSend.size % 2 ^ 32 }

/-- `EndMessage` without `-dropmessagestest`. The size and the checksum stand at 16 and 20 of a
header; its assertion is that the header is that long. -/
def endMessage (env : Env) (pnode : CNode) : CNode :=
  if pnode.nHeaderStart < 0 then pnode
  else
    let nSize := (((pnode.vSend.size : ℤ) - pnode.nMessageStart) % 2 ^ 32).toNat
    let vSend := pnode.vSend.overwrite (pnode.nHeaderStart.toNat + 16) (Lib.toLE 4 nSize)
    let nChecksum := checksumOf env (vSend.unread.drop pnode.nMessageStart)
    { pnode with
      vSend := vSend.overwrite (pnode.nHeaderStart.toNat + 20) (Lib.toLE 4 nChecksum)
      nHeaderStart := -1
      nMessageStart := 2 ^ 32 - 1 }

def pushMessage (env : Env) (pnode : CNode) (call : PushCall) : CNode :=
  let pnode := pnode.beginMessage env call.pszCommand
  let pnode := { pnode with vSend := pnode.vSend.append call.written }
  if call.fThrows then pnode.abortMessage else pnode.endMessage env

/-- The socket thread sends the first bytes of `vSend`. -/
def send (pnode : CNode) (nBytes : Nat) : CNode :=
  { pnode with
    vSend := pnode.vSend.eraseSent nBytes
    sent := pnode.sent ++ pnode.vSend.unread.take nBytes }

end CNode

/-! ## Runs -/

inductive SendStep where
  | pushMessage (call : PushCall)
  | send (nBytes : Nat)

namespace SendStep

def apply (env : Env) (pnode : CNode) : SendStep → CNode
  | .pushMessage call => pnode.pushMessage env call
  | .send nBytes => pnode.send nBytes

/-- The message of a call that returns -/
def message : SendStep → Option Message
  | .pushMessage call => if call.fThrows then none else some (call.pszCommand, call.written)
  | .send _ => none

end SendStep

/-- A command of at most 12 printable characters and a payload of at most `MAX_SIZE` bytes. -/
def Message.Ok (m : Message) : Prop :=
  m.1.length ≤ 12 ∧ (∀ c ∈ m.1, 0x20 ≤ c ∧ c ≤ 0x7e) ∧ m.2.length ≤ MAX_SIZE

/-- What is called, and that no more bytes are sent than there are. -/
def SendStep.Ok (pnode : CNode) : SendStep → Prop
  | .pushMessage call => call.fThrows = false → Message.Ok (call.pszCommand, call.written)
  | .send nBytes => nBytes ≤ pnode.vSend.size

/-- A property of every step of a run -/
def EveryStep (env : Env) (P : CNode → SendStep → Prop) : CNode → List SendStep → Prop
  | _, [] => True
  | pnode, step :: steps => P pnode step ∧ EveryStep env P (step.apply env pnode) steps

/-- The positions have room: less than 2³¹ bytes are unsent when a message begins, and less than 2³²
stand before an unsent one. -/
def SendStep.Fits (pnode : CNode) : SendStep → Prop
  | .pushMessage _ => pnode.vSend.size < 2 ^ 31
  | .send nBytes => nBytes = pnode.vSend.size ∨ pnode.vSend.nReadPos + nBytes < 2 ^ 32

section

variable {env : Env} {m : Message} {s : CDataStream} {pnode : CNode} {call : PushCall}
  {steps : List SendStep}

/-! ## What a message looks like -/

/-- A message as it stands in the stream -/
def encode (env : Env) (m : Message) : Bytes :=
  CMessageHeader.write ⟨getMessageStart env, strncpy 12 m.1, m.2.length, checksumOf env m.2⟩ ++ m.2

theorem length_strncpy (n : Nat) (psz : Bytes) : (strncpy n psz).length = n := by
  simp only [strncpy, List.length_append, List.length_replicate, List.length_take]
  omega

theorem length_write {hdr : CMessageHeader} (hstart : hdr.pchMessageStart.length = 4)
    (hcommand : hdr.pchCommand.length = 12) : hdr.write.length = CMessageHeader.nHeaderSize := by
  simp [CMessageHeader.write, CMessageHeader.nHeaderSize, hstart, hcommand]

theorem length_encode (env : Env) (m : Message) :
    (encode env m).length = CMessageHeader.nHeaderSize + m.2.length := by
  rw [encode, List.length_append, length_write (getMessageStart_length env) (length_strncpy 12 _)]

/-- What `vRecv >> hdr` reads is what `vSend << hdr` wrote. -/
theorem ofBytes_write {hdr : CMessageHeader} (hstart : hdr.pchMessageStart.length = 4)
    (hcommand : hdr.pchCommand.length = 12) (hsize : hdr.nMessageSize < 2 ^ 32)
    (hchecksum : hdr.nChecksum < 2 ^ 32) (r : Bytes) :
    CMessageHeader.ofBytes (hdr.write ++ r) = hdr := by
  obtain ⟨start, command, size, checksum⟩ := hdr
  dsimp only at hstart hcommand hsize hchecksum
  have hsize' := Lib.ofLE_toLE (w := 4) hsize
  have hchecksum' := Lib.ofLE_toLE (w := 4) hchecksum
  simp only [CMessageHeader.ofBytes, CMessageHeader.write, List.append_assoc,
    CMessageHeader.mk.injEq]
  refine ⟨List.take_left' hstart, ?_, ?_, ?_⟩
  · rw [List.drop_left' hstart, List.take_left' hcommand]
  · rw [show (16 : Nat) = 4 + 12 from rfl, ← List.drop_drop, List.drop_left' hstart,
      List.drop_left' hcommand, List.take_left' (Lib.length_toLE 4 size), hsize']
  · rw [show (20 : Nat) = 4 + (12 + 4) from rfl, ← List.drop_drop, ← List.drop_drop,
      List.drop_left' hstart, List.drop_left' hcommand, List.drop_left' (Lib.length_toLE 4 size),
      List.take_left' (Lib.length_toLE 4 checksum), hchecksum']

theorem Message.Ok.ne_zero (h : m.Ok) : ∀ c ∈ m.1, (c != 0) = true := by
  intro c hc
  rw [bne_iff_ne]
  rintro rfl
  exact absurd (h.2.1 0 hc).1 (by decide)

/-- The command is filled up with zeros. -/
theorem strncpy_command (h : m.Ok) :
    strncpy 12 m.1 = m.1 ++ List.replicate (12 - m.1.length) 0 := by
  have hall : m.1.takeWhile (· != 0) = m.1 := List.takeWhile_eq_self_iff.mpr h.ne_zero
  rw [strncpy, hall, List.take_of_length_le h.1]

theorem takeWhile_strncpy (h : m.Ok) : (strncpy 12 m.1).takeWhile (· != 0) = m.1 := by
  rw [strncpy_command h, List.takeWhile_append_of_pos h.ne_zero]
  cases 12 - m.1.length with
  | zero => simp
  | succ k => simp [List.replicate_succ]

theorem isCommandValid_strncpy (h : m.Ok) :
    CMessageHeader.isCommandValid (strncpy 12 m.1) = true := by
  have hdrop : (strncpy 12 m.1).dropWhile (· != 0) = List.replicate (12 - m.1.length) 0 := by
    rw [strncpy_command h, List.dropWhile_append_of_pos h.ne_zero]
    cases 12 - m.1.length with
    | zero => rfl
    | succ k => simp [List.replicate_succ]
  rw [CMessageHeader.isCommandValid, takeWhile_strncpy h, hdrop]
  simpa using h.2.1

theorem searchFor_append_self {pat : Bytes} (hne : pat ≠ []) (buf : Bytes) :
    searchFor pat (pat ++ buf) = 0 := by
  obtain ⟨b, bs, rfl⟩ := List.exists_cons_of_ne_nil hne
  rw [List.cons_append, searchFor, if_pos]
  rw [← List.cons_append, List.isPrefixOf_iff_prefix]
  exact List.prefix_append _ _

/-- The receiver takes a message off the front of its buffer, whatever the payload is. -/
theorem frameOf_encode (env : Env) (h : m.Ok) (r : Bytes) :
    frameOf env (encode env m ++ r) = .message m r := by
  have hmax : m.2.length < 2 ^ 32 := lt_of_le_of_lt h.2.2 (by decide)
  have hchecksum : checksumOf env m.2 < 2 ^ 32 := Nat.mod_lt _ (by decide)
  have hlength := length_encode env m
  have hstart : searchFor (getMessageStart env) (encode env m ++ r) = 0 := by
    simp only [encode, CMessageHeader.write, List.append_assoc]
    exact searchFor_append_self (getMessageStart_ne_nil env) _
  have hheader : CMessageHeader.ofBytes (encode env m ++ r)
      = ⟨getMessageStart env, strncpy 12 m.1, m.2.length, checksumOf env m.2⟩ := by
    rw [encode, List.append_assoc]
    exact ofBytes_write (getMessageStart_length env) (length_strncpy 12 _) hmax hchecksum _
  have hrest : (encode env m ++ r).drop CMessageHeader.nHeaderSize = m.2 ++ r := by
    rw [encode, List.append_assoc]
    exact List.drop_left' (length_write (getMessageStart_length env) (length_strncpy 12 _))
  have hvalid : CMessageHeader.isValid env
      ⟨getMessageStart env, strncpy 12 m.1, m.2.length, checksumOf env m.2⟩ = true := by
    simp [CMessageHeader.isValid, isCommandValid_strncpy h, h.2.2]
  have hlong : ¬ (encode env m ++ r).length - 0 < CMessageHeader.nHeaderSize := by
    rw [List.length_append]
    omega
  have hpayload : (m.2 ++ r).take m.2.length = m.2 := List.take_left' rfl
  rw [frameOf, hstart, if_neg hlong, List.drop_zero, frameAt, hheader, hrest, hvalid]
  simp only [Bool.not_true, Bool.false_eq_true, if_false]
  rw [if_neg (by rw [List.length_append]; omega), hpayload, if_neg (not_not.mpr rfl),
    List.drop_left' rfl, CMessageHeader.getCommand, takeWhile_strncpy h]

/-! ## One call -/

namespace CDataStream

theorem eq_of_vch {t : CDataStream} (hvch : s.vch = t.vch) (hpos : s.nReadPos = t.nReadPos) :
    s = t := by
  cases s
  cases t
  cases hvch
  cases hpos
  rfl

theorem append_append (s : CDataStream) (a b : Bytes) :
    (s.append a).append b = s.append (a ++ b) :=
  eq_of_vch (List.append_assoc _ _ _) rfl

theorem size_append (s : CDataStream) (a : Bytes) : (s.append a).size = s.size + a.length := by
  rw [← length_unread, unread_append, List.length_append, length_unread]

/-- `resize` takes back what was appended. -/
theorem resize_append (s : CDataStream) (a : Bytes) : (s.append a).resize s.size = s := by
  have hpos := s.nReadPos_le
  have hend : s.size + s.nReadPos = s.vch.length := by
    rw [size]
    omega
  refine eq_of_vch ?_ rfl
  show (s.vch ++ a).take (s.size + s.nReadPos)
    ++ List.replicate (s.size + s.nReadPos - (s.vch ++ a).length) 0 = s.vch
  rw [hend, List.take_left' rfl, List.length_append, Nat.sub_add_eq, Nat.sub_self, Nat.zero_sub,
    List.replicate_zero, List.append_nil]

theorem overwrite_append (s : CDataStream) {a old new : Bytes} (b : Bytes)
    (hlen : old.length = new.length) :
    (s.append (a ++ old ++ b)).overwrite (s.size + a.length) new = s.append (a ++ new ++ b) := by
  have hpos := s.nReadPos_le
  have hend : s.size + a.length + s.nReadPos = (s.vch ++ a).length := by
    rw [size, List.length_append]
    omega
  refine eq_of_vch ?_ rfl
  show (s.vch ++ (a ++ old ++ b)).take (s.size + a.length + s.nReadPos) ++ new
    ++ (s.vch ++ (a ++ old ++ b)).drop (s.size + a.length + s.nReadPos + new.length)
      = s.vch ++ (a ++ new ++ b)
  rw [hend, ← hlen, ← List.drop_drop]
  simp only [← List.append_assoc]
  rw [List.append_assoc (s.vch ++ a) old b, List.take_left' rfl, List.drop_left' rfl,
    List.drop_left' rfl]

end CDataStream

/-- No message has begun. -/
def CNode.Idle (pnode : CNode) : Prop :=
  pnode.nHeaderStart = -1 ∧ pnode.nMessageStart = 2 ^ 32 - 1

theorem toInt_eq {n : Nat} (h : n < 2 ^ 31) : toInt n = n := by
  apply Int.bmod_eq_of_le
  · norm_num
  · norm_num
    omega

theorem bmod_eq_sub {z : ℤ} (h : 2 ^ 31 ≤ z) (hlt : z < 2 ^ 32) :
    z.bmod (2 ^ 32) = z - 2 ^ 32 := by
  rw [← Int.sub_bmod_right z (2 ^ 32), Nat.cast_pow, Nat.cast_ofNat]
  apply Int.bmod_eq_of_le
  · norm_num
    omega
  · norm_num
    omega

theorem toInt_neg {n : Nat} (h : 2 ^ 31 ≤ n) (hlt : n < 2 ^ 32) : toInt n < 0 := by
  have hle : (2 : ℤ) ^ 31 ≤ n := by exact_mod_cast h
  have hlt' : (n : ℤ) < 2 ^ 32 := by exact_mod_cast hlt
  unfold toInt
  rw [bmod_eq_sub hle hlt']
  exact sub_neg.mpr hlt'

theorem beginMessage_eq (hidle : pnode.Idle) (hfits : pnode.vSend.size < 2 ^ 31)
    (pszCommand : Bytes) :
    pnode.beginMessage env pszCommand = { pnode with
      vSend := pnode.vSend.append (CMessageHeader.ofCommand env pszCommand 0).write
      nHeaderStart := pnode.vSend.size
      nMessageStart := pnode.vSend.size + CMessageHeader.nHeaderSize } := by
  have hlen : (CMessageHeader.ofCommand env pszCommand 0).write.length
      = CMessageHeader.nHeaderSize :=
    length_write (getMessageStart_length env) (length_strncpy 12 _)
  have hsize : CMessageHeader.nHeaderSize = 24 := rfl
  rw [CNode.beginMessage, if_neg (not_not.mpr hidle.1), toInt_eq hfits, CDataStream.size_append,
    hlen, Nat.mod_eq_of_lt (by omega)]

/-- A call that throws changes nothing. -/
theorem pushMessage_throws (hidle : pnode.Idle) (hfits : pnode.vSend.size < 2 ^ 31)
    (hthrows : call.fThrows = true) : pnode.pushMessage env call = pnode := by
  rw [CNode.pushMessage, beginMessage_eq hidle hfits, if_pos hthrows, CNode.abortMessage,
    if_neg (by simp), CDataStream.append_append]
  simp only [Int.toNat_natCast, CDataStream.resize_append]
  rw [← hidle.1, ← hidle.2]

/-- A call that returns appends its message. -/
theorem pushMessage_returns (hidle : pnode.Idle) (hfits : pnode.vSend.size < 2 ^ 31)
    (hreturns : call.fThrows = false) (hlen : call.written.length < 2 ^ 32) :
    pnode.pushMessage env call
      = { pnode with vSend := pnode.vSend.append (encode env (call.pszCommand, call.written)) } := by
  have hsize : CMessageHeader.nHeaderSize = 24 := rfl
  have hhead : (getMessageStart env ++ strncpy 12 call.pszCommand).length = 16 := by
    rw [List.length_append, getMessageStart_length, length_strncpy]
  have hhead' : (getMessageStart env ++ strncpy 12 call.pszCommand
      ++ Lib.toLE 4 call.written.length).length = 20 := by
    rw [List.length_append, hhead, Lib.length_toLE]
  have hwrite : (CMessageHeader.ofCommand env call.pszCommand 0).write ++ call.written
      = getMessageStart env ++ strncpy 12 call.pszCommand ++ Lib.toLE 4 0
        ++ (Lib.toLE 4 0 ++ call.written) := by
    simp [CMessageHeader.ofCommand, CMessageHeader.write]
  -- the size, which is what stands behind the header
  have hnSize : ((((pnode.vSend.append ((CMessageHeader.ofCommand env call.pszCommand 0).write
      ++ call.written)).size : ℤ) - (pnode.vSend.size + CMessageHeader.nHeaderSize : Nat)) % 2 ^ 32
        ).toNat = call.written.length := by
    rw [CDataStream.size_append, List.length_append,
      length_write (getMessageStart_length env) (length_strncpy 12 _)]
    omega
  have hsizeSet : (pnode.vSend.append (getMessageStart env ++ strncpy 12 call.pszCommand
      ++ Lib.toLE 4 0 ++ (Lib.toLE 4 0 ++ call.written))).overwrite (pnode.vSend.size + 16)
        (Lib.toLE 4 call.written.length)
      = pnode.vSend.append (getMessageStart env ++ strncpy 12 call.pszCommand
        ++ Lib.toLE 4 call.written.length ++ (Lib.toLE 4 0 ++ call.written)) := by
    rw [← hhead]
    exact pnode.vSend.overwrite_append _ (by rw [Lib.length_toLE, Lib.length_toLE])
  -- the checksum, of what stands behind the header
  have hbehind : (pnode.vSend.append (getMessageStart env ++ strncpy 12 call.pszCommand
      ++ Lib.toLE 4 call.written.length ++ (Lib.toLE 4 0 ++ call.written))).unread.drop
        (pnode.vSend.size + CMessageHeader.nHeaderSize) = call.written := by
    rw [CDataStream.unread_append, ← List.append_assoc, ← List.append_assoc]
    apply List.drop_left'
    rw [List.length_append, List.length_append, CDataStream.length_unread, hhead',
      Lib.length_toLE, hsize]
  have hchecksumSet : (pnode.vSend.append (getMessageStart env ++ strncpy 12 call.pszCommand
      ++ Lib.toLE 4 call.written.length ++ (Lib.toLE 4 0 ++ call.written))).overwrite
        (pnode.vSend.size + 20) (Lib.toLE 4 (checksumOf env call.written))
      = pnode.vSend.append (encode env (call.pszCommand, call.written)) := by
    rw [← hhead', ← List.append_assoc]
    exact pnode.vSend.overwrite_append _ (by rw [Lib.length_toLE, Lib.length_toLE])
  rw [CNode.pushMessage, beginMessage_eq hidle hfits, hreturns, if_neg Bool.false_ne_true,
    CNode.endMessage, if_neg (by simp), CDataStream.append_append]
  simp only [Int.toNat_natCast, hnSize]
  rw [hwrite, hsizeSet, hbehind, hchecksumSet, ← hidle.1, ← hidle.2]

theorem send_unread (nBytes : Nat) (hle : nBytes ≤ pnode.vSend.size)
    (hfits : nBytes = pnode.vSend.size ∨ pnode.vSend.nReadPos + nBytes < 2 ^ 32) :
    (pnode.send nBytes).sent ++ (pnode.send nBytes).vSend.unread
      = pnode.sent ++ pnode.vSend.unread := by
  have hunread : (pnode.vSend.eraseSent nBytes).unread = pnode.vSend.unread.drop nBytes := by
    have hpos := pnode.vSend.nReadPos_le
    rw [CDataStream.eraseSent]
    rw [CDataStream.size] at hle hfits
    split
    next hend =>
      rw [List.drop_eq_nil_of_le, CDataStream.unread_clear]
      rw [CDataStream.length_unread, CDataStream.size]
      omega
    next hend =>
      have hmod : min ((pnode.vSend.nReadPos + nBytes) % 2 ^ 32) pnode.vSend.vch.length
          = pnode.vSend.nReadPos + nBytes := by
        rw [Nat.mod_eq_of_lt (by omega)]
        omega
      simp only [CDataStream.unread, hmod, List.drop_drop]
  rw [CNode.send]
  dsimp only
  rw [hunread, List.append_assoc, List.take_append_drop]

/-! ## Runs -/

/-- After every step no message has begun, and what was sent and what was not are the messages of
the calls that returned. -/
structure CNode.Sends (env : Env) (pnode : CNode) (ms : List Message) : Prop where
  idle : pnode.Idle
  stream : pnode.sent ++ pnode.vSend.unread = ms.flatMap (encode env)
  ok : ∀ m ∈ ms, m.Ok

theorem CNode.Sends.step {ms : List Message} {step : SendStep} (h : pnode.Sends env ms)
    (hok : step.Ok pnode) (hfits : step.Fits pnode) :
    (step.apply env pnode).Sends env (ms ++ step.message.toList) := by
  cases step with
  | send nBytes =>
      refine ⟨h.idle, ?_, ?_⟩
      · rw [SendStep.message, Option.toList_none, List.append_nil, ← h.stream]
        exact send_unread nBytes hok hfits
      · rw [SendStep.message, Option.toList_none, List.append_nil]
        exact h.ok
  | pushMessage call =>
      cases hthrows : call.fThrows with
      | true =>
          rw [SendStep.apply, pushMessage_throws h.idle hfits hthrows, SendStep.message,
            if_pos hthrows, Option.toList_none, List.append_nil]
          exact h
      | false =>
          have hm : Message.Ok (call.pszCommand, call.written) := hok hthrows
          have hlen : call.written.length < 2 ^ 32 := lt_of_le_of_lt hm.2.2 (by decide)
          rw [SendStep.apply, pushMessage_returns h.idle hfits hthrows hlen, SendStep.message,
            if_neg (by rw [hthrows]; exact Bool.false_ne_true), Option.toList_some]
          refine ⟨h.idle, ?_, ?_⟩
          · dsimp only
            rw [CDataStream.unread_append, ← List.append_assoc, h.stream, List.flatMap_append,
              List.flatMap_singleton]
          · intro m hmem
            rcases List.mem_append.mp hmem with hmem | hmem
            · exact h.ok m hmem
            · rw [List.mem_singleton.mp hmem]
              exact hm

theorem CNode.Sends.run {ms : List Message} (h : pnode.Sends env ms)
    (hok : EveryStep env (fun pnode step => step.Ok pnode) pnode steps)
    (hfits : EveryStep env (fun pnode step => step.Fits pnode) pnode steps) :
    (steps.foldl (SendStep.apply env) pnode).Sends env (ms ++ steps.filterMap SendStep.message) := by
  induction steps generalizing pnode ms with
  | nil => simpa using h
  | cons step steps ih =>
      have hnext := ih (h.step hok.1 hfits.1) hok.2 hfits.2
      rw [List.append_assoc] at hnext
      rw [List.foldl_cons, List.filterMap_cons]
      cases hmessage : step.message with
      | none =>
          rw [hmessage] at hnext
          exact hnext
      | some m =>
          rw [hmessage] at hnext
          exact hnext

theorem throws_of_fits {ms : List Message} (h : pnode.Sends env ms)
    (hok : EveryStep env (fun pnode step => step.Ok pnode) pnode steps)
    (hfits : EveryStep env (fun pnode step => step.Fits pnode) pnode steps) :
    EveryStep env (fun pnode step => ∀ call, step = .pushMessage call → call.fThrows = true →
      pnode.pushMessage env call = pnode) pnode steps := by
  induction steps generalizing pnode ms with
  | nil => trivial
  | cons step steps ih =>
      refine ⟨?_, ih (h.step hok.1 hfits.1) hok.2 hfits.2⟩
      rintro call rfl hthrows
      exact pushMessage_throws h.idle hfits.1 hthrows

theorem sends_new (env : Env) : ({} : CNode).Sends env [] :=
  ⟨⟨rfl, rfl⟩, rfl, fun _ hmem => absurd hmem List.not_mem_nil⟩

/-! ## The receiver -/

/-- A peer that gets these bytes, in whatever chunks, hands over these messages as long as it
listens, and keeps nothing back. It listens on unless `ProcessMessage` closes the socket or begins the
shutdown. -/
def Delivers (env : Env) (stream : Bytes) (ms : List Message) : Prop :=
  ∀ (σ : Type) (processMessage : σ → Message → Processed σ) (node : σ) (chunks : List Bytes),
    chunks.flatten = stream →
    ∃ after, receiveChunks env processMessage (Peer.new node) chunks = some after ∧
      after.handed <+: ms ∧ (after.Listening → after.handed = ms ∧ after.vRecv.size = 0) ∧
      ((∀ node m, (processMessage node m).fClosed = false ∧
        (processMessage node m).fShutdown = false) → after.Listening)

/-- The receiver behind the chunks -/
theorem receiveChunks_new {σ : Type} (env : Env) (processMessage : σ → Message → Processed σ)
    (node : σ) (chunks : List Bytes) :
    ∃ after, receiveChunks env processMessage (Peer.new node) chunks = some after ∧
      after.toReceiver = (messageFramer env).consume (Peer.handler processMessage) node []
        chunks.flatten := by
  obtain ⟨after, hrun, hafter⟩ := receiveChunks_toReceiver env processMessage (Peer.new node) chunks
  have hsettled : (messageFramer env).Settled (Peer.new node).toReceiver :=
    Lib.Framer.settled_start node []
  refine ⟨after, hrun, ?_⟩
  have hempty : (Peer.new node).toReceiver.buffer = some [] := rfl
  rw [hafter, Lib.Framer.receive_flatten hsettled, Lib.Framer.receive_some hempty, List.nil_append]
  rfl

theorem decodes_encode (env : Env) {ms : List Message} (h : ∀ m ∈ ms, m.Ok) :
    (messageFramer env).Decodes (encode env) ms :=
  fun m hmem r => frameOf_encode env (h m hmem) r

theorem delivers_encoded (env : Env) {ms : List Message} (h : ∀ m ∈ ms, m.Ok) :
    Delivers env (ms.flatMap (encode env)) ms := by
  intro σ processMessage node chunks hchunks
  obtain ⟨after, hrun, hafter⟩ := receiveChunks_new env processMessage node chunks
  refine ⟨after, hrun, ?_⟩
  have hhanded : after.handed = after.toReceiver.handed := rfl
  have hbuffer : after.toReceiver.buffer
      = if after.fSocket && !after.fShutdown then some after.vRecv.unread else none := rfl
  rw [hchunks, ← List.append_nil (ms.flatMap (encode env))] at hafter
  rcases Lib.Framer.consume_encoded (Peer.handler processMessage) (decodes_encode env h) node [] []
    with ⟨node', heq⟩ | ⟨node', done, hdone, heq, n, m, hstops⟩
  · rw [heq, Lib.Framer.consume_wait (messageFramer env).frame_nil, List.nil_append] at hafter
    rw [hafter] at hhanded hbuffer
    have hlisten : after.Listening := by
      dsimp only at hbuffer
      split at hbuffer
      next hopen =>
        simpa [Peer.Listening] using hopen
      next => cases hbuffer
    have hunread : after.vRecv.unread = [] := by
      dsimp only at hbuffer
      rw [if_pos (by simpa [Peer.Listening] using hlisten)] at hbuffer
      exact (Option.some.inj hbuffer).symm
    refine ⟨by rw [hhanded], fun _ => ⟨hhanded, ?_⟩, fun _ => hlisten⟩
    rw [← CDataStream.length_unread, hunread, List.length_nil]
  · rw [heq, List.nil_append] at hafter
    rw [hafter] at hhanded hbuffer
    have hdeaf : ¬ after.Listening := by
      intro hlisten
      rw [if_pos (by simpa [Peer.Listening] using hlisten)] at hbuffer
      cases hbuffer
    refine ⟨by rw [hhanded]; exact hdone, fun hlisten => absurd hlisten hdeaf, ?_⟩
    intro hgoes
    simp [Peer.handler, hgoes n m] at hstops

/-- Two messages with a call between that throws, and three bytes sent before the second. -/
def exampleSends : List SendStep :=
  [.pushMessage ⟨[0x61], [1, 2], false⟩, .pushMessage ⟨[0x62], [3], true⟩, .send 3,
    .pushMessage ⟨[0x63], [], false⟩]

theorem length_flatMap_replicate (env : Env) (m : Message) (k : Nat) :
    ((List.replicate k m).flatMap (encode env)).length
      = k * (CMessageHeader.nHeaderSize + m.2.length) := by
  induction k with
  | zero => simp
  | succ k ih =>
      rw [List.replicate_succ, List.flatMap_cons, List.length_append, ih, length_encode]
      ring

/-- 64 messages of the largest size may begin before the positions are full. -/
theorem fits_replicate (call : PushCall) (hreturns : call.fThrows = false)
    (hm : Message.Ok (call.pszCommand, call.written)) (hlen : call.written.length = MAX_SIZE)
    (k j : Nat) (hle : k + j ≤ 64)
    (h : pnode.Sends env (List.replicate j (call.pszCommand, call.written)))
    (hsent : pnode.sent = []) :
    EveryStep env (fun pnode step => step.Fits pnode) pnode
        (List.replicate k (.pushMessage call)) ∧
      ((List.replicate k (SendStep.pushMessage call)).foldl (SendStep.apply env) pnode).sent = [] := by
  induction k generalizing j pnode with
  | zero => exact ⟨trivial, hsent⟩
  | succ k ih =>
      have hsize : pnode.vSend.size = j * (24 + 0x02000000) := by
        have hstream := congrArg List.length h.stream
        rw [hsent, List.nil_append, CDataStream.length_unread, length_flatMap_replicate] at hstream
        rw [hstream]
        dsimp only
        rw [hlen]
        rfl
      have hfits : (SendStep.pushMessage call).Fits pnode := by
        show pnode.vSend.size < 2 ^ 31
        omega
      have hok : (SendStep.pushMessage call).Ok pnode := fun _ => hm
      have hnext := h.step hok hfits
      have hmessage : (SendStep.pushMessage call).message.toList
          = [(call.pszCommand, call.written)] := by
        rw [SendStep.message, if_neg (by rw [hreturns]; exact Bool.false_ne_true), Option.toList_some]
      rw [hmessage, ← List.replicate_succ'] at hnext
      have hsent' : ((SendStep.pushMessage call).apply env pnode).sent = [] := by
        have hshort : call.written.length < 2 ^ 32 := by rw [hlen]; decide
        rw [SendStep.apply, pushMessage_returns h.idle hfits hreturns hshort]
        exact hsent
      obtain ⟨hrest, hlast⟩ := ih (j + 1) (by omega) hnext hsent'
      rw [List.replicate_succ]
      exact ⟨⟨hfits, hrest⟩, hlast⟩

/-- A message that begins where an `int` has no room keeps a header without size and checksum. -/
theorem pushMessage_overflow (env : Env) (call : PushCall) (hidle : pnode.Idle) (hlarge : 2 ^ 31 ≤ pnode.vSend.size)
    (hsmall : pnode.vSend.size < 2 ^ 32) (hreturns : call.fThrows = false) :
    (pnode.pushMessage env call).sent = pnode.sent ∧
      (pnode.pushMessage env call).vSend.unread = pnode.vSend.unread
        ++ ((CMessageHeader.ofCommand env call.pszCommand 0).write ++ call.written) := by
  have hneg := toInt_neg hlarge hsmall
  rw [CNode.pushMessage, CNode.beginMessage, if_neg (not_not.mpr hidle.1), hreturns,
    if_neg Bool.false_ne_true, CNode.endMessage, if_pos hneg]
  refine ⟨rfl, ?_⟩
  dsimp only
  rw [CDataStream.unread_append, CDataStream.unread_append, List.append_assoc]

/-- A header without size and checksum, and nothing behind it, is passed over where the hash of
nothing does not begin with four zero bytes. -/
theorem frameOf_header (call : PushCall) (h : Message.Ok (call.pszCommand, [])) (hhash : checksumOf env [] ≠ 0) :
    frameOf env (CMessageHeader.ofCommand env call.pszCommand 0).write = .skip [] := by
  have hlength : (CMessageHeader.ofCommand env call.pszCommand 0).write.length
      = CMessageHeader.nHeaderSize :=
    length_write (getMessageStart_length env) (length_strncpy 12 _)
  have hstart : searchFor (getMessageStart env) (CMessageHeader.ofCommand env call.pszCommand 0).write
      = 0 := by
    simp only [CMessageHeader.ofCommand, CMessageHeader.write, List.append_assoc]
    exact searchFor_append_self (getMessageStart_ne_nil env) _
  have hheader : CMessageHeader.ofBytes (CMessageHeader.ofCommand env call.pszCommand 0).write
      = CMessageHeader.ofCommand env call.pszCommand 0 := by
    have hzero : 0 < 2 ^ 32 := by decide
    have hread : CMessageHeader.ofBytes
        ((CMessageHeader.ofCommand env call.pszCommand 0).write ++ [])
          = CMessageHeader.ofCommand env call.pszCommand 0 :=
      ofBytes_write (getMessageStart_length env) (length_strncpy 12 _) hzero hzero []
    rwa [List.append_nil] at hread
  have hvalid : (CMessageHeader.ofCommand env call.pszCommand 0).isValid env = true := by
    simp [CMessageHeader.isValid, CMessageHeader.ofCommand, isCommandValid_strncpy h]
  rw [frameOf, hstart, hlength, if_neg (by simp), List.drop_zero, frameAt, hheader, hvalid,
    List.drop_eq_nil_of_le hlength.le]
  simp [CMessageHeader.ofCommand, hhash]

/-- The counterexample's network: the hash of nothing is not zero. -/
def Env.hashing : Env := { Env.plain with hash := fun b => b.length + 1 }

/-- A receiver that passes over what stands behind some messages misses a further one. -/
theorem not_delivers_of_skip (m : Message) {ms : List Message} {c : Bytes} (h : ∀ m ∈ ms, m.Ok)
    (hskip : frameOf env c = .skip []) :
    ¬ Delivers env (ms.flatMap (encode env) ++ c) (ms ++ [m]) := by
  intro hdelivers
  obtain ⟨after, hrun, -, hall, hlisten⟩ := hdelivers Unit (fun _ _ => ⟨(), false, false⟩) ()
    [ms.flatMap (encode env) ++ c] List.flatten_singleton
  obtain ⟨after', hrun', hafter⟩ := receiveChunks_new env
    (fun (_ : Unit) (_ : Message) => ⟨(), false, false⟩) () [ms.flatMap (encode env) ++ c]
  rw [hrun, Option.some.injEq] at hrun'
  subst hrun'
  rw [List.flatten_singleton] at hafter
  have hhanded : after.handed = after.toReceiver.handed := rfl
  rcases Lib.Framer.consume_encoded _ (decodes_encode env h) () [] c
    with ⟨node', heq⟩ | ⟨-, -, -, -, n, m', hstops⟩
  · rw [heq, List.nil_append] at hafter
    rw [hafter, Lib.Framer.consume_skip hskip,
      Lib.Framer.consume_wait (messageFramer env).frame_nil] at hhanded
    have hsame := (hall (hlisten fun _ _ => ⟨rfl, rfl⟩)).1
    rw [hhanded] at hsame
    exact absurd (List.append_right_eq_self.mp hsame.symm) (List.cons_ne_nil m [])
  · cases hstops

theorem everyStep_of_forall {P : CNode → SendStep → Prop}
    (h : ∀ step ∈ steps, ∀ pnode, P pnode step) : EveryStep env P pnode steps := by
  induction steps generalizing pnode with
  | nil => trivial
  | cons step steps ih =>
      exact ⟨h step List.mem_cons_self pnode,
        ih fun step hmem => h step (List.mem_cons_of_mem _ hmem)⟩

end

end ShinyCoin.Wire

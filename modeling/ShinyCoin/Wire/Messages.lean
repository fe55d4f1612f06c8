import ShinyCoin.Core.Env
import ShinyCoin.Lib.Framing
import ShinyCoin.Lib.Reader
import ShinyCoin.Wire.DataStream

/-!
# Messages in a byte stream

`ProcessMessages` looks for the message start in `vRecv`, reads a header, and hands the payload to
`ProcessMessage` when all of it is there and its checksum is right. Garbage is dropped up to the
last bytes a header may begin with; behind a bad header, or before the payload of a bad checksum,
the search goes on; an incomplete message is put back.
-/

namespace ShinyCoin.Wire

/-- `GetMessageStart` -/
def getMessageStart (env : Env) : Bytes :=
  if env.fTestNet then [0xe3, 0xc7, 0x9e, 0xdd] else [0x89, 0xfd, 0x9c, 0xad]

structure CMessageHeader where
  pchMessageStart : Bytes
  pchCommand : Bytes
  nMessageSize : Nat
  nChecksum : Nat
  deriving DecidableEq, Repr

namespace CMessageHeader

/-- `vRecv.GetSerializeSize(CMessageHeader())` -/
def nHeaderSize : Nat := 4 + 12 + 4 + 4

/-- `vRecv >> hdr` -/
def read (vRecv : CDataStream) : Option (CMessageHeader × CDataStream) :=
  (vRecv.read 4).bind fun (pchMessageStart, vRecv) =>
    (vRecv.read 12).bind fun (pchCommand, vRecv) =>
      (vRecv.read 4).bind fun (nMessageSize, vRecv) =>
        (vRecv.read 4).bind fun (nChecksum, vRecv) =>
          some (⟨pchMessageStart, pchCommand, Lib.ofLE nMessageSize, Lib.ofLE nChecksum⟩, vRecv)

/-- Printable up to the first zero byte, and only zeros from there -/
def isCommandValid (pchCommand : Bytes) : Bool :=
  (pchCommand.takeWhile (· != 0)).all (fun c => 0x20 ≤ c && c ≤ 0x7e)
    && (pchCommand.dropWhile (· != 0)).all (· == 0)

def isValid (env : Env) (hdr : CMessageHeader) : Bool :=
  hdr.pchMessageStart == getMessageStart env && isCommandValid hdr.pchCommand
    && decide (hdr.nMessageSize ≤ MAX_SIZE)

def getCommand (hdr : CMessageHeader) : Bytes := hdr.pchCommand.takeWhile (· != 0)

/-- A header as it stands in front of some bytes -/
def ofBytes (b : Bytes) : CMessageHeader where
  pchMessageStart := b.take 4
  pchCommand := (b.drop 4).take 12
  nMessageSize := Lib.ofLE ((b.drop 16).take 4)
  nChecksum := Lib.ofLE ((b.drop 20).take 4)

theorem read_eq {vRecv : CDataStream} (h : nHeaderSize ≤ vRecv.size) :
    ∃ s, read vRecv = some (ofBytes vRecv.unread, s) ∧ s.unread = vRecv.unread.drop nHeaderSize := by
  have hsize : 24 ≤ vRecv.size := h
  refine ⟨(((vRecv.advance 4).advance 12).advance 4).advance 4, ?_, ?_⟩
  · unfold read
    rw [CDataStream.read_eq (by omega)]
    dsimp only [Option.bind_some]
    rw [CDataStream.read_eq (by simp only [CDataStream.size_advance]; omega)]
    dsimp only [Option.bind_some]
    rw [CDataStream.read_eq (by simp only [CDataStream.size_advance]; omega)]
    dsimp only [Option.bind_some]
    rw [CDataStream.read_eq (by simp only [CDataStream.size_advance]; omega)]
    simp only [Option.bind_some, CDataStream.unread_advance, List.drop_drop]
    rfl
  · simp only [CDataStream.unread_advance, List.drop_drop]
    rfl

end CMessageHeader

/-- Where a pattern begins first, the length of the bytes if it is not there -/
def searchFor (pat : Bytes) : Bytes → Nat
  | [] => 0
  | b :: bs => if pat.isPrefixOf (b :: bs) then 0 else searchFor pat bs + 1

/-- The first four bytes of the hash, as a number -/
def checksumOf (env : Env) (payload : Bytes) : Nat := env.hash payload % 2 ^ 32

/-- A command and a payload -/
abbrev Message := Bytes × Bytes

/-- One round of the loop in `ProcessMessages`, up to the call of `ProcessMessage`; `none` if the
stream throws. -/
def nextFrame (env : Env) (vRecv : CDataStream) : Option (Lib.Frame Message CDataStream) :=
  let pstart := searchFor (getMessageStart env) vRecv.unread
  if vRecv.size - pstart < CMessageHeader.nHeaderSize then
    if CMessageHeader.nHeaderSize < vRecv.size then
      some (.wait (vRecv.eraseFront (vRecv.size - CMessageHeader.nHeaderSize)))
    else some (.wait vRecv)
  else
    let vRecv := vRecv.eraseFront pstart
    let vHeaderSave := vRecv.unread.take CMessageHeader.nHeaderSize
    (CMessageHeader.read vRecv).bind fun (hdr, vRecv) =>
      if !hdr.isValid env then some (.skip vRecv)
      else if MAX_SIZE < hdr.nMessageSize then some (.skip vRecv)
      else if vRecv.size < hdr.nMessageSize then some (.wait (vRecv.insertFront vHeaderSave))
      else if checksumOf env (vRecv.unread.take hdr.nMessageSize) ≠ hdr.nChecksum then
        some (.skip vRecv)
      else
        let vMsg := vRecv.unread.take hdr.nMessageSize
        (vRecv.ignore hdr.nMessageSize).map fun vRecv => .message (hdr.getCommand, vMsg) vRecv

/-! ## The rounds on plain bytes -/

/-- The bytes a message may be made of when the header is in front. -/
def frameAt (env : Env) (buf : Bytes) : Lib.Frame Message Bytes :=
  let hdr := CMessageHeader.ofBytes buf
  let rest := buf.drop CMessageHeader.nHeaderSize
  if !hdr.isValid env then .skip rest
  else if rest.length < hdr.nMessageSize then .wait buf
  else if checksumOf env (rest.take hdr.nMessageSize) ≠ hdr.nChecksum then .skip rest
  else .message (hdr.getCommand, rest.take hdr.nMessageSize) (rest.drop hdr.nMessageSize)

def frameOf (env : Env) (buf : Bytes) : Lib.Frame Message Bytes :=
  let pstart := searchFor (getMessageStart env) buf
  if buf.length - pstart < CMessageHeader.nHeaderSize then
    .wait (buf.drop (buf.length - CMessageHeader.nHeaderSize))
  else frameAt env (buf.drop pstart)

/-- The stream never throws, and what it does is `frameOf` of its unread bytes. -/
theorem nextFrame_eq (env : Env) (vRecv : CDataStream) :
    ∃ f, nextFrame env vRecv = some f ∧ f.map CDataStream.unread = frameOf env vRecv.unread := by
  unfold nextFrame frameOf
  dsimp only
  rw [CDataStream.length_unread]
  split
  · split
    · exact ⟨_, rfl, by simp [Lib.Frame.map]⟩
    · next hshort =>
      have hzero : vRecv.size - CMessageHeader.nHeaderSize = 0 := by omega
      refine ⟨_, rfl, ?_⟩
      rw [hzero]
      rfl
  · next hlong =>
    generalize hstart : vRecv.eraseFront (searchFor (getMessageStart env) vRecv.unread) = s
    have hs : vRecv.unread.drop (searchFor (getMessageStart env) vRecv.unread) = s.unread := by
      rw [← hstart, CDataStream.unread_eraseFront]
    have hsize : CMessageHeader.nHeaderSize ≤ s.size := by
      rw [← CDataStream.length_unread, ← hs, List.length_drop, CDataStream.length_unread]
      omega
    obtain ⟨t, hread, ht⟩ := CMessageHeader.read_eq hsize
    rw [hs, hread]
    dsimp only [Option.bind_some]
    unfold frameAt
    dsimp only
    generalize CMessageHeader.ofBytes s.unread = hdr
    rw [← ht, CDataStream.length_unread]
    split
    · exact ⟨_, rfl, rfl⟩
    · next hvalid =>
      have hmax : ¬ MAX_SIZE < hdr.nMessageSize := by
        intro hgt
        apply hvalid
        unfold CMessageHeader.isValid
        rw [decide_eq_false (by omega)]
        simp
      rw [if_neg hmax]
      split
      · refine ⟨_, rfl, ?_⟩
        show Lib.Frame.wait (t.insertFront _).unread = _
        rw [CDataStream.unread_insertFront, ht, List.take_append_drop]
      · next hall =>
        split
        · exact ⟨_, rfl, rfl⟩
        · rw [CDataStream.ignore_eq (by omega)]
          refine ⟨_, rfl, ?_⟩
          simp only [Lib.Frame.map, CDataStream.unread_advance]

/-! ## More bytes -/

section

variable {env : Env} {pat buf c r : Bytes} {m : Message}

theorem searchFor_le (pat buf : Bytes) : searchFor pat buf ≤ buf.length := by
  induction buf with
  | nil => exact le_rfl
  | cons b bs ih =>
      unfold searchFor
      split
      · exact Nat.zero_le _
      · exact Nat.succ_le_succ ih

/-- A pattern that begins at the end of long enough bytes was there before. -/
theorem isPrefixOf_append (pat buf c : Bytes) (h : pat.length ≤ buf.length) :
    pat.isPrefixOf (buf ++ c) = pat.isPrefixOf buf := by
  rw [Bool.eq_iff_iff, List.isPrefixOf_iff_prefix, List.isPrefixOf_iff_prefix]
  constructor
  · intro hpre
    exact List.prefix_of_prefix_length_le hpre (List.prefix_append buf c) h
  · intro hpre
    exact hpre.trans (List.prefix_append buf c)

/-- What was found stays where it is. -/
theorem searchFor_append (hne : pat ≠ []) (h : searchFor pat buf + pat.length ≤ buf.length) :
    searchFor pat (buf ++ c) = searchFor pat buf := by
  induction buf with
  | nil =>
      have hpos := List.length_pos_iff.mpr hne
      rw [List.length_nil] at h
      omega
  | cons b bs ih =>
      have hpre := isPrefixOf_append pat (b :: bs) c (by omega)
      rw [List.cons_append] at hpre
      unfold searchFor at h
      simp only [List.cons_append, searchFor, hpre]
      split
      · rfl
      · next hno =>
        rw [if_neg hno, List.length_cons] at h
        rw [ih (by omega)]

/-- Bytes in front of the first place are not missed, as long as the pattern cannot begin there. -/
theorem searchFor_drop {j : Nat} (hle : j ≤ searchFor pat buf)
    (hlen : j = 0 ∨ j + pat.length ≤ buf.length + 1) :
    searchFor pat (buf ++ c) = j + searchFor pat (buf.drop j ++ c) := by
  induction j generalizing buf with
  | zero => simp
  | succ j ih =>
      cases buf with
      | nil => exact absurd hle (by simp [searchFor])
      | cons b bs =>
          rw [List.length_cons] at hlen
          have hpre := isPrefixOf_append pat (b :: bs) c
            (by rw [List.length_cons]; omega)
          rw [List.cons_append] at hpre
          have hno : ¬ pat.isPrefixOf (b :: bs) = true := by
            intro hyes
            simp [searchFor, hyes] at hle
          simp only [searchFor, if_neg hno] at hle
          simp only [List.cons_append, searchFor, hpre, if_neg hno, List.drop_succ_cons]
          rw [ih (by omega) (by omega)]
          omega

theorem getMessageStart_length (env : Env) : (getMessageStart env).length = 4 := by
  unfold getMessageStart
  split <;> rfl

theorem getMessageStart_ne_nil (env : Env) : getMessageStart env ≠ [] := by
  intro hnil
  have hlen := getMessageStart_length env
  rw [hnil] at hlen
  cases hlen

/-- Dropping bytes before the first message start changes no later round, if a header's length of
them stays. -/
theorem frameOf_drop {j : Nat} (hle : j ≤ searchFor (getMessageStart env) buf)
    (hlen : j = 0 ∨ j + CMessageHeader.nHeaderSize ≤ buf.length) :
    frameOf env (buf.drop j ++ c) = frameOf env (buf ++ c) := by
  have hj : j ≤ buf.length := hle.trans (searchFor_le _ _)
  have hsize : CMessageHeader.nHeaderSize = 24 := rfl
  have hsearch := searchFor_drop (c := c) hle (by rw [getMessageStart_length]; omega)
  have hdrop : buf.drop j ++ c = (buf ++ c).drop j := (List.drop_append_of_le_length hj).symm
  have htotal : (buf.drop j ++ c).length = (buf ++ c).length - j := by rw [hdrop, List.length_drop]
  have hmore : buf.length ≤ (buf ++ c).length := by simp
  unfold frameOf
  dsimp only
  rw [hsearch, htotal, Nat.sub_sub]
  split
  · rw [hdrop, List.drop_drop]
    congr 2
    omega
  · rw [hdrop, List.drop_drop]

theorem ofBytes_append (h : CMessageHeader.nHeaderSize ≤ buf.length) :
    CMessageHeader.ofBytes (buf ++ c) = CMessageHeader.ofBytes buf := by
  have hsize : 24 ≤ buf.length := h
  unfold CMessageHeader.ofBytes
  rw [List.take_append_of_le_length (by omega), List.drop_append_of_le_length (by omega),
    List.drop_append_of_le_length (by omega), List.drop_append_of_le_length (by omega),
    List.take_append_of_le_length (by rw [List.length_drop]; omega),
    List.take_append_of_le_length (by rw [List.length_drop]; omega),
    List.take_append_of_le_length (by rw [List.length_drop]; omega)]

/-- A round that does not wait is the same with more bytes behind. -/
theorem frameAt_append (h : CMessageHeader.nHeaderSize ≤ buf.length) :
    (∀ r, frameAt env buf = .skip r → frameAt env (buf ++ c) = .skip (r ++ c)) ∧
      ∀ m r, frameAt env buf = .message m r → frameAt env (buf ++ c) = .message m (r ++ c) := by
  unfold frameAt
  dsimp only
  rw [ofBytes_append h, List.drop_append_of_le_length h, List.length_append]
  generalize CMessageHeader.ofBytes buf = hdr
  generalize buf.drop CMessageHeader.nHeaderSize = rest
  split
  · refine ⟨fun r hr => ?_, fun m r hr => ?_⟩ <;> cases hr
    rfl
  · split
    · refine ⟨fun r hr => ?_, fun m r hr => ?_⟩ <;> cases hr
    · next hall =>
      rw [if_neg (show ¬ rest.length + c.length < hdr.nMessageSize by omega),
        List.take_append_of_le_length (by omega), List.drop_append_of_le_length (by omega)]
      split
      · refine ⟨fun r hr => ?_, fun m r hr => ?_⟩ <;> cases hr
        rfl
      · refine ⟨fun r hr => ?_, fun m r hr => ?_⟩ <;> cases hr
        rfl

/-- A round that goes on takes a header at least. -/
theorem frameAt_length :
    (∀ r, frameAt env buf = .skip r → r.length ≤ buf.length - CMessageHeader.nHeaderSize) ∧
      (∀ m r, frameAt env buf = .message m r →
        r.length ≤ buf.length - CMessageHeader.nHeaderSize) ∧
      ∀ r, frameAt env buf = .wait r → r = buf := by
  unfold frameAt
  dsimp only
  have hrest : (buf.drop CMessageHeader.nHeaderSize).length
      = buf.length - CMessageHeader.nHeaderSize := List.length_drop
  refine ⟨fun r hr => ?_, fun m r hr => ?_, fun r hr => ?_⟩ <;> split_ifs at hr <;> cases hr
  · exact hrest.le
  · exact hrest.le
  · rw [List.length_drop, hrest]
    omega
  · rfl

/-- A round that does not wait finds a header's length of bytes behind the message start. -/
theorem frameOf_cases (env : Env) (buf : Bytes) :
    (buf.length - searchFor (getMessageStart env) buf < CMessageHeader.nHeaderSize ∧
      frameOf env buf = .wait (buf.drop (buf.length - CMessageHeader.nHeaderSize))) ∨
    (searchFor (getMessageStart env) buf + CMessageHeader.nHeaderSize ≤ buf.length ∧
      frameOf env buf = frameAt env (buf.drop (searchFor (getMessageStart env) buf))) := by
  have hle := searchFor_le (getMessageStart env) buf
  unfold frameOf
  dsimp only
  split
  · next h => exact .inl ⟨h, rfl⟩
  · next h => exact .inr ⟨by omega, rfl⟩

theorem frameOf_append_of_found
    (h : searchFor (getMessageStart env) buf + CMessageHeader.nHeaderSize ≤ buf.length) :
    frameOf env (buf ++ c)
      = frameAt env (buf.drop (searchFor (getMessageStart env) buf) ++ c) := by
  have hsize : CMessageHeader.nHeaderSize = 24 := rfl
  have hsearch : searchFor (getMessageStart env) (buf ++ c) = searchFor (getMessageStart env) buf := by
    apply searchFor_append (getMessageStart_ne_nil env)
    rw [getMessageStart_length]
    omega
  unfold frameOf
  dsimp only
  rw [hsearch, if_neg (by rw [List.length_append]; omega),
    List.drop_append_of_le_length (by omega)]

end

/-- The rounds of `ProcessMessages` as a framer -/
def messageFramer (env : Env) : Lib.Framer UInt8 Message where
  frame := frameOf env
  frame_nil := rfl
  skip_lt {buf r} h := by
    rcases frameOf_cases env buf with ⟨-, hwait⟩ | ⟨hlong, hat⟩
    · rw [hwait] at h
      cases h
    · rw [hat] at h
      have hlen := frameAt_length.1 r h
      have hsize : CMessageHeader.nHeaderSize = 24 := rfl
      rw [List.length_drop] at hlen
      omega
  message_lt {buf m r} h := by
    rcases frameOf_cases env buf with ⟨-, hwait⟩ | ⟨hlong, hat⟩
    · rw [hwait] at h
      cases h
    · rw [hat] at h
      have hlen := frameAt_length.2.1 m r h
      have hsize : CMessageHeader.nHeaderSize = 24 := rfl
      rw [List.length_drop] at hlen
      omega
  skip_append {buf r} c h := by
    rcases frameOf_cases env buf with ⟨-, hwait⟩ | ⟨hlong, hat⟩
    · rw [hwait] at h
      cases h
    · rw [hat] at h
      rw [frameOf_append_of_found hlong]
      exact (frameAt_append (by rw [List.length_drop]; omega)).1 r h
  message_append {buf m r} c h := by
    rcases frameOf_cases env buf with ⟨-, hwait⟩ | ⟨hlong, hat⟩
    · rw [hwait] at h
      cases h
    · rw [hat] at h
      rw [frameOf_append_of_found hlong]
      exact (frameAt_append (by rw [List.length_drop]; omega)).2 m r h
  wait_append {buf r} c h := by
    have hle := searchFor_le (getMessageStart env) buf
    rcases frameOf_cases env buf with ⟨hshort, hwait⟩ | ⟨hlong, hat⟩
    · -- too short for a header: only bytes before a header's length are dropped
      rw [hwait] at h
      cases h
      exact frameOf_drop (by omega) (by omega)
    · -- the message is incomplete: it begins at the message start
      rw [hat] at h
      rw [frameAt_length.2.2 r h]
      exact frameOf_drop le_rfl (.inr hlong)

end ShinyCoin.Wire

import Electra.Net.MessageFraming

/-!
# Sending and receiving

`PushMessage` writes a header without size and checksum at the end of `vSend`, then the arguments, and
then puts size and checksum in at their offsets.  A message is aborted if an argument throws or if it is
dropped for a test.  Between two messages the socket takes bytes off the front.  As for all streams,
positions do not wrap around.

A completed call appends one frame to the buffer and an aborted one nothing, whatever the socket takes
away in between.  A peer of the same network takes each frame off as it was pushed.
-/

namespace Electra.Net

open Chain Foundations.Codec

namespace CMessageHeader

def MESSAGE_START_SIZE : ℕ := 4
def COMMAND_SIZE : ℕ := 12
def MESSAGE_SIZE_OFFSET : ℕ := MESSAGE_START_SIZE + COMMAND_SIZE
def CHECKSUM_OFFSET : ℕ := MESSAGE_SIZE_OFFSET + 4

/-- `strncpy`: at most the given number of characters, and zeros behind them. -/
def strncpy (pszCommand : List UInt8) (nSize : ℕ) : List UInt8 :=
  let copied := (pszCommand.takeWhile (· ≠ 0)).take nSize
  copied ++ List.replicate (nSize - copied.length) 0

/-- The header of a command, without a checksum. -/
def ofCommand (fTestNet : Bool) (pszCommand : List UInt8) (nMessageSize : ℕ) : CMessageHeader where
  pchMessageStart := Net.pchMessageStart fTestNet
  pchCommand := strncpy pszCommand COMMAND_SIZE
  nMessageSize
  nChecksum := 0

end CMessageHeader

def writeMessageHeader (hdr : CMessageHeader) : List UInt8 :=
  hdr.pchMessageStart ++ (hdr.pchCommand ++ (writeUInt 4 hdr.nMessageSize ++ writeUInt 4 hdr.nChecksum))

/-- The buffer, and where the header and the payload of an open message start. -/
structure SendState where
  vSend : List UInt8
  nHeaderStart : ℤ
  nMessageStart : ℕ

/-- An argument: the bytes that it writes, and whether it throws behind them. -/
structure Argument where
  bytes : List UInt8
  fThrows : Bool

namespace SendState

def resize (nSize : ℕ) (vSend : List UInt8) : List UInt8 :=
  vSend.take nSize ++ List.replicate (nSize - vSend.length) 0

/-- `memcpy` into the buffer. -/
def patch (nPos : ℕ) (bytes vSend : List UInt8) : List UInt8 :=
  vSend.take nPos ++ (bytes ++ vSend.drop (nPos + bytes.length))

/-- No message is open. -/
def close (vSend : List UInt8) : SendState := ⟨vSend, -1, uintMax⟩

def abortMessage (s : SendState) : SendState :=
  if s.nHeaderStart < 0 then s else close (resize s.nHeaderStart.toNat s.vSend)

def beginMessage (fTestNet : Bool) (pszCommand : List UInt8) (s : SendState) : SendState :=
  let s := if s.nHeaderStart ≠ -1 then s.abortMessage else s
  let vSend := s.vSend ++ writeMessageHeader (.ofCommand fTestNet pszCommand 0)
  ⟨vSend, s.vSend.length, vSend.length⟩

/-- Write the arguments up to the first that throws. -/
def writeArguments : List Argument → SendState → Bool × SendState
  | [], s => (true, s)
  | arg :: args, s =>
      let s := { s with vSend := s.vSend ++ arg.bytes }
      if arg.fThrows then (false, s) else writeArguments args s

def endMessage (hash : List UInt8 → Uint256) (fDropMessage : Bool) (s : SendState) : SendState :=
  if fDropMessage then s.abortMessage
  else if s.nHeaderStart < 0 then s
  else
    let nHeaderStart := s.nHeaderStart.toNat
    let nSize := s.vSend.length - s.nMessageStart
    let vSend := patch (nHeaderStart + CMessageHeader.MESSAGE_SIZE_OFFSET) (writeUInt 4 nSize) s.vSend
    let nChecksum := checksumOf hash (vSend.drop s.nMessageStart)
    close (patch (nHeaderStart + CMessageHeader.CHECKSUM_OFFSET) (writeUInt 4 nChecksum) vSend)

end SendState

/-- A call of `PushMessage`. -/
structure PushCall where
  pszCommand : List UInt8
  args : List Argument
  fDropMessage : Bool

def pushMessage (fTestNet : Bool) (hash : List UInt8 → Uint256) (call : PushCall) (s : SendState) :
    SendState :=
  match (s.beginMessage fTestNet call.pszCommand).writeArguments call.args with
  | (true, s) => s.endMessage hash call.fDropMessage
  | (false, s) => s.abortMessage

inductive SendEvent
  | push (call : PushCall)
  | send (nBytes : ℕ)

/-- The bytes on the wire, and the buffer. -/
def sendStep (fTestNet : Bool) (hash : List UInt8 → Uint256) (progress : List UInt8 × SendState) :
    SendEvent → List UInt8 × SendState
  | .push call => (progress.1, pushMessage fTestNet hash call progress.2)
  | .send nBytes =>
      (progress.1 ++ progress.2.vSend.take nBytes,
        { progress.2 with vSend := progress.2.vSend.drop nBytes })

def sendRun (fTestNet : Bool) (hash : List UInt8 → Uint256) (events : List SendEvent) :
    List UInt8 × SendState :=
  events.foldl (sendStep fTestNet hash) ([], .close [])

/-- All bytes that some events send or leave to be sent. -/
def bytesOf (fTestNet : Bool) (hash : List UInt8 → Uint256) (events : List SendEvent) : List UInt8 :=
  let progress := sendRun fTestNet hash events
  progress.1 ++ progress.2.vSend

open Foundations.Framing

variable {fTestNet : Bool} {hash : List UInt8 → Uint256}

/-- The bytes of a message with size and checksum. -/
def frameBytes (fTestNet : Bool) (hash : List UInt8 → Uint256) (frame : Frame) : List UInt8 :=
  writeMessageHeader {
    CMessageHeader.ofCommand fTestNet frame.1 frame.2.length with nChecksum := checksumOf hash frame.2 } ++
    frame.2

/-- A printable command of one to twelve characters, and a payload that is not too long. -/
structure WellFormed (frame : Frame) : Prop where
  pos : 0 < frame.1.length
  le : frame.1.length ≤ CMessageHeader.COMMAND_SIZE
  printable : ∀ c ∈ frame.1, 0x20 ≤ c ∧ c ≤ 0x7e
  payload : frame.2.length ≤ MAX_SIZE

theorem ne_zero_of_printable {c : UInt8} (h : 0x20 ≤ c) : c ≠ 0 := by
  rintro rfl
  exact absurd h (by decide)

variable {pszCommand : List UInt8} {hdr : CMessageHeader}

theorem takeWhile_append_of_printable (hprintable : ∀ c ∈ pszCommand, 0x20 ≤ c ∧ c ≤ 0x7e)
    (more : List UInt8) :
    (pszCommand ++ more).takeWhile (· ≠ 0) = pszCommand ++ more.takeWhile (· ≠ 0) := by
  apply List.takeWhile_append_of_pos
  intro c hc
  exact decide_eq_true (ne_zero_of_printable (hprintable c hc).1)

theorem strncpy_eq (hprintable : ∀ c ∈ pszCommand, 0x20 ≤ c ∧ c ≤ 0x7e) {nSize : ℕ}
    (hle : pszCommand.length ≤ nSize) : CMessageHeader.strncpy pszCommand nSize =
      pszCommand ++ List.replicate (nSize - pszCommand.length) 0 := by
  have hall := takeWhile_append_of_printable hprintable []
  rw [List.append_nil, List.takeWhile_nil, List.append_nil] at hall
  simp only [CMessageHeader.strncpy, hall, List.take_of_length_le hle]

theorem length_strncpy (pszCommand : List UInt8) (nSize : ℕ) :
    (CMessageHeader.strncpy pszCommand nSize).length = nSize := by
  have hle := List.length_take_le nSize (pszCommand.takeWhile (· ≠ 0))
  rw [CMessageHeader.strncpy, List.length_append, List.length_replicate]
  omega

theorem commandValid_append_replicate (hprintable : ∀ c ∈ pszCommand, 0x20 ≤ c ∧ c ≤ 0x7e) (n : ℕ) :
    commandValid (pszCommand ++ List.replicate n 0) = true := by
  induction pszCommand with
  | nil =>
    cases n with
    | zero => rfl
    | succ n => simp [commandValid, List.replicate_succ]
  | cons c cs ih =>
    obtain ⟨⟨hlow, hhigh⟩, hrest⟩ := List.forall_mem_cons.mp hprintable
    have hchar : (decide (c < 0x20) || decide (c > 0x7e)) = false := by
      rw [Bool.or_eq_false_iff, decide_eq_false_iff_not, decide_eq_false_iff_not]
      exact ⟨UInt8.not_lt.mpr hlow, UInt8.not_lt.mpr hhigh⟩
    rw [List.cons_append, commandValid, if_neg (ne_zero_of_printable hlow), hchar]
    exact ih hrest

/-- The command is read back from its padding. -/
theorem getCommand_strncpy (hprintable : ∀ c ∈ pszCommand, 0x20 ≤ c ∧ c ≤ 0x7e)
    (hle : pszCommand.length ≤ 12) (hcommand : hdr.pchCommand = CMessageHeader.strncpy pszCommand 12) :
    hdr.getCommand = pszCommand := by
  have hpadded : hdr.pchCommand.takeWhile (· ≠ 0) = pszCommand := by
    rw [hcommand, strncpy_eq hprintable hle, takeWhile_append_of_printable hprintable]
    cases 12 - pszCommand.length with
    | zero => exact List.append_nil _
    | succ n =>
      rw [List.replicate_succ, List.takeWhile_cons_of_neg (by decide), List.append_nil]
  unfold CMessageHeader.getCommand
  split
  · exact hpadded
  · next hfull =>
    rw [hcommand, strncpy_eq hprintable hle] at hfull ⊢
    cases hpad : 12 - pszCommand.length with
    | zero => exact List.append_nil _
    | succ n =>
      rw [hpad, List.replicate_succ', ← List.append_assoc, List.getLast?_append] at hfull
      exact absurd rfl hfull

theorem length_writeMessageHeader (hstart : hdr.pchMessageStart.length = 4)
    (hcommand : hdr.pchCommand.length = 12) : (writeMessageHeader hdr).length = nHeaderSize := by
  simp only [writeMessageHeader, List.length_append, hstart, hcommand, writeUInt, length_leBytes]
  rfl

/-- A header is read back from the front of the data. -/
theorem headerOf_writeMessageHeader (hstart : hdr.pchMessageStart.length = 4)
    (hcommand : hdr.pchCommand.length = 12) (hsize : hdr.nMessageSize < 256 ^ 4)
    (hchecksum : hdr.nChecksum < 256 ^ 4) (more : List UInt8) :
    headerOf (writeMessageHeader hdr ++ more) = hdr := by
  have hdata : writeMessageHeader hdr ++ more = hdr.pchMessageStart ++ (hdr.pchCommand ++
      (leBytes 4 hdr.nMessageSize ++ (leBytes 4 hdr.nChecksum ++ more))) := by
    simp only [writeMessageHeader, writeUInt, List.append_assoc]
  have h4 : (writeMessageHeader hdr ++ more).drop 4 = hdr.pchCommand ++
      (leBytes 4 hdr.nMessageSize ++ (leBytes 4 hdr.nChecksum ++ more)) := by
    rw [hdata]
    exact List.drop_left' hstart
  have h16 : (writeMessageHeader hdr ++ more).drop 16 =
      leBytes 4 hdr.nMessageSize ++ (leBytes 4 hdr.nChecksum ++ more) := by
    rw [show 16 = 4 + 12 from rfl, ← List.drop_drop, h4]
    exact List.drop_left' hcommand
  have h20 : (writeMessageHeader hdr ++ more).drop 20 = leBytes 4 hdr.nChecksum ++ more := by
    rw [show 20 = 16 + 4 from rfl, ← List.drop_drop, h16]
    exact List.drop_left' (length_leBytes 4 _)
  rw [headerOf, h4, h16, h20, hdata, List.take_left' hstart, List.take_left' hcommand,
    List.take_left' (length_leBytes 4 _), List.take_left' (length_leBytes 4 _), ofLeBytes_leBytes hsize,
    ofLeBytes_leBytes hchecksum]

/-- The peer takes a frame off as it was pushed. -/
theorem turnAction_frameBytes {frame : Frame} (h : WellFormed frame) (more : List UInt8) :
    turnAction fTestNet hash (frameBytes fTestNet hash frame ++ more) =
      .take (frameBytes fTestNet hash frame).length (some frame) := by
  obtain ⟨pszCommand, payload⟩ := frame
  let hdr : CMessageHeader := { CMessageHeader.ofCommand fTestNet pszCommand payload.length with
    nChecksum := checksumOf hash payload }
  have hstart : hdr.pchMessageStart.length = 4 := length_pchMessageStart
  have hcommand : hdr.pchCommand.length = 12 := length_strncpy pszCommand 12
  have hlength : (writeMessageHeader hdr).length = nHeaderSize := length_writeMessageHeader hstart hcommand
  have hsize : hdr.nMessageSize < 256 ^ 4 := h.payload.trans_lt (by decide)
  have hchecksum : hdr.nChecksum < 256 ^ 4 := Nat.mod_lt _ (by decide)
  have hdata : frameBytes fTestNet hash (pszCommand, payload) ++ more =
      writeMessageHeader hdr ++ (payload ++ more) := List.append_assoc _ _ _
  have hheader : headerOf (writeMessageHeader hdr ++ (payload ++ more)) = hdr :=
    headerOf_writeMessageHeader hstart hcommand hsize hchecksum _
  have hinitial : pchMessageStart fTestNet <+: writeMessageHeader hdr ++ (payload ++ more) :=
    (List.prefix_append _ _).trans (List.prefix_append _ _)
  have hsearch : search (pchMessageStart fTestNet) (writeMessageHeader hdr ++ (payload ++ more)) = 0 := by
    apply search_eq_zero hinitial
    apply List.ne_nil_of_length_pos
    rw [List.length_append, hlength]
    exact Nat.add_pos_left (by decide) _
  have hvalid : hdr.isValid fTestNet = true := by
    have hprintable : commandValid hdr.pchCommand = true := by
      rw [show hdr.pchCommand = _ from strncpy_eq h.printable h.le]
      exact commandValid_append_replicate h.printable _
    have hfits : hdr.nMessageSize ≤ MAX_SIZE := h.payload
    rw [CMessageHeader.isValid, hprintable, decide_eq_true hfits, Bool.and_true, Bool.and_true,
      beq_iff_eq]
    rfl
  have hrest : (writeMessageHeader hdr ++ (payload ++ more)).drop nHeaderSize = payload ++ more :=
    List.drop_left' hlength
  have hpayload : (payload ++ more).take hdr.nMessageSize = payload := List.take_left
  have hlong : ¬ hdr.nMessageSize > (payload ++ more).length := by
    rw [List.length_append]
    exact Nat.not_lt.mpr (Nat.le_add_right _ _)
  have hshort : ¬ (writeMessageHeader hdr ++ (payload ++ more)).length -
      search (pchMessageStart fTestNet) (writeMessageHeader hdr ++ (payload ++ more)) < nHeaderSize := by
    rw [hsearch, List.length_append, hlength]
    omega
  have haction : headerAction fTestNet hash (writeMessageHeader hdr ++ (payload ++ more)) =
      .take (nHeaderSize + hdr.nMessageSize) (some (pszCommand, payload)) := by
    rw [headerAction]
    simp only [hheader, hrest, hvalid, hpayload, Bool.not_true, Bool.false_eq_true, if_false, if_neg hlong]
    rw [if_neg (not_not.mpr rfl), getCommand_strncpy h.printable h.le rfl]
  rw [hdata, turnAction_of_header hshort, hsearch, List.drop_zero, haction, shift, Nat.zero_add,
    frameBytes, List.length_append]
  exact congrArg (fun n ↦ Action.take (n + payload.length) _) hlength.symm

theorem patch_append {pre old new post : List UInt8} (hlength : new.length = old.length) :
    SendState.patch pre.length new (pre ++ (old ++ post)) = pre ++ (new ++ post) := by
  rw [SendState.patch, List.take_left, hlength, ← List.drop_drop, List.drop_left, List.drop_left]

namespace PushCall

def payload (call : PushCall) : List UInt8 := call.args.flatMap Argument.bytes

/-- No argument throws, and the message is not dropped for a test. -/
def completes (call : PushCall) : Bool := (call.args.all fun arg ↦ !arg.fThrows) && !call.fDropMessage

/-- What the call is to make the peer dispatch. -/
def frames (call : PushCall) : List Frame :=
  if call.completes then [(call.pszCommand, call.payload)] else []

end PushCall

/-- Arguments only append, all of them unless one throws. -/
theorem writeArguments_eq (args : List Argument) (s : SendState) :
    ∃ bytes, s.writeArguments args =
        (args.all fun arg ↦ !arg.fThrows, { s with vSend := s.vSend ++ bytes }) ∧
      ((args.all fun arg ↦ !arg.fThrows) = true → bytes = args.flatMap Argument.bytes) := by
  induction args generalizing s with
  | nil => exact ⟨[], by rw [List.append_nil]; rfl, fun _ ↦ rfl⟩
  | cons arg args ih =>
    rw [SendState.writeArguments]
    cases hthrows : arg.fThrows with
    | true =>
      refine ⟨arg.bytes, ?_, ?_⟩
      · simp [hthrows]
      · simp [hthrows]
    | false =>
      obtain ⟨bytes, heq, hall⟩ := ih { s with vSend := s.vSend ++ arg.bytes }
      refine ⟨arg.bytes ++ bytes, ?_, ?_⟩
      · simp only [Bool.false_eq_true, if_false, heq, List.all_cons, hthrows, Bool.not_false, Bool.true_and,
          List.append_assoc]
      · intro hrest
        rw [List.all_cons, hthrows, Bool.not_false, Bool.true_and] at hrest
        rw [hall hrest, List.flatMap_cons]

/-- Aborting a message takes the buffer back. -/
theorem abortMessage_append (vSend bytes : List UInt8) (nMessageStart : ℕ) :
    SendState.abortMessage ⟨vSend ++ bytes, vSend.length, nMessageStart⟩ = .close vSend := by
  have hopen : ¬ ((vSend.length : ℤ) < 0) := not_lt.mpr (Int.natCast_nonneg _)
  have hpad : vSend.length - (vSend ++ bytes).length = 0 := by
    rw [List.length_append]
    omega
  simp only [SendState.abortMessage, if_neg hopen, SendState.resize, Int.toNat_natCast, List.take_left, hpad,
    List.replicate_zero, List.append_nil]

/-- Ending a message puts its size and its checksum in. -/
theorem endMessage_append (vSend pszCommand payload : List UInt8) :
    SendState.endMessage hash false
      ⟨vSend ++ (writeMessageHeader (.ofCommand fTestNet pszCommand 0) ++ payload), vSend.length,
        vSend.length + nHeaderSize⟩ =
      .close (vSend ++ frameBytes fTestNet hash (pszCommand, payload)) := by
  have hopen : ¬ ((vSend.length : ℤ) < 0) := not_lt.mpr (Int.natCast_nonneg _)
  let front := vSend ++ (pchMessageStart fTestNet ++ CMessageHeader.strncpy pszCommand 12)
  have hfront : vSend.length + CMessageHeader.MESSAGE_SIZE_OFFSET = front.length := by
    rw [List.length_append, List.length_append, length_pchMessageStart, length_strncpy]
    rfl
  have hbuffer : vSend ++ (writeMessageHeader (.ofCommand fTestNet pszCommand 0) ++ payload) =
      front ++ (leBytes 4 0 ++ (leBytes 4 0 ++ payload)) := by
    simp only [front, writeMessageHeader, CMessageHeader.ofCommand, writeUInt, List.append_assoc,
      CMessageHeader.COMMAND_SIZE]
  have hsize : (front ++ (leBytes 4 0 ++ (leBytes 4 0 ++ payload))).length -
      (vSend.length + nHeaderSize) = payload.length := by
    rw [List.length_append, ← hfront, List.length_append, List.length_append, length_leBytes,
      CMessageHeader.MESSAGE_SIZE_OFFSET, CMessageHeader.MESSAGE_START_SIZE, CMessageHeader.COMMAND_SIZE,
      nHeaderSize]
    omega
  have hpatched : SendState.patch (vSend.length + CMessageHeader.MESSAGE_SIZE_OFFSET)
      (writeUInt 4 payload.length) (front ++ (leBytes 4 0 ++ (leBytes 4 0 ++ payload))) =
        front ++ (leBytes 4 payload.length ++ (leBytes 4 0 ++ payload)) := by
    rw [hfront]
    exact patch_append (by rw [writeUInt, length_leBytes, length_leBytes])
  have hmessage : (front ++ (leBytes 4 payload.length ++ (leBytes 4 0 ++ payload))).drop
      (vSend.length + nHeaderSize) = payload := by
    have hlength : (front ++ leBytes 4 payload.length ++ leBytes 4 0).length =
        vSend.length + nHeaderSize := by
      rw [List.length_append, List.length_append, ← hfront, length_leBytes, length_leBytes]
      rfl
    rw [← List.append_assoc, ← List.append_assoc]
    exact List.drop_left' hlength
  have hsecond : vSend.length + CMessageHeader.CHECKSUM_OFFSET =
      (front ++ leBytes 4 payload.length).length := by
    rw [List.length_append, ← hfront, length_leBytes]
    rfl
  have hclosed : SendState.patch (vSend.length + CMessageHeader.CHECKSUM_OFFSET)
      (writeUInt 4 (checksumOf hash payload))
      (front ++ (leBytes 4 payload.length ++ (leBytes 4 0 ++ payload))) =
        vSend ++ frameBytes fTestNet hash (pszCommand, payload) := by
    rw [hsecond, ← List.append_assoc, patch_append (by rw [writeUInt, length_leBytes, length_leBytes])]
    simp only [front, frameBytes, writeMessageHeader, CMessageHeader.ofCommand, writeUInt,
      List.append_assoc, CMessageHeader.COMMAND_SIZE]
  simp only [SendState.endMessage, Bool.false_eq_true, if_false, if_neg hopen, Int.toNat_natCast, hbuffer,
    hsize, hpatched, hmessage, hclosed]

/-- A call appends its frame, or nothing. -/
theorem pushMessage_close (call : PushCall) (vSend : List UInt8) :
    pushMessage fTestNet hash call (.close vSend) =
      .close (vSend ++ call.frames.flatMap (frameBytes fTestNet hash)) := by
  let header := writeMessageHeader (.ofCommand fTestNet call.pszCommand 0)
  have hheader : header.length = nHeaderSize :=
    length_writeMessageHeader length_pchMessageStart (length_strncpy call.pszCommand 12)
  have hbegin : (SendState.close vSend).beginMessage fTestNet call.pszCommand =
      ⟨vSend ++ header, vSend.length, vSend.length + nHeaderSize⟩ := by
    rw [← hheader, ← List.length_append]
    rfl
  obtain ⟨bytes, hwrite, hall⟩ := writeArguments_eq call.args
    ⟨vSend ++ header, vSend.length, vSend.length + nHeaderSize⟩
  rw [pushMessage, hbegin, hwrite, PushCall.frames, PushCall.completes]
  cases hthrows : call.args.all fun arg ↦ !arg.fThrows with
  | false =>
    simp only [Bool.false_and, Bool.false_eq_true, if_false, List.append_assoc]
    rw [abortMessage_append, List.flatMap_nil, List.append_nil]
  | true =>
    rw [hthrows] at hall
    cases hdrop : call.fDropMessage with
    | true =>
      simp only [Bool.not_true, Bool.and_false, Bool.false_eq_true, if_false, List.append_assoc,
        SendState.endMessage, if_true]
      rw [abortMessage_append, List.flatMap_nil, List.append_nil]
    | false =>
      simp only [Bool.not_false, Bool.and_true, if_true, List.append_assoc, hall rfl]
      rw [List.flatMap_cons, List.flatMap_nil, List.append_nil]
      exact endMessage_append vSend call.pszCommand call.payload

/-- The messages that some events push. -/
def pushedFrames (events : List SendEvent) : List Frame :=
  events.flatMap fun event ↦ match event with
    | .push call => call.frames
    | .send _ => []

/-- What the socket has taken and what is left are the pushed frames. -/
theorem sendRun_eq (events : List SendEvent) :
    ∃ vSend, (sendRun fTestNet hash events).2 = .close vSend ∧
      bytesOf fTestNet hash events = (pushedFrames events).flatMap (frameBytes fTestNet hash) := by
  induction events using List.reverseRecOn with
  | nil => exact ⟨[], rfl, rfl⟩
  | append_singleton events event ih =>
    obtain ⟨vSend, hclose, hbytes⟩ := ih
    have hrun : sendRun fTestNet hash (events ++ [event]) =
        sendStep fTestNet hash (sendRun fTestNet hash events) event := by
      rw [sendRun, List.foldl_append]
      rfl
    have hpushed : pushedFrames (events ++ [event]) = pushedFrames events ++ pushedFrames [event] :=
      List.flatMap_append
    rw [bytesOf, hclose] at hbytes
    rw [hpushed, List.flatMap_append, ← hbytes, bytesOf, hrun]
    cases event with
    | push call =>
      have hstep : sendStep fTestNet hash (sendRun fTestNet hash events) (.push call) =
          ((sendRun fTestNet hash events).1,
            .close (vSend ++ call.frames.flatMap (frameBytes fTestNet hash))) := by
        rw [sendStep, hclose, pushMessage_close]
      rw [hstep]
      refine ⟨_, rfl, ?_⟩
      simp [SendState.close, pushedFrames]
    | send nBytes =>
      rw [sendStep, hclose]
      refine ⟨vSend.drop nBytes, rfl, ?_⟩
      simp [SendState.close, pushedFrames]

/-- However the bytes arrive, a peer of the same network dispatches what was pushed. -/
theorem dispatchedOf_bytesOf (fTestNet : Bool) (hash : List UInt8 → Uint256)
    (sendFull : List Frame → Bool) (hsend : ∀ dispatched, sendFull dispatched = false)
    (events : List SendEvent) (hpushed : ∀ frame ∈ pushedFrames events, WellFormed frame)
    (chunks : List (List UInt8)) (hchunks : chunks.flatten = bytesOf fTestNet hash events) :
    dispatchedOf fTestNet hash sendFull chunks = pushedFrames events := by
  obtain ⟨-, -, hbytes⟩ := @sendRun_eq fTestNet hash events
  calc dispatchedOf fTestNet hash sendFull chunks
      = frames (turnAction fTestNet hash) chunks := dispatchedOf_eq_frames hsend chunks
    _ = (parseAll (turnAction fTestNet hash) chunks.flatten).1 :=
        frames_flatten stable_turnAction parseAll_nil chunks
    _ = (parseAll (turnAction fTestNet hash)
          ((pushedFrames events).flatMap (frameBytes fTestNet hash))).1 := by rw [hchunks, hbytes]
    _ = pushedFrames events := by
        rw [parseAll_flatMap stable_turnAction parseAll_nil fun frame hframe ↦
          turnAction_frameBytes (hpushed frame hframe)]

/-- A `ping` with its nonce, an empty `addr` whose argument throws, and an empty `ping`; the socket
sends in between. -/
theorem dispatchedOf_pushed :
    let ping : List UInt8 := [0x70, 0x69, 0x6e, 0x67]
    let nonce : List UInt8 := [1, 2, 3, 4, 5, 6, 7, 8]
    let events : List SendEvent := [.push ⟨ping, [⟨nonce, false⟩], false⟩, .send 20,
      .push ⟨[0x61, 0x64, 0x64, 0x72], [⟨[1], true⟩], false⟩, .push ⟨ping, [], false⟩]
    dispatchedOf false (fun _ ↦ 0) (fun _ ↦ false) [bytesOf false (fun _ ↦ 0) events] =
        pushedFrames events ∧
      pushedFrames events = [(ping, nonce), (ping, [])] := by
  intro ping nonce events
  have hpushed : pushedFrames events = [(ping, nonce), (ping, [])] := by decide
  refine ⟨?_, hpushed⟩
  apply dispatchedOf_bytesOf false (fun _ ↦ 0) (fun _ ↦ false) (fun _ ↦ rfl)
  · rw [hpushed]
    intro frame hframe
    rcases List.mem_pair.mp hframe with rfl | rfl
    · exact ⟨by decide, by decide, by simp [ping], by decide⟩
    · exact ⟨by decide, by decide, by simp [ping], by decide⟩
  · simp

end Electra.Net

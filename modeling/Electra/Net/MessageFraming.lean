import Electra.Foundations.Framing
import Electra.Net.Serialize

/-!
# Messages of a peer

`ProcessMessages` cuts the received bytes into messages: it searches for the message start, reads a
header, and dispatches the command with its payload once the payload is complete.  What
`ProcessMessage` does with them is left open, except that it may fill the send buffer.

Junk that is dropped holds no message start that later bytes could complete, and an incomplete message
stays as it is.  So the messages of a byte stream are the same however it is split into chunks.
-/

namespace Electra.Net

open Chain Foundations.Codec

section

def pchMessageStart (fTestNet : Bool) : List UInt8 :=
  if fTestNet then [0xe7, 0xe3, 0xe2, 0xe1] else [0xb4, 0xf1, 0xa2, 0xb5]

structure CMessageHeader where
  pchMessageStart : List UInt8
  pchCommand : List UInt8
  nMessageSize : ℕ
  nChecksum : ℕ
deriving DecidableEq

/-- `GetSerializeSize` of a header. -/
def nHeaderSize : ℕ := 24

def readHeaderFields (s : CDataStream) : Except String (CMessageHeader × CDataStream) := do
  let (pchMessageStart, s) ← s.read 4
  let (pchCommand, s) ← s.read 12
  let (nMessageSize, s) ← s.read 4
  let (nChecksum, s) ← s.read 4
  return (⟨pchMessageStart, pchCommand, ofLeBytes nMessageSize, ofLeBytes nChecksum⟩, s)

/-- Printable characters, and nothing but zeros after the first zero. -/
def commandValid : List UInt8 → Bool
  | [] => true
  | c :: cs =>
      if c = 0 then cs.all (· == 0)
      else if c < 0x20 || c > 0x7e then false
      else commandValid cs

namespace CMessageHeader

def getCommand (hdr : CMessageHeader) : List UInt8 :=
  if hdr.pchCommand.getLast? = some 0 then hdr.pchCommand.takeWhile (· ≠ 0) else hdr.pchCommand

def isValid (fTestNet : Bool) (hdr : CMessageHeader) : Bool :=
  hdr.pchMessageStart == Net.pchMessageStart fTestNet && commandValid hdr.pchCommand &&
    decide (hdr.nMessageSize ≤ MAX_SIZE)

end CMessageHeader

/-- A command and its payload. -/
abbrev Frame := List UInt8 × List UInt8

/-- The position of the first occurrence, or the end. -/
def search (pattern : List UInt8) : List UInt8 → ℕ
  | [] => 0
  | b :: data => if pattern <+: b :: data then 0 else search pattern data + 1

/-- One turn of the loop: the stream after it, what was dispatched, and whether the loop ends. -/
structure Turn where
  stream : CDataStream
  frame : Option Frame
  fStop : Bool

variable (fTestNet : Bool) (hash : List UInt8 → Uint256) (sendFull : List Frame → Bool)

/-- The first four bytes of the hash. -/
def checksumOf (payload : List UInt8) : ℕ := (hash payload).toNat % 2 ^ 32

/-- A turn after the header has been read; `vHeaderSave` is put back if the payload is incomplete. -/
def processPayload (hdr : CMessageHeader) (vHeaderSave : List UInt8) (vRecv : CDataStream) : Turn :=
  if !hdr.isValid fTestNet then ⟨vRecv, none, false⟩
  else if hdr.nMessageSize > MAX_SIZE then ⟨vRecv, none, false⟩
  else if hdr.nMessageSize > vRecv.size then ⟨vRecv.insertFront vHeaderSave, none, true⟩
  else
    let vMsg := vRecv.unread.take hdr.nMessageSize
    if checksumOf hash vMsg ≠ hdr.nChecksum then ⟨vRecv, none, false⟩
    else
      match vRecv.ignore hdr.nMessageSize with
      | .error _ => ⟨vRecv, none, true⟩
      | .ok vRecv => ⟨vRecv, some (hdr.getCommand, vMsg), false⟩

def processTurn (vRecv : CDataStream) : Turn :=
  let pstart := search (pchMessageStart fTestNet) vRecv.unread
  if vRecv.size - pstart < nHeaderSize then
    if vRecv.size > nHeaderSize then ⟨vRecv.eraseFront (vRecv.size - nHeaderSize), none, true⟩
    else ⟨vRecv, none, true⟩
  else
    let vRecv := vRecv.eraseFront pstart
    let vHeaderSave := vRecv.unread.take nHeaderSize
    match readHeaderFields vRecv with
    | .error _ => ⟨vRecv, none, true⟩
    | .ok (hdr, vRecv) => processPayload fTestNet hash hdr vHeaderSave vRecv

/-- The loop, with the messages that were dispatched before. -/
def processLoop : ℕ → List Frame → CDataStream → List Frame × CDataStream
  | 0, dispatched, vRecv => (dispatched, vRecv)
  | nTurns + 1, dispatched, vRecv =>
      if sendFull dispatched then (dispatched, vRecv)
      else
        let turn := processTurn fTestNet hash vRecv
        let dispatched := dispatched ++ turn.frame.toList
        if turn.fStop then (dispatched, turn.stream)
        else processLoop nTurns dispatched turn.stream

/-- Every turn that does not end the loop makes the stream shorter, so that there are enough turns. -/
def processMessages (dispatched : List Frame) (vRecv : CDataStream) : List Frame × CDataStream :=
  if vRecv.size = 0 then (dispatched, vRecv)
  else
    let after := processLoop fTestNet hash sendFull (vRecv.size + 1) dispatched vRecv
    (after.1, after.2.compact)

/-- Received bytes go to the end of the stream before it is processed. -/
def receiveChunk (progress : List Frame × CDataStream) (chunk : List UInt8) :
    List Frame × CDataStream :=
  processMessages fTestNet hash sendFull progress.1 (progress.2.write chunk)

/-- What a peer that sends some chunks has dispatched. -/
def dispatchedOf (chunks : List (List UInt8)) : List Frame :=
  (chunks.foldl (receiveChunk fTestNet hash sendFull) ([], CDataStream.empty)).1

end

open Foundations.Framing

section Search

variable {pattern data more : List UInt8}

theorem search_le_length : search pattern data ≤ data.length := by
  induction data with
  | nil => exact le_rfl
  | cons b data ih =>
    rw [search]
    split
    · exact Nat.zero_le _
    · exact Nat.succ_le_succ ih

/-- There is an occurrence at the position that is found. -/
theorem isPrefix_drop_search (h : search pattern data < data.length) :
    pattern <+: data.drop (search pattern data) := by
  induction data with
  | nil => exact absurd h (Nat.not_lt_zero _)
  | cons b data ih =>
    rw [search] at h ⊢
    split
    · next hhere => exact hhere
    · next hnot =>
      rw [if_neg hnot] at h
      exact ih (Nat.lt_of_succ_lt_succ h)

/-- The search passes all positions without an occurrence. -/
theorem search_eq_add_drop {n : ℕ} (hle : n ≤ data.length)
    (h : ∀ i < n, ¬ pattern <+: data.drop i) :
    search pattern data = n + search pattern (data.drop n) := by
  induction n generalizing data with
  | zero => rw [List.drop_zero, Nat.zero_add]
  | succ n ih =>
    cases data with
    | nil => exact absurd hle (Nat.not_succ_le_zero n)
    | cons b data =>
      have hrest := ih (Nat.le_of_succ_le_succ hle) fun i hi ↦ h (i + 1) (Nat.succ_lt_succ hi)
      have hhere : ¬ pattern <+: b :: data := h 0 n.succ_pos
      rw [search, if_neg hhere, hrest, List.drop_succ_cons]
      omega

theorem not_isPrefix_of_lt_search {i : ℕ} (h : i < search pattern data) :
    ¬ pattern <+: data.drop i := by
  induction data generalizing i with
  | nil => exact absurd h (Nat.not_lt_zero _)
  | cons b data ih =>
    rw [search] at h
    split at h
    · exact absurd h (Nat.not_lt_zero _)
    · next hnot =>
      cases i with
      | zero => exact hnot
      | succ i => exact ih (Nat.lt_of_succ_lt_succ h)

/-- More data does not make an occurrence where the pattern would have fitted before. -/
theorem not_isPrefix_append {i : ℕ} (hfits : i + pattern.length ≤ data.length)
    (h : ¬ pattern <+: data.drop i) : ¬ pattern <+: (data ++ more).drop i := by
  rw [List.drop_append_of_le_length (by omega)]
  intro happend
  apply h
  apply List.prefix_of_prefix_length_le happend (List.prefix_append _ _)
  rw [List.length_drop]
  omega

/-- What may be skipped may be skipped whatever follows. -/
theorem search_append_eq {n : ℕ} (hle : n ≤ search pattern data)
    (hfits : n + pattern.length ≤ data.length + 1) :
    search pattern (data ++ more) = n + search pattern (data.drop n ++ more) := by
  have hlength : search pattern data ≤ data.length := search_le_length
  rw [← List.drop_append_of_le_length (by omega)]
  apply search_eq_add_drop
  · rw [List.length_append]
    omega
  · intro i hi
    exact not_isPrefix_append (by omega) (not_isPrefix_of_lt_search (by omega))

theorem search_eq_zero (h : pattern <+: data) (hne : data ≠ []) : search pattern data = 0 := by
  cases data with
  | nil => exact absurd rfl hne
  | cons b data => exact if_pos h

end Search

variable {fTestNet : Bool} {hash : List UInt8 → Uint256}

theorem length_pchMessageStart : (pchMessageStart fTestNet).length = 4 := by
  cases fTestNet <;> rfl

/-- The header in the first bytes of some data. -/
def headerOf (data : List UInt8) : CMessageHeader where
  pchMessageStart := data.take 4
  pchCommand := (data.drop 4).take 12
  nMessageSize := ofLeBytes ((data.drop 16).take 4)
  nChecksum := ofLeBytes ((data.drop 20).take 4)

/-- What a turn does with data that begins with a message start and a header. -/
def headerAction (fTestNet : Bool) (hash : List UInt8 → Uint256) (data : List UInt8) : Action Frame :=
  let hdr := headerOf data
  let rest := data.drop nHeaderSize
  if !hdr.isValid fTestNet then .take nHeaderSize none
  else if hdr.nMessageSize > rest.length then .wait 0
  else if checksumOf hash (rest.take hdr.nMessageSize) ≠ hdr.nChecksum then .take nHeaderSize none
  else .take (nHeaderSize + hdr.nMessageSize) (some (hdr.getCommand, rest.take hdr.nMessageSize))

def shift (n : ℕ) : Action Frame → Action Frame
  | .wait nDropped => .wait (n + nDropped)
  | .take m frame => .take (n + m) frame

/-- What a turn does with the unread bytes. -/
def turnAction (fTestNet : Bool) (hash : List UInt8 → Uint256) (data : List UInt8) : Action Frame :=
  let pstart := search (pchMessageStart fTestNet) data
  if data.length - pstart < nHeaderSize then .wait (data.length - nHeaderSize)
  else shift pstart (headerAction fTestNet hash (data.drop pstart))

theorem readHeaderFields_eq {s : CDataStream} (h : nHeaderSize ≤ s.unread.length) :
    ∃ s', readHeaderFields s = .ok (headerOf s.unread, s') ∧ s'.unread = s.unread.drop nHeaderSize := by
  unfold nHeaderSize at h
  have hread : ∀ (s : CDataStream) (n : ℕ), n ≤ s.unread.length →
      s.read n = .ok (s.unread.take n, s.advance n) := by
    intro s n hn
    rw [CDataStream.read_eq, if_neg (Nat.not_lt.mpr hn)]
  refine ⟨(((s.advance 4).advance 12).advance 4).advance 4, ?_, ?_⟩
  · have h₁ := hread s 4 (by omega)
    have h₂ := hread (s.advance 4) 12 (by rw [CDataStream.unread_advance, List.length_drop]; omega)
    have h₃ := hread ((s.advance 4).advance 12) 4 (by
      rw [CDataStream.unread_advance, CDataStream.unread_advance, List.length_drop, List.length_drop]
      omega)
    have h₄ := hread (((s.advance 4).advance 12).advance 4) 4 (by
      simp only [CDataStream.unread_advance, List.length_drop]
      omega)
    simp only [CDataStream.unread_advance, List.drop_drop] at h₂ h₃ h₄
    simp only [readHeaderFields, h₁, h₂, h₃, h₄, bind, Except.bind, pure, Except.pure, headerOf]
  · simp only [CDataStream.unread_advance, List.drop_drop, nHeaderSize]

/-- A turn does what the action on the unread bytes says. -/
def Performs (turn : Turn) (data : List UInt8) : Action Frame → Prop
  | .wait nDropped =>
      turn.fStop = true ∧ turn.frame = none ∧ turn.stream.unread = data.drop nDropped
  | .take n frame => turn.fStop = false ∧ turn.frame = frame ∧ turn.stream.unread = data.drop n

theorem performs_shift {turn : Turn} {data : List UInt8} {n : ℕ} {action : Action Frame}
    (h : Performs turn (data.drop n) action) : Performs turn data (shift n action) := by
  cases action with
  | wait nDropped =>
    obtain ⟨hstop, hframe, hunread⟩ := h
    rw [List.drop_drop] at hunread
    exact ⟨hstop, hframe, hunread⟩
  | take m frame =>
    obtain ⟨hstop, hframe, hunread⟩ := h
    rw [List.drop_drop] at hunread
    exact ⟨hstop, hframe, hunread⟩

theorem performs_processPayload {data : List UInt8} {s : CDataStream}
    (hs : s.unread = data.drop nHeaderSize) :
    Performs (processPayload fTestNet hash (headerOf data) (data.take nHeaderSize) s) data
      (headerAction fTestNet hash data) := by
  unfold processPayload headerAction
  by_cases hvalid : (headerOf data).isValid fTestNet = true
  · have hsize : ¬ (headerOf data).nMessageSize > MAX_SIZE := by
      rw [CMessageHeader.isValid, Bool.and_eq_true, decide_eq_true_eq] at hvalid
      exact Nat.not_lt.mpr hvalid.2
    simp only [hvalid, Bool.not_true, Bool.false_eq_true, if_false, hsize, CDataStream.size_eq, hs]
    by_cases hlong : (headerOf data).nMessageSize > (data.drop nHeaderSize).length
    · simp only [hlong, if_true]
      refine ⟨rfl, rfl, ?_⟩
      rw [CDataStream.unread_insertFront, hs, List.take_append_drop, List.drop_zero]
    · simp only [hlong, if_false]
      by_cases hsum : checksumOf hash ((data.drop nHeaderSize).take (headerOf data).nMessageSize) ≠
          (headerOf data).nChecksum
      · simp only [hsum, if_true, ne_eq, not_false_eq_true]
        exact ⟨rfl, rfl, hs⟩
      · have hignore := s.ignore_eq_ok (n := (headerOf data).nMessageSize) (by
          rw [hs]
          exact Nat.not_lt.mp hlong)
        simp only [hsum, if_false, hignore]
        refine ⟨rfl, rfl, ?_⟩
        rw [CDataStream.unread_advance, hs, List.drop_drop]
  · simp only [hvalid, Bool.not_false, if_true]
    exact ⟨rfl, rfl, hs⟩

theorem performs_processTurn (s : CDataStream) :
    Performs (processTurn fTestNet hash s) s.unread (turnAction fTestNet hash s.unread) := by
  unfold processTurn turnAction
  simp only [CDataStream.size_eq]
  by_cases hshort : s.unread.length - search (pchMessageStart fTestNet) s.unread < nHeaderSize
  · simp only [hshort, if_true]
    split
    · exact ⟨rfl, rfl, CDataStream.unread_eraseFront⟩
    · next hsmall =>
      refine ⟨rfl, rfl, ?_⟩
      rw [Nat.sub_eq_zero_of_le (Nat.not_lt.mp hsmall), List.drop_zero]
  · simp only [hshort, if_false]
    apply performs_shift
    have hlength : nHeaderSize ≤ (s.eraseFront (search (pchMessageStart fTestNet) s.unread)).unread.length := by
      rw [CDataStream.unread_eraseFront, List.length_drop]
      exact Nat.not_lt.mp hshort
    obtain ⟨s', hread, hs'⟩ := readHeaderFields_eq hlength
    rw [hread]
    rw [CDataStream.unread_eraseFront] at hs' ⊢
    exact performs_processPayload hs'

section MoreBytes

variable {data more : List UInt8} {n : ℕ} {frame : Option Frame}

/-- A message takes at least its header, and its bytes are there. -/
theorem bounds_of_headerAction_eq_take (hlength : nHeaderSize ≤ data.length)
    (h : headerAction fTestNet hash data = .take n frame) : nHeaderSize ≤ n ∧ n ≤ data.length := by
  simp only [headerAction] at h
  split at h
  · rw [Action.take.injEq] at h
    exact ⟨h.1.le, h.1 ▸ hlength⟩
  · split at h
    · exact absurd h (by simp)
    · next hshort =>
      split at h
      · rw [Action.take.injEq] at h
        exact ⟨h.1.le, h.1 ▸ hlength⟩
      · rw [Action.take.injEq] at h
        rw [List.length_drop] at hshort
        omega

theorem eq_zero_of_headerAction_eq_wait (h : headerAction fTestNet hash data = .wait n) : n = 0 := by
  simp only [headerAction] at h
  split at h
  · exact absurd h (by simp)
  · split at h
    · rw [Action.wait.injEq] at h
      exact h.symm
    · split at h <;> exact absurd h (by simp)

theorem headerOf_append (hlength : nHeaderSize ≤ data.length) :
    headerOf (data ++ more) = headerOf data := by
  unfold nHeaderSize at hlength
  simp only [headerOf]
  rw [List.take_append_of_le_length (by omega), List.drop_append_of_le_length (by omega),
    List.drop_append_of_le_length (by omega), List.drop_append_of_le_length (by omega),
    List.take_append_of_le_length (by rw [List.length_drop]; omega),
    List.take_append_of_le_length (by rw [List.length_drop]; omega),
    List.take_append_of_le_length (by rw [List.length_drop]; omega)]

theorem headerAction_append (hlength : nHeaderSize ≤ data.length)
    (h : headerAction fTestNet hash data = .take n frame) :
    headerAction fTestNet hash (data ++ more) = .take n frame := by
  simp only [headerAction] at h ⊢
  rw [headerOf_append hlength, List.drop_append_of_le_length hlength]
  by_cases hvalid : !(headerOf data).isValid fTestNet
  · rw [if_pos hvalid] at h ⊢
    exact h
  · rw [if_neg hvalid] at h ⊢
    by_cases hlong : (headerOf data).nMessageSize > (data.drop nHeaderSize).length
    · rw [if_pos hlong] at h
      exact absurd h (by simp)
    · rw [if_neg hlong] at h
      have hstill : ¬ (headerOf data).nMessageSize > (data.drop nHeaderSize ++ more).length := by
        rw [List.length_append]
        omega
      rw [if_neg hstill, List.take_append_of_le_length (Nat.not_lt.mp hlong)]
      exact h

theorem turnAction_of_short
    (h : data.length - search (pchMessageStart fTestNet) data < nHeaderSize) :
    turnAction fTestNet hash data = .wait (data.length - nHeaderSize) :=
  if_pos h

theorem turnAction_of_header
    (h : ¬ data.length - search (pchMessageStart fTestNet) data < nHeaderSize) :
    turnAction fTestNet hash data = shift (search (pchMessageStart fTestNet) data)
      (headerAction fTestNet hash (data.drop (search (pchMessageStart fTestNet) data))) :=
  if_neg h

/-- What a turn takes begins with a message start and a header. -/
theorem exists_of_turnAction_eq_take (h : turnAction fTestNet hash data = .take n frame) :
    ∃ pstart m, pstart = search (pchMessageStart fTestNet) data ∧ n = pstart + m ∧
      nHeaderSize ≤ (data.drop pstart).length ∧
      headerAction fTestNet hash (data.drop pstart) = .take m frame := by
  by_cases hshort : data.length - search (pchMessageStart fTestNet) data < nHeaderSize
  · rw [turnAction_of_short hshort] at h
    exact absurd h (by simp)
  · rw [turnAction_of_header hshort] at h
    cases haction : headerAction fTestNet hash
        (data.drop (search (pchMessageStart fTestNet) data)) with
    | wait m =>
      rw [haction] at h
      exact absurd h (by simp [shift])
    | take m frame' =>
      rw [haction, shift, Action.take.injEq] at h
      refine ⟨_, m, rfl, h.1.symm, ?_, ?_⟩
      · rw [List.length_drop]
        exact Nat.not_lt.mp hshort
      · rw [haction, h.2]

/-- What a turn drops while it waits was passed by the search, and leaves room for a header. -/
theorem bounds_of_turnAction_eq_wait (h : turnAction fTestNet hash data = .wait n) :
    n ≤ search (pchMessageStart fTestNet) data ∧ (n = 0 ∨ nHeaderSize ≤ data.length - n) := by
  by_cases hshort : data.length - search (pchMessageStart fTestNet) data < nHeaderSize
  · rw [turnAction_of_short hshort, Action.wait.injEq] at h
    omega
  · rw [turnAction_of_header hshort] at h
    cases haction : headerAction fTestNet hash
        (data.drop (search (pchMessageStart fTestNet) data)) with
    | take m frame =>
      rw [haction] at h
      exact absurd h (by simp [shift])
    | wait m =>
      have hm : m = 0 := eq_zero_of_headerAction_eq_wait haction
      rw [haction, shift, Action.wait.injEq, hm, Nat.add_zero] at h
      subst h
      exact ⟨le_rfl, .inr (Nat.not_lt.mp hshort)⟩

/-- A turn on all bytes is a turn on the bytes that were kept. -/
theorem turnAction_append_of_wait (more : List UInt8)
    (h : turnAction fTestNet hash data = .wait n) : turnAction fTestNet hash (data ++ more) =
      shift n (turnAction fTestNet hash (data.drop n ++ more)) := by
  obtain ⟨hpassed, rfl | hroom⟩ := bounds_of_turnAction_eq_wait h
  · rw [List.drop_zero]
    cases turnAction fTestNet hash (data ++ more) <;> simp only [shift, Nat.zero_add]
  · unfold nHeaderSize at hroom
    have hle : n ≤ data.length := hpassed.trans search_le_length
    have hsearch : search (pchMessageStart fTestNet) (data ++ more) =
        n + search (pchMessageStart fTestNet) (data.drop n ++ more) :=
      search_append_eq hpassed (by rw [length_pchMessageStart]; omega)
    have hlength : (data ++ more).length = n + (data.drop n ++ more).length := by
      rw [List.length_append, List.length_append, List.length_drop]
      omega
    by_cases hshort : (data.drop n ++ more).length -
        search (pchMessageStart fTestNet) (data.drop n ++ more) < nHeaderSize
    · rw [turnAction_of_short hshort, turnAction_of_short (by rw [hsearch, hlength]; omega), shift,
        Action.wait.injEq, hlength, List.length_append, List.length_drop, nHeaderSize]
      omega
    · have hdrop : ∀ i, (data ++ more).drop (n + i) = (data.drop n ++ more).drop i := by
        intro i
        rw [← List.drop_drop, List.drop_append_of_le_length hle]
      rw [turnAction_of_header hshort, turnAction_of_header (by rw [hsearch, hlength]; omega), hsearch,
        hdrop]
      cases headerAction fTestNet hash ((data.drop n ++ more).drop _) <;>
        simp only [shift, Nat.add_assoc]

theorem stable_turnAction : Stable (turnAction fTestNet hash) where
  take_pos := by
    intro data n frame h
    obtain ⟨pstart, m, -, rfl, hlength, haction⟩ := exists_of_turnAction_eq_take h
    have hbounds := bounds_of_headerAction_eq_take hlength haction
    rw [List.length_drop] at hbounds
    unfold nHeaderSize at hbounds
    omega
  take_append := by
    intro data n frame more h
    obtain ⟨pstart, m, hpstart, rfl, hlength, haction⟩ := exists_of_turnAction_eq_take h
    rw [List.length_drop, nHeaderSize] at hlength
    have hhere : pchMessageStart fTestNet <+: data.drop pstart := by
      rw [hpstart]
      exact isPrefix_drop_search (by omega)
    have hzero : search (pchMessageStart fTestNet) (data.drop pstart ++ more) = 0 := by
      apply search_eq_zero (hhere.trans (List.prefix_append _ _))
      apply List.ne_nil_of_length_pos
      rw [List.length_append, List.length_drop]
      omega
    have hsearch : search (pchMessageStart fTestNet) (data ++ more) = pstart := by
      rw [search_append_eq hpstart.le (by rw [length_pchMessageStart]; omega), hzero, Nat.add_zero]
    have hshort : ¬ (data ++ more).length - search (pchMessageStart fTestNet) (data ++ more) <
        nHeaderSize := by
      rw [hsearch, List.length_append, nHeaderSize]
      omega
    rw [turnAction_of_header hshort, hsearch, List.drop_append_of_le_length (by omega),
      headerAction_append (by rw [List.length_drop, nHeaderSize]; omega) haction, shift]
  drop_take := by
    intro data nDropped n frame more hwait htake
    rw [turnAction_append_of_wait more hwait, htake, shift]
  drop_wait := by
    intro data nDropped n more hwait hmore
    rw [turnAction_append_of_wait more hwait, hmore, shift]
  drop_le := by
    intro data nDropped h
    exact (bounds_of_turnAction_eq_wait h).1.trans search_le_length

theorem parseAll_nil : parseAll (turnAction fTestNet hash) [] = ([], []) :=
  parseAll_of_wait (turnAction_of_short (by cases fTestNet <;> decide))

end MoreBytes

section Loop

variable {sendFull : List Frame → Bool}

/-- Without a full send buffer the loop cuts the unread bytes into messages. -/
theorem processLoop_eq (hsend : ∀ dispatched, sendFull dispatched = false) (nTurns : ℕ)
    (dispatched : List Frame) (s : CDataStream) :
    (processLoop fTestNet hash sendFull nTurns dispatched s).1 =
        dispatched ++ (parse (turnAction fTestNet hash) nTurns s.unread).1 ∧
      (processLoop fTestNet hash sendFull nTurns dispatched s).2.unread =
        (parse (turnAction fTestNet hash) nTurns s.unread).2 := by
  induction nTurns generalizing dispatched s with
  | zero => exact ⟨(List.append_nil _).symm, rfl⟩
  | succ nTurns ih =>
    have hturn := @performs_processTurn fTestNet hash s
    simp only [processLoop, hsend, Bool.false_eq_true, if_false, parse]
    cases haction : turnAction fTestNet hash s.unread with
    | wait nDropped =>
      rw [haction] at hturn
      obtain ⟨hstop, hframe, hunread⟩ := hturn
      rw [if_pos hstop, hframe]
      exact ⟨rfl, hunread⟩
    | take n frame =>
      rw [haction] at hturn
      obtain ⟨hstop, hframe, hunread⟩ := hturn
      have hrest := ih (dispatched ++ frame.toList) (processTurn fTestNet hash s).stream
      rw [hunread, List.append_assoc] at hrest
      rw [if_neg (by rw [hstop]; exact Bool.false_ne_true), hframe]
      exact hrest

theorem processMessages_eq (hsend : ∀ dispatched, sendFull dispatched = false)
    (dispatched : List Frame) (s : CDataStream) :
    (processMessages fTestNet hash sendFull dispatched s).1 =
        dispatched ++ (parseAll (turnAction fTestNet hash) s.unread).1 ∧
      (processMessages fTestNet hash sendFull dispatched s).2.unread =
        (parseAll (turnAction fTestNet hash) s.unread).2 := by
  unfold processMessages
  by_cases hempty : s.size = 0
  · have hnil : s.unread = [] := List.eq_nil_of_length_eq_zero (s.size_eq ▸ hempty)
    rw [if_pos hempty, hnil, parseAll_nil]
    exact ⟨(List.append_nil _).symm, rfl⟩
  · have hloop := @processLoop_eq fTestNet hash _ hsend (s.size + 1) dispatched s
    rw [if_neg hempty, CDataStream.unread_compact, parseAll, ← CDataStream.size_eq]
    exact hloop

/-- The dispatched messages are the frames of the chunks. -/
theorem dispatchedOf_eq_frames (hsend : ∀ dispatched, sendFull dispatched = false)
    (chunks : List (List UInt8)) : dispatchedOf fTestNet hash sendFull chunks =
      frames (turnAction fTestNet hash) chunks := by
  have hrun : ∀ (progress : List Frame × CDataStream),
      (chunks.foldl (receiveChunk fTestNet hash sendFull) progress).1 =
        (chunks.foldl (receive (turnAction fTestNet hash)) (progress.1, progress.2.unread)).1 := by
    induction chunks with
    | nil => exact fun _ ↦ rfl
    | cons chunk chunks ih =>
      intro progress
      have hchunk := @processMessages_eq fTestNet hash _ hsend progress.1
        (progress.2.write chunk)
      rw [CDataStream.unread_write] at hchunk
      rw [List.foldl_cons, List.foldl_cons, ih]
      simp only [receiveChunk, receive, hchunk]
  exact hrun _

/-- A turn that goes on has consumed at least a header. -/
theorem size_add_le_of_fStop_eq_false {s : CDataStream}
    (h : (processTurn fTestNet hash s).fStop = false) :
    (processTurn fTestNet hash s).stream.size + nHeaderSize ≤ s.size := by
  have hturn := @performs_processTurn fTestNet hash s
  cases haction : turnAction fTestNet hash s.unread with
  | wait nDropped =>
    rw [haction] at hturn
    exact absurd (hturn.1.symm.trans h) (by decide)
  | take n frame =>
    rw [haction] at hturn
    obtain ⟨pstart, m, -, rfl, hlength, hheader⟩ := exists_of_turnAction_eq_take haction
    have hbounds := bounds_of_headerAction_eq_take hlength hheader
    rw [List.length_drop] at hbounds hlength
    rw [CDataStream.size_eq, CDataStream.size_eq, hturn.2.2, List.length_drop]
    omega

/-- The loop ends by itself: more turns change nothing. -/
theorem processLoop_eq_processLoop {nTurns nTurns' : ℕ} {dispatched : List Frame} {s : CDataStream}
    (hlt : s.size < nTurns) (hlt' : s.size < nTurns') :
    processLoop fTestNet hash sendFull nTurns dispatched s =
      processLoop fTestNet hash sendFull nTurns' dispatched s := by
  induction nTurns generalizing dispatched s nTurns' with
  | zero => exact absurd hlt (Nat.not_lt_zero _)
  | succ nTurns ih =>
    cases nTurns' with
    | zero => exact absurd hlt' (Nat.not_lt_zero _)
    | succ nTurns' =>
      rw [processLoop, processLoop]
      cases hstop : (processTurn fTestNet hash s).fStop with
      | true => simp only [hstop, if_true]
      | false =>
        have hconsumed := size_add_le_of_fStop_eq_false hstop
        unfold nHeaderSize at hconsumed
        simp only [hstop, Bool.false_eq_true, if_false]
        rw [@ih nTurns' _ _ (by omega) (by omega)]

/-- Two ways of receiving the same bytes dispatch the same messages, and every turn consumes at least a
header or is the last one. -/
theorem dispatchedOf_eq_of_flatten_eq (fTestNet : Bool) (hash : List UInt8 → Uint256)
    (sendFull : List Frame → Bool) (hsend : ∀ dispatched, sendFull dispatched = false)
    (chunks chunks' : List (List UInt8)) (hflatten : chunks.flatten = chunks'.flatten) :
    dispatchedOf fTestNet hash sendFull chunks = dispatchedOf fTestNet hash sendFull chunks' ∧
      ∀ s, (processTurn fTestNet hash s).fStop = true ∨
        (processTurn fTestNet hash s).stream.size + nHeaderSize ≤ s.size := by
  constructor
  · calc dispatchedOf fTestNet hash sendFull chunks
        = frames (turnAction fTestNet hash) chunks := dispatchedOf_eq_frames hsend chunks
      _ = (parseAll (turnAction fTestNet hash) chunks.flatten).1 :=
          frames_flatten stable_turnAction parseAll_nil chunks
      _ = (parseAll (turnAction fTestNet hash) chunks'.flatten).1 := by rw [hflatten]
      _ = frames (turnAction fTestNet hash) chunks' :=
          (frames_flatten stable_turnAction parseAll_nil chunks').symm
      _ = dispatchedOf fTestNet hash sendFull chunks' := (dispatchedOf_eq_frames hsend chunks').symm
  · intro s
    cases hstop : (processTurn fTestNet hash s).fStop with
    | true => exact .inl rfl
    | false => exact .inr (size_add_le_of_fStop_eq_false hstop)

/-- An empty `ping` after a byte of junk, received at once and cut within its message start. -/
theorem dispatchedOf_ping :
    let junk : List UInt8 := [0x01]
    let ping : List UInt8 := [0x70, 0x69, 0x6e, 0x67]
    let header := pchMessageStart false ++ ping ++ List.replicate 16 0
    let chunks := [junk ++ header.take 3, header.drop 3]
    dispatchedOf false (fun _ ↦ 0) (fun _ ↦ false) chunks = [(ping, [])] ∧
      dispatchedOf false (fun _ ↦ 0) (fun _ ↦ false) chunks =
        dispatchedOf false (fun _ ↦ 0) (fun _ ↦ false) [junk ++ header] := by
  intro junk ping header chunks
  constructor
  · decide
  · exact (dispatchedOf_eq_of_flatten_eq false (fun _ ↦ 0) (fun _ ↦ false) (fun _ ↦ rfl) chunks
      [junk ++ header] rfl).1

end Loop

end Electra.Net

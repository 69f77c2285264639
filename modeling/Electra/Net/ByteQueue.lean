import Electra.Net.Serialize

/-!
# Data streams as byte queues

The operations of `CDataStream` on the vector and the read position, with positions of 32 bits, against the
same operations on a plain vector of bytes.  Positions in calls are counted from `begin()`.
-/

namespace Electra.Net

/-- `vch`, `nReadPos`, and the bit of `state` that a failure sets. -/
structure RawStream where
  vch : List UInt8
  nReadPos : ℕ
  failbit : Bool

inductive StreamOp
  | write (bytes : List UInt8)
  | read (nSize : ℕ)
  | ignore (nSize : ℕ)
  | insertChar (pos : ℕ) (x : UInt8)
  | insertCopies (pos n : ℕ) (x : UInt8)
  | insertRange (pos : ℕ) (bytes : List UInt8)
  | eraseChar (pos : ℕ)
  | eraseRange (first last : ℕ)
  | resize (n : ℕ) (c : UInt8)
  | clear
  | compact

/-- What a call gives: the bytes that it reads, or what it throws. -/
abbrev StreamAnswer := Except String (List UInt8)

def readFailure : String := "CDataStream::read() : end of data"

def ignoreFailure : String := "CDataStream::ignore() : end of data"

/-- `std::vector::insert`. -/
def insertAt (v : List UInt8) (pos : ℕ) (bytes : List UInt8) : List UInt8 := v.take pos ++ bytes ++ v.drop pos

/-- `std::vector::erase`. -/
def eraseBetween (v : List UInt8) (first last : ℕ) : List UInt8 := v.take first ++ v.drop last

/-- `std::vector::resize`. -/
def resizeTo (v : List UInt8) (n : ℕ) (c : UInt8) : List UInt8 := v.take n ++ List.replicate (n - v.length) c

/-- The operations on a vector whose front is taken off by reading. -/
def plainStep (v : List UInt8) : StreamOp → StreamAnswer × List UInt8
  | .write bytes => (.ok [], v ++ bytes)
  | .read nSize => if v.length < nSize then (.error readFailure, v) else (.ok (v.take nSize), v.drop nSize)
  | .ignore nSize => if v.length < nSize then (.error ignoreFailure, v) else (.ok [], v.drop nSize)
  | .insertChar pos x => (.ok [], insertAt v pos [x])
  | .insertCopies pos n x => (.ok [], insertAt v pos (List.replicate n x))
  | .insertRange pos bytes => (.ok [], insertAt v pos bytes)
  | .eraseChar pos => (.ok [], eraseBetween v pos (pos + 1))
  | .eraseRange first last => (.ok [], eraseBetween v first last)
  | .resize n c => (.ok [], resizeTo v n c)
  | .clear => (.ok [], [])
  | .compact => (.ok [], v)

namespace RawStream

/-- The bytes from `begin()` to `end()`. -/
def content (s : RawStream) : List UInt8 := s.vch.drop s.nReadPos

def cleared (s : RawStream) : RawStream := { s with vch := [], nReadPos := 0 }

def read (s : RawStream) (nSize : ℕ) : StreamAnswer × RawStream :=
  let nReadPosNext := (s.nReadPos + nSize) % 2 ^ 32
  if nReadPosNext ≥ s.vch.length then
    if nReadPosNext > s.vch.length then (.error readFailure, { s with failbit := true })
    else (.ok (s.content.take nSize), s.cleared)
  else (.ok (s.content.take nSize), { s with nReadPos := nReadPosNext })

def ignore (s : RawStream) (nSize : ℕ) : StreamAnswer × RawStream :=
  let nReadPosNext := (s.nReadPos + nSize) % 2 ^ 32
  if nReadPosNext ≥ s.vch.length then
    if nReadPosNext > s.vch.length then (.error ignoreFailure, { s with failbit := true })
    else (.ok [], s.cleared)
  else (.ok [], { s with nReadPos := nReadPosNext })

/-- At the front there may be room for the bytes among those that were read. -/
def insertRange (s : RawStream) (pos : ℕ) (bytes : List UInt8) : RawStream :=
  let it := s.nReadPos + pos
  if it = s.nReadPos ∧ bytes.length % 2 ^ 32 ≤ s.nReadPos then
    let nReadPos := s.nReadPos - bytes.length % 2 ^ 32
    { s with vch := s.vch.take nReadPos ++ bytes ++ s.vch.drop (nReadPos + bytes.length), nReadPos }
  else { s with vch := insertAt s.vch it bytes }

def eraseChar (s : RawStream) (pos : ℕ) : RawStream :=
  let it := s.nReadPos + pos
  if it = s.nReadPos then
    let nReadPos := (s.nReadPos + 1) % 2 ^ 32
    if nReadPos ≥ s.vch.length then s.cleared else { s with nReadPos }
  else { s with vch := eraseBetween s.vch it (it + 1) }

def eraseRange (s : RawStream) (first last : ℕ) : RawStream :=
  if s.nReadPos + first = s.nReadPos then
    if s.nReadPos + last = s.vch.length then s.cleared
    else { s with nReadPos := (s.nReadPos + last) % 2 ^ 32 }
  else { s with vch := eraseBetween s.vch (s.nReadPos + first) (s.nReadPos + last) }

def step (s : RawStream) : StreamOp → StreamAnswer × RawStream
  | .write bytes => (.ok [], { s with vch := s.vch ++ bytes })
  | .read nSize => s.read nSize
  | .ignore nSize => s.ignore nSize
  | .insertChar pos x => (.ok [], { s with vch := insertAt s.vch (s.nReadPos + pos) [x] })
  | .insertCopies pos n x =>
      (.ok [], { s with vch := insertAt s.vch (s.nReadPos + pos) (List.replicate n x) })
  | .insertRange pos bytes => (.ok [], s.insertRange pos bytes)
  | .eraseChar pos => (.ok [], s.eraseChar pos)
  | .eraseRange first last => (.ok [], s.eraseRange first last)
  | .resize n c => (.ok [], { s with vch := resizeTo s.vch (n + s.nReadPos) c })
  | .clear => (.ok [], s.cleared)
  | .compact => (.ok [], { s with vch := eraseBetween s.vch 0 s.nReadPos, nReadPos := 0 })

/-- Iterators are inside the stream, and sizes are below 2^31. -/
def Allowed (s : RawStream) : StreamOp → Prop
  | .write bytes => bytes.length < 2 ^ 31
  | .read nSize => nSize < 2 ^ 31
  | .ignore nSize => nSize < 2 ^ 31
  | .insertChar pos _ => pos ≤ s.content.length
  | .insertCopies pos n _ => pos ≤ s.content.length ∧ n < 2 ^ 31
  | .insertRange pos bytes => pos ≤ s.content.length ∧ bytes.length < 2 ^ 31
  | .eraseChar pos => pos < s.content.length
  | .eraseRange first last => first ≤ last ∧ last ≤ s.content.length
  | .resize n _ => n < 2 ^ 31
  | .clear => True
  | .compact => True

def RunAllowed : RawStream → List StreamOp → Prop
  | _, [] => True
  | s, op :: ops => s.vch.length < 2 ^ 31 ∧ s.Allowed op ∧ RunAllowed (s.step op).2 ops

/-- The answers of a run, and the state that it ends in. -/
def run (s : RawStream) : List StreamOp → List StreamAnswer × RawStream
  | [] => ([], s)
  | op :: ops => ((s.step op).1 :: (run (s.step op).2 ops).1, (run (s.step op).2 ops).2)

end RawStream

def plainRun (v : List UInt8) : List StreamOp → List StreamAnswer × List UInt8
  | [] => ([], v)
  | op :: ops => ((plainStep v op).1 :: (plainRun (plainStep v op).2 ops).1, (plainRun (plainStep v op).2 ops).2)

section Behind

variable {v : List UInt8} {k pos first last : ℕ}

theorem drop_insertAt (bytes : List UInt8) (h : k + pos ≤ v.length) :
    (insertAt v (k + pos) bytes).drop k = insertAt (v.drop k) pos bytes := by
  have htake : k ≤ (v.take (k + pos)).length := by
    rw [List.length_take]
    omega
  unfold insertAt
  rw [List.append_assoc, List.drop_append_of_le_length htake, List.drop_take, Nat.add_sub_cancel_left,
    List.drop_drop, List.append_assoc]

theorem drop_eraseBetween (h : k + first ≤ v.length) :
    (eraseBetween v (k + first) (k + last)).drop k = eraseBetween (v.drop k) first last := by
  have htake : k ≤ (v.take (k + first)).length := by
    rw [List.length_take]
    omega
  unfold eraseBetween
  rw [List.drop_append_of_le_length htake, List.drop_take, Nat.add_sub_cancel_left, List.drop_drop]

theorem drop_resizeTo (n : ℕ) (c : UInt8) (h : k ≤ v.length) :
    (resizeTo v (n + k) c).drop k = resizeTo (v.drop k) n c := by
  have htake : k ≤ (v.take (n + k)).length := by
    rw [List.length_take]
    omega
  have hcount : n + k - v.length = n - (v.drop k).length := by
    rw [List.length_drop]
    omega
  unfold resizeTo
  rw [List.drop_append_of_le_length htake, List.drop_take, Nat.add_sub_cancel, hcount]

theorem length_insertAt (bytes : List UInt8) (h : pos ≤ v.length) :
    (insertAt v pos bytes).length = v.length + bytes.length := by
  unfold insertAt
  rw [List.length_append, List.length_append, List.length_take, List.length_drop]
  omega

end Behind

namespace RawStream

variable {s : RawStream} {v : List UInt8}

/-- The stream is a queue of the bytes. -/
structure IsQueue (s : RawStream) (v : List UInt8) : Prop where
  content_eq : s.content = v
  le_length : s.nReadPos ≤ s.vch.length

theorem IsQueue.length (h : IsQueue s v) : s.nReadPos + v.length = s.vch.length := by
  rw [← h.content_eq, content, List.length_drop]
  exact Nat.add_sub_cancel' h.le_length

theorem isQueue_cleared : IsQueue s.cleared [] := ⟨rfl, le_rfl⟩

/-- Moving the read position takes bytes off the front. -/
theorem IsQueue.advance (h : IsQueue s v) {n : ℕ} (hn : n ≤ v.length) :
    IsQueue { s with nReadPos := s.nReadPos + n } (v.drop n) := by
  have hlength := h.length
  refine ⟨?_, ?_⟩
  · rw [← h.content_eq, content, content, List.drop_drop]
  · change s.nReadPos + n ≤ s.vch.length
    omega

/-- Reading up to the end clears the buffer. -/
theorem isQueue_drop_of_full (h : v.length ≤ n) : IsQueue s.cleared (v.drop n) := by
  rw [List.drop_eq_nil_of_le h]
  exact isQueue_cleared

theorem read_simulates (h : IsQueue s v) {nSize : ℕ} (hsize : s.vch.length < 2 ^ 31) (hn : nSize < 2 ^ 31) :
    (s.read nSize).1 = (plainStep v (.read nSize)).1 ∧
      IsQueue (s.read nSize).2 (plainStep v (.read nSize)).2 := by
  have hlength := h.length
  have hnext : (s.nReadPos + nSize) % 2 ^ 32 = s.nReadPos + nSize := Nat.mod_eq_of_lt (by omega)
  unfold read plainStep
  dsimp only
  rw [hnext, h.content_eq]
  split
  · split
    · next hbeyond =>
      rw [if_pos (by omega)]
      exact ⟨rfl, h.content_eq, h.le_length⟩
    · rw [if_neg (by omega)]
      exact ⟨rfl, isQueue_drop_of_full (by omega)⟩
  · rw [if_neg (by omega)]
    exact ⟨rfl, h.advance (by omega)⟩

theorem ignore_simulates (h : IsQueue s v) {nSize : ℕ} (hsize : s.vch.length < 2 ^ 31) (hn : nSize < 2 ^ 31) :
    (s.ignore nSize).1 = (plainStep v (.ignore nSize)).1 ∧
      IsQueue (s.ignore nSize).2 (plainStep v (.ignore nSize)).2 := by
  have hlength := h.length
  have hnext : (s.nReadPos + nSize) % 2 ^ 32 = s.nReadPos + nSize := Nat.mod_eq_of_lt (by omega)
  unfold ignore plainStep
  dsimp only
  rw [hnext]
  split
  · split
    · next hbeyond =>
      rw [if_pos (by omega)]
      exact ⟨rfl, h.content_eq, h.le_length⟩
    · rw [if_neg (by omega)]
      exact ⟨rfl, isQueue_drop_of_full (by omega)⟩
  · rw [if_neg (by omega)]
    exact ⟨rfl, h.advance (by omega)⟩

theorem isQueue_insertAt (h : IsQueue s v) {pos : ℕ} (hpos : pos ≤ v.length) (bytes : List UInt8) :
    IsQueue { s with vch := insertAt s.vch (s.nReadPos + pos) bytes } (insertAt v pos bytes) := by
  have hlength := h.length
  refine ⟨?_, ?_⟩
  · change (insertAt s.vch (s.nReadPos + pos) bytes).drop s.nReadPos = _
    rw [drop_insertAt _ (by omega)]
    exact congrArg (insertAt · pos bytes) h.content_eq
  · change s.nReadPos ≤ (insertAt s.vch (s.nReadPos + pos) bytes).length
    rw [length_insertAt _ (by omega)]
    omega

theorem isQueue_insertRange (h : IsQueue s v) {pos : ℕ} (hpos : pos ≤ v.length) {bytes : List UInt8}
    (hbytes : bytes.length < 2 ^ 31) : IsQueue (s.insertRange pos bytes) (insertAt v pos bytes) := by
  have hlength := h.length
  unfold insertRange
  dsimp only
  split
  · next hfront =>
    rw [Nat.mod_eq_of_lt (by omega)] at hfront ⊢
    obtain rfl : pos = 0 := by omega
    have htake : (s.vch.take (s.nReadPos - bytes.length)).length = s.nReadPos - bytes.length := by
      rw [List.length_take]
      omega
    rw [Nat.sub_add_cancel hfront.2]
    refine ⟨?_, ?_⟩
    · rw [content, List.append_assoc, List.drop_left' htake, insertAt, ← h.content_eq]
      rfl
    · change s.nReadPos - bytes.length ≤ _
      rw [List.length_append, List.length_append, htake]
      omega
  · exact isQueue_insertAt h hpos bytes

theorem isQueue_eraseBetween (h : IsQueue s v) {first last : ℕ} (hfirst : first ≤ v.length) :
    IsQueue { s with vch := eraseBetween s.vch (s.nReadPos + first) (s.nReadPos + last) }
      (eraseBetween v first last) := by
  have hlength := h.length
  refine ⟨?_, ?_⟩
  · change (eraseBetween s.vch (s.nReadPos + first) (s.nReadPos + last)).drop s.nReadPos = _
    rw [drop_eraseBetween (by omega)]
    exact congrArg (eraseBetween · first last) h.content_eq
  · change s.nReadPos ≤ (eraseBetween s.vch _ _).length
    rw [eraseBetween, List.length_append, List.length_take]
    omega

theorem isQueue_eraseChar (h : IsQueue s v) {pos : ℕ} (hpos : pos < v.length) (hsize : s.vch.length < 2 ^ 31) :
    IsQueue (s.eraseChar pos) (eraseBetween v pos (pos + 1)) := by
  have hlength := h.length
  unfold eraseChar
  dsimp only
  split
  · next hfront =>
    obtain rfl : pos = 0 := by omega
    rw [Nat.mod_eq_of_lt (by omega)]
    split
    · exact isQueue_drop_of_full (by omega)
    · exact h.advance (by omega)
  · rw [Nat.add_assoc]
    exact isQueue_eraseBetween h hpos.le

theorem isQueue_eraseRange (h : IsQueue s v) {first last : ℕ} (hfirst : first ≤ last) (hlast : last ≤ v.length)
    (hsize : s.vch.length < 2 ^ 31) : IsQueue (s.eraseRange first last) (eraseBetween v first last) := by
  have hlength := h.length
  unfold eraseRange
  split
  · next hfront =>
    obtain rfl : first = 0 := by omega
    split
    · exact isQueue_drop_of_full (by omega)
    · rw [Nat.mod_eq_of_lt (by omega)]
      exact h.advance hlast
  · exact isQueue_eraseBetween h (hfirst.trans hlast)

/-- Every operation does what it does on the plain vector. -/
theorem step_simulates (h : IsQueue s v) (op : StreamOp) (hsize : s.vch.length < 2 ^ 31) (hop : s.Allowed op) :
    (s.step op).1 = (plainStep v op).1 ∧ IsQueue (s.step op).2 (plainStep v op).2 := by
  have hlength := h.length
  have hcontent : s.content.length = v.length := congrArg List.length h.content_eq
  cases op with
  | write bytes =>
    refine ⟨rfl, ?_, ?_⟩
    · change (s.vch ++ bytes).drop s.nReadPos = v ++ bytes
      rw [List.drop_append_of_le_length h.le_length, ← h.content_eq]
      rfl
    · change s.nReadPos ≤ (s.vch ++ bytes).length
      rw [List.length_append]
      omega
  | read nSize => exact read_simulates h hsize hop
  | ignore nSize => exact ignore_simulates h hsize hop
  | insertChar pos x => exact ⟨rfl, isQueue_insertAt h (hcontent ▸ hop) [x]⟩
  | insertCopies pos n x => exact ⟨rfl, isQueue_insertAt h (hcontent ▸ hop.1) (List.replicate n x)⟩
  | insertRange pos bytes => exact ⟨rfl, isQueue_insertRange h (hcontent ▸ hop.1) hop.2⟩
  | eraseChar pos => exact ⟨rfl, isQueue_eraseChar h (hcontent ▸ hop) hsize⟩
  | eraseRange first last => exact ⟨rfl, isQueue_eraseRange h hop.1 (hcontent ▸ hop.2) hsize⟩
  | resize n c =>
    refine ⟨rfl, ?_, ?_⟩
    · change (resizeTo s.vch (n + s.nReadPos) c).drop s.nReadPos = resizeTo v n c
      rw [drop_resizeTo _ _ h.le_length, ← h.content_eq]
      rfl
    · change s.nReadPos ≤ (resizeTo s.vch (n + s.nReadPos) c).length
      rw [resizeTo, List.length_append, List.length_take, List.length_replicate]
      omega
  | clear => exact ⟨rfl, isQueue_cleared⟩
  | compact =>
    refine ⟨rfl, ?_, Nat.zero_le _⟩
    change eraseBetween s.vch 0 s.nReadPos = v
    rw [← h.content_eq]
    rfl

/-- A stream is a byte queue in every run: its answers and its content are those of the plain vector, and the
read position stays in the vector. -/
theorem run_simulates (ops : List StreamOp) (s : RawStream) (hle : s.nReadPos ≤ s.vch.length)
    (hallowed : RunAllowed s ops) :
    (s.run ops).1 = (plainRun s.content ops).1 ∧ (s.run ops).2.content = (plainRun s.content ops).2 ∧
      (s.run ops).2.nReadPos ≤ (s.run ops).2.vch.length := by
  induction ops generalizing s with
  | nil => exact ⟨rfl, rfl, hle⟩
  | cons op ops ih =>
    obtain ⟨hsize, hop, hrest⟩ := hallowed
    obtain ⟨hanswer, hqueue⟩ := step_simulates ⟨rfl, hle⟩ op hsize hop
    obtain ⟨hanswers, hcontent, hend⟩ := ih (s.step op).2 hqueue.le_length hrest
    rw [hqueue.content_eq] at hanswers hcontent
    refine ⟨?_, hcontent, hend⟩
    change (s.step op).1 :: _ = (plainStep s.content op).1 :: _
    rw [hanswer, hanswers]

/-- Bytes that were read are overwritten, and the storage is cleared between two writes. -/
theorem run_simulates_front :
    let s : RawStream := ⟨[1, 2, 3], 0, false⟩
    let ops : List StreamOp :=
      [.read 2, .insertRange 0 [9], .eraseChar 1, .write [7], .compact, .ignore 5, .read 2, .write [4]]
    (s.run ops).1 = (plainRun s.content ops).1 ∧ (s.run ops).2.content = (plainRun s.content ops).2 ∧
      (s.run ops).2.nReadPos ≤ (s.run ops).2.vch.length :=
  run_simulates _ _ (by decide) (by
    simp only [RunAllowed, Allowed]
    decide)

/-- No read has failed yet. -/
def ofStream (s : CDataStream) : RawStream := ⟨s.vch, s.nReadPos, false⟩

section OfStream

variable {s : CDataStream} {bytes : List UInt8} {n : ℕ}

theorem content_ofStream : (ofStream s).content = s.unread := rfl

theorem step_write_ofStream : ((ofStream s).step (.write bytes)).2 = ofStream (s.write bytes) := rfl

theorem step_compact_ofStream : ((ofStream s).step .compact).2 = ofStream s.compact := rfl

theorem read_ofStream (hsize : s.vch.length < 2 ^ 31) (hn : n < 2 ^ 31) :
    (ofStream s).read n = match s.read n with
      | .ok (data, stream) => (.ok data, ofStream stream)
      | .error text => (.error text, { ofStream s with failbit := true }) := by
  have hle := s.le_length
  have hnext : (s.nReadPos + n) % 2 ^ 32 = s.nReadPos + n := Nat.mod_eq_of_lt (by omega)
  unfold read CDataStream.read CDataStream.advance ofStream
  dsimp only
  rw [hnext]
  by_cases hbeyond : s.nReadPos + n > s.vch.length
  · rw [if_pos hbeyond.le, if_pos hbeyond, if_pos hbeyond]
    rfl
  rw [if_neg hbeyond, if_neg hbeyond]
  by_cases hinside : s.nReadPos + n < s.vch.length
  · rw [if_neg hinside.not_ge, dif_pos hinside]
    rfl
  · rw [if_pos (Nat.le_of_not_lt hinside), dif_neg hinside]
    rfl

theorem insertRange_ofStream (hbytes : bytes.length < 2 ^ 31) :
    (ofStream s).insertRange 0 bytes = ofStream (s.insertFront bytes) := by
  unfold insertRange CDataStream.insertFront ofStream
  dsimp only
  rw [Nat.mod_eq_of_lt (by omega)]
  by_cases hroom : bytes.length ≤ s.nReadPos
  · rw [if_pos ⟨rfl, hroom⟩, if_pos hroom, Nat.sub_add_cancel hroom, List.append_assoc]
  · rw [if_neg fun h ↦ hroom h.2, if_neg hroom, insertAt, Nat.add_zero, List.append_assoc]

theorem eraseRange_ofStream (hsize : s.vch.length < 2 ^ 31) (hn : n ≤ s.unread.length) :
    (ofStream s).eraseRange 0 n = ofStream (s.eraseFront n) := by
  have hle := s.le_length
  rw [CDataStream.unread, List.length_drop] at hn
  unfold eraseRange CDataStream.eraseFront ofStream
  dsimp only
  rw [if_pos (Nat.add_zero _), Nat.mod_eq_of_lt (by omega)]
  by_cases hinside : s.nReadPos + n < s.vch.length
  · rw [if_neg hinside.ne, dif_pos hinside]
  · rw [if_pos (by omega), dif_neg hinside]
    rfl

end OfStream

end RawStream

end Electra.Net

import Electra.Chain.Block
import Electra.Foundations.Codec

/-!
# Serialization

`CDataStream` is a buffer with a read position.  Reading up to the end clears the buffer, and what is
inserted at the front goes into the part that was read already if it fits there.  Every operation is
one on the unread bytes alone (`unread`).  Buffers are far shorter than 2^32 bytes, so that positions
do not wrap around.

How transactions and blocks are written, read and measured.  Writer, reader and size counter are three
separate functions.  The counter has 32 bits; a reader logs the compact sizes it reads.
-/

namespace Electra.Net

structure CDataStream where
  vch : List UInt8
  nReadPos : ℕ
  le_length : nReadPos ≤ vch.length

namespace CDataStream

def empty : CDataStream := ⟨[], 0, le_rfl⟩

def ofBytes (bytes : List UInt8) : CDataStream := ⟨bytes, 0, Nat.zero_le _⟩

def size (s : CDataStream) : ℕ := s.vch.length - s.nReadPos

/-- The bytes between `begin()` and `end()`. -/
def unread (s : CDataStream) : List UInt8 := s.vch.drop s.nReadPos

def write (s : CDataStream) (bytes : List UInt8) : CDataStream where
  vch := s.vch ++ bytes
  nReadPos := s.nReadPos
  le_length := by
    rw [List.length_append]
    exact s.le_length.trans (Nat.le_add_right _ _)

/-- Move the read position, which clears the buffer when it reaches the end. -/
def advance (s : CDataStream) (nSize : ℕ) : CDataStream :=
  if h : s.nReadPos + nSize < s.vch.length then ⟨s.vch, s.nReadPos + nSize, h.le⟩ else empty

def read (s : CDataStream) (nSize : ℕ) : Except String (List UInt8 × CDataStream) :=
  if s.nReadPos + nSize > s.vch.length then .error "CDataStream::read() : end of data"
  else .ok ((s.vch.drop s.nReadPos).take nSize, s.advance nSize)

def ignore (s : CDataStream) (nSize : ℕ) : Except String CDataStream :=
  if s.nReadPos + nSize > s.vch.length then .error "CDataStream::ignore() : end of data"
  else .ok (s.advance nSize)

/-- `erase` from the front. -/
def eraseFront (s : CDataStream) (n : ℕ) : CDataStream :=
  if h : s.nReadPos + n < s.vch.length then ⟨s.vch, s.nReadPos + n, h.le⟩ else empty

/-- `insert` at the front. -/
def insertFront (s : CDataStream) (bytes : List UInt8) : CDataStream :=
  if bytes.length ≤ s.nReadPos then
    { vch := s.vch.take (s.nReadPos - bytes.length) ++ (bytes ++ s.vch.drop s.nReadPos)
      nReadPos := s.nReadPos - bytes.length
      le_length := by
        have hle := s.le_length
        rw [List.length_append, List.length_take]
        omega }
  else
    { vch := s.vch.take s.nReadPos ++ (bytes ++ s.vch.drop s.nReadPos)
      nReadPos := s.nReadPos
      le_length := by
        have hle := s.le_length
        rw [List.length_append, List.length_take]
        omega }

def compact (s : CDataStream) : CDataStream := ofBytes (s.vch.drop s.nReadPos)

variable {s : CDataStream} {bytes : List UInt8} {n : ℕ}

theorem size_eq : s.size = s.unread.length := List.length_drop.symm

@[simp]
theorem unread_ofBytes : (ofBytes bytes).unread = bytes := rfl

@[simp]
theorem unread_write : (s.write bytes).unread = s.unread ++ bytes :=
  List.drop_append_of_le_length s.le_length

@[simp]
theorem unread_advance : (s.advance n).unread = s.unread.drop n := by
  unfold advance unread
  split
  · rw [List.drop_drop]
  · next h =>
    rw [List.drop_drop, List.drop_eq_nil_of_le (Nat.le_of_not_lt h)]
    rfl

@[simp]
theorem unread_eraseFront : (s.eraseFront n).unread = s.unread.drop n := unread_advance

@[simp]
theorem unread_insertFront : (s.insertFront bytes).unread = bytes ++ s.unread := by
  have hle := s.le_length
  unfold insertFront unread
  split
  · have htake : (s.vch.take (s.nReadPos - bytes.length)).length = s.nReadPos - bytes.length := by
      rw [List.length_take]
      omega
    exact List.drop_left' htake
  · have htake : (s.vch.take s.nReadPos).length = s.nReadPos := by
      rw [List.length_take]
      omega
    exact List.drop_left' htake

@[simp]
theorem unread_compact : s.compact.unread = s.unread := rfl

theorem read_eq : s.read n =
    if s.unread.length < n then .error "CDataStream::read() : end of data"
    else .ok (s.unread.take n, s.advance n) := by
  have hle := s.le_length
  have hiff : s.nReadPos + n > s.vch.length ↔ s.unread.length < n := by
    rw [unread, List.length_drop]
    omega
  simp only [read, hiff]
  rfl

theorem ignore_eq_ok (hn : n ≤ s.unread.length) : s.ignore n = .ok (s.advance n) := by
  have hle := s.le_length
  rw [unread, List.length_drop] at hn
  exact if_neg (by omega)

end CDataStream

open Chain Foundations.Codec

def MAX_SIZE : ℕ := 0x02000000

def SER_NETWORK : ℕ := 1
def SER_DISK : ℕ := 2
def SER_GETHASH : ℕ := 4
def SER_BLOCKHEADERONLY : ℕ := 2 ^ 17

/-- Sizes of the elements of vectors in memory, which the compiler chooses; no element is larger than
what is reserved at a time. -/
structure ElementSizes where
  cTxIn : ℕ
  cTxOut : ℕ
  cTransaction : ℕ
  cTxIn_pos : 0 < 5000000 / cTxIn
  cTxOut_pos : 0 < 5000000 / cTxOut
  cTransaction_pos : 0 < 5000000 / cTransaction

/-- A compact size as it was read: its number of bytes and its value. -/
structure CompactSize where
  nBytes : ℕ
  nSize : ℕ
deriving DecidableEq

def CompactSize.IsShortest (c : CompactSize) : Prop := c.nBytes = getSizeOfCompactSize c.nSize

structure ReadState where
  stream : CDataStream
  sizes : List CompactSize

abbrev Reader (α : Type) := StateT ReadState (Except String) α

def ReadState.unread (st : ReadState) : List UInt8 := st.stream.unread

def readData (nSize : ℕ) : Reader (List UInt8) := fun st ↦
  match st.stream.read nSize with
  | .error text => .error text
  | .ok (data, stream) => .ok (data, { st with stream := stream })

def logSize (c : CompactSize) : Reader Unit := fun st ↦
  .ok ((), { st with sizes := st.sizes ++ [c] })

def failure {α : Type} (text : String) : Reader α := fun _ ↦ .error text

def writeUInt (w n : ℕ) : List UInt8 := leBytes w n

def readUInt (w : ℕ) : Reader ℕ := do
  let data ← readData w
  return ofLeBytes data

/-- Two's complement. -/
def writeInt (w : ℕ) (n : ℤ) : List UInt8 := leBytes w (n % 256 ^ w).toNat

def readInt (w : ℕ) : Reader ℤ := do
  let n ← readUInt w
  return if 2 * n < 256 ^ w then (n : ℤ) else (n : ℤ) - 256 ^ w

def writeUint256 (hash : Uint256) : List UInt8 := leBytes 32 hash.toNat

def readUint256 : Reader Uint256 := do
  let n ← readUInt 32
  return BitVec.ofNat 256 n

def writeCompactSize (nSize : ℕ) : List UInt8 :=
  if nSize < 253 then writeUInt 1 nSize
  else if nSize ≤ 0xffff then writeUInt 1 253 ++ writeUInt 2 nSize
  else if nSize ≤ 0xffffffff then writeUInt 1 254 ++ writeUInt 4 nSize
  else writeUInt 1 255 ++ writeUInt 8 nSize

/-- The part after the first byte, with the number of bytes in all. -/
def readSizeAfter (chSize : ℕ) : Reader CompactSize :=
  if chSize < 253 then pure ⟨1, chSize⟩
  else if chSize = 253 then do
    let xSize ← readUInt 2
    return ⟨3, xSize⟩
  else if chSize = 254 then do
    let xSize ← readUInt 4
    return ⟨5, xSize⟩
  else do
    let xSize ← readUInt 8
    return ⟨9, xSize⟩

def readCompactSize : Reader ℕ := do
  let chSize ← readUInt 1
  let nSizeRet ← readSizeAfter chSize
  logSize nSizeRet
  if nSizeRet.nSize > MAX_SIZE then failure "ReadCompactSize() : size too large"
  else return nSizeRet.nSize

def writeVector {α : Type} (write : α → List UInt8) (v : List α) : List UInt8 :=
  writeCompactSize v.length ++ v.flatMap write

/-- Vectors of bytes and scripts. -/
def writeBytes (v : List UInt8) : List UInt8 := writeCompactSize v.length ++ v

/-- The loop ends after at most one turn for each element. -/
def readVector {α : Type} (read : Reader α) (nElement : ℕ) : Reader (List α) := do
  let nSize ← readCompactSize
  readBatches (readItems read) (5000000 / nElement) nSize nSize

def readBytes : Reader (List UInt8) := do
  let nSize ← readCompactSize
  readBatches readData (1 + 4999999) nSize nSize

def writeOutPoint (prevout : COutPoint) : List UInt8 :=
  writeUint256 prevout.hash ++ writeUInt 4 prevout.n

def readOutPoint : Reader COutPoint := do
  let hash ← readUint256
  let n ← readUInt 4
  return ⟨hash, n⟩

def writeTxIn (txin : CTxIn) : List UInt8 :=
  writeOutPoint txin.prevout ++ (writeBytes txin.scriptSig ++ writeUInt 4 txin.nSequence)

def readTxIn : Reader CTxIn := do
  let prevout ← readOutPoint
  let scriptSig ← readBytes
  let nSequence ← readUInt 4
  return ⟨prevout, scriptSig, nSequence⟩

def writeTxOut (txout : CTxOut) : List UInt8 :=
  writeInt 8 txout.nValue ++ writeBytes txout.scriptPubKey

def readTxOut : Reader CTxOut := do
  let nValue ← readInt 8
  let scriptPubKey ← readBytes
  return ⟨nValue, scriptPubKey⟩

variable (sizes : ElementSizes)

def writeTx (tx : CTransaction) : List UInt8 :=
  writeInt 4 tx.nVersion ++ (writeUInt 4 tx.nTime ++ (writeVector writeTxIn tx.vin ++
    (writeVector writeTxOut tx.vout ++ writeUInt 4 tx.nLockTime)))

def readTx : Reader CTransaction := do
  let nVersion ← readInt 4
  let nTime ← readUInt 4
  let vin ← readVector readTxIn sizes.cTxIn
  let vout ← readVector readTxOut sizes.cTxOut
  let nLockTime ← readUInt 4
  return ⟨nVersion, nTime, vin, vout, nLockTime⟩

def writeHeader (header : CBlockHeader) : List UInt8 :=
  writeInt 4 header.nVersion ++ (writeUint256 header.hashPrevBlock ++
    (writeUint256 header.hashMerkleRoot ++ (writeUInt 4 header.nTime ++ (writeUInt 4 header.nBits ++
      writeUInt 4 header.nNonce))))

def readHeader : Reader CBlockHeader := do
  let nVersion ← readInt 4
  let hashPrevBlock ← readUint256
  let hashMerkleRoot ← readUint256
  let nTime ← readUInt 4
  let nBits ← readUInt 4
  let nNonce ← readUInt 4
  return ⟨nVersion, hashPrevBlock, hashMerkleRoot, nTime, nBits, nNonce⟩

/-- `nType & (SER_GETHASH|SER_BLOCKHEADERONLY)`. -/
def headerOnly (nType : ℕ) : Bool := nType &&& (SER_GETHASH ||| SER_BLOCKHEADERONLY) != 0

def writeBlock (nType : ℕ) (block : CBlock) : List UInt8 :=
  writeHeader block.toCBlockHeader ++
    (if headerOnly nType then [] else writeVector writeTx block.vtx ++ writeBytes block.vchBlockSig)

/-- What is left of a block that is read back. -/
def stored (nType : ℕ) (block : CBlock) : CBlock :=
  if headerOnly nType then { block with vtx := [], vchBlockSig := [] } else block

def readBlock (nType : ℕ) : Reader CBlock := do
  let header ← readHeader
  if headerOnly nType then return ⟨header, [], []⟩
  else do
    let vtx ← readVector (readTx sizes) sizes.cTransaction
    let vchBlockSig ← readBytes
    return ⟨header, vtx, vchBlockSig⟩

/-! ## Sizes

`unsigned int` sums, next to the unbounded sizes that the rest of the model uses. -/

def vectorSize {α : Type} (itemSize : α → UInt32) (v : List α) : UInt32 :=
  v.foldl (fun nSize item ↦ nSize + itemSize item) (UInt32.ofNat (getSizeOfCompactSize v.length))

def bytesSize (v : List UInt8) : UInt32 :=
  UInt32.ofNat (getSizeOfCompactSize v.length) + UInt32.ofNat v.length

def txInSize (txin : CTxIn) : UInt32 := 36 + bytesSize txin.scriptSig + 4

def txOutSize (txout : CTxOut) : UInt32 := 8 + bytesSize txout.scriptPubKey

/-- `GetSerializeSize` of a transaction. -/
def txSize (tx : CTransaction) : UInt32 :=
  4 + 4 + vectorSize txInSize tx.vin + vectorSize txOutSize tx.vout + 4

/-- `GetSerializeSize` of a block. -/
def blockSize (nType : ℕ) (block : CBlock) : UInt32 :=
  if headerOnly nType then 4 + 32 + 32 + 4 + 4 + 4
  else 4 + 32 + 32 + 4 + 4 + 4 + vectorSize txSize block.vtx + bytesSize block.vchBlockSig

end Electra.Net

import Electra.Net.MessageFraming
import Electra.Net.WireFormat
import Electra.Node.PoolConsistency

/-!
# Block files

`WriteToDisk` appends a record to the current block file: the message start, the size of the block and
the block.  Positions are offsets into the file.  Files only grow, so that what can be read once can be
read later.

`ConnectBlock` computes where each transaction of a block starts from serialized sizes, in 32 bits.  For
a block that was written, these are the offsets of the bytes of the transactions, and reading there
gives each transaction back.
-/

namespace Electra.Disk

open Chain Net Foundations.Codec Foundations.Outcome

section

/-- What the block files hold, nothing where there is no file, and the number of the file that is
written to. -/
structure BlockDisk where
  content : ℕ → List UInt8
  nCurrentBlockFile : ℕ

/-- The numbers that `OpenBlockFile` accepts. -/
def isBlockFile (nFile : ℕ) : Bool := !(nFile < 1 || nFile ≥ 2 ^ 32 - 1)

/-- The size from which on a file gets no more records. -/
def nFullFile : ℕ := 0x7F000000 - MAX_SIZE

/-- The first file from a number on that has room; the system may fail to open one.  The number that
the search ends at is kept. -/
def appendBlockFile (fOpens : ℕ → Bool) (content : ℕ → List UInt8) (nCurrentBlockFile : ℕ) : Bool × ℕ :=
  if h : isBlockFile nCurrentBlockFile && fOpens nCurrentBlockFile then
    if (content nCurrentBlockFile).length < nFullFile then (true, nCurrentBlockFile)
    else appendBlockFile fOpens content (nCurrentBlockFile + 1)
  else (false, nCurrentBlockFile)
termination_by 2 ^ 32 - nCurrentBlockFile
decreasing_by
  simp only [isBlockFile, ge_iff_le, Bool.and_eq_true, Bool.not_eq_true', Bool.or_eq_false_iff,
    decide_eq_false_iff_not, not_le] at h
  omega

/-- The index header and the block. -/
def indexHeader (P : ChainParams) (block : CBlock) : List UInt8 :=
  pchMessageStart P.fTestNet ++ writeUInt 4 (blockSize SER_DISK block).toNat

def record (P : ChainParams) (block : CBlock) : List UInt8 :=
  indexHeader P block ++ writeBlock SER_DISK block

def BlockDisk.append (disk : BlockDisk) (nFile : ℕ) (data : List UInt8) : BlockDisk :=
  { disk with content := Function.update disk.content nFile (disk.content nFile ++ data) }

@[simp]
theorem BlockDisk.content_append_self (disk : BlockDisk) (nFile : ℕ) (data : List UInt8) :
    (disk.append nFile data).content nFile = disk.content nFile ++ data :=
  Function.update_self nFile _ _

variable {disk disk' : BlockDisk} {nFile : ℕ} {P : ChainParams} {fOpens : ℕ → Bool}

theorem BlockDisk.content_append_of_ne {nFile' : ℕ} {data : List UInt8} (h : nFile' ≠ nFile) :
    (disk.append nFile data).content nFile' = disk.content nFile' :=
  Function.update_of_ne h _ _

/-- `CBlock::WriteToDisk`: the file and the position of the block, if it could be written. -/
def writeToDisk (P : ChainParams) (fOpens : ℕ → Bool) (disk : BlockDisk) (block : CBlock) :
    Option (ℕ × ℕ) × BlockDisk :=
  let (fOk, nFile) := appendBlockFile fOpens disk.content disk.nCurrentBlockFile
  let disk := { disk with nCurrentBlockFile := nFile }
  if fOk then
    let fileOutPos := (disk.content nFile).length + (indexHeader P block).length
    (some (nFile, (UInt32.ofNat fileOutPos).toNat), disk.append nFile (record P block))
  else (none, disk)

variable (sizes : ElementSizes)

/-- Open a block file, go to an offset and read. -/
def BlockDisk.readAt {α : Type} (read : Reader α) (disk : BlockDisk) (nFile nPos : ℕ) : Option α :=
  if isBlockFile nFile then
    match read.run ⟨.ofBytes ((disk.content nFile).drop nPos), []⟩ with
    | .ok (a, _) => some a
    | .error _ => none
  else none

/-- `CTransaction::ReadFromDisk`. -/
def BlockDisk.readTx (disk : BlockDisk) (nFile nTxPos : ℕ) : Option CTransaction :=
  disk.readAt (Net.readTx sizes) nFile nTxPos

/-- The files as the block chain code reads them. -/
def BlockDisk.blockFiles (disk : BlockDisk) : BlockFiles where
  readTx := disk.readTx sizes
  readBlock := disk.readAt (Net.readBlock sizes SER_DISK)
  readHeader nFile nBlockPos :=
    (disk.readAt (Net.readBlock sizes (SER_DISK ||| SER_BLOCKHEADERONLY)) nFile nBlockPos).map
      CBlock.toCBlockHeader

/-- A write of a block, or one that fails after some bytes. -/
inductive DiskStep (P : ChainParams) : BlockDisk → BlockDisk → Prop
  | write {disk : BlockDisk} (fOpens : ℕ → Bool) (block : CBlock) :
      DiskStep P disk (writeToDisk P fOpens disk block).2
  | interrupted {disk : BlockDisk} (nFile : ℕ) (data : List UInt8) :
      DiskStep P disk (disk.append nFile data)

/-- Files only grow. -/
def Grows (disk disk' : BlockDisk) : Prop := ∀ nFile, disk.content nFile <+: disk'.content nFile

theorem Grows.refl (disk : BlockDisk) : Grows disk disk := fun _ ↦ List.prefix_rfl

theorem Grows.trans {disk₁ disk₂ : BlockDisk} (h : Grows disk disk₁) (h₁ : Grows disk₁ disk₂) :
    Grows disk disk₂ := fun nFile ↦ (h nFile).trans (h₁ nFile)

theorem grows_append (disk : BlockDisk) (nFile : ℕ) (data : List UInt8) :
    Grows disk (disk.append nFile data) := by
  intro nFile'
  by_cases hsame : nFile' = nFile
  · rw [hsame, BlockDisk.content_append_self]
    exact List.prefix_append _ _
  · rw [BlockDisk.content_append_of_ne hsame]

theorem DiskStep.grows (h : DiskStep P disk disk') :
    Grows disk disk' := by
  cases h with
  | write fOpens block =>
    unfold writeToDisk
    simp only
    split
    · exact grows_append { disk with nCurrentBlockFile := _ } _ _
    · exact Grows.refl disk
  | interrupted nFile data => exact grows_append disk nFile data

/-- Whatever happens to the disk, files only grow. -/
theorem grows_of_run (h : Relation.ReflTransGen (DiskStep P) disk disk') : Grows disk disk' := by
  induction h with
  | refl => exact .refl disk
  | tail _ step ih => exact ih.trans step.grows

theorem appendBlockFile_spec {content : ℕ → List UInt8} {nCurrentBlockFile : ℕ}
    (h : appendBlockFile fOpens content nCurrentBlockFile = (true, nFile)) :
    isBlockFile nFile = true ∧ (content nFile).length < nFullFile := by
  fun_induction appendBlockFile fOpens content nCurrentBlockFile with
  | case1 nCurrent hopen hroom =>
    obtain ⟨-, rfl⟩ := Prod.mk.inj h
    exact ⟨(Bool.and_eq_true_iff.mp hopen).1, hroom⟩
  | case2 nCurrent hopen hfull ih => exact ih h
  | case3 nCurrent hclosed => cases h

theorem appendBlockFile_of_room {content : ℕ → List UInt8} (hfile : isBlockFile nFile = true)
    (hopens : fOpens nFile = true) (hroom : (content nFile).length < nFullFile) :
    appendBlockFile fOpens content nFile = (true, nFile) := by
  rw [appendBlockFile, dif_pos (Bool.and_eq_true_iff.mpr ⟨hfile, hopens⟩), if_pos hroom]

theorem length_pchMessageStart (fTestNet : Bool) : (pchMessageStart fTestNet).length = 4 := by
  cases fTestNet <;> rfl

theorem length_indexHeader (P : ChainParams) (block : CBlock) : (indexHeader P block).length = 8 := by
  rw [indexHeader, List.length_append, length_pchMessageStart, writeUInt, length_leBytes]

/-- The block is in its file at its position, and whatever follows was written later. -/
structure HoldsAt (disk : BlockDisk) (nFile nBlockPos : ℕ) (block : CBlock) : Prop where
  isFile : isBlockFile nFile = true
  nBlockPos_ge : 8 ≤ nBlockPos
  nBlockPos_lt : nBlockPos < nFullFile + 8
  bytes : writeBlock SER_DISK block <+: (disk.content nFile).drop nBlockPos

theorem HoldsAt.mono {nBlockPos : ℕ} {block : CBlock} (h : HoldsAt disk nFile nBlockPos block)
    (hgrows : Grows disk disk') :
    HoldsAt disk' nFile nBlockPos block := by
  obtain ⟨later, hlater⟩ := hgrows nFile
  obtain ⟨rest, hrest⟩ := h.bytes
  refine ⟨h.isFile, h.nBlockPos_ge, h.nBlockPos_lt, ?_⟩
  rw [← hlater]
  by_cases hle : nBlockPos ≤ (disk.content nFile).length
  · rw [List.drop_append_of_le_length hle, ← hrest, List.append_assoc]
    exact List.prefix_append _ _
  · -- a position behind the end holds no block
    have hnone := List.drop_eq_nil_of_le (Nat.le_of_not_le hle)
    rw [hnone, List.append_eq_nil_iff] at hrest
    rw [hrest.1]
    exact List.nil_prefix

theorem toNat_fileOutPos {content : List UInt8} (hroom : content.length < nFullFile) (P : ChainParams)
    (block : CBlock) :
    (UInt32.ofNat (content.length + (indexHeader P block).length)).toNat = content.length + 8 := by
  rw [length_indexHeader, UInt32.toNat_ofNat', Nat.mod_eq_of_lt]
  unfold nFullFile at hroom
  omega

/-- With room in the current file a block is written there. -/
theorem writeToDisk_of_room (hfile : isBlockFile disk.nCurrentBlockFile = true)
    (hopens : fOpens disk.nCurrentBlockFile = true)
    (hroom : (disk.content disk.nCurrentBlockFile).length < nFullFile) (block : CBlock) :
    writeToDisk P fOpens disk block =
      (some (disk.nCurrentBlockFile, (disk.content disk.nCurrentBlockFile).length + 8),
        disk.append disk.nCurrentBlockFile (record P block)) := by
  unfold writeToDisk
  rw [appendBlockFile_of_room hfile hopens hroom]
  simp only [if_true, toNat_fileOutPos hroom]

/-- A block that was written is where `WriteToDisk` says. -/
theorem holdsAt_of_writeToDisk {block : CBlock} {nBlockPos : ℕ}
    (h : writeToDisk P fOpens disk block = (some (nFile, nBlockPos), disk')) :
    HoldsAt disk' nFile nBlockPos block := by
  unfold writeToDisk at h
  cases hfile : appendBlockFile fOpens disk.content disk.nCurrentBlockFile with
  | mk fOk nFile' =>
    cases fOk with
    | false =>
      rw [hfile] at h
      cases h
    | true =>
      obtain ⟨hisFile, hroom⟩ := appendBlockFile_spec hfile
      rw [hfile] at h
      obtain ⟨hpos, rfl⟩ := Prod.mk.inj h
      obtain ⟨rfl, rfl⟩ := Prod.mk.inj (Option.some.inj hpos)
      simp only [toNat_fileOutPos hroom]
      refine ⟨hisFile, Nat.le_add_left _ _, by omega, ?_⟩
      have hdrop : (disk.content nFile' ++ record P block).drop ((disk.content nFile').length + 8) =
          writeBlock SER_DISK block := by
        rw [record, ← List.append_assoc]
        apply List.drop_left'
        rw [List.length_append, length_indexHeader]
      rw [BlockDisk.content_append_self, hdrop]

/-- Reading takes a value off if its bytes are at the offset. -/
theorem readAt_of_readsBack {α : Type} {read : Reader α} {data : List UInt8} {a : α}
    (h : ReadsBack ReadState.unread read data a) {nPos : ℕ} (hfile : isBlockFile nFile = true)
    (hdata : data <+: (disk.content nFile).drop nPos) :
    disk.readAt read nFile nPos = some a := by
  obtain ⟨rest, hrest⟩ := hdata
  obtain ⟨st, hrun, -⟩ := h ⟨.ofBytes ((disk.content nFile).drop nPos), []⟩ rest hrest.symm
  rw [BlockDisk.readAt, if_pos hfile, hrun]

end

open Ledger Foundations.SpendIndex

structure TxInRanged (txin : CTxIn) : Prop where
  prevout : txin.prevout.n < 2 ^ 32
  nSequence : txin.nSequence < 2 ^ 32

def TxOutRanged (txout : CTxOut) : Prop := -2 ^ 63 ≤ txout.nValue ∧ txout.nValue < 2 ^ 63

/-- The numbers of a transaction have the ranges of their types. -/
structure TxRanged (tx : CTransaction) : Prop where
  nVersion : -2 ^ 31 ≤ tx.nVersion ∧ tx.nVersion < 2 ^ 31
  nTime : tx.nTime < 2 ^ 32
  vin : ∀ txin ∈ tx.vin, TxInRanged txin
  vout : ∀ txout ∈ tx.vout, TxOutRanged txout
  nLockTime : tx.nLockTime < 2 ^ 32

structure BlockRanged (block : CBlock) : Prop where
  header : HeaderTyped block.toCBlockHeader
  vtx : ∀ tx ∈ block.vtx, TxRanged tx

theorem length_le_sum {α : Type*} {l : List α} {size : α → ℕ} (hpos : ∀ a, 1 ≤ size a) :
    l.length ≤ (l.map size).sum := by
  induction l with
  | nil => rfl
  | cons a l ih =>
    have ha := hpos a
    rw [List.length_cons, List.map_cons, List.sum_cons]
    omega

theorem size_le_sum {α : Type*} {l : List α} {a : α} (size : α → ℕ) (ha : a ∈ l) :
    size a ≤ (l.map size).sum :=
  List.single_le_sum (fun _ _ ↦ Nat.zero_le _) _ (List.mem_map_of_mem ha)

/-- A transaction of moderate size has no vector that is too long. -/
theorem TxRanged.typed {tx : CTransaction} (h : TxRanged tx) (hsize : tx.getSerializeSize ≤ MAX_SIZE) :
    TxTyped tx := by
  have hin : (tx.vin.map CTxIn.getSerializeSize).sum ≤ tx.getSerializeSize := by
    unfold CTransaction.getSerializeSize
    omega
  have hout : (tx.vout.map CTxOut.getSerializeSize).sum ≤ tx.getSerializeSize := by
    unfold CTransaction.getSerializeSize
    omega
  refine ⟨h.nVersion, h.nTime, ⟨fun txin htxin ↦ ?_, ?_⟩, ⟨fun txout htxout ↦ ?_, ?_⟩, h.nLockTime⟩
  · have hone := size_le_sum CTxIn.getSerializeSize htxin
    have hscript : txin.scriptSig.length ≤ txin.getSerializeSize := by
      unfold CTxIn.getSerializeSize scriptSize
      omega
    exact ⟨(h.vin txin htxin).prevout, by omega, (h.vin txin htxin).nSequence⟩
  · have hall : tx.vin.length ≤ (tx.vin.map CTxIn.getSerializeSize).sum :=
      length_le_sum fun txin ↦ by
        unfold CTxIn.getSerializeSize
        omega
    omega
  · have hone := size_le_sum CTxOut.getSerializeSize htxout
    have hscript : txout.scriptPubKey.length ≤ txout.getSerializeSize := by
      unfold CTxOut.getSerializeSize scriptSize
      omega
    exact ⟨h.vout txout htxout, by omega⟩
  · have hall : tx.vout.length ≤ (tx.vout.map CTxOut.getSerializeSize).sum :=
      length_le_sum fun txout ↦ by
        unfold CTxOut.getSerializeSize
        omega
    omega

theorem tx_getSerializeSize_pos (tx : CTransaction) : 1 ≤ tx.getSerializeSize := by
  rw [getSerializeSize_tx, length_writeTx]
  omega

theorem BlockRanged.typed {block : CBlock} (h : BlockRanged block)
    (hsize : block.getSerializeSize ≤ MAX_SIZE) : BlockTyped block := by
  have hvtx : (block.vtx.map CTransaction.getSerializeSize).sum ≤ block.getSerializeSize := by
    unfold CBlock.getSerializeSize
    omega
  refine ⟨h.header, ⟨fun tx htx ↦ ?_, ?_⟩, ?_⟩
  · have hone := size_le_sum CTransaction.getSerializeSize htx
    exact (h.vtx tx htx).typed (by omega)
  · have hall : block.vtx.length ≤ (block.vtx.map CTransaction.getSerializeSize).sum :=
      length_le_sum tx_getSerializeSize_pos
    omega
  · unfold CBlock.getSerializeSize at hsize
    omega

/-- `CBlock()`. -/
def nullBlock : CBlock := ⟨⟨6, 0, 0, 0, 0, 0⟩, [], []⟩

/-- `nTxPos` before the loop of `ConnectBlock`. -/
def firstDiskTxPos (nBlockPos : UInt32) (vtx : List CTransaction) : UInt32 :=
  nBlockPos + blockSize SER_DISK nullBlock - 2 * UInt32.ofNat (getSizeOfCompactSize 0) +
    UInt32.ofNat (getSizeOfCompactSize vtx.length)

/-- `nTxPos` for each transaction. -/
def diskTxPositions : UInt32 → List CTransaction → List UInt32
  | _, [] => []
  | nTxPos, tx :: vtx => nTxPos :: diskTxPositions (nTxPos + txSize tx) vtx

/-- Bytes of the first transactions. -/
def sizeBefore (vtx : List CTransaction) (i : ℕ) : ℕ :=
  ((vtx.take i).map CTransaction.getSerializeSize).sum

theorem getElem?_locate (nFile nBlockPos nTxPos : ℕ) (vtx : List CTransaction) (i : ℕ) :
    (locate nFile nBlockPos nTxPos vtx)[i]? =
      vtx[i]?.map fun tx ↦ (tx, ⟨nFile, nBlockPos, nTxPos + sizeBefore vtx i⟩) := by
  induction vtx generalizing nTxPos i with
  | nil => rfl
  | cons tx vtx ih =>
    cases i with
    | zero => rfl
    | succ i =>
      rw [locate, List.getElem?_cons_succ, List.getElem?_cons_succ, ih, sizeBefore, sizeBefore,
        List.take_succ_cons, List.map_cons, List.sum_cons, Nat.add_assoc]

theorem firstDiskTxPos_eq (nBlockPos : ℕ) (vtx : List CTransaction) :
    firstDiskTxPos (UInt32.ofNat nBlockPos) vtx = UInt32.ofNat (firstTxPos nBlockPos vtx) := by
  have hheader : blockSize SER_DISK nullBlock - 2 * UInt32.ofNat (getSizeOfCompactSize 0) =
      UInt32.ofNat 80 := by decide
  calc firstDiskTxPos (UInt32.ofNat nBlockPos) vtx
      = UInt32.ofNat nBlockPos + (blockSize SER_DISK nullBlock -
          2 * UInt32.ofNat (getSizeOfCompactSize 0)) +
          UInt32.ofNat (getSizeOfCompactSize vtx.length) := by
          simp only [firstDiskTxPos, UInt32.sub_eq_add_neg, UInt32.add_assoc]
    _ = UInt32.ofNat (firstTxPos nBlockPos vtx) := by
        rw [hheader, firstTxPos, UInt32.ofNat_add, UInt32.ofNat_add]

theorem txSize_eq_ofNat (tx : CTransaction) : txSize tx = UInt32.ofNat tx.getSerializeSize := by
  rw [txSize_eq, getSerializeSize_tx]

theorem getElem?_diskTxPositions (nTxPos : ℕ) (vtx : List CTransaction) (i : ℕ) :
    (diskTxPositions (UInt32.ofNat nTxPos) vtx)[i]? =
      vtx[i]?.map fun _ ↦ UInt32.ofNat (nTxPos + sizeBefore vtx i) := by
  induction vtx generalizing nTxPos i with
  | nil => rfl
  | cons tx vtx ih =>
    cases i with
    | zero => rfl
    | succ i =>
      rw [diskTxPositions, List.getElem?_cons_succ, List.getElem?_cons_succ, txSize_eq_ofNat,
        ← UInt32.ofNat_add, ih, sizeBefore, sizeBefore, List.take_succ_cons, List.map_cons,
        List.sum_cons, Nat.add_assoc]

theorem headerOnly_disk : headerOnly SER_DISK = false := rfl

theorem length_flatMap_writeTx (vtx : List CTransaction) :
    (vtx.flatMap writeTx).length = (vtx.map CTransaction.getSerializeSize).sum := by
  rw [List.length_flatMap]
  congr 1
  exact List.map_congr_left fun tx _ ↦ (getSerializeSize_tx tx).symm

variable {disk : BlockDisk} {nFile : ℕ}

/-- The bytes of a transaction start at its position. -/
theorem HoldsAt.tx {nBlockPos : ℕ} {block : CBlock} (h : HoldsAt disk nFile nBlockPos block) {i : ℕ}
    {tx : CTransaction} (htx : block.vtx[i]? = some tx) :
    writeTx tx <+:
      (disk.content nFile).drop (firstTxPos nBlockPos block.vtx + sizeBefore block.vtx i) := by
  obtain ⟨rest, hrest⟩ := h.bytes
  obtain ⟨hi, hget⟩ := List.getElem?_eq_some_iff.mp htx
  have hsplit : block.vtx = block.vtx.take i ++ tx :: block.vtx.drop (i + 1) := by
    rw [← hget, List.cons_getElem_drop_succ, List.take_append_drop]
  let front := writeHeader block.toCBlockHeader ++ (writeCompactSize block.vtx.length ++
    (block.vtx.take i).flatMap writeTx)
  let back := (block.vtx.drop (i + 1)).flatMap writeTx ++ (writeBytes block.vchBlockSig ++ rest)
  have hbytes : (disk.content nFile).drop nBlockPos = front ++ (writeTx tx ++ back) := by
    have hflat : block.vtx.flatMap writeTx = (block.vtx.take i).flatMap writeTx ++
        (writeTx tx ++ (block.vtx.drop (i + 1)).flatMap writeTx) := by
      conv_lhs => rw [hsplit]
      rw [List.flatMap_append, List.flatMap_cons]
    rw [← hrest, writeBlock, headerOnly_disk, if_neg Bool.false_ne_true, writeVector, hflat]
    simp only [front, back, List.append_assoc]
  have hlength : front.length = 80 + getSizeOfCompactSize block.vtx.length + sizeBefore block.vtx i := by
    simp only [front, List.length_append, length_writeHeader, length_writeCompactSize,
      length_flatMap_writeTx, sizeBefore, Nat.add_assoc]
  have hposition : firstTxPos nBlockPos block.vtx + sizeBefore block.vtx i = nBlockPos + front.length := by
    rw [hlength, firstTxPos]
    omega
  rw [hposition, ← List.drop_drop, hbytes, List.drop_left]
  exact List.prefix_append _ _

variable {sizes : ElementSizes}

/-- Reading at the position of a transaction gives the transaction. -/
theorem HoldsAt.readTx {nBlockPos : ℕ} {block : CBlock} (h : HoldsAt disk nFile nBlockPos block)
    (htyped : BlockTyped block) {i : ℕ} {tx : CTransaction} (htx : block.vtx[i]? = some tx) :
    disk.readTx sizes nFile (firstTxPos nBlockPos block.vtx + sizeBefore block.vtx i) = some tx :=
  readAt_of_readsBack ((reads_readTx sizes).1 tx (htyped.vtx.1 tx (List.mem_of_getElem? htx))) h.isFile
    (h.tx htx)

/-- What the block chain code relies on when it reads a block that was written. -/
theorem HoldsAt.writtenAt {nBlockPos : ℕ} {block : CBlock} (h : HoldsAt disk nFile nBlockPos block)
    (htyped : BlockTyped block) :
    WrittenAt (disk.blockFiles sizes) nFile nBlockPos block where
  nFile_pos := by
    have hfile := h.isFile
    simp only [isBlockFile, ge_iff_le, Bool.not_eq_true', Bool.or_eq_false_iff,
      decide_eq_false_iff_not, not_le, not_lt] at hfile
    exact hfile.1
  nBlockPos_ge := h.nBlockPos_ge
  readBlock := readAt_of_readsBack (readsBack_readBlock sizes htyped) h.isFile h.bytes
  readHeader := by
    have hprefix : writeBlock (SER_DISK ||| SER_BLOCKHEADERONLY) block <+:
        (disk.content nFile).drop nBlockPos :=
      (writeBlock_isPrefix rfl block).trans h.bytes
    have hread : disk.readAt (Net.readBlock sizes (SER_DISK ||| SER_BLOCKHEADERONLY)) nFile nBlockPos =
        some (stored (SER_DISK ||| SER_BLOCKHEADERONLY) block) :=
      readAt_of_readsBack (readsBack_readBlock sizes htyped) h.isFile hprefix
    exact congrArg (Option.map CBlock.toCBlockHeader) hread
  readTx entry hentry := by
    obtain ⟨i, hi⟩ := List.mem_iff_getElem?.mp hentry
    rw [getElem?_locate] at hi
    obtain ⟨tx, htx, rfl⟩ := Option.map_eq_some_iff.mp hi
    exact h.readTx htyped htx

theorem size_of_connectBlock {P : ChainParams} {env : Env} {st st' : NodeState} {block : CBlock}
    {pindex : PIndex} {fJustCheck : Bool} (h : connectBlock P env st block pindex fJustCheck = .ok st') :
    block.getSerializeSize ≤ MAX_BLOCK_SIZE := by
  simp only [connectBlock, connectChecks, bind_eq_ok] at h
  obtain ⟨sums, ⟨u, hcheck, -⟩, -⟩ := h
  simp only [checkBlock, bind_eq_ok, rejectIf_eq_ok, exists_const] at hcheck
  have hsize := hcheck.1
  rw [not_or, not_or, not_lt, not_lt] at hsize
  exact hsize.2.2

/-- Each transaction of a block that was written and connected is recorded with the offset of its bytes,
and read back from there, whatever is written later. -/
theorem readTx_of_connectBlock {P : ChainParams} {fOpens : ℕ → Bool} {disk disk₁ disk₂ : BlockDisk}
    {block : CBlock} {nFile nBlockPos : ℕ} {env : Env} {st st' : NodeState} {index : CBlockIndex}
    {pprev : PIndex} (hwritten : writeToDisk P fOpens disk block = (some (nFile, nBlockPos), disk₁))
    (hlater : Relation.ReflTransGen (DiskStep P) disk₁ disk₂) (hranged : BlockRanged block)
    (hindex : index.nFile = nFile ∧ index.nBlockPos = nBlockPos)
    (hconnect : connectBlock P env st block (index :: pprev) false = .ok st') :
    ∀ (i : ℕ) (tx : CTransaction), block.vtx[i]? = some tx → ∃ (txindex : CTxIndex) (nTxPos : UInt32),
      st'.txdb.readTxIndex (P.hashTx tx) = some txindex ∧
      (diskTxPositions (firstDiskTxPos (UInt32.ofNat nBlockPos) block.vtx) block.vtx)[i]? = some nTxPos ∧
      txindex.pos = ⟨nFile, nBlockPos, nTxPos.toNat⟩ ∧
      writeTx tx <+: (disk₂.content nFile).drop nTxPos.toNat ∧
      disk₂.readTx sizes nFile nTxPos.toNat = some tx := by
  intro i tx htx
  obtain ⟨rfl, rfl⟩ := hindex
  have hholds := (holdsAt_of_writeToDisk hwritten).mono (grows_of_run hlater)
  have hsize := size_of_connectBlock hconnect
  have htyped : BlockTyped block := hranged.typed (hsize.trans (by decide))
  obtain ⟨sums, hconnects⟩ := connectBlock_eq_ok hconnect
  -- the record of the transaction
  have hlocated : (tx, (⟨index.nFile, index.nBlockPos, firstTxPos index.nBlockPos block.vtx +
      sizeBefore block.vtx i⟩ : CDiskTxPos)) ∈ block.located (index :: pprev) false := by
    refine List.mem_of_getElem? (i := i) ?_
    rw [CBlock.located, if_neg Bool.false_ne_true, List.head?_cons, Option.map_some, Option.map_some,
      Option.getD_some, Option.getD_some, getElem?_locate, htx, Option.map_some]
  have hids : ((spendersOf P block (index :: pprev)).map Spender.id).Nodup := by
    rw [map_id_spendersOf]
    exact hconnects.checked.txids_nodup
  have hrecord : (st'.txdb.readTxIndex (P.hashTx tx)).map Entry.pos = some ⟨index.nFile,
      index.nBlockPos, firstTxPos index.nBlockPos block.vtx + sizeBefore block.vtx i⟩ := by
    rw [hconnects.txindex]
    exact map_pos_applyAll (List.mem_map_of_mem (f := spenderOf P) hlocated) hids
  obtain ⟨txindex, htxindex, hentry⟩ := Option.map_eq_some_iff.mp hrecord
  -- 32 bits suffice for its position
  have hbefore : sizeBefore block.vtx i ≤ block.getSerializeSize := by
    have hsub : sizeBefore block.vtx i ≤ (block.vtx.map CTransaction.getSerializeSize).sum :=
      ((List.take_sublist i block.vtx).map _).sum_le_sum fun _ _ ↦ Nat.zero_le _
    unfold CBlock.getSerializeSize
    omega
  have hsmall : firstTxPos index.nBlockPos block.vtx + sizeBefore block.vtx i < 2 ^ 32 := by
    have hfull := hholds.nBlockPos_lt
    have hcompact : getSizeOfCompactSize block.vtx.length ≤ block.getSerializeSize := by
      unfold CBlock.getSerializeSize
      omega
    unfold firstTxPos
    unfold nFullFile at hfull
    unfold MAX_BLOCK_SIZE at hsize
    omega
  have hnumber : (UInt32.ofNat (firstTxPos index.nBlockPos block.vtx + sizeBefore block.vtx i)).toNat =
      firstTxPos index.nBlockPos block.vtx + sizeBefore block.vtx i := by
    rw [UInt32.toNat_ofNat', Nat.mod_eq_of_lt hsmall]
  refine ⟨txindex, UInt32.ofNat (firstTxPos index.nBlockPos block.vtx + sizeBefore block.vtx i),
    htxindex, ?_, ?_, ?_, ?_⟩
  · rw [firstDiskTxPos_eq, getElem?_diskTxPositions, htx, Option.map_some]
  · rw [hnumber, hentry]
  · rw [hnumber]
    exact hholds.tx htx
  · rw [hnumber]
    exact hholds.readTx htyped htx

namespace PositionExample

open Node Node.PoolExample Builders

def emptyDisk : BlockDisk := ⟨fun _ ↦ [], 14⟩

/-- A coinbase and a payment, then the block of a rival. -/
def writtenDisk : BlockDisk := emptyDisk.append 14 (record testNet confirming)

def laterDisk : BlockDisk := (writeToDisk testNet (fun _ ↦ true) writtenDisk rival).2

def pindexNew : PIndex := indexOf testNet confirming 14 8 :: (quietNode 12).pindexBest

theorem blockRanged_confirming : BlockRanged confirming := by
  refine ⟨⟨by decide, by decide, by decide, by decide⟩, fun tx htx ↦ ?_⟩
  have hvtx : confirming.vtx = [coinbase 14 4200 13 [output 0], pooledTx] := rfl
  rw [hvtx, List.mem_cons, List.mem_singleton] at htx
  rcases htx with rfl | rfl
  all_goals
    refine ⟨by decide, by decide, fun txin htxin ↦ ?_, fun txout htxout ↦ ?_, by decide⟩
    · rw [List.mem_singleton.mp htxin]
      exact ⟨by decide, by decide⟩
    · rw [List.mem_singleton.mp htxout]
      exact ⟨by decide, by decide⟩

end PositionExample

open Node.PoolExample Builders PositionExample in
theorem readTx_confirming : ∃ (txindex : CTxIndex) (nTxPos : UInt32),
    (connected testNet (envAt 14) (quietNode 12) confirming pindexNew).txdb.readTxIndex
      (testNet.hashTx pooledTx) = some txindex ∧
    (diskTxPositions (firstDiskTxPos (UInt32.ofNat 8) confirming.vtx) confirming.vtx)[1]? = some nTxPos ∧
    txindex.pos = ⟨14, 8, nTxPos.toNat⟩ ∧
    writeTx pooledTx <+: (laterDisk.content 14).drop nTxPos.toNat ∧
    laterDisk.readTx elementSizes64 14 nTxPos.toNat = some pooledTx := by
  have hwritten : writeToDisk testNet (fun _ ↦ true) emptyDisk confirming = (some (14, 8), writtenDisk) :=
    writeToDisk_of_room (by decide) rfl (by decide) confirming
  have hlater : Relation.ReflTransGen (DiskStep testNet) writtenDisk laterDisk :=
    .single (.write (fun _ ↦ true) rival)
  have hconnect := connected_eq (show (connectBlock testNet (envAt 14) (quietNode 12) confirming
    pindexNew false).isOk = true by decide +kernel)
  exact readTx_of_connectBlock hwritten hlater blockRanged_confirming ⟨rfl, rfl⟩ hconnect 1 pooledTx rfl

end Electra.Disk

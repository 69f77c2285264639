import Electra.Chain.Block
import Electra.Foundations.WriteBatch
import Mathlib.Data.List.AList

/-!
# Transaction database and block files

The database is a store with one write batch and typed records.  The block files are what reading
at a position gives; they are only ever appended to.

While a batch is open, `Read` answers what it would answer after the commit.  `Exists` skips a
pending delete and asks the committed records, so it still finds a record that the batch deletes.
-/

namespace Electra.Chain

open Foundations.SpendIndex Foundations.WriteBatch Foundations.Outcome

structure CDiskTxPos where
  nFile : ℕ
  nBlockPos : ℕ
  nTxPos : ℕ
deriving DecidableEq

def CDiskTxPos.null : CDiskTxPos := ⟨uintMax, 0, 0⟩

/-- The position of a transaction in the memory pool, also used for a mere check. -/
def CDiskTxPos.memoryPool : CDiskTxPos := ⟨1, 1, 1⟩

/-- A null position in `vSpent` is `none`. -/
abbrev CTxIndex := Entry CDiskTxPos

abbrev TxIndexView := Index Uint256 CDiskTxPos

/-- A block index entry as written to disk, with its pointers as hashes. -/
structure CDiskBlockIndex where
  index : CBlockIndex
  nHeight : ℤ
  nMint : ℤ
  nMoneySupply : ℤ
  hashPrev : Uint256
  hashNext : Uint256
deriving DecidableEq

inductive TxDbKey
  | tx (hash : Uint256)
  | blockindex (hash : Uint256)
  | hashBestChain
  | bnBestInvalidTrust
  | hashSyncCheckpoint
deriving DecidableEq

inductive TxDbValue
  | txIndex (txindex : CTxIndex)
  | blockIndex (blockindex : CDiskBlockIndex)
  | hash (hash : Uint256)
  | trust (bnBestInvalidTrust : Uint256)
deriving DecidableEq

abbrev CTxDB := Store TxDbKey TxDbValue

namespace CTxDB

def readTxIndex (txdb : CTxDB) : TxIndexView := fun hash ↦
  match txdb.read (.tx hash) with
  | some (.txIndex txindex) => some txindex
  | _ => none

def updateTxIndex (txdb : CTxDB) (hash : Uint256) (txindex : CTxIndex) : CTxDB :=
  txdb.put (.tx hash) (some (.txIndex txindex))

def eraseTxIndex (txdb : CTxDB) (hash : Uint256) : CTxDB := txdb.put (.tx hash) none

def containsTx (txdb : CTxDB) (hash : Uint256) : Bool := txdb.contains (.tx hash)

def writeBlockIndex (txdb : CTxDB) (blockindex : CDiskBlockIndex) : CTxDB :=
  txdb.put (.blockindex blockindex.index.phashBlock) (some (.blockIndex blockindex))

def readBlockIndex (txdb : CTxDB) (hash : Uint256) : Option CDiskBlockIndex :=
  match txdb.read (.blockindex hash) with
  | some (.blockIndex blockindex) => some blockindex
  | _ => none

def writeHashBestChain (txdb : CTxDB) (hash : Uint256) : CTxDB :=
  txdb.put .hashBestChain (some (.hash hash))

def readHashBestChain (txdb : CTxDB) : Option Uint256 :=
  match txdb.read .hashBestChain with
  | some (.hash hash) => some hash
  | _ => none

def writeBestInvalidTrust (txdb : CTxDB) (nTrust : Uint256) : CTxDB :=
  txdb.put .bnBestInvalidTrust (some (.trust nTrust))

def writeSyncCheckpoint (txdb : CTxDB) (hashCheckpoint : Uint256) : CTxDB :=
  txdb.put .hashSyncCheckpoint (some (.hash hashCheckpoint))

end CTxDB

/-- What reading the block files gives: a transaction, a block or a block header. -/
structure BlockFiles where
  readTx : ℕ → ℕ → Option CTransaction
  readBlock : ℕ → ℕ → Option CBlock
  readHeader : ℕ → ℕ → Option CBlockHeader

/-- Every successful read gives what the files hold. -/
structure BlockFiles.ReadsFrom (files disk : BlockFiles) : Prop where
  readTx : ∀ nFile nTxPos tx, files.readTx nFile nTxPos = some tx → disk.readTx nFile nTxPos = some tx
  readBlock : ∀ nFile nBlockPos block, files.readBlock nFile nBlockPos = some block →
    disk.readBlock nFile nBlockPos = some block
  readHeader : ∀ nFile nBlockPos header, files.readHeader nFile nBlockPos = some header →
    disk.readHeader nFile nBlockPos = some header

theorem BlockFiles.ReadsFrom.refl (disk : BlockFiles) : disk.ReadsFrom disk :=
  ⟨fun _ _ _ h ↦ h, fun _ _ _ h ↦ h, fun _ _ _ h ↦ h⟩

/-- Where the first transaction of a block starts. -/
def firstTxPos (nBlockPos : ℕ) (vtx : List CTransaction) : ℕ :=
  nBlockPos + 80 + getSizeOfCompactSize vtx.length

/-- The transactions of a block with their positions on disk. -/
def locate (nFile nBlockPos : ℕ) : ℕ → List CTransaction → List (CTransaction × CDiskTxPos)
  | _, [] => []
  | nTxPos, tx :: vtx =>
      (tx, ⟨nFile, nBlockPos, nTxPos⟩) :: locate nFile nBlockPos (nTxPos + tx.getSerializeSize) vtx

/-- What `WriteToDisk` leaves: the block behind its eight-byte record header, its header, and each
of its transactions at its own position. -/
structure WrittenAt (disk : BlockFiles) (nFile nBlockPos : ℕ) (block : CBlock) : Prop where
  nFile_pos : 1 ≤ nFile
  nBlockPos_ge : 8 ≤ nBlockPos
  readBlock : disk.readBlock nFile nBlockPos = some block
  readHeader : disk.readHeader nFile nBlockPos = some block.toCBlockHeader
  readTx : ∀ entry ∈ locate nFile nBlockPos (firstTxPos nBlockPos block.vtx) block.vtx,
    disk.readTx nFile entry.2.nTxPos = some entry.1

instance {disk : BlockFiles} {nFile nBlockPos : ℕ} {block : CBlock} :
    Decidable (WrittenAt disk nFile nBlockPos block) :=
  decidable_of_iff (1 ≤ nFile ∧ 8 ≤ nBlockPos ∧ disk.readBlock nFile nBlockPos = some block ∧
      disk.readHeader nFile nBlockPos = some block.toCBlockHeader ∧
      ∀ entry ∈ locate nFile nBlockPos (firstTxPos nBlockPos block.vtx) block.vtx,
        disk.readTx nFile entry.2.nTxPos = some entry.1)
    ⟨fun ⟨h₁, h₂, h₃, h₄, h₅⟩ ↦ ⟨h₁, h₂, h₃, h₄, h₅⟩, fun ⟨h₁, h₂, h₃, h₄, h₅⟩ ↦ ⟨h₁, h₂, h₃, h₄, h₅⟩⟩

variable (P : ChainParams)

/-- `CBlock::ReadFromDisk(pindex)`: the block at the position of an index entry, if it is sound and
has the hash of the entry. -/
def readFromDisk (files : BlockFiles) (index : CBlockIndex) : Except Reject CBlock := do
  let block ← require (files.readBlock index.nFile index.nBlockPos)
    (error "CBlock::ReadFromDisk() : deserialize or I/O error")
  checkWhen block.isProofOfWork
    ((checkProofOfWork P.fTestNet (block.getHash P) block.nBits).mapError fun _ ↦
      error "CBlock::ReadFromDisk() : errors in block header")
  rejectIf (block.getHash P ≠ index.phashBlock)
    (error "CBlock::ReadFromDisk() : GetHash() doesn't match index")
  return block

namespace CTxDB

@[simp]
theorem readTxIndex_updateTxIndex (txdb : CTxDB) (hash : Uint256) (txindex : CTxIndex) :
    (txdb.updateTxIndex hash txindex).readTxIndex =
      Function.update txdb.readTxIndex hash (some txindex) := by
  funext hash'
  unfold readTxIndex updateTxIndex
  rw [Store.read_put]
  by_cases heq : hash' = hash
  · subst heq
    simp
  · simp [heq]

@[simp]
theorem readTxIndex_eraseTxIndex (txdb : CTxDB) (hash : Uint256) :
    (txdb.eraseTxIndex hash).readTxIndex = Function.update txdb.readTxIndex hash none := by
  funext hash'
  unfold readTxIndex eraseTxIndex
  rw [Store.read_put]
  by_cases heq : hash' = hash
  · subst heq
    simp
  · simp [heq]

@[simp]
theorem readTxIndex_writeBlockIndex (txdb : CTxDB) (blockindex : CDiskBlockIndex) :
    (txdb.writeBlockIndex blockindex).readTxIndex = txdb.readTxIndex := by
  funext hash
  simp [readTxIndex, writeBlockIndex]

@[simp]
theorem readTxIndex_writeHashBestChain (txdb : CTxDB) (hash : Uint256) :
    (txdb.writeHashBestChain hash).readTxIndex = txdb.readTxIndex := by
  funext hash'
  simp [readTxIndex, writeHashBestChain]

@[simp]
theorem readTxIndex_writeBestInvalidTrust (txdb : CTxDB) (nTrust : Uint256) :
    (txdb.writeBestInvalidTrust nTrust).readTxIndex = txdb.readTxIndex := by
  funext hash
  simp [readTxIndex, writeBestInvalidTrust]

/-- The records of the transaction index are a function of what readers see. -/
theorem readTxIndex_congr {txdb txdb' : CTxDB} (h : txdb.read = txdb'.read) :
    txdb.readTxIndex = txdb'.readTxIndex := by
  funext hash
  simp [readTxIndex, h]

end CTxDB

end Electra.Chain

namespace Electra.Ledger

open Chain Foundations.WriteBatch

variable {K V T : Type}

/-- A `Write` or `Erase` call, with its key and its value in serialized form. -/
inductive DbCall (K V : Type)
  | write (key : K) (value : V)
  | erase (key : K)

namespace DbCall

def key : DbCall K V → K
  | write key _ => key
  | erase key => key

/-- What the batch records: a value, or nothing for a delete. -/
def value : DbCall K V → Option V
  | write _ value => some value
  | erase _ => none

end DbCall

variable [DecidableEq K]

/-- `CTxDB::Read`: the value that the record unserializes to. -/
def readAs (unserialize : V → Option T) (txdb : Store K V) (key : K) : Option T :=
  (txdb.read key).bind unserialize

def handleCall (txdb : Store K V) (call : DbCall K V) : Store K V := txdb.put call.key call.value

/-- The database after some calls inside a batch. -/
def runBatch (pdb : K → Option V) (calls : List (DbCall K V)) : Store K V :=
  calls.foldl handleCall (Store.txnBegin ⟨pdb, none⟩)

def committed (pdb : K → Option V) (calls : List (DbCall K V)) : Store K V :=
  ((runBatch pdb calls).txnCommit true).2

/-- The last call on a key. -/
def LastCall (calls : List (DbCall K V)) (call : DbCall K V) : Prop :=
  ∃ pre post, calls = pre ++ call :: post ∧ ∀ call' ∈ post, call'.key ≠ call.key

/-- Lookups of a key inside the batch answer what they answer after the commit. -/
structure ReadsYourWrites (pdb : K → Option V) (calls : List (DbCall K V)) (key : K) : Prop where
  read : ∀ (T : Type) (unserialize : V → Option T),
    readAs unserialize (runBatch pdb calls) key = readAs unserialize (committed pdb calls) key
  contains : (runBatch pdb calls).contains key = (committed pdb calls).contains key
  erased : LastCall calls (.erase key) → (∀ (T : Type) (unserialize : V → Option T),
    readAs unserialize (runBatch pdb calls) key = none) ∧ (runBatch pdb calls).contains key = false
  written : ∀ value, LastCall calls (.write key value) →
    (∀ (T : Type) (unserialize : V → Option T),
      readAs unserialize (runBatch pdb calls) key = unserialize value) ∧
    (runBatch pdb calls).contains key = true

/-- The calls as the batch keeps them. -/
def recorded (calls : List (DbCall K V)) : List (K × Option V) :=
  calls.map fun call ↦ (call.key, call.value)

theorem pdb_foldl_handleCall (calls : List (DbCall K V)) {txdb : Store K V}
    {batch : List (K × Option V)} (h : txdb.activeBatch = some batch) :
    (calls.foldl handleCall txdb).pdb = txdb.pdb ∧
      (calls.foldl handleCall txdb).activeBatch = some (batch ++ recorded calls) := by
  induction calls generalizing txdb batch with
  | nil => simpa [recorded] using h
  | cons call calls ih =>
    have hbatch : (handleCall txdb call).activeBatch = _ := Store.activeBatch_put h call.key call.value
    have hpdb := Store.pdb_put_of_batch (by rw [h]; simp) call.key call.value
    obtain ⟨hrest, hrestBatch⟩ := ih hbatch
    constructor
    · calc (calls.foldl handleCall (handleCall txdb call)).pdb
          = (handleCall txdb call).pdb := hrest
        _ = txdb.pdb := hpdb
    · rw [List.foldl_cons, hrestBatch]
      simp [recorded]

variable (pdb : K → Option V) (calls : List (DbCall K V))

theorem pdb_runBatch :
    (runBatch pdb calls).pdb = pdb :=
  (pdb_foldl_handleCall calls (Store.activeBatch_txnBegin ⟨pdb, none⟩)).1

theorem activeBatch_runBatch :
    (runBatch pdb calls).activeBatch = some (recorded calls) :=
  (pdb_foldl_handleCall calls (Store.activeBatch_txnBegin ⟨pdb, none⟩)).2

/-- What is read inside the batch is what is read after the commit. -/
theorem read_committed :
    (committed pdb calls).read = (runBatch pdb calls).read := by
  have hopen : (runBatch pdb calls).activeBatch ≠ none := by
    rw [activeBatch_runBatch]
    exact Option.some_ne_none _
  calc (committed pdb calls).read
      = (committed pdb calls).pdb := Store.read_of_noBatch (Store.activeBatch_txnCommit _ _)
    _ = (runBatch pdb calls).read := Store.pdb_txnCommit_true hopen

theorem read_runBatch (key : K) :
    (runBatch pdb calls).read key = (scanBatch (recorded calls) key).getD (pdb key) := by
  rw [Store.read_of_batch (activeBatch_runBatch pdb calls), replay_apply, pdb_runBatch]

theorem contains_runBatch (key : K) :
    (runBatch pdb calls).contains key =
      ((scanBatch (recorded calls) key).any Option.isSome || (pdb key).isSome) := by
  rw [Store.contains_of_batch (activeBatch_runBatch pdb calls), pdb_runBatch]

theorem contains_committed (key : K) :
    (committed pdb calls).contains key =
      ((scanBatch (recorded calls) key).getD (pdb key)).isSome := by
  have hclosed : (committed pdb calls).activeBatch = none := Store.activeBatch_txnCommit _ _
  rw [Store.contains_of_noBatch hclosed, read_committed, read_runBatch]

theorem scanBatch_of_lastCall {calls : List (DbCall K V)} {call : DbCall K V}
    (h : LastCall calls call) : scanBatch (recorded calls) call.key = some call.value := by
  obtain ⟨pre, post, rfl, hpost⟩ := h
  have hrecorded : recorded (pre ++ call :: post) =
      recorded pre ++ (call.key, call.value) :: recorded post := by simp [recorded]
  rw [hrecorded]
  apply scanBatch_of_last
  intro op hop
  obtain ⟨call', hcall', rfl⟩ := List.mem_map.mp hop
  exact hpost call' hcall'

/-- A key is untouched by the calls, or one of them is the last on it. -/
theorem lastCall_cases (calls : List (DbCall K V)) (key : K) :
    (∀ call ∈ calls, call.key ≠ key) ∨ ∃ call, call.key = key ∧ LastCall calls call := by
  induction calls with
  | nil => exact .inl (by simp)
  | cons first calls ih =>
    rcases ih with hnone | ⟨call, hkey, pre, post, rfl, hpost⟩
    · by_cases hfirst : first.key = key
      · exact .inr ⟨first, hfirst, [], calls, rfl, by rwa [hfirst]⟩
      · left
        intro call hcall
        rcases List.mem_cons.mp hcall with rfl | hcall
        · exact hfirst
        · exact hnone call hcall
    · exact .inr ⟨call, hkey, first :: pre, post, rfl, hpost⟩

/-- The two lookups answer as after the commit, for every key but one whose last call is an `Erase`
and that the committed records still hold. -/
theorem readsYourWrites_iff (pdb : K → Option V) (calls : List (DbCall K V)) (key : K) :
    ReadsYourWrites pdb calls key ↔ ¬ (LastCall calls (.erase key) ∧ (pdb key).isSome) := by
  constructor
  · rintro h ⟨herase, hsome⟩
    have habsent : (runBatch pdb calls).contains key = false := (h.erased herase).2
    rw [contains_runBatch, hsome, Bool.or_true] at habsent
    cases habsent
  · intro hkept
    have hcontains : LastCall calls (.erase key) → (runBatch pdb calls).contains key = false := by
      intro herase
      have hscan : scanBatch (recorded calls) key = some none := scanBatch_of_lastCall herase
      have hnone : (pdb key).isSome = false := Bool.eq_false_iff.mpr fun hsome ↦ hkept ⟨herase, hsome⟩
      rw [contains_runBatch, hscan, hnone]
      rfl
    constructor
    case read =>
      intro T unserialize
      rw [readAs, readAs, read_committed]
    case contains =>
      rcases lastCall_cases calls key with huntouched | ⟨call, rfl, hlast⟩
      · have hscan : scanBatch (recorded calls) key = none := by
          apply scanBatch_eq_none
          intro op hop
          obtain ⟨call, hcall, rfl⟩ := List.mem_map.mp hop
          exact huntouched call hcall
        rw [contains_runBatch, contains_committed, hscan]
        rfl
      · cases call with
        | write key value =>
          rw [contains_runBatch, contains_committed, scanBatch_of_lastCall hlast]
          rfl
        | erase key =>
          rw [contains_committed, scanBatch_of_lastCall hlast]
          exact hcontains hlast
    case erased =>
      intro herase
      refine ⟨fun T unserialize ↦ ?_, hcontains herase⟩
      have hscan : scanBatch (recorded calls) key = some none := scanBatch_of_lastCall herase
      rw [readAs, read_runBatch, hscan]
      rfl
    case written =>
      intro value hwrite
      have hscan : scanBatch (recorded calls) key = some (some value) := scanBatch_of_lastCall hwrite
      constructor
      · intro T unserialize
        rw [readAs, read_runBatch, hscan]
        rfl
      · rw [contains_runBatch, hscan]
        rfl

/-- A transaction index entry that the batch erases is gone for `Read` and still there for `Exists`. -/
theorem not_readsYourWrites_erased :
    ¬ ∀ (pdb : TxDbKey → Option TxDbValue) (calls : List (DbCall TxDbKey TxDbValue)) (key : TxDbKey),
      ReadsYourWrites pdb calls key := by
  intro h
  let pdb : TxDbKey → Option TxDbValue := fun _ ↦ some (.txIndex ⟨⟨1, 8, 89⟩, []⟩)
  have hexists : (runBatch pdb [.erase (.tx 1)]).contains (.tx 1) = true := rfl
  have habsent := ((h pdb [.erase (.tx 1)] (.tx 1)).erased ⟨[], [], rfl, by simp⟩).2
  rw [habsent] at hexists
  cases hexists

end Electra.Ledger

import Mathlib.Data.List.Induction

/-!
# Key-value store with one pending write batch

A store holds its committed records and, while a transaction is open, the pending writes and
deletes in the order in which they were issued.  Reads scan the batch before they look at the
committed records.  What a reader can observe is one partial map, `read`, and every operation is
described by its effect on `read` and on the committed map `pdb`.
-/

namespace Electra.Foundations.WriteBatch

/-- Committed records and, inside a transaction, the pending operations; `none` is a delete. -/
structure Store (K V : Type*) where
  pdb : K → Option V
  activeBatch : Option (List (K × Option V))

variable {K V : Type*}

namespace Store

def txnBegin (store : Store K V) : Store K V := { store with activeBatch := some [] }

def txnAbort (store : Store K V) : Store K V := { store with activeBatch := none }

@[simp] theorem pdb_txnBegin (store : Store K V) : store.txnBegin.pdb = store.pdb := rfl

@[simp] theorem activeBatch_txnBegin (store : Store K V) :
    store.txnBegin.activeBatch = some [] := rfl

end Store

variable [DecidableEq K]

/-- The pending operation on `key` that was issued last. -/
def scanBatch (batch : List (K × Option V)) (key : K) : Option (Option V) :=
  batch.foldl (fun found op ↦ if op.1 = key then some op.2 else found) none

/-- A batch replayed on the committed records, in the order of its operations. -/
def replay (pdb : K → Option V) (batch : List (K × Option V)) : K → Option V :=
  batch.foldl (fun records op ↦ Function.update records op.1 op.2) pdb

namespace Store

/-- Reads see the pending operation on a key, if there is one, and the committed record else. -/
def read (store : Store K V) (key : K) : Option V :=
  match store.activeBatch with
  | none => store.pdb key
  | some batch => (scanBatch batch key).getD (store.pdb key)

/-- Existence test.  A pending delete does not stop it from looking at the committed records. -/
def contains (store : Store K V) (key : K) : Bool :=
  (store.activeBatch.any fun batch ↦ (scanBatch batch key).any Option.isSome) ||
    (store.pdb key).isSome

/-- A write (`some value`) or delete (`none`): deferred in a transaction, immediate otherwise. -/
def put (store : Store K V) (key : K) (value : Option V) : Store K V :=
  match store.activeBatch with
  | none => { store with pdb := Function.update store.pdb key value }
  | some batch => { store with activeBatch := some (batch ++ [(key, value)]) }

/-- Commit of the batch; the disk write either happens as a whole or not at all. -/
def txnCommit (fWritten : Bool) (store : Store K V) : Bool × Store K V :=
  (fWritten, { pdb := if fWritten then replay store.pdb (store.activeBatch.getD []) else store.pdb,
               activeBatch := none })

end Store

/-! ## Scanning and replaying -/

theorem scanBatch_append_singleton (batch : List (K × Option V)) (op : K × Option V) (key : K) :
    scanBatch (batch ++ [op]) key = if op.1 = key then some op.2 else scanBatch batch key := by
  simp [scanBatch, List.foldl_append]

@[simp]
theorem replay_nil (pdb : K → Option V) : replay pdb [] = pdb := rfl

theorem replay_append_singleton (pdb : K → Option V) (batch : List (K × Option V))
    (op : K × Option V) :
    replay pdb (batch ++ [op]) = Function.update (replay pdb batch) op.1 op.2 := by
  simp [replay, List.foldl_append]

/-- The last operation on a key decides what replaying a batch leaves there. -/
theorem replay_apply (pdb : K → Option V) (batch : List (K × Option V)) (key : K) :
    replay pdb batch key = (scanBatch batch key).getD (pdb key) := by
  induction batch using List.reverseRecOn with
  | nil => rfl
  | append_singleton batch op ih =>
    rw [replay_append_singleton, scanBatch_append_singleton, Function.update_apply]
    by_cases hkey : op.1 = key
    · rw [if_pos hkey.symm, if_pos hkey]
      rfl
    · rw [if_neg (Ne.symm hkey), if_neg hkey]
      exact ih

variable {key : K} {batch : List (K × Option V)}

/-- A scan finds the last operation on the key, whatever came before it. -/
theorem scanBatch_of_last (pre post : List (K × Option V)) (value : Option V)
    (hpost : ∀ op ∈ post, op.1 ≠ key) :
    scanBatch (pre ++ (key, value) :: post) key = some value := by
  induction post using List.reverseRecOn with
  | nil => rw [scanBatch_append_singleton, if_pos rfl]
  | append_singleton post op ih =>
    have hop : op.1 ≠ key := hpost op (by simp)
    have hrest := ih fun op' hop' ↦ hpost op' (List.mem_append_left _ hop')
    calc scanBatch (pre ++ (key, value) :: (post ++ [op])) key
        = scanBatch (pre ++ (key, value) :: post ++ [op]) key := by simp
      _ = scanBatch (pre ++ (key, value) :: post) key := by
          rw [scanBatch_append_singleton, if_neg hop]
      _ = some value := hrest

/-- Without an operation on the key there is nothing to find. -/
theorem scanBatch_eq_none (h : ∀ op ∈ batch, op.1 ≠ key) :
    scanBatch batch key = none := by
  induction batch using List.reverseRecOn with
  | nil => rfl
  | append_singleton batch op ih =>
    rw [scanBatch_append_singleton, if_neg (h op (by simp))]
    exact ih fun op' hop' ↦ h op' (List.mem_append_left _ hop')

namespace Store

/-! ## Effect of the operations on reads -/

variable {store : Store K V}

theorem read_of_noBatch (h : store.activeBatch = none) :
    store.read = store.pdb := by
  funext key
  simp [read, h]

theorem contains_of_noBatch (h : store.activeBatch = none) (key : K) :
    store.contains key = (store.read key).isSome := by
  simp [contains, read, h]

/-- The existence test sees a pending write and else the committed record. -/
theorem contains_of_batch (h : store.activeBatch = some batch) (key : K) :
    store.contains key = ((scanBatch batch key).any Option.isSome || (store.pdb key).isSome) := by
  simp [contains, h]

/-- A record that does not exist is not read. -/
theorem read_of_not_contains (h : store.contains key = false) :
    store.read key = none := by
  cases hbatch : store.activeBatch with
  | none => simpa [contains_of_noBatch hbatch] using h
  | some batch =>
    rw [contains_of_batch hbatch, Bool.or_eq_false_iff] at h
    obtain ⟨hpending, hcommitted⟩ := h
    have hpdb : store.pdb key = none := by simpa using hcommitted
    simp only [read, hbatch, hpdb]
    cases hscan : scanBatch batch key with
    | none => rfl
    | some value => simpa [hscan] using hpending

/-- Inside a transaction a reader sees what the commit would leave on disk. -/
theorem read_of_batch (h : store.activeBatch = some batch) : store.read = replay store.pdb batch := by
  funext key
  simp [read, h, replay_apply]

@[simp]
theorem read_put (store : Store K V) (key : K) (value : Option V) :
    (store.put key value).read = Function.update store.read key value := by
  cases hbatch : store.activeBatch with
  | none =>
    have hput : (store.put key value).activeBatch = none := by simp [put, hbatch]
    rw [read_of_noBatch hput, read_of_noBatch hbatch]
    simp [put, hbatch]
  | some batch =>
    have hput : (store.put key value).activeBatch = some (batch ++ [(key, value)]) := by
      simp [put, hbatch]
    rw [read_of_batch hput, read_of_batch hbatch, replay_append_singleton]
    simp [put, hbatch]

theorem pdb_put_of_batch (h : store.activeBatch ≠ none) (key : K) (value : Option V) :
    (store.put key value).pdb = store.pdb := by
  cases hbatch : store.activeBatch with
  | none => exact absurd hbatch h
  | some batch => simp [put, hbatch]

theorem activeBatch_put_of_batch (h : store.activeBatch ≠ none) (key : K) (value : Option V) :
    (store.put key value).activeBatch ≠ none := by
  cases hbatch : store.activeBatch with
  | none => exact absurd hbatch h
  | some batch => simp [put, hbatch]

theorem activeBatch_put (h : store.activeBatch = some batch) (key : K) (value : Option V) :
    (store.put key value).activeBatch = some (batch ++ [(key, value)]) := by
  simp [put, h]

@[simp] theorem read_txnBegin (store : Store K V) : store.txnBegin.read = store.pdb := by
  rw [read_of_batch (activeBatch_txnBegin store), replay_nil, pdb_txnBegin]

@[simp] theorem txnCommit_fst (fWritten : Bool) (store : Store K V) :
    (store.txnCommit fWritten).1 = fWritten := rfl

@[simp] theorem activeBatch_txnCommit (fWritten : Bool) (store : Store K V) :
    (store.txnCommit fWritten).2.activeBatch = none := rfl

/-- A written batch leaves on disk exactly what readers of the transaction saw. -/
theorem pdb_txnCommit_true (h : store.activeBatch ≠ none) :
    (store.txnCommit true).2.pdb = store.read := by
  cases hbatch : store.activeBatch with
  | none => exact absurd hbatch h
  | some batch => simp [txnCommit, read_of_batch hbatch, hbatch]

@[simp] theorem pdb_txnCommit_false (store : Store K V) :
    (store.txnCommit false).2.pdb = store.pdb := by
  simp [txnCommit]

end Store

end Electra.Foundations.WriteBatch

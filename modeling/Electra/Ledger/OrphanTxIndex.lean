import Electra.Chain.Builders
import Electra.Chain.Node
import Electra.Chain.OrphanTx

/-!
# The index of the orphan transactions

Every stored orphan is in the index under each transaction that it spends, and nothing else is.
Looking up an accepted transaction that no orphan waits for leaves an empty entry behind.
-/

namespace Electra.Ledger

open Chain Foundations.InverseIndex Foundations.Outcome

/-- The orphans under a transaction are the stored ones that spend it. -/
structure OrphanIndexed (P : ChainParams) (orphans : OrphanTxPool) : Prop where
  hash : ∀ hash tx, orphans.mapOrphanTransactions.lookup hash = some tx → P.hashTx tx = hash
  distinct : Distinct orphans.mapOrphanTransactionsByPrev
  mem_iff : ∀ hashPrev hash, hash ∈ under orphans.mapOrphanTransactionsByPrev hashPrev ↔
    ∃ tx, orphans.mapOrphanTransactions.lookup hash = some tx ∧ hashPrev ∈ tx.prevHashes

/-- A stored orphan spends an output of the transaction. -/
def Awaited (orphans : OrphanTxPool) (hashPrev : Uint256) : Prop :=
  ∃ hash tx, orphans.mapOrphanTransactions.lookup hash = some tx ∧ hashPrev ∈ tx.prevHashes

/-- The index has an entry for a transaction exactly if an orphan waits for it, and the entry is the
set of those orphans. -/
structure OrphanIndexExact (P : ChainParams) (orphans : OrphanTxPool) : Prop
    extends OrphanIndexed P orphans where
  noEmpty : NoEmpty orphans.mapOrphanTransactionsByPrev

variable {P : ChainParams} {orphans : OrphanTxPool}

theorem OrphanIndexed.ne_none_of_awaited (h : OrphanIndexed P orphans) {hashPrev : Uint256}
    (hawaited : Awaited orphans hashPrev) : orphans.mapOrphanTransactionsByPrev hashPrev ≠ none := by
  obtain ⟨hash, tx, hlookup, hmem⟩ := hawaited
  exact ne_none_of_mem_under ((h.mem_iff hashPrev hash).mpr ⟨tx, hlookup, hmem⟩)

theorem orphanIndexExact_empty (P : ChainParams) : OrphanIndexExact P .empty where
  hash _ _ h := by simp [OrphanTxPool.empty] at h
  distinct _ := by simp [OrphanTxPool.empty, under]
  mem_iff _ _ := by simp [OrphanTxPool.empty, under]
  noEmpty _ := by simp [OrphanTxPool.empty]

theorem OrphanIndexed.insert (h : OrphanIndexed P orphans) (tx : CTransaction)
    (hnew : orphans.mapOrphanTransactions.lookup (P.hashTx tx) = none) :
    OrphanIndexed P ⟨orphans.mapOrphanTransactions.insert (P.hashTx tx) tx,
      insertChild orphans.mapOrphanTransactionsByPrev (P.hashTx tx) tx.prevHashes⟩ where
  hash hash tx' hlookup := by
    by_cases heq : hash = P.hashTx tx
    · rw [heq, AList.lookup_insert, Option.some.injEq] at hlookup
      rw [heq, hlookup]
    · rw [AList.lookup_insert_ne heq] at hlookup
      exact h.hash hash tx' hlookup
  distinct := h.distinct.insertChild _ _
  mem_iff hashPrev hash := by
    rw [mem_under_insertChild, h.mem_iff]
    by_cases heq : hash = P.hashTx tx
    · subst heq
      simp [hnew]
    · simp [heq]

theorem OrphanIndexed.addOrphanTx (h : OrphanIndexed P orphans) (tx : CTransaction) :
    OrphanIndexed P (addOrphanTx P orphans tx).2 := by
  unfold Chain.addOrphanTx
  simp only
  split
  · exact h
  · next hnew =>
    split
    · exact h
    · exact h.insert tx (by simpa using hnew)

theorem OrphanIndexed.eraseOrphanTx (h : OrphanIndexed P orphans) (hash : Uint256) :
    OrphanIndexed P (eraseOrphanTx orphans hash) := by
  unfold Chain.eraseOrphanTx
  cases hstored : orphans.mapOrphanTransactions.lookup hash with
  | none => exact h
  | some tx =>
    refine ⟨?_, h.distinct.eraseChild _ _, ?_⟩
    · intro hash' tx' hlookup
      by_cases heq : hash' = hash
      · rw [heq, AList.lookup_erase] at hlookup
        cases hlookup
      · rw [AList.lookup_erase_ne heq] at hlookup
        exact h.hash hash' tx' hlookup
    · intro hashPrev hash'
      rw [mem_under_eraseChild h.distinct, h.mem_iff]
      by_cases heq : hash' = hash
      · subst heq
        simp [hstored]
      · simp [heq]

theorem noEmpty_addOrphanTx (h : NoEmpty orphans.mapOrphanTransactionsByPrev) (tx : CTransaction) :
    NoEmpty (addOrphanTx P orphans tx).2.mapOrphanTransactionsByPrev := by
  unfold Chain.addOrphanTx
  simp only
  split
  · exact h
  · split
    · exact h
    · exact h.insertChild _ _

theorem noEmpty_eraseOrphanTx (h : NoEmpty orphans.mapOrphanTransactionsByPrev) (hash : Uint256) :
    NoEmpty (eraseOrphanTx orphans hash).mapOrphanTransactionsByPrev := by
  unfold Chain.eraseOrphanTx
  cases orphans.mapOrphanTransactions.lookup hash with
  | none => exact h
  | some tx => exact h.eraseChild _ _

theorem OrphanIndexExact.addOrphanTx (h : OrphanIndexExact P orphans) (tx : CTransaction) :
    OrphanIndexExact P (addOrphanTx P orphans tx).2 :=
  ⟨h.toOrphanIndexed.addOrphanTx tx, noEmpty_addOrphanTx h.noEmpty tx⟩

theorem OrphanIndexExact.eraseOrphanTx (h : OrphanIndexExact P orphans) (hash : Uint256) :
    OrphanIndexExact P (eraseOrphanTx orphans hash) :=
  ⟨h.toOrphanIndexed.eraseOrphanTx hash, noEmpty_eraseOrphanTx h.noEmpty hash⟩

theorem mem_of_lowerBoundOrBegin {keys : List Uint256} {randomhash hash : Uint256}
    (h : lowerBoundOrBegin keys randomhash = some hash) : hash ∈ keys := by
  unfold lowerBoundOrBegin at h
  have hmem := List.argmin_mem (Option.mem_def.mpr h)
  split at hmem
  · exact hmem
  · exact List.mem_of_mem_filter hmem

theorem lowerBoundOrBegin_eq_none {keys : List Uint256} {randomhash : Uint256}
    (h : lowerBoundOrBegin keys randomhash = none) : keys = [] := by
  unfold lowerBoundOrBegin at h
  rw [List.argmin_eq_none] at h
  split at h
  · exact h
  · next hne => exact absurd (List.isEmpty_iff.mpr h) hne

theorem size_eq_length_keys (orphans : OrphanTxPool) :
    orphans.size = orphans.mapOrphanTransactions.keys.length := by
  simp [OrphanTxPool.size, AList.keys, List.keys]

theorem size_eraseOrphanTx {hash : Uint256} (h : hash ∈ orphans.mapOrphanTransactions.keys) :
    (eraseOrphanTx orphans hash).size + 1 = orphans.size := by
  have hsome := AList.lookup_isSome.mpr (AList.mem_keys.mpr h)
  obtain ⟨tx, hlookup⟩ := Option.isSome_iff_exists.mp hsome
  rw [size_eq_length_keys, size_eq_length_keys, Chain.eraseOrphanTx, hlookup]
  calc (orphans.mapOrphanTransactions.erase hash).keys.length + 1
      = (orphans.mapOrphanTransactions.keys.erase hash).length + 1 := by rw [AList.keys_erase]
    _ = orphans.mapOrphanTransactions.keys.length - 1 + 1 := by rw [List.length_erase_of_mem h]
    _ = orphans.mapOrphanTransactions.keys.length := Nat.sub_add_cancel (List.length_pos_of_mem h)

/-- What the evictions keep, the erasures of stored orphans keep. -/
theorem evictOrphans_invariant (Inv : OrphanTxPool → Prop)
    (herase : ∀ orphans hash, Inv orphans → Inv (eraseOrphanTx orphans hash))
    (getRandHash : ℕ → Uint256) (nMaxOrphans nSize nEvicted : ℕ) (h : Inv orphans) :
    Inv (evictOrphans getRandHash nMaxOrphans nSize nEvicted orphans).2 := by
  induction nSize generalizing nEvicted orphans with
  | zero => exact h
  | succ nSize ih =>
    rw [evictOrphans]
    split
    · split
      · exact h
      · exact ih _ (herase _ _ h)
    · exact h

theorem size_evictOrphans (getRandHash : ℕ → Uint256) (nMaxOrphans nSize nEvicted : ℕ)
    (h : orphans.size ≤ nMaxOrphans + nSize) :
    (evictOrphans getRandHash nMaxOrphans nSize nEvicted orphans).2.size ≤ nMaxOrphans := by
  induction nSize generalizing nEvicted orphans with
  | zero => exact h
  | succ nSize ih =>
    rw [evictOrphans]
    split
    · next hmany =>
      cases hhash : lowerBoundOrBegin orphans.mapOrphanTransactions.keys (getRandHash nEvicted) with
      | none =>
        have hkeys := lowerBoundOrBegin_eq_none hhash
        rw [size_eq_length_keys, hkeys] at hmany
        cases hmany
      | some hash =>
        have hsize := size_eraseOrphanTx (mem_of_lowerBoundOrBegin hhash)
        exact ih _ (by omega)
    · next hfew => exact Nat.le_of_not_lt hfew

theorem size_limitOrphanTxSize (getRandHash : ℕ → Uint256) (orphans : OrphanTxPool) (nMaxOrphans : ℕ) :
    (limitOrphanTxSize getRandHash orphans nMaxOrphans).2.size ≤ nMaxOrphans :=
  size_evictOrphans getRandHash nMaxOrphans _ 0 (Nat.le_add_left _ _)

section Resolve

variable (files : BlockFiles) (txdb : CTxDB) (pindexBest : PIndex) (tx : CTransaction)
  {mapOrphanTransactions : AList fun _ : Uint256 ↦ CTransaction}

/-- One orphan: the index stays, and what is accepted is noted in the queue. -/
structure NotesAccepted (P : ChainParams) (progress progress' : TxProgress) : Prop where
  byPrev : progress'.mapOrphanTransactionsByPrev = progress.mapOrphanTransactionsByPrev
  accepted : ∃ vtx, progress'.vAccepted = progress.vAccepted ++ vtx ∧
    progress'.vWorkQueue = progress.vWorkQueue ++ vtx.map P.hashTx

theorem NotesAccepted.refl (P : ChainParams) (progress : TxProgress) : NotesAccepted P progress progress :=
  ⟨rfl, [], by simp, by simp⟩

theorem NotesAccepted.trans {progress progress' progress'' : TxProgress}
    (h : NotesAccepted P progress progress') (h' : NotesAccepted P progress' progress'') :
    NotesAccepted P progress progress'' := by
  obtain ⟨vtx, hvtx, hqueue⟩ := h.accepted
  obtain ⟨vtx', hvtx', hqueue'⟩ := h'.accepted
  refine ⟨h'.byPrev.trans h.byPrev, vtx ++ vtx', ?_, ?_⟩
  · rw [hvtx', hvtx, List.append_assoc]
  · rw [hqueue', hqueue, List.map_append, List.append_assoc]

theorem acceptOrphan_notes
    (hhash : ∀ hash tx, mapOrphanTransactions.lookup hash = some tx → P.hashTx tx = hash)
    (progress : TxProgress) (orphanTxHash : Uint256) : NotesAccepted P progress
      (acceptOrphan P files txdb pindexBest tx mapOrphanTransactions progress orphanTxHash) := by
  unfold acceptOrphan
  cases hlookup : mapOrphanTransactions.lookup orphanTxHash with
  | none => exact .refl P progress
  | some orphanTx =>
    obtain rfl := hhash _ _ hlookup
    simp only
    split
    · exact ⟨rfl, [orphanTx], rfl, rfl⟩
    · split
      · exact .refl P progress
      · exact ⟨rfl, [], by simp, by simp⟩

theorem foldl_acceptOrphan_notes
    (hhash : ∀ hash tx, mapOrphanTransactions.lookup hash = some tx → P.hashTx tx = hash)
    (hashes : List Uint256) (progress : TxProgress) : NotesAccepted P progress
      (hashes.foldl (acceptOrphan P files txdb pindexBest tx mapOrphanTransactions) progress) := by
  induction hashes generalizing progress with
  | nil => exact .refl P progress
  | cons hash hashes ih => exact (acceptOrphan_notes files txdb pindexBest tx hhash progress hash).trans (ih _)

/-- The queue only names accepted transactions. -/
def QueueAccepted (P : ChainParams) (progress : TxProgress) : Prop :=
  ∀ hash ∈ progress.vWorkQueue, ∃ tx ∈ progress.vAccepted, P.hashTx tx = hash

theorem QueueAccepted.notes {progress progress' : TxProgress} (h : QueueAccepted P progress)
    (hnotes : NotesAccepted P progress progress') : QueueAccepted P progress' := by
  obtain ⟨vtx, hvtx, hqueue⟩ := hnotes.accepted
  intro hash hhash
  rw [hqueue] at hhash
  rw [hvtx]
  rcases List.mem_append.mp hhash with hold | hnew
  · obtain ⟨tx, htx, heq⟩ := h hash hold
    exact ⟨tx, List.mem_append_left _ htx, heq⟩
  · obtain ⟨tx, htx, heq⟩ := List.mem_map.mp hnew
    exact ⟨tx, List.mem_append_right _ htx, heq⟩

/-- One turn: a transaction is looked up and taken from the queue. -/
theorem acceptOrphansOf_notes
    (hhash : ∀ hash tx, mapOrphanTransactions.lookup hash = some tx → P.hashTx tx = hash)
    (progress : TxProgress) (hashPrev : Uint256) : NotesAccepted P
      { progress with mapOrphanTransactionsByPrev := lookUp progress.mapOrphanTransactionsByPrev hashPrev }
      (acceptOrphansOf P files txdb pindexBest tx mapOrphanTransactions progress hashPrev) :=
  foldl_acceptOrphan_notes files txdb pindexBest tx hhash _ _

theorem mem_vAccepted_resolveOrphans
    (hhash : ∀ hash tx, mapOrphanTransactions.lookup hash = some tx → P.hashTx tx = hash)
    (nOrphans : ℕ) {progress : TxProgress} {tx' : CTransaction} (htx' : tx' ∈ progress.vAccepted) :
    tx' ∈ (resolveOrphans P files txdb pindexBest tx mapOrphanTransactions nOrphans
      progress).vAccepted := by
  induction nOrphans generalizing progress with
  | zero => exact htx'
  | succ nOrphans ih =>
    rw [resolveOrphans]
    cases hqueue : progress.vWorkQueue with
    | nil => exact htx'
    | cons hashPrev vWorkQueue =>
      obtain ⟨vtx, hvtx, -⟩ := (acceptOrphansOf_notes files txdb pindexBest tx hhash
        { progress with vWorkQueue } hashPrev).accepted
      apply ih
      rw [hvtx]
      exact List.mem_append_left _ htx'

/-- Loop rule for the work queue: what looking up accepted transactions keeps, the queue keeps. -/
theorem resolveOrphans_invariant (Inv : ChildIndex Uint256 → Prop)
    (hhash : ∀ hash tx, mapOrphanTransactions.lookup hash = some tx → P.hashTx tx = hash)
    (nOrphans : ℕ) {progress : TxProgress} (haccepted : QueueAccepted P progress)
    (hturn : ∀ index, ∀ tx' ∈ (resolveOrphans P files txdb pindexBest tx mapOrphanTransactions nOrphans
      progress).vAccepted, Inv index → Inv (lookUp index (P.hashTx tx')))
    (h : Inv progress.mapOrphanTransactionsByPrev) :
    Inv (resolveOrphans P files txdb pindexBest tx mapOrphanTransactions nOrphans
      progress).mapOrphanTransactionsByPrev := by
  induction nOrphans generalizing progress with
  | zero => exact h
  | succ nOrphans ih =>
    rw [resolveOrphans] at hturn ⊢
    cases hqueue : progress.vWorkQueue with
    | nil => exact h
    | cons hashPrev vWorkQueue =>
      simp only [hqueue] at hturn ⊢
      have hnotes := acceptOrphansOf_notes files txdb pindexBest tx hhash
        { progress with vWorkQueue } hashPrev
      obtain ⟨tx', htx', heq⟩ := haccepted hashPrev (by rw [hqueue]; exact List.mem_cons_self)
      have hrest : QueueAccepted P { progress with
          vWorkQueue
          mapOrphanTransactionsByPrev := lookUp progress.mapOrphanTransactionsByPrev hashPrev } :=
        fun hash hhash ↦ haccepted hash (by rw [hqueue]; exact List.mem_cons_of_mem _ hhash)
      apply ih (hrest.notes hnotes) hturn
      obtain ⟨vtx, hvtx, -⟩ := hnotes.accepted
      rw [hnotes.byPrev, ← heq]
      apply hturn _ tx' _ h
      apply mem_vAccepted_resolveOrphans files txdb pindexBest tx hhash
      rw [hvtx]
      exact List.mem_append_left _ htx'

end Resolve

theorem queueAccepted_startProgress (st : NodeState) (orphans : OrphanTxPool) (mempool : CTxMemPool)
    (tx : CTransaction) : QueueAccepted P (startProgress P st orphans mempool tx) := by
  intro hash hhash
  exact ⟨tx, List.mem_singleton_self tx, (List.mem_singleton.mp hhash).symm⟩

theorem OrphanIndexed.lookUp {index : ChildIndex Uint256}
    (h : OrphanIndexed P ⟨orphans.mapOrphanTransactions, index⟩) (hashPrev : Uint256) :
    OrphanIndexed P ⟨orphans.mapOrphanTransactions, lookUp index hashPrev⟩ where
  hash := h.hash
  distinct := h.distinct.lookUp hashPrev
  mem_iff hashPrev' hash := by
    rw [under_lookUp]
    exact h.mem_iff hashPrev' hash

/-- Erasing orphans one after the other. -/
theorem foldl_eraseOrphanTx_invariant (Inv : OrphanTxPool → Prop)
    (herase : ∀ orphans hash, Inv orphans → Inv (Chain.eraseOrphanTx orphans hash))
    (hashes : List Uint256) (h : Inv orphans) : Inv (hashes.foldl Chain.eraseOrphanTx orphans) := by
  induction hashes generalizing orphans with
  | nil => exact h
  | cons hash hashes ih => exact ih (herase orphans hash h)

/-- Every transaction that the handling of a message accepts is one that a stored orphan spends. -/
def AcceptsAwaited (P : ChainParams) (getRandHash : ℕ → Uint256) (files : BlockFiles) (st : NodeState)
    (orphans : OrphanTxPool) (tx : CTransaction) : Prop :=
  ∀ tx' ∈ (processTx P getRandHash files st orphans tx).vAccepted, Awaited orphans (P.hashTx tx')

/-- A message that the pool does not take keeps what additions and erasures keep. -/
theorem processTx_invariant (Inv : OrphanTxPool → Prop) (getRandHash : ℕ → Uint256)
    (files : BlockFiles) (st : NodeState) (tx : CTransaction) (h : Inv orphans)
    (hadd : ∀ orphans tx, Inv orphans → Inv (Chain.addOrphanTx P orphans tx).2)
    (herase : ∀ orphans hash, Inv orphans → Inv (Chain.eraseOrphanTx orphans hash))
    (hresolved : ∀ mempool, st.mempool.accept P files st.txdb st.pindexBest tx true = .ok mempool →
      Inv ⟨orphans.mapOrphanTransactions,
        (resolved P files st orphans mempool tx).mapOrphanTransactionsByPrev⟩) :
    Inv (processTx P getRandHash files st orphans tx).orphans := by
  unfold processTx
  cases haccept : st.mempool.accept P files st.txdb st.pindexBest tx true with
  | ok mempool => exact foldl_eraseOrphanTx_invariant Inv herase _ (hresolved mempool haccept)
  | error failure =>
    obtain ⟨fMissingInputs, reject⟩ := failure
    simp only
    split
    · exact evictOrphans_invariant Inv herase _ _ _ _ (hadd orphans tx h)
    · exact h

theorem OrphanIndexed.processTx (h : OrphanIndexed P orphans) (getRandHash : ℕ → Uint256)
    (files : BlockFiles) (st : NodeState) (tx : CTransaction) :
    OrphanIndexed P (processTx P getRandHash files st orphans tx).orphans := by
  apply processTx_invariant (OrphanIndexed P) getRandHash files st tx h
    (fun _ tx h ↦ h.addOrphanTx tx) (fun _ hash h ↦ h.eraseOrphanTx hash)
  intro mempool _
  exact resolveOrphans_invariant files st.txdb st.pindexBest tx
    (fun index ↦ OrphanIndexed P ⟨orphans.mapOrphanTransactions, index⟩) h.hash _
    (queueAccepted_startProgress st orphans mempool tx)
    (fun index tx' _ hindex ↦ OrphanIndexed.lookUp hindex (P.hashTx tx')) h

/-- Looking up transactions that orphans wait for leaves the index as it is. -/
theorem OrphanIndexExact.processTx (h : OrphanIndexExact P orphans) {getRandHash : ℕ → Uint256}
    {files : BlockFiles} {st : NodeState} {tx : CTransaction}
    (hawaited : AcceptsAwaited P getRandHash files st orphans tx) :
    OrphanIndexExact P (processTx P getRandHash files st orphans tx).orphans := by
  apply processTx_invariant (OrphanIndexExact P) getRandHash files st tx h
    (fun _ tx h ↦ h.addOrphanTx tx) (fun _ hash h ↦ h.eraseOrphanTx hash)
  intro mempool haccept
  have hvAccepted : (Chain.processTx P getRandHash files st orphans tx).vAccepted =
      (resolved P files st orphans mempool tx).vAccepted := by
    rw [Chain.processTx, haccept]
  have hindex : (resolved P files st orphans mempool tx).mapOrphanTransactionsByPrev =
      orphans.mapOrphanTransactionsByPrev := by
    apply resolveOrphans_invariant files st.txdb st.pindexBest tx
      (fun index ↦ index = orphans.mapOrphanTransactionsByPrev) h.hash _
      (queueAccepted_startProgress st orphans mempool tx) _ rfl
    rintro _ tx' htx' rfl
    exact lookUp_eq_self (h.ne_none_of_awaited (hawaited tx' (by rw [hvAccepted]; exact htx')))
  rw [hindex]
  exact h

inductive OrphanEvent
  | addOrphanTx (tx : CTransaction)
  | eraseOrphanTx (hash : Uint256)
  | limitOrphanTxSize (getRandHash : ℕ → Uint256) (nMaxOrphans : ℕ)
  | tx (getRandHash : ℕ → Uint256) (files : BlockFiles) (st : NodeState) (tx : CTransaction)

def handleOrphanEvent (P : ChainParams) (orphans : OrphanTxPool) : OrphanEvent → OrphanTxPool
  | .addOrphanTx tx => (Chain.addOrphanTx P orphans tx).2
  | .eraseOrphanTx hash => Chain.eraseOrphanTx orphans hash
  | .limitOrphanTxSize getRandHash nMaxOrphans => (limitOrphanTxSize getRandHash orphans nMaxOrphans).2
  | .tx getRandHash files st tx => (Chain.processTx P getRandHash files st orphans tx).orphans

/-- The pools that a run leads to if its events meet a condition; the node may be in any state
whenever a message arrives. -/
inductive OrphanRun (P : ChainParams) (Meets : OrphanTxPool → OrphanEvent → Prop) : OrphanTxPool → Prop
  | start : OrphanRun P Meets .empty
  | event {orphans : OrphanTxPool} (event : OrphanEvent) (run : OrphanRun P Meets orphans)
      (meets : Meets orphans event) : OrphanRun P Meets (handleOrphanEvent P orphans event)

/-- The transactions that a message leads to are awaited by orphans. -/
def MessageAwaited (P : ChainParams) (orphans : OrphanTxPool) : OrphanEvent → Prop
  | .tx getRandHash files st tx => AcceptsAwaited P getRandHash files st orphans tx
  | _ => True

theorem OrphanRun.indexed {Meets : OrphanTxPool → OrphanEvent → Prop} (h : OrphanRun P Meets orphans) :
    OrphanIndexed P orphans := by
  induction h with
  | start => exact (orphanIndexExact_empty P).toOrphanIndexed
  | @event orphans event _ _ ih =>
    cases event with
    | addOrphanTx tx => exact ih.addOrphanTx tx
    | eraseOrphanTx hash => exact ih.eraseOrphanTx hash
    | limitOrphanTxSize getRandHash nMaxOrphans =>
      exact evictOrphans_invariant (OrphanIndexed P) (fun _ hash h ↦ h.eraseOrphanTx hash) _ _ _ _ ih
    | tx getRandHash files st tx => exact ih.processTx getRandHash files st tx

/-- If all accepted transactions are awaited, the index is exact in every state of a run; a limit on
the number of orphans is always kept. -/
theorem orphanIndexExact_of_run (h : OrphanRun P (MessageAwaited P) orphans) :
    OrphanIndexExact P orphans ∧ ∀ getRandHash nMaxOrphans,
      (limitOrphanTxSize getRandHash orphans nMaxOrphans).2.size ≤ nMaxOrphans := by
  refine ⟨?_, fun getRandHash nMaxOrphans ↦ size_limitOrphanTxSize getRandHash orphans nMaxOrphans⟩
  induction h with
  | start => exact orphanIndexExact_empty P
  | @event orphans event _ meets ih =>
    cases event with
    | addOrphanTx tx => exact ih.addOrphanTx tx
    | eraseOrphanTx hash => exact ih.eraseOrphanTx hash
    | limitOrphanTxSize getRandHash nMaxOrphans =>
      exact evictOrphans_invariant (OrphanIndexExact P) (fun _ hash h ↦ h.eraseOrphanTx hash) _ _ _ _ ih
    | tx getRandHash files st tx => exact ih.processTx meets

namespace OrphanExample

open Builders

def files : BlockFiles := ⟨fun _ _ ↦ none, fun _ _ ↦ none, fun _ _ ↦ none⟩

def parent : CTransaction := spending 1 0 [⟨7, 0⟩] [output (4 * COIN)]

def child : CTransaction := spending 2 0 [⟨1, 0⟩] [output (3 * COIN)]

/-- Waits for `child` only. -/
def grandchild : CTransaction := spending 3 0 [⟨2, 0⟩] [output (2 * COIN)]

/-- Waits for `child` and for a transaction that does not arrive. -/
def blocked : CTransaction := spending 4 0 [⟨2, 0⟩, ⟨9, 0⟩] [output (2 * COIN)]

/-- A node with `parent` in its memory pool. -/
def st : NodeState := { emptyNode [] with mempool := CTxMemPool.empty.addUnchecked 1 parent }

def waiting (tx : CTransaction) : OrphanTxPool := (addOrphanTx (network true) .empty tx).2

def received (orphans : OrphanTxPool) : OrphanTxPool :=
  (processTx (network true) (fun _ ↦ 0) files st orphans child).orphans

theorem run_waiting (tx : CTransaction) :
    OrphanRun (network true) (MessageAwaited (network true)) (waiting tx) :=
  .event (.addOrphanTx tx) .start trivial

theorem awaited_blocked : AcceptsAwaited (network true) (fun _ ↦ 0) files st (waiting blocked) child := by
  have haccepted : (processTx (network true) (fun _ ↦ 0) files st (waiting blocked) child).vAccepted =
      [child] := by decide
  intro tx' htx'
  rw [haccepted] at htx'
  obtain rfl := List.mem_singleton.mp htx'
  exact ⟨4, blocked, by decide, by decide⟩

end OrphanExample

/-- An orphan that still waits after the message keeps the entry of the accepted transaction. -/
theorem orphanIndexExact_example :
    OrphanIndexExact (Builders.network true) (OrphanExample.received (OrphanExample.waiting
        OrphanExample.blocked)) ∧
      (OrphanExample.received (OrphanExample.waiting
        OrphanExample.blocked)).mapOrphanTransactionsByPrev 2 = some [4] :=
  ⟨(orphanIndexExact_of_run (.event (.tx (fun _ ↦ 0) OrphanExample.files OrphanExample.st
      OrphanExample.child) (OrphanExample.run_waiting _) OrphanExample.awaited_blocked)).1,
    by decide⟩

/-- An accepted transaction that no orphan waits for leaves an empty entry. -/
theorem not_orphanIndexExact_unawaited :
    ¬ ∀ orphans, OrphanRun (Builders.network true) (fun _ _ ↦ True) orphans →
      OrphanIndexExact (Builders.network true) orphans := by
  intro h
  have hrun : OrphanRun (Builders.network true) (fun _ _ ↦ True) (OrphanExample.received .empty) :=
    .event (.tx (fun _ ↦ 0) OrphanExample.files OrphanExample.st OrphanExample.child) .start trivial
  have hentry : (OrphanExample.received .empty).mapOrphanTransactionsByPrev 2 = some [] := by
    decide
  exact (h _ hrun).noEmpty 2 hentry

end Electra.Ledger

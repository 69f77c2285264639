import Electra.Ledger.OrphanTxIndex
import Electra.Ledger.PoolDescendants

/-!
# Orphan transactions and the wallets

When a `tx` message makes the pool accept orphans too, `SyncWithWallets` is called for the
transaction of the message each time.  So the wallets hear of exactly the accepted transactions only
if no orphan is among them.
-/

namespace Electra.Ledger

open Chain Foundations.InverseIndex Foundations.Outcome

variable {P : ChainParams} {files : BlockFiles} {txdb : CTxDB} {pindexBest : PIndex}
  {pool pool' : CTxMemPool} {tx tx' : CTransaction} {orphans : OrphanTxPool} {st : NodeState}

/-- `FetchInputs` finds the transaction, in the tx index with its block or in the memory pool. -/
def Available (files : BlockFiles) (txdb : CTxDB) (pool : CTxMemPool) (hash : Uint256) : Prop :=
  match txdb.readTxIndex hash with
  | none => (pool.mapTx.lookup hash).isSome
  | some txindex =>
      if txindex.pos = .memoryPool then (pool.mapTx.lookup hash).isSome
      else (files.readTx txindex.pos.nFile txindex.pos.nTxPos).isSome

/-- Transactions that the pool has after the handling of a message and did not have before. -/
def AddedBy (P : ChainParams) (st : NodeState) (result : TxResult) (tx' : CTransaction) : Prop :=
  ¬ InPool P st.mempool tx' ∧ InPool P result.st.mempool tx'

/-- The wallets are told once of each added transaction, and no orphan that is left has all its inputs
thanks to an added transaction. -/
structure SyncedAndResolved (P : ChainParams) (files : BlockFiles) (st : NodeState)
    (result : TxResult) : Prop where
  synced : ∀ tx', AddedBy P st result tx' → result.vSynced.count tx' = 1
  resolved : ∀ hash orphanTx, result.orphans.mapOrphanTransactions.lookup hash = some orphanTx →
    ∀ tx', AddedBy P st result tx' → P.hashTx tx' ∈ orphanTx.prevHashes →
      ∃ hashPrev ∈ orphanTx.prevHashes, ¬ Available files result.st.txdb result.st.mempool hashPrev

/-- If the pool takes the transaction, it refuses every stored orphan that spends it. -/
def RefusesOrphans (P : ChainParams) (files : BlockFiles) (st : NodeState) (orphans : OrphanTxPool)
    (tx : CTransaction) : Prop :=
  ∀ mempool, st.mempool.accept P files st.txdb st.pindexBest tx true = .ok mempool →
    ∀ hash orphanTx, orphans.mapOrphanTransactions.lookup hash = some orphanTx →
      P.hashTx tx ∈ orphanTx.prevHashes →
        (mempool.accept P files st.txdb st.pindexBest orphanTx true).isOk = false

theorem accept_eq_addUnchecked {fCheckInputs : Bool}
    (h : pool.accept P files txdb pindexBest tx fCheckInputs = .ok pool') :
    pool.mapTx.lookup (P.hashTx tx) = none ∧ pool' = pool.addUnchecked (P.hashTx tx) tx := by
  simp only [CTxMemPool.accept, bind_eq_ok, rejectIf_eq_ok, mapError_eq_ok, checkWhen_eq_ok,
    pure_eq_ok] at h
  obtain ⟨-, -, -, -, -, -, -, -, -, -, -, hnew, -, -, -, -, -, -, rfl⟩ := h
  exact ⟨by simpa using hnew, rfl⟩

theorem inPool_accept {fCheckInputs : Bool}
    (h : pool.accept P files txdb pindexBest tx fCheckInputs = .ok pool') :
    InPool P pool' tx' ↔ tx' = tx ∨ InPool P pool tx' := by
  obtain ⟨hnew, rfl⟩ := accept_eq_addUnchecked h
  exact inPool_addUnchecked hnew

/-- An input that cannot be fetched is not available. -/
theorem not_available_of_fetchInput {inputs : MapPrevTx} {prevout : COutPoint} {failure : Bool × Reject}
    (h : fetchInput files txdb pool.mapTx.lookup ∅ false false inputs prevout = .error failure) :
    ¬ Available files txdb pool prevout.hash := by
  unfold fetchInput at h
  split at h
  · cases h
  · unfold Available
    simp only [findTxIndex, Bool.or_self, Bool.false_eq_true, if_false] at h
    cases hindex : txdb.readTxIndex prevout.hash with
    | none =>
      simp only [hindex] at h
      rcases bind_eq_error.mp h with hfetch | ⟨txPrev, -, hok⟩
      · rw [(require_eq_error.mp hfetch).1]
        simp
      · cases hok
    | some txindex =>
      simp only [hindex] at h ⊢
      split at h
      · next hpool =>
        rw [if_pos hpool]
        rcases bind_eq_error.mp h with hfetch | ⟨txPrev, -, hok⟩
        · rw [(require_eq_error.mp hfetch).1]
          simp
        · cases hok
      · next hdisk =>
        rw [if_neg hdisk]
        rcases bind_eq_error.mp h with hfetch | ⟨txPrev, -, hok⟩
        · rw [(require_eq_error.mp hfetch).1]
          simp
        · cases hok

/-- Inputs that cannot all be fetched, without being invalid, have one that is not available. -/
theorem exists_not_available_of_fetchInputs {reject : Reject}
    (h : fetchInputs files txdb pool.mapTx.lookup ∅ false false tx = .error (false, reject)) :
    ∃ hashPrev ∈ tx.prevHashes, ¬ Available files txdb pool hashPrev := by
  unfold fetchInputs at h
  split at h
  · cases h
  · rcases bind_eq_error.mp h with hloop | ⟨inputs, -, hrange⟩
    · obtain ⟨pre, prevout, post, inputs, hvin, -, hfail⟩ := foldlM_eq_error hloop
      refine ⟨prevout.hash, ?_, not_available_of_fetchInput hfail⟩
      have hmem : prevout ∈ tx.vin.map CTxIn.prevout := by
        rw [hvin]
        exact List.mem_append_right _ List.mem_cons_self
      obtain ⟨txin, htxin, rfl⟩ := List.mem_map.mp hmem
      exact List.mem_map_of_mem htxin
    · rcases bind_eq_error.mp hrange with hbad | ⟨u, -, hok⟩
      · obtain ⟨-, hpair⟩ := rejectIf_eq_error.mp hbad
        cases hpair
      · cases hok

/-- A transaction with missing inputs has one that is not available. -/
theorem exists_not_available {reject : Reject}
    (h : pool.accept P files txdb pindexBest tx true = .error (true, reject)) :
    ∃ hashPrev ∈ tx.prevHashes, ¬ Available files txdb pool hashPrev := by
  have hinputs : CTxMemPool.checkInputs P files txdb pindexBest pool tx = .error (true, reject) := by
    simp only [CTxMemPool.accept, bind_eq_error, rejectIf_eq_error, mapError_eq_error,
      Prod.mk.injEq, Bool.false_eq_true, false_and, and_false, exists_false, false_or,
      checkWhen, if_true] at h
    obtain ⟨-, -, -, -, -, -, -, -, -, -, -, -, -, -, -, -, hinputs | ⟨-, -, hok⟩⟩ := h
    · exact hinputs
    · cases hok
  have hfetch : ∃ failure, fetchInputs files txdb pool.mapTx.lookup ∅ false false tx = .error failure ∧
      failure.1 = false := by
    simp only [CTxMemPool.checkInputs, bind_eq_error, rejectIf_eq_error, mapError_eq_error,
      Prod.mk.injEq, Bool.false_eq_true, false_and, and_false, exists_false] at hinputs
    rcases hinputs with ⟨failure, hfail, heq⟩ | hrest
    · refine ⟨failure, hfail, ?_⟩
      cases hinvalid : failure.1 with
      | false => rfl
      | true => simp [hinvalid] at heq
    · simp [pure, Except.pure] at hrest
  obtain ⟨⟨fInvalid, reject'⟩, hfail, rfl⟩ := hfetch
  exact exists_not_available_of_fetchInputs hfail

section Resolve

variable {mapOrphanTransactions : AList fun _ : Uint256 ↦ CTransaction}

/-- The pool only grows, and the wallets are only told of the transaction of the message. -/
structure Grows (P : ChainParams) (tx : CTransaction) (progress progress' : TxProgress) : Prop where
  inPool : ∀ tx', InPool P progress.mempool tx' → InPool P progress'.mempool tx'
  vSynced : ∀ tx' ∈ progress'.vSynced, tx' ∈ progress.vSynced ∨ tx' = tx

theorem Grows.refl (P : ChainParams) (tx : CTransaction) (progress : TxProgress) :
    Grows P tx progress progress :=
  ⟨fun _ h ↦ h, fun _ h ↦ .inl h⟩

variable {progress : TxProgress}

theorem Grows.trans {progress' progress'' : TxProgress} (h : Grows P tx progress progress')
    (h' : Grows P tx progress' progress'') : Grows P tx progress progress'' where
  inPool tx' hin := h'.inPool tx' (h.inPool tx' hin)
  vSynced tx' htx' := by
    rcases h'.vSynced tx' htx' with hmem | rfl
    · exact h.vSynced tx' hmem
    · exact .inr rfl

theorem grows_acceptOrphan (progress : TxProgress) (hash : Uint256) : Grows P tx progress
    (acceptOrphan P files txdb pindexBest tx mapOrphanTransactions progress hash) := by
  unfold acceptOrphan
  cases mapOrphanTransactions.lookup hash with
  | none => exact .refl P tx progress
  | some orphanTx =>
    simp only
    split
    · next mempool haccept =>
      refine ⟨fun tx' hin ↦ (inPool_accept haccept).mpr (.inr hin), fun tx' htx' ↦ ?_⟩
      rcases List.mem_append.mp htx' with hold | hnew
      · exact .inl hold
      · exact .inr (List.mem_singleton.mp hnew)
    · split
      · exact .refl P tx progress
      · exact ⟨fun _ h ↦ h, fun _ h ↦ .inl h⟩

theorem grows_foldl_acceptOrphan (hashes : List Uint256) (progress : TxProgress) : Grows P tx progress
    (hashes.foldl (acceptOrphan P files txdb pindexBest tx mapOrphanTransactions) progress) := by
  induction hashes generalizing progress with
  | nil => exact .refl P tx progress
  | cons hash hashes ih => exact (grows_acceptOrphan progress hash).trans (ih _)

theorem grows_acceptOrphansOf (progress : TxProgress) (hashPrev : Uint256) : Grows P tx progress
    (acceptOrphansOf P files txdb pindexBest tx mapOrphanTransactions progress hashPrev) := by
  have hlookUp : Grows P tx progress { progress with
      mapOrphanTransactionsByPrev := lookUp progress.mapOrphanTransactionsByPrev hashPrev } :=
    ⟨fun _ h ↦ h, fun _ h ↦ .inl h⟩
  exact hlookUp.trans (grows_foldl_acceptOrphan _ _)

theorem grows_resolveOrphans (nOrphans : ℕ) (progress : TxProgress) : Grows P tx progress
    (resolveOrphans P files txdb pindexBest tx mapOrphanTransactions nOrphans progress) := by
  induction nOrphans generalizing progress with
  | zero => exact .refl P tx progress
  | succ nOrphans ih =>
    rw [resolveOrphans]
    cases hqueue : progress.vWorkQueue with
    | nil => exact .refl P tx progress
    | cons hashPrev vWorkQueue =>
      have hpop : Grows P tx progress { progress with vWorkQueue } :=
        ⟨fun _ h ↦ h, fun _ h ↦ .inl h⟩
      exact hpop.trans ((grows_acceptOrphansOf _ hashPrev).trans (ih _))

/-- Orphans that the pool refuses only get into the erase queue, unless inputs are missing. -/
structure Refuses (P : ChainParams) (files : BlockFiles) (txdb : CTxDB) (pindexBest : PIndex)
    (mapOrphanTransactions : AList fun _ : Uint256 ↦ CTransaction) (progress progress' : TxProgress)
    (hashes : List Uint256) : Prop where
  same : ∃ vEraseQueue, progress' = { progress with vEraseQueue }
  kept : ∀ hash ∈ progress.vEraseQueue, hash ∈ progress'.vEraseQueue
  missing : ∀ hash ∈ hashes, ∀ orphanTx, mapOrphanTransactions.lookup hash = some orphanTx →
    hash ∈ progress'.vEraseQueue ∨ ∃ reject,
      progress.mempool.accept P files txdb pindexBest orphanTx true = .error (true, reject)

/-- An orphan is refused. -/
theorem refuses_acceptOrphan {hash : Uint256}
    (h : ∀ orphanTx, mapOrphanTransactions.lookup hash = some orphanTx →
      (progress.mempool.accept P files txdb pindexBest orphanTx true).isOk = false) :
    Refuses P files txdb pindexBest mapOrphanTransactions progress
      (acceptOrphan P files txdb pindexBest tx mapOrphanTransactions progress hash) [hash] := by
  unfold acceptOrphan
  cases hlookup : mapOrphanTransactions.lookup hash with
  | none => exact ⟨⟨_, rfl⟩, fun _ h ↦ h, by simp [hlookup]⟩
  | some orphanTx =>
    have hrefused := h orphanTx hlookup
    simp only
    cases haccept : progress.mempool.accept P files txdb pindexBest orphanTx true with
    | ok mempool =>
      rw [haccept] at hrefused
      cases hrefused
    | error failure =>
      obtain ⟨fMissingInputs, reject⟩ := failure
      cases fMissingInputs with
      | true =>
        refine ⟨⟨_, rfl⟩, fun _ h ↦ h, ?_⟩
        intro hash' hmem orphanTx' hlookup'
        obtain rfl := List.mem_singleton.mp hmem
        rw [hlookup, Option.some.injEq] at hlookup'
        exact .inr ⟨reject, hlookup' ▸ haccept⟩
      | false =>
        refine ⟨⟨_, rfl⟩, fun _ h ↦ List.mem_append_left _ h, ?_⟩
        intro hash' hmem orphanTx' hlookup'
        exact .inl (List.mem_append_right _ hmem)

theorem refuses_foldl_acceptOrphan (hashes : List Uint256)
    (h : ∀ hash ∈ hashes, ∀ orphanTx, mapOrphanTransactions.lookup hash = some orphanTx →
      (progress.mempool.accept P files txdb pindexBest orphanTx true).isOk = false) :
    Refuses P files txdb pindexBest mapOrphanTransactions progress
      (hashes.foldl (acceptOrphan P files txdb pindexBest tx mapOrphanTransactions) progress) hashes := by
  induction hashes generalizing progress with
  | nil => exact ⟨⟨_, rfl⟩, fun _ h ↦ h, by simp⟩
  | cons hash hashes ih =>
    have hone : Refuses P files txdb pindexBest mapOrphanTransactions progress
        (acceptOrphan P files txdb pindexBest tx mapOrphanTransactions progress hash) [hash] :=
      refuses_acceptOrphan (h hash List.mem_cons_self)
    obtain ⟨vEraseQueue, hsame⟩ := hone.same
    have hmempool : (acceptOrphan P files txdb pindexBest tx mapOrphanTransactions progress
        hash).mempool = progress.mempool := by rw [hsame]
    have hrefused : ∀ hash' ∈ hashes, ∀ orphanTx, mapOrphanTransactions.lookup hash' = some orphanTx →
        ((acceptOrphan P files txdb pindexBest tx mapOrphanTransactions progress hash).mempool.accept P
          files txdb pindexBest orphanTx true).isOk = false := by
      rw [hmempool]
      exact fun hash' hmem ↦ h hash' (List.mem_cons_of_mem _ hmem)
    have hrest := ih hrefused
    obtain ⟨vEraseQueue', hsame'⟩ := hrest.same
    rw [List.foldl_cons]
    refine ⟨⟨vEraseQueue', by rw [hsame', hsame]⟩, fun hash' hmem ↦ hrest.kept _ (hone.kept _ hmem), ?_⟩
    intro hash' hmem orphanTx hlookup
    rcases List.mem_cons.mp hmem with rfl | hmem
    · rcases hone.missing hash' (List.mem_singleton_self hash') orphanTx hlookup with hqueued | hmissing
      · exact .inl (hrest.kept hash' hqueued)
      · exact .inr hmissing
    · rw [← hmempool]
      exact hrest.missing hash' hmem orphanTx hlookup

/-- If the pool takes one of the orphans, one gets into it that it did not have. -/
theorem exists_inPool_foldl_acceptOrphan (hashes : List Uint256) {hash : Uint256} (hmem : hash ∈ hashes)
    {orphanTx : CTransaction} (hlookup : mapOrphanTransactions.lookup hash = some orphanTx)
    (hok : (progress.mempool.accept P files txdb pindexBest orphanTx true).isOk = true) :
    ∃ tx', progress.mempool.mapTx.lookup (P.hashTx tx') = none ∧
      InPool P (hashes.foldl (acceptOrphan P files txdb pindexBest tx mapOrphanTransactions)
        progress).mempool tx' := by
  induction hashes generalizing progress with
  | nil => cases hmem
  | cons first hashes ih =>
    rw [List.foldl_cons]
    cases hfirst : mapOrphanTransactions.lookup first with
    | none =>
      have hskip : acceptOrphan P files txdb pindexBest tx mapOrphanTransactions progress first =
          progress := by rw [acceptOrphan, hfirst]
      rw [hskip]
      rcases List.mem_cons.mp hmem with rfl | hmem
      · rw [hlookup] at hfirst
        cases hfirst
      · exact ih hmem hok
    | some firstTx =>
      cases haccept : progress.mempool.accept P files txdb pindexBest firstTx true with
      | ok mempool =>
        have hnext : (acceptOrphan P files txdb pindexBest tx mapOrphanTransactions progress
            first).mempool = mempool := by
          simp only [acceptOrphan, hfirst, haccept]
          rfl
        refine ⟨firstTx, (accept_eq_addUnchecked haccept).1, ?_⟩
        apply (grows_foldl_acceptOrphan hashes _).inPool
        rw [hnext]
        exact (inPool_accept haccept).mpr (.inl rfl)
      | error failure =>
        have hrefused : Refuses P files txdb pindexBest mapOrphanTransactions progress
            (acceptOrphan P files txdb pindexBest tx mapOrphanTransactions progress first) [first] := by
          apply refuses_acceptOrphan
          intro orphanTx' hlookup'
          rw [hfirst, Option.some.injEq] at hlookup'
          rw [← hlookup', haccept]
          rfl
        obtain ⟨vEraseQueue, hsame⟩ := hrefused.same
        have hmempool : (acceptOrphan P files txdb pindexBest tx mapOrphanTransactions progress
            first).mempool = progress.mempool := by rw [hsame]
        rcases List.mem_cons.mp hmem with rfl | hmem
        · rw [hlookup, Option.some.injEq] at hfirst
          rw [hfirst, haccept] at hok
          cases hok
        · rw [← hmempool] at hok ⊢
          exact ih hmem hok

end Resolve

theorem lookup_eraseOrphanTx {hash hash' : Uint256} {orphanTx : CTransaction}
    (h : (eraseOrphanTx orphans hash).mapOrphanTransactions.lookup hash' = some orphanTx) :
    hash' ≠ hash ∧ orphans.mapOrphanTransactions.lookup hash' = some orphanTx := by
  unfold eraseOrphanTx at h
  cases hstored : orphans.mapOrphanTransactions.lookup hash with
  | none =>
    rw [hstored] at h
    refine ⟨?_, h⟩
    rintro rfl
    rw [hstored] at h
    cases h
  | some tx =>
    rw [hstored] at h
    by_cases heq : hash' = hash
    · subst heq
      rw [AList.lookup_erase] at h
      cases h
    · rw [AList.lookup_erase_ne heq] at h
      exact ⟨heq, h⟩

theorem lookup_foldl_eraseOrphanTx (hashes : List Uint256) {hash' : Uint256} {orphanTx : CTransaction}
    (h : (hashes.foldl eraseOrphanTx orphans).mapOrphanTransactions.lookup hash' = some orphanTx) :
    hash' ∉ hashes ∧ orphans.mapOrphanTransactions.lookup hash' = some orphanTx := by
  induction hashes generalizing orphans with
  | nil => exact ⟨List.not_mem_nil, h⟩
  | cons hash hashes ih =>
    obtain ⟨hnot, hrest⟩ := ih h
    obtain ⟨hne, hlookup⟩ := lookup_eraseOrphanTx hrest
    exact ⟨fun hmem ↦ (List.mem_cons.mp hmem).elim hne hnot, hlookup⟩

/-- The progress of a message when the orphans that wait for its transaction are offered. -/
def firstTurn (P : ChainParams) (st : NodeState) (orphans : OrphanTxPool) (mempool : CTxMemPool)
    (tx : CTransaction) : TxProgress :=
  { startProgress P st orphans mempool tx with
    vWorkQueue := []
    mapOrphanTransactionsByPrev := lookUp orphans.mapOrphanTransactionsByPrev (P.hashTx tx) }

/-- The first turn of the work queue, and the rest. -/
theorem resolved_eq (files : BlockFiles) (st : NodeState) (orphans : OrphanTxPool)
    (mempool : CTxMemPool) (tx : CTransaction) : resolved P files st orphans mempool tx =
      resolveOrphans P files st.txdb st.pindexBest tx orphans.mapOrphanTransactions orphans.size
        ((under orphans.mapOrphanTransactionsByPrev (P.hashTx tx)).foldl
          (acceptOrphan P files st.txdb st.pindexBest tx orphans.mapOrphanTransactions)
          (firstTurn P st orphans mempool tx)) := rfl

theorem resolveOrphans_of_nil {mapOrphanTransactions : AList fun _ : Uint256 ↦ CTransaction}
    (nOrphans : ℕ) {progress : TxProgress} (h : progress.vWorkQueue = []) :
    resolveOrphans P files txdb pindexBest tx mapOrphanTransactions nOrphans progress = progress := by
  cases nOrphans with
  | zero => rfl
  | succ nOrphans => rw [resolveOrphans, h]

/-- If the pool refuses all orphans that wait for the transaction, the queue has one turn. -/
theorem resolved_of_refuses {mempool : CTxMemPool} (hindexed : OrphanIndexed P orphans)
    (h : RefusesOrphans P files st orphans tx)
    (haccept : st.mempool.accept P files st.txdb st.pindexBest tx true = .ok mempool) :
    Refuses P files st.txdb st.pindexBest orphans.mapOrphanTransactions
      (firstTurn P st orphans mempool tx) (resolved P files st orphans mempool tx)
      (under orphans.mapOrphanTransactionsByPrev (P.hashTx tx)) := by
  have hturn : Refuses P files st.txdb st.pindexBest orphans.mapOrphanTransactions
      (firstTurn P st orphans mempool tx)
      ((under orphans.mapOrphanTransactionsByPrev (P.hashTx tx)).foldl
        (acceptOrphan P files st.txdb st.pindexBest tx orphans.mapOrphanTransactions)
        (firstTurn P st orphans mempool tx))
      (under orphans.mapOrphanTransactionsByPrev (P.hashTx tx)) := by
    apply refuses_foldl_acceptOrphan
    intro hash hmem orphanTx hlookup
    obtain ⟨orphanTx', hlookup', hspends⟩ := (hindexed.mem_iff _ _).mp hmem
    rw [hlookup, Option.some.injEq] at hlookup'
    exact h mempool haccept hash orphanTx hlookup (hlookup' ▸ hspends)
  obtain ⟨vEraseQueue, hsame⟩ := hturn.same
  rw [resolved_eq, resolveOrphans_of_nil _ (by rw [hsame]; rfl)]
  exact hturn

/-- Without orphans among the accepted transactions the wallets hear of all of them, and no orphan
that could be accepted is left. -/
theorem syncedAndResolved_of_refuses (hindexed : OrphanIndexed P orphans)
    (h : RefusesOrphans P files st orphans tx) (getRandHash : ℕ → Uint256) :
    SyncedAndResolved P files st (processTx P getRandHash files st orphans tx) := by
  cases haccept : st.mempool.accept P files st.txdb st.pindexBest tx true with
  | error failure =>
    have hst : (processTx P getRandHash files st orphans tx).st = st := by
      rw [processTx, haccept]
    have hnone : ∀ tx', ¬ AddedBy P st (processTx P getRandHash files st orphans tx) tx' := by
      rintro tx' ⟨hnot, hin⟩
      rw [hst] at hin
      exact hnot hin
    exact ⟨fun tx' hadded ↦ absurd hadded (hnone tx'),
      fun _ _ _ tx' hadded ↦ absurd hadded (hnone tx')⟩
  | ok mempool =>
    have hrefuses := resolved_of_refuses hindexed h haccept
    obtain ⟨vEraseQueue, hsame⟩ := hrefuses.same
    have hresult : processTx P getRandHash files st orphans tx =
        { st := { st with
            mempool := mempool
            setpwalletRegistered := (resolved P files st orphans mempool tx).setpwalletRegistered }
          orphans := (resolved P files st orphans mempool tx).vEraseQueue.foldl eraseOrphanTx
            { orphans with mapOrphanTransactionsByPrev :=
                (resolved P files st orphans mempool tx).mapOrphanTransactionsByPrev }
          vSynced := [tx]
          vAccepted := [tx] } := by
      rw [processTx, haccept]
      simp only
      rw [hsame]
      rfl
    have hadded : ∀ tx', AddedBy P st (processTx P getRandHash files st orphans tx) tx' → tx' = tx := by
      rintro tx' ⟨hnot, hin⟩
      rw [hresult] at hin
      exact ((inPool_accept haccept).mp hin).resolve_right hnot
    constructor
    · intro tx' htx'
      rw [hadded tx' htx', hresult]
      exact List.count_singleton_self
    · intro hash orphanTx hleft tx' htx' hspends
      rw [hadded tx' htx'] at hspends
      rw [hresult] at hleft ⊢
      obtain ⟨hkept, hlookup⟩ := lookup_foldl_eraseOrphanTx _ hleft
      have hwaits := (hindexed.mem_iff (P.hashTx tx) hash).mpr ⟨orphanTx, hlookup, hspends⟩
      rcases hrefuses.missing hash hwaits orphanTx hlookup with hqueued | ⟨reject, hmissing⟩
      · exact absurd hqueued hkept
      · exact exists_not_available hmissing

/-- An accepted orphan is in the pool at the end, and the wallets are not told of it. -/
theorem not_syncedAndResolved {mempool : CTxMemPool} {hash : Uint256} {orphanTx : CTransaction}
    (hindexed : OrphanIndexed P orphans)
    (haccept : st.mempool.accept P files st.txdb st.pindexBest tx true = .ok mempool)
    (hlookup : orphans.mapOrphanTransactions.lookup hash = some orphanTx)
    (hspends : P.hashTx tx ∈ orphanTx.prevHashes)
    (hok : (mempool.accept P files st.txdb st.pindexBest orphanTx true).isOk = true)
    (getRandHash : ℕ → Uint256) :
    ¬ SyncedAndResolved P files st (processTx P getRandHash files st orphans tx) := by
  intro hsync
  have hwaits : hash ∈ under orphans.mapOrphanTransactionsByPrev (P.hashTx tx) :=
    (hindexed.mem_iff _ _).mpr ⟨orphanTx, hlookup, hspends⟩
  have htaken : ∃ tx',
      (firstTurn P st orphans mempool tx).mempool.mapTx.lookup (P.hashTx tx') = none ∧ InPool P ((under orphans.mapOrphanTransactionsByPrev (P.hashTx tx)).foldl
        (acceptOrphan P files st.txdb st.pindexBest tx orphans.mapOrphanTransactions)
        (firstTurn P st orphans mempool tx)).mempool tx' :=
    exists_inPool_foldl_acceptOrphan _ hwaits hlookup hok
  obtain ⟨tx', hturn, hin⟩ := htaken
  have hnew : mempool.mapTx.lookup (P.hashTx tx') = none := hturn
  have hgrows : Grows P tx (startProgress P st orphans mempool tx)
      (resolved P files st orphans mempool tx) := by
    rw [resolved]
    exact grows_resolveOrphans _ _
  have hresolved : InPool P (resolved P files st orphans mempool tx).mempool tx' := by
    rw [resolved_eq]
    exact (grows_resolveOrphans _ _).inPool tx' hin
  have hother : tx' ≠ tx := by
    rintro rfl
    have htx := (inPool_accept haccept).mpr (.inl rfl)
    rw [InPool, hnew] at htx
    cases htx
  have hold : ¬ InPool P st.mempool tx' := by
    intro hold
    have hkept := (inPool_accept haccept).mpr (.inr hold)
    rw [InPool, hnew] at hkept
    cases hkept
  have hresult : (processTx P getRandHash files st orphans tx).st.mempool =
        (resolved P files st orphans mempool tx).mempool ∧
      (processTx P getRandHash files st orphans tx).vSynced =
        (resolved P files st orphans mempool tx).vSynced := by
    rw [processTx, haccept]
    exact ⟨rfl, rfl⟩
  have hcount := hsync.synced tx' ⟨hold, by rw [hresult.1]; exact hresolved⟩
  have hmem : tx' ∈ (resolved P files st orphans mempool tx).vSynced := by
    rw [hresult.2] at hcount
    exact List.count_pos_iff.mp (by omega)
  rcases hgrows.vSynced tx' hmem with hstart | heq
  · exact hother (List.mem_singleton.mp hstart)
  · exact hother heq

/-- The wallets hear exactly once of each transaction that a message adds to the pool, and no orphan
is left waiting for one of them, if and only if the pool takes no orphan that waits for the message's
transaction. -/
theorem syncedAndResolved_iff {Meets : OrphanTxPool → OrphanEvent → Prop}
    (hrun : OrphanRun P Meets orphans) (getRandHash : ℕ → Uint256) (files : BlockFiles)
    (st : NodeState) (tx : CTransaction) :
    SyncedAndResolved P files st (processTx P getRandHash files st orphans tx) ↔
      RefusesOrphans P files st orphans tx := by
  constructor
  · intro hsync mempool haccept hash orphanTx hlookup hspends
    by_contra hok
    rw [Bool.not_eq_false] at hok
    exact not_syncedAndResolved hrun.indexed haccept hlookup hspends hok getRandHash hsync
  · intro hrefuses
    exact syncedAndResolved_of_refuses hrun.indexed hrefuses getRandHash

theorem OrphanExample.refuses_blocked : RefusesOrphans (Builders.network true) OrphanExample.files
    OrphanExample.st (waiting blocked) child := by
  intro mempool haccept hash orphanTx hlookup _
  have hone : hash = 4 ∧ orphanTx = blocked := by
    have hmap : (waiting blocked).mapOrphanTransactions = AList.insert 4 blocked ∅ := rfl
    rw [hmap] at hlookup
    by_cases heq : hash = 4
    · subst heq
      rw [AList.lookup_insert, Option.some.injEq] at hlookup
      exact ⟨rfl, hlookup.symm⟩
    · rw [AList.lookup_insert_ne heq, AList.lookup_empty] at hlookup
      cases hlookup
  obtain ⟨rfl, rfl⟩ := hone
  obtain ⟨-, rfl⟩ := accept_eq_addUnchecked haccept
  decide

/-- An orphan that is refused keeps waiting, and the wallets hear of the one accepted transaction. -/
theorem syncedAndResolved_example :
    SyncedAndResolved (Builders.network true) OrphanExample.files OrphanExample.st
        (processTx (Builders.network true) (fun _ ↦ 0) OrphanExample.files OrphanExample.st
          (OrphanExample.waiting OrphanExample.blocked) OrphanExample.child) ∧
      AddedBy (Builders.network true) OrphanExample.st
        (processTx (Builders.network true) (fun _ ↦ 0) OrphanExample.files OrphanExample.st
          (OrphanExample.waiting OrphanExample.blocked) OrphanExample.child) OrphanExample.child :=
  ⟨(syncedAndResolved_iff (OrphanExample.run_waiting _) _ _ _ _).mpr OrphanExample.refuses_blocked,
    by decide, by decide⟩

/-- An accepted orphan is not told to the wallets; the transaction of the message is told twice. -/
theorem not_syncedAndResolved_orphan :
    ¬ ∀ orphans, OrphanRun (Builders.network true) (fun _ _ ↦ True) orphans → ∀ tx,
      SyncedAndResolved (Builders.network true) OrphanExample.files OrphanExample.st
        (processTx (Builders.network true) (fun _ ↦ 0) OrphanExample.files OrphanExample.st orphans tx) := by
  intro h
  have hrun : OrphanRun (Builders.network true) (fun _ _ ↦ True)
      (OrphanExample.waiting OrphanExample.grandchild) :=
    .event (.addOrphanTx OrphanExample.grandchild) .start trivial
  have hadded : AddedBy (Builders.network true) OrphanExample.st
      (processTx (Builders.network true) (fun _ ↦ 0) OrphanExample.files OrphanExample.st
        (OrphanExample.waiting OrphanExample.grandchild) OrphanExample.child) OrphanExample.grandchild :=
    ⟨by decide, by decide⟩
  have hcount := (h _ hrun OrphanExample.child).synced OrphanExample.grandchild hadded
  have hnone : (processTx (Builders.network true) (fun _ ↦ 0) OrphanExample.files OrphanExample.st
      (OrphanExample.waiting OrphanExample.grandchild) OrphanExample.child).vSynced.count
        OrphanExample.grandchild = 0 := by decide
  rw [hnone] at hcount
  cases hcount

end Electra.Ledger

import Electra.Ledger.ConnectSpec
import Electra.Chain.BestChain

/-!
# Connecting and disconnecting as steps of the index

A successful `ConnectBlock` enters the transactions of the block into the transaction index, a
successful `DisconnectBlock` removes them in reverse order.  Neither touches the tip, the pool or,
while a database transaction is open, the committed records.
-/

namespace Electra.Ledger

open Chain Foundations.SpendIndex Foundations.Outcome Foundations.WriteBatch

variable {P : ChainParams}

/-- The committed records and the records of the tip are as before. -/
structure TxDbFrame (txdb txdb' : CTxDB) : Prop where
  batch : txdb.activeBatch ≠ none → txdb'.activeBatch ≠ none
  pdb : txdb.activeBatch ≠ none → txdb'.pdb = txdb.pdb
  hashBestChain : txdb'.read .hashBestChain = txdb.read .hashBestChain
  bnBestInvalidTrust : txdb'.read .bnBestInvalidTrust = txdb.read .bnBestInvalidTrust

theorem TxDbFrame.refl (txdb : CTxDB) : TxDbFrame txdb txdb := ⟨id, fun _ ↦ rfl, rfl, rfl⟩

variable {txdb txdb' : CTxDB} {st st' : NodeState} {block : CBlock} {pindex : PIndex}
  {tx : CTransaction}

theorem TxDbFrame.trans {txdb'' : CTxDB} (h : TxDbFrame txdb txdb') (h' : TxDbFrame txdb' txdb'') :
    TxDbFrame txdb txdb'' where
  batch hopen := h'.batch (h.batch hopen)
  pdb hopen := (h'.pdb (h.batch hopen)).trans (h.pdb hopen)
  hashBestChain := h'.hashBestChain.trans h.hashBestChain
  bnBestInvalidTrust := h'.bnBestInvalidTrust.trans h.bnBestInvalidTrust

theorem TxDbFrame.put (txdb : CTxDB) {key : TxDbKey} (value : Option TxDbValue)
    (hbest : key ≠ .hashBestChain) (htrust : key ≠ .bnBestInvalidTrust) :
    TxDbFrame txdb (txdb.put key value) where
  batch hopen := Store.activeBatch_put_of_batch hopen key value
  pdb hopen := Store.pdb_put_of_batch hopen key value
  hashBestChain := by rw [Store.read_put, Function.update_of_ne (Ne.symm hbest)]
  bnBestInvalidTrust := by rw [Store.read_put, Function.update_of_ne (Ne.symm htrust)]

theorem TxDbFrame.updateTxIndex (txdb : CTxDB) (hash : Uint256) (txindex : CTxIndex) :
    TxDbFrame txdb (txdb.updateTxIndex hash txindex) := .put txdb _ (by simp) (by simp)

theorem TxDbFrame.writeQueuedChanges (txdb : CTxDB) (mapQueuedChanges : MapTxIndex) :
    TxDbFrame txdb (writeQueuedChanges txdb mapQueuedChanges) := by
  unfold Chain.writeQueuedChanges
  induction mapQueuedChanges.entries generalizing txdb with
  | nil => exact .refl txdb
  | cons change changes ih => exact (TxDbFrame.updateTxIndex txdb change.1 change.2).trans (ih _)

/-- The tip, the pool and the shape of the block index are as before. -/
structure NodeFrame (st st' : NodeState) : Prop where
  mapBlockIndex : st'.mapBlockIndex = st.mapBlockIndex
  pnext : st'.pnext = st.pnext
  pindexGenesisBlock : st'.pindexGenesisBlock = st.pindexGenesisBlock
  pindexBest : st'.pindexBest = st.pindexBest
  hashBestChain : st'.hashBestChain = st.hashBestChain
  nBestHeight : st'.nBestHeight = st.nBestHeight
  nBestChainTrust : st'.nBestChainTrust = st.nBestChainTrust
  nBestInvalidTrust : st'.nBestInvalidTrust = st.nBestInvalidTrust
  mempool : st'.mempool = st.mempool
  txdb : TxDbFrame st.txdb st'.txdb

theorem NodeFrame.refl (st : NodeState) : NodeFrame st st :=
  ⟨rfl, rfl, rfl, rfl, rfl, rfl, rfl, rfl, rfl, .refl _⟩

theorem NodeFrame.trans {st'' : NodeState} (h : NodeFrame st st') (h' : NodeFrame st' st'') :
    NodeFrame st st'' where
  mapBlockIndex := h'.mapBlockIndex.trans h.mapBlockIndex
  pnext := h'.pnext.trans h.pnext
  pindexGenesisBlock := h'.pindexGenesisBlock.trans h.pindexGenesisBlock
  pindexBest := h'.pindexBest.trans h.pindexBest
  hashBestChain := h'.hashBestChain.trans h.hashBestChain
  nBestHeight := h'.nBestHeight.trans h.nBestHeight
  nBestChainTrust := h'.nBestChainTrust.trans h.nBestChainTrust
  nBestInvalidTrust := h'.nBestInvalidTrust.trans h.nBestInvalidTrust
  mempool := h'.mempool.trans h.mempool
  txdb := h.txdb.trans h'.txdb

variable (st pindex) (hashNext : Uint256)

theorem NodeFrame.writeBlockIndex :
    NodeFrame st (st.writeBlockIndex pindex hashNext) := by
  cases pindex with
  | nil => exact .refl st
  | cons index pprev =>
    exact ⟨rfl, rfl, rfl, rfl, rfl, rfl, rfl, rfl, rfl, .put _ _ (by simp) (by simp)⟩

@[simp]
theorem readTxIndex_writeBlockIndex :
    (st.writeBlockIndex pindex hashNext).txdb.readTxIndex = st.txdb.readTxIndex := by
  cases pindex with
  | nil => rfl
  | cons index pprev => exact CTxDB.readTxIndex_writeBlockIndex _ _

theorem nMint_writeBlockIndex :
    (st.writeBlockIndex pindex hashNext).nMint = st.nMint ∧
      (st.writeBlockIndex pindex hashNext).nMoneySupply = st.nMoneySupply := by
  cases pindex <;> exact ⟨rfl, rfl⟩

variable {st pindex}

/-- The spenders a block adds to the index when it is connected at its place. -/
def spendersOf (P : ChainParams) (block : CBlock) (pindex : PIndex) :
    List (Spender Uint256 CDiskTxPos) :=
  (block.located pindex false).map (spenderOf P)

theorem map_id_spendersOf (block : CBlock) (pindex : PIndex) :
    (spendersOf P block pindex).map Spender.id = block.vtx.map P.hashTx := by
  have hfst := map_fst_located block pindex false
  rw [spendersOf, List.map_map, ← hfst, List.map_map]
  rfl

/-- The mint and the supply of a block as `ConnectBlock` records them. -/
def mintOf (sums : ConnectSums) : ℤ := sums.nValueOut - sums.nValueIn + sums.nFees

def supplyOf (st : NodeState) (pindex : PIndex) (sums : ConnectSums) : ℤ :=
  (if pindex.tail = [] then 0 else st.nMoneySupply pindex.tail) + sums.nValueOut - sums.nValueIn

/-- What a successful `ConnectBlock` does to the state. -/
structure Connects (P : ChainParams) (env : Env) (st st' : NodeState) (block : CBlock)
    (pindex : PIndex) (sums : ConnectSums) : Prop where
  checked : block.Checked P
  all : ConnectsAll P env.files st (block.located pindex false) sums
  reward : checkReward P env.files st block sums = .ok ()
  frame : NodeFrame st st'
  txindex : st'.txdb.readTxIndex = applyAll st.txdb.readTxIndex (spendersOf P block pindex)
  nMint : st'.nMint = Function.update st.nMint pindex (mintOf sums)
  nMoneySupply : st'.nMoneySupply = Function.update st.nMoneySupply pindex (supplyOf st pindex sums)

theorem recordMint_frame (st : NodeState) (pindex : PIndex) (sums : ConnectSums) :
    NodeFrame st (recordMint st pindex sums) := by
  have hfields : NodeFrame st { st with
      nMint := Function.update st.nMint pindex (mintOf sums)
      nMoneySupply := Function.update st.nMoneySupply pindex (supplyOf st pindex sums) } :=
    ⟨rfl, rfl, rfl, rfl, rfl, rfl, rfl, rfl, rfl, .refl _⟩
  exact hfields.trans (NodeFrame.writeBlockIndex _ pindex _)

theorem enterBlock_frame (st : NodeState) (block : CBlock) (pindex : PIndex) (sums : ConnectSums) :
    NodeFrame st (enterBlock P st block pindex sums) := by
  have hwrite : NodeFrame st { st with txdb := writeQueuedChanges st.txdb sums.mapQueuedChanges } :=
    ⟨rfl, rfl, rfl, rfl, rfl, rfl, rfl, rfl, rfl, .writeQueuedChanges _ _⟩
  have hlink := hwrite.trans (NodeFrame.writeBlockIndex _ pindex.tail pindex.getBlockHash)
  exact ⟨hlink.mapBlockIndex, hlink.pnext, hlink.pindexGenesisBlock, hlink.pindexBest,
    hlink.hashBestChain, hlink.nBestHeight, hlink.nBestChainTrust, hlink.nBestInvalidTrust,
    hlink.mempool, hlink.txdb⟩

theorem connectBlock_eq_ok {env : Env} (h : connectBlock P env st block pindex false = .ok st') :
    ∃ sums, Connects P env st st' block pindex sums := by
  simp only [connectBlock, bind_eq_ok, pure_eq_ok, Bool.false_eq_true, if_false] at h
  obtain ⟨sums, hchecks, rfl⟩ := h
  obtain ⟨hchecked, hall, hreward⟩ := connectChecks_spec hchecks
  refine ⟨sums, hchecked, hall, hreward,
    (recordMint_frame st pindex sums).trans (enterBlock_frame _ block pindex sums), ?_, ?_, ?_⟩
  · have hrecord : (recordMint st pindex sums).txdb.readTxIndex = st.txdb.readTxIndex :=
      readTxIndex_writeBlockIndex _ _ _
    calc (enterBlock P (recordMint st pindex sums) block pindex sums).txdb.readTxIndex
        = (writeQueuedChanges (recordMint st pindex sums).txdb sums.mapQueuedChanges).readTxIndex :=
          readTxIndex_writeBlockIndex _ _ _
      _ = overlay sums.mapQueuedChanges st.txdb.readTxIndex := by
          rw [readTxIndex_writeQueuedChanges, hrecord]
      _ = applyAll st.txdb.readTxIndex (spendersOf P block pindex) := hall.index
  · exact (nMint_writeBlockIndex _ _ _).1.trans (nMint_writeBlockIndex _ _ _).1
  · exact (nMint_writeBlockIndex _ _ _).2.trans (nMint_writeBlockIndex _ _ _).2

/-- A mere check leaves the transaction index alone. -/
theorem connectBlock_justCheck {env : Env} (h : connectBlock P env st block pindex true = .ok st') :
    st'.txdb.readTxIndex = st.txdb.readTxIndex := by
  simp only [connectBlock, bind_eq_ok, pure_eq_ok, if_true] at h
  obtain ⟨sums, -, rfl⟩ := h
  exact readTxIndex_writeBlockIndex _ _ _

/-- The record of an outpoint exists and has that output. -/
def InRange (index : TxIndexView) (prevout : COutPoint) : Prop :=
  ∃ txindex, index prevout.hash = some txindex ∧ prevout.n < txindex.vSpent.length

theorem disconnectInput_eq_ok {prevout : COutPoint} :
    disconnectInput txdb prevout = .ok txdb' ↔
      InRange txdb.readTxIndex prevout ∧ ∃ txindex, txdb.readTxIndex prevout.hash = some txindex ∧
        txdb' = txdb.updateTxIndex prevout.hash
          { txindex with vSpent := txindex.vSpent.set prevout.n none } := by
  simp only [disconnectInput, bind_eq_ok, require_eq_ok, rejectIf_eq_ok, pure_eq_ok, exists_const]
  constructor
  · rintro ⟨txindex, hindex, hrange, rfl⟩
    exact ⟨⟨txindex, hindex, not_le.mp hrange⟩, txindex, hindex, rfl⟩
  · rintro ⟨⟨txindex, hindex, hrange⟩, txindex', hindex', rfl⟩
    obtain rfl : txindex = txindex' := Option.some.inj (hindex.symm.trans hindex')
    exact ⟨txindex, hindex, not_le.mpr hrange, rfl⟩

theorem inRange_setMark {mark : Option CDiskTxPos} {index : TxIndexView} {o o' : COutPoint} :
    InRange (setMark mark index o) o' ↔ InRange index o' := by
  unfold InRange
  rw [setMark_eq_markAll]
  simp only [markAll, Option.map_eq_some_iff]
  constructor
  · rintro ⟨txindex, ⟨old, hold, rfl⟩, hrange⟩
    exact ⟨old, hold, by simpa using hrange⟩
  · rintro ⟨old, hold, hrange⟩
    exact ⟨_, ⟨old, hold, rfl⟩, by simpa using hrange⟩

theorem InRange.isSome {index : TxIndexView} {o : COutPoint} (h : InRange index o) :
    index o.hash ≠ none := by
  obtain ⟨txindex, hindex, -⟩ := h
  simp [hindex]

/-- Taking marks back succeeds just when all the outputs are there. -/
theorem foldlM_disconnectInput {prevouts : List COutPoint} :
    (∀ txdb', prevouts.foldlM disconnectInput txdb = .ok txdb' →
      (∀ o ∈ prevouts, InRange txdb.readTxIndex o) ∧ TxDbFrame txdb txdb' ∧
        txdb'.readTxIndex = prevouts.foldl (setMark none) txdb.readTxIndex) ∧
    ((∀ o ∈ prevouts, InRange txdb.readTxIndex o) →
      ∃ txdb', prevouts.foldlM disconnectInput txdb = .ok txdb') := by
  induction prevouts generalizing txdb with
  | nil =>
    refine ⟨?_, fun _ ↦ ⟨txdb, rfl⟩⟩
    intro txdb' h
    rw [List.foldlM_nil, pure_eq_ok] at h
    subst h
    exact ⟨by simp, .refl txdb, rfl⟩
  | cons o prevouts ih =>
    have hstep : ∀ txdb₁, disconnectInput txdb o = .ok txdb₁ →
        InRange txdb.readTxIndex o ∧ TxDbFrame txdb txdb₁ ∧
          txdb₁.readTxIndex = setMark none txdb.readTxIndex o := by
      intro txdb₁ h
      obtain ⟨hrange, txindex, hindex, rfl⟩ := disconnectInput_eq_ok.mp h
      refine ⟨hrange, .updateTxIndex _ _ _, ?_⟩
      rw [CTxDB.readTxIndex_updateTxIndex, setMark_of_ready hindex]
    constructor
    · intro txdb' h
      rw [List.foldlM_cons, bind_eq_ok] at h
      obtain ⟨txdb₁, hone, hrest⟩ := h
      obtain ⟨hrange, hframe, hindex⟩ := hstep txdb₁ hone
      obtain ⟨hranges, hframe', hindex'⟩ := (@ih txdb₁).1 txdb' hrest
      refine ⟨?_, hframe.trans hframe', by rw [hindex', hindex, List.foldl_cons]⟩
      intro o' ho'
      rcases List.mem_cons.mp ho' with rfl | ho'
      · exact hrange
      · exact inRange_setMark.mp (hindex ▸ hranges o' ho')
    · intro hranges
      obtain ⟨txindex, hindex, hlt⟩ := hranges o List.mem_cons_self
      have hone := disconnectInput_eq_ok.mpr ⟨⟨txindex, hindex, hlt⟩, txindex, hindex, rfl⟩
      obtain ⟨-, -, hindex₁⟩ := hstep _ hone
      obtain ⟨txdb', hrest⟩ := (@ih (txdb.updateTxIndex o.hash _)).2
        fun o' ho' ↦ by rw [hindex₁]; exact inRange_setMark.mpr (hranges o' (.tail _ ho'))
      exact ⟨txdb', by rw [List.foldlM_cons, bind_eq_ok]; exact ⟨_, hone, hrest⟩⟩

/-- What a successful `DisconnectInputs` does to the index. -/
theorem disconnectInputs_eq_ok (pos : CDiskTxPos) (h : disconnectInputs P txdb tx = .ok txdb') :
    (∀ o ∈ tx.spends, InRange txdb.readTxIndex o) ∧ TxDbFrame txdb txdb' ∧
      txdb'.readTxIndex = undo txdb.readTxIndex (spenderOf P (tx, pos)) := by
  simp only [disconnectInputs, bind_eq_ok, pure_eq_ok] at h
  obtain ⟨txdb₁, hloop, rfl⟩ := h
  obtain ⟨hranges, hframe, hindex⟩ := foldlM_disconnectInput.1 txdb₁ hloop
  refine ⟨hranges, hframe.trans (.put _ _ (by simp) (by simp)), ?_⟩
  rw [CTxDB.readTxIndex_eraseTxIndex, hindex]
  rfl

theorem disconnectInputs_of_inRange (h : ∀ o ∈ tx.spends, InRange txdb.readTxIndex o) :
    ∃ txdb', disconnectInputs P txdb tx = .ok txdb' := by
  obtain ⟨txdb₁, hloop⟩ := foldlM_disconnectInput.2 h
  exact ⟨_, by simp only [disconnectInputs, bind_eq_ok, pure_eq_ok]; exact ⟨txdb₁, hloop, rfl⟩⟩

/-- Removing the transactions of a block backwards. -/
theorem disconnectLoop_spec (entries : List (CTransaction × CDiskTxPos))
    (h : (entries.map Prod.fst).reverse.foldlM (disconnectInputs P) txdb = .ok txdb') :
    TxDbFrame txdb txdb' ∧ UndoableAll txdb.readTxIndex (entries.map (spenderOf P)) ∧
      txdb'.readTxIndex = undoAll txdb.readTxIndex (entries.map (spenderOf P)) := by
  induction entries generalizing txdb' with
  | nil =>
    simp only [List.map_nil, List.reverse_nil, List.foldlM_nil, pure_eq_ok] at h
    subst h
    exact ⟨.refl txdb, trivial, rfl⟩
  | cons entry entries ih =>
    rw [List.map_cons, List.reverse_cons, List.foldlM_append, bind_eq_ok] at h
    obtain ⟨txdb₁, hrest, hone⟩ := h
    simp only [List.foldlM_cons, List.foldlM_nil, bind_eq_ok, pure_eq_ok, exists_eq_right] at hone
    obtain ⟨hframe, hundoable, hindex⟩ := ih hrest
    obtain ⟨hranges, hframe', hindex'⟩ := disconnectInputs_eq_ok entry.2 hone
    rw [hindex] at hranges hindex'
    refine ⟨hframe.trans hframe', ⟨hundoable, fun o ho ↦ (hranges o ho).isSome⟩, ?_⟩
    rw [hindex', List.map_cons, undoAll_cons]

/-- What a successful `DisconnectBlock` does to the state. -/
structure Disconnects (P : ChainParams) (st st' : NodeState) (block : CBlock) (pindex : PIndex) :
    Prop where
  undoable : UndoableAll st.txdb.readTxIndex (spendersOf P block pindex)
  frame : NodeFrame st st'
  txindex : st'.txdb.readTxIndex = undoAll st.txdb.readTxIndex (spendersOf P block pindex)
  nMint : st'.nMint = st.nMint
  nMoneySupply : st'.nMoneySupply = st.nMoneySupply

theorem leaveBlock_frame (st : NodeState) (block : CBlock) (pindex : PIndex) :
    NodeFrame st (leaveBlock P st block pindex) := by
  have hunlink := NodeFrame.writeBlockIndex st pindex.tail 0
  exact ⟨hunlink.mapBlockIndex, hunlink.pnext, hunlink.pindexGenesisBlock, hunlink.pindexBest,
    hunlink.hashBestChain, hunlink.nBestHeight, hunlink.nBestChainTrust, hunlink.nBestInvalidTrust,
    hunlink.mempool, hunlink.txdb⟩

theorem disconnectBlock_eq_ok (h : disconnectBlock P st block pindex = .ok st') :
    Disconnects P st st' block pindex := by
  simp only [disconnectBlock, bind_eq_ok, mapError_eq_ok, pure_eq_ok] at h
  obtain ⟨txdb, hloop, rfl⟩ := h
  rw [← map_fst_located block pindex false] at hloop
  obtain ⟨hframe, hundoable, hindex⟩ := disconnectLoop_spec _ hloop
  have htxdb : NodeFrame st { st with txdb } := ⟨rfl, rfl, rfl, rfl, rfl, rfl, rfl, rfl, rfl, hframe⟩
  refine ⟨hundoable, htxdb.trans (leaveBlock_frame _ block pindex), ?_, ?_, ?_⟩
  · exact (readTxIndex_writeBlockIndex _ _ _).trans hindex
  · exact (nMint_writeBlockIndex _ _ _).1
  · exact (nMint_writeBlockIndex _ _ _).2

/-- A step that failed left its writes so far in the open batch, and nothing else. -/
def Interrupted (st st' : NodeState) : Prop :=
  ∃ txdb, st' = { st with txdb } ∧ TxDbFrame st.txdb txdb

theorem Interrupted.refl (st : NodeState) : Interrupted st st := ⟨st.txdb, rfl, .refl _⟩

theorem Interrupted.frame (h : Interrupted st st') : NodeFrame st st' := by
  obtain ⟨txdb, rfl, hframe⟩ := h
  exact ⟨rfl, rfl, rfl, rfl, rfl, rfl, rfl, rfl, rfl, hframe⟩

theorem disconnectInputs_eq_error {failure : Reject × CTxDB}
    (h : disconnectInputs P txdb tx = .error failure) : TxDbFrame txdb failure.2 := by
  simp only [disconnectInputs, bind_eq_error] at h
  rcases h with h | ⟨txdb₁, -, h⟩
  · obtain ⟨pre, prevout, post, txdb₁, -, hpre, hfail⟩ := foldlM_eq_error h
    obtain ⟨-, hframe, -⟩ := foldlM_disconnectInput.1 txdb₁ hpre
    -- the failing input has not written anything
    simp only [disconnectInput, bind_eq_error, require_eq_error, rejectIf_eq_error] at hfail
    rcases hfail with ⟨-, rfl⟩ | ⟨txindex, -, ⟨-, rfl⟩ | ⟨u, -, hfail⟩⟩
    · exact hframe
    · exact hframe
    · cases hfail
  · cases h

theorem disconnectBlock_eq_error {failure : Reject × NodeState}
    (h : disconnectBlock P st block pindex = .error failure) :
    Interrupted st failure.2 := by
  simp only [disconnectBlock, bind_eq_error, mapError_eq_error] at h
  rcases h with ⟨inner, hloop, rfl⟩ | ⟨txdb, -, h⟩
  · obtain ⟨pre, tx, post, txdb₁, -, hpre, hfail⟩ := foldlM_eq_error hloop
    have hframe : TxDbFrame st.txdb txdb₁ := by
      refine foldlM_invariant (TxDbFrame st.txdb) ?_ (.refl _) hpre
      intro tx _ txdb txdb' hinv hone
      exact hinv.trans (disconnectInputs_eq_ok .null hone).2.1
    exact ⟨inner.2, rfl, hframe.trans (disconnectInputs_eq_error hfail)⟩
  · cases h

end Electra.Ledger

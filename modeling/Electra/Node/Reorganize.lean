import Electra.Ledger.IndexRun
import Electra.Node.Fork

/-!
# Reorganisation as a path in the tree

A reorganisation disconnects the current branch down to the fork and connects the new one up from
there, reading the blocks from disk.  However far it gets, it has taken block steps.
-/

namespace Electra.Node

open Chain Ledger Foundations.Outcome Foundations.WriteBatch

variable {P : ChainParams} {disk : BlockFiles} {genesis : CBlockIndex} {env : Env}

variable {index : CBlockIndex} {block : CBlock} {pprev : PIndex}
  {progress progress' : NodeState × List CTransaction} {failure : Reject × NodeState}
  {above below : Branch} {txdb : CTxDB} {st : NodeState}

theorem readBlock_of_readFromDisk {files : BlockFiles} (h : readFromDisk P files index = .ok block) :
    files.readBlock index.nFile index.nBlockPos = some block ∧
      block.getHash P = index.phashBlock := by
  simp only [readFromDisk, bind_eq_ok, require_eq_ok, rejectIf_eq_ok, exists_const, pure_eq_ok] at h
  obtain ⟨block', hread, -, -, hhash, rfl⟩ := h
  exact ⟨hread, not_not.mp hhash⟩

/-- What is read for an index entry is the block that was accepted for it. -/
theorem readFromDisk_accepted {block' : CBlock} (hfiles : env.files.ReadsFrom disk)
    (haccepted : Accepted P disk block index pprev) (h : readFromDisk P env.files index = .ok block') :
    block' = block := by
  have hread := hfiles.readBlock _ _ _ (readBlock_of_readFromDisk h).1
  exact Option.some.inj (hread.symm.trans haccepted.written.readBlock)

/-- Transactions of a disconnected block that go back to the memory pool. -/
def resurrected (block : CBlock) : List CTransaction :=
  block.vtx.filter fun tx ↦ !(tx.isCoinBase || tx.isCoinStake)

theorem disconnectTip_eq_ok (hfiles : env.files.ReadsFrom disk)
    (haccepted : Accepted P disk block index pprev)
    (h : disconnectTip P env progress (index :: pprev) = .ok progress') :
    disconnectBlock P progress.1 block (index :: pprev) = .ok progress'.1 ∧
      progress'.2 = progress.2 ++ resurrected block := by
  simp only [disconnectTip, List.head?_cons, bind_eq_ok, require_eq_ok, Option.some.injEq,
    exists_eq_left', mapError_eq_ok, pure_eq_ok] at h
  obtain ⟨block', hread, st, hdisconnect, rfl⟩ := h
  obtain rfl := readFromDisk_accepted hfiles haccepted hread
  exact ⟨hdisconnect, rfl⟩

theorem disconnectTip_eq_error {pindex : PIndex}
    (h : disconnectTip P env progress pindex = .error failure) :
    Interrupted progress.1 failure.2 := by
  simp only [disconnectTip, bind_eq_error, require_eq_error, mapError_eq_error] at h
  rcases h with ⟨-, rfl⟩ | ⟨index, -, ⟨_, -, rfl⟩ | ⟨block, -, ⟨inner, hfail, rfl⟩ | ⟨st, -, h⟩⟩⟩
  · exact .refl _
  · exact .refl _
  · have hinterrupted := disconnectBlock_eq_error hfail
    exact hinterrupted
  · cases h

theorem connectNext_eq_ok (hfiles : env.files.ReadsFrom disk)
    (haccepted : Accepted P disk block index pprev)
    (h : connectNext P env progress (index :: pprev) = .ok progress') :
    connectBlock P env progress.1 block (index :: pprev) false = .ok progress'.1 ∧
      progress'.2 = progress.2 ++ block.vtx := by
  simp only [connectNext, List.head?_cons, bind_eq_ok, require_eq_ok, Option.some.injEq,
    exists_eq_left', mapError_eq_ok, pure_eq_ok] at h
  obtain ⟨block', hread, st, hconnect, rfl⟩ := h
  obtain rfl := readFromDisk_accepted hfiles haccepted hread
  exact ⟨hconnect, rfl⟩

theorem connectNext_eq_error {pindex : PIndex} (h : connectNext P env progress pindex = .error failure) :
    failure.2 = progress.1 := by
  simp only [connectNext, bind_eq_error, require_eq_error, mapError_eq_error] at h
  rcases h with ⟨-, rfl⟩ | ⟨index, -, ⟨_, -, rfl⟩ | ⟨block, -, ⟨inner, -, rfl⟩ | ⟨st, -, h⟩⟩⟩
  · rfl
  · rfl
  · rfl
  · cases h

theorem disconnectLoop_eq_ok (hfiles : env.files.ReadsFrom disk)
    (haccepted : AcceptedBranch P disk genesis (above ++ below))
    (h : (pointersAbove genesis below above).foldlM (disconnectTip P env) progress = .ok progress') :
    BlockSteps P disk genesis (above ++ below, progress.1) (below, progress'.1) ∧
      progress'.2 = progress.2 ++ above.flatMap fun entry ↦ resurrected entry.1 := by
  induction above generalizing progress with
  | nil =>
    rw [pointersAbove, List.foldlM_nil, pure_eq_ok] at h
    subst h
    exact ⟨.refl, by simp⟩
  | cons entry above ih =>
    obtain ⟨block, index⟩ := entry
    rw [pointersAbove, List.foldlM_cons, bind_eq_ok] at h
    obtain ⟨progress₁, hone, hrest⟩ := h
    obtain ⟨hdisconnect, hlist⟩ := disconnectTip_eq_ok hfiles haccepted.1 hone
    obtain ⟨hsteps, hlist'⟩ := ih haccepted.2 hrest
    refine ⟨.head (.disconnect hdisconnect) hsteps, ?_⟩
    rw [hlist', hlist, List.flatMap_cons, List.append_assoc]

theorem connectLoop_eq_ok (hfiles : env.files.ReadsFrom disk)
    (haccepted : AcceptedBranch P disk genesis (above ++ below))
    (h : (pointersAbove genesis below above).reverse.foldlM (connectNext P env) progress =
      .ok progress') :
    BlockSteps P disk genesis (below, progress.1) (above ++ below, progress'.1) ∧
      progress'.2 = progress.2 ++ above.reverse.flatMap fun entry ↦ entry.1.vtx := by
  induction above generalizing progress' with
  | nil =>
    rw [pointersAbove, List.reverse_nil, List.foldlM_nil, pure_eq_ok] at h
    subst h
    exact ⟨.refl, by simp⟩
  | cons entry above ih =>
    obtain ⟨block, index⟩ := entry
    rw [pointersAbove, List.reverse_cons, List.foldlM_append, bind_eq_ok] at h
    obtain ⟨progress₁, hrest, hone⟩ := h
    simp only [List.foldlM_cons, List.foldlM_nil, bind_eq_ok, pure_eq_ok, exists_eq_right] at hone
    obtain ⟨hsteps, hlist⟩ := ih haccepted.2 hrest
    obtain ⟨hconnect, hlist'⟩ := connectNext_eq_ok hfiles haccepted.1 hone
    refine ⟨hsteps.tail (.connect hfiles haccepted.1 hconnect), ?_⟩
    rw [hlist', hlist, List.reverse_cons, List.flatMap_append, List.flatMap_singleton,
      List.append_assoc]

/-- Wherever the first loop stops, it got there by block steps. -/
theorem disconnectLoop_eq_error (hfiles : env.files.ReadsFrom disk)
    (haccepted : AcceptedBranch P disk genesis (above ++ below))
    (h : (pointersAbove genesis below above).foldlM (disconnectTip P env) progress =
      .error failure) :
    ∃ s, BlockSteps P disk genesis (above ++ below, progress.1) s ∧ Interrupted s.2 failure.2 := by
  induction above generalizing progress with
  | nil => cases h
  | cons entry above ih =>
    obtain ⟨block, index⟩ := entry
    rw [pointersAbove, List.foldlM_cons, bind_eq_error] at h
    rcases h with hfail | ⟨progress₁, hone, hrest⟩
    · exact ⟨_, .refl, disconnectTip_eq_error hfail⟩
    · obtain ⟨hdisconnect, -⟩ := disconnectTip_eq_ok hfiles haccepted.1 hone
      obtain ⟨s, hsteps, hinterrupted⟩ := ih haccepted.2 hrest
      exact ⟨s, .head (.disconnect hdisconnect) hsteps, hinterrupted⟩

theorem connectLoop_eq_error (hfiles : env.files.ReadsFrom disk)
    (haccepted : AcceptedBranch P disk genesis (above ++ below))
    (h : (pointersAbove genesis below above).reverse.foldlM (connectNext P env) progress =
      .error failure) :
    ∃ s, BlockSteps P disk genesis (below, progress.1) s ∧ Interrupted s.2 failure.2 := by
  induction above with
  | nil => cases h
  | cons entry above ih =>
    obtain ⟨block, index⟩ := entry
    rw [pointersAbove, List.reverse_cons, List.foldlM_append, bind_eq_error] at h
    rcases h with hrest | ⟨progress₁, hrest, hfail⟩
    · exact ih haccepted.2 hrest
    · simp only [List.foldlM_cons, List.foldlM_nil, bind_eq_error] at hfail
      obtain ⟨hsteps, -⟩ := connectLoop_eq_ok hfiles haccepted.2 hrest
      rcases hfail with hfail | ⟨progress₂, -, hfail⟩
      · exact ⟨_, hsteps, connectNext_eq_error hfail ▸ .refl _⟩
      · cases hfail

/-- The node once the new tip is written and committed, before memory follows. -/
def committed (st : NodeState) (hash : Uint256) (fCommitted : Bool) : NodeState :=
  { st with txdb := ((st.txdb.writeHashBestChain hash).txnCommit fCommitted).2 }

theorem activeBatch_writeHashBestChain (h : txdb.activeBatch ≠ none) (hash : Uint256) :
    (txdb.writeHashBestChain hash).activeBatch ≠ none := Store.activeBatch_put_of_batch h _ _

/-- A commit that is written leaves the records that the transaction saw, with the new tip. -/
theorem pdb_committed (h : st.txdb.activeBatch ≠ none) (hash : Uint256) :
    (committed st hash true).txdb.pdb = (st.txdb.writeHashBestChain hash).read :=
  Store.pdb_txnCommit_true (activeBatch_writeHashBestChain h hash)

theorem readTxIndex_committed (h : st.txdb.activeBatch ≠ none) (hash : Uint256) :
    (committed st hash true).txdb.readTxIndex = st.txdb.readTxIndex := by
  have hread : (committed st hash true).txdb.read = (st.txdb.writeHashBestChain hash).read :=
    (Store.read_of_noBatch rfl).trans (pdb_committed h hash)
  rw [CTxDB.readTxIndex_congr hread, CTxDB.readTxIndex_writeHashBestChain]

/-- A commit that is not written leaves the records from before the transaction. -/
theorem pdb_not_committed (h : st.txdb.activeBatch ≠ none) (hash : Uint256) :
    (committed st hash false).txdb.pdb = st.txdb.pdb := by
  rw [committed, Store.pdb_txnCommit_false]
  exact Store.pdb_put_of_batch h _ _

theorem readTxIndex_txnBegin (h : txdb.activeBatch = none) :
    CTxDB.readTxIndex txdb.txnBegin = txdb.readTxIndex :=
  CTxDB.readTxIndex_congr ((Store.read_txnBegin txdb).trans (Store.read_of_noBatch h).symm)

/-- After an abort the database is as it was before the transaction. -/
theorem txnAbort_eq {txdb' : CTxDB} (h : txdb.activeBatch = none) (hpdb : txdb'.pdb = txdb.pdb) :
    txdb'.txnAbort = txdb := by
  cases txdb
  simp_all [Store.txnAbort]

/-- The parts of a reorganisation that succeeds. -/
theorem reorganize_parts {st' : NodeState} {pindexNew : PIndex}
    (h : reorganize P env st pindexNew = .ok st') :
    ∃ pfork down up, findFork st.pindexBest pindexNew = some pfork ∧
      (branchFrom pfork st.pindexBest).foldlM (disconnectTip P env) (st, []) = .ok down ∧
      (branchFrom pfork pindexNew).reverse.foldlM (connectNext P env) (down.1, []) = .ok up ∧
      st' = switchBranch P env (committed up.1 pindexNew.getBlockHash true)
        (branchFrom pfork st.pindexBest) (branchFrom pfork pindexNew).reverse down.2 up.2 := by
  simp only [reorganize, bind_eq_ok, require_eq_ok, pure_eq_ok] at h
  obtain ⟨pfork, hfork, down, hdown, up, hup, u, hcommitted, rfl⟩ := h
  have htrue : env.fCommitted pindexNew.getBlockHash = true := by
    simpa using rejectIf_eq_ok.mp hcommitted
  exact ⟨pfork, down, up, hfork, hdown, hup, by rw [htrue]; rfl⟩

/-- The places where a reorganisation fails. -/
theorem reorganize_failures {pindexNew : PIndex} (h : reorganize P env st pindexNew = .error failure) :
    failure.2 = st ∨
      ∃ pfork, findFork st.pindexBest pindexNew = some pfork ∧
        ((branchFrom pfork st.pindexBest).foldlM (disconnectTip P env) (st, []) = .error failure ∨
          ∃ down, (branchFrom pfork st.pindexBest).foldlM (disconnectTip P env) (st, []) = .ok down ∧
            ((branchFrom pfork pindexNew).reverse.foldlM (connectNext P env) (down.1, []) =
                .error failure ∨
              ∃ up, (branchFrom pfork pindexNew).reverse.foldlM (connectNext P env) (down.1, []) =
                  .ok up ∧ failure.2 = committed up.1 pindexNew.getBlockHash false)) := by
  simp only [reorganize, bind_eq_error, require_eq_error, require_eq_ok] at h
  rcases h with ⟨-, rfl⟩ | ⟨pfork, hfork, h⟩
  · exact .inl rfl
  · right
    refine ⟨pfork, hfork, ?_⟩
    rcases h with hdown | ⟨down, hdown, h⟩
    · exact .inl hdown
    · right
      refine ⟨down, hdown, ?_⟩
      rcases h with hup | ⟨up, hup, h⟩
      · exact .inl hup
      · right
        refine ⟨up, hup, ?_⟩
        rcases h with hcommit | ⟨u, -, h⟩
        · obtain ⟨hbad, rfl⟩ := rejectIf_eq_error.mp hcommit
          have hfalse : env.fCommitted pindexNew.getBlockHash = false := by simpa using hbad
          rw [hfalse]
          rfl
        · cases h

section Tree

variable (st : NodeState) {st' : NodeState} {chain chain' : Branch} (hfiles : env.files.ReadsFrom disk)
  (haccepted : AcceptedBranch P disk genesis chain)
  (haccepted' : AcceptedBranch P disk genesis chain') (hbest : st.pindexBest = pindexOf genesis chain)

include hfiles haccepted haccepted' hbest

/-- A reorganisation that succeeds has moved to the new branch and was committed. -/
theorem reorganize_eq_ok (h : reorganize P env st (pindexOf genesis chain') = .ok st') :
    ∃ above above' below st₁, chain = above ++ below ∧ chain' = above' ++ below ∧
      BlockSteps P disk genesis (chain, st) (chain', st₁) ∧
      st' = switchBranch P env (committed st₁ (pindexOf genesis chain').getBlockHash true)
        (pointersAbove genesis below above) (pointersAbove genesis below above').reverse
        (above.flatMap fun entry ↦ resurrected entry.1)
        (above'.reverse.flatMap fun entry ↦ entry.1.vtx) := by
  obtain ⟨above, above', below, rfl, rfl, hfork⟩ := exists_fork haccepted haccepted'
  obtain ⟨pfork, down, up, hfork', hdown, hup, rfl⟩ := reorganize_parts h
  rw [hbest, hfork] at hfork'
  obtain rfl := Option.some.inj hfork'
  rw [hbest, branchFrom_pindexOf] at hdown
  rw [branchFrom_pindexOf] at hup
  obtain ⟨hdownSteps, hresurrect⟩ := disconnectLoop_eq_ok hfiles haccepted hdown
  obtain ⟨hupSteps, hdelete⟩ := connectLoop_eq_ok hfiles haccepted' hup
  refine ⟨above, above', below, up.1, rfl, rfl, hdownSteps.trans hupSteps, ?_⟩
  rw [hbest, branchFrom_pindexOf, branchFrom_pindexOf, hresurrect, hdelete]
  rfl

/-- A reorganisation that fails has taken block steps and then stopped or lost its writes. -/
theorem reorganize_eq_error (h : reorganize P env st (pindexOf genesis chain') = .error failure) :
    ∃ s, BlockSteps P disk genesis (chain, st) s ∧
      (Interrupted s.2 failure.2 ∨
        failure.2 = committed s.2 (pindexOf genesis chain').getBlockHash false) := by
  obtain ⟨above, above', below, rfl, rfl, hfork⟩ := exists_fork haccepted haccepted'
  rcases reorganize_failures h with hsame | ⟨pfork, hfork', h⟩
  · exact ⟨_, .refl, .inl (hsame ▸ .refl _)⟩
  · rw [hbest, hfork] at hfork'
    obtain rfl := Option.some.inj hfork'
    rw [hbest, branchFrom_pindexOf, branchFrom_pindexOf] at h
    rcases h with hdown | ⟨down, hdown, hup | ⟨up, hup, hcommitted⟩⟩
    · obtain ⟨s, hsteps, hinterrupted⟩ := disconnectLoop_eq_error hfiles haccepted hdown
      exact ⟨s, hsteps, .inl hinterrupted⟩
    · obtain ⟨hdownSteps, -⟩ := disconnectLoop_eq_ok hfiles haccepted hdown
      obtain ⟨s, hsteps, hinterrupted⟩ := connectLoop_eq_error hfiles haccepted' hup
      exact ⟨s, hdownSteps.trans hsteps, .inl hinterrupted⟩
    · obtain ⟨hdownSteps, -⟩ := disconnectLoop_eq_ok hfiles haccepted hdown
      obtain ⟨hupSteps, -⟩ := connectLoop_eq_ok hfiles haccepted' hup
      exact ⟨_, hdownSteps.trans hupSteps, .inr hcommitted⟩

/-- Whatever fails in a reorganisation, the committed records are as before. -/
theorem pdb_of_reorganize_eq_error (hopen : st.txdb.activeBatch ≠ none)
    (h : reorganize P env st (pindexOf genesis chain') = .error failure) :
    failure.2.txdb.pdb = st.txdb.pdb := by
  obtain ⟨s, hsteps, hend⟩ := reorganize_eq_error st hfiles haccepted haccepted' hbest h
  have hframe := hsteps.frame
  rcases hend with hinterrupted | hcommitted
  · exact (hframe.trans hinterrupted.frame).txdb.pdb hopen
  · rw [hcommitted, pdb_not_committed (hframe.txdb.batch hopen)]
    exact hframe.txdb.pdb hopen

end Tree

/-- The node with a database transaction begun. -/
def begun (st : NodeState) : NodeState := { st with txdb := st.txdb.txnBegin }

/-- The node after a block was connected, committed and linked. -/
def extended (P : ChainParams) (st : NodeState) (block : CBlock) (pindexNew : PIndex) : NodeState :=
  { committed st (block.getHash P) true with
    pnext := linkFromPrev st.pnext pindexNew
    mempool := block.vtx.foldl (fun pool tx ↦ pool.remove P tx false) st.mempool }

theorem setBestChainInner_cases (P : ChainParams) (env : Env) (st : NodeState) (block : CBlock)
    (pindexNew : PIndex) :
    (∃ reject, connectBlock P env st block pindexNew false = .error reject ∧
      setBestChainInner P env st block pindexNew =
        (false, invalidChainFound (txnAbort st) pindexNew)) ∨
    ∃ st₁, connectBlock P env st block pindexNew false = .ok st₁ ∧
      (setBestChainInner P env st block pindexNew = (true, extended P st₁ block pindexNew) ∨
        setBestChainInner P env st block pindexNew =
          (false, committed st₁ (block.getHash P) false)) := by
  cases hconnect : connectBlock P env st block pindexNew false with
  | error reject => exact .inl ⟨reject, rfl, by simp [setBestChainInner, hconnect]⟩
  | ok st₁ =>
    refine .inr ⟨st₁, rfl, ?_⟩
    cases hcommitted : env.fCommitted (block.getHash P) with
    | true =>
      left
      simp [setBestChainInner, hconnect, hcommitted, Store.txnCommit, extended, committed]
    | false =>
      right
      simp [setBestChainInner, hconnect, hcommitted, Store.txnCommit, committed]

/-- The node that has stored the genesis block as its best one. -/
def startedAt (st : NodeState) (hash : Uint256) (pindexNew : PIndex) : NodeState :=
  { committed st hash true with pindexGenesisBlock := pindexNew }

theorem moveBestChain_cases (P : ChainParams) (env : Env) (st : NodeState) (block : CBlock)
    (pindexNew : PIndex) :
    (st.pindexGenesisBlock = [] ∧ block.getHash P = P.genesisHash ∧
      (moveBestChain P env st block pindexNew =
          (true, startedAt (begun st) (block.getHash P) pindexNew) ∨
        moveBestChain P env st block pindexNew =
          (false, committed (begun st) (block.getHash P) false))) ∨
    ¬ (st.pindexGenesisBlock = [] ∧ block.getHash P = P.genesisHash) ∧
      (block.hashPrevBlock = st.hashBestChain ∧ moveBestChain P env st block pindexNew =
          setBestChainInner P env (begun st) block pindexNew ∨
        block.hashPrevBlock ≠ st.hashBestChain ∧
          ((∃ failure, reorganize P env (begun st)
                (splitSecondary st.pindexBest.nChainTrust pindexNew).1 = .error failure ∧
              moveBestChain P env st block pindexNew =
                (false, invalidChainFound (txnAbort failure.2) pindexNew)) ∨
            ∃ st₁, reorganize P env (begun st)
                (splitSecondary st.pindexBest.nChainTrust pindexNew).1 = .ok st₁ ∧
              moveBestChain P env st block pindexNew = (true, connectSecondary P env st₁
                (splitSecondary st.pindexBest.nChainTrust pindexNew).2.reverse))) := by
  by_cases hgenesis : st.pindexGenesisBlock = [] ∧ block.getHash P = P.genesisHash
  · refine .inl ⟨hgenesis.1, hgenesis.2, ?_⟩
    unfold moveBestChain
    rw [if_pos hgenesis]
    cases hcommitted : env.fCommitted (block.getHash P) with
    | true =>
      left
      simp [Store.txnCommit, startedAt, committed, begun]
    | false =>
      right
      simp [Store.txnCommit, committed, begun]
  · refine .inr ⟨hgenesis, ?_⟩
    unfold moveBestChain
    rw [if_neg hgenesis]
    by_cases hprev : block.hashPrevBlock = st.hashBestChain
    · exact .inl ⟨hprev, if_pos hprev⟩
    · refine .inr ⟨hprev, ?_⟩
      rw [if_neg hprev]
      cases hreorganize : reorganize P env (begun st)
          (splitSecondary st.pindexBest.nChainTrust pindexNew).1 with
      | error failure =>
        left
        refine ⟨failure, rfl, ?_⟩
        unfold begun at hreorganize
        simp only [hreorganize]
      | ok st₁ =>
        right
        refine ⟨st₁, rfl, ?_⟩
        unfold begun at hreorganize
        simp only [hreorganize]

/-- The first block to reorganise to is on the new branch. -/
theorem splitSecondary_suffix (nBestTrust : Uint256) (pindexNew : PIndex) :
    (splitSecondary nBestTrust pindexNew).1 <:+ pindexNew := by
  induction pindexNew with
  | nil => exact List.suffix_refl _
  | cons index pprev ih =>
    rw [splitSecondary]
    split
    · exact ih.trans (List.suffix_cons index pprev)
    · exact List.suffix_refl _

end Electra.Node

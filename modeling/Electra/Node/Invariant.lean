import Electra.Chain.Node
import Electra.Node.Reorganize

/-!
# The invariant of a node

The block index is a tree of accepted blocks.  The database and the links are those of one of its
branches, and between calls the tip in memory is the tip of that branch.
-/

namespace Electra.Node

open Chain Ledger Foundations.SpendIndex Foundations.Outcome Foundations.WriteBatch

variable (P : ChainParams) (disk : BlockFiles) (genesis : CBlockIndex)

/-- Every entry of the block index ends an accepted branch whose entries are all in the index. -/
structure Indexed (st : NodeState) : Prop where
  hash : ∀ hash pindex, st.mapBlockIndex hash = some pindex → pindex.getBlockHash = hash
  branch : ∀ hash pindex, st.mapBlockIndex hash = some pindex →
    ∃ chain, AcceptedBranch P disk genesis chain ∧ pindex = pindexOf genesis chain
  parent : ∀ hash index (pprev : PIndex), st.mapBlockIndex hash = some (index :: pprev) → pprev ≠ [] →
    st.mapBlockIndex pprev.getBlockHash = some pprev
  started : st.pindexGenesisBlock = [genesis]

/-- The database and the links are at the tip of a branch. -/
structure OnBranch (st : NodeState) (chain : Branch) : Prop where
  idle : st.txdb.activeBatch = none
  run : IndexRun P disk genesis chain st.txdb.readTxIndex
  stored : st.txdb.readHashBestChain = some (pindexOf genesis chain).getBlockHash
  links : st.pnext = linksTo (pindexOf genesis chain)

/-- The tip in memory is the tip of a branch. -/
structure AtTip (st : NodeState) (chain : Branch) : Prop where
  pindexBest : st.pindexBest = pindexOf genesis chain
  hashBestChain : st.hashBestChain = (pindexOf genesis chain).getBlockHash
  nBestHeight : st.nBestHeight = (pindexOf genesis chain).nHeight
  indexed : st.mapBlockIndex (pindexOf genesis chain).getBlockHash = some (pindexOf genesis chain)

structure NodeInv (st : NodeState) (chain : Branch) : Prop where
  indexed : Indexed P disk genesis st
  onBranch : OnBranch P disk genesis st chain
  atTip : AtTip genesis st chain

variable {P disk genesis} {env : Env} {st st' : NodeState} {chain : Branch}

/-- Every ancestor of an entry of the block index is one. -/
theorem Indexed.ancestor (h : Indexed P disk genesis st) {hash : Uint256} {pindex below : PIndex}
    (hpindex : st.mapBlockIndex hash = some pindex) (hsuffix : below <:+ pindex) (hne : below ≠ []) :
    st.mapBlockIndex below.getBlockHash = some below := by
  induction pindex generalizing hash with
  | nil => exact absurd (List.suffix_nil.mp hsuffix) hne
  | cons index pprev ih =>
    rcases List.suffix_cons_iff.mp hsuffix with rfl | hbelow
    · rw [h.hash hash _ hpindex]
      exact hpindex
    · have hprev : pprev ≠ [] := by
        rintro rfl
        exact hne (List.suffix_nil.mp hbelow)
      exact ih (h.parent hash index pprev hpindex hprev) hbelow

theorem Indexed.congr (h : Indexed P disk genesis st) (hmap : st'.mapBlockIndex = st.mapBlockIndex)
    (hgenesis : st'.pindexGenesisBlock = st.pindexGenesisBlock) : Indexed P disk genesis st' :=
  ⟨hmap ▸ h.hash, hmap ▸ h.branch, hmap ▸ h.parent, hgenesis ▸ h.started⟩

theorem AtTip.congr (h : AtTip genesis st chain) (hmap : st'.mapBlockIndex = st.mapBlockIndex)
    (hbest : st'.pindexBest = st.pindexBest) (hhash : st'.hashBestChain = st.hashBestChain)
    (hheight : st'.nBestHeight = st.nBestHeight) : AtTip genesis st' chain :=
  ⟨hbest ▸ h.pindexBest, hhash ▸ h.hashBestChain, hheight ▸ h.nBestHeight, hmap ▸ h.indexed⟩

theorem OnBranch.congr (h : OnBranch P disk genesis st chain) (htxdb : st'.txdb = st.txdb)
    (hlinks : st'.pnext = st.pnext) : OnBranch P disk genesis st' chain :=
  ⟨htxdb ▸ h.idle, htxdb ▸ h.run, htxdb ▸ h.stored, hlinks ▸ h.links⟩

theorem readHashBestChain_congr {txdb txdb' : CTxDB}
    (h : txdb'.read .hashBestChain = txdb.read .hashBestChain) :
    txdb'.readHashBestChain = txdb.readHashBestChain := by
  simp [CTxDB.readHashBestChain, h]

/-- A step that keeps the committed records keeps the branch. -/
theorem OnBranch.of_pdb (h : OnBranch P disk genesis st chain) (hidle : st'.txdb.activeBatch = none)
    (hpdb : st'.txdb.pdb = st.txdb.pdb) (hlinks : st'.pnext = st.pnext) :
    OnBranch P disk genesis st' chain := by
  have hread : st'.txdb.read = st.txdb.read := by
    rw [Store.read_of_noBatch hidle, Store.read_of_noBatch h.idle, hpdb]
  refine ⟨hidle, ?_, ?_, hlinks ▸ h.links⟩
  · rw [CTxDB.readTxIndex_congr hread]
    exact h.run
  · rw [readHashBestChain_congr (congrFun hread _)]
    exact h.stored

theorem OnBranch.invalidChainFound (h : OnBranch P disk genesis st chain) (pindexNew : PIndex) :
    OnBranch P disk genesis (invalidChainFound st pindexNew) chain := by
  unfold Chain.invalidChainFound
  split
  · refine ⟨?_, ?_, ?_, h.links⟩
    · simp [CTxDB.writeBestInvalidTrust, Store.put, h.idle]
    · rw [CTxDB.readTxIndex_writeBestInvalidTrust]
      exact h.run
    · rw [← h.stored]
      refine readHashBestChain_congr ?_
      simp only [CTxDB.writeBestInvalidTrust, Store.read_put]
      exact Function.update_of_ne (by simp) _ _
  · exact h

/-- The record of the tip after a commit that was written. -/
theorem readHashBestChain_committed (h : st.txdb.activeBatch ≠ none) (hash : Uint256) :
    (committed st hash true).txdb.readHashBestChain = some hash := by
  have hread : (committed st hash true).txdb.read = (st.txdb.writeHashBestChain hash).read :=
    (Store.read_of_noBatch rfl).trans (pdb_committed h hash)
  rw [CTxDB.readHashBestChain, hread]
  simp [CTxDB.writeHashBestChain]

/-- After a commit the branch is the one that the transaction moved to. -/
theorem onBranch_committed (hopen : st.txdb.activeBatch ≠ none)
    (hrun : IndexRun P disk genesis chain st.txdb.readTxIndex) {hash : Uint256}
    (hhash : hash = (pindexOf genesis chain).getBlockHash) (htxdb : st'.txdb = (committed st hash true).txdb)
    (hlinks : st'.pnext = linksTo (pindexOf genesis chain)) : OnBranch P disk genesis st' chain := by
  refine ⟨htxdb ▸ rfl, ?_, ?_, hlinks⟩
  · rw [htxdb, readTxIndex_committed hopen]
    exact hrun
  · rw [htxdb, readHashBestChain_committed hopen, hhash]

/-- `SetBestChainInner` on top of the branch moves to the next block or stays. -/
theorem OnBranch.setBestChainInner (h : OnBranch P disk genesis st chain) {block : CBlock}
    {index : CBlockIndex} (hfiles : env.files.ReadsFrom disk)
    (haccepted : Accepted P disk block index (pindexOf genesis chain))
    {fOk : Bool} (hcall : setBestChainInner P env (begun st) block (index :: pindexOf genesis chain) =
      (fOk, st')) :
    OnBranch P disk genesis st' (if fOk then (block, index) :: chain else chain) := by
  have hopen : (begun st).txdb.activeBatch ≠ none := by simp [begun]
  have hbegun : IndexRun P disk genesis chain (begun st).txdb.readTxIndex := by
    rw [begun, readTxIndex_txnBegin h.idle]
    exact h.run
  rcases setBestChainInner_cases P env (begun st) block (index :: pindexOf genesis chain) with
    ⟨reject, -, heq⟩ | ⟨st₁, hconnect, heq | heq⟩
  · obtain ⟨rfl, rfl⟩ := Prod.mk.inj (heq.symm.trans hcall)
    have haborted : OnBranch P disk genesis (txnAbort (begun st)) chain := h.of_pdb rfl rfl rfl
    exact haborted.invalidChainFound _
  · obtain ⟨rfl, rfl⟩ := Prod.mk.inj (heq.symm.trans hcall)
    have hstep : BlockStep P disk genesis (chain, begun st) ((block, index) :: chain, st₁) :=
      .connect hfiles haccepted hconnect
    refine onBranch_committed (hstep.frame.txdb.batch hopen) (hstep.indexRun hbegun) haccepted.getHash rfl ?_
    have hlinks : st₁.pnext = linksTo (pindexOf genesis chain) := hstep.frame.pnext.trans h.links
    rw [extended, hlinks]
    rfl
  · obtain ⟨rfl, rfl⟩ := Prod.mk.inj (heq.symm.trans hcall)
    obtain ⟨sums, hconnects⟩ := connectBlock_eq_ok hconnect
    refine h.of_pdb rfl ?_ hconnects.frame.pnext
    rw [pdb_not_committed (hconnects.frame.txdb.batch hopen), hconnects.frame.txdb.pdb hopen]
    rfl

/-- The block index and the tip in memory are as before. -/
structure SameTip (st st' : NodeState) : Prop where
  mapBlockIndex : st'.mapBlockIndex = st.mapBlockIndex
  pindexGenesisBlock : st'.pindexGenesisBlock = st.pindexGenesisBlock
  pindexBest : st'.pindexBest = st.pindexBest
  hashBestChain : st'.hashBestChain = st.hashBestChain
  nBestHeight : st'.nBestHeight = st.nBestHeight

theorem SameTip.refl (st : NodeState) : SameTip st st := ⟨rfl, rfl, rfl, rfl, rfl⟩

theorem SameTip.trans {st'' : NodeState} (h : SameTip st st') (h' : SameTip st' st'') :
    SameTip st st'' where
  mapBlockIndex := h'.mapBlockIndex.trans h.mapBlockIndex
  pindexGenesisBlock := h'.pindexGenesisBlock.trans h.pindexGenesisBlock
  pindexBest := h'.pindexBest.trans h.pindexBest
  hashBestChain := h'.hashBestChain.trans h.hashBestChain
  nBestHeight := h'.nBestHeight.trans h.nBestHeight

theorem sameTip_of_frame (h : NodeFrame st st') : SameTip st st' :=
  ⟨h.mapBlockIndex, h.pindexGenesisBlock, h.pindexBest, h.hashBestChain, h.nBestHeight⟩

theorem sameTip_invalidChainFound (st : NodeState) (pindexNew : PIndex) :
    SameTip st (invalidChainFound st pindexNew) := by
  unfold invalidChainFound
  split
  · exact ⟨rfl, rfl, rfl, rfl, rfl⟩
  · exact .refl st

theorem sameTip_setBestChainInner (P : ChainParams) (env : Env) (st : NodeState) (block : CBlock)
    (pindexNew : PIndex) : SameTip st (setBestChainInner P env st block pindexNew).2 := by
  rcases setBestChainInner_cases P env st block pindexNew with
    ⟨reject, -, heq⟩ | ⟨st₁, hconnect, heq | heq⟩
  · rw [heq]
    have habort : SameTip st (txnAbort st) := ⟨rfl, rfl, rfl, rfl, rfl⟩
    exact habort.trans (sameTip_invalidChainFound _ _)
  · rw [heq]
    obtain ⟨sums, hconnects⟩ := connectBlock_eq_ok hconnect
    have hextended : SameTip st₁ (extended P st₁ block pindexNew) := ⟨rfl, rfl, rfl, rfl, rfl⟩
    exact (sameTip_of_frame hconnects.frame).trans hextended
  · rw [heq]
    obtain ⟨sums, hconnects⟩ := connectBlock_eq_ok hconnect
    have hcommitted : SameTip st₁ (committed st₁ (block.getHash P) false) := ⟨rfl, rfl, rfl, rfl, rfl⟩
    exact (sameTip_of_frame hconnects.frame).trans hcommitted

theorem OnBranch.reorganize (h : OnBranch P disk genesis st chain) {chain' : Branch}
    (hfiles : env.files.ReadsFrom disk) (hbest : st.pindexBest = pindexOf genesis chain)
    (haccepted : AcceptedBranch P disk genesis chain')
    (hcall : reorganize P env (begun st) (pindexOf genesis chain') = .ok st') :
    OnBranch P disk genesis st' chain' ∧ SameTip st st' := by
  obtain ⟨above, above', below, st₁, rfl, rfl, hsteps, rfl⟩ :=
    reorganize_eq_ok (begun st) hfiles h.run.accepted haccepted hbest hcall
  have hframe := hsteps.frame
  have hopen : st₁.txdb.activeBatch ≠ none := hframe.txdb.batch (by simp [begun])
  have hbegun : IndexRun P disk genesis (above ++ below) (begun st).txdb.readTxIndex := by
    rw [begun, readTxIndex_txnBegin h.idle]
    exact h.run
  refine ⟨onBranch_committed hopen (hsteps.indexRun hbegun) rfl rfl ?_, ?_⟩
  · have hlinks : st₁.pnext = linksTo (pindexOf genesis (above ++ below)) :=
      hframe.pnext.trans h.links
    simp only [switchBranch, committed, hlinks]
    rw [foldl_setPrevNext, foldl_linkFromPrev]
  · have hbegunTip : SameTip st (begun st) := ⟨rfl, rfl, rfl, rfl, rfl⟩
    exact (hbegunTip.trans (sameTip_of_frame hframe)).trans ⟨rfl, rfl, rfl, rfl, rfl⟩

/-- A failed reorganisation that is aborted leaves the branch and the tip. -/
theorem OnBranch.failedReorganize (h : OnBranch P disk genesis st chain) {chain' : Branch}
    (hfiles : env.files.ReadsFrom disk) (hbest : st.pindexBest = pindexOf genesis chain)
    (haccepted : AcceptedBranch P disk genesis chain') {failure : Reject × NodeState}
    (hcall : Chain.reorganize P env (begun st) (pindexOf genesis chain') = .error failure) :
    OnBranch P disk genesis (txnAbort failure.2) chain ∧ SameTip st (txnAbort failure.2) := by
  have hopen : (begun st).txdb.activeBatch ≠ none := by simp [begun]
  have hpdb := pdb_of_reorganize_eq_error (begun st) hfiles h.run.accepted haccepted hbest hopen
    hcall
  obtain ⟨s, hsteps, hend⟩ :=
    reorganize_eq_error (begun st) hfiles h.run.accepted haccepted hbest hcall
  have hbegun : SameTip st (begun st) ∧ (begun st).pnext = st.pnext := ⟨⟨rfl, rfl, rfl, rfl, rfl⟩, rfl⟩
  have hmemory : SameTip st failure.2 ∧ failure.2.pnext = st.pnext := by
    have hsame := hbegun.1.trans (sameTip_of_frame hsteps.frame)
    have hpnext := hsteps.frame.pnext.trans hbegun.2
    rcases hend with hinterrupted | heq
    · exact ⟨hsame.trans (sameTip_of_frame hinterrupted.frame), hinterrupted.frame.pnext.trans hpnext⟩
    · rw [heq]
      exact ⟨hsame.trans ⟨rfl, rfl, rfl, rfl, rfl⟩, hpnext⟩
  have habort : SameTip failure.2 (txnAbort failure.2) := ⟨rfl, rfl, rfl, rfl, rfl⟩
  exact ⟨h.of_pdb rfl hpdb hmemory.2, hmemory.1.trans habort⟩

end Electra.Node

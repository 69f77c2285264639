import Electra.Node.SyncCheckpoint

/-!
# Hardened checkpoints are final

Every block of the index that is as high as a hardened checkpoint is the checkpoint.  The index never
loses an entry, and a hash leads to one entry only.  So once the tip has passed a checkpoint, no later
event changes the main chain at its height or below, however much trust another chain has.
-/

namespace Electra.Node

open Chain Ledger Foundations.Outcome

section Checkpoints

variable (P : ChainParams) (disk : BlockFiles) (genesis : CBlockIndex)

/-- Checkpoints move the best chain to blocks above genesis. -/
def AboveGenesis (_ : NodeState) (event : NodeEvent) : Prop :=
  ∀ env, event ≠ .setBestChain env [genesis]

/-- One event of a node on its disk. -/
def NodeStep (st st' : NodeState) : Prop :=
  ∃ event, Fits disk st event ∧ AboveGenesis genesis st event ∧ st' = handleEvent P st event

/-- What a node knows of its block index in any run. -/
structure CheckpointInv (st : NodeState) : Prop where
  tree : TreeInv P disk genesis st
  start : genesis.phashBlock = P.genesisHash

variable {P disk genesis} {st st' : NodeState} {chain : Branch} {pindex : PIndex} {nHeight : ℤ}
  {hashCheckpoint : Uint256}

/-- The first checkpoint is the genesis block. -/
theorem eq_genesisHash_of_lookup (h : P.checkpoints.lookup 0 = some hashCheckpoint) :
    hashCheckpoint = P.genesisHash := by
  unfold ChainParams.checkpoints at h
  unfold ChainParams.genesisHash
  split at h
  · next htest =>
    rw [if_pos htest]
    exact (Option.some.inj h).symm
  · next htest =>
    rw [if_neg htest]
    exact (Option.some.inj h).symm

theorem nHeight_nonneg_of_lookup (h : P.checkpoints.lookup nHeight = some hashCheckpoint) : 0 ≤ nHeight := by
  have hall : ∀ checkpoints ∈ [mapCheckpoints, mapCheckpointsTestnet], ∀ checkpoint ∈ checkpoints,
      (0 : ℤ) ≤ checkpoint.1 := by decide
  have hmem : P.checkpoints ∈ [mapCheckpoints, mapCheckpointsTestnet] := by
    unfold ChainParams.checkpoints
    split <;> simp
  obtain ⟨above, below, heq, -⟩ := List.lookup_eq_some_iff.mp h
  exact hall _ hmem (nHeight, hashCheckpoint) (heq ▸ by simp)

/-- A block that was accepted at the height of a checkpoint is the checkpoint. -/
theorem phashBlock_of_checkpoint {block : CBlock} {index : CBlockIndex}
    (h : Accepted P disk block index (pindexOf genesis chain))
    (hcheckpoint : P.checkpoints.lookup ((chain.length : ℤ) + 1) = some hashCheckpoint) :
    index.phashBlock = hashCheckpoint := by
  obtain ⟨env, nBestHeight, hchecks⟩ := h.checks
  simp only [acceptBlockChecks, bind_eq_ok, rejectIf_eq_ok, exists_const] at hchecks
  obtain ⟨-, -, -, -, -, hhardened, -⟩ := hchecks
  rw [nHeight_pindexOf, checkHardened, hcheckpoint] at hhardened
  rw [← h.getHash]
  simpa using hhardened

theorem CheckpointInv.getBlockHash_eq (h : CheckpointInv P disk genesis st) {hash : Uint256}
    (hpindex : st.mapBlockIndex hash = some pindex)
    (hcheckpoint : P.checkpoints.lookup pindex.nHeight = some hashCheckpoint) :
    pindex.getBlockHash = hashCheckpoint := by
  obtain ⟨chain, haccepted, rfl⟩ := h.tree.indexed.branch hash _ hpindex
  cases chain with
  | nil => exact h.start.trans (eq_genesisHash_of_lookup hcheckpoint).symm
  | cons entry chain =>
    rw [nHeight_pindexOf, List.length_cons, Nat.cast_succ] at hcheckpoint
    exact phashBlock_of_checkpoint haccepted.1 hcheckpoint

/-- The ancestor of an entry at the height of a checkpoint is the one entry of its hash. -/
theorem CheckpointInv.checkpoint_suffix (h : CheckpointInv P disk genesis st) {hash : Uint256}
    (hpindex : st.mapBlockIndex hash = some pindex)
    (hcheckpoint : P.checkpoints.lookup nHeight = some hashCheckpoint)
    (hheight : nHeight ≤ pindex.nHeight) :
    ∃ below, st.mapBlockIndex hashCheckpoint = some below ∧ below.nHeight = nHeight ∧ below <:+ pindex := by
  have hnonneg := nHeight_nonneg_of_lookup hcheckpoint
  obtain ⟨below, hsuffix, hlength⟩ : ∃ below : PIndex, below <:+ pindex ∧
      below.length = nHeight.toNat + 1 := by
    refine ⟨pindex.drop (pindex.length - 1 - nHeight.toNat), List.drop_suffix _ _, ?_⟩
    rw [List.length_drop]
    unfold PIndex.nHeight at hheight
    omega
  have hbelow : below.nHeight = nHeight := by
    unfold PIndex.nHeight
    omega
  have hne : below ≠ [] := List.ne_nil_of_length_eq_add_one hlength
  have hindexed := h.tree.indexed.ancestor hpindex hsuffix hne
  have hhash := h.getBlockHash_eq hindexed (hbelow ▸ hcheckpoint)
  exact ⟨_, hhash ▸ hindexed, hbelow, hsuffix⟩

theorem TreeInv.handleEvent (h : TreeInv P disk genesis st) {event : NodeEvent}
    (hfits : Fits disk st event) (habove : AboveGenesis genesis st event) :
    TreeInv P disk genesis (Chain.handleEvent P st event) := by
  cases event with
  | acceptBlock env block => exact h.acceptBlock hfits
  | setBestChain env pindex =>
    obtain ⟨hfiles, hash, hpindex⟩ := hfits
    exact (h.setBestChainTo hfiles hpindex fun heq ↦ habove env (heq ▸ rfl)).1
  | acceptTx env tx =>
    obtain ⟨hsame, hpnext⟩ := sameTip_acceptToMemoryPool P env st tx
    exact h.congr hsame hpnext
  | removeTx tx fRecursive => exact h.congr ⟨rfl, rfl, rfl, rfl, rfl⟩ rfl

/-- The block index never loses an entry. -/
theorem mapBlockIndex_handleEvent (P : ChainParams) (st : NodeState) (event : NodeEvent) {hash : Uint256}
    (h : st.mapBlockIndex hash = some pindex) :
    (handleEvent P st event).mapBlockIndex hash = some pindex := by
  cases event with
  | acceptBlock env block =>
    rw [handleEvent, mapBlockIndex_acceptBlock]
    cases hentry : acceptedEntry P env st block with
    | none => exact h
    | some pindexNew =>
      obtain ⟨-, -, -, hnew, -⟩ := acceptedEntry_eq_some hentry
      refine (Function.update_of_ne ?_ _ _).trans h
      rintro rfl
      rw [hnew] at h
      cases h
  | setBestChain env pindex => rw [handleEvent, mapBlockIndex_setBestChainTo, h]
  | acceptTx env tx => rw [handleEvent, (sameTip_acceptToMemoryPool P env st tx).1.mapBlockIndex, h]
  | removeTx tx fRecursive => exact h

theorem checkpointInv_run (h : NodeRun P disk genesis (AboveGenesis genesis) st) :
    CheckpointInv P disk genesis st := by
  induction h with
  | start run started =>
    obtain ⟨-, hgenesis, -⟩ := startNode_eq run started
    exact ⟨(nodeInv_start run started).treeInv, hgenesis⟩
  | event run fits meets ih => exact ⟨ih.tree.handleEvent fits meets, ih.start⟩

theorem checkpointInv_steps (h : CheckpointInv P disk genesis st)
    (hsteps : Relation.ReflTransGen (NodeStep P disk genesis) st st') :
    CheckpointInv P disk genesis st' ∧
      ∀ hash pindex, st.mapBlockIndex hash = some pindex → st'.mapBlockIndex hash = some pindex := by
  induction hsteps with
  | refl => exact ⟨h, fun _ _ hpindex ↦ hpindex⟩
  | tail _ step ih =>
    obtain ⟨event, hfits, habove, rfl⟩ := step
    obtain ⟨hinv, hkeep⟩ := ih
    exact ⟨⟨hinv.tree.handleEvent hfits habove, hinv.start⟩,
      fun hash pindex hpindex ↦ mapBlockIndex_handleEvent P _ event (hkeep hash pindex hpindex)⟩

/-- Once the tip has passed a hardened checkpoint, the main chain up to the checkpoint stays: every
later main chain that is as high has the same blocks there, the checkpoint on top of them. -/
theorem checkpoint_final (hrun : NodeRun P disk genesis (AboveGenesis genesis) st)
    (hsteps : Relation.ReflTransGen (NodeStep P disk genesis) st st')
    (hcheckpoint : P.checkpoints.lookup nHeight = some hashCheckpoint)
    (hheight : nHeight ≤ st.pindexBest.nHeight) (hheight' : nHeight ≤ st'.pindexBest.nHeight) :
    ∃ below : PIndex, below.getBlockHash = hashCheckpoint ∧ below.nHeight = nHeight ∧
      below <:+ st.pindexBest ∧ below <:+ st'.pindexBest := by
  have hinv := checkpointInv_run hrun
  obtain ⟨hinv', hkeep⟩ := checkpointInv_steps hinv hsteps
  obtain ⟨below, hbelow, hnHeight, hsuffix⟩ :=
    hinv.checkpoint_suffix hinv.tree.best hcheckpoint hheight
  obtain ⟨below', hbelow', -, hsuffix'⟩ :=
    hinv'.checkpoint_suffix hinv'.tree.best hcheckpoint hheight'
  obtain rfl : below = below' := Option.some.inj ((hkeep _ _ hbelow).symm.trans hbelow')
  exact ⟨below, hinv.tree.indexed.hash _ _ hbelow, hnHeight, hsuffix, hsuffix'⟩

end Checkpoints

namespace CheckpointExample

open Builders

def mainNet : ChainParams := network false

/-- Names of the blocks; the one at height 10 has the hash of the checkpoint. -/
def name (nHeight : ℕ) : ℕ :=
  if nHeight = 10 then 0x000000510a92dcd0364d79ace286a8d44c060f96eff907f649c00b120901fa69 else nHeight

def block (nHeight : ℕ) : CBlock :=
  let hashPrevBlock : Uint256 := match nHeight with
    | 0 => 0
    | 1 => mainNet.genesisHash
    | nHeight + 1 => BitVec.ofNat 256 (name nHeight)
  blockOf mainNet (name nHeight) hashPrevBlock (300 * (nHeight + 1)) (easiestBits mainNet)
    [coinbase (nHeight + 1) (300 * (nHeight + 1)) nHeight [output 0]]

def blocks : List (ℕ × ℕ × CBlock) := (List.range 12).map fun h ↦ (h + 1, 8, block h)

def disk : BlockFiles := filesOf blocks

def genesis : CBlockIndex := newBlockIndex mainNet (block 0) 1 8 0 (0, false)

def envAt (nFile : ℕ) : Env := { surroundings disk 5000 with written := some (nFile, 8) }

def event (nHeight : ℕ) : NodeEvent := .acceptBlock (envAt (nHeight + 1)) (block nHeight)

def node : ℕ → NodeState
  | 0 => (startNode mainNet (envAt 1) [] (block 0) 1 8).2
  | nHeight + 1 => handleEvent mainNet (node nHeight) (event (nHeight + 1))

theorem writtenAt : ∀ entry ∈ blocks, WrittenAt disk entry.1 8 entry.2.2 := by decide +kernel

theorem fits_event {st : NodeState} {nHeight : ℕ} (h : nHeight < 12) :
    Fits disk st (event nHeight) :=
  fits_of_writtenAt rfl rfl (writtenAt _ (List.mem_map.mpr ⟨nHeight, List.mem_range.mpr h, rfl⟩))

theorem aboveGenesis_event (st : NodeState) (nHeight : ℕ) : AboveGenesis genesis st (event nHeight) := by
  intro env heq
  cases heq

theorem run_node {nHeight : ℕ} (h : nHeight < 12) :
    NodeRun mainNet disk genesis (AboveGenesis genesis) (node nHeight) := by
  induction nHeight with
  | zero =>
    have hstart : startNode mainNet (envAt 1) [] (block 0) 1 8 = (true, node 0) :=
      Prod.ext (by decide) rfl
    exact .start hstart (by decide)
  | succ nHeight ih => exact .event (ih (by omega)) (fits_event h) (aboveGenesis_event _ _)

end CheckpointExample

open CheckpointExample in
theorem checkpoint_example : ∃ below : PIndex,
    below.getBlockHash = 0x000000510a92dcd0364d79ace286a8d44c060f96eff907f649c00b120901fa69 ∧
      below.nHeight = 10 ∧ below <:+ (node 10).pindexBest ∧ below <:+ (node 11).pindexBest :=
  checkpoint_final (P := mainNet) (run_node (by decide))
    (.single ⟨event 11, fits_event (by decide), aboveGenesis_event _ _, rfl⟩) rfl (by decide +kernel)
    (by decide +kernel)

end Electra.Node

import Electra.Ledger.BlockStep
import Electra.Ledger.HeightPrefix

/-!
# Chains of accepted blocks

A branch lists the blocks of a chain above genesis with their index entries.  Its ledger lists their
transactions with the positions at which the blocks were written.
-/

namespace Electra.Ledger

open Chain Foundations.SpendIndex Foundations.Outcome

/-- The blocks above genesis with their index entries, the tip first. -/
abbrev Branch := List (CBlock × CBlockIndex)

/-- The pointer to the tip of a branch. -/
def pindexOf (genesis : CBlockIndex) (chain : Branch) : PIndex :=
  chain.map Prod.snd ++ [genesis]

@[simp]
theorem pindexOf_nil (genesis : CBlockIndex) : pindexOf genesis [] = [genesis] := rfl

@[simp]
theorem pindexOf_cons (genesis : CBlockIndex) (entry : CBlock × CBlockIndex) (chain : Branch) :
    pindexOf genesis (entry :: chain) = entry.2 :: pindexOf genesis chain := rfl

theorem pindexOf_ne_nil (genesis : CBlockIndex) (chain : Branch) : pindexOf genesis chain ≠ [] := by
  simp [pindexOf]

@[simp]
theorem nHeight_pindexOf (genesis : CBlockIndex) (chain : Branch) :
    (pindexOf genesis chain).nHeight = chain.length := by
  simp [PIndex.nHeight, pindexOf]

/-- The transactions of a branch with their positions, in the order in which they were entered. -/
def ledger : Branch → List (CTransaction × CDiskTxPos)
  | [] => []
  | (block, index) :: chain => ledger chain ++ block.located [index] false

/-- What the transaction index keeps of a branch. -/
def ledgerOf (P : ChainParams) (chain : Branch) : List (Spender Uint256 CDiskTxPos) :=
  (ledger chain).map (spenderOf P)

theorem ledgerOf_cons (P : ChainParams) (block : CBlock) (index : CBlockIndex) (chain : Branch)
    (pprev : PIndex) :
    ledgerOf P ((block, index) :: chain) = ledgerOf P chain ++ spendersOf P block (index :: pprev) := by
  simp [ledgerOf, ledger, spendersOf]
  rfl

variable {chain : Branch} {block : CBlock} {index : CBlockIndex}

/-- Every transaction of a ledger is in a block of its branch. -/
theorem exists_of_mem_ledger {entry : CTransaction × CDiskTxPos} (h : entry ∈ ledger chain) :
    ∃ above block index below,
      chain = above ++ (block, index) :: below ∧ entry ∈ block.located [index] false := by
  induction chain with
  | nil => cases h
  | cons top chain ih =>
    obtain ⟨block, index⟩ := top
    rw [ledger, List.mem_append] at h
    rcases h with h | h
    · obtain ⟨above, block', index', below, rfl, hmem⟩ := ih h
      exact ⟨(block, index) :: above, block', index', below, rfl, hmem⟩
    · exact ⟨[], block, index, chain, rfl, h⟩

theorem mem_vtx_of_mem_located {pindex : PIndex} {entry : CTransaction × CDiskTxPos}
    (h : entry ∈ block.located pindex false) :
    entry.1 ∈ block.vtx := by
  rw [← map_fst_located block pindex false]
  exact List.mem_map_of_mem h

/-! ## Acceptance -/

section Accepted

variable (P : ChainParams) (disk : BlockFiles)

/-- The block passed `AcceptBlock` on top of its parent and was written at its position. -/
structure Accepted (block : CBlock) (index : CBlockIndex) (pprev : PIndex) : Prop where
  parent : block.hashPrevBlock = pprev.getBlockHash
  checks : ∃ env nBestHeight, acceptBlockChecks P env nBestHeight pprev block = .ok ()
  entry : ∃ hashProofOfStake stakeModifier,
    index = newBlockIndex P block index.nFile index.nBlockPos hashProofOfStake stakeModifier
  written : WrittenAt disk index.nFile index.nBlockPos block

/-- All blocks of a branch were accepted, each on top of the one below it. -/
def AcceptedBranch (genesis : CBlockIndex) : Branch → Prop
  | [] => True
  | (block, index) :: chain =>
      Accepted P disk block index (pindexOf genesis chain) ∧ AcceptedBranch genesis chain

/-- The transactions of all accepted blocks. -/
def acceptedTxs : Set CTransaction :=
  {tx | ∃ block index pprev, Accepted P disk block index pprev ∧ tx ∈ block.vtx}

end Accepted

variable {P : ChainParams} {disk : BlockFiles} {genesis : CBlockIndex}

theorem AcceptedBranch.below {above below : Branch}
    (h : AcceptedBranch P disk genesis (above ++ below)) : AcceptedBranch P disk genesis below := by
  induction above with
  | nil => exact h
  | cons entry above ih => exact ih h.2

/-- An index entry tells the block that was written for it. -/
theorem Accepted.block_unique {block' : CBlock} {pprev pprev' : PIndex}
    (h : Accepted P disk block index pprev) (h' : Accepted P disk block' index pprev') :
    block = block' :=
  Option.some.inj (h.written.readBlock.symm.trans h'.written.readBlock)

/-- The entry of an accepted block has its hash. -/
theorem Accepted.getHash {pprev : PIndex} (h : Accepted P disk block index pprev) :
    block.getHash P = index.phashBlock := by
  obtain ⟨hashProofOfStake, stakeModifier, hentry⟩ := h.entry
  rw [hentry]
  rfl

/-- A pointer tells the branch it ends. -/
theorem AcceptedBranch.unique {chain' : Branch} (h : AcceptedBranch P disk genesis chain)
    (h' : AcceptedBranch P disk genesis chain') (heq : pindexOf genesis chain = pindexOf genesis chain') :
    chain = chain' := by
  have hindex : chain.map Prod.snd = chain'.map Prod.snd := List.append_cancel_right heq
  clear heq
  induction chain generalizing chain' with
  | nil =>
    cases chain' with
    | nil => rfl
    | cons entry' chain' => cases hindex
  | cons entry chain ih =>
    cases chain' with
    | nil => cases hindex
    | cons entry' chain' =>
      obtain ⟨block, index⟩ := entry
      obtain ⟨block', index'⟩ := entry'
      obtain ⟨rfl, hrest⟩ := List.cons.inj hindex
      rw [ih h.2 h'.2 hrest, h.1.block_unique h'.1]

/-- The coinbase of an accepted block starts with the height of the block. -/
theorem Accepted.scriptSig0_height (h : Accepted P disk block index (pindexOf genesis chain))
    (hchecked : block.Checked P) {tx : CTransaction} (htx : tx ∈ block.vtx) (hbase : tx.isCoinBase) :
    pushInt64 [] ((chain.length + 1 : ℕ) : ℤ) <+: tx.scriptSig0 := by
  obtain ⟨env, nBestHeight, hchecks⟩ := h.checks
  have hhead : block.vtx.head? = some tx := by
    obtain ⟨first, hfirst, -⟩ := hchecked.head_isCoinBase
    have htail := hchecked.tail_not_coinBase tx
    cases hvtx : block.vtx with
    | nil => simp [hvtx] at htx
    | cons first' rest =>
      rw [hvtx] at htx htail
      rcases List.mem_cons.mp htx with rfl | hrest
      · rfl
      · rw [htail hrest] at hbase
        cases hbase
  simp only [acceptBlockChecks, bind_eq_ok, rejectIf_eq_ok, exists_const] at hchecks
  obtain ⟨-, -, -, -, -, -, -, -, hheight⟩ := hchecks
  simpa [startsWithHeight, hhead] using hheight

end Electra.Ledger

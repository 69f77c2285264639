import Electra.Node.PoolConsistency
import Electra.Node.SyncCheckpoint

/-!
# Maturity in the wallet and in the chain

The wallet counts the depth of a transaction by the heights of the tip and of its block.  Spending a
coinbase or coinstake walks back from the block that spends it and compares the positions of blocks.
Blocks of a chain have different positions, so that what is mature for the wallet passes the walk.
-/

namespace Electra.Chain

variable (P : ChainParams)

/-- The block of the main chain that a transaction is in, if `GetDepthInMainChainINTERNAL` finds it. -/
def CWalletTx.findInMainChain (st : NodeState) (wtx : CWalletTx) (fMerkleVerified : Bool) :
    Option PIndex :=
  if wtx.hashBlock = 0 ∨ wtx.nIndex = -1 then none
  else
    -- Find the block it claims to be in
    match st.mapBlockIndex wtx.hashBlock with
    | none => none
    | some pindex =>
        if !isInMainChain st pindex then none
        -- Make sure the merkle branch connects to this block
        else if !fMerkleVerified && checkMerkleBranch P (P.hashTx wtx.toCTransaction) wtx.vMerkleBranch
            wtx.nIndex != (pindex.head?.map CBlockIndex.hashMerkleRoot).getD 0 then none
        else some pindex

/-- What the search leaves in `fMerkleVerified`. -/
def CWalletTx.merkleVerified (st : NodeState) (wtx : CWalletTx) (fMerkleVerified : Bool) : Bool :=
  fMerkleVerified || (wtx.findInMainChain P st fMerkleVerified).isSome

def CWalletTx.getDepthInMainChainINTERNAL (st : NodeState) (wtx : CWalletTx) (fMerkleVerified : Bool) : ℤ :=
  match wtx.findInMainChain P st fMerkleVerified with
  | none => 0
  | some pindex => st.pindexBest.nHeight - pindex.nHeight + 1

def CWalletTx.getDepthInMainChain (st : NodeState) (wtx : CWalletTx) (fMerkleVerified : Bool) : ℤ :=
  let nResult := wtx.getDepthInMainChainINTERNAL P st fMerkleVerified
  if nResult = 0 ∧ (st.mempool.mapTx.lookup (P.hashTx wtx.toCTransaction)).isNone then -1 else nResult

def CWalletTx.getBlocksToMaturity (st : NodeState) (wtx : CWalletTx) (fMerkleVerified : Bool) : ℤ :=
  if !(wtx.isCoinBase || wtx.isCoinStake) then 0
  else if P.fTestNet then max 0 (nCoinbaseMaturity + 1 - wtx.getDepthInMainChain P st fMerkleVerified)
  else if st.pindexBest.nHeight > LAST_OLD_POS_BLOCK then
    max 0 (nCoinbaseMaturity + 1 - wtx.getDepthInMainChain P st fMerkleVerified)
  else max 0 (nCoinbaseMaturity + 422 - wtx.getDepthInMainChain P st fMerkleVerified)

end Electra.Chain

namespace Electra.Node

open Chain Ledger

variable {P : ChainParams} {disk : BlockFiles} {genesis index : CBlockIndex} {st : NodeState}
  {wtx : CWalletTx} {fMerkleVerified : Bool} {pindex pprev : PIndex}

/-- A mature transaction is in a block of the main chain, under at least `nCoinbaseMaturity` others. -/
theorem findInMainChain_of_matured (hgenerated : (wtx.isCoinBase || wtx.isCoinStake) = true)
    (hmature : wtx.getBlocksToMaturity P st fMerkleVerified = 0) :
    ∃ pindex, wtx.findInMainChain P st fMerkleVerified = some pindex ∧
      nCoinbaseMaturity ≤ st.pindexBest.nHeight - pindex.nHeight := by
  have hdepth : nCoinbaseMaturity + 1 ≤ wtx.getDepthInMainChain P st fMerkleVerified := by
    simp only [CWalletTx.getBlocksToMaturity, hgenerated, Bool.not_true, Bool.false_eq_true,
      if_false] at hmature
    split at hmature
    · omega
    · split at hmature <;> omega
  have hpos : (0 : ℤ) ≤ nCoinbaseMaturity := by decide
  have hinternal : wtx.getDepthInMainChain P st fMerkleVerified =
      wtx.getDepthInMainChainINTERNAL P st fMerkleVerified := by
    simp only [CWalletTx.getDepthInMainChain] at hdepth ⊢
    split at hdepth
    · omega
    · next hnot => rw [if_neg hnot]
  rw [hinternal, CWalletTx.getDepthInMainChainINTERNAL] at hdepth
  cases hfind : wtx.findInMainChain P st fMerkleVerified with
  | none =>
    rw [hfind] at hdepth
    simp only at hdepth
    omega
  | some pindex =>
    rw [hfind] at hdepth
    simp only at hdepth
    exact ⟨pindex, rfl, by omega⟩

theorem findInMainChain_eq_some (h : wtx.findInMainChain P st fMerkleVerified = some pindex) :
    st.mapBlockIndex wtx.hashBlock = some pindex ∧ isInMainChain st pindex = true := by
  unfold CWalletTx.findInMainChain at h
  split at h
  · cases h
  · split at h
    · cases h
    · next hlookup =>
      split at h
      · cases h
      · next hmain =>
        split at h
        · cases h
        · cases h
          exact ⟨hlookup, by simpa using hmain⟩

/-- The block of an entry is on disk at the position of the entry. -/
def OnDisk (P : ChainParams) (disk : BlockFiles) (index : CBlockIndex) : Prop :=
  ∃ block, disk.readBlock index.nFile index.nBlockPos = some block ∧ block.getHash P = index.phashBlock

theorem onDisk_of_accepted {block : CBlock} (h : Accepted P disk block index pprev) :
    OnDisk P disk index := ⟨block, h.written.readBlock, h.getHash⟩

/-- Blocks at one position have one hash. -/
theorem OnDisk.phashBlock_eq {index' : CBlockIndex} (h : OnDisk P disk index) (h' : OnDisk P disk index')
    (hfile : index'.nFile = index.nFile) (hpos : index'.nBlockPos = index.nBlockPos) :
    index'.phashBlock = index.phashBlock := by
  obtain ⟨block, hread, hhash⟩ := h
  obtain ⟨block', hread', hhash'⟩ := h'
  rw [hfile, hpos, hread] at hread'
  cases hread'
  rw [← hhash, hhash']

/-- A block on top of the tip: written to disk, and with a hash that no other entry of the index has. -/
structure NextBlock (P : ChainParams) (disk : BlockFiles) (st : NodeState) (indexNew : CBlockIndex) :
    Prop where
  onDisk : OnDisk P disk indexNew
  entry : ∀ pindex, st.mapBlockIndex indexNew.phashBlock = some pindex → pindex = indexNew :: st.pindexBest

theorem onDisk_of_indexed (h : Indexed P disk genesis st) (hgenesis : OnDisk P disk genesis)
    {hash : Uint256} (hindex : st.mapBlockIndex hash = some (index :: pprev)) : OnDisk P disk index := by
  obtain ⟨chain, haccepted, heq⟩ := h.branch hash _ hindex
  cases chain with
  | nil =>
    rw [pindexOf_nil] at heq
    cases heq
    exact hgenesis
  | cons entry below =>
    rw [pindexOf_cons] at heq
    cases heq
    exact onDisk_of_accepted haccepted.1

/-- Entries of one chain at one position are one entry. -/
theorem eq_of_position (h : TreeInv P disk genesis st) (hgenesis : OnDisk P disk genesis)
    {index' : CBlockIndex} {pprev' : PIndex} (hsuffix : index :: pprev <:+ st.pindexBest)
    (hsuffix' : index' :: pprev' <:+ st.pindexBest) (hfile : index'.nFile = index.nFile)
    (hpos : index'.nBlockPos = index.nBlockPos) : index' :: pprev' = index :: pprev := by
  have hlookup := h.indexed.ancestor h.best hsuffix (List.cons_ne_nil _ _)
  have hlookup' := h.indexed.ancestor h.best hsuffix' (List.cons_ne_nil _ _)
  have hhash : index'.phashBlock = index.phashBlock :=
    (onDisk_of_indexed h.indexed hgenesis hlookup).phashBlock_eq
      (onDisk_of_indexed h.indexed hgenesis hlookup') hfile hpos
  exact h.eq_of_suffix h.best hsuffix' (List.cons_ne_nil _ _) hhash hlookup

/-- The walk ends above a block that it has to pass with `nCoinbaseMaturity` steps. -/
theorem spendsImmature_append {above below : PIndex} {pos : CDiskTxPos}
    (hlength : nCoinbaseMaturity.toNat ≤ above.length)
    (hapart : ∀ index ∈ above, ¬ (index.nFile = pos.nFile ∧ index.nBlockPos = pos.nBlockPos)) :
    spendsImmature (above ++ below) pos = false := by
  rw [spendsImmature, List.take_append_of_le_length hlength, List.any_eq_false]
  intro index hindex heq
  rw [Bool.and_eq_true, beq_iff_eq, beq_iff_eq] at heq
  exact hapart index (List.mem_of_mem_take hindex) heq.symm

theorem position_of_located {block : CBlock} {entry : CTransaction × CDiskTxPos}
    (h : entry ∈ block.located (index :: pprev) false) :
    entry.2.nFile = index.nFile ∧ entry.2.nBlockPos = index.nBlockPos := by
  have hloop : ∀ (vtx : List CTransaction) (nTxPos : ℕ),
      entry ∈ locate index.nFile index.nBlockPos nTxPos vtx →
        entry.2.nFile = index.nFile ∧ entry.2.nBlockPos = index.nBlockPos := by
    intro vtx
    induction vtx with
    | nil => simp [locate]
    | cons tx vtx ih =>
      intro nTxPos hmem
      obtain rfl | hmem := List.mem_cons.mp hmem
      · exact ⟨rfl, rfl⟩
      · exact ih _ hmem
  exact hloop block.vtx _ h

/-- A coinbase or coinstake that is mature for the wallet can be spent at the tip, as far as the pool is
concerned, and in every block on top of the tip. -/
theorem spendsImmature_of_matured (h : TreeInv P disk genesis st) (hgenesis : OnDisk P disk genesis)
    {block : CBlock} {pos : CDiskTxPos} (hindex : st.mapBlockIndex wtx.hashBlock = some (index :: pprev))
    (hblock : (wtx.toCTransaction, pos) ∈ block.located (index :: pprev) false)
    (hgenerated : (wtx.isCoinBase || wtx.isCoinStake) = true)
    (hmature : wtx.getBlocksToMaturity P st fMerkleVerified = 0) :
    spendsImmature st.pindexBest pos = false ∧
      ∀ indexNew, NextBlock P disk st indexNew →
        spendsImmature (indexNew :: st.pindexBest) pos = false := by
  obtain ⟨pindex, hfind, hdepth⟩ := findInMainChain_of_matured hgenerated hmature
  obtain ⟨hlookup, hmain⟩ := findInMainChain_eq_some hfind
  obtain rfl := Option.some.inj (hindex.symm.trans hlookup)
  have hsuffix := h.suffix_of_isInMainChain hmain
  have hsplit := hsuffix
  obtain ⟨above, habove⟩ := hsplit
  have hpos : pos.nFile = index.nFile ∧ pos.nBlockPos = index.nBlockPos := position_of_located hblock
  have hlength : nCoinbaseMaturity.toNat ≤ above.length := by
    have hsum := congrArg List.length habove
    rw [List.length_append] at hsum
    simp only [PIndex.nHeight] at hdepth
    omega
  have hapart : ∀ a ∈ above, ¬ (a.nFile = pos.nFile ∧ a.nBlockPos = pos.nBlockPos) := by
    intro a ha heq
    obtain ⟨upper, lower, hsplit⟩ := List.append_of_mem ha
    have hsuffix' : a :: (lower ++ index :: pprev) <:+ st.pindexBest :=
      ⟨upper, by rw [← habove, hsplit, List.append_assoc, List.cons_append]⟩
    have hsame := eq_of_position h hgenesis hsuffix hsuffix' (heq.1.trans hpos.1) (heq.2.trans hpos.2)
    have hlong := congrArg List.length hsame
    simp only [List.length_cons, List.length_append] at hlong
    omega
  refine ⟨?_, fun indexNew hnew ↦ ?_⟩
  · rw [← habove]
    exact spendsImmature_append hlength hapart
  · rw [← habove, ← List.cons_append]
    apply spendsImmature_append (hlength.trans (Nat.le_succ _))
    intro a ha heq
    obtain rfl | ha := List.mem_cons.mp ha
    · have hhash := (onDisk_of_indexed h.indexed hgenesis hindex).phashBlock_eq hnew.onDisk
        (heq.1.trans hpos.1) (heq.2.trans hpos.2)
      have hown : index.phashBlock = wtx.hashBlock := h.indexed.hash _ _ hindex
      have hsame := hnew.entry _ (by rw [hhash, hown, hindex])
      have hlong := congrArg List.length hsame
      rw [← habove] at hlong
      simp only [List.length_cons, List.length_append] at hlong
      omega
    · exact hapart a ha heq

namespace MaturityExample

open Builders PoolExample

/-- The coinbase of the second block, as the wallet of its miner has it. -/
def mined : CWalletTx where
  toCTransaction := coinbase 3 900 2 [output (1000000019 * COIN)]
  hashBlock := 2
  vMerkleBranch := []
  nIndex := 0
  fFromMe := false
  vfSpent := []

theorem treeInv_quietNode : TreeInv testNet PoolExample.disk PoolExample.genesis (quietNode 12) := by
  have hcalls : ∀ n < 12, ConnectsPostponed testNet (quietNode n) (quietEvent (n + 1)) := by
    decide
  obtain ⟨chain, hinv⟩ := (run_quietNode le_rfl hcalls).inv
  exact hinv.treeInv

end MaturityExample

open Builders PoolExample MaturityExample in
theorem spendsImmature_example :
    mined.getBlocksToMaturity testNet (quietNode 12) false = 0 ∧
      spendsImmature (quietNode 12).pindexBest ⟨3, 8, 89⟩ = false ∧
      spendsImmature (indexOf testNet confirming 14 8 :: (quietNode 12).pindexBest) ⟨3, 8, 89⟩ = false := by
  have hmature : mined.getBlocksToMaturity testNet (quietNode 12) false = 0 := by decide +kernel
  have hgenesis : OnDisk testNet PoolExample.disk PoolExample.genesis :=
    ⟨quietBlock testNet 0, by decide, by decide⟩
  have hindex : (quietNode 12).mapBlockIndex mined.hashBlock =
      some [indexOf testNet (quietBlock testNet 2) 3 8, indexOf testNet (quietBlock testNet 1) 2 8,
        PoolExample.genesis] := by decide
  have hblock : (mined.toCTransaction, ⟨3, 8, 89⟩) ∈ (quietBlock testNet 2).located
      [indexOf testNet (quietBlock testNet 2) 3 8, indexOf testNet (quietBlock testNet 1) 2 8,
        PoolExample.genesis] false := by decide
  have hnext : NextBlock testNet PoolExample.disk (quietNode 12) (indexOf testNet confirming 14 8) := by
    refine ⟨⟨confirming, by decide, by decide⟩, fun pindex hpindex ↦ ?_⟩
    have hnone : (quietNode 12).mapBlockIndex (indexOf testNet confirming 14 8).phashBlock = none := by
      decide
    rw [hnone] at hpindex
    cases hpindex
  obtain ⟨hpool, hblocks⟩ := spendsImmature_of_matured treeInv_quietNode hgenesis hindex hblock
    (by decide) hmature
  exact ⟨hmature, hpool, hblocks _ hnext⟩

end Electra.Node

import Electra.Ledger.SumRange
import Electra.Ledger.Supply
import Electra.Node.Reorganize

/-!
# The money supply of the best block

However blocks are connected, disconnected and reorganised, the money supply noted for the tip is
the value of what the transaction index lists as unspent, and its mint is the change of the supply
plus the fees.

In a state that a node reaches, a block cannot spend more than the money supply and its own outputs.
So its sums are in the range of `int64_t` just when the supply and the total of its outputs are
together.  Nothing keeps that total down: transactions that spend one another's outputs count the same
coins again and again.
-/

namespace Electra.Node

open Chain Ledger Foundations.SpendIndex Foundations.Outcome Foundations.WriteBatch

section Supply

variable (P : ChainParams) (disk : BlockFiles) (genesis : CBlockIndex)

/-- Connecting, disconnecting and reorganising; a reorganisation that fails is aborted.  In between
anything may happen that leaves the transaction index and the notes on the current branch alone. -/
inductive SupplyStep : Placed → Placed → Prop
  | block {s s' : Placed} (step : BlockStep P disk genesis s s') : SupplyStep s s'
  | reorganize {chain chain' : Branch} {env : Env} {st st' : NodeState}
      (files : env.files.ReadsFrom disk) (accepted : AcceptedBranch P disk genesis chain')
      (idle : st.txdb.activeBatch = none) (best : st.pindexBest = pindexOf genesis chain)
      (step : Chain.reorganize P env { st with txdb := st.txdb.txnBegin } (pindexOf genesis chain') =
        .ok st') :
      SupplyStep (chain, st) (chain', st')
  | failedReorganize {chain chain' : Branch} {env : Env} {st : NodeState}
      {failure : Reject × NodeState}
      (files : env.files.ReadsFrom disk) (accepted : AcceptedBranch P disk genesis chain')
      (idle : st.txdb.activeBatch = none) (best : st.pindexBest = pindexOf genesis chain)
      (step : Chain.reorganize P env { st with txdb := st.txdb.txnBegin } (pindexOf genesis chain') =
        .error failure) :
      SupplyStep (chain, st) (chain, txnAbort failure.2)
  | other {chain : Branch} {st st' : NodeState}
      (txindexes : st'.txdb.readTxIndex = st.txdb.readTxIndex)
      (nMint : ∀ above below, chain = above ++ below →
        st'.nMint (pindexOf genesis below) = st.nMint (pindexOf genesis below))
      (nMoneySupply : ∀ above below, chain = above ++ below →
        st'.nMoneySupply (pindexOf genesis below) = st.nMoneySupply (pindexOf genesis below)) :
      SupplyStep (chain, st) (chain, st')

/-- Value of the unspent outputs of a branch. -/
noncomputable def branchSupply (chain : Branch) : ℤ :=
  supplyAt disk (Foundations.SpendIndex.indexOf (ledgerOf P chain))

/-- The notes on the tip of a branch are right. -/
structure Supplied (st : NodeState) (chain : Branch) : Prop where
  nMoneySupply : st.nMoneySupply (pindexOf genesis chain) = branchSupply P disk chain
  nMint : ∀ block index below, chain = (block, index) :: below →
    st.nMint (pindexOf genesis chain) = branchSupply P disk chain - branchSupply P disk below +
      sumFees (branchValues P disk below block index)

/-- The index is that of the branch, and the notes on all its blocks are right. -/
structure SupplyInv (s : Placed) : Prop where
  accepted : AcceptedBranch P disk genesis s.1
  ledgered : Ledgered P s.1 s.2.txdb.readTxIndex
  supplied : ∀ above below, s.1 = above ++ below → Supplied P disk genesis s.2 below

variable {P disk genesis} {s s' : Placed}

variable {st : NodeState} {chain : Branch}

theorem Supplied.congr {st' : NodeState} (h : Supplied P disk genesis st chain)
    (hsupply : st'.nMoneySupply (pindexOf genesis chain) = st.nMoneySupply (pindexOf genesis chain))
    (hmint : st'.nMint (pindexOf genesis chain) = st.nMint (pindexOf genesis chain)) :
    Supplied P disk genesis st' chain :=
  ⟨hsupply.trans h.nMoneySupply, fun block index below heq ↦ hmint.trans (h.nMint block index below heq)⟩

/-- The notes that `ConnectBlock` makes are right. -/
theorem supplied_of_connects {env : Env} {st' : NodeState} {sums : ConnectSums} {block : CBlock}
    {index : CBlockIndex} (hfiles : env.files.ReadsFrom disk)
    (hinv : SupplyInv P disk genesis (chain, st))
    (haccepted : Accepted P disk block index (pindexOf genesis chain))
    (hconnects : Connects P env st st' block (index :: pindexOf genesis chain) sums) :
    Supplied P disk genesis st' ((block, index) :: chain) := by
  obtain ⟨hsums, hsupply⟩ := supply_connects hfiles hinv.ledgered ⟨haccepted, hinv.accepted⟩ hconnects
  have hprev := (hinv.supplied [] chain rfl).nMoneySupply
  have hstep : branchSupply P disk ((block, index) :: chain) =
      branchSupply P disk chain + sums.nValueOut - sums.nValueIn := hsupply
  refine ⟨?_, ?_⟩
  · rw [hconnects.nMoneySupply, pindexOf_cons, Function.update_self, supplyOf, List.tail_cons,
      if_neg (pindexOf_ne_nil genesis chain), hprev, hstep]
  · intro block' index' below heq
    obtain ⟨heq', rfl⟩ := List.cons.inj heq
    obtain ⟨rfl, rfl⟩ := Prod.mk.inj heq'
    rw [hconnects.nMint, pindexOf_cons, Function.update_self, mintOf, hstep, ← hsums.nFees]
    ring

/-- Block steps keep the notes on every accepted branch, and the invariant. -/
theorem SupplyInv.blockStep (hinv : SupplyInv P disk genesis s) (h : BlockStep P disk genesis s s') :
    SupplyInv P disk genesis s' ∧ ∀ chain, AcceptedBranch P disk genesis chain →
      Supplied P disk genesis s.2 chain → Supplied P disk genesis s'.2 chain := by
  have haccepted := h.accepted hinv.accepted
  cases h with
  | @connect chain env st st' block index files accepted step =>
    obtain ⟨sums, hconnects⟩ := connectBlock_eq_ok step
    have hnew := supplied_of_connects files hinv accepted hconnects
    have hkeep : ∀ chain', AcceptedBranch P disk genesis chain' →
        Supplied P disk genesis st chain' → Supplied P disk genesis st' chain' := by
      intro chain' haccepted' hold
      by_cases heq : pindexOf genesis chain' = pindexOf genesis ((block, index) :: chain)
      · rw [haccepted'.unique haccepted heq]
        exact hnew
      · rw [pindexOf_cons] at heq
        refine hold.congr ?_ ?_
        · rw [hconnects.nMoneySupply, Function.update_of_ne heq]
        · rw [hconnects.nMint, Function.update_of_ne heq]
    refine ⟨⟨haccepted, hinv.ledgered.connect hconnects, ?_⟩, hkeep⟩
    intro above below hsplit
    cases above with
    | nil =>
      obtain rfl : (block, index) :: chain = below := hsplit
      exact hnew
    | cons entry above =>
      obtain ⟨-, rfl⟩ := List.cons.inj hsplit
      exact hkeep below hinv.accepted.below (hinv.supplied above below rfl)
  | @disconnect chain st st' block index step =>
    have hdisconnects := disconnectBlock_eq_ok step
    have hkeep : ∀ chain', Supplied P disk genesis st chain' → Supplied P disk genesis st' chain' :=
      fun chain' hold ↦ hold.congr (by rw [hdisconnects.nMoneySupply]) (by rw [hdisconnects.nMint])
    refine ⟨⟨haccepted, hinv.ledgered.disconnect hdisconnects, ?_⟩, fun chain' _ ↦ hkeep chain'⟩
    rintro above below rfl
    exact hkeep below (hinv.supplied ((block, index) :: above) below rfl)

theorem SupplyInv.blockSteps (hinv : SupplyInv P disk genesis s)
    (h : BlockSteps P disk genesis s s') :
    SupplyInv P disk genesis s' ∧ ∀ chain, AcceptedBranch P disk genesis chain →
      Supplied P disk genesis s.2 chain → Supplied P disk genesis s'.2 chain := by
  induction h with
  | refl => exact ⟨hinv, fun _ _ hold ↦ hold⟩
  | tail steps step ih =>
    obtain ⟨hmid, hkeep⟩ := ih
    obtain ⟨hlast, hkeep'⟩ := hmid.blockStep step
    exact ⟨hlast, fun chain haccepted hold ↦ hkeep' chain haccepted (hkeep chain haccepted hold)⟩

theorem SupplyInv.txnBegin (hinv : SupplyInv P disk genesis (chain, st))
    (hidle : st.txdb.activeBatch = none) :
    SupplyInv P disk genesis (chain, { st with txdb := st.txdb.txnBegin }) where
  accepted := hinv.accepted
  ledgered := (readTxIndex_txnBegin hidle).symm ▸ hinv.ledgered
  supplied above below hsplit := (hinv.supplied above below hsplit).congr rfl rfl

theorem SupplyInv.step (hinv : SupplyInv P disk genesis s) (h : SupplyStep P disk genesis s s') :
    SupplyInv P disk genesis s' := by
  cases h with
  | block step => exact (hinv.blockStep step).1
  | @reorganize chain chain' env st st' files accepted idle best step =>
    obtain ⟨above, above', below, st₁, -, -, hsteps, rfl⟩ :=
      reorganize_eq_ok { st with txdb := st.txdb.txnBegin } files hinv.accepted accepted best
        step
    have hopen : st₁.txdb.activeBatch ≠ none := hsteps.frame.txdb.batch (by simp)
    have hend := ((hinv.txnBegin idle).blockSteps hsteps).1
    refine ⟨accepted, ?_, fun above₁ below₁ hsplit ↦ (hend.supplied above₁ below₁ hsplit).congr rfl rfl⟩
    exact (readTxIndex_committed hopen _).symm ▸ hend.ledgered
  | @failedReorganize chain chain' env st failure files accepted idle best step =>
    obtain ⟨s, hsteps, hend⟩ := reorganize_eq_error { st with txdb := st.txdb.txnBegin } files
      hinv.accepted accepted best step
    have hkeep := ((hinv.txnBegin idle).blockSteps hsteps).2
    have hpdb := pdb_of_reorganize_eq_error { st with txdb := st.txdb.txnBegin } files
      hinv.accepted accepted best (by simp) step
    have htxdb : (txnAbort failure.2).txdb = st.txdb := txnAbort_eq idle hpdb
    refine ⟨hinv.accepted, htxdb.symm ▸ hinv.ledgered, ?_⟩
    intro above₁ below₁ hsplit
    have hold := hkeep below₁ (hsplit ▸ hinv.accepted : AcceptedBranch P disk genesis _).below
      ((hinv.supplied above₁ below₁ hsplit).congr rfl rfl)
    rcases hend with ⟨txdb, heq, -⟩ | heq
    · exact hold.congr (by rw [heq]; rfl) (by rw [heq]; rfl)
    · exact hold.congr (by rw [heq]; rfl) (by rw [heq]; rfl)
  | other txindexes nMint nMoneySupply =>
    refine ⟨hinv.accepted, txindexes.symm ▸ hinv.ledgered, fun above below hsplit ↦ ?_⟩
    exact (hinv.supplied above below hsplit).congr (nMoneySupply above below hsplit)
      (nMint above below hsplit)

theorem SupplyInv.run (hinv : SupplyInv P disk genesis s)
    (h : Relation.ReflTransGen (SupplyStep P disk genesis) s s') : SupplyInv P disk genesis s' := by
  induction h with
  | refl => exact hinv
  | tail steps step ih => exact ih.step step

/-- Before any block is connected the index is empty and the supply is zero. -/
theorem supplyInv_genesis (hindex : st.txdb.readTxIndex = fun _ ↦ none)
    (hsupply : st.nMoneySupply [genesis] = 0) : SupplyInv P disk genesis ([], st) := by
  have hempty : branchSupply P disk [] = 0 := by
    simp [branchSupply, supplyAt, unspentTotal, Foundations.SpendIndex.indexOf, ledgerOf, ledger]
  refine ⟨trivial, ⟨trivial, hindex ▸ .refl _⟩, ?_⟩
  intro above below hsplit
  obtain ⟨-, rfl⟩ := List.append_eq_nil_iff.mp hsplit.symm
  refine ⟨hsupply.trans hempty.symm, fun block index below hnil ↦ ?_⟩
  cases hnil

/-- The money supply noted for the tip is the value of all unspent outputs of the transaction index,
and the mint of its block is the change of the supply plus the fees. -/
theorem nMoneySupply_eq_supplyAt {st₀ st : NodeState} {chain : Branch}
    (hindex : st₀.txdb.readTxIndex = fun _ ↦ none) (hsupply : st₀.nMoneySupply [genesis] = 0)
    (h : Relation.ReflTransGen (SupplyStep P disk genesis) ([], st₀) (chain, st)) :
    st.nMoneySupply (pindexOf genesis chain) = supplyAt disk st.txdb.readTxIndex ∧
      ∀ block index below, chain = (block, index) :: below →
        st.nMint (pindexOf genesis chain) =
          st.nMoneySupply (pindexOf genesis chain) - st.nMoneySupply (pindexOf genesis below) +
            sumFees (branchValues P disk below block index) := by
  have hinv := (supplyInv_genesis hindex hsupply).run h
  have htip := hinv.supplied [] chain rfl
  refine ⟨?_, ?_⟩
  · rw [htip.nMoneySupply, branchSupply, supplyAt, supplyAt, hinv.ledgered.shadow.unspentTotal_eq]
  · rintro block index below rfl
    rw [htip.nMint block index below rfl, htip.nMoneySupply,
      (hinv.supplied [(block, index)] below rfl).nMoneySupply]

end Supply

namespace SupplyExample

open RunExample

/-- A step of a node that is past the blocks whose signatures are skipped. -/
def HighStep (s s' : Placed) : Prop :=
  SupplyStep testNet disk genesis s s' ∧ getTotalBlocksEstimate testNet ≤ s.2.nBestHeight

variable {n : ℕ}

theorem connectStep (hn : n < 13) {st : NodeState}
    (hconnects : (connectBlock testNet env st (entry (n + 1)).1 (pindexOf genesis (chainTo (n + 1)))
      false).isOk = true) :
    BlockStep testNet disk genesis (chainTo n, st) (chainTo (n + 1), connectNext st n) :=
  @BlockStep.connect _ _ _ _ _ _ _ (entry (n + 1)).1 (entry (n + 1)).2 (.refl disk) (accepted hn)
    (Builders.connected_eq hconnects)

theorem disconnectStep {st : NodeState} (hdisconnects : (disconnectBlock testNet st
      (entry (n + 1)).1 (pindexOf genesis (chainTo (n + 1)))).isOk = true) :
    BlockStep testNet disk genesis (chainTo (n + 1), st) (chainTo n, disconnectTop st (n + 1)) :=
  @BlockStep.disconnect _ _ _ _ _ _ (entry (n + 1)).1 (entry (n + 1)).2
    (disconnectTop_eq hdisconnects)

/-- A block is connected or disconnected, and the tip follows. -/
theorem highRun_step {chain chain' : Branch} {st st' : NodeState} (n : ℕ)
    (h : Relation.ReflTransGen HighStep ([], nodeAfter 0) (chain, st))
    (hstep : BlockStep testNet disk genesis (chain, st) (chain', st'))
    (hheight : getTotalBlocksEstimate testNet ≤ st.nBestHeight) :
    Relation.ReflTransGen HighStep ([], nodeAfter 0) (chain', tipTo n st') := by
  have htip : SupplyStep testNet disk genesis (chain', st') (chain', tipTo n st') :=
    .other rfl (fun _ _ _ ↦ rfl) fun _ _ _ ↦ rfl
  exact .tail (.tail h ⟨.block hstep, hheight⟩) ⟨htip, hstep.frame.nBestHeight ▸ hheight⟩

theorem estimate_le (n : ℕ) : getTotalBlocksEstimate testNet ≤ (n : ℤ) :=
  (show getTotalBlocksEstimate testNet = 0 from rfl) ▸ Int.natCast_nonneg n

theorem estimate_le_nodeAfter (n : ℕ) : getTotalBlocksEstimate testNet ≤ (nodeAfter n).nBestHeight := by
  cases n with
  | zero => decide
  | succ n => exact estimate_le (n + 1)

theorem highRun_nodeAfter (hn : n ≤ 13) :
    Relation.ReflTransGen HighStep ([], nodeAfter 0) (chainTo n, nodeAfter n) := by
  induction n with
  | zero => exact .refl
  | succ n ih =>
    exact highRun_step (n + 1) (ih (Nat.le_of_succ_le hn)) (connectStep hn (connectNext_nodeAfter n hn))
      (estimate_le_nodeAfter n)

theorem highRun : Relation.ReflTransGen HighStep ([], nodeAfter 0) (chainTo 13, finalNode) := by
  have hlowered : Relation.ReflTransGen HighStep ([], nodeAfter 0) (chainTo 12, lowered) :=
    highRun_step 12 (highRun_nodeAfter le_rfl) (@disconnectStep 12 (nodeAfter 13) disconnectTop_nodeAfter)
      (estimate_le_nodeAfter 13)
  exact hlowered.tail ⟨.block (connectStep (Nat.lt_succ_self 12) connectNext_lowered), estimate_le 12⟩

theorem supplyRun : Relation.ReflTransGen (SupplyStep testNet disk genesis) ([], nodeAfter 0)
    (chainTo 13, finalNode) :=
  Relation.ReflTransGen.mono (fun _ _ h ↦ h.1) _ _ highRun

end SupplyExample

open RunExample SupplyExample in
theorem nMoneySupply_example :
    finalNode.nMoneySupply (pindexOf genesis (chainTo 13)) =
        supplyAt disk finalNode.txdb.readTxIndex ∧
      ∀ block index below, chainTo 13 = (block, index) :: below →
        finalNode.nMint (pindexOf genesis (chainTo 13)) =
          finalNode.nMoneySupply (pindexOf genesis (chainTo 13)) -
              finalNode.nMoneySupply (pindexOf genesis below) +
            sumFees (branchValues testNet disk below block index) :=
  nMoneySupply_eq_supplyAt (by funext hash; rfl) rfl supplyRun

open Foundations.MachineInt

section Paid

/-- The output values of all blocks of a branch are in range. -/
def PaidInRange (chain : Branch) : Prop :=
  ∀ entry ∈ chain, ∀ tx ∈ entry.1.vtx, ∀ txout ∈ tx.vout, moneyRange txout.nValue

variable {P : ChainParams} {disk : BlockFiles} {genesis : CBlockIndex} {s s' : Placed}

theorem paidInRange_blockStep (h : BlockStep P disk genesis s s') (hpaid : PaidInRange s.1) :
    PaidInRange s'.1 := by
  cases h with
  | connect files accepted step =>
    simp only [connectBlock, connectChecks, bind_eq_ok, pure_eq_ok] at step
    obtain ⟨_, ⟨_, -, sums, hloop, -⟩, -⟩ := step
    intro entry hentry
    cases hentry with
    | head => exact outputs_inRange (connectLoop_inRange hloop)
    | tail _ hentry => exact hpaid entry hentry
  | disconnect step => exact fun entry hentry ↦ hpaid entry (.tail _ hentry)

theorem paidInRange_blockSteps (h : BlockSteps P disk genesis s s') (hpaid : PaidInRange s.1) :
    PaidInRange s'.1 := by
  induction h with
  | refl => exact hpaid
  | tail steps step ih => exact paidInRange_blockStep step ih

/-- What is on the branch of a node went through `ConnectBlock`. -/
theorem paidInRange_of_run {st₀ st : NodeState} {chain : Branch}
    (hindex : st₀.txdb.readTxIndex = fun _ ↦ none) (hsupply : st₀.nMoneySupply [genesis] = 0)
    (h : Relation.ReflTransGen (SupplyStep P disk genesis) ([], st₀) (chain, st)) :
    SupplyInv P disk genesis (chain, st) ∧ PaidInRange chain := by
  suffices hrun : ∀ s, Relation.ReflTransGen (SupplyStep P disk genesis) ([], st₀) s →
      SupplyInv P disk genesis s ∧ PaidInRange s.1 from hrun _ h
  intro s hs
  induction hs with
  | refl => exact ⟨supplyInv_genesis hindex hsupply, fun entry hentry ↦ nomatch hentry⟩
  | tail steps step ih =>
    obtain ⟨hinv, hpaid⟩ := ih
    refine ⟨hinv.step step, ?_⟩
    cases step with
    | block step => exact paidInRange_blockStep step hpaid
    | @reorganize chain chain' env st st' files accepted idle best step =>
      obtain ⟨_, _, _, st₁, -, -, hsteps, -⟩ := reorganize_eq_ok
        { st with txdb := st.txdb.txnBegin } files hinv.accepted accepted best step
      have hpaid' : PaidInRange chain' := paidInRange_blockSteps hsteps hpaid
      exact hpaid'
    | failedReorganize files accepted idle best step => exact hpaid
    | other txindexes nMint nMoneySupply => exact hpaid

/-- Outputs that are in range have a total that is not negative. -/
theorem supplyAt_nonneg {chain : Branch} (haccepted : AcceptedBranch P disk genesis chain)
    (hpaid : PaidInRange chain) :
    0 ≤ supplyAt disk (Foundations.SpendIndex.indexOf (ledgerOf P chain)) := by
  apply unspentTotal_nonneg
  intro hash txindex htxindex n
  obtain ⟨t, ht, hpos⟩ := exists_of_indexOf htxindex
  obtain ⟨entry, hentry, rfl⟩ := List.mem_map.mp ht
  obtain ⟨above, block, index, below, rfl, hmem⟩ := exists_of_mem_ledger hentry
  have hread := (haccepted.below.1.onDisk entry hmem).1
  rw [hpos, outputValue, show (spenderOf P entry).pos = entry.2 from rfl, hread, Option.bind_some]
  cases htxout : entry.1.vout[n]? with
  | none => exact le_rfl
  | some txout =>
    have htx := mem_vtx_of_mem_located hmem
    have hrange := hpaid (block, index) (by simp) entry.1 htx txout (List.mem_of_getElem? htxout)
    exact (moneyRange_iff.mp hrange).1

end Paid

section Totals

variable {P : ChainParams} {env : Env} {st : NodeState} {block : CBlock} {sums : ConnectSums}

/-- In a state that a node reaches, a block spends no more than the supply and its own outputs. -/
theorem sumIn_le_supply {disk : BlockFiles} {genesis : CBlockIndex} {st₀ : NodeState}
    {chain : Branch} {index : CBlockIndex}
    (hindex : st₀.txdb.readTxIndex = fun _ ↦ none) (hgenesis : st₀.nMoneySupply [genesis] = 0)
    (hrun : Relation.ReflTransGen (SupplyStep P disk genesis) ([], st₀) (chain, st))
    (hfiles : env.files.ReadsFrom disk)
    (haccepted : Accepted P disk block index (pindexOf genesis chain))
    (h : connectChecks64 P env st block (index :: pindexOf genesis chain) = .ok sums) :
    sumIn (blockValues P env st block (index :: pindexOf genesis chain)) ≤
      supplyBefore st (index :: pindexOf genesis chain) + totalOut block := by
  obtain ⟨hinv, hpaid⟩ := paidInRange_of_run hindex hgenesis hrun
  obtain ⟨exact, -, hall, hinputs⟩ := connectChecks64_spec h
  have hpaid' : PaidInRange ((block, index) :: chain) := by
    intro entry hentry
    cases hentry with
    | head => exact outputs_inRange hinputs
    | tail _ hentry => exact hpaid entry hentry
  have haccepted' : AcceptedBranch P disk genesis ((block, index) :: chain) := ⟨haccepted, hinv.accepted⟩
  have hnonneg := supplyAt_nonneg haccepted' hpaid'
  obtain ⟨-, hstep⟩ := supply_connectsAll hfiles hinv.ledgered haccepted' hall
  have hprev : supplyBefore st (index :: pindexOf genesis chain) = branchSupply P disk chain := by
    rw [supplyBefore, List.tail_cons, if_neg (pindexOf_ne_nil genesis chain)]
    exact (hinv.supplied [] chain rfl).nMoneySupply
  have hsums : SumsOf (blockValues P env st block (index :: pindexOf genesis chain)) exact := hall.sums
  rw [hprev, ← sumOut_blockValues P env st block (index :: pindexOf genesis chain),
    ← hsums.nValueIn, ← hsums.nValueOut]
  unfold branchSupply
  linarith

/-- The sums that `ConnectBlock` and `ConnectInputs` form for a block they let pass are in the range of
`int64_t` just when two totals are; in a state that a node reaches, just when the supply and the
outputs of the block are together. -/
theorem sumsInRange_iff (P : ChainParams) (env : Env) (st : NodeState) (block : CBlock) (pindex : PIndex)
    (h : (connectChecks64 P env st block pindex).isOk = true)
    (hsupply : moneyRange (supplyBefore st pindex) = true) :
    (SumsInRange P env st block pindex ↔
      sumIn (blockValues P env st block pindex) < 2 ^ 63 ∧
        supplyBefore st pindex + totalOut block < 2 ^ 63) ∧
    ∀ (disk : BlockFiles) (genesis : CBlockIndex) (st₀ : NodeState) (chain : Branch) (index : CBlockIndex),
      st₀.txdb.readTxIndex = (fun _ ↦ none) → st₀.nMoneySupply [genesis] = 0 →
      Relation.ReflTransGen (SupplyStep P disk genesis) ([], st₀) (chain, st) →
      env.files.ReadsFrom disk → Accepted P disk block index (pindexOf genesis chain) →
      pindex = index :: pindexOf genesis chain →
      (SumsInRange P env st block pindex ↔ supplyBefore st pindex + totalOut block < 2 ^ 63) := by
  obtain ⟨sums, hok⟩ := exists_eq_ok h
  have htotals := sumsInRange_iff_totals hok (moneyRange_iff.mp hsupply).1
  refine ⟨htotals, ?_⟩
  intro disk genesis st₀ chain index hindex hgenesis hrun hfiles haccepted hpindex
  rw [hpindex] at hok htotals ⊢
  have hle := sumIn_le_supply hindex hgenesis hrun hfiles haccepted hok
  rw [htotals]
  constructor
  · intro hboth
    exact hboth.2
  · intro hout
    exact ⟨hle.trans_lt hout, hout⟩

end Totals

namespace RelayExample

open Builders MintExample

/-- Transaction `100 + n` passes on what transaction `99 + n` paid, less a fee of one coin; the first
one spends the large subsidy. -/
def passOn (n : ℕ) : CTransaction :=
  spending (100 + n) 3900 [⟨if n = 0 then 3 else 99 + n, 0⟩] [output ((1000000018 - n) * COIN)]

/-- The proof-of-work block at height 12 with a chain of transactions. -/
def relay (nLength : ℕ) : CBlock := blockWith ((List.range nLength).map passOn)

def bank : NodeState := { node with nMoneySupply := fun _ ↦ 1000000019 * COIN }

end RelayExample

open MintExample RelayExample in
theorem sumsInRange_relay :
    (SumsInRange testNet (envWith (relay 2)) bank (relay 2) (pindex (relay 2)) ↔
      sumIn (blockValues testNet (envWith (relay 2)) bank (relay 2) (pindex (relay 2))) < 2 ^ 63 ∧
        supplyBefore bank (pindex (relay 2)) + totalOut (relay 2) < 2 ^ 63) ∧
    ∀ (disk : BlockFiles) (genesis : CBlockIndex) (st₀ : NodeState) (chain : Branch) (index : CBlockIndex),
      st₀.txdb.readTxIndex = (fun _ ↦ none) → st₀.nMoneySupply [genesis] = 0 →
      Relation.ReflTransGen (SupplyStep testNet disk genesis) ([], st₀) (chain, bank) →
      (envWith (relay 2)).files.ReadsFrom disk →
      Accepted testNet disk (relay 2) index (pindexOf genesis chain) →
      pindex (relay 2) = index :: pindexOf genesis chain →
      (SumsInRange testNet (envWith (relay 2)) bank (relay 2) (pindex (relay 2)) ↔
        supplyBefore bank (pindex (relay 2)) + totalOut (relay 2) < 2 ^ 63) :=
  sumsInRange_iff testNet (envWith (relay 2)) bank (relay 2) (pindex (relay 2)) (by decide +kernel)
    (by decide +kernel)

open MintExample RelayExample in
theorem not_sumsInRange_relay :
    checkBlock testNet 4000 (relay 93) true true true = .ok () ∧
      moneyRange (supplyBefore bank (pindex (relay 93))) = true ∧
      ((relay 93).vtx.all fun tx ↦ tx.vout.all (fun txout ↦ moneyRange txout.nValue) &&
        moneyRange tx.valueOut) = true ∧
      (∃ sums, connectChecks64 testNet (envWith (relay 93)) bank (relay 93) (pindex (relay 93)) = .ok sums ∧
        sums.nValueOut < 0) ∧
      ¬ SumsInRange testNet (envWith (relay 93)) bank (relay 93) (pindex (relay 93)) := by
  have hsupply : moneyRange (supplyBefore bank (pindex (relay 93))) = true := by decide +kernel
  have hrun : (connectChecks64 testNet (envWith (relay 93)) bank (relay 93)
      (pindex (relay 93))).toOption.any (fun sums ↦ decide (sums.nValueOut < 0)) = true := by
    decide +kernel
  cases hchecks : connectChecks64 testNet (envWith (relay 93)) bank (relay 93) (pindex (relay 93)) with
  | error reject =>
    rw [hchecks] at hrun
    cases hrun
  | ok sums =>
    rw [hchecks] at hrun
    refine ⟨by decide +kernel, hsupply, by decide +kernel, ⟨sums, rfl, of_decide_eq_true hrun⟩, ?_⟩
    rw [sumsInRange_iff_totals hchecks (moneyRange_iff.mp hsupply).1]
    intro htotals
    exact absurd htotals.2 (by decide +kernel)

end Electra.Node

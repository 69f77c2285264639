import Electra.Node.MoneySupply

/-!
# The rules of spending along the main chain

Whatever a transaction of the main chain spends was created by an earlier transaction of the chain,
which by the clock is not later; what a coinbase or coinstake pays is spent at least
`nCoinbaseMaturity` blocks above it.  An ordinary transaction pays the least fee out of what it
spends.  The checks of `ConnectInputs` establish this for one block, whatever the pool holds, and
blocks that are connected later or disconnected do not change it.
-/

namespace Electra.Ledger

open Chain Foundations.SpendIndex Foundations.Outcome

/-- Value of the output of a transaction that an outpoint names. -/
def paidTo (source : CTransaction) (prevout : COutPoint) : ℤ :=
  (source.vout[prevout.n]?.map CTxOut.nValue).getD 0

/-- The transaction is at least so many blocks below the next block on the branch. -/
def BuriedUnder (chain : Branch) (nDepth : ℤ) (source : CTransaction × CDiskTxPos) : Prop :=
  ∃ above block index below, chain = above ++ (block, index) :: below ∧
    source ∈ block.located [index] false ∧ nDepth ≤ above.length + 1

/-- The input spends an output of an earlier transaction: one of the branch, or one of those in front
of it in its block. -/
structure InputRules (P : ChainParams) (fSignatures : Prop) (chain : Branch)
    (pre : List (CTransaction × CDiskTxPos)) (tx : CTransaction) (input : CTxIn × ℕ)
    (source : CTransaction × CDiskTxPos) : Prop where
  earlier : source ∈ ledger chain ++ pre
  hash : P.hashTx source.1 = input.1.prevout.hash
  txout : ∃ txout, source.1.vout[input.1.prevout.n]? = some txout ∧ moneyRange txout.nValue
  mature : (source.1.isCoinBase || source.1.isCoinStake) = true →
    BuriedUnder chain nCoinbaseMaturity source
  nTime_le : source.1.nTime ≤ tx.nTime
  verified : fSignatures → P.verifySignature source.1 tx input.2 = true

/-- All inputs of a transaction follow the rules, and what an ordinary transaction spends covers its
outputs and the least fee. -/
structure TxRules (P : ChainParams) (fSignatures : Prop) (chain : Branch)
    (pre : List (CTransaction × CDiskTxPos)) (tx : CTransaction)
    (source : Uint256 → CTransaction × CDiskTxPos) : Prop where
  input : ∀ input ∈ tx.vin.zipIdx,
    InputRules P fSignatures chain pre tx input (source input.1.prevout.hash)
  fee : tx.isCoinStake = false → tx.valueOut + tx.getMinFee 1 .gmfBlock 0 ≤
    ((tx.vin.map CTxIn.prevout).map fun prevout ↦ paidTo (source prevout.hash).1 prevout).sum

def BlockRules (P : ChainParams) (fSignatures : Prop) (chain : Branch) (block : CBlock)
    (index : CBlockIndex) : Prop :=
  ∀ pre entry post, block.located [index] false = pre ++ entry :: post →
    entry.1.isCoinBase = false → ∃ source, TxRules P fSignatures chain pre entry.1 source

/-- Every block of the branch follows the rules on top of the one below it. -/
def RulesBranch (P : ChainParams) (fSignatures : Prop) : Branch → Prop
  | [] => True
  | (block, index) :: chain =>
      BlockRules P fSignatures chain block index ∧ RulesBranch P fSignatures chain

variable {P : ChainParams} {fSignatures : Prop}

/-- The checks on one input, with the records that were fetched. -/
structure InputChecks (inputs : MapPrevTx) (pindexBlock : PIndex) (tx : CTransaction)
    (prevout : COutPoint) (txindex : CTxIndex) (txPrev : CTransaction) : Prop where
  fetched : inputs prevout.hash = some (txindex, txPrev)
  txout : ∃ txout, txPrev.vout[prevout.n]? = some txout ∧ moneyRange txout.nValue
  mature : (txPrev.isCoinBase || txPrev.isCoinStake) = true → spendsImmature pindexBlock txindex.pos = false
  nTime_le : txPrev.nTime ≤ tx.nTime

variable {inputs : MapPrevTx} {tx : CTransaction} {nBestHeight : ℤ} {fBlock fMiner : Bool}
  {posThisTx : CDiskTxPos} {txs pre post : List (CTransaction × CDiskTxPos)}

theorem checkInput_eq_ok {pindexBlock : PIndex} {nValueIn nValueIn' : ℤ} {prevout : COutPoint}
    (h : checkInput inputs pindexBlock tx nValueIn prevout = .ok nValueIn') :
    ∃ txindex txPrev, InputChecks inputs pindexBlock tx prevout txindex txPrev := by
  simp only [checkInput, bind_eq_ok, require_eq_ok, rejectIf_eq_ok, pure_eq_ok] at h
  obtain ⟨⟨txindex, txPrev⟩, hfetched, -, -, -, himmature, -, htime, txout, htxout, -, hrange, -⟩ := h
  refine ⟨txindex, txPrev, hfetched, ⟨txout, htxout, ?_⟩, fun hgenerated ↦ ?_, not_lt.mp htime⟩
  · simp only [Bool.or_eq_true, Bool.not_eq_true', not_or, Bool.not_eq_false] at hrange
    exact hrange.1
  · simpa [hgenerated] using himmature

/-- The transactions among the fetched inputs stay the same while outputs are marked. -/
theorem spendInput_fetched {state state' : MapPrevTx × MapTxIndex} {input : CTxIn × ℕ}
    (h : spendInput P nBestHeight fBlock fMiner tx posThisTx state input = .ok state') :
    (∀ hash, (state'.1 hash).map Prod.snd = (state.1 hash).map Prod.snd) ∧
      (skipSignatures P nBestHeight fBlock = false →
        ∀ txPrev, (state.1 input.1.prevout.hash).map Prod.snd = some txPrev →
          P.verifySignature txPrev tx input.2 = true) := by
  obtain ⟨inputs, mapTestPool⟩ := state
  simp only [spendInput, bind_eq_ok, require_eq_ok, rejectIf_eq_ok, pure_eq_ok] at h
  obtain ⟨⟨txindex, txPrev⟩, hinput, -, -, -, hverified, rfl⟩ := h
  refine ⟨fun hash ↦ ?_, fun hskip txPrev' htxPrev' ↦ ?_⟩
  · by_cases heq : hash = input.1.prevout.hash
    · subst heq
      simp [hinput]
    · simp [Function.update_of_ne heq]
  · simp only [hinput, Option.map_some, Option.some.injEq] at htxPrev'
    subst htxPrev'
    simpa [hskip] using hverified

/-- Signatures of all inputs are verified unless the best height is below the last checkpoint. -/
theorem verified_of_spendLoop {mapTestPool : MapTxIndex} {state : MapPrevTx × MapTxIndex}
    (h : tx.vin.zipIdx.foldlM (spendInput P nBestHeight fBlock fMiner tx posThisTx)
      (inputs, mapTestPool) = .ok state) (hskip : skipSignatures P nBestHeight fBlock = false) :
    ∀ input ∈ tx.vin.zipIdx, ∀ txPrev, (inputs input.1.prevout.hash).map Prod.snd = some txPrev →
      P.verifySignature txPrev tx input.2 = true := by
  have hloop := foldlM_processed (fun pre (state : MapPrevTx × MapTxIndex) ↦
    (∀ hash, (state.1 hash).map Prod.snd = (inputs hash).map Prod.snd) ∧
      ∀ input ∈ pre, ∀ txPrev, (inputs input.1.prevout.hash).map Prod.snd = some txPrev →
        P.verifySignature txPrev tx input.2 = true) ?_ ⟨fun _ ↦ rfl, by simp⟩ h
  · exact hloop.2
  · rintro pre input post state state' - ⟨hsame, hpre⟩ hone
    obtain ⟨hsame', hthis⟩ := spendInput_fetched hone
    refine ⟨fun hash ↦ (hsame' hash).trans (hsame hash), fun input' hinput' ↦ ?_⟩
    rcases List.mem_append.mp hinput' with hinput' | hinput'
    · exact hpre input' hinput'
    · obtain rfl := List.mem_singleton.mp hinput'
      rw [← hsame input'.1.prevout.hash]
      exact hthis hskip

/-- What a successful `ConnectInputs` has checked. -/
theorem connectInputs_checks {mapTestPool mapTestPool' : MapTxIndex} {pindexBlock : PIndex}
    (hbase : tx.isCoinBase = false)
    (h : connectInputs P nBestHeight inputs mapTestPool posThisTx pindexBlock fBlock fMiner tx =
      .ok mapTestPool') :
    (∀ input ∈ tx.vin.zipIdx, ∃ txindex txPrev,
      InputChecks inputs pindexBlock tx input.1.prevout txindex txPrev ∧
        (skipSignatures P nBestHeight fBlock = false → P.verifySignature txPrev tx input.2 = true)) ∧
      (tx.isCoinStake = false → tx.valueOut + tx.getMinFee 1 .gmfBlock 0 ≤
        ((tx.vin.map CTxIn.prevout).map (valueOf inputs)).sum) := by
  simp only [connectInputs, hbase, Bool.false_eq_true, if_false, bind_eq_ok] at h
  obtain ⟨nValueIn, hvalues, ⟨inputs', mapTestPool''⟩, hloop, _, hfee, -⟩ := h
  refine ⟨fun input hinput ↦ ?_, fun hstake ↦ ?_⟩
  · have hprevout : input.1.prevout ∈ tx.vin.map CTxIn.prevout :=
      List.mem_map_of_mem (List.fst_mem_of_mem_zipIdx hinput)
    obtain ⟨nBefore, nAfter, hone⟩ := foldlM_forall hvalues hprevout
    obtain ⟨txindex, txPrev, hchecks⟩ := checkInput_eq_ok hone
    refine ⟨txindex, txPrev, hchecks, fun hskip ↦ ?_⟩
    exact verified_of_spendLoop hloop hskip input hinput txPrev (by rw [hchecks.fetched, Option.map_some])
  · rw [hstake] at hfee
    simp only [bind_eq_ok, checkWhen_eq_ok, Bool.not_false, forall_const, checkFee,
      rejectIf_eq_ok] at hfee
    obtain ⟨nValueOut, hout, -, -, -, -, -, hleast, -⟩ := hfee
    rw [← checkInput_sum hvalues, ← CTransaction.getValueOut_eq_ok hout]
    omega

/-- A record of the index of a ledger is that of one of its transactions. -/
theorem exists_entry_of_indexOf {hash : Uint256} {txindex : CTxIndex}
    (h : Foundations.SpendIndex.indexOf (txs.map (spenderOf P)) hash = some txindex) :
    ∃ source ∈ txs, P.hashTx source.1 = hash ∧ source.2 = txindex.pos := by
  obtain ⟨t, ht, hid, hpos⟩ := exists_spender_of_indexOf h
  obtain ⟨source, hsource, rfl⟩ := List.mem_map.mp ht
  exact ⟨source, hsource, hid, hpos⟩

variable {disk : BlockFiles} {genesis : CBlockIndex} {chain : Branch} {block : CBlock}
  {index : CBlockIndex}

/-- What a node fetches while it connects is a transaction of the branch, or one in front in its
block. -/
theorem exists_source {files : BlockFiles} {mapTx : Uint256 → Option CTransaction}
    {txindexes : TxIndexView} {hash : Uint256} {txindex : CTxIndex} {txPrev : CTransaction}
    (hfiles : files.ReadsFrom disk)
    (hshadow : Shadow txindexes (Foundations.SpendIndex.indexOf (txs.map (spenderOf P))))
    (hdisk : OnDisk disk txs) (htxindex : txindexes hash = some txindex)
    (hfetched : fetchedTx files mapTx hash txindex = some txPrev) :
    (txPrev, txindex.pos) ∈ txs ∧ P.hashTx txPrev = hash := by
  have hfull : Foundations.SpendIndex.indexOf (txs.map (spenderOf P)) hash = some txindex := by
    rcases hshadow hash with heq | ⟨habsent, -⟩
    · exact heq ▸ htxindex
    · rw [habsent] at htxindex
      cases htxindex
  obtain ⟨source, hsource, hhash, hpos⟩ := exists_entry_of_indexOf hfull
  obtain ⟨hread, hpool⟩ := hdisk source hsource
  rw [hpos] at hread hpool
  rw [fetchedTx, if_neg hpool] at hfetched
  obtain rfl : source.1 = txPrev :=
    Option.some.inj (hread.symm.trans (hfiles.readTx _ _ _ hfetched))
  rw [← hpos]
  exact ⟨hsource, hhash⟩

/-- What the walk over the last blocks lets through is in a block far enough below. -/
theorem buriedUnder_of_not_immature {source : CTransaction × CDiskTxPos}
    (hblock : block.located [index] false = pre ++ post) (hsource : source ∈ ledger chain ++ pre)
    (h : spendsImmature (index :: pindexOf genesis chain) source.2 = false) :
    BuriedUnder chain nCoinbaseMaturity source := by
  rw [spendsImmature, List.any_eq_false] at h
  rcases List.mem_append.mp hsource with hsource | hsource
  · obtain ⟨above, block', index', below, rfl, hmem⟩ := exists_of_mem_ledger hsource
    refine ⟨above, block', index', below, rfl, hmem, ?_⟩
    by_contra hnear
    obtain ⟨hfile, hpos⟩ := locate_fst (show source ∈ locate _ _ _ _ from hmem)
    refine h index' ?_ (by simp [hfile, hpos])
    have hshort : above.length + 1 < nCoinbaseMaturity.toNat := by omega
    have hwalk : index :: pindexOf genesis (above ++ (block', index') :: below) =
        (index :: above.map Prod.snd) ++ index' :: pindexOf genesis below := by
      simp [pindexOf]
    rw [hwalk, List.mem_take_iff_getElem]
    refine ⟨above.length + 1, ?_, ?_⟩
    · simp only [List.length_append, List.length_cons, List.length_map]
      omega
    · rw [List.getElem_append_right (by simp)]
      simp
  · obtain ⟨hfile, hpos⟩ := locate_fst (show source ∈ locate _ _ _ _ from hblock ▸ List.mem_append_left _ hsource)
    exact absurd (by simp [hfile, hpos])
      (h index (List.mem_take_iff_getElem.mpr ⟨0, by simp [nCoinbaseMaturity], rfl⟩))

/-- One round of the loop in `ConnectBlock` checks the rules. -/
theorem txRules_of_connectTx {files : BlockFiles} {st : NodeState} {sums sums' : ConnectSums}
    {entry : CTransaction × CDiskTxPos} (hfiles : files.ReadsFrom disk)
    (hbase : entry.1.isCoinBase = false) (hblock : block.located [index] false = pre ++ post)
    (hshadow : Shadow (overlay sums.mapQueuedChanges st.txdb.readTxIndex)
      (Foundations.SpendIndex.indexOf ((ledger chain ++ pre).map (spenderOf P))))
    (hdisk : OnDisk disk (ledger chain ++ pre))
    (hskip : fSignatures → skipSignatures P st.nBestHeight true = false)
    (h : connectTx P files st (index :: pindexOf genesis chain) sums entry = .ok sums') :
    ∃ source, TxRules P fSignatures chain pre entry.1 source := by
  obtain ⟨tx, pos⟩ := entry
  simp only [connectTx, bind_eq_ok, rejectIf_eq_ok, exists_const, hbase, Bool.false_eq_true,
    if_false, connectSpending, mapError_eq_ok, pure_eq_ok] at h
  obtain ⟨-, -, _, ⟨inputs, hfetch, _, -, -, _, -, _, -, _, hconnect, -⟩, -⟩ := h
  obtain ⟨hfetched, -⟩ := fetchInputs_spec (Bool.true_or _) hbase hfetch
  obtain ⟨hinputs, hfee⟩ := connectInputs_checks hbase hconnect
  have hsource : ∀ hash txindex txPrev, inputs hash = some (txindex, txPrev) →
      (txPrev, txindex.pos) ∈ ledger chain ++ pre ∧ P.hashTx txPrev = hash := by
    intro hash txindex txPrev hinput
    obtain ⟨hindex, htx⟩ := hfetched hash txindex txPrev hinput
    exact exists_source hfiles hshadow hdisk hindex htx
  refine ⟨fun hash ↦ ((inputs hash).map fun prev ↦ (prev.2, prev.1.pos)).getD (tx, pos), ?_, ?_⟩
  · intro input hinput
    obtain ⟨txindex, txPrev, hchecks, hverified⟩ := hinputs input hinput
    obtain ⟨hmem, hhash⟩ := hsource _ _ _ hchecks.fetched
    simp only [hchecks.fetched, Option.map_some, Option.getD_some]
    exact ⟨hmem, hhash, hchecks.txout,
      fun hgenerated ↦ buriedUnder_of_not_immature hblock hmem (hchecks.mature hgenerated),
      hchecks.nTime_le, fun hsignatures ↦ hverified (hskip hsignatures)⟩
  · intro hstake
    refine (hfee hstake).trans_eq (congrArg List.sum (List.map_congr_left fun prevout hprevout ↦ ?_))
    obtain ⟨txin, htxin, rfl⟩ := List.mem_map.mp hprevout
    obtain ⟨n, hn, hget⟩ := List.mem_iff_getElem.mp htxin
    obtain ⟨txindex, txPrev, hchecks, -⟩ := hinputs (txin, n)
      (List.mem_zipIdx_iff_getElem?.mpr (by simp [hn, hget]))
    simp only [valueOf, hchecks.fetched, Option.map_some, Option.getD_some, paidTo]

/-- A connected block follows the rules on its branch. -/
theorem blockRules_of_connectBlock {env : Env} {st st' : NodeState} (hfiles : env.files.ReadsFrom disk)
    (hledgered : Ledgered P chain st.txdb.readTxIndex)
    (haccepted : AcceptedBranch P disk genesis ((block, index) :: chain))
    (hskip : fSignatures → skipSignatures P st.nBestHeight true = false)
    (h : connectBlock P env st block (index :: pindexOf genesis chain) false = .ok st') :
    BlockRules P fSignatures chain block index := by
  simp only [connectBlock, connectChecks, bind_eq_ok] at h
  obtain ⟨_, ⟨_, hcheck, sums, hloop, -⟩, -⟩ := h
  have hchecked := checked_of_checkBlock hcheck
  intro pre entry post hsplit hbase
  have hlocated : block.located (index :: pindexOf genesis chain) false = pre ++ entry :: post := hsplit
  have hids : (pre.map fun entry ↦ P.hashTx entry.1).Nodup := by
    have htxids := hchecked.txids_nodup
    rw [← map_fst_located block [index] false, List.map_map, hsplit, List.map_append] at htxids
    exact htxids.of_append_left
  have hmem : ∀ entry' ∈ pre, entry' ∈ block.located [index] false :=
    fun entry' hentry' ↦ hsplit ▸ List.mem_append_left _ hentry'
  rw [hlocated, List.foldlM_append, bind_eq_ok] at hloop
  obtain ⟨sums₁, hpre, hrest⟩ := hloop
  rw [List.foldlM_cons, bind_eq_ok] at hrest
  obtain ⟨sums₂, hone, -⟩ := hrest
  have hall := connectLoop_spec
    (fun entry' hentry' ↦ hchecked.tx_checked _ (mem_vtx_of_mem_located (hmem entry' hentry'))) hids hpre
  refine txRules_of_connectTx hfiles hbase hsplit ?_ ?_ hskip hone
  · rw [hall.index, List.map_append, indexOf_append]
    exact shadow_applyAll hledgered.shadow _
  · intro entry' hentry'
    rcases List.mem_append.mp hentry' with hentry' | hentry'
    · exact haccepted.2.onDisk entry' hentry'
    · exact haccepted.1.onDisk entry' (hmem entry' hentry')

end Electra.Ledger

namespace Electra.Node

open Chain Ledger

section Run

variable (P : ChainParams) (disk : BlockFiles) (genesis : CBlockIndex) (fSignatures : Prop)

/-- A step of a node; where signatures count, its best height is not below the last checkpoint. -/
def SpendStep (s s' : Placed) : Prop :=
  SupplyStep P disk genesis s s' ∧ (fSignatures → getTotalBlocksEstimate P ≤ s.2.nBestHeight)

variable {P disk genesis fSignatures} {s s' : Placed}

theorem skipSignatures_eq_false {nBestHeight : ℤ} (h : getTotalBlocksEstimate P ≤ nBestHeight) :
    skipSignatures P nBestHeight true = false := by
  simpa [skipSignatures] using h

theorem rulesBranch_blockStep (hinv : SupplyInv P disk genesis s)
    (hheight : fSignatures → getTotalBlocksEstimate P ≤ s.2.nBestHeight)
    (hrules : RulesBranch P fSignatures s.1) (h : BlockStep P disk genesis s s') :
    RulesBranch P fSignatures s'.1 := by
  cases h with
  | connect files accepted step =>
    refine ⟨blockRules_of_connectBlock files hinv.ledgered ⟨accepted, hinv.accepted⟩ ?_ step, hrules⟩
    exact fun hsignatures ↦ skipSignatures_eq_false (hheight hsignatures)
  | disconnect step => exact hrules.2

/-- The best height stays what it was until a reorganisation ends. -/
theorem rulesBranch_blockSteps (hinv : SupplyInv P disk genesis s)
    (hheight : fSignatures → getTotalBlocksEstimate P ≤ s.2.nBestHeight)
    (hrules : RulesBranch P fSignatures s.1) (h : BlockSteps P disk genesis s s') :
    RulesBranch P fSignatures s'.1 := by
  induction h with
  | refl => exact hrules
  | tail steps step ih =>
    refine rulesBranch_blockStep (hinv.blockSteps steps).1 (fun hsignatures ↦ ?_) ih step
    rw [BlockSteps.frame steps |>.nBestHeight]
    exact hheight hsignatures

theorem rulesBranch_step (hinv : SupplyInv P disk genesis s) (hrules : RulesBranch P fSignatures s.1)
    (h : SpendStep P disk genesis fSignatures s s') : RulesBranch P fSignatures s'.1 := by
  obtain ⟨hstep, hheight⟩ := h
  cases hstep with
  | block step => exact rulesBranch_blockStep hinv hheight hrules step
  | @reorganize chain chain' env st st' files accepted idle best step =>
    obtain ⟨-, -, -, st₁, -, -, hsteps, -⟩ :=
      reorganize_eq_ok { st with txdb := st.txdb.txnBegin } files hinv.accepted accepted best step
    have hchain : RulesBranch P fSignatures (chain', st₁).1 :=
      rulesBranch_blockSteps (hinv.txnBegin idle) hheight hrules hsteps
    exact hchain
  | failedReorganize files accepted idle best step => exact hrules
  | other txindexes nMint nMoneySupply => exact hrules

/-- However blocks are connected, disconnected and reorganised, the main chain follows the rules of
spending. -/
theorem rulesBranch_of_run {st₀ st : NodeState} {chain : Branch}
    (hindex : st₀.txdb.readTxIndex = fun _ ↦ none) (hsupply : st₀.nMoneySupply [genesis] = 0)
    (h : Relation.ReflTransGen (SpendStep P disk genesis fSignatures) ([], st₀) (chain, st)) :
    RulesBranch P fSignatures chain := by
  suffices hrun : ∀ s, Relation.ReflTransGen (SpendStep P disk genesis fSignatures) ([], st₀) s →
      SupplyInv P disk genesis s ∧ RulesBranch P fSignatures s.1 from (hrun _ h).2
  intro s hs
  induction hs with
  | refl => exact ⟨supplyInv_genesis hindex hsupply, trivial⟩
  | tail _ step ih => exact ⟨ih.1.step step.1, rulesBranch_step ih.1 ih.2 step⟩

end Run

open RunExample SupplyExample in
/-- The large subsidy of block 2 is spent eleven blocks above it. -/
theorem rulesBranch_example : RulesBranch testNet True (chainTo 13) := by
  have hrun : Relation.ReflTransGen (SpendStep testNet disk genesis True) ([], nodeAfter 0)
      (chainTo 13, finalNode) :=
    Relation.ReflTransGen.mono (fun _ _ h ↦ ⟨h.1, fun _ ↦ h.2⟩) _ _ highRun
  exact rulesBranch_of_run (by funext hash; rfl) rfl hrun

end Electra.Node

import Electra.Ledger.MintBound

/-!
# Sums of a block in 64 bits

`GetValueOut` and `ConnectInputs` check each sum of one transaction with `MoneyRange`, `ConnectBlock`
checks none of its sums over the block.  They are held in `int64_t`; transactions that spend one
another's outputs add the same coins many times.
-/

namespace Electra.Ledger

open Chain Foundations.SpendIndex Foundations.Outcome Foundations.MachineInt

/-- The sums as the variables of `ConnectBlock` hold them. -/
def held (sums : ConnectSums) : ConnectSums := { sums with
  nFees := int64 sums.nFees
  nValueIn := int64 sums.nValueIn
  nValueOut := int64 sums.nValueOut
  nStakeReward := int64 sums.nStakeReward }

section Held

variable (P : ChainParams) (env : Env) (st : NodeState) (block : CBlock) (pindex : PIndex)

/-- The loop body over the transactions in `ConnectBlock`, on 64-bit sums. -/
def connectTx64 (sums : ConnectSums) (entry : CTransaction × CDiskTxPos) : Except Reject ConnectSums := do
  let sums ← connectTx P env.files st pindex sums entry
  return held sums

/-- The reward checks, with the reward in 64 bits. -/
def checkReward64 (sums : ConnectSums) : Except Reject Unit := do
  if block.isProofOfStake then checkReward P env.files st block sums
  else
    let tx ← require block.vtx.head? (error "vtx[0]")
    let nValueOut ← tx.getValueOut
    rejectIf (nValueOut > int64 (getProofOfWorkReward P st.pindexBest.nHeight sums.nFees))
      (dos 50 "ConnectBlock() : coinbase reward exceeded")

/-- All the checks of `ConnectBlock`, on 64-bit sums. -/
def connectChecks64 : Except Reject ConnectSums := do
  checkBlock P (env.nAdjustedTime (block.getHash P)) block true true false
  let sums ← (block.located pindex false).foldlM (connectTx64 P env st pindex) .init
  checkReward64 P env st block sums
  return sums

end Held

section Range

variable (P : ChainParams)

/-- The transactions of a list with the values of the outputs each spends, in the order of its inputs. -/
def withInputs (files : BlockFiles) (mapTx : Uint256 → Option CTransaction) :
    TxIndexView → List (CTransaction × CDiskTxPos) → List (CTransaction × List ℤ)
  | _, [] => []
  | index, entry :: rest =>
      (entry.1, entry.1.spends.map (fetchedValue files mapTx index)) ::
        withInputs files mapTx (apply index (spenderOf P entry)) rest

variable (env : Env) (st : NodeState) (block : CBlock) (pindex : PIndex)

def blockInputs : List (CTransaction × List ℤ) :=
  withInputs P env.files st.mempool.mapTx.lookup st.txdb.readTxIndex (block.located pindex false)

/-- Money supply before a block. -/
def supplyBefore : ℤ := if pindex.tail = [] then 0 else st.nMoneySupply pindex.tail

/-- Total of the output values of a block. -/
def totalOut : ℤ := (block.vtx.map CTransaction.valueOut).sum

/-- Every sum that `ConnectInputs` and `ConnectBlock` form is in the range of `int64_t`. -/
structure SumsInRange : Prop where
  getValueIn : ∀ tx ∈ blockInputs P env st block pindex, ∀ values, values <+: tx.2 → InInt64 values.sum
  nTxFee : ∀ tx ∈ blockValues P env st block pindex, InInt64 (tx.2 - tx.1.valueOut)
  nStakeReward : ∀ tx ∈ blockValues P env st block pindex, InInt64 (tx.1.valueOut - tx.2)
  nValueIn : ∀ txs, txs <+: blockValues P env st block pindex → InInt64 (sumIn txs)
  nValueOut : ∀ txs, txs <+: blockValues P env st block pindex → InInt64 (sumOut txs)
  nFees : ∀ txs, txs <+: blockValues P env st block pindex → InInt64 (sumFees txs)
  nMint : InInt64 (sumOut (blockValues P env st block pindex) - sumIn (blockValues P env st block pindex)) ∧
    InInt64 (sumOut (blockValues P env st block pindex) - sumIn (blockValues P env st block pindex) +
      sumFees (blockValues P env st block pindex))
  nMoneySupply : InInt64 (supplyBefore st pindex + sumOut (blockValues P env st block pindex)) ∧
    InInt64 (supplyBefore st pindex + sumOut (blockValues P env st block pindex) -
      sumIn (blockValues P env st block pindex))

end Range

section Loop

variable {P : ChainParams} {env : Env} {st : NodeState} {block : CBlock} {pindex : PIndex}

/-- A transaction adds to the sums whatever they are, so it may as well add to what is held of them. -/
theorem connectTx_held (sums : ConnectSums) (entry : CTransaction × CDiskTxPos) :
    connectTx64 P env st pindex (held sums) entry = connectTx64 P env st pindex sums entry := by
  obtain ⟨tx, pos⟩ := entry
  simp only [connectTx64, connectTx]
  cases tx.isCoinBase with
  | true =>
    simp only [held, if_true, bind_assoc, pure_bind, int64_add, int64_int64]
    rfl
  | false =>
    simp only [connectSpending, held, Bool.false_eq_true, if_false, bind_assoc, pure_bind]
    cases tx.isCoinStake <;> simp only [Bool.false_eq_true, if_true, if_false, int64_add, int64_int64] <;>
      rfl

/-- The sums of the loop are held as if they had been added without bounds first. -/
theorem foldlM_connectTx64 (sums : ConnectSums) (entries : List (CTransaction × CDiskTxPos)) :
    entries.foldlM (connectTx64 P env st pindex) (held sums) =
      (entries.foldlM (connectTx P env.files st pindex) sums).map held := by
  induction entries generalizing sums with
  | nil => rfl
  | cons entry entries ih =>
    rw [List.foldlM_cons, List.foldlM_cons, connectTx_held]
    cases htx : connectTx P env.files st pindex sums entry with
    | error reject => simp [connectTx64, htx, bind, Except.bind, Except.map]
    | ok sums' =>
      calc (connectTx64 P env st pindex sums entry >>= fun sums ↦
            entries.foldlM (connectTx64 P env st pindex) sums)
          = entries.foldlM (connectTx64 P env st pindex) (held sums') := by
            simp [connectTx64, htx, bind, Except.bind, pure, Except.pure]
        _ = (entries.foldlM (connectTx P env.files st pindex) sums').map held := ih sums'
        _ = _ := rfl

end Loop

section Checks

variable {P : ChainParams} {env : Env} {st : NodeState} {pindex : PIndex}

/-- The values of a transaction passed `GetValueOut` and the checks on its inputs. -/
structure TxInRange (tx : CTransaction × List ℤ) : Prop where
  inputs : ∀ values, values <+: tx.2 → moneyRange values.sum
  outputs : ∀ txout ∈ tx.1.vout, moneyRange txout.nValue
  valueOut : moneyRange tx.1.valueOut

theorem moneyRange_iff {n : ℤ} : moneyRange n = true ↔ 0 ≤ n ∧ n ≤ MAX_TX := by
  rw [moneyRange, Bool.and_eq_true, decide_eq_true_iff, decide_eq_true_iff]

/-- `GetValueOut` checks every output and the total. -/
theorem moneyRange_of_getValueOut {tx : CTransaction} {nValueOut : ℤ}
    (h : tx.getValueOut = .ok nValueOut) :
    (∀ txout ∈ tx.vout, moneyRange txout.nValue) ∧ moneyRange tx.valueOut := by
  have hone : ∀ n txout n', CTransaction.addValueOut n txout = .ok n' →
      moneyRange txout.nValue ∧ moneyRange n' := by
    intro n txout n' hadd
    simp only [CTransaction.addValueOut, bind_eq_ok, rejectIf_eq_ok, pure_eq_ok] at hadd
    obtain ⟨-, hrange, rfl⟩ := hadd
    simpa only [Bool.or_eq_true, Bool.not_eq_true', not_or, Bool.not_eq_false] using hrange
  constructor
  · intro txout htxout
    obtain ⟨n, n', hadd⟩ := foldlM_forall h htxout
    exact (hone n txout n' hadd).1
  · rw [← CTransaction.getValueOut_eq_ok h]
    apply foldlM_invariant (fun nValueOut ↦ moneyRange nValueOut = true) _ (by decide) h
    intro txout _ n n' _ hadd
    exact (hone n txout n' hadd).2

/-- Every running sum of the inputs was checked. -/
theorem moneyRange_of_checkInput {inputs : MapPrevTx} {tx : CTransaction} {prevouts : List COutPoint}
    {nValueIn : ℤ} (h : prevouts.foldlM (checkInput inputs pindex tx) 0 = .ok nValueIn) :
    ∀ values, values <+: prevouts.map (valueOf inputs) → moneyRange values.sum := by
  have hinv : nValueIn = (prevouts.map (valueOf inputs)).sum ∧
      ∀ values, values <+: prevouts.map (valueOf inputs) → moneyRange values.sum := by
    apply foldlM_processed (fun pre nResult ↦ nResult = (pre.map (valueOf inputs)).sum ∧
      ∀ values, values <+: pre.map (valueOf inputs) → moneyRange values.sum) _ _ h
    · intro pre prevout post nResult nResult' _ hpre hone
      obtain ⟨hsum, hinitiales⟩ := hpre
      simp only [checkInput, bind_eq_ok, require_eq_ok, rejectIf_eq_ok, pure_eq_ok] at hone
      obtain ⟨⟨txindex, txPrev⟩, hinput, -, -, -, -, -, -, txout, hout, -, hrange, rfl⟩ := hone
      have hvalue : valueOf inputs prevout = txout.nValue := by simp [valueOf, hinput, hout]
      have htotal : nResult + txout.nValue = ((pre ++ [prevout]).map (valueOf inputs)).sum := by
        rw [List.map_append, List.sum_append, ← hsum, List.map_singleton, List.sum_singleton, hvalue]
      refine ⟨htotal, ?_⟩
      intro values hinitial
      rw [List.map_append, List.map_singleton, List.prefix_concat_iff] at hinitial
      cases hinitial with
      | inl heq =>
        rw [heq, ← List.map_singleton, ← List.map_append, ← htotal]
        simp only [Bool.or_eq_true, Bool.not_eq_true', not_or, Bool.not_eq_false] at hrange
        exact hrange.2
      | inr hinitial => exact hinitiales values hinitial
    · refine ⟨rfl, ?_⟩
      intro values hinitial
      rw [List.prefix_nil.mp hinitial]
      decide
  exact hinv.2

theorem connectTx_inRange {sums sums' : ConnectSums} {entry : CTransaction × CDiskTxPos}
    (h : connectTx P env.files st pindex sums entry = .ok sums') :
    TxInRange (entry.1, entry.1.spends.map (fetchedValue env.files st.mempool.mapTx.lookup
      (overlay sums.mapQueuedChanges st.txdb.readTxIndex))) := by
  obtain ⟨tx, pos⟩ := entry
  simp only [connectTx, bind_eq_ok, rejectIf_eq_ok, exists_const] at h
  obtain ⟨-, -, hkind⟩ := h
  cases hbase : tx.isCoinBase with
  | true =>
    rw [if_pos hbase] at hkind
    simp only [bind_eq_ok, pure_eq_ok] at hkind
    obtain ⟨nTxValueOut, hout, -⟩ := hkind
    have hspends : tx.spends = [] := by simp [CTransaction.spends, hbase]
    refine ⟨?_, (moneyRange_of_getValueOut hout).1, (moneyRange_of_getValueOut hout).2⟩
    intro values hinitial
    rw [hspends, List.map_nil, List.prefix_nil] at hinitial
    rw [hinitial]
    decide
  | false =>
    rw [if_neg (by simp [hbase])] at hkind
    simp only [connectSpending, bind_eq_ok, rejectIf_eq_ok, mapError_eq_ok, pure_eq_ok,
      exists_const] at hkind
    obtain ⟨-, ⟨inputs, hfetch, -, -, -, -, -, nTxValueOut, hout, mapQueuedChanges, hconnect, -⟩, -⟩ :=
      hkind
    obtain ⟨hfetched, hsome⟩ := fetchInputs_spec (Bool.true_or _) hbase hfetch
    simp only [connectInputs, hbase, Bool.false_eq_true, if_false, bind_eq_ok] at hconnect
    obtain ⟨nValueIn, hvalues, -⟩ := hconnect
    rw [← CTransaction.spends_of_not_coinBase hbase] at hvalues
    have hvalue : tx.spends.map (valueOf inputs) = tx.spends.map (fetchedValue env.files
        st.mempool.mapTx.lookup (overlay sums.mapQueuedChanges st.txdb.readTxIndex)) :=
      List.map_congr_left fun prevout hprevout ↦ hfetched.valueOf_eq (hsome prevout hprevout)
    refine ⟨?_, (moneyRange_of_getValueOut hout).1, (moneyRange_of_getValueOut hout).2⟩
    rw [← hvalue]
    exact moneyRange_of_checkInput hvalues

theorem withInputs_append (files : BlockFiles) (mapTx : Uint256 → Option CTransaction)
    (index : TxIndexView) (entries : List (CTransaction × CDiskTxPos))
    (entry : CTransaction × CDiskTxPos) :
    withInputs P files mapTx index (entries ++ [entry]) =
      withInputs P files mapTx index entries ++ [(entry.1, entry.1.spends.map
        (fetchedValue files mapTx (applyAll index (entries.map (spenderOf P)))))] := by
  induction entries generalizing index with
  | nil => rfl
  | cons first entries ih => simp [withInputs, ih]

theorem withValueIn_eq_map (files : BlockFiles) (mapTx : Uint256 → Option CTransaction)
    (index : TxIndexView) (entries : List (CTransaction × CDiskTxPos)) :
    withValueIn P files mapTx index entries =
      (withInputs P files mapTx index entries).map fun tx ↦ (tx.1, tx.2.sum) := by
  induction entries generalizing index with
  | nil => rfl
  | cons entry entries ih =>
    rw [withValueIn, withInputs, ih, List.map_cons]
    rfl

/-- All transactions of a loop that went through passed the checks. -/
theorem connectLoop_inRange {entries : List (CTransaction × CDiskTxPos)} {sums : ConnectSums}
    (h : entries.foldlM (connectTx P env.files st pindex) .init = .ok sums) :
    ∀ tx ∈ withInputs P env.files st.mempool.mapTx.lookup st.txdb.readTxIndex entries, TxInRange tx := by
  have hinv : overlay sums.mapQueuedChanges st.txdb.readTxIndex =
        applyAll st.txdb.readTxIndex (entries.map (spenderOf P)) ∧
      ∀ tx ∈ withInputs P env.files st.mempool.mapTx.lookup st.txdb.readTxIndex entries,
        TxInRange tx := by
    apply foldlM_processed (fun pre sums ↦ overlay sums.mapQueuedChanges st.txdb.readTxIndex =
        applyAll st.txdb.readTxIndex (pre.map (spenderOf P)) ∧
      ∀ tx ∈ withInputs P env.files st.mempool.mapTx.lookup st.txdb.readTxIndex pre,
        TxInRange tx) _ _ h
    · intro pre entry post sums sums' _ hpre hone
      obtain ⟨hindex, hrange⟩ := hpre
      obtain ⟨nValueIn, hstep⟩ := connectTx_spec hone
      have hthis := connectTx_inRange hone
      rw [hindex] at hthis
      refine ⟨?_, ?_⟩
      · rw [hstep.index, hindex, List.map_append, applyAll_append]
        rfl
      · intro tx htx
        rw [withInputs_append] at htx
        cases List.mem_append.mp htx with
        | inl htx => exact hrange tx htx
        | inr htx => exact List.mem_singleton.mp htx ▸ hthis
    · exact ⟨overlay_empty _, fun tx htx ↦ nomatch htx⟩
  exact hinv.2

end Checks

section Totals

variable {txs : List (CTransaction × ℤ)}

/-- What a transaction adds to the fees. -/
def feeOf (tx : CTransaction × ℤ) : ℤ := if isOrdinary tx.1 then tx.2 - tx.1.valueOut else 0

theorem sumFees_eq (txs : List (CTransaction × ℤ)) : sumFees txs = (txs.map feeOf).sum := by
  induction txs with
  | nil => rfl
  | cons tx txs ih =>
    unfold sumFees at ih ⊢
    cases hordinary : isOrdinary tx.1 <;> simp [hordinary, ih, feeOf]

theorem sumFees_le_sumIn (hin : ∀ tx ∈ txs, 0 ≤ tx.2) (hout : ∀ tx ∈ txs, 0 ≤ tx.1.valueOut) :
    sumFees txs ≤ sumIn txs := by
  rw [sumFees_eq, sumIn]
  apply List.sum_le_sum
  intro tx htx
  have hvalueIn := hin tx htx
  have hvalueOut := hout tx htx
  unfold feeOf
  split <;> omega

end Totals

section Blocks

variable {P : ChainParams} {env : Env} {st : NodeState} {block : CBlock} {pindex : PIndex}
  {sums : ConnectSums}

theorem sumOut_blockValues (P : ChainParams) (env : Env) (st : NodeState) (block : CBlock)
    (pindex : PIndex) : sumOut (blockValues P env st block pindex) = totalOut block := by
  unfold totalOut
  rw [← map_fst_blockValues P env st block pindex, List.map_map]
  rfl

/-- Every transaction of a block that went through the loop passed the checks. -/
theorem outputs_inRange (h : ∀ tx ∈ blockInputs P env st block pindex, TxInRange tx) :
    ∀ tx ∈ block.vtx, ∀ txout ∈ tx.vout, moneyRange txout.nValue := by
  intro tx htx
  rw [← map_fst_blockValues P env st block pindex, blockValues, withValueIn_eq_map, List.map_map] at htx
  obtain ⟨txIn, htxIn, rfl⟩ := List.mem_map.mp htx
  exact (h txIn htxIn).outputs

/-- What a block that passes `ConnectBlock` gives, with the sums that unbounded integers would have. -/
theorem connectChecks64_spec (h : connectChecks64 P env st block pindex = .ok sums) :
    ∃ exact, sums = held exact ∧ ConnectsAll P env.files st (block.located pindex false) exact ∧
      ∀ tx ∈ blockInputs P env st block pindex, TxInRange tx := by
  simp only [connectChecks64, bind_eq_ok, pure_eq_ok] at h
  obtain ⟨u, hcheck, sums', hloop, -, -, rfl⟩ := h
  have hinit : held .init = .init := rfl
  rw [← hinit, foldlM_connectTx64] at hloop
  cases hexact : (block.located pindex false).foldlM (connectTx P env.files st pindex) .init with
  | error reject =>
    rw [hexact] at hloop
    cases hloop
  | ok exact =>
    rw [hexact] at hloop
    have hall := connectsAll_of_loop (checked_of_checkBlock hcheck) hexact
    exact ⟨exact, (Except.ok.inj hloop).symm, hall, connectLoop_inRange hexact⟩

/-- What the transactions of a block spend and pay was checked one by one. -/
theorem blockValues_inRange (h : ∀ tx ∈ blockInputs P env st block pindex, TxInRange tx) :
    ∀ tx ∈ blockValues P env st block pindex,
      (0 ≤ tx.2 ∧ tx.2 ≤ MAX_TX) ∧ 0 ≤ tx.1.valueOut ∧ tx.1.valueOut ≤ MAX_TX := by
  intro tx htx
  rw [blockValues, withValueIn_eq_map] at htx
  obtain ⟨txIn, htxIn, rfl⟩ := List.mem_map.mp htx
  have hone := h txIn htxIn
  exact ⟨moneyRange_iff.mp (hone.inputs txIn.2 (List.prefix_refl _)), moneyRange_iff.mp hone.valueOut⟩

/-- The sums of a connected block are in range just when two totals are. -/
theorem sumsInRange_iff_totals (h : connectChecks64 P env st block pindex = .ok sums)
    (hsupply : 0 ≤ supplyBefore st pindex) :
    SumsInRange P env st block pindex ↔
      sumIn (blockValues P env st block pindex) < 2 ^ 63 ∧
        supplyBefore st pindex + totalOut block < 2 ^ 63 := by
  obtain ⟨exact, -, hall, hinputs⟩ := connectChecks64_spec h
  have hrange := blockValues_inRange hinputs
  have hmax : MAX_TX < 2 ^ 62 := by decide
  have hin : ∀ tx ∈ blockValues P env st block pindex, 0 ≤ tx.2 := fun tx htx ↦ (hrange tx htx).1.1
  have hout : ∀ tx ∈ blockValues P env st block pindex, 0 ≤ tx.1.valueOut :=
    fun tx htx ↦ (hrange tx htx).2.1
  have hfee : ∀ tx ∈ blockValues P env st block pindex, 0 ≤ feeOf tx := by
    intro tx htx
    unfold feeOf
    split
    · next hordinary => exact sub_nonneg.mpr (hall.valueOut_le tx htx hordinary)
    · exact le_rfl
  have hfees := sumFees_le_sumIn hin hout
  have hinNonneg : 0 ≤ sumIn (blockValues P env st block pindex) :=
    sum_map_le_of_initial hin List.nil_prefix
  have houtNonneg : 0 ≤ sumOut (blockValues P env st block pindex) :=
    sum_map_le_of_initial hout List.nil_prefix
  have hfeesNonneg : 0 ≤ sumFees (blockValues P env st block pindex) := by
    rw [sumFees_eq]
    exact sum_map_le_of_initial hfee List.nil_prefix
  rw [← sumOut_blockValues P env st block pindex]
  constructor
  · intro hsums
    exact ⟨(hsums.nValueIn _ (List.prefix_refl _)).2, hsums.nMoneySupply.1.2⟩
  · intro htotals
    obtain ⟨hvalueIn, hvalueOut⟩ := htotals
    have hvalueOut' : sumOut (blockValues P env st block pindex) < 2 ^ 63 := by omega
    have hvalueFees : sumFees (blockValues P env st block pindex) < 2 ^ 63 := by omega
    refine ⟨?_, ?_, ?_, (inInt64_prefixes_iff hin).mpr hvalueIn,
      (inInt64_prefixes_iff hout).mpr hvalueOut', ?_, ⟨⟨by omega, by omega⟩, by omega, by omega⟩,
      ⟨by omega, by omega⟩, by omega, by omega⟩
    · intro tx htx values hinitial
      have hsum := moneyRange_iff.mp ((hinputs tx htx).inputs values hinitial)
      exact ⟨by omega, by omega⟩
    · intro tx htx
      have hone := hrange tx htx
      exact ⟨by omega, by omega⟩
    · intro tx htx
      have hone := hrange tx htx
      exact ⟨by omega, by omega⟩
    · intro txs hinitial
      rw [sumFees_eq] at hvalueFees ⊢
      exact (inInt64_prefixes_iff hfee).mpr hvalueFees txs hinitial

end Blocks

end Electra.Ledger

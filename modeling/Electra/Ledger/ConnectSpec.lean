import Electra.Chain.ConnectBlock
import Electra.Foundations.UnspentTotal

/-!
# What connecting a block does to the transaction index

Read through the pending changes, the transaction index after each transaction of a connected block
is the index of the abstract ledger with that transaction entered.  A whole block enters its
transactions one after another, each of them consuming outputs that are there and unspent.
-/

namespace Electra.Ledger

open Chain Foundations.SpendIndex Foundations.Outcome Foundations.WriteBatch

variable (P : ChainParams)

/-- What the index keeps of a transaction at its position. -/
def spenderOf (entry : CTransaction × CDiskTxPos) : Spender Uint256 CDiskTxPos where
  id := P.hashTx entry.1
  pos := entry.2
  ins := entry.1.spends
  outs := entry.1.vout.length

/-- The index as seen through pending changes. -/
def overlay (mapTestPool : MapTxIndex) (view : TxIndexView) : TxIndexView := fun hash ↦
  match mapTestPool.lookup hash with
  | some txindex => some txindex
  | none => view hash

@[simp]
theorem overlay_empty (view : TxIndexView) : overlay ∅ view = view := by
  funext hash
  simp [overlay]

@[simp]
theorem overlay_insert (mapTestPool : MapTxIndex) (view : TxIndexView) (hash : Uint256)
    (txindex : CTxIndex) :
    overlay (mapTestPool.insert hash txindex) view =
      Function.update (overlay mapTestPool view) hash (some txindex) := by
  funext hash'
  unfold overlay
  by_cases heq : hash' = hash
  · subst heq
    simp
  · simp [heq]

variable {fBlock fMiner : Bool} {files : BlockFiles} {txdb : CTxDB}
  {mapTx : Uint256 → Option CTransaction} {mapTestPool : MapTxIndex} {inputs : MapPrevTx}
  {prevout : COutPoint} {tx : CTransaction} {index : TxIndexView} {nValueIn : ℤ} {st : NodeState}
  {pindex : PIndex} {sums sums' : ConnectSums}

/-- Both in a block and for the miner the pending changes come first. -/
theorem findTxIndex_queued (hqueued : (fBlock || fMiner) = true) (txdb : CTxDB)
    (mapTestPool : MapTxIndex) (hash : Uint256) :
    findTxIndex txdb mapTestPool fBlock fMiner hash = overlay mapTestPool txdb.readTxIndex hash := by
  unfold findTxIndex overlay
  exact if_pos hqueued

/-- Writing the pending changes makes the database what was seen through them. -/
theorem readTxIndex_writeQueuedChanges (txdb : CTxDB) (mapQueuedChanges : MapTxIndex) :
    (writeQueuedChanges txdb mapQueuedChanges).readTxIndex =
      overlay mapQueuedChanges txdb.readTxIndex := by
  suffices hlist : ∀ (l : List (Σ _ : Uint256, CTxIndex)) (txdb : CTxDB), l.NodupKeys → ∀ hash,
      (l.foldl (fun txdb change ↦ txdb.updateTxIndex change.1 change.2) txdb).readTxIndex hash =
        match l.dlookup hash with
        | some txindex => some txindex
        | none => txdb.readTxIndex hash by
    funext hash
    exact hlist mapQueuedChanges.entries txdb mapQueuedChanges.nodupKeys hash
  intro l
  induction l with
  | nil => intro txdb _ hash; rfl
  | cons change l ih =>
    intro txdb hnodup hash
    rw [List.nodupKeys_cons] at hnodup
    rw [List.foldl_cons, ih _ hnodup.2, CTxDB.readTxIndex_updateTxIndex]
    by_cases heq : hash = change.1
    · subst heq
      rw [List.dlookup_eq_none.mpr hnodup.1, List.dlookup_cons_eq, Function.update_self]
    · rw [List.dlookup_cons_ne _ _ heq, Function.update_of_ne heq]

/-- The transaction that `FetchInputs` takes for an index record. -/
def fetchedTx (files : BlockFiles) (mapTx : Uint256 → Option CTransaction) (hash : Uint256)
    (txindex : CTxIndex) : Option CTransaction :=
  if txindex.pos = .memoryPool then mapTx hash
  else files.readTx txindex.pos.nFile txindex.pos.nTxPos

/-- Value of the output that an outpoint names, as the index and the files give it. -/
def fetchedValue (files : BlockFiles) (mapTx : Uint256 → Option CTransaction) (index : TxIndexView)
    (prevout : COutPoint) : ℤ :=
  match (index prevout.hash).bind (fetchedTx files mapTx prevout.hash) with
  | some txPrev => (txPrev.vout[prevout.n]?.map CTxOut.nValue).getD 0
  | none => 0

/-- The fetched records are those of the index, with the transactions they point to. -/
def Fetched (files : BlockFiles) (mapTx : Uint256 → Option CTransaction) (index : TxIndexView)
    (inputs : MapPrevTx) : Prop :=
  ∀ hash txindex txPrev, inputs hash = some (txindex, txPrev) →
    index hash = some txindex ∧ fetchedTx files mapTx hash txindex = some txPrev

variable {P}

theorem fetchInput_spec (hqueued : (fBlock || fMiner) = true) {inputs' : MapPrevTx}
    (hfetched : Fetched files mapTx (overlay mapTestPool txdb.readTxIndex) inputs)
    (h : fetchInput files txdb mapTx mapTestPool fBlock fMiner inputs prevout = .ok inputs') :
    Fetched files mapTx (overlay mapTestPool txdb.readTxIndex) inputs' ∧
      (inputs' prevout.hash).isSome ∧ ∀ hash, (inputs hash).isSome → (inputs' hash).isSome := by
  unfold fetchInput at h
  rw [findTxIndex_queued hqueued] at h
  split at h
  · next hsome =>
    obtain rfl := Except.ok.inj h
    exact ⟨hfetched, hsome, fun _ hhash ↦ hhash⟩
  · -- the record is new: it comes from the index, its transaction from the pool or the files
    suffices hnew : ∃ txindex txPrev, overlay mapTestPool txdb.readTxIndex prevout.hash = some txindex ∧
        fetchedTx files mapTx prevout.hash txindex = some txPrev ∧
        Function.update inputs prevout.hash (some (txindex, txPrev)) = inputs' by
      obtain ⟨txindex, txPrev, hindex, htx, rfl⟩ := hnew
      refine ⟨?_, by simp, ?_⟩
      · intro hash txindex' txPrev' hinput
        by_cases heq : hash = prevout.hash
        · subst heq
          rw [Function.update_self] at hinput
          obtain ⟨rfl, rfl⟩ := Prod.mk.inj (Option.some.inj hinput)
          exact ⟨hindex, htx⟩
        · rw [Function.update_of_ne heq] at hinput
          exact hfetched hash txindex' txPrev' hinput
      · intro hash hhash
        by_cases heq : hash = prevout.hash
        · simp [heq]
        · rwa [Function.update_of_ne heq]
    split at h
    · cases h
    · next txindex hindex =>
      split at h
      · next hpos =>
        simp only [bind_eq_ok, require_eq_ok, pure_eq_ok] at h
        obtain ⟨txPrev, htx, rfl⟩ := h
        exact ⟨txindex, txPrev, hindex, by rw [fetchedTx, if_pos hpos]; exact htx, rfl⟩
      · next hpos =>
        simp only [bind_eq_ok, require_eq_ok, pure_eq_ok] at h
        obtain ⟨txPrev, htx, rfl⟩ := h
        exact ⟨txindex, txPrev, hindex, by rw [fetchedTx, if_neg hpos]; exact htx, rfl⟩

/-- The fetched inputs are records of the index seen through the pending changes. -/
theorem fetchInputs_spec (hqueued : (fBlock || fMiner) = true) (hbase : tx.isCoinBase = false)
    (h : fetchInputs files txdb mapTx mapTestPool fBlock fMiner tx = .ok inputs) :
    Fetched files mapTx (overlay mapTestPool txdb.readTxIndex) inputs ∧
      ∀ prevout ∈ tx.spends, (inputs prevout.hash).isSome := by
  simp only [fetchInputs, hbase, Bool.false_eq_true, if_false, bind_eq_ok, rejectIf_eq_ok,
    pure_eq_ok] at h
  obtain ⟨inputs', hloop, -, -, rfl⟩ := h
  rw [CTransaction.spends_of_not_coinBase hbase]
  refine foldlM_processed (fun pre inputs ↦
    Fetched files mapTx (overlay mapTestPool txdb.readTxIndex) inputs ∧
      ∀ prevout ∈ pre, (inputs prevout.hash).isSome) ?_ ?_ hloop
  · rintro pre prevout post inputs₁ inputs₂ - ⟨hfetched, hpre⟩ hone
    obtain ⟨hfetched', hthis, hkeep⟩ := fetchInput_spec hqueued hfetched hone
    refine ⟨hfetched', ?_⟩
    intro o ho
    rcases List.mem_append.mp ho with ho | ho
    · exact hkeep o.hash (hpre o ho)
    · rw [List.mem_singleton.mp ho]
      exact hthis
  · refine ⟨?_, by simp⟩
    intro hash txindex txPrev hinput
    cases hinput

/-- Value of an output among fetched inputs. -/
def valueOf (inputs : MapPrevTx) (prevout : COutPoint) : ℤ :=
  match inputs prevout.hash with
  | some (_, txPrev) => (txPrev.vout[prevout.n]?.map CTxOut.nValue).getD 0
  | none => 0

theorem Fetched.valueOf_eq (h : Fetched files mapTx index inputs) (hsome : (inputs prevout.hash).isSome) :
    valueOf inputs prevout = fetchedValue files mapTx index prevout := by
  obtain ⟨⟨txindex, txPrev⟩, hinput⟩ := Option.isSome_iff_exists.mp hsome
  obtain ⟨hindex, htx⟩ := h prevout.hash txindex txPrev hinput
  simp [valueOf, fetchedValue, hinput, hindex, htx]

theorem getOutputFor_eq_ok {txout : CTxOut} (h : getOutputFor inputs prevout = .ok txout) :
    valueOf inputs prevout = txout.nValue := by
  simp only [getOutputFor, bind_eq_ok, require_eq_ok] at h
  obtain ⟨⟨txindex, txPrev⟩, hinput, hout⟩ := h
  simp [valueOf, hinput, hout]

theorem getValueIn_eq_ok (h : getValueIn inputs tx = .ok nValueIn) :
    nValueIn = (tx.spends.map (valueOf inputs)).sum := by
  unfold getValueIn at h
  unfold CTransaction.spends
  split at h
  · next hbase => simpa [hbase] using (Except.ok.inj h).symm
  · next hbase =>
    rw [if_neg hbase]
    refine foldlM_processed (fun pre nResult ↦ nResult = (pre.map (valueOf inputs)).sum)
      ?_ rfl h
    rintro pre prevout post nResult nResult' - hsum hone
    simp only [bind_eq_ok, pure_eq_ok] at hone
    obtain ⟨txout, hout, rfl⟩ := hone
    rw [List.map_append, List.sum_append, ← hsum, List.map_singleton, List.sum_singleton,
      getOutputFor_eq_ok hout]

theorem checkInput_sum {pindexBlock : PIndex} {prevouts : List COutPoint}
    (h : prevouts.foldlM (checkInput inputs pindexBlock tx) 0 = .ok nValueIn) :
    nValueIn = (prevouts.map (valueOf inputs)).sum := by
  refine foldlM_processed (fun pre nResult ↦ nResult = (pre.map (valueOf inputs)).sum) ?_ rfl h
  rintro pre prevout post nResult nResult' - hsum hone
  simp only [checkInput, bind_eq_ok, require_eq_ok, rejectIf_eq_ok, pure_eq_ok] at hone
  obtain ⟨⟨txindex, txPrev⟩, hinput, -, -, -, -, -, -, txout, hout, -, -, rfl⟩ := hone
  have hvalue : valueOf inputs prevout = txout.nValue := by simp [valueOf, hinput, hout]
  rw [List.map_append, List.sum_append, ← hsum, List.map_singleton, List.sum_singleton, hvalue]

theorem spendInput_spec (hqueued : (fBlock || fMiner) = true) {nBestHeight : ℤ} {posThisTx : CDiskTxPos}
    {state state' : MapPrevTx × MapTxIndex} {input : CTxIn × ℕ} {view : TxIndexView}
    (hinputs : ∀ hash txindex txPrev, state.1 hash = some (txindex, txPrev) →
      overlay state.2 view hash = some txindex)
    (h : spendInput P nBestHeight fBlock fMiner tx posThisTx state input = .ok state') :
    Ready (overlay state.2 view) input.1.prevout ∧
      overlay state'.2 view =
        setMark (some posThisTx) (overlay state.2 view) input.1.prevout ∧
      ∀ hash txindex txPrev, state'.1 hash = some (txindex, txPrev) →
        overlay state'.2 view hash = some txindex := by
  obtain ⟨inputs, mapTestPool⟩ := state
  simp only [spendInput, bind_eq_ok, require_eq_ok, rejectIf_eq_ok, pure_eq_ok, if_pos hqueued,
    not_not] at h
  obtain ⟨⟨txindex, txPrev⟩, hinput, -, hnone, -, -, rfl⟩ := h
  have hindex : overlay mapTestPool view input.1.prevout.hash = some txindex :=
    hinputs _ _ _ hinput
  refine ⟨⟨txindex, hindex, hnone⟩, ?_, ?_⟩
  · rw [overlay_insert, setMark_of_ready hindex]
  · intro hash txindex' txPrev' hinput'
    simp only [overlay_insert] at hinput' ⊢
    by_cases heq : hash = input.1.prevout.hash
    · subst heq
      rw [Function.update_self] at hinput' ⊢
      rw [(Prod.mk.inj (Option.some.inj hinput')).1]
    · rw [Function.update_of_ne heq] at hinput' ⊢
      exact hinputs hash txindex' txPrev' hinput'

/-- Connecting the inputs of a transaction marks the outputs it spends, all of them ready. -/
theorem connectInputs_spec (hqueued : (fBlock || fMiner) = true) {nBestHeight : ℤ}
    {mapTestPool' : MapTxIndex} {posThisTx : CDiskTxPos} {pindexBlock : PIndex} {view : TxIndexView}
    (hbase : tx.isCoinBase = false)
    (hinputs : ∀ hash txindex txPrev, inputs hash = some (txindex, txPrev) →
      overlay mapTestPool view hash = some txindex)
    (h : connectInputs P nBestHeight inputs mapTestPool posThisTx pindexBlock fBlock fMiner tx =
      .ok mapTestPool') :
    (∀ prevout ∈ tx.spends, Ready (overlay mapTestPool view) prevout) ∧
      overlay mapTestPool' view =
        markAll (some posThisTx) tx.spends (overlay mapTestPool view) ∧
      (tx.isCoinStake = false → tx.valueOut ≤ (tx.spends.map (valueOf inputs)).sum) := by
  simp only [connectInputs, hbase, Bool.false_eq_true, if_false, bind_eq_ok] at h
  obtain ⟨nValueIn, hvalues, ⟨inputs', mapTestPool''⟩, hloop, hfee⟩ := h
  rw [CTransaction.spends_of_not_coinBase hbase, ← foldl_setMark]
  have hmarks : (∀ input ∈ tx.vin.zipIdx, Ready (overlay mapTestPool view) input.1.prevout) ∧
      overlay mapTestPool'' view = (tx.vin.zipIdx.map fun input ↦ input.1.prevout).foldl
        (setMark (some posThisTx)) (overlay mapTestPool view) ∧
      ∀ hash txindex txPrev, inputs' hash = some (txindex, txPrev) →
        overlay mapTestPool'' view hash = some txindex := by
    refine foldlM_processed (fun pre state ↦
      (∀ input ∈ pre, Ready (overlay mapTestPool view) input.1.prevout) ∧
        overlay state.2 view = (pre.map fun input ↦ input.1.prevout).foldl
          (setMark (some posThisTx)) (overlay mapTestPool view) ∧
        ∀ hash txindex txPrev, state.1 hash = some (txindex, txPrev) →
          overlay state.2 view hash = some txindex) ?_ ⟨by simp, rfl, hinputs⟩ hloop
    rintro pre input post state state' - ⟨hready, hoverlay, hstate⟩ hone
    obtain ⟨hthis, hoverlay', hstate'⟩ := spendInput_spec hqueued hstate hone
    refine ⟨?_, ?_, hstate'⟩
    · intro input' hinput'
      rcases List.mem_append.mp hinput' with hinput' | hinput'
      · exact hready input' hinput'
      · rw [List.mem_singleton.mp hinput']
        rw [hoverlay, foldl_setMark] at hthis
        exact hthis.of_markAll
    · rw [hoverlay', hoverlay, List.map_append, List.foldl_append]
      rfl
  obtain ⟨hready, hoverlay, -⟩ := hmarks
  have hvin : (tx.vin.zipIdx.map fun input ↦ input.1.prevout) = tx.vin.map CTxIn.prevout := by
    have hfst : (tx.vin.zipIdx.map Prod.fst).map CTxIn.prevout = tx.vin.map CTxIn.prevout := by
      rw [List.zipIdx_map_fst]
    rwa [List.map_map] at hfst
  rw [hvin] at hoverlay
  refine ⟨?_, ?_, ?_⟩
  · intro prevout hprevout
    rw [← hvin] at hprevout
    obtain ⟨input, hinput, rfl⟩ := List.mem_map.mp hprevout
    exact hready input hinput
  · simp only [pure_eq_ok] at hfee
    obtain ⟨-, -, rfl⟩ := hfee
    exact hoverlay
  · intro hstake
    rw [hstake] at hfee
    simp only [bind_eq_ok, checkWhen_eq_ok, Bool.not_false, forall_const, checkFee,
      rejectIf_eq_ok] at hfee
    obtain ⟨-, ⟨nValueOut, hout, -, hle, -⟩, -⟩ := hfee
    rw [← checkInput_sum hvalues, ← CTransaction.getValueOut_eq_ok hout]
    exact not_lt.mp hle

section Values

variable (P : ChainParams) (files : BlockFiles) (mapTx : Uint256 → Option CTransaction)

/-- Value of everything a transaction spends. -/
def valueIn (index : TxIndexView) (tx : CTransaction) : ℤ :=
  (tx.spends.map (fetchedValue files mapTx index)).sum

/-- The output's transaction could be fetched. -/
def Fetches (index : TxIndexView) (prevout : COutPoint) : Prop :=
  ((index prevout.hash).bind (fetchedTx files mapTx prevout.hash)).isSome

/-- Whatever the transactions of a block spend could be fetched, in the index as the earlier ones
leave it. -/
def FetchesAll : TxIndexView → List (CTransaction × CDiskTxPos) → Prop
  | _, [] => True
  | index, entry :: rest =>
      (∀ prevout ∈ entry.1.spends, Fetches files mapTx index prevout) ∧
        FetchesAll (apply index (spenderOf P entry)) rest

theorem fetchesAll_append {entries : List (CTransaction × CDiskTxPos)}
    {entry : CTransaction × CDiskTxPos} (h : FetchesAll P files mapTx index entries)
    (hentry : ∀ prevout ∈ entry.1.spends,
      Fetches files mapTx (applyAll index (entries.map (spenderOf P))) prevout) :
    FetchesAll P files mapTx index (entries ++ [entry]) := by
  induction entries generalizing index with
  | nil => exact ⟨hentry, trivial⟩
  | cons first entries ih => exact ⟨h.1, ih h.2 hentry⟩

/-- The transactions of a block with the value of what each spends, in the index as the earlier
ones leave it. -/
def withValueIn : TxIndexView → List (CTransaction × CDiskTxPos) → List (CTransaction × ℤ)
  | _, [] => []
  | index, entry :: rest =>
      (entry.1, valueIn files mapTx index entry.1) :: withValueIn (apply index (spenderOf P entry)) rest

theorem withValueIn_append (index : TxIndexView) (entries : List (CTransaction × CDiskTxPos))
    (entry : CTransaction × CDiskTxPos) :
    withValueIn P files mapTx index (entries ++ [entry]) =
      withValueIn P files mapTx index entries ++
        [(entry.1, valueIn files mapTx (applyAll index (entries.map (spenderOf P))) entry.1)] := by
  induction entries generalizing index with
  | nil => rfl
  | cons first entries ih => simp [withValueIn, ih]

theorem map_fst_withValueIn (index : TxIndexView) (entries : List (CTransaction × CDiskTxPos)) :
    (withValueIn P files mapTx index entries).map Prod.fst = entries.map Prod.fst := by
  induction entries generalizing index with
  | nil => rfl
  | cons first entries ih => simp [withValueIn, ih]

end Values

/-- Neither coinbase nor coinstake. -/
def isOrdinary (tx : CTransaction) : Bool := !tx.isCoinBase && !tx.isCoinStake

def sumIn (txs : List (CTransaction × ℤ)) : ℤ := (txs.map Prod.snd).sum

def sumOut (txs : List (CTransaction × ℤ)) : ℤ := (txs.map fun tx ↦ tx.1.valueOut).sum

def sumFees (txs : List (CTransaction × ℤ)) : ℤ :=
  ((txs.filter fun tx ↦ isOrdinary tx.1).map fun tx ↦ tx.2 - tx.1.valueOut).sum

def lastStakeReward (txs : List (CTransaction × ℤ)) : ℤ :=
  txs.foldl (fun nStakeReward tx ↦ if tx.1.isCoinStake then tx.1.valueOut - tx.2 else nStakeReward) 0

/-- The accumulators of `ConnectBlock` are the sums over the transactions so far. -/
structure SumsOf (txs : List (CTransaction × ℤ)) (sums : ConnectSums) : Prop where
  nValueIn : sums.nValueIn = sumIn txs
  nValueOut : sums.nValueOut = sumOut txs
  nFees : sums.nFees = sumFees txs
  nStakeReward : sums.nStakeReward = lastStakeReward txs

theorem fullySpent_of_not_overwritesUnspent {hash : Uint256} (h : overwritesUnspent txdb hash ≠ true) :
    FullySpent txdb.readTxIndex hash := by
  intro txindexOld hold hmem
  refine h ?_
  simp only [overwritesUnspent, hold, List.any_eq_true]
  exact ⟨none, hmem, rfl⟩

theorem valueIn_of_isCoinBase (h : tx.isCoinBase) :
    valueIn files mapTx index tx = 0 := by
  simp [valueIn, CTransaction.spends, h]

/-- What one round of the loop in `ConnectBlock` does. -/
structure ConnectsTx (P : ChainParams) (files : BlockFiles) (st : NodeState) (sums sums' : ConnectSums)
    (entry : CTransaction × CDiskTxPos) (nValueIn : ℤ) : Prop where
  fullySpent : FullySpent st.txdb.readTxIndex (P.hashTx entry.1)
  fetches : ∀ prevout ∈ entry.1.spends, Fetches files st.mempool.mapTx.lookup
    (overlay sums.mapQueuedChanges st.txdb.readTxIndex) prevout
  ready : ∀ prevout ∈ entry.1.spends, Ready (overlay sums.mapQueuedChanges st.txdb.readTxIndex) prevout
  index : overlay sums'.mapQueuedChanges st.txdb.readTxIndex =
    apply (overlay sums.mapQueuedChanges st.txdb.readTxIndex) (spenderOf P entry)
  nValueIn_eq : nValueIn = valueIn files st.mempool.mapTx.lookup
    (overlay sums.mapQueuedChanges st.txdb.readTxIndex) entry.1
  sumValueIn : sums'.nValueIn = sums.nValueIn + nValueIn
  sumValueOut : sums'.nValueOut = sums.nValueOut + entry.1.valueOut
  sumFees : sums'.nFees =
    if isOrdinary entry.1 then sums.nFees + (nValueIn - entry.1.valueOut) else sums.nFees
  stakeReward : sums'.nStakeReward =
    if entry.1.isCoinStake then entry.1.valueOut - nValueIn else sums.nStakeReward
  valueOut_le : isOrdinary entry.1 → entry.1.valueOut ≤ nValueIn

theorem connectSpending_spec {pos : CDiskTxPos} (hbase : tx.isCoinBase = false)
    (h : connectSpending P files st pindex sums tx pos = .ok sums') :
    (∀ prevout ∈ tx.spends, Fetches files st.mempool.mapTx.lookup
        (overlay sums.mapQueuedChanges st.txdb.readTxIndex) prevout) ∧
      (∀ prevout ∈ tx.spends, Ready (overlay sums.mapQueuedChanges st.txdb.readTxIndex) prevout) ∧
      overlay sums'.mapQueuedChanges st.txdb.readTxIndex =
        markAll (some pos) tx.spends (overlay sums.mapQueuedChanges st.txdb.readTxIndex) ∧
      ∃ nTxValueIn, nTxValueIn = valueIn files st.mempool.mapTx.lookup
          (overlay sums.mapQueuedChanges st.txdb.readTxIndex) tx ∧
        sums'.nValueIn = sums.nValueIn + nTxValueIn ∧
        sums'.nValueOut = sums.nValueOut + tx.valueOut ∧
        sums'.nFees =
          (if tx.isCoinStake then sums.nFees else sums.nFees + (nTxValueIn - tx.valueOut)) ∧
        sums'.nStakeReward =
          (if tx.isCoinStake then tx.valueOut - nTxValueIn else sums.nStakeReward) ∧
        (tx.isCoinStake = false → tx.valueOut ≤ nTxValueIn) := by
  simp only [connectSpending, bind_eq_ok, rejectIf_eq_ok, mapError_eq_ok, pure_eq_ok,
    exists_const] at h
  obtain ⟨inputs, hfetch, nP2SHSigOps, -, -, nTxValueIn, hin, nTxValueOut, hout, mapQueuedChanges,
    hconnect, rfl⟩ := h
  obtain ⟨hfetched, hsome⟩ := fetchInputs_spec (Bool.true_or _) hbase hfetch
  obtain ⟨hready, hmarks, hfee⟩ := connectInputs_spec (Bool.true_or _) hbase
    (fun hash txindex txPrev hinput ↦ (hfetched hash txindex txPrev hinput).1) hconnect
  have hvalue : (tx.spends.map (valueOf inputs)).sum = valueIn files st.mempool.mapTx.lookup
      (overlay sums.mapQueuedChanges st.txdb.readTxIndex) tx := by
    unfold valueIn
    congr 1
    exact List.map_congr_left fun prevout hprevout ↦ hfetched.valueOf_eq (hsome prevout hprevout)
  obtain rfl := CTransaction.getValueOut_eq_ok hout
  have hnTxValueIn := getValueIn_eq_ok hin
  refine ⟨?_, hready, hmarks, nTxValueIn, hnTxValueIn.trans hvalue, rfl, rfl, rfl, rfl, ?_⟩
  · intro prevout hprevout
    obtain ⟨⟨txindex, txPrev⟩, hinput⟩ := Option.isSome_iff_exists.mp (hsome prevout hprevout)
    obtain ⟨hindex, htx⟩ := hfetched prevout.hash txindex txPrev hinput
    simp [Fetches, hindex, htx]
  · intro hstake
    rw [hnTxValueIn]
    exact hfee hstake

theorem connectTx_spec {entry : CTransaction × CDiskTxPos}
    (h : connectTx P files st pindex sums entry = .ok sums') :
    ∃ nValueIn, ConnectsTx P files st sums sums' entry nValueIn := by
  obtain ⟨tx, pos⟩ := entry
  simp only [connectTx, bind_eq_ok, rejectIf_eq_ok, exists_const] at h
  obtain ⟨hoverwrite, -, hkind⟩ := h
  have hfullySpent := fullySpent_of_not_overwritesUnspent hoverwrite
  cases hbase : tx.isCoinBase with
  | true =>
    rw [if_pos hbase] at hkind
    simp only [bind_eq_ok, pure_eq_ok] at hkind
    obtain ⟨nTxValueOut, hout, sums₁, rfl, rfl⟩ := hkind
    obtain rfl := CTransaction.getValueOut_eq_ok hout
    have hspends : tx.spends = [] := by simp [CTransaction.spends, hbase]
    have hordinary : isOrdinary tx = false := by simp [isOrdinary, hbase]
    have hstake := CTransaction.isCoinStake_of_isCoinBase hbase
    refine ⟨0, hfullySpent, by simp [hspends], by simp [hspends], ?_, (valueIn_of_isCoinBase hbase).symm, by simp,
      rfl, by simp [hordinary], by simp [hstake], by simp [hordinary]⟩
    simp [apply, spenderOf, hspends]
  | false =>
    rw [if_neg (by simp [hbase])] at hkind
    simp only [bind_eq_ok, pure_eq_ok] at hkind
    obtain ⟨sums₁, hspend, rfl⟩ := hkind
    obtain ⟨hfetches, hready, hmarks, nTxValueIn, hin, hvalueIn, hvalueOut, hfees, hreward, hle⟩ :=
      connectSpending_spec hbase hspend
    have hordinary : isOrdinary tx = !tx.isCoinStake := by simp [isOrdinary, hbase]
    refine ⟨nTxValueIn, hfullySpent, hfetches, hready, ?_, hin, hvalueIn, hvalueOut, ?_, hreward, ?_⟩
    · simp only [overlay_insert, hmarks, apply_eq]
      rfl
    · simp only [hordinary, hfees]
      cases tx.isCoinStake <;> rfl
    · simpa [hordinary] using hle

/-- Every transaction of a connected block but the coinbase and coinstakes spends what it pays. -/
structure ConnectsAll (P : ChainParams) (files : BlockFiles) (st : NodeState)
    (entries : List (CTransaction × CDiskTxPos)) (sums : ConnectSums) : Prop where
  index : overlay sums.mapQueuedChanges st.txdb.readTxIndex =
    applyAll st.txdb.readTxIndex (entries.map (spenderOf P))
  enabled : EnabledAll st.txdb.readTxIndex (entries.map (spenderOf P))
  fetches : FetchesAll P files st.mempool.mapTx.lookup st.txdb.readTxIndex entries
  sums : SumsOf (withValueIn P files st.mempool.mapTx.lookup st.txdb.readTxIndex entries) sums
  valueOut_le : ∀ tx ∈ withValueIn P files st.mempool.mapTx.lookup st.txdb.readTxIndex entries,
    isOrdinary tx.1 → tx.1.valueOut ≤ tx.2

theorem SumsOf.step {txs : List (CTransaction × ℤ)} {entry : CTransaction × CDiskTxPos}
    (hsums : SumsOf txs sums) (h : ConnectsTx P files st sums sums' entry nValueIn) :
    SumsOf (txs ++ [(entry.1, nValueIn)]) sums' where
  nValueIn := by simp [h.sumValueIn, hsums.nValueIn, sumIn]
  nValueOut := by simp [h.sumValueOut, hsums.nValueOut, sumOut]
  nFees := by
    rw [h.sumFees, hsums.nFees]
    cases hordinary : isOrdinary entry.1 <;> simp [sumFees, hordinary]
  nStakeReward := by simp [h.stakeReward, hsums.nStakeReward, lastStakeReward]

theorem connectLoop_spec {entries : List (CTransaction × CDiskTxPos)}
    (hchecked : ∀ entry ∈ entries, entry.1.Checked)
    (hids : (entries.map fun entry ↦ P.hashTx entry.1).Nodup)
    (h : entries.foldlM (connectTx P files st pindex) .init = .ok sums) :
    ConnectsAll P files st entries sums := by
  refine foldlM_processed (ConnectsAll P files st) ?_ ?_ h
  · intro pre entry post sums₁ sums₂ hsplit hinv hone
    obtain ⟨nValueIn, hstep⟩ := connectTx_spec hone
    have hready := hstep.ready
    have hfetches := hstep.fetches
    have hindex := hstep.index
    have hnValueIn := hstep.nValueIn_eq
    rw [hinv.index] at hready hfetches hindex hnValueIn
    have hpre : P.hashTx entry.1 ∉ (pre.map (spenderOf P)).map Spender.id := by
      rw [hsplit, List.map_append, List.map_cons, List.nodup_append] at hids
      intro hmem
      rw [List.map_map] at hmem
      exact hids.2.2 _ hmem _ (List.mem_cons_self) rfl
    have henabled : Enabled (applyAll st.txdb.readTxIndex (pre.map (spenderOf P)))
        (spenderOf P entry) := by
      refine ⟨hready, ?_, fullySpent_applyAll hstep.fullySpent hpre⟩
      exact (hchecked entry (hsplit ▸ by simp)).spends_nodup
    have hvalues : withValueIn P files st.mempool.mapTx.lookup st.txdb.readTxIndex (pre ++ [entry]) =
        withValueIn P files st.mempool.mapTx.lookup st.txdb.readTxIndex pre ++
          [(entry.1, nValueIn)] := by
      rw [withValueIn_append, hnValueIn]
    refine ⟨?_, ?_, fetchesAll_append P files _ hinv.fetches hfetches, ?_, ?_⟩
    · rw [hindex, List.map_append, applyAll_append]
      rfl
    · rw [List.map_append, enabledAll_append]
      exact ⟨hinv.enabled, henabled, trivial⟩
    · rw [hvalues]
      exact hinv.sums.step hstep
    · rw [hvalues]
      intro tx htx hordinary
      rcases List.mem_append.mp htx with htx | htx
      · exact hinv.valueOut_le tx htx hordinary
      · rw [List.mem_singleton.mp htx] at hordinary ⊢
        exact hstep.valueOut_le hordinary
  · exact ⟨overlay_empty _, trivial, trivial, ⟨rfl, rfl, rfl, rfl⟩, by simp [withValueIn]⟩

theorem map_fst_locate (nFile nBlockPos nTxPos : ℕ) (vtx : List CTransaction) :
    (locate nFile nBlockPos nTxPos vtx).map Prod.fst = vtx := by
  induction vtx generalizing nTxPos with
  | nil => rfl
  | cons tx vtx ih => simp [locate, ih]

theorem map_fst_located (block : CBlock) (pindex : PIndex) (fJustCheck : Bool) :
    (block.located pindex fJustCheck).map Prod.fst = block.vtx := by
  unfold CBlock.located
  cases fJustCheck
  · exact map_fst_locate _ _ _ _
  · simp [Function.comp_def]

/-- The loop over the transactions of a checked block enters them into the index. -/
theorem connectsAll_of_loop {block : CBlock} {fJustCheck : Bool} (hchecked : block.Checked P)
    (h : (block.located pindex fJustCheck).foldlM (connectTx P files st pindex) .init = .ok sums) :
    ConnectsAll P files st (block.located pindex fJustCheck) sums := by
  apply connectLoop_spec _ _ h
  · intro entry hentry
    apply hchecked.tx_checked
    rw [← map_fst_located block pindex fJustCheck]
    exact List.mem_map_of_mem hentry
  · have hids := hchecked.txids_nodup
    rwa [← map_fst_located block pindex fJustCheck, List.map_map] at hids

/-- The checks of `ConnectBlock` establish that the block may be entered into the index. -/
theorem connectChecks_spec {env : Env} {block : CBlock} {fJustCheck : Bool}
    (h : connectChecks P env st block pindex fJustCheck = .ok sums) :
    block.Checked P ∧ ConnectsAll P env.files st (block.located pindex fJustCheck) sums ∧
      checkReward P env.files st block sums = .ok () := by
  simp only [connectChecks, bind_eq_ok, pure_eq_ok] at h
  obtain ⟨u, hcheck, sums', hloop, v, hreward, rfl⟩ := h
  have hchecked := checked_of_checkBlock hcheck
  exact ⟨hchecked, connectsAll_of_loop hchecked hloop, hreward⟩

end Electra.Ledger

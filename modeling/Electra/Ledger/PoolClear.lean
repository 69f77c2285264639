import Electra.Ledger.IndexRun
import Electra.Ledger.PoolIndex

/-!
# The memory pool against the ledger

A pool is clear of some transactions if none of them is in it and nothing in it spends what they
spend.  What the pool accepts with its inputs checked is clear of the ledger of the current branch.
-/

namespace Electra.Ledger

open Chain Foundations.SpendIndex Foundations.Outcome Foundations.WriteBatch

/-- None of the transactions is in the pool, and no pool transaction spends an output that one of
them spends. -/
def PoolClear (P : ChainParams) (pool : CTxMemPool) (txs : List (CTransaction × CDiskTxPos)) : Prop :=
  ∀ hash tx, pool.mapTx.lookup hash = some tx → ∀ entry ∈ txs,
    P.hashTx entry.1 ≠ hash ∧ ∀ prevout ∈ tx.vin.map CTxIn.prevout, prevout ∉ entry.1.spends

variable {P : ChainParams} {pool pool' : CTxMemPool} {tx : CTransaction}
  {entries entries' : List (CTransaction × CDiskTxPos)}

theorem PoolClear.shrinks (h : PoolClear P pool entries) (hshrinks : Shrinks pool pool') :
    PoolClear P pool' entries := fun hash tx hlookup ↦ h hash tx (hshrinks hash tx hlookup)

theorem poolClear_append : PoolClear P pool (entries ++ entries') ↔
    PoolClear P pool entries ∧ PoolClear P pool entries' := by
  constructor
  · intro h
    exact ⟨fun hash tx hlookup entry hentry ↦ h hash tx hlookup entry (List.mem_append_left _ hentry),
      fun hash tx hlookup entry hentry ↦ h hash tx hlookup entry (List.mem_append_right _ hentry)⟩
  · rintro ⟨h, h'⟩ hash tx hlookup entry hentry
    rcases List.mem_append.mp hentry with hentry | hentry
    · exact h hash tx hlookup entry hentry
    · exact h' hash tx hlookup entry hentry

variable {prevout : COutPoint} {view : TxIndexView} {files : BlockFiles} {txdb : CTxDB}

theorem spends_subset_vin (tx : CTransaction) (h : prevout ∈ tx.spends) :
    prevout ∈ tx.vin.map CTxIn.prevout := by
  unfold CTransaction.spends at h
  split at h
  · cases h
  · exact h

/-- Once transactions are deleted with their conflicts the pool is clear of them. -/
theorem poolClear_of_gone {vtx : List CTransaction}
    (hgone : ∀ tx ∈ vtx, pool.mapTx.lookup (P.hashTx tx) = none ∧
      ∀ prevout ∈ tx.vin.map CTxIn.prevout, Unclaimed pool prevout)
    (hentries : ∀ entry ∈ entries, entry.1 ∈ vtx) : PoolClear P pool entries := by
  intro hash tx hlookup entry hentry
  obtain ⟨hnone, hunclaimed⟩ := hgone entry.1 (hentries entry hentry)
  refine ⟨?_, ?_⟩
  · rintro rfl
    rw [hnone] at hlookup
    cases hlookup
  · intro prevout hprevout hspent
    exact hunclaimed prevout (spends_subset_vin _ hspent) hash tx hlookup hprevout

/-- If the index has a record of the output's transaction, the output is unmarked there. -/
def Unspent (view : TxIndexView) (prevout : COutPoint) : Prop :=
  ∀ txindex, view prevout.hash = some txindex → txindex.vSpent[prevout.n]? = some none

/-- What is unmarked in a fetched record is unmarked in the index. -/
def FetchedFrom (view : TxIndexView) (inputs : MapPrevTx) : Prop :=
  ∀ hash txindex txPrev, inputs hash = some (txindex, txPrev) → ∀ n : ℕ,
    txindex.vSpent[n]? = some none → Unspent view ⟨hash, n⟩

theorem FetchedFrom.update {inputs : MapPrevTx} (h : FetchedFrom view inputs) {hash : Uint256}
    {txindex : CTxIndex} (txPrev : CTransaction)
    (hnew : ∀ n : ℕ, txindex.vSpent[n]? = some none → Unspent view ⟨hash, n⟩) :
    FetchedFrom view (Function.update inputs hash (some (txindex, txPrev))) := by
  intro hash' txindex' txPrev' hinput
  by_cases heq : hash' = hash
  · subst heq
    rw [Function.update_self] at hinput
    obtain ⟨rfl, rfl⟩ := Prod.mk.inj (Option.some.inj hinput)
    exact hnew
  · rw [Function.update_of_ne heq] at hinput
    exact h hash' txindex' txPrev' hinput

theorem fetchInput_pool {mapTx : Uint256 → Option CTransaction} {inputs inputs' : MapPrevTx}
    (h : FetchedFrom txdb.readTxIndex inputs)
    (hfetch : fetchInput files txdb mapTx ∅ false false inputs prevout = .ok inputs') :
    FetchedFrom txdb.readTxIndex inputs' := by
  have hfind : findTxIndex txdb ∅ false false prevout.hash = txdb.readTxIndex prevout.hash := rfl
  unfold fetchInput at hfetch
  rw [hfind] at hfetch
  split at hfetch
  · exact Except.ok.inj hfetch ▸ h
  · split at hfetch
    · next hnone =>
      simp only [Bool.or_self, Bool.false_eq_true, if_false, bind_eq_ok, require_eq_ok,
        pure_eq_ok] at hfetch
      obtain ⟨txPrev, -, rfl⟩ := hfetch
      refine h.update txPrev fun n _ txindex hindex ↦ ?_
      cases hnone.symm.trans hindex
    · next txindex hsome =>
      have hnew : ∀ n : ℕ, txindex.vSpent[n]? = some none →
          Unspent txdb.readTxIndex ⟨prevout.hash, n⟩ := by
        intro n hn txindex' hindex
        obtain rfl := Option.some.inj (hsome.symm.trans hindex)
        exact hn
      split at hfetch
      · simp only [bind_eq_ok, require_eq_ok, pure_eq_ok] at hfetch
        obtain ⟨txPrev, -, rfl⟩ := hfetch
        exact h.update txPrev hnew
      · simp only [bind_eq_ok, require_eq_ok, pure_eq_ok] at hfetch
        obtain ⟨txPrev, -, rfl⟩ := hfetch
        exact h.update txPrev hnew

theorem spendInput_pool {nBestHeight : ℤ} {posThisTx : CDiskTxPos}
    {state state' : MapPrevTx × MapTxIndex} {input : CTxIn × ℕ} (h : FetchedFrom view state.1)
    (hspend : spendInput P nBestHeight false false tx posThisTx state input = .ok state') :
    Unspent view input.1.prevout ∧ FetchedFrom view state'.1 := by
  obtain ⟨inputs, mapTestPool⟩ := state
  simp only [spendInput, bind_eq_ok, require_eq_ok, rejectIf_eq_ok, pure_eq_ok, not_not] at hspend
  obtain ⟨⟨txindex, txPrev⟩, hinput, -, hnone, -, -, rfl⟩ := hspend
  have hfetched := h input.1.prevout.hash txindex txPrev hinput
  refine ⟨hfetched input.1.prevout.n hnone, h.update txPrev fun n hn ↦ hfetched n ?_⟩
  rw [List.getElem?_set] at hn
  split at hn
  · split at hn <;> cases hn
  · exact hn

/-- The outputs that an accepted transaction spends are unmarked in the index. -/
theorem checkInputs_unspent {pindexBest : PIndex} (hbase : tx.isCoinBase = false)
    (h : CTxMemPool.checkInputs P files txdb pindexBest pool tx = .ok ()) :
    ∀ prevout ∈ tx.vin.map CTxIn.prevout, Unspent txdb.readTxIndex prevout := by
  simp only [CTxMemPool.checkInputs, bind_eq_ok, mapError_eq_ok, rejectIf_eq_ok] at h
  obtain ⟨inputs, hfetch, -, -, -, -, -, -, -, -, mapTestPool, hconnect, -⟩ := h
  simp only [fetchInputs, hbase, Bool.false_eq_true, if_false, bind_eq_ok, rejectIf_eq_ok,
    pure_eq_ok] at hfetch
  obtain ⟨inputs', hloop, -, -, rfl⟩ := hfetch
  have hfetched : FetchedFrom txdb.readTxIndex inputs' := by
    refine foldlM_processed (fun _ inputs ↦ FetchedFrom txdb.readTxIndex inputs)
      (fun _ _ _ _ _ _ hinv hone ↦ fetchInput_pool hinv hone) ?_ hloop
    intro hash txindex txPrev hinput
    cases hinput
  simp only [connectInputs, hbase, Bool.false_eq_true, if_false, bind_eq_ok] at hconnect
  obtain ⟨nValueIn, -, state, hspends, -⟩ := hconnect
  have hunspent : (∀ input ∈ tx.vin.zipIdx, Unspent txdb.readTxIndex input.1.prevout) ∧
      FetchedFrom txdb.readTxIndex state.1 := by
    refine foldlM_processed (fun pre state ↦
      (∀ input ∈ pre, Unspent txdb.readTxIndex input.1.prevout) ∧
        FetchedFrom txdb.readTxIndex state.1) ?_ ⟨by simp, hfetched⟩ hspends
    rintro pre input post state state' - ⟨hpre, hinv⟩ hone
    obtain ⟨hthis, hinv'⟩ := spendInput_pool hinv hone
    refine ⟨?_, hinv'⟩
    intro input' hinput'
    rcases List.mem_append.mp hinput' with hinput' | hinput'
    · exact hpre input' hinput'
    · exact List.mem_singleton.mp hinput' ▸ hthis
  intro prevout hprevout
  obtain ⟨txin, htxin, rfl⟩ := List.mem_map.mp hprevout
  obtain ⟨n, hn⟩ := List.mem_iff_getElem?.mp htxin
  exact hunspent.1 (txin, n) (List.mem_zipIdx_iff_getElem?.mpr hn)

variable {disk : BlockFiles} {genesis : CBlockIndex} {chain : Branch}

theorem ledger_append (above below : Branch) :
    ledger (above ++ below) = ledger below ++ ledger above := by
  induction above with
  | nil => simp [ledger]
  | cons entry above ih => simp [ledger, ih]

/-- An unmarked output is spent by no transaction of the ledger. -/
theorem notMem_spends_of_unspent (h : Exact P chain view) (hunspent : Unspent view prevout)
    {entry : CTransaction × CDiskTxPos} (hentry : entry ∈ ledger chain) :
    prevout ∉ entry.1.spends := by
  intro hspent
  have hmem : spenderOf P entry ∈ ledgerOf P chain := List.mem_map_of_mem hentry
  have hid := h.valid.ins_mem_ids hmem (o := prevout) hspent
  cases hindex : Foundations.SpendIndex.indexOf (ledgerOf P chain) prevout.hash with
  | none => exact indexOf_eq_none_iff.mp hindex hid
  | some txindex =>
    refine h.valid.not_ready_of_spent hmem (o := prevout) hspent ⟨txindex, hindex, ?_⟩
    exact hunspent txindex (h.index ▸ hindex)

/-- Accepting a transaction with its inputs checked keeps the pool clear of the ledger. -/
theorem PoolClear.accept {txs : Set CTransaction} {pindexBest : PIndex}
    (h : PoolClear P pool (ledger chain)) (hok : PoolOk P txs pool) (htx : tx ∈ txs)
    (hidle : txdb.activeBatch = none) (hexact : Exact P chain txdb.readTxIndex)
    (haccept : pool.accept P files txdb pindexBest tx true = .ok pool') :
    PoolOk P txs pool' ∧ PoolClear P pool' (ledger chain) := by
  obtain ⟨hok', rfl, hchecks⟩ := hok.accept htx haccept
  obtain ⟨hcontains, hinputs⟩ := hchecks rfl
  refine ⟨hok', fun hash tx' hadded entry hentry ↦ ?_⟩
  rcases lookup_addUnchecked hadded with ⟨rfl, rfl⟩ | hold
  · refine ⟨?_, ?_⟩
    · intro hhash
      have hread : txdb.readTxIndex (P.hashTx tx') = none := by
        rw [CTxDB.containsTx, Store.contains_of_noBatch hidle, Option.isSome_eq_false_iff,
          Option.isNone_iff_eq_none] at hcontains
        simp [CTxDB.readTxIndex, hcontains]
      rw [hexact.index, indexOf_eq_none_iff] at hread
      refine hread (List.mem_map.mpr ⟨spenderOf P entry, List.mem_map_of_mem hentry, hhash⟩)
    · intro prevout hprevout
      exact notMem_spends_of_unspent hexact
        (checkInputs_unspent (hok'.notCoinBase _ _ hadded) hinputs prevout hprevout) hentry
  · exact h hash tx' hold entry hentry

/-- A transaction of the upper part of a ledger neither is in the lower part nor spends what is
spent there. -/
theorem clear_of_above {above below : Branch} (h : Valid (ledgerOf P (above ++ below)))
    {entry entry' : CTransaction × CDiskTxPos} (hentry : entry ∈ ledger above)
    (hentry' : entry' ∈ ledger below) : P.hashTx entry'.1 ≠ P.hashTx entry.1 ∧
      ∀ prevout ∈ entry.1.spends, prevout ∉ entry'.1.spends := by
  have hids := h.ids
  rw [ledgerOf, ledger_append, List.map_append, List.map_append, List.nodup_append] at hids
  have hne : P.hashTx entry'.1 ≠ P.hashTx entry.1 :=
    hids.2.2 _ (List.mem_map_of_mem (List.mem_map_of_mem hentry')) _
      (List.mem_map_of_mem (List.mem_map_of_mem hentry))
  refine ⟨hne, fun prevout hspent hspent' ↦ hne ?_⟩
  have hmem : ∀ {e}, e ∈ ledger below ++ ledger above → spenderOf P e ∈ ledgerOf P (above ++ below) := by
    intro e he
    rw [ledgerOf, ledger_append]
    exact List.mem_map_of_mem he
  have hsame := h.spender_unique (hmem (List.mem_append_left _ hentry'))
    (hmem (List.mem_append_right _ hentry)) (o := prevout) hspent' hspent
  exact congrArg Spender.id hsame

/-- Resurrecting transactions of disconnected blocks keeps the pool clear of the blocks below. -/
theorem PoolClear.resurrect {txs : Set CTransaction} {vResurrect : List CTransaction}
    (h : PoolClear P pool entries) (files : BlockFiles) (txdb : CTxDB) (pindexBest : PIndex)
    (hok : PoolOk P txs pool) (htxs : ∀ tx ∈ vResurrect, tx ∈ txs)
    (hclear : ∀ tx ∈ vResurrect, ∀ entry ∈ entries, P.hashTx entry.1 ≠ P.hashTx tx ∧
      ∀ prevout ∈ tx.vin.map CTxIn.prevout, prevout ∉ entry.1.spends) :
    PoolOk P txs (vResurrect.foldl (Chain.resurrect P files txdb pindexBest) pool) ∧
      PoolClear P (vResurrect.foldl (Chain.resurrect P files txdb pindexBest) pool) entries := by
  induction vResurrect generalizing pool with
  | nil => exact ⟨hok, h⟩
  | cons first rest ih =>
    rw [List.forall_mem_cons] at htxs hclear
    rw [List.foldl_cons]
    cases haccept : pool.accept P files txdb pindexBest first false with
    | error failure =>
      rw [Chain.resurrect, haccept]
      exact ih h hok htxs.2 hclear.2
    | ok pool' =>
      rw [Chain.resurrect, haccept]
      obtain ⟨hok', rfl, -⟩ := hok.accept htxs.1 haccept
      refine ih (fun hash tx hadded ↦ ?_) hok' htxs.2 hclear.2
      rcases lookup_addUnchecked hadded with ⟨rfl, rfl⟩ | hold
      · exact hclear.1
      · exact h hash tx hold

end Electra.Ledger

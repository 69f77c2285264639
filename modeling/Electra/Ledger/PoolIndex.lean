import Electra.Chain.BestChain

/-!
# The two maps of the memory pool

`mapNextTx` knows the spender of every output that a pool transaction spends, so no two of them
spend the same output.  Removals take transactions out and keep this; what `removeConflicts` is
called for has no rival left in the pool.
-/

namespace Electra.Ledger

open Chain Foundations.SpendIndex Foundations.Outcome

/-- The maps of the pool agree, and its transactions are among some whose hashes differ. -/
structure PoolOk (P : ChainParams) (txs : Set CTransaction) (pool : CTxMemPool) : Prop where
  hash : ∀ hash tx, pool.mapTx.lookup hash = some tx → P.hashTx tx = hash ∧ tx ∈ txs
  notCoinBase : ∀ hash tx, pool.mapTx.lookup hash = some tx → tx.isCoinBase = false
  next : ∀ hash tx, pool.mapTx.lookup hash = some tx → ∀ prevout ∈ tx.vin.map CTxIn.prevout,
    ∃ n, pool.mapNextTx prevout = some ⟨tx, n⟩
  spender : ∀ prevout inpoint, pool.mapNextTx prevout = some inpoint → inpoint.ptx ∈ txs

/-- Transactions only leave the pool. -/
def Shrinks (pool pool' : CTxMemPool) : Prop :=
  ∀ hash tx, pool'.mapTx.lookup hash = some tx → pool.mapTx.lookup hash = some tx

variable {P : ChainParams} {txs : Set CTransaction} {pool pool' : CTxMemPool} {tx : CTransaction}

theorem Shrinks.refl (pool : CTxMemPool) : Shrinks pool pool := fun _ _ h ↦ h

theorem Shrinks.trans {pool'' : CTxMemPool} (h : Shrinks pool pool') (h' : Shrinks pool' pool'') :
    Shrinks pool pool'' := fun hash tx hlookup ↦ h hash tx (h' hash tx hlookup)

theorem Shrinks.lookup_eq_none (h : Shrinks pool pool') {hash : Uint256}
    (hnone : pool.mapTx.lookup hash = none) : pool'.mapTx.lookup hash = none := by
  cases hlookup : pool'.mapTx.lookup hash with
  | none => rfl
  | some tx =>
    rw [h hash tx hlookup] at hnone
    cases hnone

theorem poolOk_empty (P : ChainParams) (txs : Set CTransaction) : PoolOk P txs .empty where
  hash _ _ h := by simp [CTxMemPool.empty] at h
  notCoinBase _ _ h := by simp [CTxMemPool.empty] at h
  next _ _ h := by simp [CTxMemPool.empty] at h
  spender _ _ h := by simp [CTxMemPool.empty] at h

theorem foldl_update_none (prevouts : List COutPoint) (mapNextTx : COutPoint → Option CInPoint)
    (prevout : COutPoint) :
    prevouts.foldl (fun mapNextTx prevout ↦ Function.update mapNextTx prevout none) mapNextTx prevout =
      if prevout ∈ prevouts then none else mapNextTx prevout := by
  induction prevouts generalizing mapNextTx with
  | nil => simp
  | cons first rest ih =>
    rw [List.foldl_cons, ih]
    by_cases hrest : prevout ∈ rest
    · simp [hrest]
    · by_cases hfirst : prevout = first
      · simp [hfirst]
      · simp [hrest, hfirst]

theorem mapNextTx_erase (pool : CTxMemPool) (hash : Uint256) (tx : CTransaction) (prevout : COutPoint) :
    (pool.erase hash tx).mapNextTx prevout =
      if prevout ∈ tx.vin.map CTxIn.prevout then none else pool.mapNextTx prevout :=
  foldl_update_none _ _ _

theorem shrinks_erase (pool : CTxMemPool) (hash : Uint256) (tx : CTransaction) :
    Shrinks pool (pool.erase hash tx) := by
  intro hash' tx' h
  by_cases heq : hash' = hash
  · subst heq
    simp [CTxMemPool.erase] at h
  · simpa [CTxMemPool.erase, heq] using h

/-- Two pool transactions do not spend the same output. -/
theorem PoolOk.spender_unique (h : PoolOk P txs pool) {hash hash' : Uint256} {tx' : CTransaction}
    (htx : pool.mapTx.lookup hash = some tx) (htx' : pool.mapTx.lookup hash' = some tx')
    {prevout : COutPoint} (hprevout : prevout ∈ tx.vin.map CTxIn.prevout)
    (hprevout' : prevout ∈ tx'.vin.map CTxIn.prevout) : tx = tx' := by
  obtain ⟨n, hn⟩ := h.next hash tx htx prevout hprevout
  obtain ⟨n', hn'⟩ := h.next hash' tx' htx' prevout hprevout'
  exact congrArg CInPoint.ptx (Option.some.inj (hn.symm.trans hn'))

/-- A transaction that was in the pool can be erased from what is left of it. -/
theorem PoolOk.erase (h : PoolOk P txs pool) (h' : PoolOk P txs pool') (hshrinks : Shrinks pool pool')
    (htx : pool.mapTx.lookup (P.hashTx tx) = some tx) :
    PoolOk P txs (pool'.erase (P.hashTx tx) tx) where
  hash hash tx' hlookup := h'.hash hash tx' (shrinks_erase pool' _ tx hash tx' hlookup)
  notCoinBase hash tx' hlookup := h'.notCoinBase hash tx' (shrinks_erase pool' _ tx hash tx' hlookup)
  next hash tx' hlookup prevout hprevout := by
    have hlookup' := shrinks_erase pool' _ tx hash tx' hlookup
    obtain ⟨n, hn⟩ := h'.next hash tx' hlookup' prevout hprevout
    refine ⟨n, ?_⟩
    rw [mapNextTx_erase, if_neg, hn]
    intro hmem
    obtain rfl := h.spender_unique htx (hshrinks hash tx' hlookup') hmem hprevout
    obtain rfl := (h'.hash hash tx hlookup').1
    simp [CTxMemPool.erase] at hlookup
  spender prevout inpoint hnext := by
    rw [mapNextTx_erase] at hnext
    split at hnext
    · cases hnext
    · exact h'.spender prevout inpoint hnext

/-- One turn of the loop over the outputs of a transaction that is removed with its descendants. -/
def removeSpender (P : ChainParams) (nDepth : ℕ) (tx : CTransaction) (pool : CTxMemPool) (i : ℕ) :
    CTxMemPool :=
  match pool.mapNextTx ⟨P.hashTx tx, i⟩ with
  | some inpoint => CTxMemPool.removeFuel P nDepth pool inpoint.ptx true
  | none => pool

theorem removeSpender_none {nDepth i : ℕ} (h : pool.mapNextTx ⟨P.hashTx tx, i⟩ = none) :
    removeSpender P nDepth tx pool i = pool := by
  rw [removeSpender, h]

theorem removeSpender_some {nDepth i : ℕ} {inpoint : CInPoint}
    (h : pool.mapNextTx ⟨P.hashTx tx, i⟩ = some inpoint) :
    removeSpender P nDepth tx pool i = CTxMemPool.removeFuel P nDepth pool inpoint.ptx true := by
  rw [removeSpender, h]

/-- Removal keeps the maps in agreement and only takes transactions out. -/
theorem removeFuel_shrinks (hinj : Set.InjOn P.hashTx txs) (nDepth : ℕ) (fRecursive : Bool)
    (h : PoolOk P txs pool) (htx : tx ∈ txs) :
    PoolOk P txs (CTxMemPool.removeFuel P nDepth pool tx fRecursive) ∧
      Shrinks pool (CTxMemPool.removeFuel P nDepth pool tx fRecursive) := by
  induction nDepth generalizing pool tx fRecursive with
  | zero => exact ⟨h, .refl pool⟩
  | succ nDepth ih =>
    rw [CTxMemPool.removeFuel]
    split
    · next hsome =>
      obtain ⟨tx', hlookup⟩ := Option.isSome_iff_exists.mp hsome
      obtain ⟨hhash, htx'⟩ := h.hash _ tx' hlookup
      obtain rfl : tx' = tx := hinj htx' htx hhash
      have hchildren : ∀ (outputs : List ℕ) (pool₁ : CTxMemPool), PoolOk P txs pool₁ →
          Shrinks pool pool₁ →
          PoolOk P txs (outputs.foldl (removeSpender P nDepth tx') pool₁) ∧
            Shrinks pool (outputs.foldl (removeSpender P nDepth tx') pool₁) := by
        intro outputs
        induction outputs with
        | nil => exact fun pool₁ hok hshrinks ↦ ⟨hok, hshrinks⟩
        | cons i outputs ihOutputs =>
          intro pool₁ hok hshrinks
          rw [List.foldl_cons]
          cases hnext : pool₁.mapNextTx ⟨P.hashTx tx', i⟩ with
          | none =>
            rw [removeSpender_none hnext]
            exact ihOutputs pool₁ hok hshrinks
          | some inpoint =>
            rw [removeSpender_some hnext]
            obtain ⟨hok', hshrinks'⟩ := ih true hok (hok.spender _ inpoint hnext)
            exact ihOutputs _ hok' (hshrinks.trans hshrinks')
      cases fRecursive with
      | false => exact ⟨h.erase h (.refl pool) hlookup, shrinks_erase _ _ _⟩
      | true =>
        obtain ⟨hok, hshrinks⟩ := hchildren (List.range tx'.vout.length) pool h (.refl pool)
        exact ⟨h.erase hok hshrinks hlookup, hshrinks.trans (shrinks_erase _ _ _)⟩
    · exact ⟨h, .refl pool⟩

theorem PoolOk.remove (h : PoolOk P txs pool) (hinj : Set.InjOn P.hashTx txs) (htx : tx ∈ txs)
    (fRecursive : Bool) : PoolOk P txs (pool.remove P tx fRecursive) :=
  (removeFuel_shrinks hinj _ fRecursive h htx).1

theorem PoolOk.shrinks_remove (h : PoolOk P txs pool) (hinj : Set.InjOn P.hashTx txs) (htx : tx ∈ txs)
    (fRecursive : Bool) : Shrinks pool (pool.remove P tx fRecursive) :=
  (removeFuel_shrinks hinj _ fRecursive h htx).2

/-- What is removed is gone. -/
theorem lookup_remove (P : ChainParams) (pool : CTxMemPool) (tx : CTransaction) (fRecursive : Bool) :
    (pool.remove P tx fRecursive).mapTx.lookup (P.hashTx tx) = none := by
  rw [CTxMemPool.remove, CTxMemPool.removeFuel]
  split
  · simp [CTxMemPool.erase]
  · next hnone => simpa using hnone

/-- Removing transactions one after the other. -/
theorem PoolOk.foldl_remove (hinj : Set.InjOn P.hashTx txs) (vtx : List CTransaction)
    (h : PoolOk P txs pool) (hvtx : ∀ tx ∈ vtx, tx ∈ txs) :
    PoolOk P txs (vtx.foldl (fun pool tx ↦ pool.remove P tx false) pool) ∧
      Shrinks pool (vtx.foldl (fun pool tx ↦ pool.remove P tx false) pool) ∧
      ∀ tx ∈ vtx, (vtx.foldl (fun pool tx ↦ pool.remove P tx false) pool).mapTx.lookup (P.hashTx tx) =
        none := by
  induction vtx generalizing pool with
  | nil => exact ⟨h, .refl pool, by simp⟩
  | cons first rest ih =>
    have hfirst := hvtx first List.mem_cons_self
    obtain ⟨hok, hshrinks, hgone⟩ :=
      ih (h.remove hinj hfirst false) fun tx htx ↦ hvtx tx (List.mem_cons_of_mem _ htx)
    refine ⟨hok, (h.shrinks_remove hinj hfirst false).trans hshrinks, ?_⟩
    intro tx htx
    rcases List.mem_cons.mp htx with rfl | htx
    · exact hshrinks.lookup_eq_none (lookup_remove P pool tx false)
    · exact hgone tx htx

/-- No pool transaction spends the output. -/
def Unclaimed (pool : CTxMemPool) (prevout : COutPoint) : Prop :=
  ∀ hash tx, pool.mapTx.lookup hash = some tx → prevout ∉ tx.vin.map CTxIn.prevout

theorem Unclaimed.shrinks {prevout : COutPoint} (h : Unclaimed pool prevout)
    (hshrinks : Shrinks pool pool') : Unclaimed pool' prevout :=
  fun hash tx hlookup ↦ h hash tx (hshrinks hash tx hlookup)

/-- After the removal of a conflict nobody but the given transaction claims the output. -/
theorem removeConflict_spec (hinj : Set.InjOn P.hashTx txs) (h : PoolOk P txs pool)
    (hgone : pool.mapTx.lookup (P.hashTx tx) = none) (prevout : COutPoint) :
    PoolOk P txs (CTxMemPool.removeConflict P tx pool prevout) ∧
      Shrinks pool (CTxMemPool.removeConflict P tx pool prevout) ∧
      Unclaimed (CTxMemPool.removeConflict P tx pool prevout) prevout := by
  unfold CTxMemPool.removeConflict
  cases hnext : pool.mapNextTx prevout with
  | none =>
    refine ⟨h, .refl pool, fun hash tx' hlookup hmem ↦ ?_⟩
    obtain ⟨n, hn⟩ := h.next hash tx' hlookup prevout hmem
    rw [hnext] at hn
    cases hn
  | some inpoint =>
    have hspender : ∀ hash tx', pool.mapTx.lookup hash = some tx' →
        prevout ∈ tx'.vin.map CTxIn.prevout → tx' = inpoint.ptx := by
      intro hash tx' hlookup hmem
      obtain ⟨n, hn⟩ := h.next hash tx' hlookup prevout hmem
      rw [hnext] at hn
      exact congrArg CInPoint.ptx (Option.some.inj hn.symm)
    simp only
    split
    · have hptx := h.spender prevout inpoint hnext
      refine ⟨h.remove hinj hptx true, h.shrinks_remove hinj hptx true, ?_⟩
      intro hash tx' hlookup hmem
      have hlookup' := h.shrinks_remove hinj hptx true hash tx' hlookup
      obtain rfl := hspender hash tx' hlookup' hmem
      obtain rfl := (h.hash hash inpoint.ptx hlookup').1
      rw [lookup_remove] at hlookup
      cases hlookup
    · next hsame =>
      refine ⟨h, .refl pool, fun hash tx' hlookup hmem ↦ ?_⟩
      obtain rfl : inpoint.ptx = tx := not_not.mp hsame
      obtain rfl := hspender hash tx' hlookup hmem
      rw [(h.hash hash inpoint.ptx hlookup).1] at hgone
      rw [hgone] at hlookup
      cases hlookup

theorem removeConflicts_spec (hinj : Set.InjOn P.hashTx txs) (h : PoolOk P txs pool)
    (hgone : pool.mapTx.lookup (P.hashTx tx) = none) :
    PoolOk P txs (pool.removeConflicts P tx) ∧ Shrinks pool (pool.removeConflicts P tx) ∧
      ∀ prevout ∈ tx.vin.map CTxIn.prevout, Unclaimed (pool.removeConflicts P tx) prevout := by
  unfold CTxMemPool.removeConflicts
  generalize tx.vin.map CTxIn.prevout = prevouts
  induction prevouts generalizing pool with
  | nil => exact ⟨h, .refl pool, by simp⟩
  | cons first rest ih =>
    obtain ⟨hok, hshrinks, hfirst⟩ := removeConflict_spec hinj h hgone first
    obtain ⟨hok', hshrinks', hrest⟩ := ih hok (hshrinks.lookup_eq_none hgone)
    refine ⟨hok', hshrinks.trans hshrinks', ?_⟩
    intro prevout hprevout
    rcases List.mem_cons.mp hprevout with rfl | hprevout
    · exact hfirst.shrinks hshrinks'
    · exact hrest prevout hprevout

/-- Deleting the transactions of connected blocks leaves neither them nor a rival of them. -/
theorem foldl_deleteWithConflicts (hinj : Set.InjOn P.hashTx txs) (vDelete : List CTransaction)
    (h : PoolOk P txs pool) (hvDelete : ∀ tx ∈ vDelete, tx ∈ txs) :
    PoolOk P txs (vDelete.foldl (deleteWithConflicts P) pool) ∧
      Shrinks pool (vDelete.foldl (deleteWithConflicts P) pool) ∧
      ∀ tx ∈ vDelete, (vDelete.foldl (deleteWithConflicts P) pool).mapTx.lookup (P.hashTx tx) = none ∧
        ∀ prevout ∈ tx.vin.map CTxIn.prevout,
          Unclaimed (vDelete.foldl (deleteWithConflicts P) pool) prevout := by
  induction vDelete generalizing pool with
  | nil => exact ⟨h, .refl pool, by simp⟩
  | cons first rest ih =>
    have hfirst := hvDelete first List.mem_cons_self
    have hgone := lookup_remove P pool first false
    obtain ⟨hok, hshrinks, hclear⟩ := removeConflicts_spec hinj (h.remove hinj hfirst false) hgone
    have hone := (h.shrinks_remove hinj hfirst false).trans hshrinks
    obtain ⟨hok', hshrinks', hrest⟩ := ih hok fun tx htx ↦ hvDelete tx (List.mem_cons_of_mem _ htx)
    refine ⟨hok', hone.trans hshrinks', ?_⟩
    intro tx htx
    rcases List.mem_cons.mp htx with rfl | htx
    · exact ⟨hshrinks'.lookup_eq_none (hshrinks.lookup_eq_none hgone),
        fun prevout hprevout ↦ (hclear prevout hprevout).shrinks hshrinks'⟩
    · exact hrest tx htx

/-- Note that a transaction spends an output with one of its inputs. -/
def claim (tx : CTransaction) (mapNextTx : COutPoint → Option CInPoint) (input : CTxIn × ℕ) :
    COutPoint → Option CInPoint :=
  Function.update mapNextTx input.1.prevout (some ⟨tx, input.2⟩)

theorem foldl_claim (tx : CTransaction) (inputs : List (CTxIn × ℕ))
    (mapNextTx : COutPoint → Option CInPoint) (prevout : COutPoint) :
    (prevout ∈ inputs.map (fun input ↦ input.1.prevout) ∧
      ∃ n, inputs.foldl (claim tx) mapNextTx prevout = some ⟨tx, n⟩) ∨
    (prevout ∉ inputs.map (fun input ↦ input.1.prevout) ∧
      inputs.foldl (claim tx) mapNextTx prevout = mapNextTx prevout) := by
  induction inputs using List.reverseRecOn with
  | nil => simp
  | append_singleton inputs input ih =>
    rw [List.foldl_append, List.foldl_cons, List.foldl_nil, List.map_append, List.map_singleton, claim]
    by_cases heq : prevout = input.1.prevout
    · exact .inl ⟨by simp [heq], input.2, by rw [heq, Function.update_self]⟩
    · rw [Function.update_of_ne heq]
      simpa [heq] using ih

theorem lookup_addUnchecked {hash : Uint256} {tx' : CTransaction}
    (h : (pool.addUnchecked (P.hashTx tx) tx).mapTx.lookup hash = some tx') :
    hash = P.hashTx tx ∧ tx' = tx ∨ pool.mapTx.lookup hash = some tx' := by
  by_cases heq : hash = P.hashTx tx
  · subst heq
    left
    simpa [CTxMemPool.addUnchecked, eq_comm] using h
  · right
    simpa [CTxMemPool.addUnchecked, heq] using h

/-- A new transaction without a conflict can be added. -/
theorem PoolOk.addUnchecked (h : PoolOk P txs pool) (htx : tx ∈ txs) (hbase : tx.isCoinBase = false)
    (hnew : pool.mapTx.lookup (P.hashTx tx) = none)
    (hfree : ∀ prevout ∈ tx.vin.map CTxIn.prevout, pool.mapNextTx prevout = none) :
    PoolOk P txs (pool.addUnchecked (P.hashTx tx) tx) := by
  have hvin : (tx.vin.zipIdx.map fun input ↦ input.1.prevout) = tx.vin.map CTxIn.prevout := by
    have hfst : (tx.vin.zipIdx.map Prod.fst).map CTxIn.prevout = tx.vin.map CTxIn.prevout := by
      rw [List.zipIdx_map_fst]
    rwa [List.map_map] at hfst
  have hnext := foldl_claim tx tx.vin.zipIdx pool.mapNextTx
  rw [hvin] at hnext
  refine ⟨?_, ?_, ?_, ?_⟩
  · intro hash tx' hadded
    rcases lookup_addUnchecked hadded with ⟨rfl, rfl⟩ | hold
    · exact ⟨rfl, htx⟩
    · exact h.hash hash tx' hold
  · intro hash tx' hadded
    rcases lookup_addUnchecked hadded with ⟨rfl, rfl⟩ | hold
    · exact hbase
    · exact h.notCoinBase hash tx' hold
  · intro hash tx' hadded prevout hprevout
    rcases lookup_addUnchecked hadded with ⟨rfl, rfl⟩ | hold
    · rcases hnext prevout with ⟨-, hn⟩ | ⟨hnot, -⟩
      · exact hn
      · exact absurd hprevout hnot
    · obtain ⟨n, hn⟩ := h.next hash tx' hold prevout hprevout
      rcases hnext prevout with ⟨hmem, -⟩ | ⟨-, hsame⟩
      · rw [hfree prevout hmem] at hn
        cases hn
      · exact ⟨n, hsame.trans hn⟩
  · intro prevout inpoint hadded
    rcases hnext prevout with ⟨-, n, hn⟩ | ⟨-, hsame⟩
    · obtain rfl := Option.some.inj (hn.symm.trans hadded)
      exact htx
    · exact h.spender prevout inpoint (hsame.symm.trans hadded)

/-- A pool that accepts a transaction adds it and has nothing that conflicts with it. -/
theorem PoolOk.accept {files : BlockFiles} {txdb : CTxDB} {pindexBest : PIndex} {fCheckInputs : Bool}
    (h : PoolOk P txs pool) (htx : tx ∈ txs)
    (haccept : pool.accept P files txdb pindexBest tx fCheckInputs = .ok pool') :
    PoolOk P txs pool' ∧ pool' = pool.addUnchecked (P.hashTx tx) tx ∧
      (fCheckInputs = true → txdb.containsTx (P.hashTx tx) = false ∧
        CTxMemPool.checkInputs P files txdb pindexBest pool tx = .ok ()) := by
  simp only [CTxMemPool.accept, bind_eq_ok, rejectIf_eq_ok, mapError_eq_ok, checkWhen_eq_ok,
    pure_eq_ok] at haccept
  obtain ⟨-, -, -, hbase, -, -, -, -, -, -, -, hnew, -, hcontains, -, hfree, u, hinputs, rfl⟩ := haccept
  refine ⟨h.addUnchecked htx (by simpa using hbase) (by simpa using hnew) ?_, rfl, ?_⟩
  · simpa using hfree
  · rintro rfl
    exact ⟨by simpa using hcontains, hinputs rfl⟩

end Electra.Ledger

import Electra.Chain.Builders
import Electra.Ledger.PoolIndex
import Mathlib.Data.Set.Card

/-!
# Exactness of the memory pool index

`mapNextTx` maps each outpoint that a pool transaction spends to that transaction and the position
of the input, and nothing else.  With it a recursive removal takes out a transaction and what
descends from it in the pool, however often the descendants are visited.
-/

namespace Electra.Ledger

open Chain Foundations.SpendIndex Foundations.Outcome

def InPool (P : ChainParams) (pool : CTxMemPool) (tx : CTransaction) : Prop :=
  pool.mapTx.lookup (P.hashTx tx) = some tx

instance (P : ChainParams) (pool : CTxMemPool) (tx : CTransaction) : Decidable (InPool P pool tx) :=
  inferInstanceAs (Decidable (_ = _))

/-- One of the inputs of `child` spends an output of `tx`. -/
def SpendsOutputOf (P : ChainParams) (tx child : CTransaction) : Prop :=
  ∃ i < tx.vout.length, (⟨P.hashTx tx, i⟩ : COutPoint) ∈ child.vin.map CTxIn.prevout

def Child (P : ChainParams) (pool : CTxMemPool) (tx child : CTransaction) : Prop :=
  InPool P pool child ∧ SpendsOutputOf P tx child

/-- `tx'` is `tx` or spends, through transactions of the pool, an output of it. -/
def Descends (P : ChainParams) (pool : CTxMemPool) : CTransaction → CTransaction → Prop :=
  Relation.ReflTransGen (Child P pool)

/-- Different transactions have different hashes.  An input holds the hash of what it spends, so a
chain of spends does not come back to its start either. -/
structure CollisionFree (P : ChainParams) (txs : Set CTransaction) : Prop where
  injOn : Set.InjOn P.hashTx txs
  acyclic : ∀ tx ∈ txs,
    ¬ Relation.TransGen (fun tx child ↦ child ∈ txs ∧ SpendsOutputOf P tx child) tx tx

/-- `mapNextTx` is the map from the spent outpoints to the inputs that spend them. -/
structure PoolExact (P : ChainParams) (txs : Set CTransaction) (pool : CTxMemPool) : Prop
    extends PoolOk P txs pool where
  next_iff : ∀ prevout tx n, pool.mapNextTx prevout = some ⟨tx, n⟩ ↔
    InPool P pool tx ∧ tx.vin[n]?.map CTxIn.prevout = some prevout

variable {P : ChainParams} {txs : Set CTransaction} {pool pool' : CTxMemPool} {tx tx' : CTransaction}

theorem PoolOk.mem_of_inPool (h : PoolOk P txs pool) (htx : InPool P pool tx) : tx ∈ txs :=
  (h.hash _ tx htx).2

theorem Shrinks.inPool (h : Shrinks pool pool') (htx : InPool P pool' tx) : InPool P pool tx :=
  h _ tx htx

theorem poolExact_empty (P : ChainParams) (txs : Set CTransaction) : PoolExact P txs .empty where
  toPoolOk := poolOk_empty P txs
  next_iff prevout tx n := by simp [CTxMemPool.empty, InPool]

variable {prevout : COutPoint}

theorem mem_prevouts_of_getElem {n : ℕ} (h : tx.vin[n]?.map CTxIn.prevout = some prevout) :
    prevout ∈ tx.vin.map CTxIn.prevout := by
  rw [← List.getElem?_map] at h
  exact List.mem_of_getElem? h

theorem inPool_erase (h : PoolOk P txs pool) (hinj : Set.InjOn P.hashTx txs) (htx : tx ∈ txs) :
    InPool P (pool.erase (P.hashTx tx) tx) tx' ↔ InPool P pool tx' ∧ tx' ≠ tx := by
  constructor
  · intro herased
    have hold : InPool P pool tx' := (shrinks_erase pool _ tx).inPool herased
    refine ⟨hold, ?_⟩
    rintro rfl
    simp [InPool, CTxMemPool.erase] at herased
  · rintro ⟨hold, hne⟩
    have hhash : P.hashTx tx' ≠ P.hashTx tx := fun heq ↦ hne (hinj (h.mem_of_inPool hold) htx heq)
    simpa [InPool, CTxMemPool.erase, hhash] using hold

/-- A transaction of an earlier pool can be erased from what is left of that pool. -/
theorem PoolExact.erase (h : PoolExact P txs pool) (h' : PoolExact P txs pool')
    (hinj : Set.InjOn P.hashTx txs) (hshrinks : Shrinks pool pool') (htx : InPool P pool tx) :
    PoolExact P txs (pool'.erase (P.hashTx tx) tx) where
  toPoolOk := h.toPoolOk.erase h'.toPoolOk hshrinks htx
  next_iff prevout tx' n := by
    rw [mapNextTx_erase, inPool_erase h'.toPoolOk hinj (h.mem_of_inPool htx)]
    constructor
    · intro hnext
      split at hnext
      · cases hnext
      · next hnot =>
        obtain ⟨hin, hprevout⟩ := (h'.next_iff prevout tx' n).mp hnext
        refine ⟨⟨hin, ?_⟩, hprevout⟩
        rintro rfl
        exact hnot (mem_prevouts_of_getElem hprevout)
    · rintro ⟨⟨hin, hne⟩, hprevout⟩
      have hnot : prevout ∉ tx.vin.map CTxIn.prevout := by
        intro hmem
        apply hne
        exact h.spender_unique (hshrinks.inPool hin) htx (mem_prevouts_of_getElem hprevout) hmem
      rw [if_neg hnot]
      exact (h'.next_iff prevout tx' n).mpr ⟨hin, hprevout⟩

theorem Child.shrinks (hshrinks : Shrinks pool pool') (h : Child P pool' tx tx') :
    Child P pool tx tx' :=
  ⟨hshrinks.inPool h.1, h.2⟩

theorem Descends.shrinks (hshrinks : Shrinks pool pool') (h : Descends P pool' tx tx') :
    Descends P pool tx tx' :=
  Relation.ReflTransGen.mono (fun _ _ hchild ↦ Child.shrinks hshrinks hchild) _ _ h

theorem Descends.inPool (h : Descends P pool tx tx') (htx : InPool P pool tx) : InPool P pool tx' := by
  cases h with
  | refl => exact htx
  | tail _ hchild => exact hchild.1

/-- A child does not lead back to its parent. -/
theorem not_descends_parent (hfree : CollisionFree P txs) (h : PoolOk P txs pool)
    (htx : InPool P pool tx) {child : CTransaction} (hchild : Child P pool tx child) :
    ¬ Descends P pool child tx := by
  intro hback
  have hmono : ∀ a b, Child P pool a b → b ∈ txs ∧ SpendsOutputOf P a b :=
    fun a b hab ↦ ⟨h.mem_of_inPool hab.1, hab.2⟩
  apply hfree.acyclic tx (h.mem_of_inPool htx)
  exact Relation.TransGen.head' (hmono tx child hchild) (Relation.ReflTransGen.mono hmono _ _ hback)

/-- Every transaction that descends from another one is that one or descends from a child of it. -/
theorem descends_iff : Descends P pool tx tx' ↔
    tx' = tx ∨ ∃ child, Child P pool tx child ∧ Descends P pool child tx' := by
  constructor
  · intro h
    rcases Relation.ReflTransGen.cases_head h with rfl | ⟨child, hchild, hrest⟩
    · exact .inl rfl
    · exact .inr ⟨child, hchild, hrest⟩
  · rintro (rfl | ⟨child, hchild, hrest⟩)
    · exact .refl
    · exact .head hchild hrest

/-- The pool has finitely many transactions, no more than its map has entries. -/
theorem inPool_subset (P : ChainParams) (pool : CTxMemPool) :
    {tx | InPool P pool tx} ⊆ {tx | tx ∈ pool.mapTx.entries.map Sigma.snd} := by
  intro tx htx
  have hentry := AList.mem_lookup_iff.mp htx
  exact List.mem_map.mpr ⟨_, hentry, rfl⟩

theorem finite_inPool (P : ChainParams) (pool : CTxMemPool) : {tx | InPool P pool tx}.Finite :=
  (List.finite_toSet _).subset (inPool_subset P pool)

theorem ncard_inPool_le (P : ChainParams) (pool : CTxMemPool) :
    {tx | InPool P pool tx}.ncard ≤ pool.mapTx.entries.length := by
  classical
  have hlist : {tx | tx ∈ pool.mapTx.entries.map Sigma.snd} =
      ((pool.mapTx.entries.map Sigma.snd).toFinset : Set CTransaction) := by
    ext tx
    simp
  calc {tx | InPool P pool tx}.ncard
      ≤ {tx | tx ∈ pool.mapTx.entries.map Sigma.snd}.ncard :=
        Set.ncard_le_ncard (inPool_subset P pool) (List.finite_toSet _)
    _ = (pool.mapTx.entries.map Sigma.snd).toFinset.card := by rw [hlist, Set.ncard_coe_finset]
    _ ≤ (pool.mapTx.entries.map Sigma.snd).length := List.toFinset_card_le _
    _ = pool.mapTx.entries.length := List.length_map _

/-- Removal of a transaction and of what descends from it leaves the rest of the pool. -/
structure RemovesDescendants (P : ChainParams) (txs : Set CTransaction) (pool pool' : CTxMemPool)
    (tx : CTransaction) : Prop where
  exact : PoolExact P txs pool'
  shrinks : Shrinks pool pool'
  inPool_iff : ∀ tx', InPool P pool' tx' ↔ InPool P pool tx' ∧ ¬ Descends P pool tx tx'

/-- The removals for some outputs of `tx`: what descends from their spenders is gone. -/
structure RemovesSpenders (P : ChainParams) (txs : Set CTransaction) (pool pool' : CTxMemPool)
    (tx : CTransaction) (outputs : List ℕ) : Prop where
  exact : PoolExact P txs pool'
  shrinks : Shrinks pool pool'
  inPool_iff : ∀ tx', InPool P pool' tx' ↔ InPool P pool tx' ∧
    ¬ ∃ child, InPool P pool child ∧ Descends P pool child tx' ∧
      ∃ i ∈ outputs, (⟨P.hashTx tx, i⟩ : COutPoint) ∈ child.vin.map CTxIn.prevout

/-- What a partial removal has left was reached through transactions that it has left. -/
theorem RemovesSpenders.descends_iff {outputs : List ℕ} {child : CTransaction}
    (h : RemovesSpenders P txs pool pool' tx outputs) (hchild : InPool P pool child)
    (htx' : InPool P pool' tx') : Descends P pool' child tx' ↔ Descends P pool child tx' := by
  refine ⟨Descends.shrinks h.shrinks, fun hdescends ↦ ?_⟩
  induction hdescends with
  | refl => exact .refl
  | @tail middle last hmiddle hlast ih =>
    have hin : InPool P pool' middle := by
      refine (h.inPool_iff middle).mpr ⟨Descends.inPool hmiddle hchild, ?_⟩
      rintro ⟨first, hfirst, hdown, hspends⟩
      exact ((h.inPool_iff last).mp htx').2 ⟨first, hfirst, hdown.tail hlast, hspends⟩
    exact (ih hin).tail ⟨htx', hlast.2⟩

/-- The loop over one more output. -/
theorem RemovesSpenders.step {outputs : List ℕ} {i : ℕ} {pool'' : CTxMemPool}
    (hok : PoolExact P txs pool) (h : RemovesSpenders P txs pool pool' tx outputs)
    (hnone : pool'.mapNextTx ⟨P.hashTx tx, i⟩ = none → pool'' = pool')
    (hsome : ∀ inpoint, pool'.mapNextTx ⟨P.hashTx tx, i⟩ = some inpoint →
      RemovesDescendants P txs pool' pool'' inpoint.ptx) :
    RemovesSpenders P txs pool pool'' tx (outputs ++ [i]) := by
  cases hnext : pool'.mapNextTx ⟨P.hashTx tx, i⟩ with
  | none =>
    obtain rfl := hnone hnext
    refine ⟨h.exact, h.shrinks, fun tx' ↦ ?_⟩
    rw [h.inPool_iff tx']
    refine and_congr_right fun _ ↦ not_congr ⟨?_, ?_⟩
    · rintro ⟨child, hchild, hdown, j, hj, hspends⟩
      exact ⟨child, hchild, hdown, j, List.mem_append_left _ hj, hspends⟩
    · rintro ⟨child, hchild, hdown, j, hj, hspends⟩
      rcases List.mem_append.mp hj with hj | hj
      · exact ⟨child, hchild, hdown, j, hj, hspends⟩
      -- the spender of this output is gone already, as a descendant of an earlier one
      obtain rfl := List.mem_singleton.mp hj
      have hgone : ¬ InPool P pool'' child := by
        intro hin
        obtain ⟨n, hn⟩ := h.exact.next _ child hin _ hspends
        rw [hnext] at hn
        cases hn
      rw [h.inPool_iff] at hgone
      obtain ⟨first, hfirst, hfirstDown, hrest⟩ := not_not.mp fun hne ↦ hgone ⟨hchild, hne⟩
      exact ⟨first, hfirst, hfirstDown.trans hdown, hrest⟩
  | some inpoint =>
    have hstep := hsome inpoint hnext
    obtain ⟨hin, hprevout⟩ := (h.exact.next_iff _ inpoint.ptx inpoint.n).mp hnext
    have hspends := mem_prevouts_of_getElem hprevout
    refine ⟨hstep.exact, h.shrinks.trans hstep.shrinks, fun tx' ↦ ?_⟩
    rw [hstep.inPool_iff tx']
    constructor
    · rintro ⟨hin', hnot⟩
      refine ⟨h.shrinks.inPool hin', ?_⟩
      rintro ⟨child, hchild, hdown, j, hj, hclaims⟩
      rcases List.mem_append.mp hj with hj | hj
      · exact ((h.inPool_iff tx').mp hin').2 ⟨child, hchild, hdown, j, hj, hclaims⟩
      · obtain rfl := List.mem_singleton.mp hj
        obtain rfl : child = inpoint.ptx :=
          hok.spender_unique hchild (h.shrinks.inPool hin) hclaims hspends
        exact hnot ((h.descends_iff hchild hin').mpr hdown)
    · rintro ⟨hin', hnot⟩
      have hleft : InPool P pool' tx' := by
        refine (h.inPool_iff tx').mpr ⟨hin', ?_⟩
        rintro ⟨child, hchild, hdown, j, hj, hclaims⟩
        exact hnot ⟨child, hchild, hdown, j, List.mem_append_left _ hj, hclaims⟩
      refine ⟨hleft, fun hdown ↦ hnot ?_⟩
      exact ⟨inpoint.ptx, h.shrinks.inPool hin, Descends.shrinks h.shrinks hdown, i,
        List.mem_append_right _ (List.mem_singleton_self i), hspends⟩

/-- The spenders of all outputs are the children. -/
theorem RemovesSpenders.erase (hfree : CollisionFree P txs) (hok : PoolExact P txs pool)
    (htx : InPool P pool tx)
    (h : RemovesSpenders P txs pool pool' tx (List.range tx.vout.length)) :
    RemovesDescendants P txs pool (pool'.erase (P.hashTx tx) tx) tx where
  exact := hok.erase h.exact hfree.injOn h.shrinks htx
  shrinks := h.shrinks.trans (shrinks_erase pool' _ tx)
  inPool_iff tx' := by
    rw [inPool_erase h.exact.toPoolOk hfree.injOn (hok.mem_of_inPool htx), h.inPool_iff, Electra.Ledger.descends_iff,
      not_or, and_assoc]
    refine and_congr_right fun _ ↦ ?_
    rw [and_comm]
    refine and_congr_right fun _ ↦ not_congr ⟨?_, ?_⟩
    · rintro ⟨child, hchild, hdown, i, hi, hspends⟩
      exact ⟨child, ⟨hchild, i, List.mem_range.mp hi, hspends⟩, hdown⟩
    · rintro ⟨child, ⟨hchild, i, hi, hspends⟩, hdown⟩
      exact ⟨child, hchild, hdown, i, List.mem_range.mpr hi, hspends⟩

/-- A child has fewer descendants than its parent, in what is left of the pool. -/
theorem ncard_descends_lt (hfree : CollisionFree P txs) (h : PoolOk P txs pool)
    (hshrinks : Shrinks pool pool') (htx : InPool P pool tx) {child : CTransaction}
    (hchild : Child P pool tx child) :
    {tx' | Descends P pool' child tx'}.ncard < {tx' | Descends P pool tx tx'}.ncard := by
  have hfinite : {tx' | Descends P pool tx tx'}.Finite :=
    (finite_inPool P pool).subset fun tx' hdown ↦ Descends.inPool hdown htx
  apply Set.ncard_lt_ncard _ hfinite
  constructor
  · intro tx' hdown
    exact .head hchild (Descends.shrinks hshrinks hdown)
  · intro hall
    have hself : tx ∈ {tx' | Descends P pool tx tx'} := Relation.ReflTransGen.refl
    exact not_descends_parent hfree h htx hchild (Descends.shrinks hshrinks (hall hself))

/-- Enough fuel for the descendants is enough for the removal. -/
theorem removeFuel_spec (hfree : CollisionFree P txs) (nDepth : ℕ) (h : PoolExact P txs pool)
    (htx : InPool P pool tx) (hfuel : {tx' | Descends P pool tx tx'}.ncard ≤ nDepth) :
    RemovesDescendants P txs pool (CTxMemPool.removeFuel P nDepth pool tx true) tx := by
  induction nDepth generalizing pool tx with
  | zero =>
    have hfinite : {tx' | Descends P pool tx tx'}.Finite :=
      (finite_inPool P pool).subset fun tx' hdown ↦ Descends.inPool hdown htx
    have hempty := (Set.ncard_eq_zero hfinite).mp (Nat.le_zero.mp hfuel)
    have hself : tx ∈ {tx' | Descends P pool tx tx'} := Relation.ReflTransGen.refl
    rw [hempty] at hself
    cases hself
  | succ nDepth ih =>
    have hsome : (pool.mapTx.lookup (P.hashTx tx)).isSome := by
      rw [show pool.mapTx.lookup (P.hashTx tx) = some tx from htx]
      rfl
    have hloop : ∀ outputs : List ℕ, (∀ i ∈ outputs, i < tx.vout.length) →
        RemovesSpenders P txs pool (outputs.foldl (removeSpender P nDepth tx) pool) tx outputs := by
      intro outputs
      induction outputs using List.reverseRecOn with
      | nil => exact fun _ ↦ ⟨h, .refl pool, by simp⟩
      | append_singleton outputs i ihOutputs =>
        intro hrange
        have hprev := ihOutputs fun j hj ↦ hrange j (List.mem_append_left _ hj)
        rw [List.foldl_append, List.foldl_cons, List.foldl_nil]
        apply hprev.step h
        · intro hnone
          rw [removeSpender_none hnone]
        · intro inpoint hnext
          rw [removeSpender_some hnext]
          obtain ⟨hin, hprevout⟩ := (hprev.exact.next_iff _ inpoint.ptx inpoint.n).mp hnext
          have hchild : Child P pool tx inpoint.ptx :=
            ⟨hprev.shrinks.inPool hin, i, hrange i (by simp), mem_prevouts_of_getElem hprevout⟩
          have hfewer := ncard_descends_lt hfree h.toPoolOk hprev.shrinks htx hchild
          exact ih hprev.exact hin (by omega)
    rw [CTxMemPool.removeFuel, if_pos hsome]
    exact (hloop (List.range tx.vout.length) fun i hi ↦ List.mem_range.mp hi).erase hfree h htx

/-- A recursive removal takes out the transaction and what descends from it. -/
theorem PoolExact.remove_recursive (hfree : CollisionFree P txs) (h : PoolExact P txs pool)
    (htx : InPool P pool tx) : RemovesDescendants P txs pool (pool.remove P tx true) tx := by
  apply removeFuel_spec hfree _ h htx
  calc {tx' | Descends P pool tx tx'}.ncard
      ≤ {tx' | InPool P pool tx'}.ncard :=
        Set.ncard_le_ncard (fun tx' hdown ↦ Descends.inPool hdown htx) (finite_inPool P pool)
    _ ≤ pool.mapTx.entries.length := ncard_inPool_le P pool
    _ ≤ pool.mapTx.entries.length + 1 := Nat.le_succ _

theorem remove_of_inPool (htx : InPool P pool tx) :
    pool.remove P tx false = pool.erase (P.hashTx tx) tx := by
  rw [CTxMemPool.remove, CTxMemPool.removeFuel]
  simp [show pool.mapTx.lookup (P.hashTx tx) = some tx from htx]

/-- Nothing happens to a pool that does not have the transaction. -/
theorem remove_of_lookup_eq_none (hnone : pool.mapTx.lookup (P.hashTx tx) = none) (fRecursive : Bool) :
    pool.remove P tx fRecursive = pool := by
  rw [CTxMemPool.remove, CTxMemPool.removeFuel]
  simp [hnone]

theorem PoolOk.inPool_or_none (h : PoolOk P txs pool) (hinj : Set.InjOn P.hashTx txs)
    (htx : tx ∈ txs) : InPool P pool tx ∨ pool.mapTx.lookup (P.hashTx tx) = none := by
  cases hlookup : pool.mapTx.lookup (P.hashTx tx) with
  | none => exact .inr rfl
  | some tx' =>
    left
    obtain ⟨hhash, hmem⟩ := h.hash _ tx' hlookup
    obtain rfl := hinj hmem htx hhash
    exact hlookup

theorem PoolExact.remove (hfree : CollisionFree P txs) (h : PoolExact P txs pool) (htx : tx ∈ txs)
    (fRecursive : Bool) : PoolExact P txs (pool.remove P tx fRecursive) := by
  rcases h.inPool_or_none hfree.injOn htx with hin | hnone
  · cases fRecursive with
    | true => exact (h.remove_recursive hfree hin).exact
    | false =>
      rw [remove_of_inPool hin]
      exact h.erase h hfree.injOn (.refl pool) hin
  · rwa [remove_of_lookup_eq_none hnone]

theorem PoolExact.removeConflicts (hfree : CollisionFree P txs) (h : PoolExact P txs pool) :
    PoolExact P txs (pool.removeConflicts P tx) := by
  unfold CTxMemPool.removeConflicts
  generalize tx.vin.map CTxIn.prevout = prevouts
  induction prevouts generalizing pool with
  | nil => exact h
  | cons prevout prevouts ih =>
    apply ih
    unfold CTxMemPool.removeConflict
    cases hnext : pool.mapNextTx prevout with
    | none => exact h
    | some inpoint =>
      simp only
      split
      · exact h.remove hfree (h.spender prevout inpoint hnext) true
      · exact h

/-- With different outpoints the claims of a transaction are its inputs at their positions. -/
theorem foldl_claim_zipIdx (tx : CTransaction) (mapNextTx : COutPoint → Option CInPoint)
    (hnodup : (tx.vin.map CTxIn.prevout).Nodup) {n : ℕ}
    (hprevout : tx.vin[n]?.map CTxIn.prevout = some prevout) :
    tx.vin.zipIdx.foldl (claim tx) mapNextTx prevout = some ⟨tx, n⟩ := by
  suffices hgeneral : ∀ (vin : List CTxIn) (start : ℕ) (mapNextTx : COutPoint → Option CInPoint),
      (vin.map CTxIn.prevout).Nodup → ∀ n, vin[n]?.map CTxIn.prevout = some prevout →
      (vin.zipIdx start).foldl (claim tx) mapNextTx prevout = some ⟨tx, start + n⟩ by
    simpa using hgeneral tx.vin 0 mapNextTx hnodup n hprevout
  intro vin
  induction vin with
  | nil => simp
  | cons txin vin ih =>
    intro start mapNextTx hnodup n hprevout
    rw [List.map_cons, List.nodup_cons] at hnodup
    rw [List.zipIdx_cons, List.foldl_cons]
    cases n with
    | zero =>
      obtain rfl : txin.prevout = prevout := by simpa using hprevout
      rcases foldl_claim tx (vin.zipIdx (start + 1)) (claim tx mapNextTx (txin, start)) txin.prevout with
        ⟨hmem, -⟩ | ⟨-, hsame⟩
      · obtain ⟨input, hinput, heq⟩ := List.mem_map.mp hmem
        have hvin : input.1 ∈ vin := List.fst_mem_of_mem_zipIdx hinput
        exact absurd (List.mem_map.mpr ⟨input.1, hvin, heq⟩) hnodup.1
      · rw [hsame]
        simp [claim]
    | succ n =>
      rw [ih (start + 1) _ hnodup.2 n (by simpa using hprevout)]
      congr 2
      omega

/-- Outpoints that a transaction does not spend keep their spenders. -/
theorem mapNextTx_addUnchecked_of_notMem (pool : CTxMemPool) (hash : Uint256)
    (hnot : prevout ∉ tx.vin.map CTxIn.prevout) :
    (pool.addUnchecked hash tx).mapNextTx prevout = pool.mapNextTx prevout := by
  rcases foldl_claim tx tx.vin.zipIdx pool.mapNextTx prevout with ⟨hmem, -⟩ | ⟨-, hsame⟩
  · obtain ⟨input, hinput, rfl⟩ := List.mem_map.mp hmem
    exact absurd (List.mem_map_of_mem (List.fst_mem_of_mem_zipIdx hinput)) hnot
  · exact hsame

theorem inPool_addUnchecked (hnew : pool.mapTx.lookup (P.hashTx tx) = none) :
    InPool P (pool.addUnchecked (P.hashTx tx) tx) tx' ↔ tx' = tx ∨ InPool P pool tx' := by
  constructor
  · intro hadded
    rcases lookup_addUnchecked hadded with ⟨-, rfl⟩ | hold
    · exact .inl rfl
    · exact .inr hold
  · rintro (rfl | hold)
    · simp [InPool, CTxMemPool.addUnchecked]
    · have hhash : P.hashTx tx' ≠ P.hashTx tx := by
        intro heq
        rw [InPool, heq, hnew] at hold
        cases hold
      simpa [InPool, CTxMemPool.addUnchecked, hhash] using hold

theorem PoolExact.addUnchecked (h : PoolExact P txs pool)
    (hok : PoolOk P txs (pool.addUnchecked (P.hashTx tx) tx))
    (hnew : pool.mapTx.lookup (P.hashTx tx) = none) (hnodup : (tx.vin.map CTxIn.prevout).Nodup)
    (hfree : ∀ prevout ∈ tx.vin.map CTxIn.prevout, pool.mapNextTx prevout = none) :
    PoolExact P txs (pool.addUnchecked (P.hashTx tx) tx) where
  toPoolOk := hok
  next_iff prevout tx' n := by
    rw [inPool_addUnchecked hnew]
    by_cases hmem : prevout ∈ tx.vin.map CTxIn.prevout
    · obtain ⟨k, hk⟩ := List.mem_iff_getElem?.mp hmem
      rw [List.getElem?_map] at hk
      have hclaim : (pool.addUnchecked (P.hashTx tx) tx).mapNextTx prevout = some ⟨tx, k⟩ :=
        foldl_claim_zipIdx tx pool.mapNextTx hnodup hk
      rw [hclaim]
      constructor
      · intro heq
        obtain ⟨rfl, rfl⟩ : tx = tx' ∧ k = n := by simpa using heq
        exact ⟨.inl rfl, hk⟩
      · rintro ⟨rfl | hold, hprevout⟩
        · have hmap : (tx'.vin.map CTxIn.prevout)[k]? = (tx'.vin.map CTxIn.prevout)[n]? := by
            rw [List.getElem?_map, List.getElem?_map, hk, hprevout]
          have hbound : k < (tx'.vin.map CTxIn.prevout).length := by
            rw [List.length_map]
            by_contra hout
            rw [List.getElem?_eq_none (by omega)] at hk
            cases hk
          rw [(List.getElem?_inj hbound hnodup).mp hmap]
        · obtain ⟨m, hm⟩ := h.next _ tx' hold prevout (mem_prevouts_of_getElem hprevout)
          rw [hfree prevout hmem] at hm
          cases hm
    · rw [mapNextTx_addUnchecked_of_notMem pool _ hmem, h.next_iff prevout tx' n]
      constructor
      · rintro ⟨hold, hprevout⟩
        exact ⟨.inr hold, hprevout⟩
      · rintro ⟨rfl | hold, hprevout⟩
        · exact absurd (mem_prevouts_of_getElem hprevout) hmem
        · exact ⟨hold, hprevout⟩

theorem PoolExact.accept {files : BlockFiles} {txdb : CTxDB} {pindexBest : PIndex} {fCheckInputs : Bool}
    (h : PoolExact P txs pool) (htx : tx ∈ txs)
    (haccept : pool.accept P files txdb pindexBest tx fCheckInputs = .ok pool') :
    PoolExact P txs pool' := by
  obtain ⟨hok, rfl, -⟩ := h.toPoolOk.accept htx haccept
  simp only [CTxMemPool.accept, bind_eq_ok, rejectIf_eq_ok, mapError_eq_ok, checkWhen_eq_ok,
    pure_eq_ok] at haccept
  obtain ⟨u, hchecked, -, -, -, -, -, -, -, -, -, hnew, -, -, -, hconflict, -⟩ := haccept
  apply h.addUnchecked hok (by simpa using hnew) (CTransaction.checked_of_checkTransaction hchecked).prevouts_nodup
  simpa using hconflict

inductive PoolCall
  | accept (files : BlockFiles) (txdb : CTxDB) (pindexBest : PIndex) (tx : CTransaction)
      (fCheckInputs : Bool)
  | remove (tx : CTransaction) (fRecursive : Bool)
  | removeConflicts (tx : CTransaction)
  | clear

/-- The transaction that a call is given. -/
def PoolCall.tx? : PoolCall → Option CTransaction
  | accept _ _ _ tx _ => some tx
  | remove tx _ => some tx
  | removeConflicts tx => some tx
  | clear => none

def handlePoolCall (P : ChainParams) (pool : CTxMemPool) : PoolCall → CTxMemPool
  | .accept files txdb pindexBest tx fCheckInputs =>
      match pool.accept P files txdb pindexBest tx fCheckInputs with
      | .ok pool' => pool'
      | .error _ => pool
  | .remove tx fRecursive => pool.remove P tx fRecursive
  | .removeConflicts tx => pool.removeConflicts P tx
  | .clear => pool.clear

def runPool (P : ChainParams) (calls : List PoolCall) : CTxMemPool :=
  calls.foldl (handlePoolCall P) .empty

theorem PoolExact.handlePoolCall (hfree : CollisionFree P txs) (h : PoolExact P txs pool)
    (call : PoolCall) (hcall : ∀ tx ∈ call.tx?, tx ∈ txs) :
    PoolExact P txs (handlePoolCall P pool call) := by
  cases call with
  | accept files txdb pindexBest tx fCheckInputs =>
    simp only [Ledger.handlePoolCall]
    cases haccept : pool.accept P files txdb pindexBest tx fCheckInputs with
    | ok pool' => exact h.accept (hcall tx rfl) haccept
    | error reason => exact h
  | remove tx fRecursive => exact h.remove hfree (hcall tx rfl) fRecursive
  | removeConflicts tx => exact h.removeConflicts hfree
  | clear => exact poolExact_empty P txs

theorem poolExact_runPool (hfree : CollisionFree P txs) (calls : List PoolCall)
    (hcalls : ∀ call ∈ calls, ∀ tx ∈ call.tx?, tx ∈ txs) : PoolExact P txs (runPool P calls) := by
  induction calls using List.reverseRecOn with
  | nil => exact poolExact_empty P txs
  | append_singleton calls call ih =>
    have hprev := ih fun call' hcall' ↦ hcalls call' (List.mem_append_left _ hcall')
    rw [runPool, List.foldl_append, List.foldl_cons, List.foldl_nil]
    exact hprev.handlePoolCall hfree call (hcalls call (by simp))

/-- The index of the pool is exact, and removals take out what they should. -/
structure PoolIndexed (P : ChainParams) (pool : CTxMemPool) : Prop where
  hash : ∀ hash tx, pool.mapTx.lookup hash = some tx → P.hashTx tx = hash
  next_iff : ∀ prevout tx n, pool.mapNextTx prevout = some ⟨tx, n⟩ ↔
    InPool P pool tx ∧ tx.vin[n]?.map CTxIn.prevout = some prevout
  spender_unique : ∀ (tx tx' : CTransaction) (n n' : ℕ) prevout, InPool P pool tx → InPool P pool tx' →
    tx.vin[n]?.map CTxIn.prevout = some prevout → tx'.vin[n']?.map CTxIn.prevout = some prevout →
    tx = tx' ∧ n = n'
  live : ∀ prevout inpoint, pool.mapNextTx prevout = some inpoint → InPool P pool inpoint.ptx
  remove_recursive : ∀ tx, InPool P pool tx → ∀ tx', InPool P (pool.remove P tx true) tx' ↔
    InPool P pool tx' ∧ ¬ Descends P pool tx tx'
  remove_single : ∀ tx, InPool P pool tx → ∀ tx', InPool P (pool.remove P tx false) tx' ↔
    InPool P pool tx' ∧ tx' ≠ tx

theorem PoolExact.indexed (hfree : CollisionFree P txs) (h : PoolExact P txs pool) :
    PoolIndexed P pool where
  hash hash tx hlookup := (h.hash hash tx hlookup).1
  next_iff := h.next_iff
  spender_unique tx tx' n n' prevout htx htx' hprevout hprevout' := by
    have hnext := (h.next_iff prevout tx n).mpr ⟨htx, hprevout⟩
    rw [(h.next_iff prevout tx' n').mpr ⟨htx', hprevout'⟩] at hnext
    simpa [eq_comm] using hnext
  live prevout inpoint hnext := ((h.next_iff prevout inpoint.ptx inpoint.n).mp hnext).1
  remove_recursive tx htx := (h.remove_recursive hfree htx).inPool_iff
  remove_single tx htx tx' := by
    rw [remove_of_inPool htx, inPool_erase h.toPoolOk hfree.injOn (h.mem_of_inPool htx)]

/-- The transactions that some calls are about. -/
def txsOf (calls : List PoolCall) : Set CTransaction :=
  {tx | ∃ call ∈ calls, tx ∈ call.tx?}

/-- After any calls the pool and its index agree. -/
theorem poolIndexed_runPool (P : ChainParams) (calls : List PoolCall)
    (hfree : CollisionFree P (txsOf calls)) : PoolIndexed P (runPool P calls) :=
  (poolExact_runPool hfree calls fun call hcall _ htx ↦ ⟨call, hcall, htx⟩).indexed hfree

/-- Hashes that differ and a rank that spends raise leave no collisions and no cycles. -/
theorem CollisionFree.of_rank (rank : CTransaction → ℕ) (hinj : Set.InjOn P.hashTx txs)
    (hrank : ∀ tx ∈ txs, ∀ child ∈ txs, SpendsOutputOf P tx child → rank tx < rank child) :
    CollisionFree P txs where
  injOn := hinj
  acyclic tx htx hcycle := by
    have hrises : ∀ child, Relation.TransGen
        (fun tx child ↦ child ∈ txs ∧ SpendsOutputOf P tx child) tx child →
        child ∈ txs ∧ rank tx < rank child := by
      intro child hpath
      induction hpath with
      | single hspends => exact ⟨hspends.1, hrank tx htx _ hspends.1 hspends.2⟩
      | tail _ hspends ih =>
        exact ⟨hspends.1, ih.2.trans (hrank _ ih.1 _ hspends.1 hspends.2)⟩
    exact absurd (hrises tx hcycle).2 (lt_irrefl _)

namespace DescendantsExample

open Builders

def files : BlockFiles := ⟨fun _ _ ↦ none, fun _ _ ↦ none, fun _ _ ↦ none⟩

def parent : CTransaction := spending 1 0 [⟨7, 0⟩] [output COIN, output COIN]

/-- Spends both outputs of its parent. -/
def child : CTransaction := spending 2 0 [⟨1, 0⟩, ⟨1, 1⟩] [output COIN]

def calls : List PoolCall :=
  [.accept files ⟨fun _ ↦ none, none⟩ [] parent false,
    .accept files ⟨fun _ ↦ none, none⟩ [] child false, .remove parent true]

theorem mem_txsOf {tx : CTransaction} (h : tx ∈ txsOf calls) : tx = parent ∨ tx = child := by
  obtain ⟨call, hcall, htx⟩ := h
  simp only [calls, List.mem_cons, List.not_mem_nil, or_false] at hcall
  rcases hcall with rfl | rfl | rfl
  · exact .inl (Option.some.inj htx).symm
  · exact .inr (Option.some.inj htx).symm
  · exact .inl (Option.some.inj htx).symm

theorem collisionFree : CollisionFree (network true) (txsOf calls) := by
  apply CollisionFree.of_rank fun tx ↦ tx.nVersion.toNat
  · intro tx htx tx' htx' heq
    rcases mem_txsOf htx with rfl | rfl <;> rcases mem_txsOf htx' with rfl | rfl
    · rfl
    · exact absurd heq (by decide)
    · exact absurd heq (by decide)
    · rfl
  · rintro tx htx tx' htx' ⟨i, hi, hspends⟩
    rcases mem_txsOf htx with rfl | rfl <;> rcases mem_txsOf htx' with rfl | rfl
    · exact absurd hspends (by simp [parent, spending, network])
    · decide
    · exact absurd hspends (by simp [parent, child, spending, network])
    · exact absurd hspends (by simp [child, spending, network])

end DescendantsExample

/-- Removing a transaction takes out its child, which spends two outputs of it. -/
theorem poolIndexed_example :
    PoolIndexed (Builders.network true) (runPool (Builders.network true) DescendantsExample.calls) ∧
      (runPool (Builders.network true) DescendantsExample.calls).mapTx.entries = [] :=
  ⟨poolIndexed_runPool _ _ DescendantsExample.collisionFree, by decide⟩

end Electra.Ledger

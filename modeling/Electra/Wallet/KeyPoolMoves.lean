import Electra.Foundations.LeasePool
import Electra.Wallet.KeyPool

/-!
# The key pool as a lease pool

What the calls on a wallet do to its key pool, as moves of a lease pool (`toPool`): new keys are added
under indices that nobody holds, and a reservation takes one index out of the pool.
-/

namespace Electra.Wallet

open Foundations.LeasePool Relation

variable {H : Type} [DecidableEq H] {newKey : ℕ → CPubKey} {env : KeyPoolEnv} {w w' : KeyWallet}

namespace KeyWallet

/-- The keys that were generated. -/
def generated (newKey : ℕ → CPubKey) (n : ℕ) : Set CPubKey := {k | ∃ m < n, newKey m = k}

theorem generated_succ (n : ℕ) : generated newKey (n + 1) = insert (newKey n) (generated newKey n) := by
  ext k
  constructor
  · rintro ⟨m, hm, rfl⟩
    obtain hlt | rfl := Nat.lt_succ_iff_lt_or_eq.mp hm
    · exact .inr ⟨m, hlt, rfl⟩
    · exact .inl rfl
  · rintro (rfl | ⟨m, hm, rfl⟩)
    · exact ⟨n, n.lt_succ_self, rfl⟩
    · exact ⟨m, hm.trans n.lt_succ_self, rfl⟩

/-- The generator has not made its next key before. -/
theorem notMem_generated {n : ℕ} (hnew : Set.InjOn newKey (Set.Iio (n + 1))) :
    newKey n ∉ generated newKey n := by
  rintro ⟨m, hm, heq⟩
  exact hm.ne (hnew (hm.trans n.lt_succ_self) n.lt_succ_self heq)

/-- `getKeyFromPool` is a holder of its own, `none`. -/
def toPool (newKey : ℕ → CPubKey) (w : KeyWallet) (lease : Option H → Option (ℤ × Option CPubKey))
    (kept : List CPubKey) : Pool ℤ CPubKey (Option H) where
  free := {nIndex | nIndex ∈ w.setKeyPool}
  record nIndex := (w.pool nIndex).map CKeyPool.vchPubKey
  lease := lease
  kept := kept
  used := generated newKey w.nGenerated

variable {lease : Option H → Option (ℤ × Option CPubKey)} {kept : List CPubKey}

/-- Indices are positive, so that none of them is the -1 of a holder without a reservation. -/
def Positive (w : KeyWallet) : Prop := ∀ nIndex ∈ w.setKeyPool, 0 < nIndex

variable {nIndex : ℤ} {h : Option H} {value : Option CPubKey}

theorem Positive.addIndex (hw : w.Positive) (hpos : 0 < nIndex) :
    (w.addIndex nIndex).Positive := by
  intro i hi
  obtain rfl | hi := Finset.mem_insert.mp hi
  · exact hpos
  · exact hw i hi

theorem Positive.nextIndex_pos (hw : w.Positive) : 0 < w.nextIndex := by
  unfold nextIndex
  split
  · next h => have := hw _ (w.setKeyPool.max'_mem h); omega
  · decide

theorem lt_nextIndex (hmem : nIndex ∈ w.setKeyPool) : nIndex < w.nextIndex := by
  rw [nextIndex, dif_pos ⟨nIndex, hmem⟩]
  exact Int.lt_add_one_of_le (w.setKeyPool.le_max' nIndex hmem)

theorem nextIndex_addIndex : (w.addIndex w.nextIndex).nextIndex = w.nextIndex + 1 := by
  have hmem : w.nextIndex ∈ (w.addIndex w.nextIndex).setKeyPool := Finset.mem_insert_self _ _
  have hmax : (w.addIndex w.nextIndex).setKeyPool.max' ⟨_, hmem⟩ = w.nextIndex := by
    apply le_antisymm
    · apply Finset.max'_le
      intro i hi
      obtain rfl | hi := Finset.mem_insert.mp hi
      · exact le_rfl
      · exact (lt_nextIndex hi).le
    · exact Finset.le_max' _ _ hmem
  calc (w.addIndex w.nextIndex).nextIndex
      = (w.addIndex w.nextIndex).setKeyPool.max' ⟨_, hmem⟩ + 1 := dif_pos ⟨_, hmem⟩
    _ = w.nextIndex + 1 := by rw [hmax]

/-- A wallet with one more key, under a new index. -/
def storeKey (newKey : ℕ → CPubKey) (env : KeyPoolEnv) (nIndex : ℤ) (w : KeyWallet) : KeyWallet :=
  ({ w with
    nGenerated := w.nGenerated + 1
    pool := Function.update w.pool nIndex (some ⟨env.nTime, newKey w.nGenerated⟩) } :
      KeyWallet).addIndex nIndex

@[simp]
theorem nGenerated_storeKey :
    (storeKey newKey env nIndex w).nGenerated = w.nGenerated + 1 := rfl

@[simp]
theorem fFileBacked_storeKey :
    (storeKey newKey env nIndex w).fFileBacked = w.fFileBacked := rfl

@[simp]
theorem nextIndex_storeKey : (storeKey newKey env w.nextIndex w).nextIndex = w.nextIndex + 1 :=
  nextIndex_addIndex (w := { w with
    nGenerated := w.nGenerated + 1
    pool := Function.update w.pool w.nextIndex (some ⟨env.nTime, newKey w.nGenerated⟩) })

/-- A new key that is stored under an index nobody holds. -/
theorem move_add (hfree : ¬ (w.toPool newKey lease kept).Leased nIndex)
    (hnew : Set.InjOn newKey (Set.Iio (w.nGenerated + 1))) :
    Move (w.toPool newKey lease kept)
      ((storeKey newKey env nIndex w).toPool newKey lease kept) := by
  have hmove := Move.add hfree (notMem_generated hnew)
  convert hmove using 1
  simp only [toPool, storeKey, addIndex, Pool.add, Pool.use, Pool.mk.injEq, true_and]
  refine ⟨?_, ?_, generated_succ _⟩
  · ext i
    simp
  · funext i
    by_cases hi : i = nIndex
    · rw [hi, Function.update_self, Function.update_self, Option.map_some]
    · rw [Function.update_of_ne hi, Function.update_of_ne hi]

theorem move_use : Move (w.toPool newKey lease kept)
    (({ w with nGenerated := w.nGenerated + 1 } : KeyWallet).toPool newKey lease kept) := by
  have hmove := Move.use (p := w.toPool newKey lease kept) (k := newKey w.nGenerated)
  convert hmove using 1
  simp only [toPool, Pool.use]
  rw [generated_succ]

/-- A wallet comes from another one by moves of its lease pool while the leases stay. -/
structure Advances (newKey : ℕ → CPubKey) (lease : Option H → Option (ℤ × Option CPubKey))
    (kept : List CPubKey) (w w' : KeyWallet) : Prop where
  nGenerated_le : w.nGenerated ≤ w'.nGenerated
  positive : w.Positive → w'.Positive
  moves : Set.InjOn newKey (Set.Iio w'.nGenerated) →
    ReflTransGen Move (w.toPool newKey lease kept) (w'.toPool newKey lease kept)

theorem Advances.refl : Advances newKey lease kept w w := ⟨le_rfl, id, fun _ ↦ .refl⟩

theorem Advances.trans {w'' : KeyWallet} (h : Advances newKey lease kept w w')
    (h' : Advances newKey lease kept w' w'') : Advances newKey lease kept w w'' where
  nGenerated_le := h.nGenerated_le.trans h'.nGenerated_le
  positive hw := h'.positive (h.positive hw)
  moves hnew := (h.moves (hnew.mono (Set.Iio_subset_Iio h'.nGenerated_le))).trans (h'.moves hnew)

theorem Advances.use :
    Advances newKey lease kept w { w with nGenerated := w.nGenerated + 1 } where
  nGenerated_le := w.nGenerated.le_succ
  positive hw := hw
  moves _ := .single move_use

theorem Advances.add (hfree : ∀ h value, lease h ≠ some (nIndex, value))
    (hpos : w.Positive → 0 < nIndex) :
    Advances newKey lease kept w (storeKey newKey env nIndex w) where
  nGenerated_le := w.nGenerated.le_succ
  positive hw := Positive.addIndex hw (hpos hw)
  moves hnew := .single (move_add (fun ⟨h, value, hlease⟩ ↦ hfree h value hlease) hnew)

/-- The loop writes the indices from the next one on, until a key cannot be added or written. -/
theorem advances_topUpLoop (n : ℕ) (hfree : ∀ m < n,
    (∀ l ≤ m, env.addKey (newKey (w.nGenerated + l)) = true ∧
      (w.fFileBacked && env.fWritten (w.nextIndex + l)) = true) →
    ∀ h value, lease h ≠ some (w.nextIndex + (m : ℤ), value)) :
    Advances newKey lease kept w (topUpLoop newKey env n w).2 := by
  induction n generalizing w with
  | zero => exact .refl
  | succ n ih =>
    simp only [topUpLoop, generateNewKey]
    by_cases hadd : env.addKey (newKey w.nGenerated) = true
    · simp only [hadd, if_true, writePool]
      by_cases hwrite : (w.fFileBacked && env.fWritten w.nextIndex) = true
      · simp only [hwrite, if_true]
        have hfirst : ∀ h value, lease h ≠ some (w.nextIndex, value) := by
          have hstep := hfree 0 n.succ_pos fun l hl ↦ by
            obtain rfl := Nat.le_zero.mp hl
            simpa using ⟨hadd, by simpa using hwrite⟩
          simpa using hstep
        have hstore : Advances newKey lease kept w (storeKey newKey env w.nextIndex w) :=
          .add hfirst fun hw ↦ hw.nextIndex_pos
        apply hstore.trans (ih _)
        intro m hm hwritten
        have hnext : ∀ l : ℕ, w.nextIndex + 1 + (l : ℤ) = w.nextIndex + ((l + 1 : ℕ) : ℤ) := by
          intro l
          push_cast
          omega
        simp only [nextIndex_storeKey, nGenerated_storeKey, fFileBacked_storeKey] at hwritten ⊢
        have hlater := hfree (m + 1) (Nat.succ_lt_succ hm) fun l hl ↦ by
          cases l with
          | zero => simpa using ⟨hadd, by simpa using hwrite⟩
          | succ l =>
            obtain ⟨hl₁, hl₂⟩ := hwritten l (Nat.le_of_succ_le_succ hl)
            rw [Nat.add_right_comm] at hl₁
            rw [← hnext]
            exact ⟨hl₁, hl₂⟩
        rw [← hnext] at hlater
        exact hlater
      · simp only [hwrite]
        exact .use
    · simp only [hadd]
      exact .use

theorem advances_topUpKeyPool {nSize : ℕ} (hfree : env.fLocked = false →
    ∀ m < topUpSize env nSize - w.setKeyPool.card,
      (∀ l ≤ m, env.addKey (newKey (w.nGenerated + l)) = true ∧
        (w.fFileBacked && env.fWritten (w.nextIndex + l)) = true) →
      ∀ h value, lease h ≠ some (w.nextIndex + (m : ℤ), value)) :
    Advances newKey lease kept w (w.topUpKeyPool newKey env nSize).2 := by
  unfold topUpKeyPool
  by_cases hlocked : env.fLocked = true
  · rw [if_pos hlocked]
    exact .refl
  · rw [if_neg hlocked]
    have hloop : Advances newKey lease kept w _ :=
      advances_topUpLoop _ (hfree (by simpa using hlocked))
    split
    · next text w' heq =>
      rw [heq] at hloop
      exact hloop
    · next w' heq =>
      rw [heq] at hloop
      exact hloop

theorem advances_writeNewKeys (is : List ℕ) (hfree : ∀ (m : ℕ) (hm : m < is.length),
    (∀ l ≤ m, env.addKey (newKey (w.nGenerated + l)) = true) →
    (w.fFileBacked && env.fWritten ((is[m] : ℤ) + 1)) = true ∧
      ∀ h value, lease h ≠ some ((is[m] : ℤ) + 1, value)) :
    Advances newKey lease kept w (writeNewKeys newKey env is w).2 := by
  induction is generalizing w with
  | nil => exact .refl
  | cons i is ih =>
    simp only [writeNewKeys, generateNewKey]
    by_cases hadd : env.addKey (newKey w.nGenerated) = true
    · simp only [hadd, if_true, writePool]
      obtain ⟨hwrite, hfirst⟩ := hfree 0 (Nat.succ_pos _) fun l hl ↦ by
        obtain rfl := Nat.le_zero.mp hl
        exact hadd
      rw [List.getElem_cons_zero] at hwrite hfirst
      simp only [hwrite, if_true]
      have hstore : Advances newKey lease kept w (storeKey newKey env (i + 1) w) :=
        .add hfirst fun _ ↦ by omega
      apply hstore.trans (ih _)
      intro m hm hadded
      simp only [nGenerated_storeKey, fFileBacked_storeKey] at hadded ⊢
      have hlater := hfree (m + 1) (Nat.succ_lt_succ hm) fun l hl ↦ by
        cases l with
        | zero => exact hadd
        | succ l =>
          have hl₁ := hadded l (Nat.le_of_succ_le_succ hl)
          rw [Nat.add_right_comm] at hl₁
          exact hl₁
      rw [List.getElem_cons_succ] at hlater
      exact hlater
    · simp only [hadd]
      exact .use

/-- `NewKeyPool` forgets the indices in the pool, none of which is held. -/
theorem advances_newKeyPool
    (hapart : ∀ h nIndex value, lease h = some (nIndex, value) → nIndex ∉ w.setKeyPool)
    (hfree : env.fLocked = false → ∀ m < (max env.nKeyPool 0).toNat,
      (∀ l ≤ m, env.addKey (newKey (w.nGenerated + l)) = true) →
      (w.fFileBacked && env.fWritten (m + 1)) = true ∧
        ∀ h value, lease h ≠ some ((m : ℤ) + 1, value)) :
    Advances newKey lease kept w (w.newKeyPool newKey env).2 := by
  have hclear : Advances newKey lease kept w { w.eraseAll env with setKeyPool := ∅ } := by
    refine ⟨le_rfl, fun _ nIndex hmem ↦ absurd hmem (Finset.notMem_empty nIndex), fun _ ↦ ?_⟩
    have hmove : Move (w.toPool newKey lease kept)
        ((w.toPool newKey lease kept).forget {nIndex | nIndex ∈ (∅ : Finset ℤ)}
          fun nIndex ↦ ((w.eraseAll env).pool nIndex).map CKeyPool.vchPubKey) := by
      refine .forget (fun nIndex hmem ↦ absurd hmem (Finset.notMem_empty nIndex)) ?_
      rintro nIndex (hmem | ⟨h, value, hlease⟩)
      · exact absurd hmem (Finset.notMem_empty nIndex)
      · have hnot := hapart h nIndex value hlease
        simp only [eraseAll, toPool, if_neg (not_and_of_not_left _ hnot)]
    exact .single hmove
  unfold newKeyPool
  by_cases hlocked : env.fLocked = true
  · simp only [hlocked, if_true]
    exact hclear
  · have hloop : Advances newKey lease kept { w.eraseAll env with setKeyPool := ∅ }
        (writeNewKeys newKey env (List.range (max env.nKeyPool 0).toNat)
          { w.eraseAll env with setKeyPool := ∅ }).2 := by
      apply advances_writeNewKeys
      intro m hm hadded
      rw [List.length_range] at hm
      rw [List.getElem_range]
      exact hfree (by simpa using hlocked) m hm hadded
    have hboth := hclear.trans hloop
    simp only [hlocked, Bool.false_eq_true, if_false]
    split
    · next text w' heq =>
      rw [heq] at hboth
      exact hboth
    · next w' heq =>
      rw [heq] at hboth
      exact hboth

/-- A reservation leaves the pool alone or takes one index out of it. -/
def Takes (w : KeyWallet) (r : Reservation) : Prop :=
  r.nIndex = -1 ∧ r.wallet = w ∧ r.pubkey = none ∨
    r.nIndex ∈ w.setKeyPool ∧ r.wallet = { w with setKeyPool := w.setKeyPool.erase r.nIndex } ∧
      ∀ k ∈ r.pubkey, (w.pool r.nIndex).map CKeyPool.vchPubKey = some k

theorem takes_reserveOldest : w.Takes (w.reserveOldest env) := by
  unfold reserveOldest
  by_cases hne : w.setKeyPool.Nonempty
  · right
    rw [dif_pos hne]
    have hmem := w.setKeyPool.min'_mem hne
    simp only
    split
    · exact ⟨hmem, rfl, fun k hk ↦ nomatch hk⟩
    · next keypool hread =>
      have hrecord : w.pool (w.setKeyPool.min' hne) = some keypool := by
        unfold readPool at hread
        split at hread
        · exact hread
        · cases hread
      split
      · exact ⟨hmem, rfl, fun k hk ↦ nomatch hk⟩
      split
      · exact ⟨hmem, rfl, fun k hk ↦ nomatch hk⟩
      · refine ⟨hmem, rfl, fun k hk ↦ ?_⟩
        simp only [Reservation.pubkey] at hk
        split at hk
        · cases hk
        · rw [hrecord]
          exact hk
  · left
    rw [dif_neg hne]
    exact ⟨rfl, rfl, rfl⟩

theorem takes_reserveKeyFromKeyPool (hfree : env.fLocked = false →
    ∀ m < topUpSize env 0 - w.setKeyPool.card,
      (∀ l ≤ m, env.addKey (newKey (w.nGenerated + l)) = true ∧
        (w.fFileBacked && env.fWritten (w.nextIndex + l)) = true) →
      ∀ h value, lease h ≠ some (w.nextIndex + (m : ℤ), value)) :
    ∃ w', Advances newKey lease kept w w' ∧ w'.Takes (w.reserveKeyFromKeyPool newKey env) := by
  have htopUp : Advances newKey lease kept w _ := advances_topUpKeyPool hfree
  unfold reserveKeyFromKeyPool
  by_cases hlocked : env.fLocked = true
  · rw [if_pos hlocked]
    exact ⟨w, .refl, takes_reserveOldest⟩
  · rw [if_neg hlocked]
    split
    · next text w' heq =>
      rw [heq] at htopUp
      exact ⟨w', htopUp, .inl ⟨rfl, rfl, rfl⟩⟩
    · next w' heq =>
      rw [heq] at htopUp
      exact ⟨w', htopUp, takes_reserveOldest⟩

theorem move_take (hmem : nIndex ∈ w.setKeyPool) (hnone : lease h = none)
    (hvalue : ∀ k ∈ value, (w.pool nIndex).map CKeyPool.vchPubKey = some k) :
    Move (w.toPool newKey lease kept)
      (({ w with setKeyPool := w.setKeyPool.erase nIndex } : KeyWallet).toPool newKey
        (Function.update lease h (some (nIndex, value))) kept) := by
  have hmove : Move (w.toPool newKey lease kept) ((w.toPool newKey lease kept).take h nIndex value) :=
    .take hmem hnone hvalue
  convert hmove using 1
  simp only [toPool, Pool.take, Pool.mk.injEq, and_true]
  ext i
  simp only [Finset.mem_erase, Set.mem_ofPred_eq, and_comm]

/-- Keeping the key of a leased index, whose record may stay. -/
theorem move_keep (hlease : lease h = some (nIndex, value)) (hpool : ∀ i ≠ nIndex, w'.pool i = w.pool i)
    (hset : w'.setKeyPool = w.setKeyPool) (hcount : w'.nGenerated = w.nGenerated) :
    Move (w.toPool newKey lease kept)
      (w'.toPool newKey (Function.update lease h none) (kept ++ value.toList)) := by
  have hmove : Move (w.toPool newKey lease kept) ((w.toPool newKey lease kept).keep h value
      fun i ↦ (w'.pool i).map CKeyPool.vchPubKey) :=
    .keep hlease fun i hi ↦ congrArg _ (hpool i hi)
  convert hmove using 1
  simp only [toPool, Pool.keep, hset, hcount]

theorem move_giveBack (hlease : lease h = some (nIndex, value)) :
    Move (w.toPool newKey lease kept)
      ((w.returnKey nIndex).toPool newKey (Function.update lease h none) kept) := by
  have hmove : Move (w.toPool newKey lease kept) ((w.toPool newKey lease kept).giveBack h nIndex) :=
    .giveBack hlease
  convert hmove using 1
  simp only [toPool, returnKey, addIndex, Pool.giveBack, Pool.mk.injEq, and_true]
  ext i
  simp

theorem keepKey_spec (nIndex : ℤ) : (w.keepKey env nIndex).setKeyPool = w.setKeyPool ∧
    (w.keepKey env nIndex).nGenerated = w.nGenerated ∧
      ∀ i ≠ nIndex, (w.keepKey env nIndex).pool i = w.pool i := by
  unfold keepKey erasePool
  split
  · split
    · exact ⟨rfl, rfl, fun i hi ↦ Function.update_of_ne hi _ _⟩
    · exact ⟨rfl, rfl, fun _ _ ↦ rfl⟩
  · exact ⟨rfl, rfl, fun _ _ ↦ rfl⟩

/-- `GetKeyFromPool` when the pool has no key for it. -/
theorem advances_getKeyFromPool {fAllowReuse : Bool}
    (hnone : (w.reserveKeyFromKeyPool newKey env).nIndex = -1) :
    Advances newKey lease kept (w.reserveKeyFromKeyPool newKey env).wallet
      (w.getKeyFromPool newKey env fAllowReuse).2 := by
  unfold getKeyFromPool
  simp only [hnone, if_true]
  split
  · exact .refl
  split
  · exact .refl
  split
  · exact .refl
  · unfold generateNewKey
    by_cases hadd : env.addKey (newKey (w.reserveKeyFromKeyPool newKey env).wallet.nGenerated) = true
    · simp only [hadd, if_true]
      exact .use
    · simp only [hadd]
      exact .use

/-- `GetKeyFromPool` when the pool has a key for it: the record may be erased. -/
theorem getKeyFromPool_spec {fAllowReuse : Bool}
    (hsome : (w.reserveKeyFromKeyPool newKey env).nIndex ≠ -1) :
    (w.getKeyFromPool newKey env fAllowReuse).2.setKeyPool =
        (w.reserveKeyFromKeyPool newKey env).wallet.setKeyPool ∧
      (w.getKeyFromPool newKey env fAllowReuse).2.nGenerated =
        (w.reserveKeyFromKeyPool newKey env).wallet.nGenerated ∧
      ∀ i ≠ (w.reserveKeyFromKeyPool newKey env).nIndex,
        (w.getKeyFromPool newKey env fAllowReuse).2.pool i =
          (w.reserveKeyFromKeyPool newKey env).wallet.pool i := by
  unfold getKeyFromPool
  simp only [hsome, if_false]
  split
  · exact ⟨rfl, rfl, fun _ _ ↦ rfl⟩
  · exact keepKey_spec _

/-! ## The generator

Keys are only ever added, whoever holds what. -/

def noLease : Option Unit → Option (ℤ × Option CPubKey) := fun _ ↦ none

theorem nGenerated_le_topUpKeyPool {nSize : ℕ} :
    w.nGenerated ≤ (w.topUpKeyPool newKey env nSize).2.nGenerated := by
  have hadvances : Advances newKey noLease [] w (w.topUpKeyPool newKey env nSize).2 := by
    apply advances_topUpKeyPool
    intro _ m _ _ h value
    exact Option.some_ne_none _ ∘ Eq.symm
  exact hadvances.nGenerated_le

theorem nGenerated_le_writeNewKeys (is : List ℕ) :
    w.nGenerated ≤ (writeNewKeys newKey env is w).2.nGenerated := by
  induction is generalizing w with
  | nil => exact le_rfl
  | cons i is ih =>
    simp only [writeNewKeys, generateNewKey]
    split
    · next text w' heq =>
      split at heq
      · cases heq
      · cases heq
        exact w.nGenerated.le_succ
    · next pubkey w' heq =>
      split at heq
      · cases heq
        apply w.nGenerated.le_succ.trans
        have hrest := ih (w := ((({ w with nGenerated := w.nGenerated + 1 } : KeyWallet).writePool env
          (i + 1) ⟨env.nTime, newKey w.nGenerated⟩).2.addIndex (i + 1)))
        refine le_trans ?_ hrest
        unfold writePool addIndex
        split <;> exact le_rfl
      · cases heq

theorem nGenerated_le_newKeyPool : w.nGenerated ≤ (w.newKeyPool newKey env).2.nGenerated := by
  have hloop := @nGenerated_le_writeNewKeys newKey env { w.eraseAll env with setKeyPool := ∅ }
    (List.range (max env.nKeyPool 0).toNat)
  unfold newKeyPool
  by_cases hlocked : env.fLocked = true
  · simp only [hlocked, if_true]
    exact le_rfl
  · simp only [hlocked, Bool.false_eq_true, if_false]
    split
    · next text w' heq =>
      rw [heq] at hloop
      exact hloop
    · next w' heq =>
      rw [heq] at hloop
      exact hloop

theorem nGenerated_le_reserveKeyFromKeyPool :
    w.nGenerated ≤ (w.reserveKeyFromKeyPool newKey env).wallet.nGenerated := by
  have htakes : ∃ w', Advances newKey noLease [] w w' ∧
      w'.Takes (w.reserveKeyFromKeyPool newKey env) := by
    apply takes_reserveKeyFromKeyPool
    intro _ m _ _ h value
    exact Option.some_ne_none _ ∘ Eq.symm
  obtain ⟨w', hadvances, ⟨-, hwallet, -⟩ | ⟨-, hwallet, -⟩⟩ := htakes
  · rw [hwallet]
    exact hadvances.nGenerated_le
  · rw [hwallet]
    exact hadvances.nGenerated_le

end KeyWallet

end Electra.Wallet

import Electra.Wallet.KeyPoolMoves
import Mathlib.Data.Fintype.Basic

/-!
# Runs of the key pool

New indices come after the largest index in `setKeyPool`, which does not contain the outstanding
ones.  In a run that writes no outstanding index the key pool stays consistent; a run that does may
hand the same key out twice.
-/

namespace Electra.Wallet

open Foundations.LeasePool Relation

variable {H : Type} [DecidableEq H] {newKey : ℕ → CPubKey} {env : KeyPoolEnv}

namespace KeyPoolState

variable (newKey) (env)

/-- No holder has an index. -/
def Unheld (st : KeyPoolState H) (nIndex : ℤ) : Prop := ∀ h, (st.holders h).nIndex ≠ nIndex

/-- The indices that topping up writes are not held: after the largest one in the pool, up to the first
key that cannot be added or written. -/
def TopUpFresh (st : KeyPoolState H) (nSize : ℕ) : Prop :=
  env.fLocked = false → ∀ n < KeyWallet.topUpSize env nSize - st.wallet.setKeyPool.card,
    (∀ m ≤ n, env.addKey (newKey (st.wallet.nGenerated + m)) = true ∧
      (st.wallet.fFileBacked && env.fWritten (st.wallet.nextIndex + m)) = true) →
    st.Unheld (st.wallet.nextIndex + n)

/-- The indices from 1 on that a new pool gets are written and not held. -/
def NewPoolFresh (st : KeyPoolState H) : Prop :=
  env.fLocked = false → ∀ n < (max env.nKeyPool 0).toNat,
    (∀ m ≤ n, env.addKey (newKey (st.wallet.nGenerated + m)) = true) →
    (st.wallet.fFileBacked && env.fWritten (n + 1)) = true ∧ st.Unheld (n + 1)

/-- No call writes an index that is outstanding. -/
def CallFresh (st : KeyPoolState H) : KeyPoolCall H → Prop
  | .newKeyPool => st.NewPoolFresh newKey env
  | .topUpKeyPool nSize => st.TopUpFresh newKey env nSize
  | .getReservedKey h => (st.holders h).nIndex = -1 → st.TopUpFresh newKey env 0
  | .getKeyFromPool _ => st.TopUpFresh newKey env 0
  | .keepKey _ | .returnKey _ => True

instance [Fintype H] (st : KeyPoolState H) (nIndex : ℤ) : Decidable (st.Unheld nIndex) :=
  inferInstanceAs (Decidable (∀ h, (st.holders h).nIndex ≠ nIndex))

instance [Fintype H] (st : KeyPoolState H) (nSize : ℕ) :
    Decidable (st.TopUpFresh newKey env nSize) :=
  inferInstanceAs (Decidable (env.fLocked = false →
    ∀ n < KeyWallet.topUpSize env nSize - st.wallet.setKeyPool.card,
      (∀ m ≤ n, env.addKey (newKey (st.wallet.nGenerated + m)) = true ∧
        (st.wallet.fFileBacked && env.fWritten (st.wallet.nextIndex + m)) = true) →
      st.Unheld (st.wallet.nextIndex + n)))

instance [Fintype H] (st : KeyPoolState H) : Decidable (st.NewPoolFresh newKey env) :=
  inferInstanceAs (Decidable (env.fLocked = false → ∀ n < (max env.nKeyPool 0).toNat,
    (∀ m ≤ n, env.addKey (newKey (st.wallet.nGenerated + m)) = true) →
    (st.wallet.fFileBacked && env.fWritten (n + 1)) = true ∧ st.Unheld (n + 1)))

/-- Every call of a run meets the condition in the state in which it is made. -/
def RunFresh : KeyPoolState H → List (KeyPoolEnv × KeyPoolCall H) → Prop
  | _, [] => True
  | st, (env, call) :: calls =>
      st.CallFresh newKey env call ∧ RunFresh (st.step newKey env call) calls

end KeyPoolState

namespace KeyPoolState

variable {st : KeyPoolState H}

def lease (st : KeyPoolState H) : Option H → Option (ℤ × Option CPubKey)
  | none => none
  | some h =>
      if (st.holders h).nIndex = -1 then none else some ((st.holders h).nIndex, st.reserved h)

def toPool (newKey : ℕ → CPubKey) (st : KeyPoolState H) : Pool ℤ CPubKey (Option H) :=
  st.wallet.toPool newKey st.lease st.keptKeys

/-- The lease pool is in order, and -1 is the index of no reservation. -/
structure Sound (newKey : ℕ → CPubKey) (st : KeyPoolState H) : Prop where
  inv : Inv (st.toPool newKey)
  positive : st.wallet.Positive
  held : ∀ h, (st.holders h).nIndex = -1 ∨ 0 < (st.holders h).nIndex
  reserved : ∀ h, (st.holders h).nIndex = -1 → st.reserved h = none

omit [DecidableEq H] in
theorem lease_eq_some {h : Option H} {nIndex : ℤ} {value : Option CPubKey}
    (hlease : st.lease h = some (nIndex, value)) :
    ∃ h', h = some h' ∧ (st.holders h').nIndex = nIndex ∧ nIndex ≠ -1 := by
  cases h with
  | none => cases hlease
  | some h' =>
    simp only [lease] at hlease
    split at hlease
    · cases hlease
    · next hne =>
      rw [Option.some.injEq, Prod.mk.injEq] at hlease
      refine ⟨h', rfl, hlease.1, ?_⟩
      rw [← hlease.1]
      exact hne

omit [DecidableEq H] in
theorem Unheld.lease_ne {nIndex : ℤ} (hfree : st.Unheld nIndex) (h : Option H)
    (value : Option CPubKey) : st.lease h ≠ some (nIndex, value) := by
  intro hlease
  obtain ⟨h', -, hindex, -⟩ := lease_eq_some hlease
  exact hfree h' hindex

variable {h : H} {w : KeyWallet}

theorem lease_setHolder {holder : CReserveKey} {pubkey : Option CPubKey} :
    (st.setHolder h holder pubkey).lease = Function.update st.lease (some h)
      (if holder.nIndex = -1 then none else some (holder.nIndex, pubkey)) := by
  funext h'
  cases h' with
  | none => rfl
  | some h' =>
    by_cases hh : h' = h
    · subst hh
      simp [lease, setHolder]
    · have hne : (some h' : Option H) ≠ some h := by simpa using hh
      rw [Function.update_of_ne hne]
      simp only [lease, setHolder, Function.update_of_ne hh]

omit [DecidableEq H] in
/-- The consistency of the pool, read off its leases. -/
theorem Sound.consistent (hst : Sound newKey st) : st.Consistent where
  stored nIndex hmem := by
    obtain ⟨k, hk⟩ := hst.inv.stored nIndex (.inl hmem)
    obtain ⟨keypool, hpool, -⟩ := Option.map_eq_some_iff.mp hk
    exact Option.isSome_iff_exists.mpr ⟨keypool, hpool⟩
  apart h hne :=
    hst.inv.apart (some h) (st.holders h).nIndex (st.reserved h) (if_neg hne)
  once h h' hne heq := by
    have hne' : (st.holders h').nIndex ≠ -1 := heq ▸ hne
    have hlease : st.lease (some h) = some ((st.holders h).nIndex, st.reserved h) := if_neg hne
    have hlease' : st.lease (some h') = some ((st.holders h).nIndex, st.reserved h') := by
      rw [heq]
      exact if_neg hne'
    exact Option.some.inj (hst.inv.once _ _ _ _ _ hlease hlease')
  nodup := hst.inv.nodup

omit [DecidableEq H] in
theorem Start.sound (hst : Start newKey st) : Sound newKey st where
  inv := by
    apply Inv.start
    · intro h
      cases h with
      | none => rfl
      | some h => exact if_pos (by rw [hst.holders h, CReserveKey.empty])
    · exact hst.keptKeys
    · intro nIndex hmem
      obtain ⟨keypool, hpool, n, hn, hkey⟩ := hst.stored nIndex hmem
      exact ⟨keypool.vchPubKey, ⟨n, hn, hkey.symm⟩, congrArg (Option.map CKeyPool.vchPubKey) hpool⟩
    · intro i hi j hj hrecord
      exact hst.distinct i hi j hj hrecord
  positive := hst.positive
  held h := .inl (by rw [hst.holders h, CReserveKey.empty])
  reserved h _ := hst.reserved h

/-- A step keeps the pool in order if it is a sequence of moves. -/
theorem Sound.of_moves {st' : KeyPoolState H} (hst : Sound newKey st)
    (hmoves : ReflTransGen Move (st.toPool newKey) (st'.toPool newKey))
    (hpositive : st'.wallet.Positive)
    (hheld : ∀ h, (st'.holders h).nIndex = -1 ∧ st'.reserved h = none ∨
      0 < (st'.holders h).nIndex) : Sound newKey st' where
  inv := hst.inv.run hmoves
  positive := hpositive
  held h := (hheld h).imp And.left id
  reserved h hnone := by
    obtain ⟨-, hreserved⟩ | hpos := hheld h
    · exact hreserved
    · omega

omit [DecidableEq H] in
theorem Sound.heldOrNone (hst : Sound newKey st) (h : H) :
    (st.holders h).nIndex = -1 ∧ st.reserved h = none ∨ 0 < (st.holders h).nIndex :=
  (hst.held h).imp (fun hnone ↦ ⟨hnone, hst.reserved h hnone⟩) id

/-- As before, where one holder changes. -/
theorem Sound.of_setHolder (hst : Sound newKey st) {holder : CReserveKey} {pubkey : Option CPubKey}
    {kept : List CPubKey}
    (hmoves : ReflTransGen Move (st.toPool newKey) (w.toPool newKey (Function.update st.lease (some h)
      (if holder.nIndex = -1 then none else some (holder.nIndex, pubkey))) kept))
    (hpositive : w.Positive) (hholder : holder.nIndex = -1 ∧ pubkey = none ∨ 0 < holder.nIndex) :
    Sound newKey { st.setHolder h holder pubkey with wallet := w, keptKeys := kept } := by
  rw [← lease_setHolder] at hmoves
  refine hst.of_moves hmoves hpositive fun h' ↦ ?_
  by_cases hh : h' = h
  · subst hh
    simpa [setHolder] using hholder
  · simpa [setHolder, Function.update_of_ne hh] using hst.heldOrNone h'

/-- Leases do not change while the wallet advances. -/
theorem Sound.advance (hst : Sound newKey st)
    (hadvances : KeyWallet.Advances newKey st.lease st.keptKeys st.wallet w)
    (hnew : Set.InjOn newKey (Set.Iio w.nGenerated)) : Sound newKey { st with wallet := w } where
  inv := hst.inv.run (hadvances.moves hnew)
  positive := hadvances.positive hst.positive
  held := hst.held
  reserved := hst.reserved

theorem Sound.newKeyPool (hst : Sound newKey st) (hfresh : st.NewPoolFresh newKey env)
    (hnew : Set.InjOn newKey (Set.Iio (st.wallet.newKeyPool newKey env).2.nGenerated)) :
    Sound newKey (st.step newKey env .newKeyPool) := by
  refine hst.advance (KeyWallet.advances_newKeyPool hst.inv.apart fun hunlocked m hm hadded ↦ ?_) hnew
  obtain ⟨hwritten, hunheld⟩ := hfresh hunlocked m hm hadded
  exact ⟨hwritten, hunheld.lease_ne⟩

theorem Sound.topUpKeyPool (hst : Sound newKey st) {nSize : ℕ}
    (hfresh : st.TopUpFresh newKey env nSize)
    (hnew : Set.InjOn newKey (Set.Iio (st.wallet.topUpKeyPool newKey env nSize).2.nGenerated)) :
    Sound newKey (st.step newKey env (.topUpKeyPool nSize)) :=
  hst.advance (KeyWallet.advances_topUpKeyPool fun hunlocked m hm hwritten ↦
    (hfresh hunlocked m hm hwritten).lease_ne) hnew

theorem takes_reserveKeyFromKeyPool (hfresh : st.TopUpFresh newKey env 0) :
    ∃ w, KeyWallet.Advances newKey st.lease st.keptKeys st.wallet w ∧
      w.Takes (st.wallet.reserveKeyFromKeyPool newKey env) :=
  KeyWallet.takes_reserveKeyFromKeyPool fun hunlocked m hm hwritten ↦
    (hfresh hunlocked m hm hwritten).lease_ne

/-- A holder takes the index that a reservation takes out of the pool. -/
theorem Sound.take (hst : Sound newKey st) {r : Reservation} {vchPubKey : CPubKey}
    (hnone : (st.holders h).nIndex = -1)
    (hadvances : KeyWallet.Advances newKey st.lease st.keptKeys st.wallet w) (htakes : w.Takes r)
    (hnew : Set.InjOn newKey (Set.Iio r.wallet.nGenerated)) :
    Sound newKey { st.setHolder h ⟨r.nIndex, vchPubKey⟩ r.pubkey with wallet := r.wallet } := by
  have hlease : st.lease (some h) = none := if_pos hnone
  obtain ⟨hindex, hwallet, hpubkey⟩ | ⟨hmem, hwallet, hpubkey⟩ := htakes
  · rw [hwallet] at hnew ⊢
    refine hst.of_setHolder ?_ (hadvances.positive hst.positive) (.inl ⟨hindex, hpubkey⟩)
    rw [if_pos hindex, ← hlease, Function.update_eq_self]
    exact hadvances.moves hnew
  · have hcount : r.wallet.nGenerated = w.nGenerated := by rw [hwallet]
    rw [hcount] at hnew
    have hpos := hadvances.positive hst.positive r.nIndex hmem
    have hne : r.nIndex ≠ -1 := by omega
    rw [hwallet]
    refine hst.of_setHolder ?_ ?_ (.inr hpos)
    · rw [if_neg hne]
      exact (hadvances.moves hnew).tail (KeyWallet.move_take hmem hlease hpubkey)
    · intro i hi
      exact hadvances.positive hst.positive i (Finset.mem_of_mem_erase hi)

theorem Sound.getReservedKey (hst : Sound newKey st)
    (hfresh : (st.holders h).nIndex = -1 → st.TopUpFresh newKey env 0) (hnew : Set.InjOn newKey
      (Set.Iio (st.step newKey env (.getReservedKey h)).wallet.nGenerated)) :
    Sound newKey (st.step newKey env (.getReservedKey h)) := by
  by_cases hnone : (st.holders h).nIndex = -1
  · obtain ⟨w, hadvances, htakes⟩ := takes_reserveKeyFromKeyPool (hfresh hnone)
    cases hthrown : (st.wallet.reserveKeyFromKeyPool newKey env).thrown with
    | some text =>
      simp only [step, CReserveKey.getReservedKey, hnone, if_true, hthrown] at hnew ⊢
      exact hst.take hnone hadvances htakes hnew
    | none =>
      simp only [step, CReserveKey.getReservedKey, hnone, if_true, hthrown] at hnew ⊢
      exact hst.take hnone hadvances htakes hnew
  · have hstep : st.step newKey env (.getReservedKey h) = st := by
      simp [step, CReserveKey.getReservedKey, hnone, setHolder]
    rw [hstep]
    exact hst

theorem Sound.keepKey (hst : Sound newKey st) :
    Sound newKey (st.step newKey env (.keepKey h)) := by
  by_cases hnone : (st.holders h).nIndex = -1
  · have hlease : st.lease (some h) = none := if_pos hnone
    simp only [step, CReserveKey.keepKey, hnone, if_true, hst.reserved h hnone, Option.toList_none,
      List.append_nil]
    refine hst.of_setHolder ?_ hst.positive (.inl ⟨rfl, rfl⟩)
    rw [CReserveKey.empty, if_pos rfl, ← hlease, Function.update_eq_self]
    exact .refl
  · have hlease : st.lease (some h) = some ((st.holders h).nIndex, st.reserved h) := if_neg hnone
    obtain ⟨hset, hcount, hpool⟩ := @KeyWallet.keepKey_spec env st.wallet (st.holders h).nIndex
    simp only [step, CReserveKey.keepKey, hnone, if_false]
    refine hst.of_setHolder ?_ ?_ (.inl ⟨rfl, rfl⟩)
    · exact .single (KeyWallet.move_keep hlease hpool hset hcount)
    · intro i hi
      rw [hset] at hi
      exact hst.positive i hi

theorem Sound.returnKey (hst : Sound newKey st) :
    Sound newKey (st.step newKey env (.returnKey h)) := by
  by_cases hnone : (st.holders h).nIndex = -1
  · have hlease : st.lease (some h) = none := if_pos hnone
    simp only [step, CReserveKey.returnKey, hnone, if_true]
    refine hst.of_setHolder ?_ hst.positive (.inl ⟨rfl, rfl⟩)
    rw [CReserveKey.empty, if_pos rfl, ← hlease, Function.update_eq_self]
    exact .refl
  · have hlease : st.lease (some h) = some ((st.holders h).nIndex, st.reserved h) := if_neg hnone
    simp only [step, CReserveKey.returnKey, hnone, if_false]
    refine hst.of_setHolder ?_ ?_ (.inl ⟨rfl, rfl⟩)
    · exact .single (KeyWallet.move_giveBack hlease)
    · exact hst.positive.addIndex ((hst.held h).resolve_left hnone)

/-- A key that is taken out of the pool and kept at once. -/
theorem Sound.takeAndKeep (hst : Sound newKey st) {r : Reservation} {w' : KeyWallet}
    (hadvances : KeyWallet.Advances newKey st.lease st.keptKeys st.wallet w)
    (hmem : r.nIndex ∈ w.setKeyPool)
    (hwallet : r.wallet = { w with setKeyPool := w.setKeyPool.erase r.nIndex })
    (hpubkey : ∀ k ∈ r.pubkey, (w.pool r.nIndex).map CKeyPool.vchPubKey = some k)
    (hset : w'.setKeyPool = r.wallet.setKeyPool) (hcount : w'.nGenerated = r.wallet.nGenerated)
    (hpool : ∀ i ≠ r.nIndex, w'.pool i = r.wallet.pool i)
    (hnew : Set.InjOn newKey (Set.Iio w'.nGenerated)) :
    Sound newKey { st with wallet := w', keptKeys := st.keptKeys ++ r.pubkey.toList } := by
  rw [hwallet] at hset hcount hpool
  rw [hcount] at hnew
  have hadvance := hadvances.moves hnew
  have htake : Move (w.toPool newKey st.lease st.keptKeys) _ :=
    KeyWallet.move_take hmem (show st.lease none = none from rfl) hpubkey
  have hkeep : Move _ (w'.toPool newKey _ (st.keptKeys ++ r.pubkey.toList)) :=
    KeyWallet.move_keep (Function.update_self none (some (r.nIndex, r.pubkey)) st.lease) hpool hset
      hcount
  have hleases : Function.update st.lease none none = st.lease := Function.update_eq_self none st.lease
  rw [Function.update_idem, hleases] at hkeep
  refine hst.of_moves ((hadvance.tail htake).tail hkeep) ?_ hst.heldOrNone
  intro i hi
  rw [hset] at hi
  exact hadvances.positive hst.positive i (Finset.mem_of_mem_erase hi)

theorem Sound.getKeyFromPool (hst : Sound newKey st) {fAllowReuse : Bool}
    (hfresh : st.TopUpFresh newKey env 0)
    (hnew : Set.InjOn newKey
      (Set.Iio (st.step newKey env (.getKeyFromPool fAllowReuse)).wallet.nGenerated)) :
    Sound newKey (st.step newKey env (.getKeyFromPool fAllowReuse)) := by
  obtain ⟨w, hadvances, htakes⟩ := takes_reserveKeyFromKeyPool hfresh
  obtain ⟨hindex, hwallet, hpubkey⟩ | ⟨hmem, hwallet, hpubkey⟩ := htakes
  · simp only [step, hpubkey, Option.toList_none, List.append_nil]
    rw [← hwallet] at hadvances
    exact hst.advance (hadvances.trans (KeyWallet.advances_getKeyFromPool hindex)) hnew
  · have hpos := hadvances.positive hst.positive _ hmem
    obtain ⟨hset, hcount, hpool⟩ :=
      @KeyWallet.getKeyFromPool_spec newKey env st.wallet fAllowReuse (by omega)
    exact hst.takeAndKeep hadvances hmem hwallet hpubkey hset hcount hpool hnew

/-- No call takes back a key that was generated. -/
theorem nGenerated_le_step (call : KeyPoolCall H) :
    st.wallet.nGenerated ≤ (st.step newKey env call).wallet.nGenerated := by
  cases call with
  | newKeyPool => exact KeyWallet.nGenerated_le_newKeyPool
  | topUpKeyPool nSize => exact KeyWallet.nGenerated_le_topUpKeyPool
  | getReservedKey h =>
    have hreserve := @KeyWallet.nGenerated_le_reserveKeyFromKeyPool newKey env st.wallet
    simp only [step, CReserveKey.getReservedKey]
    split
    · split <;> exact hreserve
    · exact le_rfl
  | keepKey h =>
    simp only [step, CReserveKey.keepKey]
    split
    · exact le_rfl
    · exact (KeyWallet.keepKey_spec _).2.1.ge
  | returnKey h =>
    simp only [step, CReserveKey.returnKey]
    split <;> exact le_rfl
  | getKeyFromPool fAllowReuse =>
    apply KeyWallet.nGenerated_le_reserveKeyFromKeyPool.trans
    by_cases hnone : (st.wallet.reserveKeyFromKeyPool newKey env).nIndex = -1
    · have hadvances : KeyWallet.Advances newKey KeyWallet.noLease [] _
          (st.wallet.getKeyFromPool newKey env fAllowReuse).2 :=
        KeyWallet.advances_getKeyFromPool hnone
      exact hadvances.nGenerated_le
    · exact (KeyWallet.getKeyFromPool_spec hnone).2.1.ge

/-- A call that writes no outstanding index keeps the pool in order. -/
theorem Sound.step (hst : Sound newKey st) {call : KeyPoolCall H}
    (hfresh : st.CallFresh newKey env call)
    (hnew : Set.InjOn newKey (Set.Iio (st.step newKey env call).wallet.nGenerated)) :
    Sound newKey (st.step newKey env call) := by
  cases call with
  | newKeyPool => exact hst.newKeyPool hfresh hnew
  | topUpKeyPool nSize => exact hst.topUpKeyPool hfresh hnew
  | getReservedKey h => exact hst.getReservedKey hfresh hnew
  | keepKey h => exact hst.keepKey
  | returnKey h => exact hst.returnKey
  | getKeyFromPool fAllowReuse => exact hst.getKeyFromPool hfresh hnew

theorem nGenerated_le_run (calls : List (KeyPoolEnv × KeyPoolCall H)) :
    st.wallet.nGenerated ≤ (st.run newKey calls).wallet.nGenerated := by
  induction calls generalizing st with
  | nil => exact le_rfl
  | cons call calls ih => exact (nGenerated_le_step call.2).trans ih

theorem Sound.run {calls : List (KeyPoolEnv × KeyPoolCall H)} (hst : Sound newKey st)
    (hfresh : st.RunFresh newKey calls)
    (hnew : Set.InjOn newKey (Set.Iio (st.run newKey calls).wallet.nGenerated)) :
    Sound newKey (st.run newKey calls) := by
  induction calls generalizing st with
  | nil => exact hst
  | cons call calls ih =>
    obtain ⟨hcall, hrest⟩ := hfresh
    have hle : (st.step newKey call.1 call.2).wallet.nGenerated ≤
        ((st.step newKey call.1 call.2).run newKey calls).wallet.nGenerated := nGenerated_le_run calls
    exact ih (hst.step hcall (hnew.mono (Set.Iio_subset_Iio hle))) hrest hnew

namespace Reuse

/-- The generator of the example: keys of 33 bytes. -/
def numberedKey (n : ℕ) : CPubKey := ⟨2 :: List.replicate 31 0 ++ [UInt8.ofNat n]⟩

/-- An unlocked wallet whose database never fails. -/
def working (nKeyPool : ℤ) : KeyPoolEnv where
  fLocked := false
  nTime := 0
  nKeyPool := nKeyPool
  addKey _ := true
  haveKey _ := true
  fWritten _ := true
  fRead _ := true
  fErased _ := true

def emptyPool : KeyPoolState (Fin 3) where
  wallet := ⟨true, ∅, fun _ ↦ none, ⟨[]⟩, 0⟩
  holders _ := .empty
  reserved _ := none
  keptKeys := []

theorem start_emptyPool : Start numberedKey emptyPool where
  positive _ hmem := absurd hmem (Finset.notMem_empty _)
  stored _ hmem := absurd hmem (Finset.notMem_empty _)
  distinct _ hmem := absurd hmem (Finset.notMem_empty _)
  holders _ := rfl
  reserved _ := rfl
  keptKeys := rfl

theorem injOn_numberedKey {n : ℕ} (hn : n ≤ 256) : Set.InjOn numberedKey (Set.Iio n) := by
  intro i hi j hj heq
  have hlast : UInt8.ofNat i = UInt8.ofNat j := by simpa [numberedKey] using heq
  have hmod := congrArg UInt8.toNat hlast
  rw [UInt8.toNat_ofNat', UInt8.toNat_ofNat', Nat.mod_eq_of_lt (lt_of_lt_of_le hi hn),
    Nat.mod_eq_of_lt (lt_of_lt_of_le hj hn)] at hmod
  exact hmod

/-- A new pool while index 1 is outstanding, which the first holder then returns. -/
def reusingCalls : List (KeyPoolEnv × KeyPoolCall (Fin 3)) :=
  [.getReservedKey 0, .newKeyPool, .getReservedKey 1, .returnKey 0, .getReservedKey 2, .keepKey 1,
    .keepKey 2].map fun call ↦ (working 1, call)

/-- The same holders, where a new pool waits until nothing is outstanding. -/
def orderlyCalls : List (KeyPoolEnv × KeyPoolCall (Fin 3)) :=
  [.topUpKeyPool 1, .getReservedKey 0, .getReservedKey 1, .returnKey 0, .keepKey 1, .newKeyPool,
    .getReservedKey 2, .getKeyFromPool false, .keepKey 2].map fun call ↦ (working 1, call)

/-- The index is in the pool and outstanding, it has two holders, and both keep the same key. -/
theorem not_consistent_of_reuse : Start numberedKey emptyPool ∧
    Set.InjOn numberedKey (Set.Iio (emptyPool.run numberedKey reusingCalls).wallet.nGenerated) ∧
    (emptyPool.run numberedKey reusingCalls).keptKeys = [numberedKey 2, numberedKey 2] ∧
    ¬ (emptyPool.run numberedKey reusingCalls).Consistent := by
  have hcount : (emptyPool.run numberedKey reusingCalls).wallet.nGenerated ≤ 256 := by decide
  have hkept : (emptyPool.run numberedKey reusingCalls).keptKeys = [numberedKey 2, numberedKey 2] := by
    decide
  refine ⟨start_emptyPool, injOn_numberedKey hcount, hkept, fun hconsistent ↦ ?_⟩
  have hnodup := hconsistent.nodup
  rw [hkept] at hnodup
  simp at hnodup

end Reuse

/-- In a run of a wallet with a generator that does not repeat itself, whose calls write no
outstanding index, the key pool is consistent in every state. -/
theorem consistent_of_runFresh {calls : List (KeyPoolEnv × KeyPoolCall H)} (hst : Start newKey st)
    (hnew : Set.InjOn newKey (Set.Iio (st.run newKey calls).wallet.nGenerated))
    (hfresh : st.RunFresh newKey calls) : (st.run newKey calls).Consistent :=
  (hst.sound.run hfresh hnew).consistent

section

open Reuse

theorem runFresh_orderlyCalls : emptyPool.RunFresh numberedKey orderlyCalls := by
  simp only [orderlyCalls, List.map_cons, List.map_nil, RunFresh, CallFresh, and_true, true_and]
  refine ⟨?_, ?_, ?_, ?_, ?_, ?_⟩ <;> decide

theorem consistent_orderlyCalls : (emptyPool.run numberedKey orderlyCalls).keptKeys =
      [numberedKey 1, numberedKey 4, numberedKey 3] ∧
    (emptyPool.run numberedKey orderlyCalls).Consistent := by
  have hcount : (emptyPool.run numberedKey orderlyCalls).wallet.nGenerated ≤ 256 := by decide
  refine ⟨by decide, ?_⟩
  exact consistent_of_runFresh start_emptyPool (injOn_numberedKey hcount) runFresh_orderlyCalls

end

end KeyPoolState

end Electra.Wallet

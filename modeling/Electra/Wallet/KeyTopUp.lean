import Electra.Wallet.KeyPoolMoves
import Electra.Wallet.Payments

/-!
# Top-ups and reservations given back

A key pool that is topped up has more keys under new indices.  A key that is reserved and given back
leaves a pool that was topped up at most.
-/

namespace Electra.Wallet

variable {newKey : ℕ → CPubKey} {env : KeyPoolEnv}

namespace KeyWallet

variable {w w' w'' : KeyWallet}

/-- The pool with keys added that were generated for it. -/
structure ToppedUp (newKey : ℕ → CPubKey) (w w' : KeyWallet) : Prop where
  fFileBacked : w'.fFileBacked = w.fFileBacked
  vchDefaultKey : w'.vchDefaultKey = w.vchDefaultKey
  subset : w.setKeyPool ⊆ w'.setKeyPool
  pool : ∀ nIndex, nIndex ∈ w.setKeyPool ∨ nIndex ∉ w'.setKeyPool → w'.pool nIndex = w.pool nIndex
  added : ∀ nIndex ∈ w'.setKeyPool, nIndex ∉ w.setKeyPool →
    ∃ nTime n, w.nGenerated ≤ n ∧ n < w'.nGenerated ∧ w'.pool nIndex = some ⟨nTime, newKey n⟩
  count : w'.nGenerated + w.setKeyPool.card = w.nGenerated + w'.setKeyPool.card
  positive : w.Positive → w'.Positive

namespace ToppedUp

theorem refl (w : KeyWallet) : ToppedUp newKey w w :=
  ⟨rfl, rfl, subset_rfl, fun _ _ ↦ rfl, fun _ hmem hnot ↦ absurd hmem hnot, rfl, id⟩

theorem nGenerated_le (h : ToppedUp newKey w w') : w.nGenerated ≤ w'.nGenerated := by
  have hcard := Finset.card_le_card h.subset
  have hcount := h.count
  omega

theorem trans (h : ToppedUp newKey w w') (h' : ToppedUp newKey w' w'') : ToppedUp newKey w w'' where
  fFileBacked := h'.fFileBacked.trans h.fFileBacked
  vchDefaultKey := h'.vchDefaultKey.trans h.vchDefaultKey
  subset := h.subset.trans h'.subset
  pool nIndex hnIndex := by
    obtain hmem | hnot := hnIndex
    · exact (h'.pool nIndex (.inl (h.subset hmem))).trans (h.pool nIndex (.inl hmem))
    · have hnot' : nIndex ∉ w'.setKeyPool := fun hmem ↦ hnot (h'.subset hmem)
      exact (h'.pool nIndex (.inr hnot)).trans (h.pool nIndex (.inr hnot'))
  added nIndex hmem hnot := by
    by_cases hfirst : nIndex ∈ w'.setKeyPool
    · obtain ⟨nTime, n, hle, hlt, hrecord⟩ := h.added nIndex hfirst hnot
      exact ⟨nTime, n, hle, hlt.trans_le h'.nGenerated_le,
        (h'.pool nIndex (.inl hfirst)).trans hrecord⟩
    · obtain ⟨nTime, n, hle, hlt, hrecord⟩ := h'.added nIndex hmem hfirst
      exact ⟨nTime, n, h.nGenerated_le.trans hle, hlt, hrecord⟩
  count := by
    have hcount := h.count
    have hcount' := h'.count
    omega
  positive := h'.positive ∘ h.positive

/-- One more key under the next index. -/
theorem storeKey (w : KeyWallet) : ToppedUp newKey w (KeyWallet.storeKey newKey env w.nextIndex w) := by
  have hnew : w.nextIndex ∉ w.setKeyPool := fun hmem ↦ (lt_nextIndex hmem).false
  refine ⟨rfl, rfl, Finset.subset_insert _ _, fun nIndex hnIndex ↦ ?_, fun nIndex hmem hnot ↦ ?_, ?_,
    fun hw ↦ ?_⟩
  · have hne : nIndex ≠ w.nextIndex := by
      rintro rfl
      exact hnIndex.elim hnew fun hnot ↦ hnot (Finset.mem_insert_self _ _)
    exact Function.update_of_ne hne _ _
  · obtain rfl := (Finset.mem_insert.mp hmem).resolve_right hnot
    exact ⟨env.nTime, w.nGenerated, le_rfl, Nat.lt_succ_self _, Function.update_self _ _ _⟩
  · calc w.nGenerated + 1 + w.setKeyPool.card
        = w.nGenerated + (w.setKeyPool.card + 1) := by omega
      _ = w.nGenerated + (insert w.nextIndex w.setKeyPool).card := by
          rw [Finset.card_insert_of_notMem hnew]
  · exact Positive.addIndex (w := { w with
      nGenerated := w.nGenerated + 1
      pool := Function.update w.pool w.nextIndex (some ⟨env.nTime, newKey w.nGenerated⟩) }) hw
      hw.nextIndex_pos

end ToppedUp

theorem toppedUp_topUpLoop (n : ℕ) (h : topUpLoop newKey env n w = (.ok (), w')) :
    ToppedUp newKey w w' := by
  induction n generalizing w with
  | zero =>
    cases h
    exact .refl _
  | succ n ih =>
    simp only [topUpLoop, generateNewKey] at h
    by_cases hadd : env.addKey (newKey w.nGenerated) = true
    · by_cases hwrite : (w.fFileBacked && env.fWritten w.nextIndex) = true
      · simp only [hadd, if_true, writePool, hwrite] at h
        exact (ToppedUp.storeKey w).trans (ih h)
      · simp only [hadd, if_true, writePool, hwrite] at h
        cases h
    · simp only [hadd] at h
      cases h

theorem toppedUp_topUpKeyPool {nSize : ℕ} {fToppedUp : Bool}
    (h : w.topUpKeyPool newKey env nSize = (.ok fToppedUp, w')) : ToppedUp newKey w w' := by
  unfold topUpKeyPool at h
  split at h
  · cases h
    exact .refl _
  · split at h
    · cases h
    · next hloop =>
      cases h
      exact toppedUp_topUpLoop _ hloop

/-- A reservation that does not throw takes at most an index out of a pool that was topped up. -/
theorem takes_of_toppedUp (h : (w.reserveKeyFromKeyPool newKey env).thrown = none) :
    ∃ w₁, ToppedUp newKey w w₁ ∧ w₁.Takes (w.reserveKeyFromKeyPool newKey env) := by
  unfold reserveKeyFromKeyPool at h ⊢
  split
  · exact ⟨w, .refl w, takes_reserveOldest⟩
  · next hlocked =>
    rw [if_neg hlocked] at h
    split at h
    · cases h
    · next w₁ htopUp => exact ⟨w₁, toppedUp_topUpKeyPool htopUp, takes_reserveOldest⟩

end KeyWallet

/-! ## Reserved keys -/

namespace KeyReserve

variable {w : KeyWallet} {reserve reserve' : KeyReserve}

/-- The wallet after the reserved key is given back. -/
def returned (reserve : KeyReserve) : KeyWallet := (reserve.holder.returnKey reserve.wallet).2

/-- Given back, the key leaves a wallet that was topped up, and it is not in the pool before. -/
structure Holds (newKey : ℕ → CPubKey) (w : KeyWallet) (reserve : KeyReserve) : Prop where
  toppedUp : w.ToppedUp newKey reserve.returned
  apart : reserve.holder.nIndex ≠ -1 → reserve.holder.nIndex ∉ reserve.wallet.setKeyPool

theorem returned_of_empty (hempty : reserve.holder.nIndex = -1) : reserve.returned = reserve.wallet := by
  rw [returned, CReserveKey.returnKey, if_pos hempty]

theorem holds_empty (w : KeyWallet) : Holds newKey w ⟨.empty, w⟩ :=
  ⟨.refl w, fun hne ↦ absurd rfl hne⟩

theorem Holds.returnKey (h : reserve.Holds newKey w) : Holds newKey w ⟨.empty, reserve.returned⟩ :=
  ⟨h.toppedUp, fun hne ↦ absurd rfl hne⟩

/-- A holder after a reservation that took what `Takes` says. -/
theorem Holds.of_takes {w₁ : KeyWallet} {reserved : Reservation} {vchPubKey : CPubKey}
    (h : w.ToppedUp newKey w₁) (hw : w.Positive) (htakes : w₁.Takes reserved) :
    Holds newKey w ⟨⟨reserved.nIndex, vchPubKey⟩, reserved.wallet⟩ := by
  obtain ⟨hempty, hwallet, -⟩ | ⟨hmem, hwallet, -⟩ := htakes
  · refine ⟨?_, fun hne ↦ absurd hempty hne⟩
    rw [returned_of_empty hempty, hwallet]
    exact h
  · have hpos := h.positive hw _ hmem
    have hreturned := calc
      returned ⟨⟨reserved.nIndex, vchPubKey⟩, reserved.wallet⟩
        = reserved.wallet.addIndex reserved.nIndex := by
          rw [returned, CReserveKey.returnKey, if_neg (by simp only; omega)]
          rfl
      _ = w₁ := by
          rw [hwallet, KeyWallet.addIndex]
          simp only [Finset.insert_erase hmem]
    refine ⟨hreturned ▸ h, fun _ ↦ ?_⟩
    rw [hwallet]
    exact Finset.notMem_erase _ _

theorem Holds.getReservedKey {vchPubKey : CPubKey} {holder : CReserveKey} {wallet : KeyWallet}
    (h : reserve.Holds newKey w) (hw : w.Positive)
    (hreserve : reserve.holder.getReservedKey newKey env reserve.wallet = (.ok vchPubKey, holder, wallet)) :
    Holds newKey w ⟨holder, wallet⟩ := by
  unfold CReserveKey.getReservedKey at hreserve
  split at hreserve
  · next hempty =>
    simp only at hreserve
    split at hreserve
    · cases hreserve
    · next hthrown =>
      obtain ⟨w₁, htopUp, htakes⟩ := KeyWallet.takes_of_toppedUp hthrown
      have htoppedUp := h.toppedUp
      rw [returned_of_empty hempty] at htoppedUp
      obtain ⟨-, rfl, rfl⟩ := Prod.mk.inj hreserve |>.imp_right Prod.mk.inj
      exact .of_takes (htoppedUp.trans htopUp) hw htakes
  · obtain ⟨-, rfl, rfl⟩ := Prod.mk.inj hreserve |>.imp_right Prod.mk.inj
    exact h

/-- What `~CReserveKey` leaves, which does nothing during a shutdown. -/
def released (fShutdown : Bool) (reserve : KeyReserve) : KeyWallet :=
  if fShutdown then reserve.wallet else reserve.returned

/-- A key that is not given back is missing from the pool. -/
theorem Holds.released_iff (h : reserve.Holds newKey w) (fShutdown : Bool) :
    w.ToppedUp newKey (reserve.released fShutdown) ↔
      ¬ (fShutdown = true ∧ reserve.holder.nIndex ≠ -1) := by
  cases fShutdown with
  | false => exact iff_of_true h.toppedUp (by simp)
  | true =>
    by_cases hempty : reserve.holder.nIndex = -1
    · have hwallet : reserve.released true = reserve.returned := (returned_of_empty hempty).symm
      exact iff_of_true (hwallet ▸ h.toppedUp) (by simp [hempty])
    · refine iff_of_false (fun htoppedUp ↦ ?_) (by simp [hempty])
      have hreturned : reserve.returned = reserve.wallet.addIndex reserve.holder.nIndex := by
        rw [returned, CReserveKey.returnKey, if_neg hempty]
        rfl
      have hcount := h.toppedUp.count
      rw [hreturned] at hcount
      have hcard : (reserve.wallet.addIndex reserve.holder.nIndex).setKeyPool.card =
          reserve.wallet.setKeyPool.card + 1 := Finset.card_insert_of_notMem (h.apart hempty)
      have hcount' : reserve.wallet.nGenerated + w.setKeyPool.card =
          w.nGenerated + reserve.wallet.setKeyPool.card := htoppedUp.count
      have hsame : (reserve.wallet.addIndex reserve.holder.nIndex).nGenerated =
          reserve.wallet.nGenerated := rfl
      omega

end KeyReserve

end Electra.Wallet

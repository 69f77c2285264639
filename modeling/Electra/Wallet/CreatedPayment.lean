import Electra.Wallet.PaymentValue
import Electra.Wallet.SendMoney

/-!
# What creating a transaction leaves

A call of `CreateTransaction` that does not throw leaves at most one reserved key, which can be given back.
The transaction that it creates spends a coin that was not marked as spent.
-/

namespace Electra.Wallet

open Chain Foundations.Outcome

/-! ## The reserved key -/

section Reserve

variable {P : ChainParams} {env : SpendEnv} {view : SpendView} {coinControl : Option CCoinControl}
  {vecSend : List (CScript × ℤ)} {wtxNew : CTransaction} {w : KeyWallet} {reserve : KeyReserve}
  {nValue nFeeRet : ℤ}

/-- Only a reservation that throws keeps the outputs from being filled. -/
theorem fillOutputs_cases (coinControl : Option CCoinControl) (vecSend : List (CScript × ℤ))
    (choices : RoundChoices) (h : reserve.Holds env.newKey w) (hw : w.Positive)
    (nChange : ℤ) :
    (∃ text, fillOutputs env coinControl vecSend choices reserve nChange = .error (.thrown text)) ∨
      ∃ vout, fillOutputs env coinControl vecSend choices reserve nChange =
          .ok (vout, outputsReserve env coinControl choices reserve nChange) ∧
        (outputsReserve env coinControl choices reserve nChange).Holds env.newKey w := by
  unfold fillOutputs outputsReserve
  by_cases hchange : nChange > 0
  · simp only [hchange, if_true, changeScript]
    obtain ⟨result, holder, wallet, hreserved⟩ : ∃ result holder wallet,
        reserve.holder.getReservedKey env.newKey choices.keyPool reserve.wallet =
          (result, holder, wallet) := ⟨_, _, _, rfl⟩
    -- a destination of the caller needs no reservation
    have hreserves : (∃ text, result = .error text) ∨
        (∃ vchPubKey, result = .ok vchPubKey) ∧ KeyReserve.Holds env.newKey w ⟨holder, wallet⟩ := by
      cases result with
      | error text => exact .inl ⟨text, rfl⟩
      | ok vchPubKey => exact .inr ⟨⟨vchPubKey, rfl⟩, h.getReservedKey hw hreserved⟩
    cases coinControl.map CCoinControl.destChange with
    | some destChange =>
      cases destChange with
      | keyID id => exact .inr ⟨_, rfl, h⟩
      | scriptID id => exact .inr ⟨_, rfl, h⟩
      | noDestination =>
        simp only [hreserved]
        obtain ⟨text, rfl⟩ | ⟨⟨vchPubKey, rfl⟩, hholds⟩ := hreserves
        · exact .inl ⟨text, rfl⟩
        · exact .inr ⟨_, rfl, hholds⟩
    | none =>
      simp only [hreserved]
      obtain ⟨text, rfl⟩ | ⟨⟨vchPubKey, rfl⟩, hholds⟩ := hreserves
      · exact .inl ⟨text, rfl⟩
      · exact .inr ⟨_, rfl, hholds⟩
  · simp only [hchange, if_false]
    exact .inr ⟨_, rfl, h.returnKey⟩

/-- The round after its outputs are filled. -/
def finishRound (P : ChainParams) (env : SpendEnv) (view : SpendView) (wtxNew : CTransaction)
    (setCoins : Finset CoinRef) (nFeeRet : ℤ) (filled : List CTxOut × KeyReserve) :
    Except CreateStop ((ℤ × KeyReserve) ⊕ CreatedTx) := do
  let coins := coinOrder setCoins
  let tx ← coins.zipIdx.foldlM (signInput env view)
    { wtxNew with vin := coins.map (coinInput P view), vout := filled.1 }
  let nBytes := tx.getSerializeSize
  if nBytes ≥ MAX_BLOCK_SIZE_GEN / 5 then .error .returnsFalse
  else
    let nRequired ← requiredFee env tx nBytes
    if nFeeRet < nRequired then return .inl (nRequired, filled.2)
    else return .inr ⟨tx, nFeeRet, filled.2⟩

theorem createRound_eq (choices : RoundChoices) :
    createRound P env view coinControl vecSend wtxNew choices nValue nFeeRet reserve =
      match checked (nValue + nFeeRet) with
      | .error stop => .error stop
      | .ok nTotalValue =>
          match selectCoins view coinControl choices.selection nTotalValue wtxNew.nTime with
          | (false, _) => .error .returnsFalse
          | (true, selected) =>
              match checked (selected.nValueRet - nValue - nFeeRet) with
              | .error stop => .error stop
              | .ok nChange =>
                  match fillOutputs env coinControl vecSend choices reserve
                      (nChange - moveToFee nFeeRet nChange) with
                  | .error stop => .error stop
                  | .ok filled => finishRound P env view wtxNew selected.setCoinsRet
                      (nFeeRet + moveToFee nFeeRet nChange) filled := by
  have hok {α β : Type} (a : α) (f : α → Except CreateStop β) : (Except.ok a >>= f) = f a := rfl
  unfold createRound
  cases checked (nValue + nFeeRet) with
  | error stop => rfl
  | ok nTotalValue =>
    simp only [hok]
    cases selectCoins view coinControl choices.selection nTotalValue wtxNew.nTime with
    | mk fSelected selected =>
    cases fSelected with
    | false => rfl
    | true =>
      simp only [Bool.not_true, Bool.false_eq_true, if_false]
      cases checked (selected.nValueRet - nValue - nFeeRet) with
      | error stop => rfl
      | ok nChange =>
        simp only [hok]
        cases fillOutputs env coinControl vecSend choices reserve
          (nChange - moveToFee nFeeRet nChange) <;> rfl

/-- The fee and the reserved key that a round hands on. -/
def RoundHands (leaves : ℤ × KeyReserve) : Except CreateStop ((ℤ × KeyReserve) ⊕ CreatedTx) → Prop
  | .error _ => True
  | .ok (.inl (_, reserve)) => leaves.2 = reserve
  | .ok (.inr created) => leaves = (created.nFeeRet, created.reserve)

theorem finishRound_hands (setCoins : Finset CoinRef) (filled : List CTxOut × KeyReserve) :
    RoundHands (nFeeRet, filled.2) (finishRound P env view wtxNew setCoins nFeeRet filled) := by
  cases hfinish : finishRound P env view wtxNew setCoins nFeeRet filled with
  | error stop => trivial
  | ok result =>
    unfold finishRound at hfinish
    rw [bind_eq_ok] at hfinish
    obtain ⟨tx, -, hfinish⟩ := hfinish
    dsimp only at hfinish
    split at hfinish
    · cases hfinish
    · rw [bind_eq_ok] at hfinish
      obtain ⟨nRequired, -, hfinish⟩ := hfinish
      split at hfinish <;> cases hfinish <;> rfl

/-- A round that does not throw leaves a key that can be given back, and hands it on. -/
theorem createRound_leaves (choices : RoundChoices) (h : reserve.Holds env.newKey w) (hw : w.Positive)
    (hthrown : ∀ text, createRound P env view coinControl vecSend wtxNew choices nValue nFeeRet reserve ≠
      .error (.thrown text)) :
    (roundLeaves env view coinControl wtxNew choices nValue nFeeRet reserve).2.Holds env.newKey w ∧
      RoundHands (roundLeaves env view coinControl wtxNew choices nValue nFeeRet reserve)
        (createRound P env view coinControl vecSend wtxNew choices nValue nFeeRet reserve) := by
  rw [createRound_eq] at hthrown ⊢
  unfold roundLeaves
  revert hthrown
  cases checked (nValue + nFeeRet) with
  | error stop => exact fun _ ↦ ⟨h, trivial⟩
  | ok nTotalValue =>
    cases hselect : selectCoins view coinControl choices.selection nTotalValue wtxNew.nTime with
    | mk fSelected selected =>
    simp only [hselect]
    cases fSelected with
    | false => exact fun _ ↦ ⟨h, trivial⟩
    | true =>
      simp only [Bool.not_true, Bool.false_eq_true, if_false]
      cases checked (selected.nValueRet - nValue - nFeeRet) with
      | error stop => exact fun _ ↦ ⟨h, trivial⟩
      | ok nChange =>
        intro hthrown
        obtain ⟨text, hfill⟩ | ⟨vout, hfill, hholds⟩ := fillOutputs_cases coinControl vecSend
          choices h hw (nChange - moveToFee nFeeRet nChange)
        · simp only [hfill] at hthrown
          exact absurd rfl (hthrown text)
        · simp only [hfill]
          exact ⟨hholds, finishRound_hands selected.setCoinsRet _⟩

/-- What a call hands on when it ends. -/
def CallHands (leaves : ℤ × KeyReserve) : Except CreateStop CreatedTx → Prop
  | .error _ => True
  | .ok created => leaves = (created.nFeeRet, created.reserve)

variable {result : Except CreateStop CreatedTx}

theorem feeLoop_leaves {choices : ℕ → RoundChoices} (hw : w.Positive) (fuel nRound : ℕ)
    (h : reserve.Holds env.newKey w)
    (hloop : feeLoop P env view coinControl vecSend wtxNew choices nValue fuel nRound nFeeRet reserve =
      some result) (hthrown : ∀ text, result ≠ .error (.thrown text)) :
    (loopLeaves P env view coinControl vecSend wtxNew choices nValue fuel nRound nFeeRet
        reserve).2.Holds env.newKey w ∧
      CallHands (loopLeaves P env view coinControl vecSend wtxNew choices nValue fuel nRound nFeeRet
        reserve) result := by
  induction fuel generalizing nRound nFeeRet reserve with
  | zero => cases hloop
  | succ fuel ih =>
    unfold feeLoop at hloop
    unfold loopLeaves
    cases hround : createRound P env view coinControl vecSend wtxNew (choices nRound) nValue nFeeRet
        reserve with
    | error stop =>
      rw [hround] at hloop
      cases hloop
      obtain ⟨hholds, -⟩ := createRound_leaves (choices nRound) h hw fun text heq ↦
        hthrown text (by rw [hround] at heq; cases heq; rfl)
      exact ⟨hholds, trivial⟩
    | ok outcome =>
      have hleaves := createRound_leaves (choices nRound) h hw fun text heq ↦ by
        rw [hround] at heq
        cases heq
      rw [hround] at hloop hleaves
      cases outcome with
      | inl next =>
        obtain ⟨hholds, hhands⟩ := hleaves
        have hreserve : next.2.Holds env.newKey w := Eq.subst hhands hholds
        exact ih (nRound + 1) hreserve hloop
      | inr created =>
        cases hloop
        exact hleaves

theorem createTransaction_leaves {choices : ℕ → RoundChoices} (hw : w.Positive) (fuel : ℕ)
    (nFeeRequired : ℤ) (h : reserve.Holds env.newKey w)
    (hcreate : createTransaction P env view coinControl vecSend wtxNew choices fuel reserve = some result)
    (hthrown : ∀ text, result ≠ .error (.thrown text)) :
    (createLeaves P env view coinControl vecSend wtxNew choices fuel nFeeRequired reserve).2.Holds
        env.newKey w ∧
      CallHands (createLeaves P env view coinControl vecSend wtxNew choices fuel nFeeRequired reserve)
        result := by
  unfold createTransaction at hcreate
  unfold createLeaves
  cases htotal : totalValue vecSend with
  | error stop =>
    rw [htotal] at hcreate
    cases hcreate
    exact ⟨h, trivial⟩
  | ok nValue =>
    rw [htotal] at hcreate
    exact feeLoop_leaves hw fuel 0 h hcreate hthrown

end Reserve

/-! ## The coins -/

section Coins

variable {P : ChainParams} {env : SpendEnv} {view : SpendView} {vecSend : List (CScript × ℤ)}
  {wtxNew : CTransaction} {reserve : KeyReserve} {nValue nFeeRet : ℤ}

/-- Coins that are selected without coin control are available. -/
theorem mem_available_of_selectCoins {choices : ℕ → SelectionChoices} {nTargetValue : ℤ} {nSpendTime : ℕ}
    {selected : SelectedCoins} (h : selectCoins view none choices nTargetValue nSpendTime = (true, selected)) :
    ∀ coin ∈ selected.setCoinsRet, coin ∈ (availableCoins view none true).map COutput.ref := by
  have hminConf {round : SelectionChoices} {nConfMine nConfTheirs : ℤ}
      (hround : selectCoinsMinConf view.toWalletView round nTargetValue nSpendTime nConfMine nConfTheirs
        (availableCoins view none true) = (true, selected)) :
      ∀ coin ∈ selected.setCoinsRet, coin ∈ (availableCoins view none true).map COutput.ref := by
    obtain ⟨fOk, selected', hrun, htrue, -⟩ := selectCoinsMinConf_cases round nTargetValue nSpendTime
      nConfMine nConfTheirs (availableCoins_nodup true) nValue_lt_of_mem_availableCoins
    obtain ⟨rfl, rfl⟩ := Prod.mk.inj (hround.symm.trans hrun)
    intro coin hcoin
    have hin := (htrue rfl).1 coin hcoin
    rw [eligibleCoins, List.map_map, List.mem_map] at hin
    obtain ⟨output, houtput, rfl⟩ := hin
    have hshuffled := (List.mem_filter.mp houtput).1
    exact List.mem_map_of_mem ((round.shuffle_perm _).mem_iff.mp hshuffled)
  unfold selectCoins at h
  simp only [hasSelected, Option.any_none, Bool.false_eq_true, if_false] at h
  split at h
  · exact hminConf h
  · split at h
    · exact hminConf h
    · exact hminConf h

/-- An available output is not spent. -/
theorem isSpent_of_mem_available {coin : CoinRef}
    (h : coin ∈ (availableCoins view none true).map COutput.ref) :
    ∃ entry ∈ view.mapWallet, coin.1 = entry.2 ∧ coin.2 < (view.wtx entry.2).vout.length ∧
      (view.wtx entry.2).isSpent coin.2 = false := by
  obtain ⟨output, houtput, rfl⟩ := List.mem_map.mp h
  obtain ⟨entry, hentry, hmem⟩ := List.mem_flatMap.mp houtput
  obtain ⟨htx, hlt⟩ := tx_of_mem_availableOutputs (List.mem_map_of_mem hmem)
  refine ⟨entry, hentry, htx, hlt, ?_⟩
  unfold availableOutputs at hmem
  simp only at hmem
  split at hmem
  · cases hmem
  · obtain ⟨i, hi, rfl⟩ := List.mem_map.mp hmem
    have havailable := (List.mem_filter.mp hi).2
    unfold isAvailable at havailable
    split at havailable
    · cases havailable
    · simp only [Bool.and_eq_true, Bool.not_eq_true'] at havailable
      exact havailable.1.1.1

/-- Each input spends an available coin. -/
def SpendsAvailable (P : ChainParams) (view : SpendView) (created : CreatedTx) : Prop :=
  ∀ prevout ∈ created.wtxNew.vin.map CTxIn.prevout,
    ∃ coin ∈ (availableCoins view none true).map COutput.ref, (coinInput P view coin).prevout = prevout

variable {created : CreatedTx}

theorem createRound_spends {choices : RoundChoices}
    (h : createRound P env view none vecSend wtxNew choices nValue nFeeRet reserve = .ok (.inr created)) :
    SpendsAvailable P view created := by
  rw [createRound_eq] at h
  split at h
  · cases h
  split at h
  · cases h
  next selected hselect =>
  split at h
  · cases h
  split at h
  · cases h
  unfold finishRound at h
  rw [bind_eq_ok] at h
  obtain ⟨tx, hsign, h⟩ := h
  obtain ⟨hprevouts, -, -⟩ := signInputs_spec hsign
  have htx : created.wtxNew = tx := by
    dsimp only at h
    split at h
    · cases h
    · rw [bind_eq_ok] at h
      obtain ⟨nRequired, -, h⟩ := h
      split at h <;> cases h
      rfl
  intro prevout hprevout
  rw [htx, hprevouts, List.map_map, List.mem_map] at hprevout
  obtain ⟨coin, hcoin, rfl⟩ := hprevout
  exact ⟨coin, mem_available_of_selectCoins hselect coin (mem_coinOrder.mp hcoin), rfl⟩

theorem feeLoop_spends {choices : ℕ → RoundChoices} (fuel nRound : ℕ)
    (h : feeLoop P env view none vecSend wtxNew choices nValue fuel nRound nFeeRet reserve =
      some (.ok created)) : SpendsAvailable P view created := by
  induction fuel generalizing nRound nFeeRet reserve with
  | zero => cases h
  | succ fuel ih =>
    unfold feeLoop at h
    cases hround : createRound P env view none vecSend wtxNew (choices nRound) nValue nFeeRet reserve with
    | error stop =>
      rw [hround] at h
      cases h
    | ok outcome =>
      rw [hround] at h
      cases outcome with
      | inl next => exact ih (nRound + 1) h
      | inr created' =>
        cases h
        exact createRound_spends hround

/-- A transaction that is created spends some coin that the wallet has not marked as spent. -/
theorem exists_unspent_of_created {choices : ℕ → RoundChoices} {fuel : ℕ}
    (h : createTransaction P env view none vecSend wtxNew choices fuel reserve = some (.ok created)) :
    ∃ coin, (coinInput P view coin).prevout ∈ created.wtxNew.vin.map CTxIn.prevout ∧
      ∃ entry ∈ view.mapWallet, coin.1 = entry.2 ∧ coin.2 < (view.wtx entry.2).vout.length ∧
        (view.wtx entry.2).isSpent coin.2 = false := by
  obtain ⟨setCoins, nChange, hchange, hpays, -⟩ := (createTransaction_paysFor P env view none vecSend
    wtxNew choices reserve).2 fuel created h
  unfold createTransaction at h
  cases htotal : totalValue vecSend with
  | error stop =>
    rw [htotal] at h
    cases h
  | ok nValue =>
    rw [htotal] at h
    obtain ⟨rfl, hnonneg, -⟩ := totalValue_eq_ok htotal
    have hspends := feeLoop_spends fuel 0 h
    have hfee : 0 < created.nFeeRet := calc
      0 < MIN_RELAY_TX_FEE := by decide
      _ ≤ created.wtxNew.getMinFee 1000 .gmfRelay created.wtxNew.getSerializeSize :=
        minRelayTxFee_le_getMinFee _ _
      _ ≤ created.nFeeRet := hpays.fee
    have hne : setCoins.Nonempty := by
      apply Finset.nonempty_of_sum_ne_zero (f := view.nValue)
      have hvalue := hpays.value
      omega
    obtain ⟨coin, hcoin⟩ := hne
    have hmem : (coinInput P view coin).prevout ∈ created.wtxNew.vin.map CTxIn.prevout := by
      rw [hpays.inputs]
      exact List.mem_map_of_mem (mem_coinOrder.mpr hcoin)
    obtain ⟨coin', havailable, hsame⟩ := hspends _ hmem
    rw [← hsame] at hmem
    exact ⟨coin', hmem, isSpent_of_mem_available havailable⟩

end Coins

end Electra.Wallet

import Electra.Chain.Builders
import Electra.Wallet.KeyTopUp

/-!
# Payments conserve value

The fee loop ends, since the fee grows up to a bound.  A transaction that it creates takes different
coins of the wallet, whose values are the payees, the change and the fee; the change goes to the address
of the coin control or to the reserved key, and the fee is one that the memory pool accepts.
-/

namespace Electra.Wallet

open Chain Foundations.MachineInt Foundations.Outcome

variable {P : ChainParams} {env : SpendEnv} {view : SpendView} {coinControl : Option CCoinControl}
  {vecSend : List (CScript × ℤ)} {wtxNew tx : CTransaction} {n nValue nFeeRet nChange : ℤ}

@[simp]
theorem checked_eq_ok {m : ℤ} : checked n = .ok m ↔ InInt64 n ∧ n = m := by
  unfold checked
  by_cases h : InInt64 n <;> simp [h]

theorem totalValue_eq_ok (h : totalValue vecSend = .ok nValue) :
    nValue = (vecSend.map Prod.snd).sum ∧ 0 ≤ nValue ∧ vecSend ≠ [] := by
  rw [totalValue, bind_eq_ok] at h
  obtain ⟨total, hsum, hend⟩ := h
  have htotal : total = (vecSend.map Prod.snd).sum := by
    refine foldlM_processed (fun pre nValue ↦ nValue = (pre.map Prod.snd).sum) ?_ rfl hsum
    intro pre s post n n' hl hinv hstep
    split at hstep
    · cases hstep
    · rw [checked_eq_ok] at hstep
      rw [← hstep.2, hinv, List.map_append, List.sum_append, List.map_singleton, List.sum_singleton]
  split at hend
  · cases hend
  · next hcond =>
    rw [pure_eq_ok] at hend
    rw [Bool.or_eq_true, not_or, List.isEmpty_iff, decide_eq_true_eq, not_lt, hend] at hcond
    exact ⟨hend ▸ htotal, hcond.2, hcond.1⟩

theorem moveToFee_nonneg (nFeeRet nChange : ℤ) : 0 ≤ moveToFee nFeeRet nChange := by
  unfold moveToFee
  split
  · next h => exact le_min h.2.1.le (by omega)
  · exact le_rfl

theorem moveToFee_le (nFeeRet : ℤ) (h : 0 ≤ nChange) : moveToFee nFeeRet nChange ≤ nChange := by
  unfold moveToFee
  split
  · exact min_le_left _ _
  · exact h

theorem availableOutputs_nodup (fOnlyConfirmed : Bool) (entry : Uint256 × ℕ) :
    ((availableOutputs view coinControl fOnlyConfirmed entry).map COutput.ref).Nodup := by
  unfold availableOutputs
  simp only
  split
  · exact List.nodup_nil
  · rw [List.map_map]
    apply List.Nodup.map _ (List.nodup_range.filter _)
    intro i j hij
    exact congrArg Prod.snd hij

/-- Outputs of one transaction. -/
theorem tx_of_mem_availableOutputs {fOnlyConfirmed : Bool} {entry : Uint256 × ℕ} {ref : CoinRef}
    (h : ref ∈ (availableOutputs view coinControl fOnlyConfirmed entry).map COutput.ref) :
    ref.1 = entry.2 ∧ ref.2 < (view.wtx entry.2).vout.length := by
  unfold availableOutputs at h
  simp only at h
  split at h
  · cases h
  · rw [List.map_map, List.mem_map] at h
    obtain ⟨i, hi, rfl⟩ := h
    exact ⟨rfl, List.mem_range.mp (List.mem_of_mem_filter hi)⟩

theorem availableCoins_nodup (fOnlyConfirmed : Bool) :
    ((availableCoins view coinControl fOnlyConfirmed).map COutput.ref).Nodup := by
  rw [availableCoins, List.map_flatMap, List.nodup_flatMap]
  constructor
  · intro entry _
    exact availableOutputs_nodup fOnlyConfirmed entry
  · have hpointers := view.pointers_nodup
    rw [List.Nodup, List.pairwise_map] at hpointers
    apply hpointers.imp
    intro entry entry' hne ref href href'
    exact hne ((tx_of_mem_availableOutputs href).1.symm.trans (tx_of_mem_availableOutputs href').1)

theorem nValue_lt_of_mem_availableCoins {fOnlyConfirmed : Bool} :
    ∀ output ∈ availableCoins view coinControl fOnlyConfirmed, view.nValue output.ref < int64Max := by
  intro output houtput
  obtain ⟨entry, hentry, hmem⟩ := List.mem_flatMap.mp houtput
  obtain ⟨htx, hlt⟩ := tx_of_mem_availableOutputs (List.mem_map_of_mem hmem)
  have hmoney := view.moneyRange entry hentry _ (List.getElem_mem hlt)
  rw [Chain.moneyRange, Bool.and_eq_true, decide_eq_true_eq, decide_eq_true_eq] at hmoney
  have hvalue : view.nValue output.ref = ((view.wtx entry.2).vout.get ⟨output.ref.2, hlt⟩).nValue := by
    rw [WalletView.nValue, htx, List.getElem?_eq_getElem hlt]
    rfl
  rw [hvalue]
  exact hmoney.2.trans_lt (by decide)

/-- What a selection that succeeds gives. -/
structure SelectsFor (view : SpendView) (coinControl : Option CCoinControl) (nTargetValue : ℤ)
    (nSpendTime : ℕ) (selected : SelectedCoins) : Prop where
  sum : ∑ ref ∈ selected.setCoinsRet, view.nValue ref = selected.nValueRet
  reached : nTargetValue ≤ selected.nValueRet
  time : hasSelected coinControl = false → ∀ ref ∈ selected.setCoinsRet, (view.wtx ref.1).nTime ≤ nSpendTime

theorem selectsFor_minConf {choices : SelectionChoices} {nTargetValue nConfMine nConfTheirs : ℤ}
    {nSpendTime : ℕ} {selected : SelectedCoins}
    (h : selectCoinsMinConf view.toWalletView choices nTargetValue nSpendTime nConfMine nConfTheirs
      (availableCoins view coinControl true) = (true, selected)) :
    SelectsFor view coinControl nTargetValue nSpendTime selected := by
  obtain ⟨fOk, selected', hrun, htrue, -⟩ := selectCoinsMinConf_cases choices nTargetValue nSpendTime
    nConfMine nConfTheirs (availableCoins_nodup true) nValue_lt_of_mem_availableCoins
  obtain ⟨rfl, rfl⟩ := Prod.mk.inj (h.symm.trans hrun)
  obtain ⟨hmem, hsum, hreached⟩ := htrue rfl
  refine ⟨hsum, hreached, fun _ ref href ↦ ?_⟩
  have hin := hmem ref href
  rw [eligibleCoins, List.map_map, List.mem_map] at hin
  obtain ⟨output, houtput, rfl⟩ := hin
  have heligible := (List.mem_filter.mp houtput).2
  simp only [eligible, Bool.not_eq_true', Bool.or_eq_false_iff, decide_eq_false_iff_not, not_lt] at heligible
  exact heligible.2

theorem selectCoins_spec {choices : ℕ → SelectionChoices} {nTargetValue : ℤ} {nSpendTime : ℕ}
    {selected : SelectedCoins}
    (h : selectCoins view coinControl choices nTargetValue nSpendTime = (true, selected)) :
    SelectsFor view coinControl nTargetValue nSpendTime selected := by
  unfold selectCoins at h
  simp only at h
  split at h
  · next hselected =>
    obtain ⟨hreached, rfl⟩ := Prod.mk.inj h
    rw [decide_eq_true_eq] at hreached
    let coins := (availableCoins view coinControl true).map fun out ↦ (view.nValue out.ref, out.ref)
    have hfold : (availableCoins view coinControl true).foldl
        (fun selected out ↦ selected.add (view.nValue out.ref, out.ref)) .none =
          coins.foldl SelectedCoins.add .none := List.foldl_map.symm
    have hnodup : (coins.map Prod.snd).Nodup := by
      rw [List.map_map]
      exact availableCoins_nodup true
    have hvalue : ∀ coin ∈ coins, coin.1 = view.nValue coin.2 := by
      intro coin hcoin
      obtain ⟨out, -, rfl⟩ := List.mem_map.mp hcoin
      rfl
    have hsum : (coins.foldl SelectedCoins.add .none).nValueRet = (coins.map Prod.fst).sum := by
      rw [foldl_add]
    rw [hfold] at hreached ⊢
    have hall := selects_foldl_add hnodup hvalue (List.Subperm.refl coins) (hsum ▸ hreached)
    exact ⟨hall.sum, hall.reached, fun hnone ↦ absurd hselected (hnone ▸ Bool.false_ne_true)⟩
  · split at h
    · exact selectsFor_minConf h
    · split at h
      · exact selectsFor_minConf h
      · exact selectsFor_minConf h

theorem mem_coinOrder {setCoins : Finset CoinRef} {coin : CoinRef} :
    coin ∈ coinOrder setCoins ↔ coin ∈ setCoins := by
  simp [coinOrder]

namespace KeyReserve

/-- A reserved index has its record in the pool, which holds the reserved key. -/
def Held (reserve : KeyReserve) : Prop :=
  reserve.holder.nIndex ≠ -1 →
    (reserve.wallet.pool reserve.holder.nIndex).map CKeyPool.vchPubKey = some reserve.holder.vchPubKey

/-- What the rounds of a call keep of the reservation that it began with. -/
structure Follows (before reserve : KeyReserve) : Prop where
  vchDefaultKey : reserve.wallet.vchDefaultKey = before.wallet.vchDefaultKey
  held : before.Held → reserve.Held

end KeyReserve

/-- The key of a reservation, which is that of the pool's record under the reserved index, or the default
key if the pool had none. -/
structure HasReserved (before : KeyReserve) (vchPubKey : CPubKey) (reserve : KeyReserve) : Prop where
  holder : reserve.holder.vchPubKey = vchPubKey
  valid : vchPubKey.isValid = true
  record : before.Held → reserve.holder.nIndex ≠ -1 →
    (reserve.wallet.pool reserve.holder.nIndex).map CKeyPool.vchPubKey = some vchPubKey
  pool : reserve.holder.nIndex = -1 → vchPubKey = before.wallet.vchDefaultKey

variable {before reserve reserve' : KeyReserve}

theorem KeyReserve.follows_reserve {newKey : ℕ → CPubKey} {keyEnv : KeyPoolEnv} {w : KeyWallet}
    (h : (w.reserveKeyFromKeyPool newKey keyEnv).thrown = none) {vchPubKey : CPubKey}
    (hkey : (w.reserveKeyFromKeyPool newKey keyEnv).nIndex ≠ -1 →
      vchPubKey = (w.reserveKeyFromKeyPool newKey keyEnv).keypool.vchPubKey) (holder : CReserveKey) :
    Follows ⟨holder, w⟩ ⟨⟨(w.reserveKeyFromKeyPool newKey keyEnv).nIndex, vchPubKey⟩,
      (w.reserveKeyFromKeyPool newKey keyEnv).wallet⟩ := by
  obtain ⟨w₁, htopped, ⟨hnone, hwallet, -⟩ | ⟨-, hwallet, hrecord⟩⟩ := KeyWallet.takes_of_toppedUp h
  · exact ⟨hwallet ▸ htopped.vchDefaultKey, fun _ hne ↦ absurd hnone hne⟩
  · refine ⟨hwallet ▸ htopped.vchDefaultKey, fun _ hne ↦ ?_⟩
    simp only [hwallet]
    apply hrecord
    simp only [Reservation.pubkey, h, if_neg hne, hkey hne, Option.mem_some_iff]

theorem hasReserved_getReservedKey {newKey : ℕ → CPubKey} {keyEnv : KeyPoolEnv} {vchPubKey : CPubKey}
    (hbefore : before.Follows reserve) (h : reserve.holder.getReservedKey newKey keyEnv reserve.wallet =
      (.ok vchPubKey, reserve'.holder, reserve'.wallet)) :
    HasReserved before vchPubKey reserve' ∧ before.Follows reserve' := by
  obtain ⟨hsame, hholder, hvalid, hpool⟩ : reserve.Follows reserve' ∧
      reserve'.holder.vchPubKey = vchPubKey ∧ vchPubKey.isValid = true ∧
        (reserve'.holder.nIndex = -1 → vchPubKey = reserve.wallet.vchDefaultKey) := by
    have hcheck : ∀ pubkey : CPubKey, (if pubkey.isValid then Except.ok pubkey
        else .error "vchPubKey.IsValid()") = .ok vchPubKey → pubkey.isValid = true ∧ pubkey = vchPubKey := by
      intro pubkey hpubkey
      split at hpubkey
      · next hvalid => exact ⟨hvalid, Except.ok.inj hpubkey⟩
      · cases hpubkey
    obtain ⟨holder', wallet'⟩ := reserve'
    unfold CReserveKey.getReservedKey at h
    split at h
    · simp only at h
      split at h
      · cases h
      · next hthrown =>
        obtain ⟨hkey, hrest⟩ := Prod.mk.inj h
        obtain ⟨rfl, rfl⟩ := Prod.mk.inj hrest
        obtain ⟨hvalid, rfl⟩ := hcheck _ hkey
        exact ⟨KeyReserve.follows_reserve hthrown (fun hne ↦ if_neg hne) reserve.holder, rfl, hvalid,
          fun hnone ↦ if_pos hnone⟩
    · next hindex =>
      obtain ⟨hkey, hrest⟩ := Prod.mk.inj h
      obtain ⟨rfl, rfl⟩ := Prod.mk.inj hrest
      obtain ⟨hvalid, rfl⟩ := hcheck _ hkey
      exact ⟨⟨rfl, id⟩, rfl, hvalid, fun hnone ↦ absurd hnone hindex⟩
  have hfollows : before.Follows reserve' :=
    ⟨hsame.vchDefaultKey.trans hbefore.vchDefaultKey, hsame.held ∘ hbefore.held⟩
  exact ⟨⟨hholder, hvalid, fun hheld hne ↦ hholder ▸ hfollows.held hheld hne,
    fun hnone ↦ (hpool hnone).trans hbefore.vchDefaultKey⟩, hfollows⟩

/-- The script of the change: for the address of the coin control, or else for the reserved key. -/
def IsChangeScript (env : SpendEnv) (coinControl : Option CCoinControl) (before reserve : KeyReserve)
    (scriptChange : CScript) : Prop :=
  match coinControl.map CCoinControl.destChange with
  | some (.keyID id) => scriptChange = scriptFor (.keyID id)
  | some (.scriptID id) => scriptChange = scriptFor (.scriptID id)
  | some .noDestination | none => ∃ vchPubKey, HasReserved before vchPubKey reserve ∧
      scriptChange = scriptFor (.keyID (env.getID vchPubKey.vchPubKey))

theorem changeScript_spec {choices : RoundChoices} {scriptChange : CScript}
    (hbefore : before.Follows reserve)
    (h : changeScript env coinControl choices reserve = .ok (scriptChange, reserve')) :
    IsChangeScript env coinControl before reserve' scriptChange ∧ before.Follows reserve' := by
  have hpool : ∀ vchPubKey rest,
      reserve.holder.getReservedKey env.newKey choices.keyPool reserve.wallet = (.ok vchPubKey, rest) →
      (∃ vchPubKey', HasReserved before vchPubKey' ⟨rest.1, rest.2⟩ ∧
        scriptFor (.keyID (env.getID vchPubKey.vchPubKey)) =
          scriptFor (.keyID (env.getID vchPubKey'.vchPubKey))) ∧
      before.Follows ⟨rest.1, rest.2⟩ := by
    intro vchPubKey rest hrun
    have hreserved := @hasReserved_getReservedKey before reserve ⟨rest.1, rest.2⟩ env.newKey
      choices.keyPool vchPubKey hbefore hrun
    exact ⟨⟨vchPubKey, hreserved.1, rfl⟩, hreserved.2⟩
  unfold changeScript at h
  unfold IsChangeScript
  generalize coinControl.map CCoinControl.destChange = dest at h ⊢
  cases hrun : reserve.holder.getReservedKey env.newKey choices.keyPool reserve.wallet with
  | mk outcome rest =>
    rw [hrun] at h
    cases dest with
    | none =>
      cases outcome with
      | error text => cases h
      | ok vchPubKey =>
        cases h
        exact hpool vchPubKey rest hrun
    | some dest =>
      cases dest with
      | keyID id =>
        cases h
        exact ⟨rfl, hbefore⟩
      | scriptID id =>
        cases h
        exact ⟨rfl, hbefore⟩
      | noDestination =>
        cases outcome with
        | error text => cases h
        | ok vchPubKey =>
          cases h
          exact hpool vchPubKey rest hrun

/-- The outputs are the payees, and the change if there is any. -/
def PaysChange (env : SpendEnv) (coinControl : Option CCoinControl) (vecSend : List (CScript × ℤ))
    (before reserve : KeyReserve) (nChange : ℤ) (vout : List CTxOut) : Prop :=
  nChange = 0 ∧ vout = payees vecSend ∨
  0 < nChange ∧ ∃ position scriptChange, position < (payees vecSend).length ∧
    vout = (payees vecSend).insertIdx position ⟨nChange, scriptChange⟩ ∧
    IsChangeScript env coinControl before reserve scriptChange

theorem fillOutputs_spec {choices : RoundChoices} {vout : List CTxOut} (hbefore : before.Follows reserve)
    (hpayees : vecSend ≠ []) (hchange : 0 ≤ nChange)
    (h : fillOutputs env coinControl vecSend choices reserve nChange = .ok (vout, reserve')) :
    PaysChange env coinControl vecSend before reserve' nChange vout ∧ before.Follows reserve' := by
  unfold fillOutputs at h
  simp only at h
  split at h
  · next hpos =>
    rw [bind_eq_ok] at h
    obtain ⟨⟨scriptChange, reserve₁⟩, hscript, hend⟩ := h
    cases hend
    obtain ⟨hchangeScript, hfollows⟩ := changeScript_spec hbefore hscript
    have hlength : 0 < (payees vecSend).length := by
      rw [payees, List.length_map]
      exact List.length_pos_of_ne_nil hpayees
    exact ⟨.inr ⟨hpos, _, scriptChange, choices.getRandInt_lt _ hlength, rfl, hchangeScript⟩, hfollows⟩
  · next hnone =>
    cases h
    refine ⟨.inl ⟨by omega, rfl⟩, .trans ?_ hbefore.vchDefaultKey, fun _ hne ↦ absurd rfl hne⟩
    show (reserve.holder.returnKey reserve.wallet).2.vchDefaultKey = _
    unfold CReserveKey.returnKey
    split <;> rfl

theorem signInputs_spec {coins : List (CoinRef × ℕ)} {tx' : CTransaction}
    (h : coins.foldlM (signInput env view) tx = .ok tx') :
    tx'.vin.map CTxIn.prevout = tx.vin.map CTxIn.prevout ∧ tx'.vout = tx.vout ∧ tx'.nTime = tx.nTime := by
  refine foldlM_invariant (fun t ↦ t.vin.map CTxIn.prevout = tx.vin.map CTxIn.prevout ∧
    t.vout = tx.vout ∧ t.nTime = tx.nTime) ?_ ⟨rfl, rfl, rfl⟩ h
  intro coin _ t t' hinv hstep
  unfold signInput at hstep
  split at hstep
  · cases hstep
  · cases hstep
    exact ⟨(map_prevout_modify _ _ _).trans hinv.1, hinv.2⟩

/-- Sizes that are not refused: the memory pool asks for the fee that the loop does. -/
theorem getMinFee_small {nBytes : ℕ} (h : nBytes < MAX_BLOCK_SIZE_GEN / 5) :
    tx.getMinFee 1 .gmfSend nBytes = (1 + (nBytes : ℤ) / 1000) * MIN_TX_FEE ∧
      tx.getMinFee 1000 .gmfRelay nBytes = (1 + (nBytes : ℤ) / 1000) * MIN_TX_FEE := by
  have hbytes : nBytes < 100000 := h
  have hbase : ¬ (1 + (nBytes : ℤ) / 1000) * MIN_TX_FEE < MIN_TX_FEE := by
    unfold MIN_TX_FEE
    omega
  have hhalf : ¬ 1000 + nBytes ≥ MAX_BLOCK_SIZE_GEN / 2 := by
    show ¬ 1000 + nBytes ≥ 250000
    omega
  have hmoney : Chain.moneyRange ((1 + (nBytes : ℤ) / 1000) * MIN_TX_FEE) = true := by
    have hmax : MAX_TX = 3000000000000000000 := by decide
    rw [Chain.moneyRange, Bool.and_eq_true, decide_eq_true_eq, decide_eq_true_eq, hmax]
    unfold MIN_TX_FEE
    omega
  constructor
  · simp [CTransaction.getMinFee, hbase, hmoney]
  · simp [CTransaction.getMinFee, MIN_RELAY_TX_FEE, hbase, hhalf, hmoney]

/-- No fee of the loop is larger. -/
def maxFee (env : SpendEnv) : ℤ := 100 * max env.nTransactionFee MIN_TX_FEE

theorem requiredFee_spec {nBytes : ℕ} {nRequired : ℤ} (hbytes : nBytes < MAX_BLOCK_SIZE_GEN / 5)
    (h : requiredFee env tx nBytes = .ok nRequired) :
    tx.getMinFee 1000 .gmfRelay nBytes ≤ nRequired ∧ nRequired ≤ maxFee env := by
  unfold requiredFee at h
  simp only [bind_eq_ok, checked_eq_ok, pure_eq_ok] at h
  obtain ⟨nPayFee, ⟨-, rfl⟩, rfl⟩ := h
  obtain ⟨hsend, hrelay⟩ := @getMinFee_small tx nBytes hbytes
  have hlt : nBytes < 100000 := hbytes
  have hfactor : 0 ≤ 1 + (nBytes : ℤ) / 1000 ∧ 1 + (nBytes : ℤ) / 1000 ≤ 100 := by omega
  have hlarge : 0 ≤ max env.nTransactionFee MIN_TX_FEE := le_max_of_le_right (by decide)
  have hbound : ∀ fee ≤ max env.nTransactionFee MIN_TX_FEE,
      (1 + (nBytes : ℤ) / 1000) * fee ≤ maxFee env := by
    intro fee hfee
    calc
      (1 + (nBytes : ℤ) / 1000) * fee ≤ (1 + (nBytes : ℤ) / 1000) * max env.nTransactionFee MIN_TX_FEE :=
        mul_le_mul_of_nonneg_left hfee hfactor.1
      _ ≤ 100 * max env.nTransactionFee MIN_TX_FEE := mul_le_mul_of_nonneg_right hfactor.2 hlarge
  rw [hsend, hrelay]
  refine ⟨le_max_right _ _, max_le ?_ ?_⟩
  · rw [mul_comm]
    exact hbound _ (le_max_left _ _)
  · exact hbound _ (le_max_right _ _)

/-- What is paid by a transaction that a call created. -/
structure PaysFor (P : ChainParams) (env : SpendEnv) (view : SpendView) (coinControl : Option CCoinControl)
    (vecSend : List (CScript × ℤ)) (before : KeyReserve) (created : CreatedTx)
    (setCoins : Finset CoinRef) (nChange : ℤ) : Prop where
  inputs : created.wtxNew.vin.map CTxIn.prevout =
    (coinOrder setCoins).map fun coin ↦ (coinInput P view coin).prevout
  value : ∑ coin ∈ setCoins, view.nValue coin =
    (vecSend.map Prod.snd).sum + nChange + created.nFeeRet
  change : PaysChange env coinControl vecSend before created.reserve nChange created.wtxNew.vout
  fee : created.wtxNew.getMinFee 1000 .gmfRelay created.wtxNew.getSerializeSize ≤ created.nFeeRet
  time : hasSelected coinControl = false →
    ∀ coin ∈ setCoins, (view.wtx coin.1).nTime ≤ created.wtxNew.nTime

/-- What a round gives: a larger fee for the next one, or the transaction. -/
def RoundResult (P : ChainParams) (env : SpendEnv) (view : SpendView) (coinControl : Option CCoinControl)
    (vecSend : List (CScript × ℤ)) (before : KeyReserve) (nFeeRet : ℤ) :
    (ℤ × KeyReserve) ⊕ CreatedTx → Prop
  | .inl (nFeeRet', reserve) => nFeeRet < nFeeRet' ∧ nFeeRet' ≤ maxFee env ∧ before.Follows reserve
  | .inr created => ∃ setCoins nChange,
      PaysFor P env view coinControl vecSend before created setCoins nChange

theorem createRound_spec {choices : RoundChoices} {result : (ℤ × KeyReserve) ⊕ CreatedTx}
    (hbefore : before.Follows reserve) (hpayees : vecSend ≠ [])
    (h : createRound P env view coinControl vecSend wtxNew choices (vecSend.map Prod.snd).sum nFeeRet
      reserve = .ok result) :
    RoundResult P env view coinControl vecSend before nFeeRet result := by
  unfold createRound at h
  rw [bind_eq_ok] at h
  obtain ⟨nTotalValue, htotal, h⟩ := h
  obtain ⟨-, rfl⟩ := checked_eq_ok.mp htotal
  cases hselect : selectCoins view coinControl choices.selection ((vecSend.map Prod.snd).sum + nFeeRet)
    wtxNew.nTime with | mk fSelected selected =>
  simp only [hselect] at h
  cases fSelected with
  | false => cases h
  | true =>
    have hselects := selectCoins_spec hselect
    simp only [Bool.not_true, Bool.false_eq_true, if_false] at h
    rw [bind_eq_ok] at h
    obtain ⟨nChange, hchange, h⟩ := h
    obtain ⟨-, hvalue⟩ := checked_eq_ok.mp hchange
    have hreached := hselects.reached
    have hmove := moveToFee_le nFeeRet (by omega : 0 ≤ nChange)
    have hraise := moveToFee_nonneg nFeeRet nChange
    generalize moveToFee nFeeRet nChange = nMoveToFee at h hmove hraise
    rw [bind_eq_ok] at h
    obtain ⟨⟨vout, reserve'⟩, houtputs, h⟩ := h
    obtain ⟨hpays, hfollows⟩ := fillOutputs_spec hbefore hpayees (by omega) houtputs
    rw [bind_eq_ok] at h
    obtain ⟨tx, hsign, h⟩ := h
    obtain ⟨hprevouts, hvout, htime⟩ := signInputs_spec hsign
    split at h
    · cases h
    · next hsize =>
      rw [bind_eq_ok] at h
      obtain ⟨nRequired, hrequired, h⟩ := h
      obtain ⟨hfee, hmax⟩ := requiredFee_spec (not_le.mp hsize) hrequired
      split at h
      · next hless =>
        cases h
        exact ⟨by omega, hmax, hfollows⟩
      · next henough =>
        cases h
        refine ⟨selected.setCoinsRet, nChange - nMoveToFee, ?_, ?_, ?_, ?_, ?_⟩
        · rw [hprevouts, List.map_map]
          rfl
        · rw [hselects.sum]
          show _ = _ + (nFeeRet + nMoveToFee)
          omega
        · exact hvout ▸ hpays
        · exact hfee.trans (not_lt.mp henough)
        · intro hnone coin hcoin
          exact (hselects.time hnone coin hcoin).trans htime.ge

variable {choices : ℕ → RoundChoices}

/-- The loop ends, since every round raises the fee and no fee is larger than the bound. -/
theorem feeLoop_terminates (hpayees : vecSend ≠ []) (fuel nRound : ℕ)
    (hfuel : (maxFee env - nFeeRet).toNat < fuel) :
    feeLoop P env view coinControl vecSend wtxNew choices (vecSend.map Prod.snd).sum fuel nRound nFeeRet
      reserve ≠ none := by
  induction fuel generalizing nRound nFeeRet reserve with
  | zero => exact absurd hfuel (Nat.not_lt_zero _)
  | succ fuel ih =>
    unfold feeLoop
    cases hround : createRound P env view coinControl vecSend wtxNew (choices nRound)
        (vecSend.map Prod.snd).sum nFeeRet reserve with
    | error stop => exact Option.some_ne_none _
    | ok result =>
      match result, createRound_spec ⟨rfl, id⟩ hpayees hround with
      | .inl (nFeeRet', reserve'), hresult =>
        obtain ⟨hraised, hmax, -⟩ := hresult
        exact ih (nRound + 1) (by omega)
      | .inr created, _ => exact Option.some_ne_none _

theorem feeLoop_spec (hbefore : before.Follows reserve) (hpayees : vecSend ≠ []) (fuel nRound : ℕ)
    {created : CreatedTx}
    (h : feeLoop P env view coinControl vecSend wtxNew choices (vecSend.map Prod.snd).sum fuel nRound
      nFeeRet reserve = some (.ok created)) :
    ∃ setCoins nChange, PaysFor P env view coinControl vecSend before created setCoins nChange := by
  induction fuel generalizing nRound nFeeRet reserve with
  | zero => cases h
  | succ fuel ih =>
    unfold feeLoop at h
    cases hround : createRound P env view coinControl vecSend wtxNew (choices nRound)
        (vecSend.map Prod.snd).sum nFeeRet reserve with
    | error stop =>
      rw [hround] at h
      cases h
    | ok result =>
      rw [hround] at h
      match result, createRound_spec hbefore hpayees hround with
      | .inl (nFeeRet', reserve'), hresult => exact ih hresult.2.2 (nRound + 1) h
      | .inr created', hresult =>
        cases h
        exact hresult

def timestampReject : Reject :=
  dos 100 "ConnectInputs() : transaction timestamp earlier than input transaction"

theorem checkInput_ne_timestamp {inputs : MapPrevTx} {pindexBlock : PIndex} {prevout : COutPoint}
    (h : ∀ prev, inputs prevout.hash = some prev → prev.2.nTime ≤ tx.nTime) (nValueIn : ℤ) :
    checkInput inputs pindexBlock tx nValueIn prevout ≠ .error timestampReject := by
  intro hfail
  unfold checkInput at hfail
  obtain hfail | ⟨prev, hprev, hfail⟩ := bind_eq_error.mp hfail
  · exact require_ne_error (by decide) hfail
  · rw [require_eq_ok] at hprev
    revert hfail
    apply bind_ne_error (rejectIf_ne_error (by decide))
    intro _
    apply bind_ne_error (rejectIf_ne_error (by decide))
    intro _
    apply bind_ne_error
    · rw [ne_eq, rejectIf_eq_error]
      exact fun hlate ↦ absurd (h prev hprev) (not_le.mpr hlate.1)
    · intro _
      apply bind_ne_error (require_ne_error (by decide))
      intro _
      apply bind_ne_error (rejectIf_ne_error (by decide))
      exact fun _ ↦ nofun

theorem connectInputs_ne_timestamp {nBestHeight : ℤ} {inputs : MapPrevTx} {mapTestPool : MapTxIndex}
    {posThisTx : CDiskTxPos} {pindexBlock : PIndex} {fBlock fMiner : Bool}
    (h : ∀ prevout ∈ tx.vin.map CTxIn.prevout, ∀ prev, inputs prevout.hash = some prev →
      prev.2.nTime ≤ tx.nTime) :
    connectInputs P nBestHeight inputs mapTestPool posThisTx pindexBlock fBlock fMiner tx ≠
      .error timestampReject := by
  have hspend : ∀ input ∈ tx.vin.zipIdx, ∀ state,
      spendInput P nBestHeight fBlock fMiner tx posThisTx state input ≠ .error timestampReject := by
    intro input _ state
    unfold spendInput
    apply bind_ne_error (require_ne_error (by decide))
    intro prev
    apply bind_ne_error (rejectIf_ne_error (by cases fMiner <;> decide))
    intro _
    apply bind_ne_error (rejectIf_ne_error (by decide))
    exact fun _ ↦ ok_ne_error
  have hvalueOut : tx.getValueOut ≠ .error timestampReject := by
    apply foldlM_ne_error
    intro txout _ nValueOut
    unfold CTransaction.addValueOut
    apply bind_ne_error (rejectIf_ne_error (by decide))
    exact fun _ ↦ ok_ne_error
  have hfee : ∀ nValueIn, checkFee fBlock tx nValueIn ≠ .error timestampReject := by
    intro nValueIn
    unfold checkFee
    apply bind_ne_error hvalueOut
    intro nValueOut
    apply bind_ne_error (rejectIf_ne_error (by decide))
    intro _
    apply bind_ne_error (rejectIf_ne_error (by decide))
    intro _
    apply bind_ne_error (rejectIf_ne_error (by cases fBlock <;> decide))
    intro _
    exact rejectIf_ne_error (by decide)
  unfold connectInputs
  split
  · exact ok_ne_error
  · apply bind_ne_error
    · exact foldlM_ne_error fun prevout hmem nValueIn ↦ checkInput_ne_timestamp (h prevout hmem) nValueIn
    · intro nValueIn
      apply bind_ne_error (foldlM_ne_error hspend)
      intro state
      apply bind_ne_error
      · unfold checkWhen
        split
        · exact hfee nValueIn
        · exact ok_ne_error
      · exact fun _ ↦ ok_ne_error

/-- The call ends; and if it creates a transaction, the selected coins are worth the payees, the change
and the fee, the change goes where it should, the fee is enough for the memory pool, and coins that the
call selected by itself are not later than the transaction. -/
theorem createTransaction_paysFor (P : ChainParams) (env : SpendEnv) (view : SpendView)
    (coinControl : Option CCoinControl) (vecSend : List (CScript × ℤ)) (wtxNew : CTransaction)
    (choices : ℕ → RoundChoices) (reserve : KeyReserve) :
    (∃ nRounds, ∀ fuel, nRounds ≤ fuel →
      createTransaction P env view coinControl vecSend wtxNew choices fuel reserve ≠ none) ∧
    ∀ fuel created,
      createTransaction P env view coinControl vecSend wtxNew choices fuel reserve = some (.ok created) →
      ∃ setCoins nChange, 0 ≤ nChange ∧
        PaysFor P env view coinControl vecSend reserve created setCoins nChange ∧
        (hasSelected coinControl = false →
          ∀ (nBestHeight : ℤ) (inputs : MapPrevTx) (mapTestPool : MapTxIndex) (posThisTx : CDiskTxPos)
            (pindexBlock : PIndex) (fBlock fMiner : Bool),
            (∀ coin ∈ setCoins, ∀ prev, inputs (P.hashTx (view.wtx coin.1).toCTransaction) = some prev →
              prev.2 = (view.wtx coin.1).toCTransaction) →
            connectInputs P nBestHeight inputs mapTestPool posThisTx pindexBlock fBlock fMiner
              created.wtxNew ≠ .error timestampReject) := by
  constructor
  · refine ⟨(maxFee env - env.nTransactionFee).toNat + 1, fun fuel hfuel ↦ ?_⟩
    unfold createTransaction
    cases htotal : totalValue vecSend with
    | error stop => exact Option.some_ne_none _
    | ok nValue =>
      obtain ⟨rfl, -, hpayees⟩ := totalValue_eq_ok htotal
      exact feeLoop_terminates hpayees fuel 0 hfuel
  · intro fuel created h
    unfold createTransaction at h
    cases htotal : totalValue vecSend with
    | error stop =>
      rw [htotal] at h
      cases h
    | ok nValue =>
      obtain ⟨rfl, -, hpayees⟩ := totalValue_eq_ok htotal
      rw [htotal] at h
      obtain ⟨setCoins, nChange, hpays⟩ := feeLoop_spec ⟨rfl, id⟩ hpayees fuel 0 h
      have hchange : 0 ≤ nChange := hpays.change.elim (fun hnone ↦ hnone.1.ge) fun hpaid ↦ hpaid.1.le
      refine ⟨setCoins, nChange, hchange, hpays, ?_⟩
      intro hnone nBestHeight inputs mapTestPool posThisTx pindexBlock fBlock fMiner hinputs
      apply connectInputs_ne_timestamp
      intro prevout hmem prev hprev
      rw [hpays.inputs, List.mem_map] at hmem
      obtain ⟨coin, hcoin, rfl⟩ := hmem
      rw [mem_coinOrder] at hcoin
      rw [hinputs coin hcoin prev hprev]
      exact hpays.time hnone coin hcoin

namespace PaymentExample

open Builders

/-- A wallet with one coin of 5 that can be spent. -/
def oneCoin : SpendView where
  wtx _ := {
    nVersion := 9, nTime := 10, vin := [], vout := [⟨5 * COIN, payTo 1⟩], nLockTime := 0
    hashBlock := 0, vMerkleBranch := [], nIndex := -1, fFromMe := false, vfSpent := [] }
  isFromMe _ := false
  mapWallet := [(9, 0)]
  pointers_nodup := by decide
  moneyRange := by decide
  isFinal _ := true
  isTrusted _ := true
  nBlocksToMaturity _ := 0
  nDepthInMainChain _ := 6
  isMine _ := true
  nMinimumInputValue := 0

def signer : SpendEnv where
  getID vchPubKey := BitVec.ofNat 160 vchPubKey.length
  newKey n := ⟨List.replicate 33 (UInt8.ofNat n)⟩
  signSignature _ _ _ := some [0]
  nTransactionFee := MIN_TX_FEE

/-- The wallet is locked, so that no keys are added to its pool. -/
def firstChoice (_ : ℕ) : RoundChoices where
  selection _ := threeCoins
  getRandInt _ := 0
  getRandInt_lt _ h := h
  keyPool := {
    fLocked := true, nTime := 0, nKeyPool := 1, addKey := fun _ ↦ true, haveKey := fun _ ↦ true
    fWritten := fun _ ↦ true, fRead := fun _ ↦ true, fErased := fun _ ↦ true }

def payTwo : List (CScript × ℤ) := [(payTo 2, 2 * COIN)]

def emptyTx (nTime : ℕ) : CTransaction := ⟨1, nTime, [], [], 0⟩

/-- A pool with one key. -/
def onePoolKey : KeyReserve where
  holder := .empty
  wallet := ⟨true, {1}, fun _ ↦ some ⟨0, ⟨List.replicate 33 2⟩⟩, ⟨[]⟩, 1⟩

/-- The coin is selected, and the change goes to an address that is given. -/
def chosenCoin : CCoinControl := ⟨.keyID 77, {⟨9, 0⟩}⟩

/-- What a run leaves, apart from the wallet. -/
def outcome (run : Option (Except CreateStop CreatedTx)) :
    Option (Option (CTransaction × ℤ × CReserveKey)) :=
  run.map fun result ↦ result.toOption.map fun created ↦
    (created.wtxNew, created.nFeeRet, created.reserve.holder)

end PaymentExample

open PaymentExample

theorem createTransaction_paysFor_oneCoin :
    ∃ created setCoins nChange, createTransaction (Builders.network true) signer oneCoin none payTwo
        (emptyTx 10) firstChoice 1 onePoolKey = some (.ok created) ∧ 0 ≤ nChange ∧
      PaysFor (Builders.network true) signer oneCoin none payTwo onePoolKey created setCoins nChange := by
  have hdone : (outcome (createTransaction (Builders.network true) signer oneCoin none payTwo (emptyTx 10)
      firstChoice 1 onePoolKey)).join.isSome = true := by decide +kernel
  cases hrun : createTransaction (Builders.network true) signer oneCoin none payTwo (emptyTx 10)
      firstChoice 1 onePoolKey with
  | none =>
    rw [hrun] at hdone
    cases hdone
  | some result =>
    cases result with
    | error stop =>
      rw [hrun] at hdone
      cases hdone
    | ok created =>
      obtain ⟨setCoins, nChange, hnonneg, hpays, -⟩ := (createTransaction_paysFor (Builders.network true)
        signer oneCoin none payTwo (emptyTx 10) firstChoice onePoolKey).2 1 created hrun
      exact ⟨created, setCoins, nChange, rfl, hnonneg, hpays⟩

/-- With coin control, the change goes to an address that the wallet did not reserve, and a selected coin
is later than the transaction. -/
theorem createTransaction_chosenCoin :
    outcome (createTransaction (Builders.network true) signer oneCoin (some chosenCoin) payTwo (emptyTx 5)
      firstChoice 1 onePoolKey) =
      some (some (⟨1, 5, [⟨⟨9, 0⟩, [0], uintMax⟩],
        [⟨3 * COIN - MIN_TX_FEE, scriptFor (.keyID 77)⟩, ⟨2 * COIN, Builders.payTo 2⟩], 0⟩, MIN_TX_FEE, .empty)) ∧
    signer.getID (List.replicate 33 2) ≠ 77 ∧ (5 : ℕ) < (oneCoin.wtx 0).nTime := by
  decide +kernel

end Electra.Wallet

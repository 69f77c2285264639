import Electra.Wallet.AccountBalances

/-!
# Two ways to the balance

`GetBalance` adds up the available credit of the trusted transactions, and `getbalance "*"` adds up what
they receive, less what they send and their fees.
-/

namespace Electra.Wallet

open Chain

variable (env : AccountEnv) (fuel : ℕ) (nMinDepth : ℤ)

/-- What a transaction adds to the balance of all accounts. -/
def allAccountsTurn (nBalance : ℤ) (wtx : AccountTx) : Option ℤ :=
  match isTrusted env.toTrustEnv fuel wtx.toSupportedTx with
  | some (.ok false) => some nBalance
  | some (.ok true) => do
      let amounts ← wtx.getAmounts env
      let nBalance :=
        if wtx.getDepthInMainChain env ≥ nMinDepth ∧ wtx.getBlocksToMaturity env = 0 then
          nBalance + sumOfValues amounts.listReceived
        else nBalance
      some (nBalance - sumOfValues amounts.listSent - amounts.nFee)
  | _ => none

/-- `getbalance "*" minconf`. -/
def getAllAccountsBalance (mapWallet : List AccountTx) : Option ℤ :=
  mapWallet.foldlM (allAccountsTurn env fuel nMinDepth) 0

/-- `getbalance` without an account. -/
def getWalletBalance (mapWallet : List AccountTx) : Option ℤ :=
  getBalance env.toTrustEnv fuel (mapWallet.map fun wtx ↦ (wtx.toSupportedTx, wtx.getBlocksToMaturity env))

/-- The value of the outputs of a transaction that meet a condition. -/
def valueWhere (vout : List CTxOut) (p : CTxOut → Bool) : ℤ := ((vout.filter p).map CTxOut.nValue).sum

/-- The value of the own outputs that are not spent. -/
def unspentOwn (wtx : AccountTx) : ℤ := valueWhere (CachingWallet.unspent wtx.toCWalletTx) env.isMine

/-- The own outputs that are not available: those that are spent, or were when the available credit was
remembered. -/
def spentOwn (wtx : AccountTx) : ℤ :=
  valueWhere wtx.vout env.isMine - wtx.nAvailableCreditCached.getD (unspentOwn env wtx)

def isMature (wtx : AccountTx) : Bool := decide (wtx.getBlocksToMaturity env = 0)

def debited (wtx : AccountTx) : ℤ := max 0 ((wtx.toCachingTx.getDebit env.owner env.wallet).getD 0)

/-- The outputs of a debited transaction that are neither sent nor received: empty scripts and change, unless
it is ours and mature. -/
def hiddenValue (wtx : AccountTx) : ℤ :=
  if debited env wtx > 0 then
    valueWhere wtx.vout fun txout ↦ (txout.scriptPubKey.isEmpty || env.isChange txout) &&
      !(isMature env wtx && env.isMine txout)
  else 0

/-- The transactions that both balances count. -/
def trustedTxs (mapWallet : List AccountTx) : List AccountTx :=
  mapWallet.filter fun wtx ↦ match isTrusted env.toTrustEnv fuel wtx.toSupportedTx with
    | some (.ok fTrusted) => fTrusted
    | _ => false

variable {env} {fuel} {nMinDepth} {wtx : AccountTx} {mapWallet : List AccountTx} {nBalance nTotal : ℤ}

theorem valueWhere_cons (txout : CTxOut) (vout : List CTxOut) (p : CTxOut → Bool) :
    valueWhere (txout :: vout) p = (if p txout = true then txout.nValue else 0) + valueWhere vout p := by
  rw [valueWhere, List.filter_cons]
  split
  · rw [List.map_cons, List.sum_cons]
    rfl
  · rw [Int.zero_add]
    rfl

theorem sumOfValues_destination (vout : List CTxOut) :
    sumOfValues (vout.map env.destination) = (vout.map CTxOut.nValue).sum := by
  rw [sumOfValues, List.map_map]
  rfl

theorem getBlocksToMaturity_nonneg (env : AccountEnv) (wtx : AccountTx) : 0 ≤ wtx.getBlocksToMaturity env := by
  unfold SupportedTx.getBlocksToMaturity CWalletTx.getBlocksToMaturity
  split
  · exact le_refl _
  · split
    · exact le_max_left _ _
    · split <;> exact le_max_left _ _

theorem isImmature_eq : wtx.isImmature (wtx.getBlocksToMaturity env) = !isMature env wtx := by
  have hnonneg := getBlocksToMaturity_nonneg env wtx
  unfold CachingTx.isImmature isMature
  by_cases hzero : wtx.getBlocksToMaturity env = 0
  · rw [hzero]
    simp
  · have hgenerated : (wtx.isCoinBase || wtx.isCoinStake) = true := by
      by_contra hnot
      apply hzero
      unfold SupportedTx.getBlocksToMaturity CWalletTx.getBlocksToMaturity
      simp_all
    have hpos : wtx.getBlocksToMaturity env > 0 := by omega
    simp [hgenerated, hzero, hpos]

/-- An empty script is not ours. -/
theorem not_isMine_of_isEmpty {txout : CTxOut} (h : txout.scriptPubKey.isEmpty = true) :
    env.isMine txout = false := by
  unfold AccountEnv.isMine CachingWallet.isMine
  rw [List.isEmpty_iff.mp h]
  rfl

/-- What is received, less what is sent, and the value of all outputs. -/
theorem valueWhere_handled (env : AccountEnv) (vout : List CTxOut) (fMature : Bool) :
    (if fMature then valueWhere vout fun txout ↦
        env.isMine txout && (!txout.scriptPubKey.isEmpty && !env.isChange txout) else 0) -
      (valueWhere vout fun txout ↦ !txout.scriptPubKey.isEmpty && !env.isChange txout) +
        (vout.map CTxOut.nValue).sum =
      (if fMature then valueWhere vout env.isMine else 0) +
        valueWhere vout fun txout ↦ (txout.scriptPubKey.isEmpty || env.isChange txout) &&
          !(fMature && env.isMine txout) := by
  induction vout with
  | nil => cases fMature <;> rfl
  | cons txout vout ih =>
    rw [List.map_cons, List.sum_cons]
    simp only [valueWhere_cons]
    cases fMature <;> cases txout.scriptPubKey.isEmpty <;> cases env.isChange txout <;>
      cases env.isMine txout <;> simp at ih ⊢ <;> omega

theorem add_if {c : Prop} [Decidable c] (m n : ℤ) : (if c then m + n else m) = m + if c then n else 0 := by
  split
  · rfl
  · rw [Int.add_zero]

theorem depth_of_isTrusted (h : isTrusted env.toTrustEnv fuel wtx.toSupportedTx = some (.ok true)) :
    wtx.getDepthInMainChain env ≥ 0 := by
  by_contra hneg
  have hdepth : wtx.toCMerkleTx.getDepthInMainChain env.toTrustEnv < 0 := by
    change ¬ wtx.toCMerkleTx.getDepthInMainChain env.toTrustEnv ≥ 0 at hneg
    omega
  unfold isTrusted at h
  simp only at h
  split at h
  · cases Option.some.inj h
  · split at h
    · omega
    · cases Option.some.inj h

theorem allAccountsTurn_trusted (htrusted : isTrusted env.toTrustEnv fuel wtx.toSupportedTx = some (.ok true))
    (h : allAccountsTurn env fuel 0 nBalance wtx = some nTotal) :
    nTotal = nBalance + ((if isMature env wtx then valueWhere wtx.vout env.isMine else 0) -
      debited env wtx + hiddenValue env wtx) := by
  unfold allAccountsTurn at h
  rw [htrusted] at h
  obtain ⟨amounts, hamounts, htotal⟩ := Option.bind_eq_some_iff.mp h
  obtain ⟨nDebit, hdebit, hrest⟩ := Option.bind_eq_some_iff.mp hamounts
  have hdebited : debited env wtx = max 0 nDebit := by rw [debited, hdebit]; rfl
  have hcond : (wtx.getDepthInMainChain env ≥ 0 ∧ wtx.getBlocksToMaturity env = 0) ↔
      isMature env wtx = true := by
    rw [isMature, decide_eq_true_iff]
    exact and_iff_right (depth_of_isTrusted htrusted)
  rw [← Option.some.inj htotal]
  simp only [hcond]
  by_cases hpos : nDebit > 0
  · rw [if_pos hpos] at hrest
    obtain ⟨nValueOut, hvalue, hsome⟩ := Option.bind_eq_some_iff.mp hrest
    have hvalueOut : nValueOut = (wtx.vout.map CTxOut.nValue).sum := by
      cases hok : wtx.toCTransaction.getValueOut with
      | error reject =>
        rw [hok] at hvalue
        cases hvalue
      | ok n =>
        rw [hok] at hvalue
        rw [← Option.some.inj hvalue, CTransaction.getValueOut_eq_ok hok]
        rfl
    have hhandled : env.isHandled nDebit =
        fun txout ↦ !txout.scriptPubKey.isEmpty && !env.isChange txout := by
      funext txout
      rw [AccountEnv.isHandled, if_pos hpos]
    have hmax : max 0 nDebit = nDebit := max_eq_right (le_of_lt hpos)
    have hmoved := valueWhere_handled env wtx.vout (isMature env wtx)
    rw [hiddenValue, hdebited, hmax, if_pos hpos, ← Option.some.inj hsome]
    simp only [AccountTx.amountsWith, if_pos hpos, sumOfValues_destination, List.filter_filter, hhandled]
    rw [hvalueOut, add_if]
    unfold valueWhere at hmoved ⊢
    omega
  · rw [if_neg hpos] at hrest
    have hmax : max 0 nDebit = 0 := max_eq_left (not_lt.mp hpos)
    have hhandled : (fun txout ↦ env.isMine txout && env.isHandled nDebit txout) = env.isMine := by
      funext txout
      rw [AccountEnv.isHandled, if_neg hpos]
      cases hempty : txout.scriptPubKey.isEmpty with
      | true => rw [not_isMine_of_isEmpty hempty, Bool.false_and]
      | false => rw [Bool.not_false, Bool.true_and, Bool.and_self]
    rw [hiddenValue, hdebited, hmax, if_neg (lt_irrefl _), ← Option.some.inj hrest]
    simp only [AccountTx.amountsWith, if_neg hpos, sumOfValues_destination, List.filter_filter, hhandled]
    have hnothing : sumOfValues [] = 0 := rfl
    unfold valueWhere
    rw [hnothing, add_if]
    omega

/-- A sum that does not throw has all its amounts. -/
theorem exists_map_some_of_sumOfMoney {amounts : List (Option ℤ)} {nSum : ℤ}
    (h : sumOfMoney amounts = some nSum) : ∃ values : List ℤ, amounts = values.map some := by
  have hfrom : ∀ nStart, amounts.foldlM (fun nSum amount ↦ do
      let nValue ← amount
      if moneyRange (nSum + nValue) then some (nSum + nValue) else none) nStart = some nSum →
        ∃ values : List ℤ, amounts = values.map some := by
    clear h
    induction amounts with
    | nil => exact fun _ _ ↦ ⟨[], rfl⟩
    | cons amount amounts ih =>
      intro nStart h
      rw [List.foldlM_cons] at h
      obtain ⟨nNext, hturn, hrest⟩ := Option.bind_eq_some_iff.mp h
      obtain ⟨nValue, hvalue, -⟩ := Option.bind_eq_some_iff.mp hturn
      obtain ⟨values, rfl⟩ := ih nNext hrest
      exact ⟨nValue :: values, by rw [hvalue]; rfl⟩
  exact hfrom 0 h

theorem sum_of_map_creditOf {vout : List CTxOut} {values : List ℤ}
    (h : vout.map (env.wallet.creditOf env.owner) = values.map some) :
    values.sum = valueWhere vout env.isMine := by
  induction vout generalizing values with
  | nil =>
    cases values with
    | nil => rfl
    | cons nValue values => cases h
  | cons txout vout ih =>
    cases values with
    | nil => cases h
    | cons nValue values =>
      rw [List.map_cons, List.map_cons] at h
      obtain ⟨hcredit, hrest⟩ := List.cons.inj h
      rw [List.sum_cons, ih hrest, valueWhere_cons]
      congr 1
      unfold CachingWallet.creditOf at hcredit
      split at hcredit
      · exact (Option.some.inj hcredit).symm
      · cases hcredit

theorem getAvailableCredit_eq {n : ℤ} (h : env.wallet.getAvailableCredit env.owner wtx.toCWalletTx = some n) :
    n = unspentOwn env wtx := by
  unfold CachingWallet.getAvailableCredit at h
  obtain ⟨values, hvalues⟩ := exists_map_some_of_sumOfMoney h
  rw [hvalues] at h
  rw [sumOfMoney_map_some h, sum_of_map_creditOf hvalues]
  rfl

/-- What a trusted transaction adds to `GetBalance`. -/
theorem balancePart_trusted (htrusted : isTrusted env.toTrustEnv fuel wtx.toSupportedTx = some (.ok true))
    (h : balancePart env.toTrustEnv fuel wtx.toSupportedTx (wtx.getBlocksToMaturity env) = some nTotal) :
    nTotal = if isMature env wtx then valueWhere wtx.vout env.isMine - spentOwn env wtx else 0 := by
  unfold balancePart at h
  rw [htrusted] at h
  simp only [CachingTx.getAvailableCredit, isImmature_eq, if_true] at h
  cases hmature : isMature env wtx with
  | false =>
    rw [hmature] at h
    exact (Option.some.inj h).symm
  | true =>
    rw [hmature] at h
    simp only [Bool.not_true, Bool.false_eq_true, if_false] at h
    rw [if_pos rfl, spentOwn]
    cases hcached : wtx.nAvailableCreditCached with
    | some nCached =>
      rw [hcached, Option.some_or] at h
      rw [← Option.some.inj h, Option.getD_some]
      omega
    | none =>
      rw [hcached, Option.none_or] at h
      rw [getAvailableCredit_eq h, Option.getD_none]
      omega

theorem trustedTxs_cons_of_trusted
    (htrusted : isTrusted env.toTrustEnv fuel wtx.toSupportedTx = some (.ok true)) :
    trustedTxs env fuel (wtx :: mapWallet) = wtx :: trustedTxs env fuel mapWallet := by
  rw [trustedTxs, List.filter_cons, htrusted]
  rfl

theorem trustedTxs_cons_of_untrusted
    (huntrusted : isTrusted env.toTrustEnv fuel wtx.toSupportedTx = some (.ok false)) :
    trustedTxs env fuel (wtx :: mapWallet) = trustedTxs env fuel mapWallet := by
  rw [trustedTxs, List.filter_cons, huntrusted]
  rfl

theorem foldlM_allAccountsTurn (h : mapWallet.foldlM (allAccountsTurn env fuel 0) nBalance = some nTotal) :
    nTotal = nBalance + ((trustedTxs env fuel mapWallet).map fun wtx ↦
      (if isMature env wtx then valueWhere wtx.vout env.isMine else 0) - debited env wtx +
        hiddenValue env wtx).sum := by
  induction mapWallet generalizing nBalance with
  | nil => exact (Option.some.inj h).symm.trans (Int.add_zero _).symm
  | cons wtx mapWallet ih =>
    rw [List.foldlM_cons] at h
    obtain ⟨nNext, hturn, hrest⟩ := Option.bind_eq_some_iff.mp h
    have hnext := ih hrest
    match htrust : isTrusted env.toTrustEnv fuel wtx.toSupportedTx with
    | some (.ok true) =>
      rw [trustedTxs_cons_of_trusted htrust, List.map_cons, List.sum_cons, hnext,
        allAccountsTurn_trusted htrust hturn]
      omega
    | some (.ok false) =>
      rw [allAccountsTurn, htrust] at hturn
      rw [trustedTxs_cons_of_untrusted htrust, hnext, Option.some.inj hturn]
    | some (.error _) =>
      rw [allAccountsTurn, htrust] at hturn
      cases hturn
    | none =>
      rw [allAccountsTurn, htrust] at hturn
      cases hturn

theorem foldlM_balancePart {nStart : ℤ} (h : (mapWallet.map fun wtx ↦ (wtx.toSupportedTx, wtx.getBlocksToMaturity env)).foldlM
      (fun nTotal entry ↦ (balancePart env.toTrustEnv fuel entry.1 entry.2).map (nTotal + ·)) nStart =
        some nTotal) :
    nTotal = nStart + ((trustedTxs env fuel mapWallet).map fun wtx ↦
      if isMature env wtx then valueWhere wtx.vout env.isMine - spentOwn env wtx else 0).sum := by
  induction mapWallet generalizing nStart with
  | nil => exact (Option.some.inj h).symm.trans (Int.add_zero _).symm
  | cons wtx mapWallet ih =>
    rw [List.map_cons, List.foldlM_cons] at h
    obtain ⟨nNext, hturn, hrest⟩ := Option.bind_eq_some_iff.mp h
    obtain ⟨nPart, hpart, hadd⟩ := Option.map_eq_some_iff.mp hturn
    have hnext := ih hrest
    rw [hnext, ← hadd]
    match htrust : isTrusted env.toTrustEnv fuel wtx.toSupportedTx with
    | some (.ok true) =>
      rw [trustedTxs_cons_of_trusted htrust, List.map_cons, List.sum_cons, balancePart_trusted htrust hpart]
      omega
    | some (.ok false) =>
      rw [balancePart, htrust] at hpart
      rw [trustedTxs_cons_of_untrusted htrust, ← Option.some.inj hpart, Int.add_zero]
    | some (.error _) =>
      rw [balancePart, htrust] at hpart
      cases hpart
    | none =>
      rw [balancePart, htrust] at hpart
      cases hpart

/-- Both balances are the same if and only if the own outputs of the trusted and mature transactions that
are not available are worth what the trusted transactions are debited, less what they hide. -/
theorem getWalletBalance_eq_iff (hwallet : getWalletBalance env fuel mapWallet = some nTotal)
    (hall : getAllAccountsBalance env fuel 0 mapWallet = some nBalance) :
    nTotal = nBalance ↔
      (((trustedTxs env fuel mapWallet).filter (isMature env)).map (spentOwn env)).sum =
        ((trustedTxs env fuel mapWallet).map fun wtx ↦ debited env wtx - hiddenValue env wtx).sum := by
  rw [foldlM_balancePart hwallet, foldlM_allAccountsTurn hall, Int.zero_add, Int.zero_add]
  generalize trustedTxs env fuel mapWallet = txs
  have hsplit : (txs.map fun wtx ↦ (if isMature env wtx then valueWhere wtx.vout env.isMine else 0) -
        debited env wtx + hiddenValue env wtx).sum =
      (txs.map fun wtx ↦ if isMature env wtx then valueWhere wtx.vout env.isMine - spentOwn env wtx else 0).sum +
        ((txs.filter (isMature env)).map (spentOwn env)).sum -
          (txs.map fun wtx ↦ debited env wtx - hiddenValue env wtx).sum := by
    induction txs with
    | nil => rfl
    | cons wtx txs ih =>
      rw [List.map_cons, List.map_cons, List.map_cons, List.sum_cons, List.sum_cons, List.sum_cons, ih,
        List.filter_cons]
      split
      · rw [List.map_cons, List.sum_cons]
        omega
      · omega
  rw [hsplit]
  omega

namespace RefusedSpendExample

open Builders

/-- A payment to our key in the last block, and our transaction that spends it. -/
def parentTx : CTransaction := spending 10 100 [⟨5, 0⟩] [⟨5, scriptFor (.keyID 7)⟩]

def childTx : CTransaction := spending 11 200 [⟨10, 0⟩] [⟨5, scriptFor (.keyID 7)⟩]

def tip : PIndex := quietIndex (network true) 2

def parentEntry : CachingTx :=
  ⟨⟨parentTx, tip.getBlockHash, [], 0, false, [true]⟩, none, none, none, none⟩

def ours (pool : CTxMemPool) : AccountEnv where
  owner := ⟨network true, fun _ ↦ 0, fun _ ↦ 0⟩
  wallet := ⟨⟨{7}, ∅⟩, ∅, 0, fun hash ↦ if hash = 10 then some parentEntry else none⟩
  node := { nodeAt tip (txdbOf []) with mempool := pool }
  nAdjustedTime := 900
  fConfChange := false
  label := fun _ ↦ []

def accepted : CTxMemPool := CTxMemPool.empty.addUnchecked 11 childTx

def spendTxs : List AccountTx :=
  [⟨⟨parentEntry, true, []⟩, []⟩,
    ⟨⟨⟨⟨childTx, 0, [], -1, true, []⟩, none, none, none, none⟩, false,
      [⟨parentTx, tip.getBlockHash, [], 0, true⟩]⟩, []⟩]

theorem balances : getWalletBalance (ours accepted) 2 spendTxs = some 5 ∧
    getAllAccountsBalance (ours accepted) 2 0 spendTxs = some 5 ∧
    getWalletBalance (ours .empty) 2 spendTxs = some 0 ∧
    getAllAccountsBalance (ours .empty) 2 0 spendTxs = some 5 := by
  decide

/-- While the transaction is in the pool, what it spends is what is marked. -/
theorem spent_is_debited :
    (((trustedTxs (ours accepted) 2 spendTxs).filter (isMature (ours accepted))).map
        (spentOwn (ours accepted))).sum =
      ((trustedTxs (ours accepted) 2 spendTxs).map fun wtx ↦
        debited (ours accepted) wtx - hiddenValue (ours accepted) wtx).sum :=
  (getWalletBalance_eq_iff balances.1 balances.2.1).mp rfl

/-- A transaction that is not in the pool leaves its coin marked, and is not trusted. -/
theorem not_balance_eq : ¬ ∀ (env : AccountEnv) (fuel : ℕ) (mapWallet : List AccountTx) (nTotal nBalance : ℤ),
    getWalletBalance env fuel mapWallet = some nTotal →
      getAllAccountsBalance env fuel 0 mapWallet = some nBalance → nTotal = nBalance := by
  intro h
  have hsame := h _ _ _ _ _ balances.2.2.1 balances.2.2.2
  cases hsame

end RefusedSpendExample

end Electra.Wallet

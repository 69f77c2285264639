import Electra.Wallet.DumpFile
import Electra.Wallet.TotalBalance
import Electra.Wallet.TransactionList

/-!
# The transaction list of the window

`decomposeTransaction` breaks a wallet transaction down into records with a debit and a credit.  What comes in
with a net gain is shown output by output, and the coins of ours that were spent for it are left out.
-/

namespace Electra.Qt

open Chain Wallet

inductive RecordType
  | other
  | generated
  | sendToAddress
  | sendToOther
  | recvWithAddress
  | recvFromOther
  | sendToSelf
deriving DecidableEq

structure TransactionRecord where
  hash : Uint256
  time : ℕ
  type : RecordType
  address : List UInt8
  debit : ℤ
  credit : ℤ
  idx : ℕ

/-- Credits and debits together. -/
def total (parts : List TransactionRecord) : ℤ := (parts.map fun sub ↦ sub.credit + sub.debit).sum

section Decompose

variable (env : AccountEnv) (hash : List UInt8 → Uint256) (wtx : ListedTx)

def getHash : Uint256 := env.owner.P.hashTx wtx.toCTransaction

/-- `CElectraAddress(address).ToString()`. -/
def addressText (address : CTxDestination) : List UInt8 :=
  Records.ofText (((CElectraAddress.set env.owner.P.fTestNet address).getD ⟨0, []⟩).toString hash)

/-- The entry of `mapValue`, empty where there is none. -/
def valueFor (key : String) : List UInt8 := (wtx.mapValue[Records.ofString key]?).getD []

/-- A record with the address that is paid, or with the text that the transaction keeps. -/
def received (txout : CTxOut) (idx : ℕ) : TransactionRecord :=
  match (extractDestination env.owner.getID txout.scriptPubKey).filter env.wallet.keystore.isMineAddress with
  | some address =>
      ⟨getHash env wtx, wtx.getTxTime, .recvWithAddress, addressText env hash address, 0, txout.nValue, idx⟩
  | none => ⟨getHash env wtx, wtx.getTxTime, .recvFromOther, valueFor wtx "from", 0, txout.nValue, idx⟩

def sent (txout : CTxOut) (nValue : ℤ) (idx : ℕ) : TransactionRecord :=
  match extractDestination env.owner.getID txout.scriptPubKey with
  | some address =>
      ⟨getHash env wtx, wtx.getTxTime, .sendToAddress, addressText env hash address, -nValue, 0, idx⟩
  | none => ⟨getHash env wtx, wtx.getTxTime, .sendToOther, valueFor wtx "to", -nValue, 0, idx⟩

/-- What the record of a coinstake shows. -/
def stakeCredit (nNet nDebit : ℤ) : Option ℤ :=
  if nNet > 0 then some nNet
  else wtx.toCTransaction.getValueOut.toOption.map fun nValueOut ↦ nValueOut - nDebit

/-- One output of a transaction with a net gain, or of a generated one.  The state is the records and
`hashPrev`, which is the hash of a coinstake after its first record. -/
def creditTurn (nNet nDebit : ℤ) (s : List TransactionRecord × Uint256) (txout : CTxOut) :
    Option (List TransactionRecord × Uint256) :=
  let sub := received env hash wtx txout s.1.length
  if !env.isMine txout then some s
  else if wtx.isCoinStake then
    if s.2 = getHash env wtx then some s -- last coinstake output
    else (stakeCredit wtx nNet nDebit).map fun nCredit ↦
      (s.1 ++ [{ sub with type := .generated, credit := nCredit }], getHash env wtx)
  else if wtx.isCoinBase then some (s.1 ++ [{ sub with type := .generated }], s.2)
  else some (s.1 ++ [sub], s.2)

/-- One output of a transaction that is all from us.  The state is the records and the fee that is left to
add. -/
def debitTurn (s : List TransactionRecord × ℤ) (txout : CTxOut) : List TransactionRecord × ℤ :=
  -- Ignore parts sent to self, as this is usually the change
  if env.isMine txout then s
  else if s.2 > 0 then (s.1 ++ [sent env hash wtx txout (txout.nValue + s.2) s.1.length], 0)
  else (s.1 ++ [sent env hash wtx txout txout.nValue s.1.length], s.2)

/-- `IsMine` of an input. -/
def isMineInput (txin : CTxIn) : Bool := (env.wallet.output txin.prevout).any env.isMine

def decomposeTransaction : Option (List TransactionRecord) := do
  let nCredit ← wtx.toCachingTx.getCredit env.owner env.wallet (wtx.getBlocksToMaturity env) true
  let nDebit ← wtx.toCachingTx.getDebit env.owner env.wallet
  let nNet := nCredit - nDebit
  if nNet > 0 || wtx.isCoinBase || wtx.isCoinStake then
    return (← wtx.vout.foldlM (creditTurn env hash wtx nNet nDebit) ([], 0)).1
  else
    let fAllFromMe := wtx.vin.all (isMineInput env)
    let fAllToMe := wtx.vout.all env.isMine
    if fAllFromMe && fAllToMe then
      let nChange ← wtx.toCachingTx.getChange env.owner env.wallet
      return [⟨getHash env wtx, wtx.getTxTime, .sendToSelf, [], -(nDebit - nChange), nCredit - nChange, 0⟩]
    else if fAllFromMe then
      let nValueOut ← wtx.toCTransaction.getValueOut.toOption
      return (wtx.vout.foldl (debitTurn env hash wtx) ([], nDebit - nValueOut)).1
    else
      -- Mixed debit transaction, can't break down payees
      return [⟨getHash env wtx, wtx.getTxTime, .other, [], nNet, 0, 0⟩]

def ownValue : ℤ := valueWhere wtx.vout env.isMine

def foreignValue : ℤ := valueWhere wtx.vout fun txout ↦ !env.isMine txout

/-- How far the credit that is remembered is from the value of the own outputs. -/
def staleCredit : ℤ := wtx.nCreditCached.getD (ownValue env wtx) - ownValue env wtx

/-- When the records of a transaction with a debit show what it gains.  With a credit that is up to date, a
gain must not cost coins of ours, a coinstake without a gain must not pay to others, and what is all from us
must not pay more than it spends. -/
def Balanced (nDebit : ℤ) : Prop :=
  if wtx.isCoinStake then
    if wtx.vout.any env.isMine ∧ getHash env wtx ≠ 0 then
      nDebit < ownValue env wtx + staleCredit env wtx ∨ foreignValue env wtx = staleCredit env wtx
    else ownValue env wtx + staleCredit env wtx = nDebit
  else if nDebit < ownValue env wtx + staleCredit env wtx ∨ wtx.isCoinBase then
    nDebit = staleCredit env wtx
  else if wtx.vin.all (isMineInput env) ∧ ¬wtx.vout.all env.isMine then
    min (nDebit - wtx.toCTransaction.valueOut) 0 = staleCredit env wtx
  else True

instance (nDebit : ℤ) : Decidable (Balanced env wtx nDebit) :=
  inferInstanceAs (Decidable (ite _ (ite _ _ _) (ite _ _ (ite _ _ _))))

end Decompose

variable {env : AccountEnv} {hash : List UInt8 → Uint256} {wtx : ListedTx} {nNet nDebit nCredit : ℤ}
  {parts : List TransactionRecord} {hashPrev : Uint256}

theorem total_concat (parts : List TransactionRecord) (sub : TransactionRecord) :
    total (parts ++ [sub]) = total parts + (sub.credit + sub.debit) := by
  rw [total, List.map_append, List.sum_append, List.map_singleton, List.sum_singleton]
  rfl

theorem total_received (env : AccountEnv) (hash : List UInt8 → Uint256) (wtx : ListedTx) (txout : CTxOut)
    (idx : ℕ) : (received env hash wtx txout idx).credit = txout.nValue ∧
      (received env hash wtx txout idx).debit = 0 := by
  unfold received
  split <;> exact ⟨rfl, rfl⟩

theorem total_sent (env : AccountEnv) (hash : List UInt8 → Uint256) (wtx : ListedTx) (txout : CTxOut)
    (nValue : ℤ) (idx : ℕ) : (sent env hash wtx txout nValue idx).credit +
      (sent env hash wtx txout nValue idx).debit = -nValue := by
  unfold sent
  split <;> exact Int.zero_add _

theorem valueWhere_add_not (vout : List CTxOut) (p : CTxOut → Bool) :
    valueWhere vout p + (valueWhere vout fun txout ↦ !p txout) = (vout.map CTxOut.nValue).sum := by
  induction vout with
  | nil => rfl
  | cons txout vout ih =>
    rw [valueWhere_cons, valueWhere_cons, List.map_cons, List.sum_cons, ← ih]
    cases p txout
    · simp only [Bool.not_false, Bool.false_eq_true, if_true, if_false]
      omega
    · simp only [Bool.not_true, Bool.false_eq_true, if_true, if_false]
      omega

/-- One record per own output. -/
theorem creditTurn_ordinary (hstake : wtx.isCoinStake = false) (s : List TransactionRecord × Uint256)
    (txout : CTxOut) : ∃ t, creditTurn env hash wtx nNet nDebit s txout = some t ∧
      total t.1 = total s.1 + if env.isMine txout then txout.nValue else 0 := by
  obtain ⟨hcredit, hdebit⟩ := total_received env hash wtx txout s.1.length
  unfold creditTurn
  rw [hstake]
  cases hmine : env.isMine txout with
  | false => exact ⟨s, rfl, (Int.add_zero _).symm⟩
  | true =>
    cases wtx.isCoinBase with
    | true =>
      refine ⟨_, rfl, ?_⟩
      rw [total_concat, hcredit, hdebit, Int.add_zero, if_pos rfl]
    | false =>
      refine ⟨_, rfl, ?_⟩
      rw [total_concat, hcredit, hdebit, Int.add_zero, if_pos rfl]

theorem credits_ordinary (hstake : wtx.isCoinStake = false) (vout : List CTxOut)
    {s t : List TransactionRecord × Uint256}
    (h : vout.foldlM (creditTurn env hash wtx nNet nDebit) s = some t) :
    total t.1 = total s.1 + valueWhere vout env.isMine := by
  induction vout generalizing s with
  | nil =>
    obtain rfl := Option.some.inj h
    exact (Int.add_zero _).symm
  | cons txout vout ih =>
    obtain ⟨next, hnext, htotal⟩ := @creditTurn_ordinary env hash wtx nNet nDebit hstake s txout
    rw [List.foldlM_cons, hnext] at h
    rw [ih h, htotal, valueWhere_cons, Int.add_assoc]

/-- After its first record nothing is added to a coinstake. -/
theorem credits_after (hstake : wtx.isCoinStake = true) (vout : List CTxOut)
    (parts : List TransactionRecord) :
    vout.foldlM (creditTurn env hash wtx nNet nDebit) (parts, getHash env wtx) =
      some (parts, getHash env wtx) := by
  induction vout with
  | nil => rfl
  | cons txout vout ih =>
    have hturn : creditTurn env hash wtx nNet nDebit (parts, getHash env wtx) txout =
        some (parts, getHash env wtx) := by
      unfold creditTurn
      rw [hstake]
      split
      · rfl
      · rw [if_pos rfl, if_pos rfl]
    rw [List.foldlM_cons, hturn]
    exact ih

theorem valueOut_of_toOption {tx : CTransaction} {nValueOut : ℤ}
    (h : tx.getValueOut.toOption = some nValueOut) : nValueOut = tx.valueOut := by
  cases hvalue : tx.getValueOut with
  | error reject =>
    rw [hvalue] at h
    cases h
  | ok n =>
    rw [hvalue] at h
    obtain rfl := Option.some.inj h
    exact CTransaction.getValueOut_eq_ok hvalue

theorem stakeCredit_eq (h : stakeCredit wtx nNet nDebit = some nCredit) :
    nCredit = if nNet > 0 then nNet else wtx.toCTransaction.valueOut - nDebit := by
  unfold stakeCredit at h
  by_cases hgain : nNet > 0
  · rw [if_pos hgain] at h ⊢
    exact (Option.some.inj h).symm
  · rw [if_neg hgain] at h ⊢
    obtain ⟨nValueOut, hvalue, rfl⟩ := Option.map_eq_some_iff.mp h
    rw [valueOut_of_toOption hvalue]

/-- A coinstake has one record, of what it gains. -/
theorem credits_coinStake (hstake : wtx.isCoinStake = true) (vout : List CTxOut)
    (hprev : hashPrev ≠ getHash env wtx) {t : List TransactionRecord × Uint256}
    (h : vout.foldlM (creditTurn env hash wtx nNet nDebit) (parts, hashPrev) = some t) :
    total t.1 = total parts + if vout.any env.isMine then
      if nNet > 0 then nNet else wtx.toCTransaction.valueOut - nDebit else 0 := by
  induction vout with
  | nil =>
    obtain rfl := Option.some.inj h
    exact (Int.add_zero _).symm
  | cons txout vout ih =>
    rw [List.foldlM_cons] at h
    obtain ⟨next, hnext, hrest⟩ := Option.bind_eq_some_iff.mp h
    rw [creditTurn, hstake] at hnext
    cases hmine : env.isMine txout with
    | true =>
      rw [hmine, if_neg (by decide), if_pos rfl, if_neg hprev] at hnext
      obtain ⟨nCredit, hcredit, rfl⟩ := Option.map_eq_some_iff.mp hnext
      rw [credits_after hstake] at hrest
      obtain rfl := Option.some.inj hrest
      have hdebit := (total_received env hash wtx txout parts.length).2
      rw [total_concat, List.any_cons, hmine, Bool.true_or, if_pos rfl, stakeCredit_eq hcredit, hdebit,
        Int.add_zero]
    | false =>
      rw [hmine, if_pos (by decide)] at hnext
      obtain rfl := Option.some.inj hnext
      rw [ih hrest, List.any_cons, hmine, Bool.false_or]

/-- The first record takes the fee. -/
theorem debits (vout : List CTxOut) (s : List TransactionRecord × ℤ) :
    total (vout.foldl (debitTurn env hash wtx) s).1 =
      total s.1 - (valueWhere vout fun txout ↦ !env.isMine txout) -
        if vout.all env.isMine then 0 else max s.2 0 := by
  induction vout generalizing s with
  | nil => simp [valueWhere]
  | cons txout vout ih =>
    rw [List.foldl_cons, ih, valueWhere_cons, List.all_cons]
    unfold debitTurn
    cases hmine : env.isMine txout with
    | true =>
      simp
    | false =>
      have hsent := total_sent env hash wtx txout
      simp only [Bool.false_eq_true, if_false, Bool.not_false, if_true, Bool.false_and]
      split
      · rw [total_concat, hsent]
        split <;> omega
      · rw [total_concat, hsent]
        split <;> omega

theorem own_add_foreign (env : AccountEnv) (wtx : ListedTx) :
    ownValue env wtx + foreignValue env wtx = wtx.toCTransaction.valueOut :=
  valueWhere_add_not wtx.vout env.isMine

/-- The credit of a mature transaction is the value of its own outputs, or what was remembered. -/
theorem getCredit_mature (hmature : isMature env wtx.toAccountTx = true)
    (h : wtx.toCachingTx.getCredit env.owner env.wallet (wtx.getBlocksToMaturity env) true = some nCredit) :
    nCredit = ownValue env wtx + staleCredit env wtx := by
  have himmature : wtx.toCachingTx.isImmature (wtx.getBlocksToMaturity env) = false := by
    rw [@isImmature_eq env wtx.toAccountTx, hmature]
    rfl
  rw [CachingTx.getCredit, himmature] at h
  unfold staleCredit
  cases hcached : wtx.nCreditCached with
  | some n =>
    have hn : n = nCredit := by simpa [hcached] using h
    rw [hn, Option.getD_some]
    omega
  | none =>
    have hsum : env.wallet.getCredit env.owner wtx.toCTransaction = some nCredit := by simpa [hcached] using h
    obtain ⟨values, hvalues⟩ := exists_map_some_of_sumOfMoney hsum
    rw [CachingWallet.getCredit, hvalues] at hsum
    rw [sumOfMoney_map_some hsum, sum_of_map_creditOf hvalues, Option.getD_none]
    exact (show _ from by unfold ownValue; omega)

/-- What is listed: the gain of each output, what is paid to others and the fee, or the net amount. -/
theorem total_decompose
    (hcredit : wtx.toCachingTx.getCredit env.owner env.wallet (wtx.getBlocksToMaturity env) true = some nCredit)
    (hdebit : wtx.toCachingTx.getDebit env.owner env.wallet = some nDebit)
    (h : decomposeTransaction env hash wtx = some parts) :
    if nCredit - nDebit > 0 ∨ wtx.isCoinBase ∨ wtx.isCoinStake then
      ∃ t, wtx.vout.foldlM (creditTurn env hash wtx (nCredit - nDebit) nDebit) ([], 0) = some t ∧ parts = t.1
    else if wtx.vin.all (isMineInput env) ∧ ¬wtx.vout.all env.isMine then
      total parts = -foreignValue env wtx - max (nDebit - wtx.toCTransaction.valueOut) 0
    else total parts = nCredit - nDebit := by
  rw [decomposeTransaction, hcredit, hdebit] at h
  by_cases hgain : nCredit - nDebit > 0 ∨ wtx.isCoinBase ∨ wtx.isCoinStake
  · rw [if_pos hgain]
    replace h : (wtx.vout.foldlM (creditTurn env hash wtx (nCredit - nDebit) nDebit) ([], 0)).bind
        (fun t ↦ some t.1) = some parts := by
      have htest : (decide (nCredit - nDebit > 0) || wtx.isCoinBase || wtx.isCoinStake) = true := by
        simpa only [Bool.or_eq_true, decide_eq_true_eq, or_assoc] using hgain
      simp only [Option.bind_eq_bind, Option.bind_some, htest, if_true] at h
      exact h
    obtain ⟨t, ht, hparts⟩ := Option.bind_eq_some_iff.mp h
    exact ⟨t, ht, (Option.some.inj hparts).symm⟩
  · rw [if_neg hgain]
    have htest : (decide (nCredit - nDebit > 0) || wtx.isCoinBase || wtx.isCoinStake) = false := by
      apply Bool.eq_false_iff.mpr
      simpa only [ne_eq, Bool.or_eq_true, decide_eq_true_eq, or_assoc] using hgain
    simp only [Option.bind_eq_bind, Option.bind_some, htest, Bool.false_eq_true, if_false] at h
    cases hfrom : wtx.vin.all (isMineInput env) with
    | false =>
      rw [if_neg (by simp)]
      rw [hfrom] at h
      obtain rfl := Option.some.inj h
      simp [total]
    | true =>
      cases hto : wtx.vout.all env.isMine with
      | true =>
        rw [if_neg (by simp)]
        rw [hfrom, hto] at h
        obtain ⟨nChange, -, hparts⟩ := Option.bind_eq_some_iff.mp h
        obtain rfl := Option.some.inj hparts
        simp only [total, List.map_cons, List.map_nil, List.sum_cons, List.sum_nil]
        omega
      | false =>
        rw [if_pos (by simp)]
        rw [hfrom, hto] at h
        obtain ⟨nValueOut, hvalue, hparts⟩ := Option.bind_eq_some_iff.mp h
        obtain rfl := Option.some.inj hparts
        rw [debits, hto, valueOut_of_toOption hvalue]
        simp only [total, List.map_nil, List.sum_nil, Int.zero_sub, Bool.false_eq_true, if_false]
        rfl

/-- The records of a mature transaction add up to its net amount if and only if it is balanced. -/
theorem total_decomposeTransaction_iff (hmature : isMature env wtx.toAccountTx = true)
    (hcredit : wtx.toCachingTx.getCredit env.owner env.wallet (wtx.getBlocksToMaturity env) true = some nCredit)
    (hdebit : wtx.toCachingTx.getDebit env.owner env.wallet = some nDebit)
    (h : decomposeTransaction env hash wtx = some parts) :
    total parts = nCredit - nDebit ↔ Balanced env wtx nDebit := by
  have hvalue := own_add_foreign env wtx
  have hC := getCredit_mature hmature hcredit
  have htotal := total_decompose hcredit hdebit h
  have hempty : total [] = 0 := rfl
  unfold Balanced
  by_cases hstake : wtx.isCoinStake = true
  · rw [if_pos (Or.inr (Or.inr hstake))] at htotal
    obtain ⟨t, ht, rfl⟩ := htotal
    rw [if_pos hstake]
    by_cases hnull : getHash env wtx = 0
    · rw [if_neg (fun hboth ↦ hboth.2 hnull)]
      rw [← hnull, credits_after hstake] at ht
      obtain rfl := Option.some.inj ht
      rw [hempty]
      omega
    · rw [credits_coinStake hstake _ (Ne.symm hnull) ht, hempty]
      by_cases hown : wtx.vout.any env.isMine = true
      · have hboth : wtx.vout.any env.isMine = true ∧ getHash env wtx ≠ 0 := ⟨hown, hnull⟩
        rw [if_pos hown, if_pos hboth]
        split <;> omega
      · rw [if_neg hown, if_neg (fun hboth ↦ hown hboth.1)]
        omega
  · have hordinary : wtx.isCoinStake = false := Bool.eq_false_iff.mpr hstake
    rw [if_neg hstake]
    by_cases hgain : nDebit < ownValue env wtx + staleCredit env wtx ∨ wtx.isCoinBase
    · rw [if_pos (hgain.imp (by omega) Or.inl)] at htotal
      obtain ⟨t, ht, rfl⟩ := htotal
      rw [if_pos hgain, credits_ordinary hordinary _ ht, hempty]
      change 0 + ownValue env wtx = _ ↔ _
      omega
    · have hloss : ¬(nCredit - nDebit > 0 ∨ wtx.isCoinBase = true ∨ wtx.isCoinStake = true) := by
        rw [not_or, not_or]
        rw [not_or] at hgain
        exact ⟨by omega, hgain.2, hstake⟩
      rw [if_neg hloss] at htotal
      rw [if_neg hgain]
      split
      · next hpaid =>
        rw [if_pos hpaid] at htotal
        omega
      · next hpaid =>
        rw [if_neg hpaid] at htotal
        exact iff_of_true htotal trivial

namespace RecordExample

open Builders RefusedSpendExample

def walletTx (tx : CTransaction) : ListedTx :=
  ⟨⟨⟨⟨⟨tx, 0, [], -1, true, []⟩, none, none, none, none⟩, false, []⟩, []⟩, 200, 0, ∅, 0⟩

/-- A coin of ours with the value 5 pays 4 to someone else. -/
def paid : ListedTx :=
  walletTx (spending 11 200 [⟨10, 0⟩] [⟨4, scriptFor (.keyID 8)⟩])

/-- Our coin and one of someone else pay 30 to us and 20 to them. -/
def shared : ListedTx :=
  walletTx (spending 12 200 [⟨10, 0⟩, ⟨6, 0⟩] [⟨30, scriptFor (.keyID 7)⟩, ⟨20, scriptFor (.keyID 8)⟩])

def window : AccountEnv := ours .empty

theorem decompose_paid (hash : List UInt8 → Uint256) : decomposeTransaction window hash paid =
    some [sent window hash paid ⟨4, scriptFor (.keyID 8)⟩ 5 0] := rfl

theorem decompose_shared (hash : List UInt8 → Uint256) : decomposeTransaction window hash shared =
    some [received window hash shared ⟨30, scriptFor (.keyID 7)⟩ 0] := rfl

/-- What is paid and the fee are shown. -/
theorem total_paid : total [sent window (fun _ ↦ 0) paid ⟨4, scriptFor (.keyID 8)⟩ 5 0] = 0 - 5 :=
  (total_decomposeTransaction_iff (by decide) rfl rfl (decompose_paid fun _ ↦ 0)).mpr (by decide)

/-- Our coin in a payment of several is left out. -/
theorem not_total_decomposeTransaction :
    ¬∀ (env : AccountEnv) (hash : List UInt8 → Uint256) (wtx : ListedTx) (nCredit nDebit : ℤ)
      (parts : List TransactionRecord), isMature env wtx.toAccountTx = true →
        wtx.toCachingTx.getCredit env.owner env.wallet (wtx.getBlocksToMaturity env) true = some nCredit →
        wtx.toCachingTx.getDebit env.owner env.wallet = some nDebit →
        decomposeTransaction env hash wtx = some parts → total parts = nCredit - nDebit := by
  intro h
  have hsame := h window (fun _ ↦ 0) shared 30 5 _ (by decide) rfl rfl (decompose_shared _)
  obtain ⟨hcredit, hdebit⟩ := total_received window (fun _ ↦ 0) shared ⟨30, scriptFor (.keyID 7)⟩ 0
  rw [← List.nil_append [received _ _ _ _ _], total_concat, hcredit, hdebit] at hsame
  cases hsame

end RecordExample

end Electra.Qt

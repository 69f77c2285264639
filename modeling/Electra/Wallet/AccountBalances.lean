import Electra.Wallet.Records
import Electra.Wallet.Trusted

/-!
# Balances of accounts

`GetAmounts` lists what a wallet transaction receives and sends, without its change and its empty
outputs, and the fee.  `GetAccountAmounts` keeps what belongs to one account.

`GetAccountBalance` adds up what the transactions of a wallet move for one account, and `listaccounts`
goes over the transactions once and spreads what they move over a map of all accounts.
-/

namespace Electra.Wallet

open Chain

section

/-- A name of an account: the label of its addresses. -/
abbrev Account := List UInt8

/-- A wallet transaction with the account that it was sent from. -/
structure AccountTx extends SupportedTx where
  strFromAccount : Account

/-- What the amounts depend on, with the labels of the addresses in the address book. -/
structure AccountEnv extends TrustEnv where
  label : CTxDestination → Account

structure TxAmounts where
  listReceived : List (CTxDestination × ℤ)
  listSent : List (CTxDestination × ℤ)
  nFee : ℤ
  strSentAccount : Account

variable (env : AccountEnv)

def SupportedTx.getBlocksToMaturity (wtx : SupportedTx) : ℤ :=
  wtx.toCWalletTx.getBlocksToMaturity env.owner.P env.node wtx.fMerkleVerified

def SupportedTx.getDepthInMainChain (wtx : SupportedTx) : ℤ :=
  wtx.toCMerkleTx.getDepthInMainChain env.toTrustEnv

namespace AccountEnv

def isMine (txout : CTxOut) : Bool := env.wallet.isMine env.owner txout

def isChange (txout : CTxOut) : Bool := env.wallet.isChange env.owner txout

/-- The account of an address; what is not in the address book is in the default account. -/
def accountOf (address : CTxDestination) : Account :=
  if address ∈ env.wallet.mapAddressBook then env.label address else []

/-- The destination and the value of an output. -/
def destination (txout : CTxOut) : CTxDestination × ℤ :=
  ((extractDestination env.owner.getID txout.scriptPubKey).getD .noDestination, txout.nValue)

/-- Only need to handle txouts if they debit from us, apart from change, or are to us. -/
def isHandled (nDebit : ℤ) (txout : CTxOut) : Bool :=
  !txout.scriptPubKey.isEmpty && if nDebit > 0 then !env.isChange txout else env.isMine txout

end AccountEnv

def sumOfValues (entries : List (CTxDestination × ℤ)) : ℤ := (entries.map Prod.snd).sum

namespace AccountTx

variable (wtx : AccountTx)

/-- The amounts of a transaction with a debit and a fee. -/
def amountsWith (nDebit nFee : ℤ) : TxAmounts where
  listReceived := ((wtx.vout.filter (env.isHandled nDebit)).filter env.isMine).map env.destination
  listSent := if nDebit > 0 then (wtx.vout.filter (env.isHandled nDebit)).map env.destination else []
  nFee := nFee
  strSentAccount := wtx.strFromAccount

def getAmounts : Option TxAmounts := do
  let nDebit ← wtx.toCachingTx.getDebit env.owner env.wallet
  if nDebit > 0 then
    let nValueOut ← wtx.toCTransaction.getValueOut.toOption
    -- debit>0 means we signed/sent this transaction
    some (wtx.amountsWith env nDebit (nDebit - nValueOut))
  else some (wtx.amountsWith env nDebit 0)

end AccountTx

structure AccountAmounts where
  nReceived : ℤ
  nSent : ℤ
  nFee : ℤ

def TxAmounts.forAccount (amounts : TxAmounts) (strAccount : Account) : AccountAmounts where
  nReceived := sumOfValues (amounts.listReceived.filter fun r ↦ env.accountOf r.1 = strAccount)
  nSent := if strAccount = amounts.strSentAccount then sumOfValues amounts.listSent else 0
  nFee := if strAccount = amounts.strSentAccount then amounts.nFee else 0

def AccountTx.getAccountAmounts (wtx : AccountTx) (strAccount : Account) : Option AccountAmounts :=
  (wtx.getAmounts env).map fun amounts ↦ amounts.forAccount env strAccount

end

/-- An accounting entry with the account and the number of its record. -/
structure AccountEntry extends Records.CAccountingEntry where
  strAccount : Account
  nEntryNo : ℕ

/-- The account that stands for all accounts. -/
def allAccounts : Account := Records.ofString "*"

/-- The entries of an account stand next to each other in the database. -/
def listAccountCreditDebit (entries : List AccountEntry) (strAccount : Account) : List AccountEntry :=
  entries.filter fun entry ↦ strAccount = allAccounts || entry.strAccount = strAccount

def totalCreditDebit (entries : List AccountEntry) : ℤ :=
  (entries.map fun entry ↦ entry.nCreditDebit).sum

def getAccountCreditDebit (entries : List AccountEntry) (strAccount : Account) : ℤ :=
  totalCreditDebit (listAccountCreditDebit entries strAccount)

section Balance

variable (env : AccountEnv) (nMinDepth : ℤ) (strAccount : Account)

/-- What a transaction adds to the balance of an account. -/
def balanceTurn (nBalance : ℤ) (wtx : AccountTx) : Option ℤ :=
  if !wtx.toCMerkleTx.isFinal env.toTrustEnv || decide (wtx.getDepthInMainChain env < 0) then some nBalance
  else do
    let amounts ← wtx.getAccountAmounts env strAccount
    let nBalance :=
      if amounts.nReceived ≠ 0 ∧ wtx.getDepthInMainChain env ≥ nMinDepth ∧
          wtx.getBlocksToMaturity env = 0 then nBalance + amounts.nReceived
      else nBalance
    some (nBalance - (amounts.nSent + amounts.nFee))

def getAccountBalance (mapWallet : List AccountTx) (entries : List AccountEntry) : Option ℤ := do
  let nBalance ← mapWallet.foldlM (balanceTurn env nMinDepth strAccount) 0
  some (nBalance + getAccountCreditDebit entries strAccount)

end Balance

abbrev AccountBalances := AList fun _ : Account ↦ ℤ

/-- `mapAccountBalances[strAccount] += nValue`. -/
def AccountBalances.add (balances : AccountBalances) (part : Account × ℤ) : AccountBalances :=
  balances.insert part.1 ((balances.lookup part.1).getD 0 + part.2)

section List

variable (env : AccountEnv) (nMinDepth : ℤ)

/-- The parts of the balances that a transaction adds, one after the other. -/
def listedParts (wtx : AccountTx) (amounts : TxAmounts) : List (Account × ℤ) :=
  (amounts.strSentAccount, -amounts.nFee) ::
    (amounts.listSent.map (fun s ↦ (amounts.strSentAccount, -s.2)) ++
      if wtx.getDepthInMainChain env ≥ nMinDepth ∧ wtx.getBlocksToMaturity env = 0 then
        amounts.listReceived.map fun r ↦ (env.accountOf r.1, r.2)
      else [])

def listTurn (balances : AccountBalances) (wtx : AccountTx) : Option AccountBalances :=
  if wtx.getDepthInMainChain env < 0 then some balances
  else do
    let amounts ← wtx.getAmounts env
    some ((listedParts env nMinDepth wtx amounts).foldl .add balances)

/-- The addresses are those of the address book. -/
def listAccounts (addresses : List CTxDestination) (mapWallet : List AccountTx)
    (entries : List AccountEntry) : Option AccountBalances := do
  -- This address belongs to me
  let own := addresses.filter env.wallet.keystore.isMineAddress
  let balances := own.foldl (fun (balances : AccountBalances) address ↦
    balances.insert (env.label address) 0) ∅
  let balances ← mapWallet.foldlM (listTurn env nMinDepth) balances
  some ((listAccountCreditDebit entries allAccounts).foldl (fun balances entry ↦
    balances.add (entry.strAccount, entry.nCreditDebit)) balances)

end List

variable {env : AccountEnv} {nMinDepth nBalance : ℤ} {strAccount : Account} {wtx : AccountTx}
  {amounts : TxAmounts} {balances balances' : AccountBalances} {mapWallet : List AccountTx}
  {entries : List AccountEntry}

namespace AccountBalances

/-- What a map holds for an account. -/
def held (balances : AccountBalances) (strAccount : Account) : ℤ := (balances.lookup strAccount).getD 0

theorem held_insert {b : Account} {nValue : ℤ} : held (balances.insert b nValue) strAccount =
    if b = strAccount then nValue else balances.held strAccount := by
  unfold held
  split
  · next hsame =>
    rw [hsame, AList.lookup_insert]
    rfl
  · next hdiff => rw [AList.lookup_insert_ne (Ne.symm hdiff)]

/-- What a list of parts adds to an account. -/
def sumFor (strAccount : Account) (parts : List (Account × ℤ)) : ℤ :=
  (parts.map fun part ↦ if part.1 = strAccount then part.2 else 0).sum

theorem held_foldl_add (parts : List (Account × ℤ)) :
    held (parts.foldl .add balances) strAccount = balances.held strAccount + sumFor strAccount parts := by
  induction parts generalizing balances with
  | nil => exact (Int.add_zero _).symm
  | cons part parts ih =>
    rw [List.foldl_cons, ih, AccountBalances.add, held_insert, sumFor, sumFor, List.map_cons,
      List.sum_cons]
    split
    · next hsame =>
      rw [hsame, Int.add_assoc]
      rfl
    · rw [Int.zero_add]

theorem held_foldl_zero (addresses : List CTxDestination) (h : balances.held strAccount = 0) :
    held (addresses.foldl (fun (balances : AccountBalances) address ↦
      balances.insert (env.label address) 0) balances) strAccount = 0 := by
  induction addresses generalizing balances with
  | nil => exact h
  | cons address addresses ih =>
    apply ih
    rw [held_insert]
    split
    · rfl
    · exact h

end AccountBalances

open AccountBalances

theorem sumFor_cons (part : Account × ℤ) (parts : List (Account × ℤ)) :
    sumFor strAccount (part :: parts) =
      (if part.1 = strAccount then part.2 else 0) + sumFor strAccount parts := by
  rw [sumFor, List.map_cons, List.sum_cons]
  rfl

theorem sumFor_append (parts parts' : List (Account × ℤ)) :
    sumFor strAccount (parts ++ parts') = sumFor strAccount parts + sumFor strAccount parts' := by
  rw [sumFor, List.map_append, List.sum_append]
  rfl

theorem sumOfValues_cons (r : CTxDestination × ℤ) (entries : List (CTxDestination × ℤ)) :
    sumOfValues (r :: entries) = r.2 + sumOfValues entries := by
  rw [sumOfValues, List.map_cons, List.sum_cons]
  rfl

theorem sumFor_sent (sent : List (CTxDestination × ℤ)) (b : Account) :
    sumFor strAccount (sent.map fun s ↦ (b, -s.2)) =
      -(if strAccount = b then sumOfValues sent else 0) := by
  induction sent with
  | nil => split <;> rfl
  | cons s sent ih =>
    rw [List.map_cons, sumFor_cons, ih]
    by_cases hsame : strAccount = b
    · rw [if_pos hsame, if_pos hsame, if_pos hsame.symm, sumOfValues_cons, Int.neg_add]
    · rw [if_neg hsame, if_neg hsame, if_neg (Ne.symm hsame), Int.neg_zero, Int.add_zero]

theorem sumFor_received (received : List (CTxDestination × ℤ)) :
    sumFor strAccount (received.map fun r ↦ (env.accountOf r.1, r.2)) =
      sumOfValues (received.filter fun r ↦ env.accountOf r.1 = strAccount) := by
  induction received with
  | nil => rfl
  | cons r received ih =>
    rw [List.map_cons, sumFor_cons, ih, List.filter_cons]
    split
    · next hsame => rw [if_pos (decide_eq_true hsame), sumOfValues_cons]
    · next hdiff => rw [if_neg (mt of_decide_eq_true hdiff), Int.zero_add]

/-- What a transaction moves for an account. -/
def movedFor (env : AccountEnv) (nMinDepth : ℤ) (strAccount : Account) (wtx : AccountTx) : ℤ :=
  match wtx.getAmounts env with
  | none => 0
  | some amounts => sumFor strAccount (listedParts env nMinDepth wtx amounts)

theorem sumFor_listedParts : sumFor strAccount (listedParts env nMinDepth wtx amounts) =
    (if wtx.getDepthInMainChain env ≥ nMinDepth ∧ wtx.getBlocksToMaturity env = 0 then
      (amounts.forAccount env strAccount).nReceived else 0) -
      ((amounts.forAccount env strAccount).nSent + (amounts.forAccount env strAccount).nFee) := by
  have hreceived : sumFor strAccount (if wtx.getDepthInMainChain env ≥ nMinDepth ∧
      wtx.getBlocksToMaturity env = 0 then
        amounts.listReceived.map fun r ↦ (env.accountOf r.1, r.2) else []) =
      if wtx.getDepthInMainChain env ≥ nMinDepth ∧ wtx.getBlocksToMaturity env = 0 then
        (amounts.forAccount env strAccount).nReceived else 0 := by
    split
    · exact sumFor_received amounts.listReceived
    · rfl
  have hfee : (if amounts.strSentAccount = strAccount then -amounts.nFee else 0) =
      -(amounts.forAccount env strAccount).nFee := by
    change _ = -(if strAccount = amounts.strSentAccount then amounts.nFee else 0)
    by_cases hsame : amounts.strSentAccount = strAccount
    · rw [if_pos hsame, if_pos hsame.symm]
    · rw [if_neg hsame, if_neg (Ne.symm hsame), Int.neg_zero]
  calc sumFor strAccount (listedParts env nMinDepth wtx amounts)
      = -(amounts.forAccount env strAccount).nFee + (-(amounts.forAccount env strAccount).nSent +
          if wtx.getDepthInMainChain env ≥ nMinDepth ∧ wtx.getBlocksToMaturity env = 0 then
            (amounts.forAccount env strAccount).nReceived else 0) := by
        rw [listedParts, sumFor_cons, sumFor_append, sumFor_sent, hreceived, hfee]
        rfl
    _ = _ := by omega

/-- A transaction that `listaccounts` counts is counted by `GetAccountBalance` if it is final. -/
theorem listTurn_spec (h : listTurn env nMinDepth balances wtx = some balances') :
    (wtx.getDepthInMainChain env < 0 → balances' = balances ∧
      balanceTurn env nMinDepth strAccount nBalance wtx = some nBalance) ∧
    (¬ wtx.getDepthInMainChain env < 0 →
      balances'.held strAccount = balances.held strAccount + movedFor env nMinDepth strAccount wtx ∧
      balanceTurn env nMinDepth strAccount nBalance wtx =
        if wtx.toCMerkleTx.isFinal env.toTrustEnv then
          some (nBalance + movedFor env nMinDepth strAccount wtx) else some nBalance) := by
  unfold listTurn at h
  unfold balanceTurn
  constructor
  · intro hdepth
    rw [if_pos hdepth] at h
    rw [decide_eq_true hdepth, Bool.or_true, if_pos rfl]
    exact ⟨(Option.some.inj h).symm, rfl⟩
  · intro hdepth
    rw [if_neg hdepth] at h
    obtain ⟨amounts, hamounts, hlisted⟩ := Option.bind_eq_some_iff.mp h
    have hmoved : movedFor env nMinDepth strAccount wtx =
        sumFor strAccount (listedParts env nMinDepth wtx amounts) := by
      rw [movedFor, hamounts]
    refine ⟨?_, ?_⟩
    · rw [hmoved, ← Option.some.inj hlisted, held_foldl_add]
    · rw [decide_eq_false hdepth, Bool.or_false]
      cases hfinal : wtx.toCMerkleTx.isFinal env.toTrustEnv with
      | false => rfl
      | true =>
        rw [hmoved, sumFor_listedParts, AccountTx.getAccountAmounts, hamounts]
        simp only [Bool.not_true, Bool.false_eq_true, if_false, if_true, Option.map_some,
          Option.bind_eq_bind, Option.bind_some, Option.some.injEq]
        by_cases hzero : (amounts.forAccount env strAccount).nReceived = 0
        · rw [if_neg (fun hboth ↦ hboth.1 hzero), hzero, ite_self]
          omega
        · by_cases hcounts : wtx.getDepthInMainChain env ≥ nMinDepth ∧ wtx.getBlocksToMaturity env = 0
          · rw [if_pos ⟨hzero, hcounts⟩, if_pos hcounts]
            omega
          · rw [if_neg (fun hboth ↦ hcounts hboth.2), if_neg hcounts]
            omega

/-- What the transactions in the chain or the pool that are final, or those that are not, move for an
account. -/
def movedBy (env : AccountEnv) (nMinDepth : ℤ) (strAccount : Account) (fFinal : Bool)
    (mapWallet : List AccountTx) : ℤ :=
  ((mapWallet.filter fun wtx ↦ !decide (wtx.getDepthInMainChain env < 0) &&
    wtx.toCMerkleTx.isFinal env.toTrustEnv == fFinal).map (movedFor env nMinDepth strAccount)).sum

theorem movedBy_cons (fFinal : Bool) : movedBy env nMinDepth strAccount fFinal (wtx :: mapWallet) =
    (if ¬ wtx.getDepthInMainChain env < 0 ∧ wtx.toCMerkleTx.isFinal env.toTrustEnv = fFinal then
      movedFor env nMinDepth strAccount wtx else 0) + movedBy env nMinDepth strAccount fFinal mapWallet := by
  rw [movedBy, List.filter_cons]
  split
  · next htrue =>
    rw [Bool.and_eq_true, Bool.not_eq_true', decide_eq_false_iff_not, beq_iff_eq] at htrue
    rw [if_pos htrue, List.map_cons, List.sum_cons]
    rfl
  · next hfalse =>
    rw [Bool.and_eq_true, Bool.not_eq_true', decide_eq_false_iff_not, beq_iff_eq] at hfalse
    rw [if_neg hfalse, Int.zero_add]
    rfl

theorem foldlM_listTurn_spec
    (h : mapWallet.foldlM (listTurn env nMinDepth) balances = some balances') :
    mapWallet.foldlM (balanceTurn env nMinDepth strAccount) nBalance =
        some (nBalance + movedBy env nMinDepth strAccount true mapWallet) ∧
      balances'.held strAccount = balances.held strAccount +
        movedBy env nMinDepth strAccount true mapWallet +
          movedBy env nMinDepth strAccount false mapWallet := by
  induction mapWallet generalizing balances nBalance with
  | nil =>
    obtain rfl := Option.some.inj h
    exact ⟨congrArg some (Int.add_zero _).symm, ((Int.add_zero _).trans (Int.add_zero _)).symm⟩
  | cons wtx mapWallet ih =>
    rw [List.foldlM_cons] at h
    obtain ⟨balances₁, hturn, hrest⟩ := Option.bind_eq_some_iff.mp h
    obtain ⟨hskipped, hcounted⟩ := @listTurn_spec env nMinDepth nBalance strAccount _ _ _ hturn
    rw [List.foldlM_cons, movedBy_cons, movedBy_cons]
    by_cases hdepth : wtx.getDepthInMainChain env < 0
    · obtain ⟨rfl, hturn'⟩ := hskipped hdepth
      obtain ⟨hbalance, hheld⟩ := @ih nBalance _ hrest
      rw [hturn', if_neg (fun h ↦ h.1 hdepth), if_neg (fun h ↦ h.1 hdepth), Int.zero_add, Int.zero_add]
      exact ⟨hbalance, hheld⟩
    · obtain ⟨hadd, hturn'⟩ := hcounted hdepth
      cases hfinal : wtx.toCMerkleTx.isFinal env.toTrustEnv with
      | true =>
        have hthis : ¬ wtx.getDepthInMainChain env < 0 ∧ true = true := ⟨hdepth, rfl⟩
        have hother : ¬ (¬ wtx.getDepthInMainChain env < 0 ∧ true = false) := fun h ↦ Bool.noConfusion h.2
        obtain ⟨hbalance, hheld⟩ := @ih (nBalance + movedFor env nMinDepth strAccount wtx) _ hrest
        rw [if_pos hthis, if_neg hother, hturn', hfinal, if_pos rfl, Option.bind_eq_bind, Option.bind_some,
          hbalance, hheld, hadd]
        exact ⟨congrArg some (by omega), by omega⟩
      | false =>
        have hthis : ¬ wtx.getDepthInMainChain env < 0 ∧ false = false := ⟨hdepth, rfl⟩
        have hother : ¬ (¬ wtx.getDepthInMainChain env < 0 ∧ false = true) := fun h ↦ Bool.noConfusion h.2
        obtain ⟨hbalance, hheld⟩ := @ih nBalance _ hrest
        rw [if_neg hother, if_pos hthis, hturn', hfinal, if_neg Bool.false_ne_true, Option.bind_eq_bind,
          Option.bind_some, hbalance, hheld, hadd]
        exact ⟨congrArg some (by omega), by omega⟩

/-- The accounting entries of other accounts that are listed with those of an account. -/
def otherCreditDebit (entries : List AccountEntry) (strAccount : Account) : ℤ :=
  if strAccount = allAccounts then
    totalCreditDebit (entries.filter fun entry ↦ entry.strAccount ≠ strAccount)
  else 0

theorem totalCreditDebit_cons (entry : AccountEntry) :
    totalCreditDebit (entry :: entries) = entry.nCreditDebit + totalCreditDebit entries := by
  rw [totalCreditDebit, List.map_cons, List.sum_cons]
  rfl

theorem listAccountCreditDebit_allAccounts : listAccountCreditDebit entries allAccounts = entries := by
  rw [listAccountCreditDebit, List.filter_eq_self]
  intro entry _
  rw [decide_eq_true rfl, Bool.true_or]

theorem sumFor_entries : sumFor strAccount (entries.map fun entry ↦ (entry.strAccount, entry.nCreditDebit)) =
    totalCreditDebit (entries.filter fun entry ↦ entry.strAccount = strAccount) := by
  induction entries with
  | nil => rfl
  | cons entry entries ih =>
    rw [List.map_cons, sumFor_cons, ih, List.filter_cons]
    split
    · next hsame => rw [if_pos (decide_eq_true hsame), totalCreditDebit_cons]
    · next hdiff => rw [if_neg (mt of_decide_eq_true hdiff), Int.zero_add]

theorem getAccountCreditDebit_eq : getAccountCreditDebit entries strAccount =
    totalCreditDebit (entries.filter fun entry ↦ entry.strAccount = strAccount) +
      otherCreditDebit entries strAccount := by
  unfold getAccountCreditDebit otherCreditDebit
  split
  · next hall =>
    subst hall
    rw [listAccountCreditDebit_allAccounts]
    induction entries with
    | nil => rfl
    | cons entry entries ih =>
      rw [totalCreditDebit_cons, ih, List.filter_cons, List.filter_cons]
      by_cases hsame : entry.strAccount = allAccounts
      · rw [if_pos (decide_eq_true hsame), if_neg (by rw [decide_eq_true_iff]; exact not_not.mpr hsame),
          totalCreditDebit_cons]
        omega
      · rw [if_neg (mt of_decide_eq_true hsame), if_pos (decide_eq_true hsame), totalCreditDebit_cons]
        omega
  · next hdiff =>
    rw [Int.add_zero, listAccountCreditDebit]
    congr 1
    apply List.filter_congr
    intro entry _
    rw [decide_eq_false hdiff, Bool.false_or]

/-- What `listaccounts` reports for an account is its balance if and only if the transactions that are not
final move nothing for it, or as much as the entries of other accounts that are listed with it. -/
theorem listAccounts_iff {addresses : List CTxDestination} {nReported : ℤ}
    (hlist : listAccounts env nMinDepth addresses mapWallet entries = some balances)
    (hreported : balances.lookup strAccount = some nReported) :
    getAccountBalance env nMinDepth strAccount mapWallet entries = some nReported ↔
      movedBy env nMinDepth strAccount false mapWallet = otherCreditDebit entries strAccount := by
  obtain ⟨balances', hfold, htotal⟩ := Option.bind_eq_some_iff.mp hlist
  obtain ⟨hbalance, hheld⟩ := @foldlM_listTurn_spec env nMinDepth 0 strAccount _ _ _ hfold
  rw [held_foldl_zero _ rfl] at hheld
  have hall : balances.held strAccount = balances'.held strAccount +
      totalCreditDebit (entries.filter fun entry ↦ entry.strAccount = strAccount) := by
    rw [← Option.some.inj htotal, listAccountCreditDebit_allAccounts, ← sumFor_entries, ← held_foldl_add,
      List.foldl_map]
  have hvalue : balances.held strAccount = nReported := by
    rw [held, hreported]
    rfl
  have heq : getAccountBalance env nMinDepth strAccount mapWallet entries =
      some (movedBy env nMinDepth strAccount true mapWallet +
        (totalCreditDebit (entries.filter fun entry ↦ entry.strAccount = strAccount) +
          otherCreditDebit entries strAccount)) := by
    rw [getAccountBalance, hbalance, getAccountCreditDebit_eq, Int.zero_add]
    rfl
  rw [heq, Option.some.injEq]
  omega

namespace PendingExample

open Builders

/-- A payment to our key that waits for a height. -/
def payment (nLockTime : ℕ) : CTransaction where
  nVersion := 11
  nTime := 200
  vin := [⟨⟨10, 0⟩, [], 0⟩]
  vout := [⟨5, scriptFor (.keyID 7)⟩]
  nLockTime

def tip : PIndex := quietIndex (network true) 2

/-- The payment is in the pool, and the address of our key has no label. -/
def ours (nLockTime : ℕ) : AccountEnv where
  owner := ⟨network true, fun _ ↦ 0, fun _ ↦ 0⟩
  wallet := ⟨⟨{7}, ∅⟩, ∅, 0, fun _ ↦ none⟩
  node := { nodeAt tip (txdbOf []) with mempool := CTxMemPool.empty.addUnchecked 11 (payment nLockTime) }
  nAdjustedTime := 900
  fConfChange := false
  label := fun _ ↦ []

def received (nLockTime : ℕ) : AccountTx :=
  ⟨⟨⟨⟨payment nLockTime, 0, [], -1, false, []⟩, none, none, none, none⟩, false, []⟩, []⟩

def reported (nLockTime : ℕ) : Option ℤ :=
  (listAccounts (ours nLockTime) 0 [] [received nLockTime] []).bind fun balances ↦ balances.lookup []

theorem reported_payments : reported 0 = some 5 ∧ reported 100 = some 5 ∧
    movedBy (ours 0) 0 [] false [received 0] = 0 ∧
    getAccountBalance (ours 100) 0 [] [received 100] [] = some 0 := by
  decide

/-- A final payment is in both. -/
theorem getAccountBalance_final : getAccountBalance (ours 0) 0 [] [received 0] [] = some 5 := by
  obtain ⟨balances, hlist, hreported⟩ := Option.bind_eq_some_iff.mp reported_payments.1
  exact (listAccounts_iff hlist hreported).mpr reported_payments.2.2.1

/-- A payment that is not final is reported, and not in the balance. -/
theorem not_reported_eq : ¬ ∀ (env : AccountEnv) (nMinDepth : ℤ) (addresses : List CTxDestination)
    (mapWallet : List AccountTx) (entries : List AccountEntry) (balances : AccountBalances)
    (strAccount : Account) (nReported : ℤ),
    listAccounts env nMinDepth addresses mapWallet entries = some balances →
      balances.lookup strAccount = some nReported →
        getAccountBalance env nMinDepth strAccount mapWallet entries = some nReported := by
  intro h
  obtain ⟨balances, hlist, hreported⟩ := Option.bind_eq_some_iff.mp reported_payments.2.1
  have hbalance := h _ _ _ _ _ _ _ _ hlist hreported
  rw [reported_payments.2.2.2] at hbalance
  cases hbalance

end PendingExample

end Electra.Wallet

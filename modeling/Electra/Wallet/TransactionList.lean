import Electra.Wallet.AccountBalances

/-!
# Listing transactions

`listtransactions` goes over the transactions and the accounting entries of a wallet from the newest to the
oldest, each of which may give several entries, until it has as many as it needs, and cuts the page out.
The sum of the number and the offset of the entries is a signed integer of 32 bits, whose overflow is
undefined.
-/

namespace Electra.Wallet

open Chain

/-- A wallet transaction with the fields that are listed. -/
structure ListedTx extends AccountTx where
  nTimeReceived : ℕ
  nTimeSmart : ℕ
  mapValue : Records.MapValue
  nOrderPos : ℤ

inductive JsonValue
  | text (s : List UInt8)
  | number (n : ℤ)
  | bool (f : Bool)
  /-- An amount in coins. -/
  | amount (n : ℤ)
  /-- A hash in hexadecimal form. -/
  | hash (hash : Uint256)
  | address (address : CTxDestination)

abbrev Object := List (List UInt8 × JsonValue)

def pair (name : String) (value : JsonValue) : List UInt8 × JsonValue := (Records.ofString name, value)

section Entries

variable (env : AccountEnv) (strAccount : Account)

def ListedTx.getTxTime (wtx : ListedTx) : ℕ := if wtx.nTimeSmart ≠ 0 then wtx.nTimeSmart else wtx.nTimeReceived

def walletTxToJSON (wtx : ListedTx) : Object :=
  let confirms := wtx.getDepthInMainChain env
  [pair "confirmations" (.number confirms)] ++
    (if wtx.isCoinBase || wtx.isCoinStake then [pair "generated" (.bool true)] else []) ++
    (if confirms > 0 then
      [pair "blockhash" (.hash wtx.hashBlock), pair "blockindex" (.number wtx.nIndex),
        pair "blocktime" (.number (((env.node.mapBlockIndex wtx.hashBlock).bind fun pindex ↦
          pindex.head?.map CBlockIndex.nTime).getD 0))]
    else []) ++
    [pair "txid" (.hash (env.owner.P.hashTx wtx.toCTransaction)), pair "time" (.number wtx.getTxTime),
      pair "timereceived" (.number wtx.nTimeReceived)] ++
    wtx.mapValue.toList.map fun item ↦ (item.1, .text item.2)

/-- `CElectraAddress::Set` refuses what is no address. -/
def maybeAddress : CTxDestination → Object
  | .noDestination => []
  | dest => [pair "address" (.address dest)]

def sentEntry (wtx : ListedTx) (amounts : TxAmounts) (s : CTxDestination × ℤ) : Object :=
  [pair "account" (.text amounts.strSentAccount)] ++ maybeAddress s.1 ++
    [pair "category" (.text (Records.ofString "send")), pair "amount" (.amount (-s.2)),
      pair "fee" (.amount (-amounts.nFee))] ++ walletTxToJSON env wtx

def receivedCategory (wtx : ListedTx) : String :=
  if wtx.isCoinBase || wtx.isCoinStake then
    if wtx.getDepthInMainChain env < 1 then "orphan"
    else if wtx.getBlocksToMaturity env > 0 then "immature"
    else "generate"
  else "receive"

def receivedEntry (wtx : ListedTx) (amounts : TxAmounts) (r : CTxDestination × ℤ) : Object :=
  [pair "account" (.text (env.accountOf r.1))] ++ maybeAddress r.1 ++
    [pair "category" (.text (Records.ofString (receivedCategory env wtx))),
      pair "amount" (.amount (if !wtx.isCoinStake then r.2 else -amounts.nFee))] ++ walletTxToJSON env wtx

/-- `ListTransactions` with the details of each transaction. -/
def transactionEntries (nMinDepth : ℤ) (wtx : ListedTx) : Option (List Object) := do
  let amounts ← wtx.getAmounts env
  let fAllAccounts := decide (strAccount = allAccounts)
  let sent :=
    if !wtx.isCoinStake && (!amounts.listSent.isEmpty || amounts.nFee ≠ 0) &&
        (fAllAccounts || strAccount = amounts.strSentAccount) then
      amounts.listSent.map (sentEntry env wtx amounts)
    else []
  let received :=
    if wtx.getDepthInMainChain env ≥ nMinDepth then
      let ours := amounts.listReceived.filter fun r ↦ fAllAccounts || env.accountOf r.1 = strAccount
      -- only one coinstake output
      (if wtx.isCoinStake then ours.take 1 else ours).map (receivedEntry env wtx amounts)
    else []
  some (sent ++ received)

def acentryToJSON (acentry : AccountEntry) : List Object :=
  if strAccount = allAccounts ∨ acentry.strAccount = strAccount then
    [[pair "account" (.text acentry.strAccount), pair "category" (.text (Records.ofString "move")),
      pair "time" (.number acentry.nTime), pair "amount" (.amount acentry.nCreditDebit),
      pair "otheraccount" (.text acentry.strOtherAccount), pair "comment" (.text acentry.strComment)]]
  else []

end Entries

inductive TxItem
  | tx (wtx : ListedTx)
  | acentry (entry : AccountEntry)

def TxItem.nOrderPos : TxItem → ℤ
  | .tx wtx => wtx.nOrderPos
  | .acentry entry => entry.nOrderPos

/-- All transactions and the accounting entries of an account, sorted by order.  Items in one place stay in
the order in which they come. -/
def orderedTxItems (mapWallet : List ListedTx) (entries : List AccountEntry) (strAccount : Account) :
    List TxItem :=
  (mapWallet.map TxItem.tx ++ (listAccountCreditDebit entries strAccount).map TxItem.acentry).mergeSort
    fun item item' ↦ decide (item.nOrderPos ≤ item'.nOrderPos)

/-- How a call ends without a page: a parameter is refused, an amount throws, or a sum overflows. -/
inductive ListStop
  | invalidParameter (text : String)
  | thrown
  | overflow
deriving DecidableEq

/-- A signed integer of 32 bits. -/
def checkedInt (n : ℤ) : Except ListStop ℤ :=
  if -2 ^ 31 ≤ n ∧ n < 2 ^ 31 then .ok n else .error .overflow

section Pages

variable (env : AccountEnv) (strAccount : Account) (nCount nFrom : Int32)

def itemEntries : TxItem → Option (List Object)
  | .tx wtx => transactionEntries env strAccount 0 wtx
  | .acentry entry => some (acentryToJSON strAccount entry)

/-- Go on until we have nCount items to return. -/
def listLoop : List TxItem → List Object → Except ListStop (List Object)
  | [], ret => .ok ret
  | item :: items, ret =>
      match itemEntries env strAccount item with
      | none => .error .thrown
      | some entries => do
          let ret := ret ++ entries
          let nStop ← checkedInt (nCount.toInt + nFrom.toInt)
          if (ret.length : ℤ) ≥ nStop then .ok ret else listLoop items ret

/-- The page that is cut out of the entries that were collected. -/
def cutPage (ret : List Object) : Except ListStop (List Object) := do
  let nFirst := if nFrom.toInt > ret.length then (ret.length : ℤ) else nFrom.toInt
  let nLast ← checkedInt (nFirst + nCount.toInt)
  let nLength := if nLast > ret.length then (ret.length : ℤ) - nFirst else nCount.toInt
  .ok (((ret.take (nFirst + nLength).toNat).drop nFirst.toNat).reverse)

def listTransactions (mapWallet : List ListedTx) (entries : List AccountEntry) :
    Except ListStop (List Object) := do
  if nCount.toInt < 0 then .error (.invalidParameter "Negative count")
  else if nFrom.toInt < 0 then .error (.invalidParameter "Negative from")
  else
    let ret ← listLoop env strAccount nCount nFrom (orderedTxItems mapWallet entries strAccount).reverse []
    cutPage nCount nFrom ret

end Pages

/-- All entries, from the newest to the oldest. -/
def allEntries (env : AccountEnv) (strAccount : Account) (mapWallet : List ListedTx)
    (entries : List AccountEntry) : Option (List Object) :=
  ((orderedTxItems mapWallet entries strAccount).reverse.mapM (itemEntries env strAccount)).map List.flatten

/-- The page of a number of entries behind an offset, from the oldest to the newest. -/
def page (full : List Object) (nCount nFrom : ℕ) : List Object := ((full.drop nFrom).take nCount).reverse

/-- Consecutive pages are a partition of the entries. -/
theorem flatMap_page (full : List Object) (nCount n : ℕ) :
    (List.range n).flatMap (fun k ↦ (page full nCount (k * nCount)).reverse) = full.take (n * nCount) := by
  induction n with
  | zero => rw [Nat.zero_mul, List.take_zero]; rfl
  | succ n ih =>
    rw [List.range_succ, List.flatMap_append, ih, List.flatMap_singleton, page, List.reverse_reverse,
      Nat.succ_mul, List.take_add]

variable {env : AccountEnv} {strAccount : Account} {nCount nFrom : Int32} {items : List TxItem}
  {ret full : List Object} {parts : List (List Object)} {mapWallet : List ListedTx}
  {entries : List AccountEntry}

theorem checkedInt_of_lt {n : ℤ} (hnonneg : 0 ≤ n) (hlt : n < 2 ^ 31) : checkedInt n = .ok n :=
  if_pos ⟨by omega, hlt⟩

/-- What is collected begins with the newest entries, and is all of them or enough for the page. -/
theorem listLoop_spec (hnonneg : 0 ≤ nCount.toInt + nFrom.toInt) (hlt : nCount.toInt + nFrom.toInt < 2 ^ 31)
    (hparts : items.mapM (itemEntries env strAccount) = some parts) (ret : List Object) :
    ∃ collected, listLoop env strAccount nCount nFrom items ret = .ok collected ∧
      collected <+: ret ++ parts.flatten ∧
      (collected = ret ++ parts.flatten ∨ nCount.toInt + nFrom.toInt ≤ collected.length) := by
  induction items generalizing ret parts with
  | nil =>
    obtain rfl := Option.some.inj hparts
    exact ⟨ret, rfl, List.prefix_append _ _, .inl (List.append_nil _).symm⟩
  | cons item items ih =>
    rw [List.mapM_cons] at hparts
    obtain ⟨part, hpart, hrest⟩ := Option.bind_eq_some_iff.mp hparts
    obtain ⟨parts', hparts', hcons⟩ := Option.bind_eq_some_iff.mp hrest
    rw [← Option.some.inj hcons, List.flatten_cons, ← List.append_assoc, listLoop, hpart]
    simp only [checkedInt_of_lt hnonneg hlt]
    by_cases henough : ((ret ++ part).length : ℤ) ≥ nCount.toInt + nFrom.toInt
    · refine ⟨ret ++ part, if_pos henough, List.prefix_append _ _, .inr henough⟩
    · obtain ⟨collected, hloop, hcollected⟩ := ih hparts' (ret ++ part)
      exact ⟨collected, (if_neg henough).trans hloop, hcollected⟩

/-- The ends of the page among the entries that were collected. -/
theorem cutPage_eq {nFirst nLength : ℕ} (hcount : 0 ≤ nCount.toInt) (hfrom : 0 ≤ nFrom.toInt)
    (hlt : (nFirst : ℤ) + nCount.toInt < 2 ^ 31) (hfirst : nFirst = min nFrom.toInt.toNat ret.length)
    (hlength : nLength = min nCount.toInt.toNat (ret.length - nFirst)) :
    cutPage nCount nFrom ret = .ok (((ret.drop nFirst).take nLength).reverse) := by
  have hfirst' : (if nFrom.toInt > ret.length then (ret.length : ℤ) else nFrom.toInt) = nFirst := by
    split <;> omega
  have hlength' : (if (nFirst : ℤ) + nCount.toInt > ret.length then (ret.length : ℤ) - nFirst
      else nCount.toInt) = nLength := by
    split <;> omega
  unfold cutPage
  simp only [hfirst', checkedInt_of_lt (n := nFirst + nCount.toInt) (by omega) (by omega), bind,
    Except.bind, hlength']
  rw [List.drop_take, Int.toNat_natCast, ← Int.natCast_add, Int.toNat_natCast, Nat.add_sub_cancel_left]

/-- The page is the same whether all entries were collected or only as many as it needs. -/
theorem cutPage_spec (hcount : 0 ≤ nCount.toInt) (hfrom : 0 ≤ nFrom.toInt)
    (hlt : nCount.toInt + nFrom.toInt < 2 ^ 31) (hbegins : ret <+: full)
    (henough : ret = full ∨ nCount.toInt + nFrom.toInt ≤ ret.length) :
    cutPage nCount nFrom ret = .ok (page full nCount.toInt.toNat nFrom.toInt.toNat) := by
  rw [cutPage_eq hcount hfrom (by omega) rfl rfl, page]
  congr 2
  obtain ⟨older, rfl⟩ := hbegins
  obtain hall | hmany := henough
  · rw [← hall]
    by_cases hpast : nFrom.toInt.toNat ≤ ret.length
    · rw [Nat.min_eq_left hpast, ← List.length_drop, List.take_eq_take_min (i := nCount.toInt.toNat)]
    · have hmin : min nFrom.toInt.toNat ret.length = ret.length := Nat.min_eq_right (by omega)
      rw [hmin, List.drop_length, List.drop_eq_nil_of_le (by omega), List.take_nil, List.take_nil]
  · rw [Nat.min_eq_left (by omega), Nat.min_eq_left (by omega), List.drop_append_of_le_length (by omega),
      List.take_append_of_le_length (by rw [List.length_drop]; omega)]

theorem orderedTxItems_eq_nil_iff : orderedTxItems mapWallet entries strAccount = [] ↔
    mapWallet = [] ∧ listAccountCreditDebit entries strAccount = [] := by
  rw [← List.length_eq_zero_iff, orderedTxItems, List.length_mergeSort, List.length_eq_zero_iff,
    List.append_eq_nil_iff, List.map_eq_nil_iff, List.map_eq_nil_iff]

/-- A call returns its page of the entries, from the oldest to the newest, if and only if there is nothing
to list or the sum of the count and the offset does not overflow.  Pages one behind the other are the newest
entries without a gap and without a repetition. -/
theorem listTransactions_iff (hcount : 0 ≤ nCount.toInt) (hfrom : 0 ≤ nFrom.toInt)
    (hall : allEntries env strAccount mapWallet entries = some full) :
    (listTransactions env strAccount nCount nFrom mapWallet entries =
        .ok (page full nCount.toInt.toNat nFrom.toInt.toNat) ↔
      mapWallet = [] ∧ listAccountCreditDebit entries strAccount = [] ∨
        nCount.toInt + nFrom.toInt < 2 ^ 31) ∧
    ∀ n, (List.range n).flatMap (fun k ↦ (page full nCount.toInt.toNat (k * nCount.toInt.toNat)).reverse) =
      full.take (n * nCount.toInt.toNat) := by
  refine ⟨?_, flatMap_page full nCount.toInt.toNat⟩
  obtain ⟨parts, hparts, rfl⟩ := Option.map_eq_some_iff.mp hall
  rw [← orderedTxItems_eq_nil_iff, listTransactions, if_neg (by omega), if_neg (by omega)]
  by_cases hlt : nCount.toInt + nFrom.toInt < 2 ^ 31
  · obtain ⟨ret, hloop, hbegins, henough⟩ := listLoop_spec (by omega) hlt hparts []
    rw [hloop]
    exact iff_of_true (cutPage_spec hcount hfrom hlt hbegins henough) (.inr hlt)
  · have hoverflow : checkedInt (nCount.toInt + nFrom.toInt) = .error .overflow :=
      if_neg fun h ↦ hlt h.2
    rw [or_iff_left hlt]
    generalize orderedTxItems mapWallet entries strAccount = items at hparts ⊢
    rw [← List.reverse_eq_nil_iff]
    cases hitems : items.reverse with
    | nil =>
      rw [hitems] at hparts
      obtain rfl := Option.some.inj hparts
      have hbound := nCount.toInt_lt
      have hcut : cutPage nCount nFrom [] = .ok [] :=
        @cutPage_eq nCount nFrom [] 0 0 hcount hfrom (by omega) (Nat.min_zero _).symm (Nat.min_zero _).symm
      have hpage : page ([] : List Object) nCount.toInt.toNat nFrom.toInt.toNat = [] := by
        rw [page, List.drop_nil, List.take_nil, List.reverse_nil]
      refine iff_of_true ?_ rfl
      rw [List.reverse_nil, List.flatten_nil, hpage]
      exact hcut
    | cons item rest =>
      rw [hitems, List.mapM_cons] at hparts
      obtain ⟨part, hpart, -⟩ := Option.bind_eq_some_iff.mp hparts
      refine iff_of_false ?_ (List.cons_ne_nil _ _)
      rw [listLoop, hpart]
      simp only [hoverflow, bind, Except.bind]
      exact fun h ↦ nomatch h

namespace MovesExample

def move (nCreditDebit nOrderPos : ℤ) : AccountEntry :=
  ⟨⟨nCreditDebit, 100, [], [], ∅, nOrderPos, []⟩, [], nOrderPos.toNat⟩

/-- Two entries of the default account. -/
def moves : List AccountEntry := [move 3 1, move 4 2]

def listed : List Object := (moves.reverse.map (acentryToJSON [])).flatten

def call (nCount nFrom : Int32) : Except ListStop (List Object) :=
  listTransactions (PendingExample.ours 0) [] nCount nFrom [] moves

theorem orderedTxItems_moves : orderedTxItems [] moves [] = moves.map TxItem.acentry :=
  List.mergeSort_of_pairwise (by decide)

theorem allEntries_moves : allEntries (PendingExample.ours 0) [] [] moves = some listed := by
  rw [allEntries, orderedTxItems_moves]
  rfl

/-- The older entry is the second page of one entry. -/
theorem call_second_page : call 1 1 = .ok (page listed 1 1) :=
  (@listTransactions_iff _ _ 1 1 _ _ _ (by decide) (by decide) allEntries_moves).1.mpr
    (.inr (by decide))

theorem call_overflow : call 2147483647 1 = .error .overflow := by
  rw [call, listTransactions, orderedTxItems_moves]
  rfl

/-- All entries behind the first one are asked for. -/
theorem not_page : ¬ ∀ (env : AccountEnv) (strAccount : Account) (nCount nFrom : Int32)
    (mapWallet : List ListedTx) (entries : List AccountEntry) (full : List Object),
    0 ≤ nCount.toInt → 0 ≤ nFrom.toInt → allEntries env strAccount mapWallet entries = some full →
      listTransactions env strAccount nCount nFrom mapWallet entries =
        .ok (page full nCount.toInt.toNat nFrom.toInt.toNat) := by
  intro h
  have hcall := call_overflow.symm.trans
    (h _ [] 2147483647 1 [] moves listed (by decide) (by decide) allEntries_moves)
  cases hcall

end MovesExample

end Electra.Wallet

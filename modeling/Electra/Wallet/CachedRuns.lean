import Electra.Chain.Builders
import Electra.Wallet.CachedAmounts
import Electra.Wallet.SpentFlags

/-!
# When cached amounts are current

An operation leaves the cached amounts current if what it changes is not behind any of them: a transaction
that is inserted brings no output of ours that a cached debit lacks, and what becomes ours, or change, or
stops being it, is no output of a value that a cached amount counts.
-/

namespace Electra.Wallet

open Chain Foundations.Memo

namespace CachingWallet

variable (env : OwnerEnv)

/-- Every amount that a wallet transaction returns is what computing it anew returns. -/
def AmountsCurrent (wallet : CachingWallet) : Prop :=
  ∀ hash wtx, wallet.mapWallet hash = some wtx →
    wtx.getDebit env wallet = wtx.markDirty.getDebit env wallet ∧
    (∀ nBlocksToMaturity fUseCache, wtx.getCredit env wallet nBlocksToMaturity fUseCache =
      wtx.markDirty.getCredit env wallet nBlocksToMaturity fUseCache) ∧
    (∀ nBlocksToMaturity fUseCache, wtx.getAvailableCredit env wallet nBlocksToMaturity fUseCache =
      wtx.markDirty.getAvailableCredit env wallet nBlocksToMaturity fUseCache) ∧
    wtx.getChange env wallet = wtx.markDirty.getChange env wallet

/-- The outputs of a value behind the cached amounts of a transaction stay whose they are. -/
structure SameOwnership (wallet wallet' : CachingWallet) (wtx : CachingTx) : Prop where
  debit : wtx.nDebitCached.isSome = true → ∀ txin ∈ wtx.vin, ∀ txout,
    wallet.output txin.prevout = some txout → txout.nValue ≠ 0 →
      wallet'.isMine env txout = wallet.isMine env txout
  credit : wtx.nCreditCached.isSome = true → ∀ txout ∈ wtx.vout, txout.nValue ≠ 0 →
    wallet'.isMine env txout = wallet.isMine env txout
  available : wtx.nAvailableCreditCached.isSome = true → ∀ txout ∈ unspent wtx.toCWalletTx,
    txout.nValue ≠ 0 → wallet'.isMine env txout = wallet.isMine env txout
  change : wtx.nChangeCached.isSome = true → ∀ txout ∈ wtx.vout, txout.nValue ≠ 0 →
    wallet'.isChange env txout = wallet.isChange env txout

/-- A change of the keys, the scripts or the address book that is behind no cached amount. -/
def OwnerMeets (wallet : CachingWallet) (event : OwnerEvent) : Prop :=
  ∀ hash wtx, wallet.mapWallet hash = some wtx →
    SameOwnership env wallet (wallet.changeOwner env event) wtx

def OwnerRunMeets : CachingWallet → List OwnerEvent → Prop
  | _, [] => True
  | wallet, event :: events =>
      OwnerMeets env wallet event ∧ OwnerRunMeets (wallet.changeOwner env event) events

/-- A transaction that the wallet does not have, and of which no transaction with a cached debit spends an
output of ours of a value. -/
def InsertMeets (wallet : CachingWallet) (wtxIn : CachingTx) : Prop :=
  wallet.mapWallet (env.P.hashTx wtxIn.toCTransaction) = none →
    ∀ hash wtx, wallet.mapWallet hash = some wtx → wtx.nDebitCached.isSome = true → ∀ txin ∈ wtx.vin,
      txin.prevout.hash = env.P.hashTx wtxIn.toCTransaction → ∀ txout,
        wtxIn.vout[txin.prevout.n]? = some txout → wallet.isMine env txout = true → txout.nValue = 0

def Meets (wallet : CachingWallet) : AmountEvent → Prop
  | .owner event => OwnerMeets env wallet event
  | .addToWallet wtxIn call => InsertMeets env wallet wtxIn ∧
      ((wallet.isChanged env wtxIn && !call.fWritten) = false → OwnerRunMeets env (wallet.insertTx env wtxIn)
        ((wallet.insertTx env wtxIn).defaultKeyEvents (wallet.inserted env wtxIn).toCWalletTx call.poolKey))
  | _ => True

def RunMeets : CachingWallet → List AmountEvent → Prop
  | _, [] => True
  | wallet, event :: events => Meets env wallet event ∧ RunMeets (wallet.step env event) events

structure AmountsUpToDate (wallet : CachingWallet) (wtx : CachingTx) : Prop where
  debit : UpToDate wtx.nDebitCached (wallet.getDebit env wtx.toCTransaction)
  credit : UpToDate wtx.nCreditCached (wallet.getCredit env wtx.toCTransaction)
  available : UpToDate wtx.nAvailableCreditCached (wallet.getAvailableCredit env wtx.toCWalletTx)
  change : UpToDate wtx.nChangeCached (wallet.getChange env wtx.toCTransaction)

def Current (wallet : CachingWallet) : Prop :=
  ∀ hash wtx, wallet.mapWallet hash = some wtx → AmountsUpToDate env wallet wtx

variable {env} {wallet wallet' : CachingWallet} {wtx wtx' : CachingTx} {hash h : Uint256}
  {f : CachingTx → CachingTx}

theorem amountsUpToDate_dirty (w : CWalletTx) : AmountsUpToDate env wallet ⟨w, none, none, none, none⟩ :=
  ⟨upToDate_none, upToDate_none, upToDate_none, upToDate_none⟩

theorem Current.amountsCurrent (hcurrent : Current env wallet) : AmountsCurrent env wallet := by
  intro hash wtx hentry
  have hwtx := hcurrent hash wtx hentry
  refine ⟨?_, fun nBlocksToMaturity fUseCache ↦ ?_, fun nBlocksToMaturity fUseCache ↦ ?_, ?_⟩
  · calc wtx.getDebit env wallet
        = if wtx.vin.isEmpty then some 0 else wallet.getDebit env wtx.toCTransaction := by
          rw [CachingTx.getDebit, hwtx.debit.or_eq]
      _ = wtx.markDirty.getDebit env wallet := rfl
  · calc wtx.getCredit env wallet nBlocksToMaturity fUseCache
        = if wtx.isImmature nBlocksToMaturity then some 0 else if fUseCache then
            wallet.getCredit env wtx.toCTransaction else wallet.getCredit env wtx.toCTransaction := by
          rw [CachingTx.getCredit, hwtx.credit.or_eq]
      _ = wtx.markDirty.getCredit env wallet nBlocksToMaturity fUseCache := rfl
  · calc wtx.getAvailableCredit env wallet nBlocksToMaturity fUseCache
        = if wtx.isImmature nBlocksToMaturity then some 0 else if fUseCache then
            wallet.getAvailableCredit env wtx.toCWalletTx
          else wallet.getAvailableCredit env wtx.toCWalletTx := by
          rw [CachingTx.getAvailableCredit, hwtx.available.or_eq]
      _ = wtx.markDirty.getAvailableCredit env wallet nBlocksToMaturity fUseCache := rfl
  · exact hwtx.change.or_eq

/-- The same keys, scripts and addresses, and the same outputs. -/
structure SameCoins (wallet wallet' : CachingWallet) : Prop where
  keystore : wallet'.keystore = wallet.keystore
  mapAddressBook : wallet'.mapAddressBook = wallet.mapAddressBook
  output : ∀ prevout, wallet'.output prevout = wallet.output prevout

theorem creditOf_congr (hkeystore : wallet'.keystore = wallet.keystore) :
    wallet'.creditOf env = wallet.creditOf env := by
  funext txout
  rw [creditOf, creditOf, isMine, isMine, hkeystore]

theorem changeOf_congr (hkeystore : wallet'.keystore = wallet.keystore)
    (hbook : wallet'.mapAddressBook = wallet.mapAddressBook) : wallet'.changeOf env = wallet.changeOf env := by
  funext txout
  rw [changeOf, changeOf, isChange, isChange, hkeystore, hbook]

theorem debitOf_eq {txin : CTxIn} (houtput : wallet'.output txin.prevout = wallet.output txin.prevout)
    (hsame : ∀ txout, wallet.output txin.prevout = some txout → txout.nValue ≠ 0 →
      wallet'.isMine env txout = wallet.isMine env txout) :
    wallet'.debitOf env txin = wallet.debitOf env txin := by
  unfold debitOf
  rw [houtput]
  cases hout : wallet.output txin.prevout with
  | none => rfl
  | some txout =>
    by_cases hzero : txout.nValue = 0
    · simp only [hzero, ite_self]
    · simp only [hsame txout hout hzero]

/-- Only the debit looks at other transactions. -/
theorem AmountsUpToDate.congr (hwtx : AmountsUpToDate env wallet wtx)
    (hkeystore : wallet'.keystore = wallet.keystore) (hbook : wallet'.mapAddressBook = wallet.mapAddressBook)
    (hdebit : wtx.nDebitCached.isSome = true → ∀ txin ∈ wtx.vin,
      wallet'.debitOf env txin = wallet.debitOf env txin) : AmountsUpToDate env wallet' wtx where
  debit := by
    apply hwtx.debit.congr
    intro hcached
    rw [getDebit, getDebit]
    congr 1
    apply List.map_congr_left
    intro txin htxin
    rw [hdebit hcached txin htxin]
  credit := by
    rw [getCredit, creditOf_congr hkeystore]
    exact hwtx.credit
  available := by
    rw [getAvailableCredit, creditOf_congr hkeystore]
    exact hwtx.available
  change := by
    rw [getChange, changeOf_congr hkeystore hbook]
    exact hwtx.change

theorem AmountsUpToDate.sameCoins (hwtx : AmountsUpToDate env wallet wtx) (hsame : SameCoins wallet wallet') :
    AmountsUpToDate env wallet' wtx := by
  apply hwtx.congr hsame.keystore hsame.mapAddressBook
  intro _ txin _
  apply debitOf_eq (hsame.output txin.prevout)
  intro txout _ _
  rw [isMine, isMine, hsame.keystore]

theorem mapWallet_update : (wallet.update hash wtx).mapWallet h =
    if h = hash then some wtx else wallet.mapWallet h := by
  unfold update
  by_cases hsame : h = hash
  · rw [if_pos hsame, hsame]
    exact Function.update_self _ _ _
  · rw [if_neg hsame]
    exact Function.update_of_ne hsame _ _

theorem sameCoins_update (hentry : wallet.mapWallet hash = some wtx)
    (htx : wtx'.toCTransaction = wtx.toCTransaction) : SameCoins wallet (wallet.update hash wtx') := by
  refine ⟨rfl, rfl, fun prevout ↦ ?_⟩
  rw [output, output, mapWallet_update]
  split
  · next hsame =>
    rw [hsame, hentry]
    exact congrArg (fun tx : CTransaction ↦ tx.vout[prevout.n]?) htx
  · rfl

theorem Current.update (hcurrent : Current env wallet) (hentry : wallet.mapWallet hash = some wtx)
    (htx : wtx'.toCTransaction = wtx.toCTransaction) (hwtx : AmountsUpToDate env wallet wtx') :
    Current env (wallet.update hash wtx') := by
  have hsame := sameCoins_update hentry htx
  intro h other hother
  rw [mapWallet_update] at hother
  split at hother
  · obtain rfl := Option.some.inj hother
    exact hwtx.sameCoins hsame
  · exact (hcurrent h other hother).sameCoins hsame

/-- An operation on one transaction that keeps what is remembered up to date. -/
structure Refreshes (env : OwnerEnv) (wallet : CachingWallet) (f : CachingTx → CachingTx) : Prop where
  toCTransaction : ∀ wtx, (f wtx).toCTransaction = wtx.toCTransaction
  upToDate : ∀ wtx, AmountsUpToDate env wallet wtx → AmountsUpToDate env wallet (f wtx)

theorem Current.modify (hcurrent : Current env wallet) (hf : Refreshes env wallet f) (hash : Uint256) :
    Current env (wallet.modify hash f) := by
  unfold CachingWallet.modify
  cases hentry : wallet.mapWallet hash with
  | none => exact hcurrent
  | some wtx =>
    exact hcurrent.update hentry (hf.toCTransaction wtx) (hf.upToDate wtx (hcurrent hash wtx hentry))

theorem unspent_congr {w w' : CWalletTx} (hvout : w'.vout = w.vout)
    (hspent : ∀ i < w.vout.length, w'.isSpent i = w.isSpent i) : unspent w' = unspent w := by
  unfold unspent
  rw [hvout]
  congr 1
  apply List.filter_congr
  intro output houtput
  rw [hspent output.2 (List.snd_lt_of_mem_zipIdx houtput)]

/-- Setting a flag to what it is leaves the available outputs as they are. -/
theorem unspent_mark {w : CWalletTx} {nOut : ℕ} {fSpent : Bool} (hflag : w.isSpent nOut = fSpent) :
    unspent (w.mark nOut fSpent) = unspent w := by
  apply unspent_congr
  · rfl
  · intro i hi
    rw [CWallet.isSpent_mark hi]
    split
    · next hsame => rw [hsame, hflag]
    · rfl

theorem refreshes_markSpent (nOut : ℕ) : Refreshes env wallet fun wtx ↦ wtx.markSpent nOut where
  toCTransaction wtx := by
    unfold CachingTx.markSpent
    split <;> rfl
  upToDate wtx hwtx := by
    unfold CachingTx.markSpent
    split
    · refine ⟨hwtx.debit, hwtx.credit, ?_, hwtx.change⟩
      cases hspent : wtx.isSpent nOut with
      | false => exact upToDate_none
      | true =>
        rw [if_pos rfl, getAvailableCredit, CWalletTx.markSpent, unspent_mark hspent]
        exact hwtx.available
    · exact hwtx

theorem refreshes_markUnspent (nOut : ℕ) : Refreshes env wallet fun wtx ↦ wtx.markUnspent nOut where
  toCTransaction wtx := by
    unfold CachingTx.markUnspent
    split <;> rfl
  upToDate wtx hwtx := by
    unfold CachingTx.markUnspent
    split
    · refine ⟨hwtx.debit, hwtx.credit, ?_, hwtx.change⟩
      cases hspent : wtx.isSpent nOut with
      | true => exact upToDate_none
      | false =>
        rw [if_neg Bool.false_ne_true, getAvailableCredit, CWalletTx.markUnspent, unspent_mark hspent]
        exact hwtx.available
    · exact hwtx

theorem refreshes_updateSpent (vfNewSpent : List Bool) :
    Refreshes env wallet fun wtx ↦ wtx.updateSpent vfNewSpent where
  toCTransaction _ := rfl
  upToDate wtx hwtx := by
    refine ⟨hwtx.debit, hwtx.credit, ?_, hwtx.change⟩
    unfold CachingTx.updateSpent
    split
    · next hflags =>
      have hsame : unspent (wtx.toCWalletTx.updateSpent vfNewSpent) = unspent wtx.toCWalletTx := by
        apply unspent_congr
        · rfl
        · intro i _
          rw [CWalletTx.isSpent, CWalletTx.isSpent, hflags]
      rw [getAvailableCredit, hsame]
      exact hwtx.available
    · exact upToDate_none

theorem refreshes_rememberDebit : Refreshes env wallet fun wtx ↦ wtx.rememberDebit env wallet where
  toCTransaction wtx := by
    unfold CachingTx.rememberDebit
    split <;> rfl
  upToDate wtx hwtx := by
    unfold CachingTx.rememberDebit
    split
    · exact hwtx
    · exact ⟨hwtx.debit.recall, hwtx.credit, hwtx.available, hwtx.change⟩

theorem refreshes_rememberCredit (nBlocksToMaturity : ℤ) (fUseCache : Bool) :
    Refreshes env wallet fun wtx ↦ wtx.rememberCredit env wallet nBlocksToMaturity fUseCache where
  toCTransaction wtx := by
    unfold CachingTx.rememberCredit
    split <;> rfl
  upToDate wtx hwtx := by
    unfold CachingTx.rememberCredit
    split
    · exact hwtx
    · refine ⟨hwtx.debit, ?_, hwtx.available, hwtx.change⟩
      cases fUseCache with
      | true => exact hwtx.credit.recall
      | false => exact hwtx.credit.renew

theorem refreshes_rememberAvailableCredit (nBlocksToMaturity : ℤ) (fUseCache : Bool) :
    Refreshes env wallet fun wtx ↦ wtx.rememberAvailableCredit env wallet nBlocksToMaturity fUseCache where
  toCTransaction wtx := by
    unfold CachingTx.rememberAvailableCredit
    split <;> rfl
  upToDate wtx hwtx := by
    unfold CachingTx.rememberAvailableCredit
    split
    · exact hwtx
    · refine ⟨hwtx.debit, hwtx.credit, ?_, hwtx.change⟩
      cases fUseCache with
      | true => exact hwtx.available.recall
      | false => exact hwtx.available.renew

theorem refreshes_rememberChange : Refreshes env wallet fun wtx ↦ wtx.rememberChange env wallet where
  toCTransaction _ := rfl
  upToDate _ hwtx := ⟨hwtx.debit, hwtx.credit, hwtx.available, hwtx.change.recall⟩

theorem mapWallet_changeOwner (event : OwnerEvent) :
    (wallet.changeOwner env event).mapWallet = wallet.mapWallet := by
  cases event with
  | addKey fLocked keyID =>
    rw [changeOwner]
    split <;> rfl
  | addCScript redeemScript => rfl
  | setAddressBookName address => rfl
  | delAddressBookName address => rfl
  | setDefaultKey keyID => rfl

/-- An output counts for nothing when its value is zero. -/
theorem creditOf_eq {txout : CTxOut}
    (hsame : txout.nValue ≠ 0 → wallet'.isMine env txout = wallet.isMine env txout) :
    wallet'.creditOf env txout = wallet.creditOf env txout := by
  unfold creditOf
  by_cases hzero : txout.nValue = 0
  · rw [hzero, ite_self, ite_self]
  · rw [hsame hzero]

theorem changeOf_eq {txout : CTxOut}
    (hsame : txout.nValue ≠ 0 → wallet'.isChange env txout = wallet.isChange env txout) :
    wallet'.changeOf env txout = wallet.changeOf env txout := by
  unfold changeOf
  by_cases hzero : txout.nValue = 0
  · rw [hzero, ite_self, ite_self]
  · rw [hsame hzero]

theorem AmountsUpToDate.sameOwnership (hwtx : AmountsUpToDate env wallet wtx)
    (hmap : wallet'.mapWallet = wallet.mapWallet) (hsame : SameOwnership env wallet wallet' wtx) :
    AmountsUpToDate env wallet' wtx where
  debit := by
    apply hwtx.debit.congr
    intro hcached
    unfold getDebit
    congr 1
    apply List.map_congr_left
    intro txin htxin
    congr 1
    apply debitOf_eq _ (hsame.debit hcached txin htxin)
    rw [output, output, hmap]
  credit := by
    apply hwtx.credit.congr
    intro hcached
    unfold getCredit
    congr 1
    apply List.map_congr_left
    exact fun txout htxout ↦ creditOf_eq (hsame.credit hcached txout htxout)
  available := by
    apply hwtx.available.congr
    intro hcached
    unfold getAvailableCredit
    congr 1
    apply List.map_congr_left
    exact fun txout htxout ↦ creditOf_eq (hsame.available hcached txout htxout)
  change := by
    apply hwtx.change.congr
    intro hcached
    unfold getChange
    congr 1
    apply List.map_congr_left
    exact fun txout htxout ↦ changeOf_eq (hsame.change hcached txout htxout)

theorem Current.changeOwner (hcurrent : Current env wallet) {event : OwnerEvent}
    (hmeets : OwnerMeets env wallet event) : Current env (wallet.changeOwner env event) := by
  intro hash wtx hentry
  rw [mapWallet_changeOwner] at hentry
  exact (hcurrent hash wtx hentry).sameOwnership (mapWallet_changeOwner event) (hmeets hash wtx hentry)

theorem Current.foldl_changeOwner (hcurrent : Current env wallet) {events : List OwnerEvent}
    (hmeets : OwnerRunMeets env wallet events) : Current env (events.foldl (CachingWallet.changeOwner env) wallet) := by
  induction events generalizing wallet with
  | nil => exact hcurrent
  | cons event events ih => exact ih (hcurrent.changeOwner hmeets.1) hmeets.2

theorem Current.updateSpentInput (hcurrent : Current env wallet) (nBlocksToMaturity : CWalletTx → ℤ)
    (fThrown : Bool) (prevout : COutPoint) :
    Current env (updateSpentInput env nBlocksToMaturity (wallet, fThrown) prevout).1 := by
  unfold CachingWallet.updateSpentInput
  split
  · exact hcurrent
  · split
    · exact hcurrent
    · next wtx hentry =>
      split
      · exact hcurrent
      · split
        · dsimp only
          split
          · exact hcurrent
          · have hcredit := @refreshes_rememberCredit env wallet (nBlocksToMaturity wtx.toCWalletTx) true
            have hspent := @refreshes_markSpent env wallet prevout.n
            apply hcurrent.update hentry
            · exact (hspent.toCTransaction _).trans (hcredit.toCTransaction wtx)
            · exact hspent.upToDate _ (hcredit.upToDate wtx (hcurrent prevout.hash wtx hentry))
        · exact hcurrent

theorem Current.walletUpdateSpent (hcurrent : Current env wallet) (nBlocksToMaturity : CWalletTx → ℤ)
    (tx : CTransaction) (fBlock : Bool) :
    Current env (wallet.walletUpdateSpent env nBlocksToMaturity tx fBlock) := by
  have hinputs : ∀ (prevouts : List COutPoint) (s : CachingWallet × Bool), Current env s.1 →
      Current env (prevouts.foldl (CachingWallet.updateSpentInput env nBlocksToMaturity) s).1 := by
    intro prevouts
    induction prevouts with
    | nil => exact fun _ hs ↦ hs
    | cons prevout prevouts ih =>
      exact fun s hs ↦ ih _ (hs.updateSpentInput nBlocksToMaturity s.2 prevout)
  have houtputs : ∀ (outputs : List (CTxOut × ℕ)) (wallet : CachingWallet), Current env wallet →
      Current env (outputs.foldl (refreshOutput env (env.P.hashTx tx)) wallet) := by
    intro outputs
    induction outputs with
    | nil => exact fun _ hwallet ↦ hwallet
    | cons output outputs ih =>
      intro wallet hwallet
      apply ih
      unfold refreshOutput
      split
      · exact hwallet.modify (refreshes_markUnspent output.2) _
      · exact hwallet
  have hspent := hinputs (tx.vin.map CTxIn.prevout) (wallet, false) hcurrent
  unfold CachingWallet.walletUpdateSpent
  dsimp only
  split
  · exact hspent
  · split
    · exact houtputs _ _ hspent
    · exact hspent

/-- What a cached debit lacks, the new transaction does not bring. -/
theorem Current.insertTx (hcurrent : Current env wallet) {wtxIn : CachingTx}
    (hmeets : InsertMeets env wallet wtxIn) : Current env (wallet.insertTx env wtxIn) := by
  unfold CachingWallet.insertTx CachingWallet.inserted
  cases hentry : wallet.mapWallet (env.P.hashTx wtxIn.toCTransaction) with
  | some wtx =>
    exact hcurrent.update hentry CWallet.toCTransaction_mergeTx (amountsUpToDate_dirty _)
  | none =>
    intro hash wtx hwtx
    rw [mapWallet_update] at hwtx
    split at hwtx
    · obtain rfl := Option.some.inj hwtx
      exact amountsUpToDate_dirty _
    · apply (hcurrent hash wtx hwtx).congr
      · rfl
      · rfl
      · intro hcached txin htxin
        by_cases hparent : txin.prevout.hash = env.P.hashTx wtxIn.toCTransaction
        · have hbefore : wallet.output txin.prevout = none := by
            rw [output, hparent, hentry]
            rfl
          have hafter : (wallet.update (env.P.hashTx wtxIn.toCTransaction) wtxIn.markDirty).output
              txin.prevout = wtxIn.vout[txin.prevout.n]? := by
            rw [output, mapWallet_update, if_pos hparent]
            rfl
          unfold debitOf
          rw [hbefore, hafter]
          cases hout : wtxIn.vout[txin.prevout.n]? with
          | none => rfl
          | some txout =>
            have hzero := hmeets hentry hash wtx hwtx hcached txin htxin hparent txout hout
            change (if wallet.isMine env txout then txout.nValue else 0) = 0
            split
            · next hmine => exact hzero hmine
            · rfl
        · apply debitOf_eq
          · rw [output, output, mapWallet_update, if_neg hparent]
          · exact fun _ _ _ ↦ rfl

theorem Current.addToWallet (hcurrent : Current env wallet) {wtxIn : CachingTx} {call : AddCall}
    (hmeets : Meets env wallet (.addToWallet wtxIn call)) :
    Current env (wallet.addToWallet env wtxIn call) := by
  have hinserted := hcurrent.insertTx hmeets.1
  unfold CachingWallet.addToWallet
  dsimp only
  split
  · exact hinserted
  · next hwritten =>
    have hkeys := hinserted.foldl_changeOwner (hmeets.2 (eq_false_of_ne_true hwritten))
    exact hkeys.walletUpdateSpent call.nBlocksToMaturity _ _

theorem Current.step (hcurrent : Current env wallet) {event : AmountEvent}
    (hmeets : Meets env wallet event) : Current env (wallet.step env event) := by
  cases event with
  | owner event => exact hcurrent.changeOwner hmeets
  | addToWallet wtxIn call => exact hcurrent.addToWallet hmeets
  | markSpent hash nOut => exact hcurrent.modify (refreshes_markSpent nOut) hash
  | markUnspent hash nOut => exact hcurrent.modify (refreshes_markUnspent nOut) hash
  | updateSpent hash vfNewSpent => exact hcurrent.modify (refreshes_updateSpent vfNewSpent) hash
  | markDirty =>
    intro hash wtx hwtx
    obtain ⟨old, -, rfl⟩ := Option.map_eq_some_iff.mp hwtx
    exact amountsUpToDate_dirty _
  | getDebit hash => exact hcurrent.modify refreshes_rememberDebit hash
  | getCredit hash nBlocksToMaturity fUseCache =>
    exact hcurrent.modify (refreshes_rememberCredit nBlocksToMaturity fUseCache) hash
  | getAvailableCredit hash nBlocksToMaturity fUseCache =>
    exact hcurrent.modify (refreshes_rememberAvailableCredit nBlocksToMaturity fUseCache) hash
  | getChange hash => exact hcurrent.modify refreshes_rememberChange hash

theorem Current.run (hcurrent : Current env wallet) {events : List AmountEvent}
    (hmeets : RunMeets env wallet events) : Current env (wallet.run env events) := by
  induction events generalizing wallet with
  | nil => exact hcurrent
  | cons event events ih => exact ih (hcurrent.step hmeets.1) hmeets.2

/-- From a wallet in which nothing is remembered yet, all operations of which meet the conditions, the
amounts are current. -/
theorem amountsCurrent_of_runMeets (events : List AmountEvent)
    (hloaded : ∀ hash wtx, wallet.mapWallet hash = some wtx → wtx.markDirty = wtx)
    (hmeets : RunMeets env wallet events) : AmountsCurrent env (wallet.run env events) := by
  have hstart : Current env wallet := by
    intro hash wtx hentry
    rw [← hloaded hash wtx hentry]
    exact amountsUpToDate_dirty _
  exact (hstart.run hmeets).amountsCurrent

namespace CachedExample

open Builders

/-- A payment to the one key of the wallet, and a transaction that spends it. -/
def parentTx : CTransaction := coinbase 10 100 1 [⟨5, scriptFor (.keyID 7)⟩]

def childTx : CTransaction := spending 11 200 [⟨10, 0⟩] [⟨5, scriptFor (.keyID 8)⟩]

def hashes : OwnerEnv := ⟨network true, fun _ ↦ 0, fun _ ↦ 0⟩

def walletTx (tx : CTransaction) : CachingTx := ⟨⟨tx, 0, [], -1, false, []⟩, none, none, none, none⟩

def newWallet : CachingWallet := ⟨⟨{7}, ∅⟩, ∅, 0, fun _ ↦ none⟩

def quietCall : AddCall := ⟨true, fun _ ↦ ⟨[], none⟩, fun _ ↦ 0⟩

/-- The parent is entered and asked for what it has available. -/
def parentAsked : CachingWallet :=
  newWallet.run hashes [.addToWallet (walletTx parentTx) quietCall, .getAvailableCredit 10 0 true]

/-- Then the child is entered and asked for its debit, and the parent is asked again. -/
def childLater : List AmountEvent :=
  [.addToWallet (walletTx childTx) quietCall, .getDebit 11, .getAvailableCredit 10 0 true]

theorem no_debit_parentAsked {hash : Uint256} {wtx : CachingTx}
    (h : parentAsked.mapWallet hash = some wtx) : wtx.nDebitCached = none := by
  by_cases hparent : hash = 10
  · subst hparent
    exact Option.some.inj h ▸ rfl
  · have hnone : parentAsked.mapWallet hash = none := by
      change Function.update (Function.update newWallet.mapWallet 10 _) 10 _ hash = none
      rw [Function.update_of_ne hparent, Function.update_of_ne hparent]
      rfl
    cases hnone.symm.trans h

theorem meets_quietCall {wallet : CachingWallet} {tx : CTransaction}
    (hinsert : InsertMeets hashes wallet (walletTx tx))
    (hnone : (wallet.insertTx hashes (walletTx tx)).defaultKeyEvents
      (wallet.inserted hashes (walletTx tx)).toCWalletTx quietCall.poolKey = []) :
    Meets hashes wallet (.addToWallet (walletTx tx) quietCall) :=
  ⟨hinsert, fun _ ↦ by rw [hnone]; exact trivial⟩

/-- The child spends what the parent had cached as available. -/
theorem amountsCurrent_parent : AmountsCurrent hashes (parentAsked.run hashes childLater) ∧
    (parentAsked.mapWallet 10).map (·.nAvailableCreditCached) = some (some 5) ∧
    ((parentAsked.run hashes childLater).mapWallet 10).map (·.nAvailableCreditCached) = some (some 0) ∧
    ((parentAsked.run hashes childLater).mapWallet 11).map (·.nDebitCached) = some (some 5) := by
  have hcurrent : AmountsCurrent hashes (newWallet.run hashes
      (.addToWallet (walletTx parentTx) quietCall :: .getAvailableCredit 10 0 true :: childLater)) := by
    apply amountsCurrent_of_runMeets
    · exact fun _ _ hentry ↦ nomatch hentry
    · refine ⟨meets_quietCall (fun _ _ _ hentry ↦ nomatch hentry) (by decide), trivial,
        meets_quietCall (fun _ hash wtx hentry hcached ↦ ?_) (by decide), trivial, trivial, trivial⟩
      rw [no_debit_parentAsked hentry] at hcached
      cases hcached
  exact ⟨hcurrent, by decide, by decide, by decide⟩

/-- The child is entered and asked for its debit before the parent is entered. -/
def childFirst : List AmountEvent :=
  [.addToWallet (walletTx childTx) quietCall, .getDebit 11, .addToWallet (walletTx parentTx) quietCall]

/-- The child keeps the debit of zero. -/
theorem not_always_current : ¬∀ (env : OwnerEnv) (wallet : CachingWallet) (events : List AmountEvent),
    (∀ hash wtx, wallet.mapWallet hash = some wtx → wtx.markDirty = wtx) →
      AmountsCurrent env (wallet.run env events) := by
  intro h
  have hcurrent := h hashes newWallet childFirst (fun _ _ hentry ↦ by cases hentry)
  have hamounts : ((newWallet.run hashes childFirst).mapWallet 11).map (fun wtx ↦
      (wtx.getDebit hashes (newWallet.run hashes childFirst),
        wtx.markDirty.getDebit hashes (newWallet.run hashes childFirst))) = some (some 0, some 5) := by
    decide
  obtain ⟨wtx, hentry, hboth⟩ := Option.map_eq_some_iff.mp hamounts
  obtain ⟨hcached, hanew⟩ := Prod.mk.inj hboth
  have hsame := (hcurrent 11 wtx hentry).1
  rw [hcached, hanew] at hsame
  cases hsame

end CachedExample

end CachingWallet

end Electra.Wallet

import Electra.Wallet.CachedRuns
import Electra.Wallet.CreatedPayment

/-!
# Refused payments

A payment that is refused before the commit gives the reserved key back and leaves the transactions of the
wallet, their flags and the address book.  One that the memory pool refuses has marked its inputs as spent.
-/

namespace Electra.Wallet

open Chain Foundations.Outcome

namespace CachingWallet

variable {book book' : CachingWallet} {p q : COutPoint}

/-- The wallet has the output and its spent flag is set. -/
def Flagged (book : CachingWallet) (q : COutPoint) : Prop :=
  ∃ coin, book.mapWallet q.hash = some coin ∧ q.n < coin.vout.length ∧ coin.isSpent q.n = true

theorem vout_markSpent (wtx : CachingTx) (nOut : ℕ) : (wtx.markSpent nOut).vout = wtx.vout := by
  unfold CachingTx.markSpent
  split <;> rfl

theorem isSpent_markSpent (wtx : CachingTx) {i nOut : ℕ} (hi : i < wtx.vout.length)
    (h : i = nOut ∨ wtx.isSpent i = true) : (wtx.markSpent nOut).isSpent i = true := by
  unfold CachingTx.markSpent
  split
  · calc (wtx.toCWalletTx.markSpent nOut).isSpent i
        = if i = nOut then true else wtx.isSpent i := CWallet.isSpent_mark hi
      _ = true := by
          split
          · rfl
          · next hne => exact h.resolve_left hne
  · next hout => exact h.resolve_left fun heq ↦ hout (heq ▸ hi)

/-- Marking an input sets its flag and clears none. -/
theorem markInput_flagged (h : markInput book p = .ok book') :
    book'.Flagged p ∧ ∀ q, book.Flagged q → book'.Flagged q := by
  unfold markInput at h
  split at h
  · cases h
  · next coin hcoin =>
    split at h
    · next hlt =>
      cases h
      have hsize : (coin.markDirty.markSpent p.n).vout.length = coin.vout.length :=
        congrArg List.length (vout_markSpent coin.markDirty p.n)
      constructor
      · exact ⟨_, by rw [mapWallet_update, if_pos rfl], hsize ▸ hlt,
          isSpent_markSpent coin.markDirty hlt (.inl rfl)⟩
      · rintro q ⟨coin', hcoin', hlt', hspent⟩
        by_cases hhash : q.hash = p.hash
        · rw [hhash, hcoin] at hcoin'
          cases hcoin'
          exact ⟨_, by rw [mapWallet_update, if_pos hhash], hsize ▸ hlt',
            isSpent_markSpent coin.markDirty hlt' (.inr hspent)⟩
        · exact ⟨coin', by rw [mapWallet_update, if_neg hhash, hcoin'], hlt', hspent⟩
    · cases h

/-- Then all the inputs of a transaction have their flags set. -/
theorem markInputs_flagged {prevouts : List COutPoint} (h : prevouts.foldlM markInput book = .ok book') :
    ∀ p ∈ prevouts, book'.Flagged p := by
  refine foldlM_processed (fun done book ↦ ∀ p ∈ done, book.Flagged p) ?_ (by simp) h
  intro done p rest book book' _ hdone hstep
  obtain ⟨hflagged, hkept⟩ := markInput_flagged hstep
  intro q hq
  obtain hq | hq := List.mem_append.mp hq
  · exact hkept q (hdone q hq)
  · exact List.mem_singleton.mp hq ▸ hflagged

end CachingWallet

/-- The same transactions with the same spent flags, the same address book, and a key pool that was topped
up at most. -/
structure LeftAsWas (newKey : ℕ → CPubKey) (st st' : PayingState) : Prop where
  mapWallet : ∀ hash, (st'.book.mapWallet hash).map CachingTx.toCWalletTx =
    (st.book.mapWallet hash).map CachingTx.toCWalletTx
  mapAddressBook : st'.book.mapAddressBook = st.book.mapAddressBook
  keyPool : st.keyPool.ToppedUp newKey st'.keyPool

section Payments

variable {env : PayEnv} {answers : PayAnswers} {wallet : PayingWallet env} {payment : Payment}
  {fuel : ℕ} {st st' : PayingState}

theorem leftAsWas_refl (st : PayingState) : LeftAsWas env.newKey st st :=
  ⟨fun _ ↦ rfl, rfl, .refl _⟩

theorem book_addKeys (env : PayEnv) (keyIDs : List CKeyID) (book : CachingWallet) :
    (keyIDs.foldl (fun book keyID ↦ book.changeOwner env.owner (.addKey false keyID)) book).mapWallet =
        book.mapWallet ∧
      (keyIDs.foldl (fun book keyID ↦ book.changeOwner env.owner (.addKey false keyID))
        book).mapAddressBook = book.mapAddressBook := by
  induction keyIDs generalizing book with
  | nil => exact ⟨rfl, rfl⟩
  | cons keyID keyIDs ih => exact ih _

theorem leftAsWas_withKeyPool (keyPool : KeyWallet) :
    LeftAsWas env.newKey st (st.withKeyPool env keyPool) ↔ st.keyPool.ToppedUp env.newKey keyPool := by
  obtain ⟨hmap, hbook⟩ := book_addKeys env
    (generatedKeys env st.keyPool.nGenerated keyPool.nGenerated) st.book
  refine ⟨fun h ↦ h.keyPool, fun h ↦ ⟨fun hash ↦ ?_, hbook, h⟩⟩
  rw [PayingState.withKeyPool, hmap]

/-- The coins of the transaction are marked, and the memory pool is as before. -/
theorem recordTransaction_spec {wtxNew : CachingTx} {reserve : KeyReserve}
    (h : recordTransaction env answers st wtxNew reserve = .ok st') :
    (∀ p ∈ wtxNew.vin.map CTxIn.prevout, st'.book.Flagged p) ∧ st'.mempool = st.mempool := by
  unfold recordTransaction at h
  dsimp only at h
  split at h
  · cases h
  · next st₁ hadd =>
    have hmempool : st₁.mempool = st.mempool := by
      unfold PayingState.addToWallet at hadd
      dsimp only at hadd
      split at hadd
      · cases hadd
        rfl
      · split at hadd
        · cases hadd
        · split at hadd
          · cases hadd
          · cases hadd
            rfl
    split at h
    · cases h
    · next book hmark =>
      cases h
      exact ⟨CachingWallet.markInputs_flagged hmark, hmempool⟩

variable {created : CreatedTx}

/-- A coin that the transaction spends was not marked before. -/
theorem exists_not_flagged (h : createPayment answers wallet payment fuel = some (.ok created)) :
    ∃ p ∈ created.wtxNew.vin.map CTxIn.prevout, ¬ wallet.book.Flagged p := by
  obtain ⟨coin, hinput, entry, hentry, hpointer, -, hspent⟩ := exists_unspent_of_created h
  refine ⟨_, hinput, ?_⟩
  rintro ⟨coin', hcoin', -, hflag⟩
  have hhash : (coinInput env.P wallet.view coin).prevout.hash = entry.1 := by
    rw [← wallet.hashed entry hentry, ← hpointer]
    rfl
  have hstored := wallet.stored entry hentry
  rw [hhash] at hcoin'
  rw [hcoin', Option.map_some, Option.some_inj] at hstored
  rw [hstored] at hflag
  exact Bool.false_ne_true (hspent.symm.trans hflag)

theorem not_leftAsWas_of_record
    (hcreate : createPayment answers wallet payment fuel = some (.ok created))
    (hrecord : recordTransaction env answers
      (wallet.toPayingState.withKeyPool env created.reserve.wallet)
      (payment.created created.wtxNew) created.reserve = .ok st') :
    ¬ LeftAsWas env.newKey wallet.toPayingState st' := by
  intro h
  obtain ⟨p, hp, hnot⟩ := exists_not_flagged hcreate
  obtain ⟨coin, hcoin, hlt, hspent⟩ := (recordTransaction_spec hrecord).1 p hp
  have hentry := h.mapWallet p.hash
  rw [hcoin, Option.map_some] at hentry
  obtain ⟨coin', hcoin', hsame⟩ := Option.map_eq_some_iff.mp hentry.symm
  exact hnot ⟨coin', hcoin', hsame ▸ hlt, hsame ▸ hspent⟩

/-- The user or the wallet lets a transaction through to the commit, which does not throw, and the memory
pool refuses it. -/
structure PoolRefuses (answers : PayAnswers) (wallet : PayingWallet env) (payment : Payment) (fuel : ℕ)
    (created : CreatedTx) (st : PayingState) : Prop where
  creates : createPayment answers wallet payment fuel = some (.ok created)
  asked : payment.fAskFee = true → answers.threadSafeAskFee created.nFeeRet = true
  recorded : recordTransaction env answers
    (wallet.toPayingState.withKeyPool env created.reserve.wallet) (payment.created created.wtxNew)
    created.reserve = .ok st
  refused : ∀ mempool, wallet.mempool.accept env.P answers.files answers.txdb answers.pindexBest
    created.wtxNew true ≠ .ok mempool

/-- The call fails before the commit during a shutdown, when a key is reserved. -/
structure LosesReserved (answers : PayAnswers) (wallet : PayingWallet env) (payment : Payment)
    (fuel : ℕ) : Prop where
  fShutdown : answers.fShutdown = true
  reserved : (paymentLeaves answers wallet payment fuel).2.holder.nIndex ≠ -1
  stopped : createPayment answers wallet payment fuel = some (.error .returnsFalse) ∧
      Foundations.MachineInt.InInt64 (payment.nValue + (paymentLeaves answers wallet payment fuel).1) ∨
    ∃ created, createPayment answers wallet payment fuel = some (.ok created) ∧
      payment.fAskFee = true ∧ answers.threadSafeAskFee created.nFeeRet = false

theorem feeText_ne (nFeeRequired : ℤ) : feeText nFeeRequired ≠ "" := by
  unfold feeText
  rw [ne_eq, String.append_eq_empty_iff, not_and_or]
  exact .inr (by decide)

/-- A call that ends before the commit gives the reserved key back. -/
theorem leftAsWas_released {result : Except CreateStop CreatedTx}
    (hcreate : createPayment answers wallet payment fuel = some result)
    (hthrown : ∀ text, result ≠ .error (.thrown text)) :
    LeftAsWas env.newKey wallet.toPayingState (wallet.toPayingState.withKeyPool env
        ((paymentLeaves answers wallet payment fuel).2.released answers.fShutdown)) ↔
      ¬ (answers.fShutdown = true ∧ (paymentLeaves answers wallet payment fuel).2.holder.nIndex ≠ -1) := by
  obtain ⟨hholds, -⟩ := createTransaction_leaves wallet.positive fuel answers.nFeeRequired
    (KeyReserve.holds_empty wallet.keyPool) hcreate hthrown
  rw [leftAsWas_withKeyPool]
  exact hholds.released_iff answers.fShutdown

theorem commitTransaction_cases (env : PayEnv) (answers : PayAnswers) (st : PayingState)
    (wtxNew : CachingTx) (reserve : KeyReserve) :
    (∃ text, commitTransaction env answers st wtxNew reserve = .error text ∧
        recordTransaction env answers st wtxNew reserve = .error text) ∨
      ∃ st₁, recordTransaction env answers st wtxNew reserve = .ok st₁ ∧
        ((∃ mempool, st.mempool.accept env.P answers.files answers.txdb answers.pindexBest
            wtxNew.toCTransaction true = .ok mempool ∧
            commitTransaction env answers st wtxNew reserve = .ok (true, { st₁ with mempool })) ∨
          (∀ mempool, st.mempool.accept env.P answers.files answers.txdb answers.pindexBest
            wtxNew.toCTransaction true ≠ .ok mempool) ∧
            commitTransaction env answers st wtxNew reserve = .ok (false, st₁)) := by
  unfold commitTransaction
  cases hrecord : recordTransaction env answers st wtxNew reserve with
  | error text => exact .inl ⟨text, rfl, rfl⟩
  | ok st₁ =>
    refine .inr ⟨st₁, rfl, ?_⟩
    dsimp only
    rw [(recordTransaction_spec hrecord).2]
    cases st.mempool.accept env.P answers.files answers.txdb answers.pindexBest wtxNew.toCTransaction
      true with
    | error reason => exact .inr ⟨nofun, rfl⟩
    | ok mempool => exact .inl ⟨mempool, rfl, rfl⟩

theorem spared_of_stop (hstop : createPayment answers wallet payment fuel ≠ some (.error .returnsFalse))
    (hcreated : ∀ created, createPayment answers wallet payment fuel ≠ some (.ok created)) :
    (∀ created st, ¬ PoolRefuses answers wallet payment fuel created st) ∧
      ¬ LosesReserved answers wallet payment fuel := by
  refine ⟨fun created st h ↦ hcreated created h.creates, fun h ↦ ?_⟩
  obtain ⟨hreturns, -⟩ | ⟨created, hsome, -⟩ := h.stopped
  · exact hstop hreturns
  · exact hcreated created hsome

/-- When `CreateTransaction` fails, only the reserved key can be lost. -/
theorem failed_leftAsWas_iff
    (hcreate : createPayment answers wallet payment fuel = some (.error .returnsFalse)) :
    (Foundations.MachineInt.InInt64 (payment.nValue + (paymentLeaves answers wallet payment fuel).1) →
      LeftAsWas env.newKey wallet.toPayingState (wallet.toPayingState.withKeyPool env
        ((paymentLeaves answers wallet payment fuel).2.released answers.fShutdown))) ↔
      (∀ created st, ¬ PoolRefuses answers wallet payment fuel created st) ∧
        ¬ LosesReserved answers wallet payment fuel := by
  rw [leftAsWas_released hcreate nofun]
  constructor
  · intro h
    refine ⟨fun created st hrefuses ↦ ?_, fun hloses ↦ ?_⟩
    · exact absurd (hcreate.symm.trans hrefuses.creates) nofun
    · obtain ⟨-, hrange⟩ | ⟨created, hsome, -⟩ := hloses.stopped
      · exact h hrange ⟨hloses.fShutdown, hloses.reserved⟩
      · exact absurd (hcreate.symm.trans hsome) nofun
  · rintro ⟨-, hkept⟩ hrange ⟨hshutdown, hreserved⟩
    exact hkept ⟨hshutdown, hreserved, .inl ⟨hcreate, hrange⟩⟩

/-- When the user does not take the fee, too. -/
theorem aborted_leftAsWas_iff (hcreate : createPayment answers wallet payment fuel = some (.ok created))
    (hasked : (payment.fAskFee && !answers.threadSafeAskFee created.nFeeRet) = true) :
    LeftAsWas env.newKey wallet.toPayingState (wallet.toPayingState.withKeyPool env
        ((paymentLeaves answers wallet payment fuel).2.released answers.fShutdown)) ↔
      (∀ created st, ¬ PoolRefuses answers wallet payment fuel created st) ∧
        ¬ LosesReserved answers wallet payment fuel := by
  rw [Bool.and_eq_true, Bool.not_eq_true'] at hasked
  rw [leftAsWas_released hcreate nofun]
  constructor
  · intro h
    refine ⟨fun created' st hrefuses ↦ ?_, fun hloses ↦ h ⟨hloses.fShutdown, hloses.reserved⟩⟩
    obtain rfl := Except.ok.inj (Option.some.inj (hcreate.symm.trans hrefuses.creates))
    rw [hrefuses.asked hasked.1] at hasked
    cases hasked.2
  · rintro ⟨-, hkept⟩ ⟨hshutdown, hreserved⟩
    exact hkept ⟨hshutdown, hreserved, .inr ⟨created, hcreate, hasked⟩⟩

/-- A recorded payment that is refused is not left as it was. -/
theorem not_refuses_iff (hcreate : createPayment answers wallet payment fuel = some (.ok created))
    (hasked : (payment.fAskFee && !answers.threadSafeAskFee created.nFeeRet) = false) :
    (∀ created st, ¬ PoolRefuses answers wallet payment fuel created st) ∧
        ¬ LosesReserved answers wallet payment fuel ↔
      ∀ st, commitTransaction env answers (wallet.toPayingState.withKeyPool env created.reserve.wallet)
        (payment.created created.wtxNew) created.reserve ≠ .ok (false, st) := by
  rw [Bool.and_eq_false_imp] at hasked
  have hloses : ¬ LosesReserved answers wallet payment fuel := by
    intro hloses
    obtain ⟨hstop, -⟩ | ⟨created', hsome, hask, hno⟩ := hloses.stopped
    · exact absurd (hcreate.symm.trans hstop) nofun
    · obtain rfl := Except.ok.inj (Option.some.inj (hcreate.symm.trans hsome))
      have hyes := hasked hask
      rw [hno] at hyes
      cases hyes
  have hanswer : payment.fAskFee = true → answers.threadSafeAskFee created.nFeeRet = true := by
    intro hask
    simpa using hasked hask
  constructor
  · rintro ⟨hrefuses, -⟩ st hcommit
    obtain ⟨text, herror, -⟩ | ⟨st₁, hrecord, ⟨mempool, -, htrue⟩ | ⟨hrefused, hfalse⟩⟩ :=
      commitTransaction_cases env answers
        (wallet.toPayingState.withKeyPool env created.reserve.wallet)
        (payment.created created.wtxNew) created.reserve
    · exact absurd (herror.symm.trans hcommit) nofun
    · exact absurd (htrue.symm.trans hcommit) nofun
    · exact hrefuses created st₁ ⟨hcreate, hanswer, hrecord, hrefused⟩
  · intro hcommit
    refine ⟨fun created' st hrefuses ↦ ?_, hloses⟩
    obtain rfl := Except.ok.inj (Option.some.inj (hcreate.symm.trans hrefuses.creates))
    obtain ⟨text, -, herror⟩ | ⟨st₁, -, ⟨mempool, haccept, -⟩ | ⟨-, hfalse⟩⟩ :=
      commitTransaction_cases env answers
        (wallet.toPayingState.withKeyPool env created.reserve.wallet)
        (payment.created created.wtxNew) created.reserve
    · exact absurd (herror.symm.trans hrefuses.recorded) nofun
    · exact hrefuses.refused mempool haccept
    · exact hcommit st₁ hfalse

/-- For every wallet and payment, an error leaves the wallet as it was unless the memory pool refuses what
was recorded, or a reserved key is not given back because the program shuts down. -/
theorem sendMoney_leftAsWas_iff (env : PayEnv) (answers : PayAnswers) (wallet : PayingWallet env)
    (payment : Payment) (fuel : ℕ) :
    (∀ strError st, sendMoney answers wallet payment fuel = some (.returned strError st) →
        strError ≠ "" → LeftAsWas env.newKey wallet.toPayingState st) ↔
      answers.fLocked = true ∨ answers.fWalletUnlockStakingOnly = true ∨
        (∀ created st, ¬ PoolRefuses answers wallet payment fuel created st) ∧
          ¬ LosesReserved answers wallet payment fuel := by
  unfold sendMoney
  cases hlocked : answers.fLocked with
  | true =>
    refine iff_of_true ?_ (.inl rfl)
    rintro strError st ⟨⟩ -
    exact leftAsWas_refl _
  | false =>
    cases hstaking : answers.fWalletUnlockStakingOnly with
    | true =>
      refine iff_of_true ?_ (.inr (.inl rfl))
      rintro strError st ⟨⟩ -
      exact leftAsWas_refl _
    | false =>
      simp only [Bool.false_eq_true, if_false, false_or]
      cases hcreate : createPayment answers wallet payment fuel with
      | none =>
        exact iff_of_true nofun (spared_of_stop (hcreate ▸ nofun) fun _ ↦ hcreate ▸ nofun)
      | some result =>
        cases result with
        | error stop =>
          cases stop with
          | overflow =>
            exact iff_of_true nofun (spared_of_stop (hcreate ▸ nofun) fun _ ↦ hcreate ▸ nofun)
          | thrown text =>
            exact iff_of_true nofun (spared_of_stop (hcreate ▸ nofun) fun _ ↦ hcreate ▸ nofun)
          | returnsFalse =>
            rw [← failed_leftAsWas_iff hcreate]
            dsimp only
            constructor
            · intro h hrange
              have hchecked : checked (payment.nValue + (paymentLeaves answers wallet payment fuel).1) =
                  .ok (payment.nValue + (paymentLeaves answers wallet payment fuel).1) :=
                checked_eq_ok.mpr ⟨hrange, rfl⟩
              rw [hchecked] at h
              dsimp only at h
              split at h
              · exact h _ _ rfl (feeText_ne _)
              · exact h _ _ rfl (by decide)
            · intro h strError st hsend _
              cases hchecked : checked
                  (payment.nValue + (paymentLeaves answers wallet payment fuel).1) with
              | error stop =>
                rw [hchecked] at hsend
                cases hsend
              | ok nTotal =>
                rw [hchecked] at hsend
                dsimp only at hsend
                have hleft := h (checked_eq_ok.mp hchecked).1
                split at hsend <;> cases hsend <;> exact hleft
        | ok created =>
          cases hasked : payment.fAskFee && !answers.threadSafeAskFee created.nFeeRet with
          | true =>
            rw [← aborted_leftAsWas_iff hcreate hasked]
            simp only [hasked, if_true]
            constructor
            · exact fun h ↦ h "ABORTED" _ rfl (by decide)
            · rintro h strError st ⟨⟩ -
              exact h
          | false =>
            rw [not_refuses_iff hcreate hasked]
            simp only [hasked, Bool.false_eq_true, if_false]
            obtain ⟨text, herror, -⟩ | ⟨st₁, hrecord, ⟨mempool, -, htrue⟩ | ⟨-, hfalse⟩⟩ :=
              commitTransaction_cases env answers
                (wallet.toPayingState.withKeyPool env created.reserve.wallet)
                (payment.created created.wtxNew) created.reserve
            · rw [herror]
              exact iff_of_true nofun nofun
            · rw [htrue]
              refine iff_of_true ?_ nofun
              rintro strError st ⟨⟩ hne
              exact absurd rfl hne
            · rw [hfalse]
              refine iff_of_false (fun h ↦ ?_) fun h ↦ h st₁ rfl
              exact not_leftAsWas_of_record hcreate hrecord (h _ st₁ rfl (by decide))

/-- The call ends. -/
theorem sendMoney_terminates (env : PayEnv) (answers : PayAnswers) (wallet : PayingWallet env)
    (payment : Payment) :
    ∃ nRounds, ∀ fuel, nRounds ≤ fuel → sendMoney answers wallet payment fuel ≠ none := by
  obtain ⟨nRounds, hrounds⟩ := (createTransaction_paysFor env.P env.toSpendEnv wallet.view none
    [(payment.scriptPubKey, payment.nValue)] payment.wtxNew.toCTransaction answers.choices
    ⟨.empty, wallet.keyPool⟩).1
  refine ⟨nRounds, fun fuel hfuel ↦ ?_⟩
  have hcreate : createPayment answers wallet payment fuel ≠ none := hrounds fuel hfuel
  unfold sendMoney
  cases answers.fLocked with
  | true => exact Option.some_ne_none _
  | false =>
    cases answers.fWalletUnlockStakingOnly with
    | true => exact Option.some_ne_none _
    | false =>
      simp only [Bool.false_eq_true, if_false]
      cases hresult : createPayment answers wallet payment fuel with
      | none => exact absurd hresult hcreate
      | some result =>
        cases result with
        | error stop =>
          cases stop with
          | overflow => exact Option.some_ne_none _
          | thrown text => exact Option.some_ne_none _
          | returnsFalse =>
            dsimp only
            split
            · exact Option.some_ne_none _
            · split <;> exact Option.some_ne_none _
        | ok created =>
          dsimp only
          split
          · exact Option.some_ne_none _
          · split <;> exact Option.some_ne_none _

end Payments

namespace RefusedExample

open Builders PaymentExample

def payEnv : PayEnv := { signer with P := network true, getScriptID := fun _ ↦ 0 }

def coinTx : CWalletTx := ⟨spending 9 10 [] [⟨5 * COIN, scriptFor (.keyID 7)⟩], 0, [], -1, false, []⟩

def keystore : OwnerStore := ⟨{7}, ∅⟩

/-- Another program with the same keys has spent the coin. -/
def otherTx : CTransaction := spending 77 50 [⟨9, 0⟩] [⟨4 * COIN, payTo 3⟩]

def oneCoinWallet : PayingWallet payEnv where
  keyPool := onePoolKey.wallet
  book := ⟨keystore, ∅, 0, fun hash ↦ if hash = 9 then some ⟨coinTx, none, none, none, none⟩ else none⟩
  mempool := CTxMemPool.empty.addUnchecked 77 otherTx
  view := { oneCoin with
    wtx := fun _ ↦ coinTx
    isMine := keystore.isMine payEnv.owner
    moneyRange := by decide }
  stored := by
    intro entry hentry
    obtain rfl := List.mem_singleton.mp hentry
    rfl
  listed := by
    intro hash hsome
    have hhash : hash = 9 := by simpa using hsome
    rw [hhash]
    exact List.mem_singleton.mpr rfl
  hashed := by
    intro entry hentry
    obtain rfl := List.mem_singleton.mp hentry
    decide
  isMine _ := rfl
  vchDefaultKey := by decide
  positive := by
    intro nIndex hmem
    rw [Finset.mem_singleton.mp hmem]
    decide

def quietAnswers : PayAnswers where
  fLocked := false
  fWalletUnlockStakingOnly := false
  fShutdown := false
  nFeeRequired := 0
  nBalance := 5 * COIN
  threadSafeAskFee _ := true
  choices n := { firstChoice n with
    keyPool := { (firstChoice n).keyPool with fLocked := false, nKeyPool := 0 } }
  keepKey := (firstChoice 0).keyPool
  defaultKey n := (firstChoice n).keyPool
  fWritten := true
  nBlocksToMaturity _ := 0
  files := filesOf []
  txdb := txdbOf []
  pindexBest := []

def twoCoins : Payment := ⟨payTo 2, 2 * COIN, ⟨emptyTx 60, 0, [], -1, false, []⟩, false⟩

/-- Whether the payment gets to a commit that the memory pool refuses. -/
def isRefused : Bool :=
  match createPayment quietAnswers oneCoinWallet twoCoins 1 with
  | some (.ok created) =>
      match commitTransaction payEnv quietAnswers
          (oneCoinWallet.toPayingState.withKeyPool payEnv created.reserve.wallet)
          (twoCoins.created created.wtxNew) created.reserve with
      | .ok (false, _) => true
      | _ => false
  | _ => false

/-- The payment is refused, and its coin stays marked as spent. -/
theorem not_leftAsWas : ∃ strError st,
    sendMoney quietAnswers oneCoinWallet twoCoins 1 = some (.returned strError st) ∧ strError ≠ "" ∧
      ¬ LeftAsWas payEnv.newKey oneCoinWallet.toPayingState st := by
  have hrefused : isRefused = true := by decide +kernel
  unfold isRefused at hrefused
  split at hrefused
  · next created hcreate =>
    split at hrefused
    · next st hcommit =>
      obtain ⟨text, herror, -⟩ | ⟨st₁, hrecord, ⟨mempool, -, htrue⟩ | ⟨-, hfalse⟩⟩ :=
        commitTransaction_cases payEnv quietAnswers
          (oneCoinWallet.toPayingState.withKeyPool payEnv created.reserve.wallet)
          (twoCoins.created created.wtxNew) created.reserve
      · exact absurd (herror.symm.trans hcommit) nofun
      · exact absurd (htrue.symm.trans hcommit) nofun
      · refine ⟨rejectedText, st₁, ?_, ?_, not_leftAsWas_of_record hcreate hrecord⟩
        · simp only [sendMoney, hcreate, hfalse]
          rfl
        · decide
    · cases hrefused
  · cases hrefused

end RefusedExample

end Electra.Wallet

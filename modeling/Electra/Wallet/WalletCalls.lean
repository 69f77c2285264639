import Electra.Chain.Builders
import Electra.Wallet.SpentFlags

/-!
# Calls that change spent flags

A wallet hears of transactions with and without a block, commits its own, disables a disconnected
coinstake, and checks its coins against the transaction index.  Which of its transactions are confirmed or
in the memory pool is up to the chain and the pool.
-/

namespace Electra.Chain

/-- A wallet transaction made from a transaction alone. -/
def CWalletTx.ofTx (tx : CTransaction) : CWalletTx where
  toCTransaction := tx
  hashBlock := 0
  vMerkleBranch := []
  nIndex := -1
  fFromMe := false
  vfSpent := []

/-- An empty transaction of the current version. -/
def CTransaction.empty (nAdjustedTime : ℕ) : CTransaction := ⟨1, nAdjustedTime, [], [], 0⟩

namespace CWallet

variable (P : ChainParams)

/-- The transaction that is inserted, or found and merged. -/
def inserted (wallet : CWallet) (wtxIn : CWalletTx) : CWalletTx :=
  match wallet.mapWallet (P.hashTx wtxIn.toCTransaction) with
  | none => wtxIn
  | some wtx => mergeTx wtx wtxIn

/-- `fInsertedNew || fUpdated`. -/
def isChanged (wallet : CWallet) (wtxIn : CWalletTx) : Bool :=
  match wallet.mapWallet (P.hashTx wtxIn.toCTransaction) with
  | none => true
  | some wtx => decide (mergeTx wtx wtxIn ≠ wtx)

def insertTx (wallet : CWallet) (wtxIn : CWalletTx) : CWallet :=
  wallet.update (P.hashTx wtxIn.toCTransaction) (wallet.inserted P wtxIn)

/-- `AddToWallet` with the answer of the database, which ends it before the inputs are marked. -/
def addToWalletWith (wallet : CWallet) (wtxIn : CWalletTx) (fWritten : Bool) : CWallet :=
  if wallet.isChanged P wtxIn && !fWritten then wallet.insertTx P wtxIn
  else (wallet.insertTx P wtxIn).walletUpdateSpent P (wallet.inserted P wtxIn).toCTransaction
    (decide (wtxIn.hashBlock ≠ 0))

/-- The wallet transaction that `AddToWalletIfInvolvingMe` adds. -/
def walletTxFor (tx : CTransaction) : Option CBlock → CWalletTx
  | none => .ofTx tx
  | some block => walletTxInBlock P tx block

def concernsMe (wallet : CWallet) (tx : CTransaction) : Bool :=
  (wallet.mapWallet (P.hashTx tx)).isSome || wallet.paysToMe tx || wallet.isFromMe tx

def skipsKnown (wallet : CWallet) (tx : CTransaction) (fUpdate : Bool) : Bool :=
  (wallet.mapWallet (P.hashTx tx)).isSome && !fUpdate

/-- Mark the coin of an input.  A transaction that the wallet does not have is created without outputs, and
what throws leaves the wallet as it is then. -/
def markInput (nAdjustedTime : ℕ) (wallet : CWallet) (prevout : COutPoint) : Except CWallet CWallet :=
  match wallet.mapWallet prevout.hash with
  | none => .error (wallet.update prevout.hash (.ofTx (.empty nAdjustedTime)))
  | some coin =>
      if prevout.n < coin.vout.length then .ok (wallet.update prevout.hash (coin.markSpent prevout.n))
      else .error wallet

def markInputs (nAdjustedTime : ℕ) (wallet : CWallet) (tx : CTransaction) : Except CWallet CWallet :=
  (tx.vin.map CTxIn.prevout).foldlM (markInput nAdjustedTime) wallet

/-- Compare one output of a coin with the transaction index, and repair its flag. -/
def fixOutput (isMine : CScript → Bool) (txindex : CTxIndex) (fCheckOnly : Bool)
    (s : CWalletTx × ℕ × ℤ) (output : CTxOut × ℕ) : CWalletTx × ℕ × ℤ :=
  let (pcoin, nMismatchFound, nBalanceInQuestion) := s
  let (txout, n) := output
  let fIndexSpent := (txindex.vSpent.getD n none).isSome
  if isMine txout.scriptPubKey && pcoin.isSpent n && !fIndexSpent then
    (if fCheckOnly then pcoin else pcoin.markUnspent n, nMismatchFound + 1,
      nBalanceInQuestion + txout.nValue)
  else if isMine txout.scriptPubKey && !pcoin.isSpent n && fIndexSpent then
    (if fCheckOnly then pcoin else pcoin.markSpent n, nMismatchFound + 1,
      nBalanceInQuestion + txout.nValue)
  else s

def fixCoin (txdb : CTxDB) (fCheckOnly : Bool) (s : CWallet × ℕ × ℤ) (hash : Uint256) :
    CWallet × ℕ × ℤ :=
  match s.1.mapWallet hash with
  | none => s
  | some pcoin =>
      match txdb.readTxIndex (P.hashTx pcoin.toCTransaction) with
      | none => s
      | some txindex =>
          let (pcoin, nMismatchFound, nBalanceInQuestion) :=
            pcoin.vout.zipIdx.foldl (fixOutput s.1.isMine txindex fCheckOnly) (pcoin, s.2)
          (s.1.update hash pcoin, nMismatchFound, nBalanceInQuestion)

/-- The coins are the transactions of the wallet. -/
def fixSpentCoins (wallet : CWallet) (vCoins : List Uint256) (txdb : CTxDB) (fCheckOnly : Bool) :
    CWallet × ℕ × ℤ :=
  vCoins.foldl (fixCoin P txdb fCheckOnly) (wallet, 0, 0)

end CWallet

/-- A wallet, and which transactions are confirmed or in the memory pool. -/
structure LiveWallet where
  wallet : CWallet
  isLive : Uint256 → Bool

/-- A call with what it meets outside the wallet, or a change of the chain or the pool. -/
inductive WalletCall
  | addToWallet (wtxIn : CWalletTx) (fWritten fLive : Bool)
  | addToWalletIfInvolvingMe (tx : CTransaction) (pblock : Option CBlock) (fUpdate fWritten fLive : Bool)
  | commitTransaction (wtxNew : CWalletTx) (fWritten fAccepted : Bool) (nAdjustedTime : ℕ)
  | walletUpdateSpent (tx : CTransaction) (fBlock : Bool)
  | disableTransaction (tx : CTransaction)
  | fixSpentCoins (vCoins : List Uint256) (txdb : CTxDB) (fCheckOnly : Bool)
  | chainMoves (isLive : Uint256 → Bool)

namespace LiveWallet

variable (P : ChainParams)

/-- A transaction may become confirmed or enter the pool. -/
def enters (isLive : Uint256 → Bool) (hash : Uint256) (fLive : Bool) : Uint256 → Bool :=
  Function.update isLive hash (isLive hash || fLive)

def addToWallet (v : LiveWallet) (wtxIn : CWalletTx) (fWritten fLive : Bool) : LiveWallet :=
  ⟨v.wallet.addToWalletWith P wtxIn fWritten,
    enters v.isLive (P.hashTx wtxIn.toCTransaction) fLive⟩

def commitTransaction (v : LiveWallet) (wtxNew : CWalletTx) (fWritten fAccepted : Bool)
    (nAdjustedTime : ℕ) : LiveWallet :=
  match (v.wallet.addToWalletWith P wtxNew fWritten).markInputs nAdjustedTime wtxNew.toCTransaction with
  | .error wallet => ⟨wallet, v.isLive⟩
  | .ok wallet => ⟨wallet, enters v.isLive (P.hashTx wtxNew.toCTransaction) fAccepted⟩

def step (v : LiveWallet) : WalletCall → LiveWallet
  | .addToWallet wtxIn fWritten fLive => v.addToWallet P wtxIn fWritten fLive
  | .addToWalletIfInvolvingMe tx pblock fUpdate fWritten fLive =>
      if v.wallet.skipsKnown P tx fUpdate then v
      else if v.wallet.concernsMe P tx then
        v.addToWallet P (CWallet.walletTxFor P tx pblock) fWritten fLive
      else { v with wallet := v.wallet.walletUpdateSpent P tx false }
  | .commitTransaction wtxNew fWritten fAccepted nAdjustedTime =>
      v.commitTransaction P wtxNew fWritten fAccepted nAdjustedTime
  | .walletUpdateSpent tx fBlock => { v with wallet := v.wallet.walletUpdateSpent P tx fBlock }
  | .disableTransaction tx =>
      if tx.isCoinStake && v.wallet.isFromMe tx then
        ⟨v.wallet.disableTransaction tx, Function.update v.isLive (P.hashTx tx) false⟩
      else v
  | .fixSpentCoins vCoins txdb fCheckOnly =>
      { v with wallet := (v.wallet.fixSpentCoins P vCoins txdb fCheckOnly).1 }
  | .chainMoves isLive => { v with isLive }

def run (v : LiveWallet) (calls : List WalletCall) : LiveWallet := calls.foldl (step P) v

/-- Another transaction of the wallet that is confirmed or in the memory pool spends an output. -/
def LiveSpends (v : LiveWallet) (q : COutPoint) : Prop :=
  ∃ hash wtx, hash ≠ q.hash ∧ v.isLive hash = true ∧ v.wallet.mapWallet hash = some wtx ∧
    q ∈ CWallet.prevouts wtx.toCTransaction

/-- No coin is available that is spent. -/
def SpentMarked (v : LiveWallet) : Prop :=
  ∀ q, v.wallet.IsOwn q → v.LiveSpends q → v.wallet.flag q = true

/-- The transaction that the wallet has under the id of a transaction that is added. -/
def entryTx (v : LiveWallet) (tx : CTransaction) : CTransaction :=
  match v.wallet.mapWallet (P.hashTx tx) with
  | none => tx
  | some wtx => wtx.toCTransaction

/-- The database fails on what was inserted or updated, before the inputs are marked. -/
def stops (v : LiveWallet) (wtxIn : CWalletTx) (fWritten : Bool) : Bool :=
  v.wallet.isChanged P wtxIn && !fWritten

/-- If something live spends an own output of the transaction, it is not added with a block, and is new only
with the flag set; and if it is live while the database fails, the flags of its inputs are set before. -/
structure AddMeets (v : LiveWallet) (wtxIn : CWalletTx) (fWritten fLive : Bool) : Prop where
  outputs : ∀ n txout, (v.entryTx P wtxIn.toCTransaction).vout[n]? = some txout →
    v.wallet.isMine txout.scriptPubKey = true → v.LiveSpends ⟨P.hashTx wtxIn.toCTransaction, n⟩ →
      (v.stops P wtxIn fWritten = false → wtxIn.hashBlock = 0) ∧
      (v.wallet.mapWallet (P.hashTx wtxIn.toCTransaction) = none → wtxIn.isSpent n = true)
  inputs : v.stops P wtxIn fWritten = true →
    (v.isLive (P.hashTx wtxIn.toCTransaction) || fLive) = true →
      ∀ q ∈ CWallet.prevouts (v.entryTx P wtxIn.toCTransaction), v.wallet.IsOwn q →
        q.hash ≠ P.hashTx wtxIn.toCTransaction → v.wallet.flag q = true

/-- What clears a flag or makes a transaction live clears no coin that is spent, and makes none live whose
coins are not marked. -/
def Meets (v : LiveWallet) : WalletCall → Prop
  | .addToWallet wtxIn fWritten fLive => v.AddMeets P wtxIn fWritten fLive
  | .addToWalletIfInvolvingMe tx pblock fUpdate fWritten fLive =>
      v.wallet.skipsKnown P tx fUpdate = false → v.wallet.concernsMe P tx = true →
        v.AddMeets P (CWallet.walletTxFor P tx pblock) fWritten fLive
  | .commitTransaction wtxNew fWritten _ _ => v.AddMeets P wtxNew fWritten false ∧
      ∀ wtx, v.wallet.mapWallet (P.hashTx wtxNew.toCTransaction) = some wtx →
        CWallet.prevouts wtx.toCTransaction ⊆ CWallet.prevouts wtxNew.toCTransaction
  | .walletUpdateSpent tx fBlock => fBlock = true →
      (v.wallet.mapWallet (P.hashTx tx)).map CWalletTx.toCTransaction = some tx ∧
      ∀ q, q.hash = P.hashTx tx → v.wallet.IsOwn q → ¬v.LiveSpends q
  | .disableTransaction tx => tx.isCoinStake = true → v.wallet.isFromMe tx = true →
      ∀ q ∈ CWallet.prevouts tx, v.wallet.IsOwn q →
        ¬LiveSpends ⟨v.wallet, Function.update v.isLive (P.hashTx tx) false⟩ q
  | .fixSpentCoins vCoins txdb fCheckOnly => fCheckOnly = false →
      ∀ q, q.hash ∈ vCoins → v.wallet.IsOwn q → v.LiveSpends q → ∀ wtx txindex,
        v.wallet.mapWallet q.hash = some wtx →
        txdb.readTxIndex (P.hashTx wtx.toCTransaction) = some txindex →
          (txindex.vSpent.getD q.n none).isSome = true
  | .chainMoves isLive => ∀ q, v.wallet.IsOwn q → LiveSpends ⟨v.wallet, isLive⟩ q →
      v.wallet.flag q = true

def RunMeets : LiveWallet → List WalletCall → Prop
  | _, [] => True
  | v, call :: calls => v.Meets P call ∧ RunMeets (v.step P call) calls

end LiveWallet

namespace CWallet

variable {P : ChainParams} {w w' : CWallet} {tx : CTransaction} {wtx wtxIn : CWalletTx} {q p : COutPoint}
  {h hash : Uint256}

/-- Each entry is a transaction under its id, or has no outputs. -/
def EntriesKeyed (P : ChainParams) (w : CWallet) : Prop :=
  ∀ h wtx, w.mapWallet h = some wtx → P.hashTx wtx.toCTransaction = h ∨ wtx.vout = []

theorem SameTxs.entriesKeyed (hsame : SameTxs w w') (hkeyed : EntriesKeyed P w) : EntriesKeyed P w' := by
  intro h wtx' hentry'
  have hmap := hsame.toCTransaction h
  rw [hentry', Option.map_some] at hmap
  obtain ⟨wtx, hentry, htx⟩ := Option.map_eq_some_iff.mp hmap.symm
  rw [← htx]
  exact hkeyed h wtx hentry

theorem SameTxs.mapWallet (hsame : SameTxs w w') (hentry' : w'.mapWallet h = some wtx) :
    ∃ e, w.mapWallet h = some e ∧ e.toCTransaction = wtx.toCTransaction := by
  have hmap := hsame.toCTransaction h
  rw [hentry', Option.map_some] at hmap
  exact Option.map_eq_some_iff.mp hmap.symm

theorem isSpent_updateSpent {vfNewSpent : List Bool} {n : ℕ} (h : wtx.isSpent n = true) :
    (wtx.updateSpent vfNewSpent).isSpent n = true := by
  unfold CWalletTx.isSpent CWalletTx.updateSpent at *
  rw [List.getD_eq_getElem?_getD] at h ⊢
  rw [List.getElem?_mapIdx]
  cases hget : wtx.vfSpent[n]? with
  | none =>
    rw [hget] at h
    cases h
  | some fSpent =>
    rw [hget] at h
    obtain rfl : fSpent = true := h
    rfl

/-- A merge keeps the flags that are set. -/
theorem isSpent_mergeTx {n : ℕ} (h : wtx.isSpent n = true) : (mergeTx wtx wtxIn).isSpent n = true := by
  unfold mergeTx
  apply isSpent_updateSpent
  split <;> split <;> split <;> exact h

theorem toCTransaction_inserted (w : CWallet) (wtxIn : CWalletTx) :
    (w.inserted P wtxIn).toCTransaction =
      ((w.mapWallet (P.hashTx wtxIn.toCTransaction)).map CWalletTx.toCTransaction).getD
        wtxIn.toCTransaction := by
  unfold inserted
  split
  · next hentry => rw [hentry, Option.map_none, Option.getD_none]
  · next hentry => rw [hentry, Option.map_some, Option.getD_some, toCTransaction_mergeTx]

/-- The flags of a transaction that is reported clear nothing but its own outputs. -/
theorem walletUpdateSpent_keyed (hkeyed : EntriesKeyed P w) (hentry : w.mapWallet hash = some wtx)
    (fBlock : Bool) :
    SameTxs w (w.walletUpdateSpent P wtx.toCTransaction fBlock) ∧ ∀ q, w.IsOwn q →
      (w.walletUpdateSpent P wtx.toCTransaction fBlock).flag q =
        ((w.flag q || decide (q ∈ prevouts wtx.toCTransaction)) && !(fBlock && decide (q.hash = hash))) := by
  obtain hhash | hnone := hkeyed hash wtx hentry
  · have hspec := @walletUpdateSpent_spec P wtx.toCTransaction fBlock w fun _ ↦ by
      rw [hhash, hentry]
      rfl
    rw [hhash] at hspec
    exact hspec
  · -- There is nothing to clear, and no own output under this id.
    obtain ⟨hsame, hflag⟩ := foldl_updateSpentInput_spec w (prevouts wtx.toCTransaction)
    have hsimple : w.walletUpdateSpent P wtx.toCTransaction fBlock =
        (prevouts wtx.toCTransaction).foldl updateSpentInput w := by
      unfold walletUpdateSpent
      rw [hnone]
      exact ite_self _
    rw [hsimple]
    refine ⟨hsame, fun q hq ↦ ?_⟩
    have hother : q.hash ≠ hash := by
      intro hq'
      obtain ⟨e, he, txout, hout, -⟩ := isOwn_iff.mp hq
      rw [hq', hentry] at he
      obtain rfl := Option.some.inj he
      rw [hnone] at hout
      cases hout
    rw [hflag q hq, decide_eq_false hother, Bool.and_false, Bool.not_false, Bool.and_true]

theorem refundInput_spec (w : CWallet) (p : COutPoint) :
    SameTxs w (w.refundInput p) ∧
      ∀ q, w.IsOwn q → (w.refundInput p).flag q = (w.flag q && !decide (q = p)) := by
  unfold refundInput
  cases hentry : w.mapWallet p.hash with
  | none =>
    refine ⟨.refl w, fun q hq ↦ ?_⟩
    have hdiff : q ≠ p := by
      rintro rfl
      obtain ⟨wtx, hsome, -⟩ := isOwn_iff.mp hq
      rw [hentry] at hsome
      cases hsome
    rw [decide_eq_false hdiff, Bool.not_false, Bool.and_true]
  | some wtx =>
    cases hown : w.ownOutput p with
    | none =>
      refine ⟨.refl w, fun q hq ↦ ?_⟩
      have hdiff : q ≠ p := by
        rintro rfl
        rw [IsOwn, hown] at hq
        cases hq
      rw [decide_eq_false hdiff, Bool.not_false, Bool.and_true]
    | some txout =>
      refine ⟨sameTxs_mark hentry _ _, fun q hq ↦ ?_⟩
      change (w.update p.hash (wtx.mark p.n false)).flag q = _
      rw [flag_mark hentry hq]
      by_cases hsame : q = p
      · rw [if_pos hsame, decide_eq_true hsame, Bool.not_true, Bool.and_false]
      · rw [if_neg hsame, decide_eq_false hsame, Bool.not_false, Bool.and_true]

theorem foldl_refundInput_spec (w : CWallet) (ps : List COutPoint) :
    SameTxs w (ps.foldl refundInput w) ∧
      ∀ q, w.IsOwn q → (ps.foldl refundInput w).flag q = (w.flag q && !decide (q ∈ ps)) := by
  induction ps generalizing w with
  | nil => exact ⟨.refl w, fun q _ ↦ by simp⟩
  | cons p ps ih =>
    obtain ⟨hsame, hflag⟩ := refundInput_spec w p
    obtain ⟨hsame', hflag'⟩ := ih (w.refundInput p)
    refine ⟨hsame.trans hsame', fun q hq ↦ ?_⟩
    rw [List.foldl_cons, hflag' q (hsame.isOwn.mpr hq), hflag q hq, Bool.and_assoc, ← Bool.not_or]
    congr 2
    rw [← Bool.decide_or]
    exact decide_eq_decide.mpr List.mem_cons.symm

/-- What has become of a wallet that threw while its coins were marked: a transaction without inputs and
outputs may have been entered. -/
structure Marked (w w' : CWallet) : Prop where
  isMine : w'.isMine = w.isMine
  entries : ∀ h e', w'.mapWallet h = some e' →
    (∃ e, w.mapWallet h = some e ∧ e.toCTransaction = e'.toCTransaction) ∨ e'.vin = [] ∧ e'.vout = []
  own : ∀ q, w'.IsOwn q ↔ w.IsOwn q
  flags : ∀ q, w.IsOwn q → w.flag q = true → w'.flag q = true

theorem Marked.entriesKeyed (hmarked : Marked w w') (hkeyed : EntriesKeyed P w) : EntriesKeyed P w' := by
  intro h e' hentry
  obtain ⟨e, he, htx⟩ | ⟨-, hvout⟩ := hmarked.entries h e' hentry
  · rw [← htx]
    exact hkeyed h e he
  · exact .inr hvout

theorem marked_of_sameTxs {w'' : CWallet} (hsame : SameTxs w w')
    (hflag : ∀ q, w.IsOwn q → w.flag q = true → w'.flag q = true) (hmarked : Marked w' w'') :
    Marked w w'' where
  isMine := hmarked.isMine.trans hsame.isMine
  entries h e' hentry := by
    obtain ⟨e, he, htx⟩ | hnone := hmarked.entries h e' hentry
    · obtain ⟨e₀, he₀, htx₀⟩ := hsame.mapWallet he
      exact .inl ⟨e₀, he₀, htx₀.trans htx⟩
    · exact .inr hnone
  own q := (hmarked.own q).trans hsame.isOwn
  flags q hq h := hmarked.flags q (hsame.isOwn.mpr hq) (hflag q hq h)

/-- A transaction that is made up for a coin has no outputs. -/
theorem marked_madeUp (hentry : w.mapWallet hash = none) (nAdjustedTime : ℕ) :
    Marked w (w.update hash (.ofTx (.empty nAdjustedTime))) where
  isMine := rfl
  entries h e' hentry' := by
    rw [mapWallet_update] at hentry'
    split at hentry'
    · obtain rfl := Option.some.inj hentry'
      exact .inr ⟨rfl, rfl⟩
    · exact .inl ⟨e', hentry', rfl⟩
  own q := by
    rw [isOwn_iff, isOwn_iff, mapWallet_update]
    split
    · next hhash =>
      rw [hhash, hentry]
      constructor
      · rintro ⟨e, he, txout, hout, -⟩
        obtain rfl := Option.some.inj he
        cases hout
      · rintro ⟨e, he, -⟩
        cases he
    · rfl
  flags q hq hflag := by
    have hother : q.hash ≠ hash := by
      intro hhash
      obtain ⟨e, he, -⟩ := isOwn_iff.mp hq
      rw [hhash, hentry] at he
      cases he
    rw [flag, mapWallet_update, if_neg hother]
    exact hflag

theorem markInput_ok {nAdjustedTime : ℕ} (h : markInput nAdjustedTime w p = .ok w') :
    SameTxs w w' ∧ ∀ q, w.IsOwn q → w'.flag q = (w.flag q || decide (q = p)) := by
  unfold markInput at h
  split at h
  · cases h
  · next coin hentry =>
    split at h
    · obtain rfl := Except.ok.inj h
      refine ⟨sameTxs_mark hentry _ _, fun q hq ↦ ?_⟩
      change (w.update p.hash (coin.mark p.n true)).flag q = _
      rw [flag_mark hentry hq]
      by_cases hsame : q = p
      · rw [if_pos hsame, decide_eq_true hsame, Bool.or_true]
      · rw [if_neg hsame, decide_eq_false hsame, Bool.or_false]
    · cases h

theorem markInput_error {nAdjustedTime : ℕ} (h : markInput nAdjustedTime w p = .error w') : Marked w w' := by
  unfold markInput at h
  split at h
  · next hentry =>
    obtain rfl := Except.error.inj h
    exact marked_madeUp hentry nAdjustedTime
  · split at h
    · cases h
    · obtain rfl := Except.error.inj h
      exact ⟨rfl, fun _ e he ↦ .inl ⟨e, he, rfl⟩, fun _ ↦ Iff.rfl, fun _ _ hflag ↦ hflag⟩

theorem foldlM_markInput_spec (nAdjustedTime : ℕ) (w : CWallet) (ps : List COutPoint) :
    (∀ w', ps.foldlM (markInput nAdjustedTime) w = .ok w' →
      SameTxs w w' ∧ ∀ q, w.IsOwn q → w'.flag q = (w.flag q || decide (q ∈ ps))) ∧
    ∀ w', ps.foldlM (markInput nAdjustedTime) w = .error w' → Marked w w' := by
  induction ps generalizing w with
  | nil =>
    refine ⟨fun w' h ↦ ?_, nofun⟩
    obtain rfl := Except.ok.inj h
    exact ⟨.refl w, fun q _ ↦ by simp⟩
  | cons p ps ih =>
    rw [List.foldlM_cons]
    cases hfirst : markInput nAdjustedTime w p with
    | error w₁ =>
      refine ⟨nofun, fun w' h ↦ ?_⟩
      obtain rfl := Except.error.inj h
      exact markInput_error hfirst
    | ok w₁ =>
      obtain ⟨hsame, hflag⟩ := markInput_ok hfirst
      obtain ⟨hok, herror⟩ := ih w₁
      refine ⟨fun w' h ↦ ?_, fun w' h ↦ ?_⟩
      · obtain ⟨hsame', hflag'⟩ := hok w' h
        refine ⟨hsame.trans hsame', fun q hq ↦ ?_⟩
        rw [hflag' q (hsame.isOwn.mpr hq), hflag q hq, Bool.or_assoc]
        congr 1
        rw [← Bool.decide_or]
        exact decide_eq_decide.mpr List.mem_cons.symm
      · refine marked_of_sameTxs hsame (fun q hq hset ↦ ?_) (herror w' h)
        rw [hflag q hq, hset, Bool.true_or]

/-- A check of one output touches its flag only, where the index says otherwise. -/
theorem foldl_fixOutput_spec (isMine : CScript → Bool) (txindex : CTxIndex) (fCheckOnly : Bool)
    (outputs : List (CTxOut × ℕ)) (s : CWalletTx × ℕ × ℤ) :
    ∃ marks : List (ℕ × Bool), (outputs.foldl (fixOutput isMine txindex fCheckOnly) s).1 =
        marks.foldl (fun pcoin mark ↦ pcoin.mark mark.1 mark.2) s.1 ∧
      ∀ mark ∈ marks, fCheckOnly = false ∧ mark.2 = (txindex.vSpent.getD mark.1 none).isSome := by
  induction outputs generalizing s with
  | nil => exact ⟨[], rfl, nofun⟩
  | cons output outputs ih =>
    obtain ⟨pcoin, nMismatchFound, nBalanceInQuestion⟩ := s
    obtain ⟨txout, n⟩ := output
    rw [List.foldl_cons]
    obtain ⟨marks, hmarks, hright⟩ := ih (fixOutput isMine txindex fCheckOnly
      (pcoin, nMismatchFound, nBalanceInQuestion) (txout, n))
    rw [hmarks]
    unfold fixOutput
    dsimp only
    split
    · next hclear =>
      cases fCheckOnly with
      | true => exact ⟨marks, rfl, hright⟩
      | false =>
        refine ⟨(n, false) :: marks, rfl, fun mark hmark ↦ ?_⟩
        obtain rfl | hrest := List.mem_cons.mp hmark
        · simp only [Bool.and_eq_true, Bool.not_eq_true'] at hclear
          exact ⟨rfl, hclear.2.symm⟩
        · exact hright mark hrest
    · split
      · next hset =>
        cases fCheckOnly with
        | true => exact ⟨marks, rfl, hright⟩
        | false =>
          refine ⟨(n, true) :: marks, rfl, fun mark hmark ↦ ?_⟩
          obtain rfl | hrest := List.mem_cons.mp hmark
          · simp only [Bool.and_eq_true] at hset
            exact ⟨rfl, hset.2.symm⟩
          · exact hright mark hrest
      · exact ⟨marks, rfl, hright⟩

theorem foldl_marks_spec (hentry : w.mapWallet hash = some wtx) (marks : List (ℕ × Bool)) :
    SameTxs w (w.update hash (marks.foldl (fun pcoin mark ↦ pcoin.mark mark.1 mark.2) wtx)) ∧
      ∀ q, w.IsOwn q → w.flag q = true → (∀ mark ∈ marks, q = ⟨hash, mark.1⟩ → mark.2 = true) →
        (w.update hash (marks.foldl (fun pcoin mark ↦ pcoin.mark mark.1 mark.2) wtx)).flag q = true := by
  induction marks generalizing w wtx with
  | nil =>
    have hsame : w.update hash wtx = w := by
      unfold update
      rw [← hentry, Function.update_eq_self]
    rw [List.foldl_nil, hsame]
    exact ⟨.refl w, fun q _ hflag _ ↦ hflag⟩
  | cons mark marks ih =>
    have hmark := sameTxs_mark hentry mark.1 mark.2
    have hnext : (w.update hash (wtx.mark mark.1 mark.2)).mapWallet hash = some (wtx.mark mark.1 mark.2) := by
      rw [mapWallet_update, if_pos rfl]
    obtain ⟨hsame, hflag⟩ := ih hnext
    have htwice : ∀ e, (w.update hash (wtx.mark mark.1 mark.2)).update hash e = w.update hash e := by
      intro e
      unfold update
      simp only [Function.update_idem]
    rw [htwice] at hsame hflag
    rw [List.foldl_cons]
    refine ⟨hmark.trans hsame, fun q hq hset hmarks ↦ ?_⟩
    apply hflag q (hmark.isOwn.mpr hq)
    · rw [flag_mark hentry hq]
      split
      · next hq' => exact hmarks mark List.mem_cons_self hq'
      · exact hset
    · exact fun mark' hmark' ↦ hmarks mark' (List.mem_cons_of_mem _ hmark')

theorem fixCoin_spec (txdb : CTxDB) (fCheckOnly : Bool) (s : CWallet × ℕ × ℤ) (hash : Uint256) :
    SameTxs s.1 (fixCoin P txdb fCheckOnly s hash).1 ∧
      ∀ q, s.1.IsOwn q → s.1.flag q = true →
        (fCheckOnly = false → q.hash = hash → ∀ wtx txindex, s.1.mapWallet hash = some wtx →
          txdb.readTxIndex (P.hashTx wtx.toCTransaction) = some txindex →
            (txindex.vSpent.getD q.n none).isSome = true) →
          (fixCoin P txdb fCheckOnly s hash).1.flag q = true := by
  unfold fixCoin
  split
  · exact ⟨.refl _, fun q _ hflag _ ↦ hflag⟩
  · next pcoin hentry =>
    split
    · exact ⟨.refl _, fun q _ hflag _ ↦ hflag⟩
    · next txindex hindex =>
      obtain ⟨marks, hmarks, hright⟩ := foldl_fixOutput_spec s.1.isMine txindex fCheckOnly pcoin.vout.zipIdx
        (pcoin, s.2)
      obtain ⟨hsame, hflag⟩ := foldl_marks_spec hentry marks
      dsimp only
      rw [hmarks]
      refine ⟨hsame, fun q hq hset hspent ↦ hflag q hq hset fun mark hmark hq' ↦ ?_⟩
      obtain ⟨hcheck, hvalue⟩ := hright mark hmark
      have hspent' := hspent hcheck (congrArg (fun p ↦ p.hash) hq') pcoin txindex hentry hindex
      rw [hq'] at hspent'
      exact hvalue.trans hspent'

theorem fixSpentCoins_spec (txdb : CTxDB) (fCheckOnly : Bool) (vCoins : List Uint256) (w : CWallet) :
    SameTxs w (fixSpentCoins P w vCoins txdb fCheckOnly).1 ∧
      ∀ q, w.IsOwn q → w.flag q = true →
        (fCheckOnly = false → q.hash ∈ vCoins → ∀ wtx txindex, w.mapWallet q.hash = some wtx →
          txdb.readTxIndex (P.hashTx wtx.toCTransaction) = some txindex →
            (txindex.vSpent.getD q.n none).isSome = true) →
          (fixSpentCoins P w vCoins txdb fCheckOnly).1.flag q = true := by
  unfold fixSpentCoins
  generalize ((0, 0) : ℕ × ℤ) = counts
  induction vCoins generalizing w counts with
  | nil => exact ⟨.refl w, fun q _ hflag _ ↦ hflag⟩
  | cons hash vCoins ih =>
    obtain ⟨hsame, hflag⟩ := fixCoin_spec (P := P) txdb fCheckOnly (w, counts) hash
    obtain ⟨hsame', hflag'⟩ := ih (fixCoin P txdb fCheckOnly (w, counts) hash).1
      (fixCoin P txdb fCheckOnly (w, counts) hash).2
    rw [List.foldl_cons]
    refine ⟨hsame.trans hsame', fun q hq hset hspent ↦ ?_⟩
    apply hflag' q (hsame.isOwn.mpr hq)
    · apply hflag q hq hset
      intro hcheck hhash wtx txindex hentry
      rw [← hhash] at hentry
      exact hspent hcheck (by rw [hhash]; exact List.mem_cons_self) wtx txindex hentry
    · intro hcheck hmem wtx' txindex hentry'
      obtain ⟨wtx, hentry, htx⟩ := hsame.mapWallet hentry'
      rw [← htx]
      exact hspent hcheck (List.mem_cons_of_mem _ hmem) wtx txindex hentry

end CWallet

namespace LiveWallet

open CWallet

variable {P : ChainParams} {v : LiveWallet} {q : COutPoint} {wtxIn : CWalletTx} {fWritten fLive : Bool}

/-- Each entry is a transaction under its id, and no coin is available that is spent. -/
structure Good (P : ChainParams) (v : LiveWallet) : Prop where
  keyed : EntriesKeyed P v.wallet
  marked : v.SpentMarked

theorem entryTx_eq (v : LiveWallet) (wtxIn : CWalletTx) :
    v.entryTx P wtxIn.toCTransaction = (v.wallet.inserted P wtxIn).toCTransaction := by
  rw [toCTransaction_inserted]
  unfold entryTx
  split
  · next hentry => rw [hentry, Option.map_none, Option.getD_none]
  · next hentry => rw [hentry, Option.map_some, Option.getD_some]

theorem entriesKeyed_insertTx (hkeyed : EntriesKeyed P v.wallet) (wtxIn : CWalletTx) :
    EntriesKeyed P (v.wallet.insertTx P wtxIn) := by
  intro h e hentry
  unfold insertTx at hentry
  rw [mapWallet_update] at hentry
  split at hentry
  · next hhash =>
    obtain rfl := Option.some.inj hentry
    rw [toCTransaction_inserted, hhash]
    cases hold : v.wallet.mapWallet (P.hashTx wtxIn.toCTransaction) with
    | none => exact .inl rfl
    | some old =>
      obtain hkey | hnone := hkeyed _ old hold
      · exact .inl hkey
      · exact .inr hnone
  · exact hkeyed h e hentry

/-- What was added, and whether its inputs were marked and its outputs cleared. -/
theorem addToWalletWith_spec (hkeyed : EntriesKeyed P v.wallet) (wtxIn : CWalletTx) (fWritten : Bool) :
    SameTxs (v.wallet.insertTx P wtxIn) (v.wallet.addToWalletWith P wtxIn fWritten) ∧
    ∀ q, (v.wallet.insertTx P wtxIn).IsOwn q →
      (v.wallet.addToWalletWith P wtxIn fWritten).flag q =
        if v.stops P wtxIn fWritten then (v.wallet.insertTx P wtxIn).flag q
        else ((v.wallet.insertTx P wtxIn).flag q ||
            decide (q ∈ prevouts (v.wallet.inserted P wtxIn).toCTransaction)) &&
          !(decide (wtxIn.hashBlock ≠ 0) && decide (q.hash = P.hashTx wtxIn.toCTransaction)) := by
  have hentry : (v.wallet.insertTx P wtxIn).mapWallet (P.hashTx wtxIn.toCTransaction) =
      some (v.wallet.inserted P wtxIn) := by
    unfold insertTx
    rw [mapWallet_update, if_pos rfl]
  unfold addToWalletWith stops
  split
  · exact ⟨.refl _, fun q _ ↦ rfl⟩
  · exact walletUpdateSpent_keyed (entriesKeyed_insertTx hkeyed wtxIn) hentry _

/-- Other entries, and the flags of their outputs, are those before. -/
theorem insertTx_other (hother : q.hash ≠ P.hashTx wtxIn.toCTransaction) :
    ((v.wallet.insertTx P wtxIn).IsOwn q ↔ v.wallet.IsOwn q) ∧
      (v.wallet.insertTx P wtxIn).flag q = v.wallet.flag q := by
  unfold insertTx
  constructor
  · rw [isOwn_iff, isOwn_iff, mapWallet_update, if_neg hother]
    rfl
  · rw [flag, flag, mapWallet_update, if_neg hother]

theorem LiveSpends.congr {v' : LiveWallet} (hspends : v'.LiveSpends q) (hsame : SameTxs v.wallet v'.wallet)
    (hlive : v'.isLive = v.isLive) : v.LiveSpends q := by
  obtain ⟨hash, e', hne, hisLive, hentry, hmem⟩ := hspends
  obtain ⟨e, he, htx⟩ := hsame.mapWallet hentry
  exact ⟨hash, e, hne, hlive ▸ hisLive, he, htx ▸ hmem⟩

theorem LiveSpends.of_disabled {hash : Uint256}
    (hspends : LiveSpends ⟨v.wallet, Function.update v.isLive hash false⟩ q) : v.LiveSpends q := by
  obtain ⟨hash', e, hne, hlive, hentry, hmem⟩ := hspends
  refine ⟨hash', e, hne, ?_, hentry, hmem⟩
  dsimp only at hlive
  rw [Function.update_apply] at hlive
  split at hlive
  · cases hlive
  · exact hlive

/-- The flag of an own output of the added transaction that is spent is set when it is entered. -/
theorem flag_insertTx (hmarked : v.SpentMarked) (hmeets : v.AddMeets P wtxIn fWritten fLive)
    (hown : (v.wallet.insertTx P wtxIn).IsOwn q) (hhash : q.hash = P.hashTx wtxIn.toCTransaction)
    (hspends : v.LiveSpends q) :
    (v.stops P wtxIn fWritten = false → wtxIn.hashBlock = 0) ∧
      (v.wallet.insertTx P wtxIn).flag q = true := by
  have hentry : (v.wallet.insertTx P wtxIn).mapWallet q.hash = some (v.wallet.inserted P wtxIn) := by
    unfold insertTx
    rw [mapWallet_update, if_pos hhash]
  obtain ⟨e, he, txout, hout, hmine⟩ := isOwn_iff.mp hown
  obtain rfl := Option.some.inj (hentry.symm.trans he)
  have hq : (⟨P.hashTx wtxIn.toCTransaction, q.n⟩ : COutPoint) = q := by rw [← hhash]
  obtain ⟨hblock, hnew⟩ := hmeets.outputs q.n txout (by rw [entryTx_eq]; exact hout) hmine (by rwa [hq])
  refine ⟨hblock, ?_⟩
  rw [flag, hentry, Option.any_some]
  unfold inserted
  split
  · next hnone => exact hnew hnone
  · next old hold =>
    apply isSpent_mergeTx
    have hownOld : v.wallet.IsOwn q := by
      refine isOwn_iff.mpr ⟨old, hhash ▸ hold, txout, ?_, hmine⟩
      have htx := toCTransaction_inserted (P := P) v.wallet wtxIn
      rw [hold, Option.map_some, Option.getD_some] at htx
      rw [← htx]
      exact hout
    have hflag := hmarked q hownOld hspends
    rwa [flag, hhash, hold, Option.any_some] at hflag

theorem addToWallet_good (hgood : v.Good P) (hmeets : v.AddMeets P wtxIn fWritten fLive) :
    (v.addToWallet P wtxIn fWritten fLive).Good P := by
  obtain ⟨hsame, hflag⟩ := addToWalletWith_spec hgood.keyed wtxIn fWritten
  refine ⟨hsame.entriesKeyed (entriesKeyed_insertTx hgood.keyed wtxIn), fun q hown' hspends ↦ ?_⟩
  have hown := hsame.isOwn.mp hown'
  obtain ⟨hash, e', hne, hlive, hentry', hmem'⟩ := hspends
  obtain ⟨e, hentry, htx⟩ := hsame.mapWallet hentry'
  have hmem : q ∈ prevouts e.toCTransaction := htx ▸ hmem'
  change (v.wallet.addToWalletWith P wtxIn fWritten).flag q = true
  rw [hflag q hown]
  change enters v.isLive (P.hashTx wtxIn.toCTransaction) fLive hash = true at hlive
  unfold insertTx at hentry
  rw [mapWallet_update] at hentry
  by_cases hadded : hash = P.hashTx wtxIn.toCTransaction
  · -- The added transaction spends the output.
    rw [if_pos hadded] at hentry
    obtain rfl := Option.some.inj hentry
    rw [hadded, enters, Function.update_self] at hlive
    rw [hadded] at hne
    obtain ⟨hownEq, hflagEq⟩ := insertTx_other (P := P) (v := v) hne.symm
    split
    · next hstops =>
      rw [hflagEq]
      exact hmeets.inputs hstops hlive q (by rw [entryTx_eq]; exact hmem) (hownEq.mp hown) hne.symm
    · rw [decide_eq_true hmem, decide_eq_false hne.symm, Bool.or_true, Bool.and_false]
      rfl
  · -- The output was spent before.
    rw [if_neg hadded] at hentry
    rw [enters, Function.update_of_ne hadded] at hlive
    have hspends : v.LiveSpends q := ⟨hash, e, hne, hlive, hentry, hmem⟩
    by_cases hhash : q.hash = P.hashTx wtxIn.toCTransaction
    · obtain ⟨hblock, hset⟩ := flag_insertTx hgood.marked hmeets hown hhash hspends
      split
      · exact hset
      · next hstops =>
        rw [hset, decide_eq_false (not_not.mpr (hblock (eq_false_of_ne_true hstops)))]
        rfl
    · obtain ⟨hownEq, hflagEq⟩ := insertTx_other (P := P) (v := v) hhash
      have hset := hgood.marked q (hownEq.mp hown) hspends
      rw [hflagEq, hset, decide_eq_false hhash, Bool.and_false]
      split <;> rfl

/-- What leaves the own outputs, keeps the flags that are set and enters only transactions without inputs
and outputs keeps the coins marked. -/
theorem Good.of_marked {w' : CWallet} {isLive : Uint256 → Bool} (hgood : Good P ⟨v.wallet, isLive⟩)
    (hmarked : Marked v.wallet w') : Good P ⟨w', isLive⟩ := by
  refine ⟨hmarked.entriesKeyed hgood.keyed, fun q hown hspends ↦ ?_⟩
  have hown' := (hmarked.own q).mp hown
  apply hmarked.flags q hown'
  apply hgood.marked q hown'
  obtain ⟨hash, e', hne, hlive, hentry, hmem⟩ := hspends
  obtain ⟨e, he, htx⟩ | ⟨hnone, -⟩ := hmarked.entries hash e' hentry
  · exact ⟨hash, e, hne, hlive, he, htx ▸ hmem⟩
  · rw [prevouts, hnone] at hmem
    cases hmem

theorem Good.of_sameTxs {w' : CWallet} {isLive : Uint256 → Bool} (hkeyed : EntriesKeyed P v.wallet)
    (hsame : SameTxs v.wallet w')
    (hflag : ∀ q, v.wallet.IsOwn q → LiveSpends ⟨v.wallet, isLive⟩ q → w'.flag q = true) :
    Good P ⟨w', isLive⟩ := by
  refine ⟨hsame.entriesKeyed hkeyed, fun q hown hspends ↦ ?_⟩
  exact hflag q (hsame.isOwn.mp hown) (hspends.congr (v := ⟨v.wallet, isLive⟩) hsame rfl)

/-- The coins of a committed transaction are marked before it enters the pool. -/
theorem commitTransaction_good {wtxNew : CWalletTx} {fAccepted : Bool} {nAdjustedTime : ℕ}
    (hgood : v.Good P) (hmeets : v.AddMeets P wtxNew fWritten false)
    (hsub : ∀ wtx, v.wallet.mapWallet (P.hashTx wtxNew.toCTransaction) = some wtx →
      prevouts wtx.toCTransaction ⊆ prevouts wtxNew.toCTransaction) :
    (v.commitTransaction P wtxNew fWritten fAccepted nAdjustedTime).Good P := by
  have hadded := addToWallet_good hgood hmeets
  have hstill : enters v.isLive (P.hashTx wtxNew.toCTransaction) false = v.isLive := by
    unfold enters
    rw [Bool.or_false, Function.update_eq_self]
  unfold addToWallet at hadded
  rw [hstill] at hadded
  obtain ⟨hok, herror⟩ := foldlM_markInput_spec nAdjustedTime (v.wallet.addToWalletWith P wtxNew fWritten)
    (prevouts wtxNew.toCTransaction)
  unfold commitTransaction
  split
  · next w' hmarks =>
    exact Good.of_marked (v := ⟨v.wallet.addToWalletWith P wtxNew fWritten, v.isLive⟩) hadded
      (herror w' hmarks)
  · next w' hmarks =>
    obtain ⟨hsame, hflag⟩ := hok w' hmarks
    apply Good.of_sameTxs (v := ⟨v.wallet.addToWalletWith P wtxNew fWritten, v.isLive⟩) hadded.keyed hsame
    rintro q hown ⟨hash, e', hne, hlive, hentry', hmem'⟩
    rw [hflag q hown]
    by_cases hhash : hash = P.hashTx wtxNew.toCTransaction
    · obtain ⟨e, hentry, htx⟩ := (addToWalletWith_spec hgood.keyed wtxNew fWritten).1.mapWallet hentry'
      unfold insertTx at hentry
      rw [mapWallet_update, if_pos hhash] at hentry
      obtain rfl := Option.some.inj hentry
      have hmem : q ∈ prevouts wtxNew.toCTransaction := by
        rw [← htx, toCTransaction_inserted] at hmem'
        cases hold : v.wallet.mapWallet (P.hashTx wtxNew.toCTransaction) with
        | none =>
          rw [hold] at hmem'
          exact hmem'
        | some old =>
          rw [hold] at hmem'
          exact hsub old hold hmem'
      rw [decide_eq_true hmem, Bool.or_true]
    · change enters v.isLive _ fAccepted hash = true at hlive
      rw [enters, Function.update_of_ne hhash] at hlive
      rw [hadded.marked q hown ⟨hash, e', hne, hlive, hentry', hmem'⟩, Bool.true_or]

theorem step_good (hgood : v.Good P) (call : WalletCall) (hmeets : v.Meets P call) :
    (v.step P call).Good P := by
  cases call with
  | addToWallet wtxIn fWritten fLive => exact addToWallet_good hgood hmeets
  | addToWalletIfInvolvingMe tx pblock fUpdate fWritten fLive =>
    unfold step
    dsimp only
    split
    · exact hgood
    · next hskips =>
      split
      · next hinvolves => exact addToWallet_good hgood (hmeets (eq_false_of_ne_true hskips) hinvolves)
      · obtain ⟨hsame, hflag⟩ := @walletUpdateSpent_spec P tx false v.wallet nofun
        apply Good.of_sameTxs hgood.keyed hsame
        intro q hown hspends
        rw [hflag q hown, hgood.marked q hown hspends]
        rfl
  | commitTransaction wtxNew fWritten fAccepted nAdjustedTime =>
    exact commitTransaction_good hgood hmeets.1 hmeets.2
  | walletUpdateSpent tx fBlock =>
    obtain ⟨hsame, hflag⟩ := @walletUpdateSpent_spec P tx fBlock v.wallet
      fun hblock ↦ (hmeets hblock).1
    apply Good.of_sameTxs hgood.keyed hsame
    intro q hown hspends
    rw [hflag q hown, hgood.marked q hown hspends]
    cases fBlock with
    | false => rfl
    | true =>
      have hother : q.hash ≠ P.hashTx tx := fun hhash ↦ (hmeets rfl).2 q hhash hown hspends
      rw [decide_eq_false hother]
      rfl
  | disableTransaction tx =>
    unfold step
    dsimp only
    split
    · next hboth =>
      have hdisabled : v.wallet.disableTransaction tx = (prevouts tx).foldl refundInput v.wallet := if_pos hboth
      rw [Bool.and_eq_true] at hboth
      rw [hdisabled]
      obtain ⟨hsame, hflag⟩ := foldl_refundInput_spec v.wallet (prevouts tx)
      apply Good.of_sameTxs hgood.keyed hsame
      intro q hown hspends
      have hnot : q ∉ prevouts tx := fun hmem ↦ hmeets hboth.1 hboth.2 q hmem hown hspends
      rw [hflag q hown, hgood.marked q hown hspends.of_disabled, decide_eq_false hnot]
      rfl
    · exact hgood
  | fixSpentCoins vCoins txdb fCheckOnly =>
    obtain ⟨hsame, hflag⟩ := fixSpentCoins_spec (P := P) txdb fCheckOnly vCoins v.wallet
    apply Good.of_sameTxs hgood.keyed hsame
    intro q hown hspends
    apply hflag q hown (hgood.marked q hown hspends)
    exact fun hcheck hmem ↦ hmeets hcheck q hmem hown hspends
  | chainMoves isLive => exact Good.of_sameTxs hgood.keyed (.refl _) hmeets

theorem run_good (calls : List WalletCall) (v : LiveWallet) (hgood : v.Good P) (hmeets : RunMeets P v calls) :
    (v.run P calls).Good P := by
  induction calls generalizing v with
  | nil => exact hgood
  | cons call calls ih => exact ih (v.step P call) (step_good hgood call hmeets.1) hmeets.2

/-- A wallet without transactions. -/
def fresh (isMine : CScript → Bool) (nMinimumInputValue : ℤ) (isLive : Uint256 → Bool) : LiveWallet :=
  ⟨⟨isMine, nMinimumInputValue, fun _ ↦ none⟩, isLive⟩

theorem fresh_good (isMine : CScript → Bool) (nMinimumInputValue : ℤ) (isLive : Uint256 → Bool) :
    (fresh isMine nMinimumInputValue isLive).Good P := by
  refine ⟨nofun, fun q hown _ ↦ ?_⟩
  obtain ⟨wtx, hentry, -⟩ := isOwn_iff.mp hown
  cases hentry

/-- A pending spend makes no coin available again. -/
theorem spentMarked_run (isMine : CScript → Bool) (nMinimumInputValue : ℤ) (isLive : Uint256 → Bool)
    (calls : List WalletCall) (hmeets : RunMeets P (fresh isMine nMinimumInputValue isLive) calls) :
    ((fresh isMine nMinimumInputValue isLive).run P calls).SpentMarked :=
  (run_good calls _ (fresh_good isMine nMinimumInputValue isLive) hmeets).marked

end LiveWallet

namespace LiveExample

open Builders LiveWallet

/-- A payment to the wallet, and a transaction that spends it. -/
def parentTx : CTransaction := spending 10 100 [⟨9, 0⟩] [output 5]

def childTx : CTransaction := spending 11 200 [⟨10, 0⟩] [⟨5, payTo 2⟩]

def start : LiveWallet := fresh (fun script ↦ decide (script = payTo 1)) 0 fun _ ↦ false

/-- The parent is heard of while it is pending. -/
def heardOf : WalletCall := .addToWalletIfInvolvingMe parentTx none false true true

/-- The child is committed. -/
def spentWhilePending : List WalletCall := [heardOf, .commitTransaction (.ofTx childTx) true true 200]

theorem spentMarked_whilePending : (start.run (network true) spentWhilePending).SpentMarked := by
  apply spentMarked_run
  refine ⟨fun _ _ ↦ ⟨?_, ?_⟩, ⟨⟨?_, ?_⟩, ?_⟩, trivial⟩
  · rintro n txout - - ⟨hash, wtx, -, -, hentry, -⟩
    cases hentry
  · intro hstops
    cases hstops
  · intro n txout hout hmine
    have hmem : txout ∈ childTx.vout := List.mem_of_getElem? hout
    have hforeign : ∀ txout ∈ childTx.vout, decide (txout.scriptPubKey = payTo 1) = false := by decide
    exact absurd hmine (Bool.eq_false_iff.mp (hforeign txout hmem))
  · intro hstops
    exact absurd hstops (by decide)
  · intro wtx hentry
    have hnone : (start.step (network true) heardOf).wallet.mapWallet 11 = none := by decide
    cases hnone.symm.trans hentry

def block : CBlock := ⟨⟨6, 1, 0, 300, 0, 77⟩, [parentTx], []⟩

/-- Then the parent is found in a block. -/
def parentConfirmed : List WalletCall :=
  spentWhilePending ++ [.addToWalletIfInvolvingMe parentTx (some block) true true true]

/-- The child is still in the pool, and its coin is available again. -/
theorem not_spentMarked : ¬∀ (P : ChainParams) (isMine : CScript → Bool) (nMinimumInputValue : ℤ)
    (isLive : Uint256 → Bool) (calls : List WalletCall),
      ((fresh isMine nMinimumInputValue isLive).run P calls).SpentMarked := by
  intro h
  have hown : ((start.run (network true) parentConfirmed).wallet.ownOutput ⟨10, 0⟩).isSome = true := by
    decide
  have hlive : (start.run (network true) parentConfirmed).isLive 11 = true := by decide
  have hspends : ((start.run (network true) parentConfirmed).wallet.mapWallet 11).map
      CWalletTx.toCTransaction = some childTx := by decide
  obtain ⟨wtx, hentry, htx⟩ := Option.map_eq_some_iff.mp hspends
  have hset := h (network true) _ 0 _ parentConfirmed ⟨10, 0⟩ hown
    ⟨11, wtx, by decide, hlive, hentry, by rw [htx]; decide⟩
  exact absurd hset (by decide)

end LiveExample

end Electra.Chain

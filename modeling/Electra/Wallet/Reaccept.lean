import Electra.Foundations.WorkQueue
import Electra.Wallet.Rescan

/-!
# Re-accepting wallet transactions

At start-up the wallet looks up its transactions in the transaction index, marks what the index says to
be spent, and puts transactions that are in no block into the memory pool again.  As long as spends were
found that it did not know of, and a scan of the block chain enters new transactions, it starts again.
-/

namespace Electra.Chain

open Foundations.RepeatLoop

namespace CWallet

/-- What the loop reads.  The transactions of `mapWallet` are visited in the order of `ids`, which are
the ids of the wallet and of the chain; the memory pool is changed and not looked at. -/
structure ReacceptEnv (Pool : Type) where
  P : ChainParams
  readTxIndex : TxIndexView
  nTimeFirstKey : ℤ
  chain : List CBlock
  ids : List Uint256
  acceptWalletTransaction : CWalletTx → Pool → Pool

structure ReacceptState (Pool : Type) where
  wallet : CWallet
  pool : Pool
  vMissingTx : List CDiskTxPos

variable {Pool : Type} (env : ReacceptEnv Pool)

/-- A coinbase or coinstake is passed over when its first payment is spent. -/
def isPassedOver (wtx : CWalletTx) : Bool :=
  (wtx.isCoinBase && wtx.isSpent 0) || (wtx.isCoinStake && wtx.isSpent 1)

/-- One output of a transaction that is in the index. -/
def findSpent (isMine : CScript → Bool) (vSpent : List (Option CDiskTxPos))
    (s : CWalletTx × List CDiskTxPos) (i : ℕ) : CWalletTx × List CDiskTxPos :=
  if s.1.isSpent i then s
  else
    match vSpent[i]?, s.1.vout[i]? with
    | some (some pos), some txout =>
        if isMine txout.scriptPubKey then (s.1.markSpent i, s.2 ++ [pos]) else s
    | _, _ => s

/-- One transaction of the wallet. -/
def reacceptTx (s : ReacceptState Pool) (hash : Uint256) : ReacceptState Pool :=
  match s.wallet.mapWallet hash with
  | none => s
  | some wtx =>
      if isPassedOver wtx then s
      else
        match env.readTxIndex (env.P.hashTx wtx.toCTransaction) with
        | some txindex =>
            if txindex.vSpent.length ≠ wtx.vout.length then s
            else
              let found := (List.range txindex.vSpent.length).foldl
                (findSpent s.wallet.isMine txindex.vSpent) (wtx, s.vMissingTx)
              { s with wallet := s.wallet.update hash found.1, vMissingTx := found.2 }
        | none =>
            if wtx.isCoinBase || wtx.isCoinStake then s
            else { s with pool := env.acceptWalletTransaction wtx s.pool }

def reacceptPass (s : ReacceptState Pool) : ReacceptState Pool :=
  env.ids.foldl (reacceptTx env) { s with vMissingTx := [] }

/-- One turn of the outer loop, and whether it is repeated. -/
def reacceptTurn (s : ReacceptState Pool) : ReacceptState Pool × Bool :=
  let s := reacceptPass env s
  if s.vMissingTx = [] then (s, false)
  else
    let (wallet, ret) := scanForWalletTransactions env.P env.nTimeFirstKey s.wallet env.chain false
    ({ s with wallet := wallet }, ret ≠ 0)

def reacceptWalletTransactions (fuel : ℕ) (wallet : CWallet) (pool : Pool) :
    Option (ReacceptState Pool) :=
  repeatLoop (reacceptTurn env) fuel ⟨wallet, pool, []⟩

variable {P : ChainParams} {w w' w'' : CWallet} {tx : CTransaction} {block : CBlock} {wtx wtx' : CWalletTx}
  {h hash : Uint256} {fBlock : Bool}

/-- The same transaction with at least the spent flags. -/
structure Grows (wtx wtx' : CWalletTx) : Prop where
  toCTransaction : wtx'.toCTransaction = wtx.toCTransaction
  isSpent : ∀ i < wtx.vout.length, wtx.isSpent i = true → wtx'.isSpent i = true

theorem Grows.refl (wtx : CWalletTx) : Grows wtx wtx := ⟨rfl, fun _ _ h ↦ h⟩

theorem Grows.vout (h : Grows wtx wtx') : wtx'.vout = wtx.vout := congrArg CTransaction.vout h.toCTransaction

theorem Grows.trans {wtx'' : CWalletTx} (h : Grows wtx wtx') (h' : Grows wtx' wtx'') : Grows wtx wtx'' where
  toCTransaction := h'.toCTransaction.trans h.toCTransaction
  isSpent i hi hspent := h'.isSpent i (h.vout ▸ hi) (h.isSpent i hi hspent)

theorem grows_markSpent (wtx : CWalletTx) (nOut : ℕ) : Grows wtx (wtx.markSpent nOut) where
  toCTransaction := rfl
  isSpent i hi hspent := by
    rw [CWalletTx.markSpent, isSpent_mark hi]
    split
    · rfl
    · exact hspent

/-- A transaction of the wallet stays there. -/
def Stays (h : Uint256) (w w' : CWallet) : Prop :=
  ∀ wtx, w.mapWallet h = some wtx → ∃ wtx', w'.mapWallet h = some wtx' ∧ Grows wtx wtx'

theorem Stays.refl : Stays h w w := fun wtx hwtx ↦ ⟨wtx, hwtx, .refl wtx⟩

theorem Stays.trans (hs : Stays h w w') (hs' : Stays h w' w'') : Stays h w w'' := by
  intro wtx hwtx
  obtain ⟨wtx', hwtx', hgrows⟩ := hs wtx hwtx
  obtain ⟨wtx'', hwtx'', hgrows'⟩ := hs' wtx' hwtx'
  exact ⟨wtx'', hwtx'', hgrows.trans hgrows'⟩

theorem stays_of_ne (hne : h ≠ hash) : Stays h w (w.update hash wtx) := by
  intro wtx hwtx
  refine ⟨wtx, ?_, .refl wtx⟩
  rw [mapWallet_update, if_neg hne, hwtx]

theorem stays_update (hentry : w.mapWallet hash = some wtx) (hgrows : Grows wtx wtx') :
    Stays h w (w.update hash wtx') := by
  by_cases hsame : h = hash
  · intro wtx₀ hwtx
    rw [hsame, hentry] at hwtx
    obtain rfl := Option.some.inj hwtx
    exact ⟨wtx', by rw [mapWallet_update, if_pos hsame], hgrows⟩
  · exact stays_of_ne hsame

theorem stays_updateSpentInput (w : CWallet) (p : COutPoint) : Stays h w (w.updateSpentInput p) := by
  unfold updateSpentInput
  split
  · next hentry _ =>
    split
    · exact .refl
    · exact stays_update hentry (grows_markSpent _ _)
  · exact .refl

theorem stays_foldl {α : Type} {f : CWallet → α → CWallet} (hf : ∀ w a, Stays h w (f w a)) (w : CWallet)
    (as : List α) : Stays h w (as.foldl f w) := by
  induction as generalizing w with
  | nil => exact .refl
  | cons a as ih => exact (hf w a).trans (ih (f w a))

theorem stays_refreshOutput (hne : h ≠ hash) (w : CWallet) (output : CTxOut × ℕ) :
    Stays h w (refreshOutput hash w output) := by
  unfold refreshOutput
  split
  · split
    · exact stays_of_ne hne
    · exact .refl
  · exact .refl

/-- Clearing flags leaves other transactions alone. -/
theorem stays_walletUpdateSpent (hne : fBlock = true → h ≠ P.hashTx tx) :
    Stays h w (w.walletUpdateSpent P tx fBlock) := by
  unfold walletUpdateSpent
  have hinputs := @stays_foldl h _ updateSpentInput stays_updateSpentInput w (tx.vin.map CTxIn.prevout)
  cases fBlock with
  | false => exact hinputs
  | true => exact hinputs.trans (stays_foldl (stays_refreshOutput (hne rfl)) _ _)

theorem isSome_of_sameTxs (hsame : SameTxs w w') (h : Uint256) :
    (w'.mapWallet h).isSome = (w.mapWallet h).isSome := by
  rw [← @Option.isSome_map _ _ CWalletTx.toCTransaction, hsame.toCTransaction, Option.isSome_map]

/-- A scan that counts the transactions it enters, all of them among `ids`. -/
structure Enters (ids : Set Uint256) (s s' : CWallet × ℕ) : Prop where
  isMine : s'.1.isMine = s.1.isMine
  stays : ∀ h, Stays h s.1 s'.1
  among : ∀ h, (s'.1.mapWallet h).isSome = true → (s.1.mapWallet h).isSome = true ∨ h ∈ ids
  le : s.2 ≤ s'.2
  known : s'.2 = s.2 → ∀ h, (s'.1.mapWallet h).isSome = true → (s.1.mapWallet h).isSome = true
  new : s.2 < s'.2 → ∃ h, s.1.mapWallet h = none ∧ (s'.1.mapWallet h).isSome = true

variable {ids : Set Uint256} {s s' s'' : CWallet × ℕ} {chain : List CBlock} {nTimeFirstKey : ℤ}

theorem Stays.isSome (hs : Stays h w w') (hsome : (w.mapWallet h).isSome = true) :
    (w'.mapWallet h).isSome = true := by
  obtain ⟨wtx, hwtx⟩ := Option.isSome_iff_exists.mp hsome
  obtain ⟨wtx', hwtx', -⟩ := hs wtx hwtx
  rw [hwtx']
  rfl

theorem Enters.refl : Enters ids s s :=
  ⟨rfl, fun _ ↦ .refl, fun _ h ↦ .inl h, le_rfl, fun _ _ h ↦ h, fun h ↦ absurd h (lt_irrefl _)⟩

theorem Enters.trans (h : Enters ids s s') (h' : Enters ids s' s'') : Enters ids s s'' where
  isMine := h'.isMine.trans h.isMine
  stays := fun hash ↦ (h.stays hash).trans (h'.stays hash)
  among := fun hash hsome ↦ (h'.among hash hsome).elim (h.among hash) .inr
  le := h.le.trans h'.le
  known := by
    intro heq hash hsome
    have hle := h.le
    have hle' := h'.le
    exact h.known (by omega) hash (h'.known (by omega) hash hsome)
  new := by
    intro hlt
    by_cases hfirst : s.2 < s'.2
    · obtain ⟨hash, hnone, hsome⟩ := h.new hfirst
      exact ⟨hash, hnone, (h'.stays hash).isSome hsome⟩
    · have hle := h.le
      obtain ⟨hash, hnone, hsome⟩ := h'.new (by omega)
      refine ⟨hash, ?_, hsome⟩
      rw [← Option.not_isSome_iff_eq_none]
      intro hold
      have hkept := (h.stays hash).isSome hold
      rw [hnone] at hkept
      cases hkept

theorem enters_foldl {α : Type} {f : CWallet × ℕ → α → CWallet × ℕ} {as : List α}
    (hf : ∀ s, ∀ a ∈ as, Enters ids s (f s a)) (s : CWallet × ℕ) : Enters ids s (as.foldl f s) := by
  induction as generalizing s with
  | nil => exact .refl
  | cons a as ih =>
    exact (hf s a List.mem_cons_self).trans (ih (fun s b hb ↦ hf s b (List.mem_cons_of_mem a hb)) (f s a))

/-- A transaction that is entered is new, and its flags are the only ones that are cleared. -/
theorem addToWallet_enters (hnone : w.mapWallet (P.hashTx tx) = none) (htx : wtx.toCTransaction = tx) :
    (w.addToWallet P wtx).isMine = w.isMine ∧ (∀ h, Stays h w (w.addToWallet P wtx)) ∧
      ∀ h, ((w.addToWallet P wtx).mapWallet h).isSome =
        if h = P.hashTx tx then true else (w.mapWallet h).isSome := by
  have hnew : w.addToWallet P wtx = (w.update (P.hashTx tx) wtx).walletUpdateSpent P tx
      (decide (wtx.hashBlock ≠ 0)) := by
    unfold addToWallet
    simp only [htx, hnone]
  have hentry : ((w.update (P.hashTx tx) wtx).mapWallet (P.hashTx tx)).map CWalletTx.toCTransaction =
      some tx := by
    rw [mapWallet_update, if_pos rfl, Option.map_some, htx]
  obtain ⟨hsame, -⟩ := @walletUpdateSpent_spec P tx (decide (wtx.hashBlock ≠ 0)) _ fun _ ↦ hentry
  rw [hnew]
  refine ⟨hsame.isMine, fun h ↦ ?_, fun h ↦ ?_⟩
  · by_cases hhash : h = P.hashTx tx
    · intro wtx₀ hwtx
      rw [hhash, hnone] at hwtx
      cases hwtx
    · exact (stays_of_ne hhash).trans (stays_walletUpdateSpent fun _ ↦ hhash)
  · rw [isSome_of_sameTxs hsame, mapWallet_update]
    split <;> rfl

theorem scanTx_enters (hmem : P.hashTx tx ∈ ids) : Enters ids s (scanTx P false block s tx) := by
  unfold scanTx involvesMe addToWalletIfInvolvingMe
  cases hentry : s.1.mapWallet (P.hashTx tx) with
  | some wtx => exact .refl
  | none =>
    simp only [Option.isSome_none, Bool.false_and, Bool.not_false, Bool.true_and, Bool.false_or,
      Bool.false_eq_true, if_false]
    by_cases hinvolved : (s.1.paysToMe tx || s.1.isFromMe tx) = true
    · rw [if_pos hinvolved, if_pos hinvolved]
      obtain ⟨hmine, hstays, hsome⟩ :=
        @addToWallet_enters P s.1 tx (walletTxInBlock P tx block) hentry rfl
      refine ⟨hmine, hstays, fun h hh ↦ ?_, Nat.le_succ _, fun heq ↦ ?_, fun _ ↦ ?_⟩
      · rw [hsome] at hh
        split at hh
        · next hhash => exact .inr (hhash ▸ hmem)
        · exact .inl hh
      · exact absurd heq (Nat.succ_ne_self _)
      · exact ⟨P.hashTx tx, hentry, by rw [hsome, if_pos rfl]⟩
    · rw [if_neg hinvolved, if_neg hinvolved]
      obtain ⟨hsame, -⟩ := @walletUpdateSpent_spec P tx false s.1 fun h ↦ absurd h Bool.false_ne_true
      exact ⟨hsame.isMine, fun h ↦ stays_walletUpdateSpent fun hb ↦ absurd hb Bool.false_ne_true,
        fun h hh ↦ .inl (isSome_of_sameTxs hsame h ▸ hh), le_rfl,
        fun _ h hh ↦ isSome_of_sameTxs hsame h ▸ hh, fun hlt ↦ absurd hlt (lt_irrefl _)⟩

theorem scanForWalletTransactions_enters
    (hids : ∀ block ∈ chain, ∀ tx ∈ block.vtx, P.hashTx tx ∈ ids) :
    Enters ids (w, 0) (scanForWalletTransactions P nTimeFirstKey w chain false) := by
  apply enters_foldl
  intro s block hblock
  unfold scanBlock
  split
  · exact .refl
  · exact enters_foldl (fun s tx htx ↦ scanTx_enters (hids block hblock tx htx)) s

/-- Every own output that the transaction index says to be spent is marked. -/
def Repaired (isMine : CScript → Bool) (wtx : CWalletTx) : Prop :=
  ∀ txindex, env.readTxIndex (env.P.hashTx wtx.toCTransaction) = some txindex →
    txindex.vSpent.length = wtx.vout.length →
      ∀ i txout pos, wtx.vout[i]? = some txout → isMine txout.scriptPubKey = true →
        txindex.vSpent[i]? = some (some pos) → wtx.isSpent i = true

variable {env} {isMine : CScript → Bool} {vSpent : List (Option CDiskTxPos)} {i : ℕ} {txout : CTxOut}
  {pos : CDiskTxPos}

theorem Repaired.grows (h : Repaired env isMine wtx) (hgrows : Grows wtx wtx') : Repaired env isMine wtx' := by
  intro txindex hindex hlength i txout pos hout hmine hspent
  rw [hgrows.toCTransaction] at hindex
  rw [hgrows.vout] at hlength hout
  apply hgrows.isSpent i (List.getElem?_eq_some_iff.mp hout).1
  exact h txindex hindex hlength i txout pos hout hmine hspent

theorem length_pos_of_isCoinBase (h : tx.isCoinBase = true) : 0 < tx.vout.length := by
  unfold CTransaction.isCoinBase at h
  split at h
  · rw [Bool.and_eq_true, decide_eq_true_iff] at h
    exact h.2
  · cases h

theorem one_lt_length_of_isCoinStake (h : tx.isCoinStake = true) : 1 < tx.vout.length := by
  unfold CTransaction.isCoinStake at h
  split at h
  · next hvout =>
    rw [hvout]
    exact Nat.succ_lt_succ (Nat.succ_pos _)
  · cases h

/-- What is passed over once is passed over from then on. -/
theorem Grows.isPassedOver (hgrows : Grows wtx wtx') (h : isPassedOver wtx = true) :
    isPassedOver wtx' = true := by
  unfold CWallet.isPassedOver at h ⊢
  rw [hgrows.toCTransaction]
  rw [Bool.or_eq_true, Bool.and_eq_true, Bool.and_eq_true] at h ⊢
  apply h.imp
  · intro ⟨hbase, hspent⟩
    exact ⟨hbase, hgrows.isSpent 0 (length_pos_of_isCoinBase hbase) hspent⟩
  · intro ⟨hstake, hspent⟩
    exact ⟨hstake, hgrows.isSpent 1 (one_lt_length_of_isCoinStake hstake) hspent⟩

theorem findSpent_grows (found : CWalletTx × List CDiskTxPos) (i : ℕ) :
    Grows found.1 (findSpent isMine vSpent found i).1 := by
  unfold findSpent
  split
  · exact .refl _
  · split
    · split
      · exact grows_markSpent _ _
      · exact .refl _
    · exact .refl _

theorem isSpent_findSpent {found : CWalletTx × List CDiskTxPos} (hout : found.1.vout[i]? = some txout)
    (hmine : isMine txout.scriptPubKey = true) (hspent : vSpent[i]? = some (some pos)) :
    (findSpent isMine vSpent found i).1.isSpent i = true := by
  unfold findSpent
  split
  · assumption
  · rw [hspent, hout]
    simp only [hmine, if_true]
    rw [CWalletTx.markSpent, isSpent_mark (List.getElem?_eq_some_iff.mp hout).1, if_pos rfl]

theorem foldl_findSpent_grows (found : CWalletTx × List CDiskTxPos) (is : List ℕ) :
    Grows found.1 (is.foldl (findSpent isMine vSpent) found).1 := by
  induction is generalizing found with
  | nil => exact .refl _
  | cons i is ih => exact (findSpent_grows found i).trans (ih _)

theorem isSpent_foldl_findSpent {found : CWalletTx × List CDiskTxPos} {is : List ℕ} (hi : i ∈ is)
    (hout : found.1.vout[i]? = some txout) (hmine : isMine txout.scriptPubKey = true)
    (hspent : vSpent[i]? = some (some pos)) :
    (is.foldl (findSpent isMine vSpent) found).1.isSpent i = true := by
  obtain ⟨before, after, rfl⟩ := List.append_of_mem hi
  have hbefore := @foldl_findSpent_grows isMine vSpent found before
  rw [← hbefore.vout] at hout
  rw [List.foldl_append, List.foldl_cons]
  apply (foldl_findSpent_grows _ after).isSpent i _ (isSpent_findSpent hout hmine hspent)
  rw [(findSpent_grows _ i).vout]
  exact (List.getElem?_eq_some_iff.mp hout).1

/-- The outputs of a transaction that is in the index are all looked at. -/
theorem repaired_of_findSpent {txindex : CTxIndex} {vMissingTx : List CDiskTxPos}
    (hindex : env.readTxIndex (env.P.hashTx wtx.toCTransaction) = some txindex) :
    Repaired env isMine ((List.range txindex.vSpent.length).foldl
      (findSpent isMine txindex.vSpent) (wtx, vMissingTx)).1 := by
  intro txindex' hindex' _ i txout pos hout hmine hspent
  have hgrows := @foldl_findSpent_grows isMine txindex.vSpent (wtx, vMissingTx)
    (List.range txindex.vSpent.length)
  rw [hgrows.toCTransaction, hindex] at hindex'
  obtain rfl := Option.some.inj hindex'
  rw [hgrows.vout] at hout
  exact isSpent_foldl_findSpent (List.mem_range.mpr (List.getElem?_eq_some_iff.mp hspent).1) hout hmine hspent

/-- The same keys and transactions, with at least the spent flags. -/
structure Keeps (w w' : CWallet) : Prop where
  isMine : w'.isMine = w.isMine
  isSome : ∀ h, (w'.mapWallet h).isSome = (w.mapWallet h).isSome
  stays : ∀ h, Stays h w w'

theorem Keeps.refl : Keeps w w := ⟨rfl, fun _ ↦ rfl, fun _ ↦ .refl⟩

theorem Keeps.trans (h : Keeps w w') (h' : Keeps w' w'') : Keeps w w'' where
  isMine := h'.isMine.trans h.isMine
  isSome hash := (h'.isSome hash).trans (h.isSome hash)
  stays hash := (h.stays hash).trans (h'.stays hash)

theorem keeps_update (hentry : w.mapWallet hash = some wtx) (hgrows : Grows wtx wtx') :
    Keeps w (w.update hash wtx') where
  isMine := rfl
  isSome h := by
    rw [mapWallet_update]
    split
    · next hsame =>
      rw [hsame, hentry]
      rfl
    · rfl
  stays _ := stays_update hentry hgrows

variable {s : ReacceptState Pool} {hashes : List Uint256}

theorem reacceptTx_keeps (s : ReacceptState Pool) (hash : Uint256) :
    Keeps s.wallet (reacceptTx env s hash).wallet := by
  unfold reacceptTx
  split
  · exact .refl
  · next wtx hentry =>
    split
    · exact .refl
    · split
      · split
        · exact .refl
        · exact keeps_update hentry (foldl_findSpent_grows (wtx, s.vMissingTx) _)
      · split <;> exact .refl

theorem mapWallet_reacceptTx (hne : h ≠ hash) :
    (reacceptTx env s hash).wallet.mapWallet h = s.wallet.mapWallet h := by
  unfold reacceptTx
  split
  · rfl
  · split
    · rfl
    · split
      · split
        · rfl
        · exact mapWallet_update.trans (if_neg hne)
      · split <;> rfl

/-- A transaction that is not in the index, or whose entry has another number of outputs, needs no repair. -/
theorem repaired_of_reacceptTx (hentry : s.wallet.mapWallet hash = some wtx)
    (hvisited : isPassedOver wtx = false)
    (hentry' : (reacceptTx env s hash).wallet.mapWallet hash = some wtx') :
    Repaired env s.wallet.isMine wtx' := by
  unfold reacceptTx at hentry'
  simp only [hentry, hvisited, Bool.false_eq_true, if_false] at hentry'
  cases hindex : env.readTxIndex (env.P.hashTx wtx.toCTransaction) with
  | none =>
    have hsame : s.wallet.mapWallet hash = some wtx' := by
      simp only [hindex] at hentry'
      split at hentry' <;> exact hentry'
    rw [hentry] at hsame
    obtain rfl := Option.some.inj hsame
    intro txindex hindex'
    rw [hindex] at hindex'
    cases hindex'
  | some txindex =>
    rw [hindex] at hentry'
    by_cases hlength : txindex.vSpent.length = wtx.vout.length
    · simp only [ne_eq, hlength, not_true_eq_false, if_false, mapWallet_update, if_true] at hentry'
      obtain rfl := Option.some.inj hentry'
      rw [← hlength]
      exact repaired_of_findSpent hindex
    · simp only [ne_eq, hlength, not_false_eq_true, if_true] at hentry'
      rw [hentry] at hentry'
      obtain rfl := Option.some.inj hentry'
      intro txindex' hindex' hlength'
      rw [hindex] at hindex'
      obtain rfl := Option.some.inj hindex'
      exact absurd hlength' hlength

/-- Every transaction that is visited is repaired unless it was passed over. -/
theorem foldl_reacceptTx_spec (s : ReacceptState Pool) (hashes : List Uint256) :
    Keeps s.wallet (hashes.foldl (reacceptTx env) s).wallet ∧
      ∀ h ∈ hashes, ∀ wtx wtx', s.wallet.mapWallet h = some wtx →
        (hashes.foldl (reacceptTx env) s).wallet.mapWallet h = some wtx' →
          Repaired env s.wallet.isMine wtx' ∨ isPassedOver wtx = true := by
  induction hashes generalizing s with
  | nil => exact ⟨.refl, fun _ h ↦ absurd h List.not_mem_nil⟩
  | cons hash hashes ih =>
    have hfirst : Keeps s.wallet (reacceptTx env s hash).wallet := reacceptTx_keeps s hash
    obtain ⟨hkeeps, hrest⟩ := ih (reacceptTx env s hash)
    refine ⟨hfirst.trans hkeeps, fun h hh wtx wtx' hwtx hwtx' ↦ ?_⟩
    by_cases hsame : h = hash
    · cases hpassed : isPassedOver wtx with
      | true => exact .inr rfl
      | false =>
        left
        rw [hsame] at hwtx hwtx'
        obtain ⟨visited, hvisited, -⟩ := hfirst.stays hash wtx hwtx
        obtain ⟨last, hlast, hgrows⟩ := hkeeps.stays hash visited hvisited
        have heq : last = wtx' := Option.some.inj (hlast.symm.trans hwtx')
        rw [← heq]
        exact (repaired_of_reacceptTx hwtx hpassed hvisited).grows hgrows
    · rw [← hfirst.isMine]
      apply hrest h _ wtx wtx' _ hwtx'
      · exact (List.mem_cons.mp hh).resolve_left hsame
      · rw [mapWallet_reacceptTx hsame, hwtx]

theorem reacceptPass_spec (s : ReacceptState Pool) :
    Keeps s.wallet (reacceptPass env s).wallet ∧
      ∀ h ∈ env.ids, ∀ wtx wtx', s.wallet.mapWallet h = some wtx →
        (reacceptPass env s).wallet.mapWallet h = some wtx' →
          Repaired env s.wallet.isMine wtx' ∨ isPassedOver wtx = true :=
  foldl_reacceptTx_spec { s with vMissingTx := [] } env.ids

section Repairs

variable (env) (w₀ : CWallet)

/-- The transactions that a scan can still enter. -/
def absent (s : ReacceptState Pool) : Finset Uint256 :=
  env.ids.toFinset.filter fun h ↦ (s.wallet.mapWallet h).isNone = true

/-- What holds between the turns.  A transaction that is passed over now was so at the beginning unless it
is repaired. -/
structure Progress (s : ReacceptState Pool) : Prop where
  isMine : s.wallet.isMine = w₀.isMine
  stays : ∀ h, Stays h w₀ s.wallet
  mem_ids : ∀ h, (s.wallet.mapWallet h).isSome = true → h ∈ env.ids
  repaired : ∀ h wtx wtx', w₀.mapWallet h = some wtx → s.wallet.mapWallet h = some wtx' →
    isPassedOver wtx' = true → Repaired env w₀.isMine wtx' ∨ isPassedOver wtx = true

variable {env w₀}

/-- A turn is a pass and then a scan, and is repeated when the scan entered something. -/
theorem reacceptTurn_enters (hchain : ∀ block ∈ env.chain, ∀ tx ∈ block.vtx, env.P.hashTx tx ∈ env.ids)
    (s : ReacceptState Pool) :
    ∃ n, Enters {h | h ∈ env.ids} ((reacceptPass env s).wallet, 0) ((reacceptTurn env s).1.wallet, n) ∧
      (reacceptTurn env s).2 = decide (n ≠ 0) := by
  unfold reacceptTurn
  by_cases hmissing : (reacceptPass env s).vMissingTx = []
  · simp only [hmissing, if_true]
    exact ⟨0, .refl, rfl⟩
  · simp only [hmissing, if_false]
    exact ⟨_, scanForWalletTransactions_enters hchain, rfl⟩

variable (hchain : ∀ block ∈ env.chain, ∀ tx ∈ block.vtx, env.P.hashTx tx ∈ env.ids)

include hchain

theorem Progress.turn (h : Progress env w₀ s) : Progress env w₀ (reacceptTurn env s).1 := by
  obtain ⟨n, henters, -⟩ := reacceptTurn_enters hchain s
  obtain ⟨hkeeps, hpass⟩ := @reacceptPass_spec Pool env s
  refine ⟨henters.isMine.trans (hkeeps.isMine.trans h.isMine),
    fun hash ↦ (h.stays hash).trans ((hkeeps.stays hash).trans (henters.stays hash)),
    fun hash hsome ↦ ?_, fun hash wtx₀ wtx' hwtx₀ hwtx' _ ↦ ?_⟩
  · apply (henters.among hash hsome).elim _ id
    intro hold
    exact h.mem_ids hash ((hkeeps.isSome hash).symm.trans hold)
  · obtain ⟨start, hstart, -⟩ := h.stays hash wtx₀ hwtx₀
    obtain ⟨visited, hvisited, hgrows⟩ := hkeeps.stays hash start hstart
    obtain ⟨last, hlast, hgrows'⟩ := henters.stays hash visited hvisited
    have heq : last = wtx' := Option.some.inj (hlast.symm.trans hwtx')
    rw [← heq]
    have hmem : hash ∈ env.ids := h.mem_ids hash (by rw [hstart]; rfl)
    obtain hrepaired | hpassed := hpass hash hmem start visited hstart hvisited
    · left
      rw [← h.isMine]
      exact hrepaired.grows hgrows'
    · apply (h.repaired hash wtx₀ start hwtx₀ hstart hpassed).imp_left
      exact fun hrepaired ↦ hrepaired.grows (hgrows.trans hgrows')

/-- A turn that is repeated leaves fewer transactions to enter. -/
theorem card_absent_turn (h : Progress env w₀ s) (hagain : (reacceptTurn env s).2 = true) :
    (absent env (reacceptTurn env s).1).card < (absent env s).card := by
  obtain ⟨n, henters, hn⟩ := reacceptTurn_enters hchain s
  have hkeeps := (@reacceptPass_spec Pool env s).1
  rw [hagain] at hn
  obtain ⟨new, hnone, hsome⟩ := henters.new (Nat.pos_of_ne_zero (of_decide_eq_true hn.symm))
  have habsent : (s.wallet.mapWallet new).isSome = false := by
    rw [← hkeeps.isSome, hnone]
    rfl
  have hmem : new ∈ env.ids := (h.turn hchain).mem_ids new hsome
  apply Finset.card_lt_card
  rw [Finset.ssubset_iff_of_subset]
  · refine ⟨new, ?_, ?_⟩
    · exact Finset.mem_filter.mpr ⟨List.mem_toFinset.mpr hmem, by rw [← Option.not_isSome, habsent]; rfl⟩
    · intro hstill
      have hnone' := (Finset.mem_filter.mp hstill).2
      rw [← Option.not_isSome, hsome] at hnone'
      cases hnone'
  · intro hash hhash
    obtain ⟨hids, hafter⟩ := Finset.mem_filter.mp hhash
    refine Finset.mem_filter.mpr ⟨hids, ?_⟩
    rw [← Option.not_isSome, Bool.not_eq_true'] at hafter ⊢
    by_contra hbefore
    rw [Bool.not_eq_false, ← hkeeps.isSome] at hbefore
    rw [(henters.stays hash).isSome hbefore] at hafter
    cases hafter

/-- Re-accepting ends.  Every transaction of the wallet then has the marks that the index asks for, unless
it is a coinbase or coinstake whose first payment is marked and was so before or is of a transaction that
was entered. -/
theorem reacceptWalletTransactions_repairs (pool : Pool)
    (hwallet : ∀ h, (w₀.mapWallet h).isSome = true → h ∈ env.ids) :
    ∃ t bound, (∀ fuel, bound < fuel → reacceptWalletTransactions env fuel w₀ pool = some t) ∧
      ∀ h wtx, t.wallet.mapWallet h = some wtx → Repaired env t.wallet.isMine wtx ∨
        (isPassedOver wtx = true ∧ ∀ wtx₀, w₀.mapWallet h = some wtx₀ → isPassedOver wtx₀ = true) := by
  have hstart : Progress env w₀ (⟨w₀, pool, []⟩ : ReacceptState Pool) := by
    refine ⟨rfl, fun h ↦ .refl, hwallet, fun h wtx wtx' hwtx hwtx' hpassed ↦ .inr ?_⟩
    have heq : wtx = wtx' := Option.some.inj (hwtx.symm.trans hwtx')
    rw [heq]
    exact hpassed
  obtain ⟨t, ht⟩ := exists_repeatLoop_eq (fun s ↦ (absent env s).card)
    (fun s hs hagain ↦ ⟨hs.turn hchain, card_absent_turn hchain hs hagain⟩) hstart
  refine ⟨t, _, ht, fun h wtx hwtx ↦ ?_⟩
  obtain ⟨last, hlast, hturn⟩ := last_turn (fun s hs _ ↦ hs.turn hchain) hstart (ht _ (Nat.lt_succ_self _))
  obtain ⟨n, henters, hn⟩ := reacceptTurn_enters hchain last
  obtain ⟨hkeeps, hpass⟩ := @reacceptPass_spec Pool env last
  rw [hturn] at henters hn
  have hzero : n = 0 := by
    by_contra hne
    exact Bool.false_ne_true (hn.trans (decide_eq_true hne))
  have hknown := henters.known hzero h (by rw [hwtx]; rfl)
  rw [hkeeps.isSome] at hknown
  obtain ⟨start, hentry⟩ := Option.isSome_iff_exists.mp hknown
  obtain ⟨visited, hvisited, hgrows⟩ := hkeeps.stays h start hentry
  obtain ⟨final, hfinal, hgrows'⟩ := henters.stays h visited hvisited
  have heq : final = wtx := Option.some.inj (hfinal.symm.trans hwtx)
  rw [heq] at hgrows'
  have hmine : t.wallet.isMine = last.wallet.isMine := henters.isMine.trans hkeeps.isMine
  rw [hmine]
  obtain hrepaired | hpassed := hpass h (hlast.mem_ids h hknown) start visited hentry hvisited
  · exact .inl (hrepaired.grows hgrows')
  · rw [or_iff_not_imp_left]
    intro hnot
    refine ⟨(hgrows.trans hgrows').isPassedOver hpassed, fun wtx₀ hwtx₀ ↦ ?_⟩
    apply (hlast.repaired h wtx₀ start hwtx₀ hentry hpassed).resolve_left
    intro hrepaired
    apply hnot
    rw [hlast.isMine]
    exact hrepaired.grows (hgrows.trans hgrows')

end Repairs

namespace ReacceptExample

open Builders

/-- A coinbase with two payments to us, both of which are spent. -/
def rewardTx : CTransaction := coinbase 10 100 1 [⟨5, payTo 1⟩, ⟨7, payTo 1⟩]

def firstTx : CTransaction := spending 11 200 [⟨10, 0⟩] [⟨5, payTo 2⟩]

def secondTx : CTransaction := spending 12 200 [⟨10, 1⟩] [⟨7, payTo 2⟩]

def net : ChainParams := network true

def twoSpends : ReacceptEnv Unit where
  P := net
  readTxIndex := fun hash ↦
    if hash = 10 then some ⟨⟨1, 0, 80⟩, [some ⟨1, 300, 380⟩, some ⟨1, 300, 460⟩]⟩ else none
  nTimeFirstKey := 0
  chain := [blockOf net 5 4 100 0 [rewardTx], blockOf net 6 5 200 0 [firstTx, secondTx]]
  ids := [10, 11, 12]
  acceptWalletTransaction := fun _ pool ↦ pool

/-- The wallet knows of the marks `vfSpent`. -/
def walletWith (vfSpent : List Bool) : CWallet where
  isMine := fun script ↦ script = payTo 1
  nMinimumInputValue := 0
  mapWallet := fun hash ↦ if hash = 10 then some ⟨rewardTx, 5, [], 0, false, vfSpent⟩ else none

theorem mem_ids_walletWith (vfSpent : List Bool) :
    ∀ h, ((walletWith vfSpent).mapWallet h).isSome = true → h ∈ twoSpends.ids := by
  intro h hsome
  by_cases hhash : h = 10
  · rw [hhash]
    exact List.mem_cons_self
  · have hnone : (walletWith vfSpent).mapWallet h = none := if_neg hhash
    rw [hnone] at hsome
    cases hsome

theorem mem_ids_chain : ∀ block ∈ twoSpends.chain, ∀ tx ∈ block.vtx, twoSpends.P.hashTx tx ∈ twoSpends.ids := by
  decide

/-- Both payments are marked when neither was. -/
theorem rewardTx_repaired : ∃ t bound,
    (∀ fuel, bound < fuel → reacceptWalletTransactions twoSpends fuel (walletWith [false, false]) () = some t) ∧
      ∀ wtx, t.wallet.mapWallet 10 = some wtx → Repaired twoSpends t.wallet.isMine wtx := by
  obtain ⟨t, bound, hends, hrepaired⟩ :=
    reacceptWalletTransactions_repairs mem_ids_chain () (mem_ids_walletWith [false, false])
  refine ⟨t, bound, hends, fun wtx hwtx ↦ (hrepaired 10 wtx hwtx).resolve_right fun hpassed ↦ ?_⟩
  have hfirst := hpassed.2 ⟨rewardTx, 5, [], 0, false, [false, false]⟩ rfl
  exact absurd hfirst (by decide)

/-- The second payment stays unmarked when the first one was marked. -/
theorem not_all_repaired : ¬∀ (Pool : Type) (env : ReacceptEnv Pool) (w₀ : CWallet) (pool : Pool),
    (∀ block ∈ env.chain, ∀ tx ∈ block.vtx, env.P.hashTx tx ∈ env.ids) →
    (∀ h, (w₀.mapWallet h).isSome = true → h ∈ env.ids) →
    ∃ t bound, (∀ fuel, bound < fuel → reacceptWalletTransactions env fuel w₀ pool = some t) ∧
      ∀ h wtx, t.wallet.mapWallet h = some wtx → Repaired env t.wallet.isMine wtx := by
  intro h
  obtain ⟨t, bound, hends, hrepaired⟩ :=
    h Unit twoSpends (walletWith [true, false]) () mem_ids_chain (mem_ids_walletWith [true, false])
  have hlast : (reacceptWalletTransactions twoSpends (bound + 1) (walletWith [true, false]) ()) =
      some ⟨walletWith [true, false], (), []⟩ := by rfl
  rw [hends (bound + 1) (Nat.lt_succ_self bound)] at hlast
  obtain rfl := Option.some.inj hlast
  have hspent := hrepaired 10 _ rfl ⟨⟨1, 0, 80⟩, [some ⟨1, 300, 380⟩, some ⟨1, 300, 460⟩]⟩ rfl rfl 1
    ⟨7, payTo 1⟩ ⟨1, 300, 460⟩ rfl rfl rfl
  exact absurd hspent (by decide)

end ReacceptExample

end CWallet

end Electra.Chain

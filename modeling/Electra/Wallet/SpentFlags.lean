import Electra.Chain.Wallet

/-!
# What a transaction changes in a wallet

A transaction that a wallet hears of sets the spent flags of the own outputs it spends.  If it was found
in a block and is or becomes one of the wallet, the flags of its own outputs are cleared.  The flags of
outputs that are not the wallet's own mean nothing.
-/

namespace Electra.Chain

namespace CWallet

variable {P : ChainParams} {w w' : CWallet} {tx : CTransaction} {block : CBlock} {wtx wtx' : CWalletTx}
  {p q : COutPoint} {h hash : Uint256} {fBlock fUpdate : Bool}

/-- The spent flag of an output of a wallet transaction. -/
def flag (w : CWallet) (q : COutPoint) : Bool := (w.mapWallet q.hash).any fun wtx ↦ wtx.isSpent q.n

def IsOwn (w : CWallet) (q : COutPoint) : Prop := (w.ownOutput q).isSome = true

/-- The same transactions in the same blocks. -/
structure SameTxs (w w' : CWallet) : Prop where
  isMine : w'.isMine = w.isMine
  nMinimumInputValue : w'.nMinimumInputValue = w.nMinimumInputValue
  entries : ∀ h, (w'.mapWallet h).map (fun wtx ↦ (wtx.toCTransaction, wtx.hashBlock)) =
    (w.mapWallet h).map fun wtx ↦ (wtx.toCTransaction, wtx.hashBlock)

theorem SameTxs.refl (w : CWallet) : SameTxs w w := ⟨rfl, rfl, fun _ ↦ rfl⟩

theorem SameTxs.trans {w'' : CWallet} (h : SameTxs w w') (h' : SameTxs w' w'') : SameTxs w w'' :=
  ⟨h'.isMine.trans h.isMine, h'.nMinimumInputValue.trans h.nMinimumInputValue,
    fun hash ↦ (h'.entries hash).trans (h.entries hash)⟩

theorem ownOutput_eq (w : CWallet) (q : COutPoint) :
    w.ownOutput q = ((w.mapWallet q.hash).map CWalletTx.toCTransaction).bind fun tx ↦
      tx.vout[q.n]?.filter fun txout ↦ w.isMine txout.scriptPubKey := by
  unfold ownOutput
  cases w.mapWallet q.hash with
  | none => rfl
  | some wtx =>
    change (wtx.vout[q.n]?.bind fun txout ↦
      if w.isMine txout.scriptPubKey = true then some txout else none) = _
    cases hout : wtx.vout[q.n]? with
    | none => simp [hout]
    | some txout => simp [hout, Option.filter]

/-- Own outputs go by the transaction that is in the wallet. -/
theorem ownOutput_congr (hmine : w'.isMine = w.isMine)
    (hentry : (w'.mapWallet q.hash).map CWalletTx.toCTransaction =
      (w.mapWallet q.hash).map CWalletTx.toCTransaction) : w'.ownOutput q = w.ownOutput q := by
  rw [ownOutput_eq, ownOutput_eq, hentry, hmine]

theorem SameTxs.toCTransaction (hsame : SameTxs w w') (h : Uint256) :
    (w'.mapWallet h).map CWalletTx.toCTransaction = (w.mapWallet h).map CWalletTx.toCTransaction := by
  have hfst := congrArg (Option.map Prod.fst) (hsame.entries h)
  rwa [Option.map_map, Option.map_map] at hfst

theorem SameTxs.ownOutput (h : SameTxs w w') (q : COutPoint) : w'.ownOutput q = w.ownOutput q :=
  ownOutput_congr h.isMine (h.toCTransaction q.hash)

theorem SameTxs.isOwn (h : SameTxs w w') : w'.IsOwn q ↔ w.IsOwn q := by
  rw [IsOwn, IsOwn, h.ownOutput]

theorem isOwn_iff : w.IsOwn q ↔ ∃ wtx, w.mapWallet q.hash = some wtx ∧
    ∃ txout, wtx.vout[q.n]? = some txout ∧ w.isMine txout.scriptPubKey = true := by
  rw [IsOwn, ownOutput_eq]
  cases w.mapWallet q.hash with
  | none => simp
  | some wtx =>
    cases hout : wtx.vout[q.n]? with
    | none => simp [hout]
    | some txout => simp [hout, Option.filter]

theorem isSpent_mark {nOut i : ℕ} {fSpent : Bool} (hi : i < wtx.vout.length) :
    (wtx.mark nOut fSpent).isSpent i = if i = nOut then fSpent else wtx.isSpent i := by
  have hrange : ((List.range wtx.vout.length).map fun j ↦ wtx.vfSpent.getD j false)[i]? =
      some (wtx.vfSpent.getD i false) := by
    rw [List.getElem?_map, List.getElem?_range hi]
    rfl
  change ((((List.range wtx.vout.length).map fun j ↦ wtx.vfSpent.getD j false).set nOut
    fSpent).getD i false) = _
  rw [List.getD_eq_getElem?_getD, List.getElem?_set, hrange]
  by_cases hsame : i = nOut
  · subst hsame
    simp [hi]
  · rw [if_neg hsame, if_neg (Ne.symm hsame)]
    rfl

theorem mapWallet_update : (w.update hash wtx).mapWallet h =
    if h = hash then some wtx else w.mapWallet h := by
  unfold update
  by_cases hsame : h = hash
  · rw [if_pos hsame, hsame]
    exact Function.update_self _ _ _
  · rw [if_neg hsame]
    exact Function.update_of_ne hsame _ _

/-- Marking an output of a wallet transaction leaves the transactions as they are. -/
theorem sameTxs_mark (hentry : w.mapWallet hash = some wtx) (nOut : ℕ) (fSpent : Bool) :
    SameTxs w (w.update hash (wtx.mark nOut fSpent)) := by
  refine ⟨rfl, rfl, fun h ↦ ?_⟩
  rw [mapWallet_update]
  split
  · next hsame =>
    rw [hsame, hentry]
    rfl
  · rfl

/-- The flag of an own output after a mark. -/
theorem flag_mark (hentry : w.mapWallet hash = some wtx) (hq : w.IsOwn q) (nOut : ℕ) (fSpent : Bool) :
    (w.update hash (wtx.mark nOut fSpent)).flag q =
      if q = ⟨hash, nOut⟩ then fSpent else w.flag q := by
  unfold flag
  rw [mapWallet_update]
  by_cases hhash : q.hash = hash
  · obtain ⟨wtx', hentry', txout, hout, -⟩ := isOwn_iff.mp hq
    rw [hhash, hentry] at hentry'
    cases hentry'
    obtain ⟨hlt, -⟩ := List.getElem?_eq_some_iff.mp hout
    rw [if_pos hhash, hhash, hentry, Option.any_some, Option.any_some, isSpent_mark hlt]
    by_cases hn : q.n = nOut
    · have hsame : q = ⟨hash, nOut⟩ := by
        cases q
        simp_all
      rw [if_pos hn, if_pos hsame]
    · have hdiff : q ≠ ⟨hash, nOut⟩ := fun hsame ↦ hn (congrArg (fun p ↦ p.n) hsame)
      rw [if_neg hn, if_neg hdiff]
  · have hdiff : q ≠ ⟨hash, nOut⟩ := fun hsame ↦ hhash (congrArg (fun p ↦ p.hash) hsame)
    rw [if_neg hhash, if_neg hdiff]

theorem updateSpentInput_spec (w : CWallet) (p : COutPoint) :
    SameTxs w (w.updateSpentInput p) ∧
      ∀ q, w.IsOwn q → (w.updateSpentInput p).flag q = (w.flag q || decide (q = p)) := by
  unfold updateSpentInput
  cases hentry : w.mapWallet p.hash with
  | none =>
    refine ⟨.refl w, fun q hq ↦ ?_⟩
    have hdiff : q ≠ p := by
      rintro rfl
      obtain ⟨wtx, hsome, -⟩ := isOwn_iff.mp hq
      rw [hentry] at hsome
      cases hsome
    rw [decide_eq_false hdiff, Bool.or_false]
  | some wtx =>
    cases hown : w.ownOutput p with
    | none =>
      refine ⟨.refl w, fun q hq ↦ ?_⟩
      have hdiff : q ≠ p := by
        rintro rfl
        rw [IsOwn, hown] at hq
        cases hq
      rw [decide_eq_false hdiff, Bool.or_false]
    | some txout =>
      simp only
      split
      · next hspent =>
        refine ⟨.refl w, fun q hq ↦ ?_⟩
        by_cases hsame : q = p
        · have hflag : w.flag q = true := by
            rw [flag, hsame, hentry]
            exact hspent
          rw [hflag, Bool.true_or]
        · rw [decide_eq_false hsame, Bool.or_false]
      · refine ⟨sameTxs_mark hentry _ _, fun q hq ↦ ?_⟩
        rw [CWalletTx.markSpent, flag_mark hentry hq]
        by_cases hsame : q = p
        · rw [if_pos hsame, decide_eq_true hsame, Bool.or_true]
        · rw [if_neg hsame, decide_eq_false hsame, Bool.or_false]

theorem foldl_updateSpentInput_spec (w : CWallet) (ps : List COutPoint) :
    SameTxs w (ps.foldl updateSpentInput w) ∧
      ∀ q, w.IsOwn q → (ps.foldl updateSpentInput w).flag q = (w.flag q || decide (q ∈ ps)) := by
  induction ps generalizing w with
  | nil => exact ⟨.refl w, fun q _ ↦ by simp⟩
  | cons p ps ih =>
    obtain ⟨hsame, hflag⟩ := updateSpentInput_spec w p
    obtain ⟨hsame', hflag'⟩ := ih (w.updateSpentInput p)
    refine ⟨hsame.trans hsame', fun q hq ↦ ?_⟩
    rw [List.foldl_cons, hflag' q (hsame.isOwn.mpr hq), hflag q hq, Bool.or_assoc]
    congr 1
    rw [← Bool.decide_or]
    exact decide_eq_decide.mpr List.mem_cons.symm

theorem refreshOutput_spec (w : CWallet) (hentry : w.mapWallet hash = some wtx) (output : CTxOut × ℕ) :
    SameTxs w (refreshOutput hash w output) ∧ ∀ q, w.IsOwn q →
      (refreshOutput hash w output).flag q =
        (w.flag q && !(w.isMine output.1.scriptPubKey && decide (q = ⟨hash, output.2⟩))) := by
  unfold refreshOutput
  rw [hentry]
  simp only
  split
  · next hmine =>
    refine ⟨sameTxs_mark hentry _ _, fun q hq ↦ ?_⟩
    rw [CWalletTx.markUnspent, flag_mark hentry hq, hmine, Bool.true_and]
    by_cases hsame : q = ⟨hash, output.2⟩
    · rw [if_pos hsame, decide_eq_true hsame, Bool.not_true, Bool.and_false]
    · rw [if_neg hsame, decide_eq_false hsame, Bool.not_false, Bool.and_true]
  · next hmine =>
    refine ⟨.refl w, fun q _ ↦ ?_⟩
    rw [eq_false_of_ne_true hmine, Bool.false_and, Bool.not_false, Bool.and_true]

theorem foldl_refreshOutput_spec (w : CWallet) (hentry : (w.mapWallet hash).isSome = true)
    (outputs : List (CTxOut × ℕ)) :
    SameTxs w (outputs.foldl (refreshOutput hash) w) ∧ ∀ q, w.IsOwn q →
      (outputs.foldl (refreshOutput hash) w).flag q = (w.flag q && !outputs.any fun output ↦
        w.isMine output.1.scriptPubKey && decide (q = ⟨hash, output.2⟩)) := by
  induction outputs generalizing w with
  | nil => exact ⟨.refl w, fun q _ ↦ by simp⟩
  | cons output outputs ih =>
    obtain ⟨wtx, hwtx⟩ := Option.isSome_iff_exists.mp hentry
    obtain ⟨hsame, hflag⟩ := refreshOutput_spec w hwtx output
    have hentry' : ((refreshOutput hash w output).mapWallet hash).isSome = true := by
      rw [← Option.isSome_map, hsame.toCTransaction, Option.isSome_map, hentry]
    obtain ⟨hsame', hflag'⟩ := ih (refreshOutput hash w output) hentry'
    refine ⟨hsame.trans hsame', fun q hq ↦ ?_⟩
    rw [List.foldl_cons, hflag' q (hsame.isOwn.mpr hq), hflag q hq, hsame.isMine, Bool.and_assoc,
      ← Bool.not_or, List.any_cons]

/-- All own outputs of a transaction are among those that are refreshed. -/
theorem any_zipIdx (hentry : (w.mapWallet hash).map CWalletTx.toCTransaction = some tx) (hq : w.IsOwn q) :
    (tx.vout.zipIdx.any fun output ↦ w.isMine output.1.scriptPubKey && decide (q = ⟨hash, output.2⟩)) =
      decide (q.hash = hash) := by
  rw [Bool.eq_iff_iff, List.any_eq_true, decide_eq_true_iff]
  constructor
  · rintro ⟨output, -, hboth⟩
    rw [Bool.and_eq_true, decide_eq_true_iff] at hboth
    rw [hboth.2]
  · intro hhash
    obtain ⟨wtx, hwtx, txout, hout, hmine⟩ := isOwn_iff.mp hq
    rw [← hhash, hwtx, Option.map_some] at hentry
    obtain rfl := Option.some.inj hentry
    refine ⟨(txout, q.n), List.mem_zipIdx_iff_getElem?.mpr hout, ?_⟩
    rw [Bool.and_eq_true, decide_eq_true_iff]
    exact ⟨hmine, by cases q; simp_all⟩

def prevouts (tx : CTransaction) : List COutPoint := tx.vin.map CTxIn.prevout

theorem walletUpdateSpent_spec (w : CWallet)
    (hentry : fBlock = true → (w.mapWallet (P.hashTx tx)).map CWalletTx.toCTransaction = some tx) :
    SameTxs w (w.walletUpdateSpent P tx fBlock) ∧ ∀ q, w.IsOwn q →
      (w.walletUpdateSpent P tx fBlock).flag q =
        ((w.flag q || decide (q ∈ prevouts tx)) && !(fBlock && decide (q.hash = P.hashTx tx))) := by
  unfold walletUpdateSpent
  obtain ⟨hsame, hflag⟩ := foldl_updateSpentInput_spec w (prevouts tx)
  change SameTxs w (if fBlock = true then tx.vout.zipIdx.foldl (refreshOutput (P.hashTx tx))
    ((prevouts tx).foldl updateSpentInput w) else (prevouts tx).foldl updateSpentInput w) ∧
      ∀ q, w.IsOwn q → (if fBlock = true then tx.vout.zipIdx.foldl (refreshOutput (P.hashTx tx))
        ((prevouts tx).foldl updateSpentInput w) else (prevouts tx).foldl updateSpentInput w).flag q = _
  cases fBlock with
  | false =>
    refine ⟨hsame, fun q hq ↦ ?_⟩
    rw [Bool.false_and, Bool.not_false, Bool.and_true]
    exact hflag q hq
  | true =>
    have hentry' := (hsame.toCTransaction (P.hashTx tx)).trans (hentry rfl)
    have hsome : (((prevouts tx).foldl updateSpentInput w).mapWallet (P.hashTx tx)).isSome = true := by
      obtain ⟨e, he, -⟩ := Option.map_eq_some_iff.mp hentry'
      rw [he]
      rfl
    obtain ⟨hsame', hflag'⟩ := foldl_refreshOutput_spec _ hsome tx.vout.zipIdx
    refine ⟨hsame.trans hsame', fun q hq ↦ ?_⟩
    have hq' := hsame.isOwn.mpr hq
    rw [if_pos rfl, hflag' q hq', hflag q hq, any_zipIdx hentry' hq', Bool.true_and]

/-- A wallet holds at most this transaction under its id. -/
def Keyed (P : ChainParams) (w : CWallet) (tx : CTransaction) : Prop :=
  ∀ wtx, w.mapWallet (P.hashTx tx) = some wtx → wtx.toCTransaction = tx

theorem toCTransaction_mergeTx : (mergeTx wtx wtx').toCTransaction = wtx.toCTransaction := by
  unfold mergeTx CWalletTx.updateSpent
  split <;> split <;> split <;> rfl

theorem hashBlock_mergeTx (h : wtx'.hashBlock ≠ 0) : (mergeTx wtx wtx').hashBlock = wtx'.hashBlock := by
  unfold mergeTx CWalletTx.updateSpent
  rw [if_pos h]
  split <;> split <;> rfl

/-- A transaction of a block is entered or updated: other transactions stay, and the flags are those of
the events that cleared or set them. -/
theorem addToWallet_spec (hkeyed : Keyed P w tx) (htx : wtx.toCTransaction = tx)
    (hblock : wtx.hashBlock ≠ 0) :
    (w.addToWallet P wtx).isMine = w.isMine ∧
    (w.addToWallet P wtx).nMinimumInputValue = w.nMinimumInputValue ∧
    (∀ h, ((w.addToWallet P wtx).mapWallet h).map (fun e ↦ (e.toCTransaction, e.hashBlock)) =
      if h = P.hashTx tx then some (tx, wtx.hashBlock)
      else (w.mapWallet h).map fun e ↦ (e.toCTransaction, e.hashBlock)) ∧
    ∀ q, (w.addToWallet P wtx).IsOwn q → (w.addToWallet P wtx).flag q =
      (!decide (q.hash = P.hashTx tx) && (w.flag q || decide (q ∈ prevouts tx))) := by
  obtain ⟨new, hnew, hnewTx, hnewBlock⟩ : ∃ new, w.addToWallet P wtx =
      (w.update (P.hashTx tx) new).walletUpdateSpent P tx true ∧
        new.toCTransaction = tx ∧ new.hashBlock = wtx.hashBlock := by
    unfold addToWallet
    rw [decide_eq_true hblock, htx]
    cases hentry : w.mapWallet (P.hashTx tx) with
    | none => exact ⟨wtx, by simp only [hentry, htx], htx, rfl⟩
    | some old =>
      have hold : (mergeTx old wtx).toCTransaction = tx := by
        rw [toCTransaction_mergeTx, hkeyed old hentry]
      exact ⟨mergeTx old wtx, by simp only [hentry, hold], hold, hashBlock_mergeTx hblock⟩
  have hentry : ((w.update (P.hashTx tx) new).mapWallet (P.hashTx tx)).map CWalletTx.toCTransaction =
      some tx := by
    rw [mapWallet_update, if_pos rfl, Option.map_some, hnewTx]
  obtain ⟨hsame, hflag⟩ := walletUpdateSpent_spec (w.update (P.hashTx tx) new) fun _ ↦ hentry
  rw [hnew]
  refine ⟨hsame.isMine, hsame.nMinimumInputValue, fun h ↦ ?_, fun q hq ↦ ?_⟩
  · rw [hsame.entries, mapWallet_update]
    split
    · rw [Option.map_some, hnewTx, hnewBlock]
    · rfl
  · rw [hflag q (hsame.isOwn.mp hq), Bool.true_and, Bool.and_comm]
    by_cases hhash : q.hash = P.hashTx tx
    · rw [decide_eq_true hhash]
      rfl
    · have hold : (w.update (P.hashTx tx) new).flag q = w.flag q := by
        rw [flag, flag, mapWallet_update, if_neg hhash]
      rw [hold]

end CWallet

end Electra.Chain
